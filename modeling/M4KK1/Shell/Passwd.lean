import M4KK1.Shell.Records

/-!
# The user database

`m4sh/lib/pwd.c`. A text is what stands before the NUL of a C string.
-/

namespace M4KK1.Shell

open List

/-- `passwd_entry_t` -/
@[ext]
structure PasswdEntry where
  username : Text
  uid : UInt32
  gid : UInt32
  home : Text
  shell : Text
  gecos : Text
  passwordHash : Text
deriving DecidableEq

namespace PasswdEntry

/-- An entry after `memset`. -/
def blank : PasswdEntry := ⟨[], 0, 0, [], [], [], []⟩

/-- The line of an entry up to the password hash. -/
def head (entry : PasswdEntry) : Text :=
  entry.username.take 63 ++ 58 :: (decimal entry.uid ++ 58 :: (decimal entry.gid ++ 58 ::
    (entry.home.take 127 ++ 58 :: (entry.shell.take 63 ++ 58 :: (entry.gecos.take 127 ++ [58])))))

/-- The line of an entry without its newline. -/
def body (entry : PasswdEntry) : Text := entry.head ++ entry.passwordHash.take 255

def line (entry : PasswdEntry) : Text := entry.body ++ [10]

end PasswdEntry

/-- The places that the first loop of `musr_update_passwd_db` writes a colon to. -/
def colonMarks : Nat → List PasswdEntry → List Int
  | _, [] => []
  | pos, entry :: rest =>
    ((pos + entry.username.length : Nat) - 1 : Int) :: colonMarks (pos + entry.username.length) rest

/-- The text that the second loop writes behind a position. -/
@[simp] def formatEntries : Nat → List PasswdEntry → Text
  | _, [] => []
  | pos, entry :: rest =>
    if 4096 - (pos : Int) - 1 < 10 then [] else
      entry.line ++ formatEntries (pos + entry.line.length) rest

/-- No write of `musr_update_passwd_db` is outside `buf`. -/
def WritesInside (entries : List PasswdEntry) : Prop :=
  (∀ place ∈ colonMarks 0 entries, 0 ≤ place ∧ place < 4096) ∧
  (formatEntries 0 entries).length ≤ 4096

/-- Whether a file can be opened for writing, and by how much a write falls short. -/
structure Storage where
  opens : Bool
  lost : Nat

/-- `musr_update_passwd_db`. Its second `open` is for reading alone, so no `write` succeeds. -/
def updatePasswdDb (io : Storage) (file : Option Text) (entries : List PasswdEntry) :
    Option Text × Int :=
  if formatEntries 0 entries = [] then (file, -1)
  else if io.opens then
    (some
      (overwrite (file.getD [])
      ((formatEntries 0 entries).take ((formatEntries 0 entries).length - io.lost))),
      if io.lost = 0 then 0 else -1)
  else (file, -1)

namespace PasswdEntry

def put (entry : PasswdEntry) (field : Nat) (c : UInt8) : PasswdEntry :=
  match field with
  | 0 =>
    if entry.username.length < 63 then { entry with username := entry.username ++ [c] } else entry
  | 1 => { entry with uid := readDigit entry.uid c }
  | 2 => { entry with gid := readDigit entry.gid c }
  | 3 => if entry.home.length < 127 then { entry with home := entry.home ++ [c] } else entry
  | 4 => if entry.shell.length < 63 then { entry with shell := entry.shell ++ [c] } else entry
  | 5 => if entry.gecos.length < 127 then { entry with gecos := entry.gecos ++ [c] } else entry
  | 6 =>
    if entry.passwordHash.length < 255 then { entry with passwordHash := entry.passwordHash ++ [c] }
    else entry
  | _ => entry

end PasswdEntry

/-- The loop of `parse_passwd_line` from a field on. -/
@[simp] def parseFields (field : Nat) (entry : PasswdEntry) : Text → Option PasswdEntry
  | [] => some entry
  | c :: rest =>
    if c = 58 then if field + 1 > 6 then none else parseFields (field + 1) entry rest
    else parseFields field (entry.put field c) rest

def parsePasswdLine (line : Text) : Option PasswdEntry :=
  parseFields 0 .blank (line.takeWhile (· ≠ 0))

def passwdOfLine (line : Text) : List PasswdEntry :=
  if line ≠ [] ∧ line.head? ≠ some 35 then (parsePasswdLine line).toList else []

/-- The line that is being read and the entries so far. -/
structure PasswdReading where
  line : Text
  entries : List PasswdEntry

/-- The loop of `musr_read_passwd_db`. -/
@[simp] def readEntries (max : Nat) (reading : PasswdReading) : Text → PasswdReading
  | [] => reading
  | c :: rest =>
    if reading.entries.length < max then
      if c = 10 then readEntries max ⟨[], reading.entries ++ passwdOfLine reading.line⟩ rest
      else if reading.line.length < 511 then readEntries max ⟨reading.line ++ [c],
        reading.entries⟩ rest
      else readEntries max reading rest
    else reading

/-- `musr_read_passwd_db`: the result and the entries. -/
def readPasswdDb (file : Option Text) (max : Nat) : Int × List PasswdEntry :=
  match file with
  | none => (0, [])
  | some contents =>
    if contents.take 2047 = [] then (-1, [])
    else
      let entries := (readEntries max ⟨[], []⟩ (contents.take 2047)).entries
      (entries.length, entries)

def PasswdFits (limit : Nat) (text : Text) : Prop :=
  text.length ≤ limit ∧ 0 ∉ text ∧ 10 ∉ text ∧ 58 ∉ text ∧ text.head? ≠ some 35

instance (limit : Nat) (text : Text) : Decidable (PasswdFits limit text) :=
  inferInstanceAs (Decidable (_ ∧ _ ∧ _ ∧ _ ∧ _))

/-- An entry whose texts have no colon and no newline and fit their fields. -/
structure PasswdEntry.WellFormed (entry : PasswdEntry) : Prop where
  username : PasswdFits 63 entry.username
  home : PasswdFits 127 entry.home
  shell : PasswdFits 63 entry.shell
  gecos : PasswdFits 127 entry.gecos
  passwordHash : PasswdFits 255 entry.passwordHash

end M4KK1.Shell

/-!
## The user database is read back

What `musr_read_passwd_db` finds are the entries of the finished lines of the first 2047
bytes, each cut after 511 characters. From this follows for which lists, and for which
contents before, `musr_update_passwd_db` does not lose or add an entry when it returns 0.
-/

namespace M4KK1.Shell

open List

theorem passwdOfLine_length (line : Text) : (passwdOfLine line).length ≤ 1 := by
  rw [passwdOfLine]
  split
  · cases parsePasswdLine line with
    | none => exact Nat.zero_le 1
    | some entry => exact Nat.le_refl 1
  · exact Nat.zero_le 1

/-- What a whole line of the file adds to the entries. -/
def entriesOfLine (line : Text) : List PasswdEntry := passwdOfLine (line.take 511)

theorem entriesOfLines_length (lines : List Text) :
    (lines.flatMap entriesOfLine).length ≤ lines.length := by
  induction lines with
  | nil => exact Nat.le_refl 0
  | cons line lines ih =>
    rw [flatMap_cons, length_append, length_cons]
    have one : (entriesOfLine line).length ≤ 1 := passwdOfLine_length _
    omega

theorem readEntries_eq (max : Nat) (begun text : Text) (entries : List PasswdEntry)
    (room : entries.length ≤ max) :
    (readEntries max ⟨begun.take 511, entries⟩ text).entries =
      (entries ++ (linesFrom begun text).flatMap entriesOfLine).take max := by
  induction text generalizing begun entries with
  | nil =>
    rw [readEntries, linesFrom, flatMap_nil, append_nil, take_of_length_le room]
  | cons c rest ih =>
    rw [readEntries]
    split
    · next more =>
      split
      · next newline =>
        have added : (entries ++ passwdOfLine (begun.take 511)).length ≤ max := by
          rw [length_append]
          have one := passwdOfLine_length (begun.take 511)
          exact (Nat.add_le_add_left one _).trans more
        have next := ih [] (entries ++ passwdOfLine (begun.take 511)) added
        rw [take_nil] at next
        rw [next, linesFrom, if_pos newline, flatMap_cons, append_assoc, entriesOfLine]
      · next other =>
        rw [linesFrom, if_neg other]
        split
        · next short =>
          have whole : begun.length < 511 := by
            rw [length_take] at short
            omega
          have longer : begun.take 511 ++ [c] = (begun ++ [c]).take 511 := by
            rw [take_of_length_le whole.le, take_of_length_le]
            rw [length_append]
            exact whole
          rw [longer, ih _ _ room]
        · next full =>
          have cut : begun.take 511 = (begun ++ [c]).take 511 := by
            rw [length_take] at full
            rw [take_append_of_le_length (by omega)]
          rw [cut, ih _ _ room]
    · next none_ =>
      have isFull : entries.length = max := Nat.le_antisymm room (Nat.not_lt.mp none_)
      rw [take_append_of_le_length isFull.ge, take_of_length_le room]

theorem parseFields_plain (field : Nat) (entry : PasswdEntry) {text : Text} (rest : Text)
    (plain : 58 ∉ text) :
    parseFields field entry (text ++ rest) =
      parseFields field (text.foldl (fun e c => e.put field c) entry) rest := by
  induction text generalizing entry with
  | nil => rfl
  | cons c text ih =>
    have other : c ≠ 58 := fun same => plain (same ▸ mem_cons_self)
    rw [cons_append, parseFields, if_neg other, ih _ fun later => plain (mem_cons_of_mem c later),
      foldl_cons]

theorem parseFields_field (field : Nat) (entry : PasswdEntry) {text : Text} (rest : Text)
    (plain : 58 ∉ text)
    (another : field < 6) :
    parseFields field entry (text ++ 58 :: rest) =
      parseFields (field + 1) (text.foldl (fun e c => e.put field c) entry) rest := by
  rw [parseFields_plain field entry _ plain, parseFields, if_pos rfl, if_neg (by omega)]

variable (text : Text)

section

variable (entry : PasswdEntry)

include entry

theorem put_uid :
    text.foldl (fun e c => e.put 1 c) entry =
      { entry with uid := text.foldl readDigit entry.uid } :=
  Field.foldl_number
    ⟨fun e : PasswdEntry => e.uid, fun e n => { e with uid := n }, fun _ _ => rfl, fun _ _ _ => rfl,
      fun _ => rfl⟩
    (fun _ _ => rfl) entry text

theorem put_gid :
    text.foldl (fun e c => e.put 2 c) entry =
      { entry with gid := text.foldl readDigit entry.gid } :=
  Field.foldl_number
    ⟨fun e : PasswdEntry => e.gid, fun e n => { e with gid := n }, fun _ _ => rfl, fun _ _ _ => rfl,
      fun _ => rfl⟩
    (fun _ _ => rfl) entry text

theorem put_username (isBlank : entry.username = []) :
    text.foldl (fun e c => e.put 0 c) entry = { entry with username := text.take 63 } :=
  Field.foldl_text_blank
    ⟨fun e : PasswdEntry => e.username, fun e t => { e with username := t }, fun _ _ => rfl,
      fun _ _ _ => rfl, fun _ => rfl⟩
    (fun _ _ => rfl) isBlank

theorem put_home (isBlank : entry.home = []) :
    text.foldl (fun e c => e.put 3 c) entry = { entry with home := text.take 127 } :=
  Field.foldl_text_blank
    ⟨fun e : PasswdEntry => e.home, fun e t => { e with home := t }, fun _ _ => rfl,
      fun _ _ _ => rfl, fun _ => rfl⟩
    (fun _ _ => rfl) isBlank

theorem put_shell (isBlank : entry.shell = []) :
    text.foldl (fun e c => e.put 4 c) entry = { entry with shell := text.take 63 } :=
  Field.foldl_text_blank
    ⟨fun e : PasswdEntry => e.shell, fun e t => { e with shell := t }, fun _ _ => rfl,
      fun _ _ _ => rfl, fun _ => rfl⟩
    (fun _ _ => rfl) isBlank

theorem put_gecos (isBlank : entry.gecos = []) :
    text.foldl (fun e c => e.put 5 c) entry = { entry with gecos := text.take 127 } :=
  Field.foldl_text_blank
    ⟨fun e : PasswdEntry => e.gecos, fun e t => { e with gecos := t }, fun _ _ => rfl,
      fun _ _ _ => rfl, fun _ => rfl⟩
    (fun _ _ => rfl) isBlank

theorem put_passwordHash (isBlank : entry.passwordHash = []) :
    text.foldl (fun e c => e.put 6 c) entry = { entry with passwordHash := text.take 255 } :=
  Field.foldl_text_blank
    ⟨fun e : PasswdEntry => e.passwordHash, fun e t => { e with passwordHash := t }, fun _ _ => rfl,
      fun _ _ _ => rfl, fun _ => rfl⟩
    (fun _ _ => rfl) isBlank

end

namespace PasswdEntry

/-- An entry as it is read back from a line that is cut after 511 characters. -/
def cut (entry : PasswdEntry) : PasswdEntry :=
  { entry with passwordHash := entry.passwordHash.take (511 - entry.head.length) }

variable {entry : PasswdEntry}

theorem head_eq (wellFormed : entry.WellFormed) :
    entry.head = entry.username ++ 58 :: (decimal entry.uid ++ 58 :: (decimal entry.gid ++ 58 ::
      (entry.home ++ 58 :: (entry.shell ++ 58 :: (entry.gecos ++ [58]))))) := by
  rw [head, take_of_length_le wellFormed.username.1, take_of_length_le wellFormed.home.1,
    take_of_length_le wellFormed.shell.1, take_of_length_le wellFormed.gecos.1]

theorem body_eq (wellFormed : entry.WellFormed) :
    entry.body = entry.head ++ entry.passwordHash := by
  rw [body, take_of_length_le wellFormed.passwordHash.1]

theorem head_length (entry : PasswdEntry) : 6 ≤ entry.head.length ∧ entry.head.length ≤ 406 := by
  have uid := decimal_length entry.uid
  have gid := decimal_length entry.gid
  simp only [head, length_append, length_cons, length_take, length_nil]
  omega

section

variable (wellFormed : entry.WellFormed)

include wellFormed

theorem not_mem_body {c : UInt8} (notColon : c ≠ 58) (notDigit : c < 48)
    (username : c ∉ entry.username) (home : c ∉ entry.home) (shell : c ∉ entry.shell)
    (gecos : c ∉ entry.gecos)
    (passwordHash : c ∉ entry.passwordHash) : c ∉ entry.body := by
  have uid : c ∉ decimal entry.uid := fun digit =>
    UInt8.not_lt.mpr (decimal_plain _ digit).1 notDigit
  have gid : c ∉ decimal entry.gid := fun digit =>
    UInt8.not_lt.mpr (decimal_plain _ digit).1 notDigit
  rw [body_eq wellFormed, head_eq wellFormed]
  simp only [mem_append, mem_cons, not_mem_nil, or_false, not_or]
  exact ⟨⟨username, notColon, uid, notColon, gid, notColon, home, notColon, shell, notColon, gecos,
    notColon⟩,
    passwordHash⟩

theorem body_oneLine : 10 ∉ entry.body :=
  not_mem_body wellFormed (by decide) (by decide) wellFormed.username.2.2.1 wellFormed.home.2.2.1
    wellFormed.shell.2.2.1 wellFormed.gecos.2.2.1 wellFormed.passwordHash.2.2.1

theorem body_noNul : 0 ∉ entry.body :=
  not_mem_body wellFormed (by decide) (by decide) wellFormed.username.2.1 wellFormed.home.2.1
    wellFormed.shell.2.1 wellFormed.gecos.2.1 wellFormed.passwordHash.2.1

theorem head_start (rest : Text) : (entry.head ++ rest).head? ≠ some 35 := by
  have start := wellFormed.username.2.2.2.2
  rw [head_eq wellFormed]
  cases name : entry.username with
  | nil => exact fun comment => nomatch comment
  | cons c cs =>
    rw [name] at start
    exact start

theorem body_take : entry.body.take 511 = entry.head ++ entry.cut.passwordHash := by
  have short := entry.head_length.2
  rw [body_eq wellFormed, take_append, take_of_length_le (by omega), cut]

theorem parsePasswdLine_head {hash : Text} (part : hash <+: entry.passwordHash)
    (noNul : 0 ∉ entry.head ++ hash) :
    parsePasswdLine (entry.head ++ hash) = some { entry with passwordHash := hash } := by
  have whole : (entry.head ++ hash).takeWhile (· ≠ 0) = entry.head ++ hash :=
    takeWhile_noNul noNul
  have digits (n : UInt32) : 58 ∉ decimal n :=
    fun digit => absurd (decimal_plain n digit).2 (by decide)
  have hashPlain : 58 ∉ hash := fun member => wellFormed.passwordHash.2.2.2.1 (part.subset member)
  rw [parsePasswdLine, whole, head_eq wellFormed]
  simp only [append_assoc, cons_append, nil_append]
  rw [parseFields_field 0 _ _ wellFormed.username.2.2.2.1 (by decide), put_username _ _ rfl,
    take_of_length_le wellFormed.username.1,
    parseFields_field 1 _ _ (digits _) (by decide), put_uid,
    parseFields_field 2 _ _ (digits _) (by decide), put_gid,
    parseFields_field 3 _ _ wellFormed.home.2.2.2.1 (by decide), put_home _ _ rfl,
    take_of_length_le wellFormed.home.1,
    parseFields_field 4 _ _ wellFormed.shell.2.2.2.1 (by decide), put_shell _ _ rfl,
    take_of_length_le wellFormed.shell.1,
    parseFields_field 5 _ _ wellFormed.gecos.2.2.2.1 (by decide), put_gecos _ _ rfl,
    take_of_length_le wellFormed.gecos.1]
  have last := parseFields_plain 6 { blank with
    username := entry.username, uid := (decimal entry.uid).foldl readDigit 0, gid :=
      (decimal entry.gid).foldl readDigit 0,
    home := entry.home, shell := entry.shell, gecos := entry.gecos } [] hashPlain
  rw [append_nil, put_passwordHash _ _ rfl,
    take_of_length_le (part.length_le.trans wellFormed.passwordHash.1)] at last
  refine last.trans ?_
  rw [parseFields, decimal_value, decimal_value]

theorem entriesOfLine_body : entriesOfLine entry.body = [entry.cut] := by
  have noNul : 0 ∉ entry.head ++ entry.cut.passwordHash := by
    rw [← body_take wellFormed]
    exact fun member => body_noNul wellFormed (mem_of_mem_take member)
  have part : entry.cut.passwordHash <+: entry.passwordHash := take_prefix _ _
  have nonempty : entry.head ++ entry.cut.passwordHash ≠ [] := by
    have long := entry.head_length.1
    intro empty
    rw [(append_eq_nil_iff.mp empty).1] at long
    cases long
  rw [entriesOfLine, body_take wellFormed, passwdOfLine, if_pos ⟨nonempty, head_start wellFormed _⟩,
    parsePasswdLine_head wellFormed part noNul]
  rfl

theorem cut_eq_iff : entry.cut = entry ↔ entry.body.length ≤ 511 := by
  have short := entry.head_length.2
  rw [body_eq wellFormed, length_append]
  constructor
  · intro same
    have hash := congrArg (fun e => e.passwordHash.length) same
    simp only [cut, length_take] at hash
    omega
  · intro fits
    rw [cut, take_of_length_le (by omega)]

end

end PasswdEntry

def databaseText (entries : List PasswdEntry) : Text := entries.flatMap PasswdEntry.line

theorem databaseText_cons (entry : PasswdEntry) (rest : List PasswdEntry) :
    databaseText (entry :: rest) = entry.line ++ databaseText rest :=
  rfl

variable {entries : List PasswdEntry}

theorem linesFrom_database (wellFormed : ∀ entry ∈ entries, entry.WellFormed) (rest : Text) :
    linesFrom [] (databaseText entries ++ rest) =
      entries.map PasswdEntry.body ++ linesFrom [] rest := by
  induction entries with
  | nil => rfl
  | cons entry entries ih =>
    have oneLine := PasswdEntry.body_oneLine (wellFormed entry mem_cons_self)
    rw [databaseText_cons, PasswdEntry.line, append_assoc, append_assoc, singleton_append,
      linesFrom_line [] _ oneLine, ih fun later member =>
        wellFormed later (mem_cons_of_mem entry member)]
    rfl

theorem database_newlines (wellFormed : ∀ entry ∈ entries, entry.WellFormed) :
    (databaseText entries).count 10 = entries.length := by
  have lines := linesFrom_database wellFormed []
  rw [append_nil, linesFrom, append_nil] at lines
  rw [← linesFrom_length [], lines, length_map]

variable (pos : Nat)

theorem formatEntries_begins (entries : List PasswdEntry) :
    formatEntries pos entries <+: databaseText entries := by
  induction entries generalizing pos with
  | nil => exact prefix_rfl
  | cons entry rest ih =>
    rw [formatEntries, databaseText_cons]
    split
    · exact nil_prefix
    · exact (prefix_append_right_inj _).mpr (ih _)

theorem formatEntries_stops (entries : List PasswdEntry) :
    formatEntries pos entries = databaseText entries ∨
    4085 < pos + (formatEntries pos entries).length := by
  induction entries generalizing pos with
  | nil => exact .inl rfl
  | cons entry rest ih =>
    rw [formatEntries, databaseText_cons]
    split
    · next stopped =>
      refine .inr ?_
      rw [length_nil]
      omega
    · rw [length_append, ← Nat.add_assoc]
      exact (ih (pos + entry.line.length)).imp (fun same => by rw [same]) id

theorem formatEntries_newline (entries : List PasswdEntry) :
    formatEntries pos entries = [] ∨ ∃ before, formatEntries pos entries = before ++ [10] := by
  induction entries generalizing pos with
  | nil => exact .inl rfl
  | cons entry rest ih =>
    rw [formatEntries]
    split
    · exact .inl rfl
    · rcases ih (pos + entry.line.length) with last | ⟨before, more⟩
      · exact .inr ⟨entry.body, by rw [last, append_nil, PasswdEntry.line]⟩
      · exact .inr ⟨entry.line ++ before, by rw [more, append_assoc]⟩

theorem formatEntries_eq_nil_iff (entries : List PasswdEntry) :
    formatEntries 0 entries = [] ↔ entries = [] := by
  cases entries with
  | nil => exact ⟨fun _ => rfl, fun _ => rfl⟩
  | cons entry rest =>
    have firstFits : ¬4096 - ((0 : Nat) : Int) - 1 < 10 := by decide
    rw [formatEntries, if_neg firstFits, PasswdEntry.line]
    exact ⟨fun empty => by simp at empty, fun empty => nomatch empty⟩

theorem formatEntries_short (short : (databaseText entries).length ≤ 2047) :
    formatEntries 0 entries = databaseText entries := by
  rcases formatEntries_stops 0 entries with all | stopped
  · exact all
  · have shorter := (formatEntries_begins 0 entries).length_le
    omega

/-- No entry that the loop begins to write goes beyond the end of the buffer. -/
def NoOverrun (entries : List PasswdEntry) : Prop :=
  ∀ before entry after, entries = before ++ entry :: after → (databaseText before).length ≤ 4085 →
    (databaseText before).length + entry.line.length ≤ 4096

theorem formatEntries_inside (inside : pos ≤ 4096) (entries : List PasswdEntry) :
    pos + (formatEntries pos entries).length ≤ 4096 ↔
      ∀ before entry after, entries = before ++ entry :: after →
        pos + (databaseText before).length ≤ 4085 →
        pos + (databaseText before).length + entry.line.length ≤ 4096 := by
  induction entries generalizing pos with
  | nil =>
    refine ⟨fun _ before entry after split => ?_, fun _ => inside⟩
    cases before <;> cases split
  | cons first rest ih =>
    rw [formatEntries]
    split
    · next stopped =>
      exact ⟨fun _ before entry after split more => by omega, fun _ => inside⟩
    · next begun =>
      rw [length_append, ← Nat.add_assoc]
      constructor
      · rintro written (_ | ⟨_, before⟩) entry after split more
        · cases split
          exact Nat.le_of_add_right_le written
        · cases split
          rw [databaseText_cons, length_append, ← Nat.add_assoc] at more ⊢
          exact (ih _ (Nat.le_of_add_right_le written)).mp written before entry after rfl more
      · intro each
        have firstInside : pos + first.line.length ≤ 4096 := each [] first rest rfl (by
          rw [databaseText, flatMap_nil, length_nil]
          omega)
        refine (ih _ firstInside).mpr fun before entry after split more => ?_
        have later := each (first :: before) entry after (by rw [split]; rfl)
        rw [databaseText_cons, length_append, ← Nat.add_assoc] at later
        exact later more

theorem noOverrun_iff (entries : List PasswdEntry) :
    (formatEntries 0 entries).length ≤ 4096 ↔ NoOverrun entries := by
  have inside := formatEntries_inside 0 (Nat.zero_le _) entries
  simp only [Nat.zero_add] at inside
  exact inside

theorem colonMarks_range (wellFormed : ∀ entry ∈ entries, entry.WellFormed) (pos : Nat) :
    ∀ place ∈ colonMarks pos entries, (pos : Int) - 1 ≤ place ∧
      place < pos + 63 * entries.length := by
  induction entries generalizing pos with
  | nil => exact fun place absent => nomatch absent
  | cons entry rest ih =>
    intro place member
    have nameFits := (wellFormed entry mem_cons_self).username.1
    rw [length_cons]
    rcases mem_cons.mp member with rfl | later
    · omega
    · have range := ih (fun e inRest => wellFormed e (mem_cons_of_mem entry inRest)) _ place later
      omega

theorem colonMarks_inside (wellFormed : ∀ entry ∈ entries, entry.WellFormed)
    (short : entries.length ≤ 32) :
    (∀ place ∈ colonMarks 0 entries, 0 ≤ place ∧ place < 4096) ↔
    ∀ first ∈ entries.head?, first.username ≠ [] := by
  cases entries with
  | nil => exact ⟨fun _ first absent => (nomatch absent), fun _ place absent => (nomatch absent)⟩
  | cons entry rest =>
    rw [length_cons] at short
    constructor
    · rintro inside first ⟨⟩ isEmpty
      have atFirst := (inside _ mem_cons_self).1
      rw [isEmpty, length_nil] at atFirst
      omega
    · intro named place member
      have length : 0 < entry.username.length := length_pos_of_ne_nil (named entry rfl)
      have nameFits := (wellFormed entry mem_cons_self).username.1
      rcases mem_cons.mp member with rfl | later
      · omega
      · have range :=
          colonMarks_range (fun e inRest => wellFormed e (mem_cons_of_mem entry inRest)) _ place
          later
        omega

/-- The entries of the lines that the contents before have left behind a text of some length. -/
def staleEntries (file : Option Text) (total : Nat) : List PasswdEntry :=
  (linesFrom [] (((file.getD []).take 2047).drop total)).flatMap entriesOfLine

theorem readPasswdDb_some {contents : Text} (max : Nat) (nonempty : contents ≠ []) :
    readPasswdDb (some contents) max =
      (((((linesFrom [] (contents.take 2047)).flatMap entriesOfLine).take max).length : Int),
        ((linesFrom [] (contents.take 2047)).flatMap entriesOfLine).take max) := by
  have someRead : contents.take 2047 ≠ [] := fun none_ =>
    nonempty ((take_eq_nil_iff.mp none_).resolve_left (by decide))
  have read := readEntries_eq max [] (contents.take 2047) [] (Nat.zero_le max)
  rw [take_nil, nil_append] at read
  simp only [readPasswdDb, if_neg someRead, read]

theorem read_overwritten (old : Text) (wellFormed : ∀ entry ∈ entries, entry.WellFormed)
    (short : (databaseText entries).length ≤ 2047) :
    (linesFrom [] ((overwrite old (databaseText entries)).take 2047)).flatMap entriesOfLine =
      entries.map PasswdEntry.cut ++ staleEntries (some old) (databaseText entries).length := by
  have stays : (overwrite old (databaseText entries)).take 2047 =
      databaseText entries ++ (old.take 2047).drop (databaseText entries).length := by
    rw [overwrite, take_append, take_of_length_le short, drop_take]
  rw [stays, linesFrom_database wellFormed, flatMap_append, staleEntries, Option.getD_some]
  congr 1
  rw [flatMap_map]
  calc entries.flatMap (fun entry => entriesOfLine entry.body)
      = entries.flatMap (fun entry => [entry.cut]) :=
        flatMap_congr fun entry member => PasswdEntry.entriesOfLine_body (wellFormed entry member)
    _ = entries.map PasswdEntry.cut := flatMap_pure_eq_map _ _

theorem read_tooLong (old : Text) (wellFormed : ∀ entry ∈ entries, entry.WellFormed)
    (long : 2047 < (databaseText entries).length) :
    ((linesFrom []
      ((overwrite old (formatEntries 0 entries)).take 2047)).flatMap entriesOfLine).length <
      entries.length := by
  have textLong : 2047 < (formatEntries 0 entries).length := by
    rcases formatEntries_stops 0 entries with all | stopped
    · rw [all]
      exact long
    · omega
  obtain ⟨before, ends⟩ := (formatEntries_newline 0 entries).resolve_left fun none_ => by
    rw [none_] at textLong
    cases textLong
  have beforeLong : 2047 ≤ before.length := by
    rw [ends, length_append] at textLong
    exact Nat.le_of_lt_succ textLong
  have read : (overwrite old (formatEntries 0 entries)).take 2047 = before.take 2047 := by
    rw [overwrite, ends, append_assoc, take_append_of_le_length beforeLong]
  have newlines : before.count 10 + 1 ≤ entries.length := by
    have all := (formatEntries_begins 0 entries).sublist.count_le 10
    rw [database_newlines wellFormed, ends, count_append] at all
    exact all
  calc
    ((linesFrom []
      ((overwrite old (formatEntries 0 entries)).take 2047)).flatMap entriesOfLine).length
      ≤ (linesFrom [] ((overwrite old (formatEntries 0 entries)).take 2047)).length :=
        entriesOfLines_length _
    _ = (before.take 2047).count 10 := by rw [read, linesFrom_length]
    _ ≤ before.count 10 := (take_sublist _ _).count_le 10
    _ < entries.length := newlines

/-- The update either reports a failure or leaves exactly these entries to be read. -/
def ReadBack (io : Storage) (file : Option Text) (entries : List PasswdEntry) (max : Nat) : Prop :=
  (updatePasswdDb io file entries).2 = 0 →
    readPasswdDb (updatePasswdDb io file entries).1 max = ((entries.length : Int), entries)

/-- The list fits 2047 bytes and 511 characters a line, and no old entry stands behind it. -/
structure Held (file : Option Text) (entries : List PasswdEntry) (max : Nat) : Prop where
  short : (databaseText entries).length ≤ 2047
  lines : ∀ entry ∈ entries, entry.body.length ≤ 511
  alone : entries.length = max ∨ staleEntries file (databaseText entries).length = []

theorem readBack_iff_held {io : Storage} {file : Option Text} {max : Nat}
    (wellFormed : ∀ entry ∈ entries, entry.WellFormed) (room : entries.length ≤ max)
    (some_ : entries ≠ [])
    (opens : io.opens = true) (whole : io.lost = 0) :
    ReadBack io file entries max ↔ Held file entries max := by
  have written : formatEntries 0 entries ≠ [] :=
    fun none_ => some_ ((formatEntries_eq_nil_iff entries).mp none_)
  have update : updatePasswdDb io file entries =
      (some (overwrite (file.getD []) (formatEntries 0 entries)), 0) := by
    rw [updatePasswdDb, if_neg written, if_pos opens, whole, Nat.sub_zero, take_length, if_pos rfl]
  have nonempty : overwrite (file.getD []) (formatEntries 0 entries) ≠ [] := fun none_ =>
    written (append_eq_nil_iff.mp none_).1
  have reads : ReadBack io file entries max ↔
      ((linesFrom [] ((overwrite (file.getD []) (formatEntries 0 entries)).take 2047)).flatMap
        entriesOfLine).take max = entries := by
    rw [ReadBack, update, readPasswdDb_some max nonempty]
    constructor
    · exact fun same => (Prod.ext_iff.mp (same rfl)).2
    · intro same _
      rw [same]
  rw [reads]
  by_cases short : (databaseText entries).length ≤ 2047
  · rw [formatEntries_short short, read_overwritten (file.getD []) wellFormed short]
    have stale : staleEntries (some (file.getD [])) = staleEntries file := by
      cases file <;> rfl
    have cutsFit : (entries.map PasswdEntry.cut).length ≤ max := by
      rw [length_map]
      exact room
    have cuts : entries.map PasswdEntry.cut = entries ↔
        ∀ entry ∈ entries, entry.body.length ≤ 511 := by
      conv_lhs => rhs; rw [← map_id entries]
      rw [map_inj_left]
      exact forall₂_congr fun entry member => PasswdEntry.cut_eq_iff (wellFormed entry member)
    rw [stale]
    constructor
    · intro same
      have front : entries.map PasswdEntry.cut = entries := by
        have cutPrefix : entries.map PasswdEntry.cut <+: entries := by
          rw [take_append, take_of_length_le cutsFit] at same
          exact ⟨_, same⟩
        exact cutPrefix.eq_of_length (length_map _)
      refine ⟨short, cuts.mp front, ?_⟩
      rw [front] at same
      exact (take_append_eq_left room).mp same
    · intro held
      rw [cuts.mpr held.lines]
      exact (take_append_eq_left room).mpr held.alone
  · refine ⟨fun same => ?_, fun held => absurd held.short short⟩
    have lost := read_tooLong (file.getD []) wellFormed (Nat.lt_of_not_le short)
    have less := congrArg List.length same
    rw [length_take] at less
    omega

theorem readBack_of_failure {io : Storage} {file : Option Text} {max : Nat}
    (fails : ¬(entries ≠ [] ∧ io.opens = true ∧ io.lost = 0)) : ReadBack io file entries max := by
  intro succeeds
  by_cases none_ : formatEntries 0 entries = []
  · rw [updatePasswdDb, if_pos none_] at succeeds
    cases succeeds
  · by_cases opens : io.opens = true
    · rw [updatePasswdDb, if_neg none_, if_pos opens] at succeeds
      have short : io.lost ≠ 0 := fun whole =>
        fails ⟨fun isNil => none_ ((formatEntries_eq_nil_iff entries).mpr isNil), opens, whole⟩
      rw [if_neg short] at succeeds
      cases succeeds
    · rw [updatePasswdDb, if_neg none_, if_neg opens] at succeeds
      cases succeeds

/-- The first name is not empty, and the list is stored and held, or not stored. -/
def StoresOrFails (io : Storage) (file : Option Text) (entries : List PasswdEntry) (max : Nat) :
    Prop :=
  (∀ first ∈ entries.head?, first.username ≠ []) ∧
    (entries ≠ [] ∧ io.opens = true ∧ io.lost = 0 → Held file entries max) ∧
    (¬(io.opens = true ∧ io.lost = 0) → NoOverrun entries)

theorem noOverrun_of_short (short : (databaseText entries).length ≤ 2047) : NoOverrun entries := by
  rw [← noOverrun_iff, formatEntries_short short]
  omega

/-- `musr_update_passwd_db` is right exactly under this condition. -/
theorem passwd_round_trip_iff (io : Storage) (file : Option Text) {entries : List PasswdEntry}
    {max : Nat}
    (wellFormed : ∀ entry ∈ entries, entry.WellFormed) (short : entries.length ≤ 32)
    (room : entries.length ≤ max) :
    WritesInside entries ∧ ReadBack io file entries max ↔ StoresOrFails io file entries max := by
  rw [WritesInside, StoresOrFails, colonMarks_inside wellFormed short, noOverrun_iff, and_assoc]
  refine and_congr_right fun _ => ?_
  by_cases stored : entries ≠ [] ∧ io.opens = true ∧ io.lost = 0
  · rw [readBack_iff_held wellFormed room stored.1 stored.2.1 stored.2.2]
    constructor
    · rintro ⟨inside, held⟩
      exact ⟨fun _ => held, fun notStored => absurd stored.2 notStored⟩
    · rintro ⟨held, _⟩
      exact ⟨noOverrun_of_short (held stored).short, held stored⟩
  · constructor
    · rintro ⟨inside, _⟩
      exact ⟨fun now => absurd now stored, fun _ => inside⟩
    · rintro ⟨_, inside⟩
      refine ⟨?_, readBack_of_failure stored⟩
      by_cases none_ : entries = []
      · rw [none_]
        exact fun before entry after split => by cases before <;> cases split
      · exact inside fun now => stored ⟨none_, now⟩

def shortEntry (letter : UInt8) (number : UInt32) : PasswdEntry :=
  ⟨[letter], number, number, [], [], [], []⟩

theorem shortEntry_wellFormed : ∀ entry ∈ [shortEntry 114 0], entry.WellFormed := by
  rintro entry (_ | ⟨_, ⟨⟩⟩)
  exact ⟨by decide, by decide, by decide, by decide, by decide⟩

def threeUsers : List PasswdEntry :=
  [shortEntry 114 0, ⟨[117], 1000, 100, [47, 104], [47, 115], [85], [36, 48]⟩, shortEntry 118 1001]

/-- Three entries written over a file of two. -/
theorem passwd_round_trip_grown : WritesInside threeUsers ∧
    ReadBack ⟨true, 0⟩ (some (databaseText [shortEntry 114 0, shortEntry 117 1])) threeUsers
      32 := by
  have wellFormed : ∀ entry ∈ threeUsers, entry.WellFormed := by
    rintro entry (_ | ⟨_, _ | ⟨_, _ | ⟨_, ⟨⟩⟩⟩⟩)
    · exact ⟨by decide, by decide, by decide, by decide, by decide⟩
    · exact ⟨by decide, by decide, by decide, by decide, by decide⟩
    · exact ⟨by decide, by decide, by decide, by decide, by decide⟩
  refine (passwd_round_trip_iff ⟨true, 0⟩ _ wellFormed (by decide) (by decide)).mpr
    ⟨by decide, fun _ => ?_, fun notStored => absurd ⟨rfl, rfl⟩ notStored⟩
  exact ⟨by decide, by decide, .inr (by decide)⟩

/-- A user that was taken out of the list stays in the file, because it is not truncated. -/
theorem removed_user_stays :
    ¬∀ (io : Storage) (file : Option Text) (entries : List PasswdEntry),
      (∀ entry ∈ entries, entry.WellFormed) → entries.length ≤ 32 →
      WritesInside entries ∧ ReadBack io file entries 32 := by
  intro always
  have back :=
    (always ⟨true, 0⟩ (some (databaseText [shortEntry 114 0, shortEntry 117 1])) [shortEntry 114 0]
    shortEntry_wellFormed (by decide)).2 (by decide)
  exact absurd back (by decide)

end M4KK1.Shell
