import M4KK1.Shell.Passwd

/-!
# The grammar of the user database

`parse_passwd_line` rejects a line with more than seven fields and nothing else.
-/

namespace M4KK1.Shell

open List

/-- The fields of a line, which ends before its NUL. -/
def fieldsOf (line : Text) : List Text := (line.takeWhile (· ≠ 0)).splitOn 58

def IsDecimalDigit (c : UInt8) : Prop := 48 ≤ c ∧ c ≤ 57

instance (c : UInt8) : Decidable (IsDecimalDigit c) := inferInstanceAs (Decidable (_ ∧ _))

def numberFrom (n : Nat) (digits : Text) : Nat :=
  digits.foldl (fun n c => 10 * n + (c.toNat - 48)) n

/-- A decimal number of 32 bits. -/
structure IsNumber (text : Text) : Prop where
  nonempty : text ≠ []
  digits : ∀ c ∈ text, IsDecimalDigit c
  fits : numberFrom 0 text < 2 ^ 32

structure PasswdFields where
  username : Text
  uid : Text
  gid : Text
  home : Text
  shell : Text
  gecos : Text
  passwordHash : Text

/-- A line consists of seven fields, two of them numbers. -/
structure PasswdFields.IsLine (fields : PasswdFields) (line : Text) : Prop where
  fields_eq :
      fieldsOf line = [fields.username, fields.uid, fields.gid, fields.home, fields.shell,
      fields.gecos,
    fields.passwordHash]
  uid : IsNumber fields.uid
  gid : IsNumber fields.gid

/-- An entry holds the numbers of a line and its texts cut to the sizes of the fields. -/
structure PasswdEntry.Holds (entry : PasswdEntry) (fields : PasswdFields) : Prop where
  username : entry.username = fields.username.take 63
  uid : entry.uid.toNat = numberFrom 0 fields.uid
  gid : entry.gid.toNat = numberFrom 0 fields.gid
  home : entry.home = fields.home.take 127
  shell : entry.shell = fields.shell.take 63
  gecos : entry.gecos = fields.gecos.take 127
  passwordHash : entry.passwordHash = fields.passwordHash.take 255

/-- A line of the grammar. -/
def IsPasswdLine (line : Text) : Prop := ∃ fields : PasswdFields, fields.IsLine line

/-- Exactly the lines of the grammar are accepted, and make no one root who is not 0. -/
structure FollowsGrammar (line : Text) : Prop where
  accepts : (parsePasswdLine line).isSome ↔ IsPasswdLine line
  holds : ∀ entry, parsePasswdLine line = some entry →
    ∃ fields : PasswdFields, fields.IsLine line ∧ entry.Holds fields
  root : ∀ entry, parsePasswdLine line = some entry → entry.uid = 0 →
    ∃ fields : PasswdFields, fields.IsLine line ∧ numberFrom 0 fields.uid = 0

/-- Whole fields are stored one after the other. -/
def putFields (field : Nat) (entry : PasswdEntry) : List Text → PasswdEntry
  | [] => entry
  | text :: rest => putFields (field + 1) (text.foldl (fun e c => e.put field c) entry) rest

theorem parseFields_eq (field : Nat) (entry : PasswdEntry) (text : Text) (inRange : field ≤ 6) :
    parseFields field entry text =
      if field + (text.splitOn 58).length ≤ 7 then some (putFields field entry (text.splitOn 58))
        else none := by
  induction text generalizing field entry with
  | nil =>
    rw [parseFields, splitOn_nil, length_singleton, if_pos (Nat.succ_le_succ inRange)]
    rfl
  | cons c text ih =>
    obtain ⟨first, more, split⟩ := exists_cons_of_ne_nil (splitOn_ne_nil (58 : UInt8) text)
    rw [parseFields, splitOn_cons_eq_if_modifyHead]
    by_cases colon : c = 58
    · rw [if_pos colon, if_pos (beq_iff_eq.mpr colon), length_cons, putFields, foldl_nil]
      split
      · next last =>
        have positive : 0 < (text.splitOn 58).length := length_pos_of_ne_nil (splitOn_ne_nil _ _)
        rw [if_neg (by omega)]
      · next another =>
        rw [ih (field + 1) entry (by omega), Nat.add_assoc, Nat.add_comm 1]
    · rw [if_neg colon, if_neg (mt beq_iff_eq.mp colon), ih field _ inRange, split, modifyHead_cons,
        length_cons, length_cons, putFields, putFields, foldl_cons]

theorem parsePasswdLine_eq (line : Text) :
    parsePasswdLine line =
      if (fieldsOf line).length ≤ 7 then some (putFields 0 .blank (fieldsOf line)) else none := by
  rw [parsePasswdLine, parseFields_eq 0 _ _ (Nat.zero_le 6), Nat.zero_add, fieldsOf]

theorem foldl_readDigit (n : Nat) (text : Text) :
    text.foldl readDigit (UInt32.ofNat n) =
      UInt32.ofNat (numberFrom n (text.filter IsDecimalDigit)) := by
  induction text generalizing n with
  | nil => rfl
  | cons c text ih =>
    rw [foldl_cons, filter_cons]
    by_cases digit : IsDecimalDigit c
    · have ten : (10 : UInt32) = UInt32.ofNat 10 := rfl
      have step : readDigit (UInt32.ofNat n) c = UInt32.ofNat (10 * n + (c.toNat - 48)) :=
        (if_pos digit).trans (by rw [ten, ← UInt32.ofNat_mul, ← UInt32.ofNat_add, Nat.mul_comm])
      rw [if_pos (decide_eq_true digit), step, ih]
      rfl
    · have skipped : readDigit (UInt32.ofNat n) c = UInt32.ofNat n := if_neg digit
      rw [if_neg (by simpa using digit), skipped, ih]

theorem IsNumber.value {text : Text} (number : IsNumber text) :
    (text.foldl readDigit 0).toNat = numberFrom 0 text := by
  have allDigits : text.filter IsDecimalDigit = text :=
    filter_eq_self.mpr fun c member => decide_eq_true (number.digits c member)
  rw [show (0 : UInt32) = UInt32.ofNat 0 from rfl, foldl_readDigit, allDigits, UInt32.toNat_ofNat',
    Nat.mod_eq_of_lt number.fits]

theorem putFields_seven (username uid gid home shell gecos passwordHash : Text) :
    putFields 0 .blank [username, uid, gid, home, shell, gecos, passwordHash] =
      ⟨username.take 63, uid.foldl readDigit 0, gid.foldl readDigit 0, home.take 127, shell.take 63,
        gecos.take 127,
        passwordHash.take 255⟩ := by
  rw [putFields, put_username _ _ rfl, putFields, put_uid, putFields, put_gid, putFields,
    put_home _ _ rfl, putFields,
    put_shell _ _ rfl, putFields, put_gecos _ _ rfl, putFields, put_passwordHash _ _ rfl, putFields]
  rfl

variable {line : Text}

theorem PasswdFields.IsLine.parses {fields : PasswdFields} (isLine : fields.IsLine line) :
    ∃ entry, parsePasswdLine line = some entry ∧ entry.Holds fields := by
  have seven : (fieldsOf line).length ≤ 7 := by
    rw [isLine.fields_eq]
    exact Nat.le_refl 7
  have parsed := parsePasswdLine_eq line
  rw [if_pos seven, isLine.fields_eq, putFields_seven] at parsed
  exact ⟨_, parsed, rfl, isLine.uid.value, isLine.gid.value, rfl, rfl, rfl, rfl⟩

theorem IsPasswdLine.length (isLine : IsPasswdLine line) : (fieldsOf line).length = 7 := by
  obtain ⟨fields, isLine⟩ := isLine
  rw [isLine.fields_eq]
  rfl

theorem IsPasswdLine.follows (isLine : IsPasswdLine line) : FollowsGrammar line := by
  obtain ⟨fields, isLine⟩ := isLine
  obtain ⟨entry, parsed, holds⟩ := isLine.parses
  have same {other : PasswdEntry} (alsoParsed : parsePasswdLine line = some other) : other =
      entry :=
    Option.some.inj (alsoParsed.symm.trans parsed)
  refine ⟨⟨fun _ => ⟨fields, isLine⟩, fun _ => Option.isSome_of_eq_some parsed⟩, ?_, ?_⟩
  · intro other alsoParsed
    exact ⟨fields, isLine, same alsoParsed ▸ holds⟩
  · intro other alsoParsed isRoot
    refine ⟨fields, isLine, ?_⟩
    rw [← holds.uid, ← same alsoParsed, isRoot]
    rfl

theorem followsGrammar_of_many (many : 7 < (fieldsOf line).length) : FollowsGrammar line := by
  have rejected : parsePasswdLine line = none := by
    rw [parsePasswdLine_eq, if_neg (Nat.not_le.mpr many)]
  refine ⟨⟨fun accepted => ?_, fun isLine => ?_⟩, fun entry parsed => ?_, fun entry parsed => ?_⟩
  · rw [rejected] at accepted
    cases accepted
  · exact absurd isLine.length many.ne'
  · exact nomatch rejected.symm.trans parsed
  · exact nomatch rejected.symm.trans parsed

theorem FollowsGrammar.isPasswdLine (follows : FollowsGrammar line)
    (few : (fieldsOf line).length ≤ 7) : IsPasswdLine line := by
  refine follows.accepts.mp ?_
  rw [parsePasswdLine_eq, if_pos few]
  rfl

/-- `parse_passwd_line` follows the grammar exactly on its lines and on those with more fields. -/
theorem passwd_line_grammar_iff (line : Text) :
    FollowsGrammar line ↔ IsPasswdLine line ∨ 7 < (fieldsOf line).length := by
  constructor
  · intro follows
    rcases Nat.lt_or_ge 7 (fieldsOf line).length with many | few
    · exact Or.inr many
    · exact Or.inl (follows.isPasswdLine few)
  · rintro (isLine | many)
    · exact isLine.follows
    · exact followsGrammar_of_many many

/-- The line `eve::0:/:/:e:h` has no user number, and `eve` is root. -/
theorem passwd_line_no_number :
    let line := [101, 118, 101, 58, 58, 48, 58, 47, 58, 47, 58, 101, 58, 104]
    parsePasswdLine line = some ⟨[101, 118, 101], 0, 0, [47], [47], [101], [104]⟩ ∧
    ¬ FollowsGrammar line := by
  intro line
  have parsed : parsePasswdLine line = some ⟨[101, 118, 101], 0, 0, [47], [47], [101], [104]⟩ := by
    decide
  refine ⟨parsed, fun follows => ?_⟩
  obtain ⟨fields, isLine, -⟩ := follows.root _ parsed rfl
  have spelled : fieldsOf line = [[101, 118, 101], [], [48], [47], [47], [101], [104]] := by decide
  have second := congrArg (fun texts => texts[1]?) (spelled.symm.trans isLine.fields_eq)
  exact isLine.uid.nonempty (Option.some.inj second).symm

end M4KK1.Shell
