import M4KK1.Shell.Records

/-!
# The group database

`m4sh/lib/grp.c`. A text is what stands before the NUL of a C string.
-/

namespace M4KK1.Shell

open List

/-- `group_entry_t` -/
@[ext]
structure GroupEntry where
  groupname : Text
  gid : UInt32
  members : Text
deriving DecidableEq

namespace GroupEntry

/-- The line of a group up to its members, in a buffer of 512 characters. -/
def head (group : GroupEntry) : Text :=
  let name := group.groupname.take 511 ++ [58]
  name ++ (decimal group.gid).take (511 - name.length) ++ [58]

/-- The line of a group without its newline. -/
def body (group : GroupEntry) : Text := group.head ++ group.members.take (510 - group.head.length)

def line (group : GroupEntry) : Text := group.body ++ [10]

end GroupEntry

/-- `groups.db` and the temporary file, where each exists, or one inode that has both names. -/
inductive GroupFiles where
  | apart (file tmp : Option Text)
  | linked (contents : Text)

/-- Whether the temporary file opens, by how much each write falls short, and whether the rename
can insert the new directory entry and delete the old one. -/
structure GroupStorage where
  opens : Bool
  lost : Nat → Nat
  inserts : Bool
  deletes : Bool

/-- What the loop of `musr_update_groups_db` stores of the lines from the index on. -/
def storedLines (lost : Nat → Nat) : Nat → List GroupEntry → Text
  | _, [] => []
  | i, group :: rest =>
    group.line.take (group.line.length - lost i) ++ storedLines lost (i + 1) rest

namespace GroupFiles

def file : GroupFiles → Option Text
  | apart file _ => file
  | linked contents => some contents

def tmp : GroupFiles → Option Text
  | apart _ tmp => tmp
  | linked contents => some contents

def writeTmp (contents : Text) : GroupFiles → GroupFiles
  | apart file _ => apart file (some contents)
  | linked _ => linked contents

/-- `mkrn_yafs_rename` of the temporary file. Where `groups.db` exists its entry is overwritten
before -1 is returned, and the temporary file keeps its own. -/
def renameTmp (io : GroupStorage) : GroupFiles → GroupFiles
  | apart file (some contents) =>
    if io.inserts = false then apart file (some contents)
    else if file = none ∧ io.deletes = true then apart (some contents) none
    else linked contents
  | files => files

end GroupFiles

/-- `musr_update_groups_db`: the files afterwards and the result. -/
def updateGroupsDb (io : GroupStorage) (files : GroupFiles) (groups : List GroupEntry) :
    GroupFiles × Int :=
  if io.opens then
    ((files.writeTmp (overwrite (files.tmp.getD []) (storedLines io.lost 0 groups))).renameTmp io,
      0)
  else (files, -1)

namespace GroupEntry

/-- A group after `memset`. -/
def blank : GroupEntry := ⟨[], 0, []⟩

def put (group : GroupEntry) (field : Nat) (c : UInt8) : GroupEntry :=
  match field with
  | 0 =>
    if group.groupname.length < 63 then { group with groupname := group.groupname ++ [c] }
    else group
  | 1 => { group with gid := readDigit group.gid c }
  | 2 =>
    if group.members.length < 255 then { group with members := group.members ++ [c] } else group
  | _ => group

end GroupEntry

/-- The loop of `parse_group_line` from a field on. -/
def parseGroupFields (field : Nat) (group : GroupEntry) : Text → GroupEntry
  | [] => group
  | c :: rest =>
    if c = 0 ∨ c = 35 then group
    else if c = 58 then parseGroupFields (field + 1) group rest
    else parseGroupFields field (group.put field c) rest

def parseGroupLine (line : Text) : GroupEntry := parseGroupFields 0 .blank line

def groupOfLine (line : Text) : List GroupEntry :=
  if line ≠ [] ∧ line.head? ≠ some 35 then [parseGroupLine line] else []

/-- The loop of `musr_read_groups_db`; no result when it looks behind the NUL. -/
def scanGroups (max : Nat) (begun : Text) (groups : List GroupEntry) :
    Text → Option (List GroupEntry)
  | [] => none
  | c :: rest =>
    if begun = [] ∧ (c = 0 ∨ max ≤ groups.length) then some groups
    else if c = 0 ∨ c = 10 then scanGroups max [] (groups ++ groupOfLine begun) rest
    else scanGroups max (begun ++ [c]) groups rest

/-- The group that there is without a group file, `prime` with the member `root`. -/
def primeGroup : GroupEntry := ⟨[112, 114, 105, 109, 101], 1001, [114, 111, 111, 116]⟩

def readGroupsDb (file : Option Text) (max : Nat) : Option (List GroupEntry) :=
  match file with
  | none => some [primeGroup]
  | some contents =>
    if contents.take 2047 = [] then some [] else scanGroups max [] [] (contents.take 2047 ++ [0])

/-- The loop of `musr_in_group` over the members, with what is read of one of them. -/
def memberLoop (username begun : Text) : Text → Bool
  | [] => begun ≠ [] ∧ username = begun
  | c :: rest =>
    if c = 44 then if username = begun then true else memberLoop username [] rest
    else memberLoop username (begun ++ [c]) rest

def getgrnam (file : Option Text) (name : Text) : Option (Option GroupEntry) :=
  (readGroupsDb file 32).map fun groups => groups.find? fun group => group.groupname = name

def inGroup (file : Option Text) (username groupname : Text) : Option Bool :=
  (getgrnam file groupname).map fun
    | none => false
    | some group => memberLoop username [] group.members

def GroupFits (limit : Nat) (text : Text) : Prop :=
  text.length ≤ limit ∧ 0 ∉ text ∧ 10 ∉ text ∧ 58 ∉ text ∧ 35 ∉ text

instance (limit : Nat) (text : Text) : Decidable (GroupFits limit text) :=
  inferInstanceAs (Decidable (_ ∧ _ ∧ _ ∧ _ ∧ _))

/-- A group whose name and members have no separator and fit their fields. -/
structure GroupEntry.WellFormed (group : GroupEntry) : Prop where
  groupname : GroupFits 63 group.groupname
  members : GroupFits 255 group.members

/-- A name stands among the members between two commas. -/
def IsMember (username members : Text) : Prop :=
  44 ∉ username ∧ ∃ before after, members = before ++ username ++ after ∧
    (before = [] ∨ ∃ front, before = front ++ [44]) ∧
    ((∃ behind, after = 44 :: behind) ∨ after = [] ∧ username ≠ [])

end M4KK1.Shell

/-!
## The group database is read back

What `musr_read_groups_db` finds are the groups of the lines of the first 2047 bytes. From
this follows in which cases `musr_update_groups_db`, which always returns 0 behind the
`open`, leaves a file from which the groups are read back.
-/

namespace M4KK1.Shell

open List

/-- The lines of contents with the NUL behind them, and whether they end at the beginning of a
line. -/
def groupLines (begun : Text) : Text → List Text × Bool
  | [] => ([], false)
  | c :: rest =>
    if begun = [] ∧ c = 0 then ([], true)
    else if c = 0 ∨ c = 10 then (begun :: (groupLines [] rest).1, (groupLines [] rest).2)
    else groupLines (begun ++ [c]) rest

theorem groupOfLine_length (line : Text) : (groupOfLine line).length ≤ 1 := by
  rw [groupOfLine]
  split
  · exact Nat.le_refl 1
  · exact Nat.zero_le 1

variable {begun : Text} {groups : List GroupEntry} {username : Text}

theorem groupLines_started (started : begun ≠ []) (text : Text) :
    (groupLines begun (text ++ [0])).1 ≠ [] := by
  induction text generalizing begun with
  | nil =>
    rw [nil_append, groupLines, if_neg fun stop => started stop.1, if_pos (.inl rfl)]
    exact cons_ne_nil _ _
  | cons c rest ih =>
    rw [cons_append, groupLines, if_neg fun stop => started stop.1]
    split
    · exact cons_ne_nil _ _
    · exact ih (append_ne_nil_of_right_ne_nil _ (cons_ne_nil c []))

theorem groupLines_nonempty {c : UInt8} (notEnd : c ≠ 0) (text : Text) :
    (groupLines [] (c :: text ++ [0])).1 ≠ [] := by
  rw [cons_append, groupLines, if_neg fun stop => notEnd stop.2]
  split
  · exact cons_ne_nil _ _
  · exact groupLines_started (cons_ne_nil c []) text

/-- The reader ends at a line that begins with NUL, or with enough groups. -/
def StopsInside (max : Nat) (groups : List GroupEntry) (lines : List Text × Bool) : Prop :=
  lines.2 = true ∨ lines.1 ≠ [] ∧ max ≤ (groups ++ lines.1.dropLast.flatMap groupOfLine).length

instance (max : Nat) (groups : List GroupEntry) (lines : List Text × Bool) :
    Decidable (StopsInside max groups lines) :=
  inferInstanceAs (Decidable (_ ∨ _))

theorem stopsInside_cons {max : Nat} (more : groups.length < max) (line : Text)
    (lines : List Text × Bool) :
    StopsInside max groups (line :: lines.1, lines.2) ↔
    StopsInside max (groups ++ groupOfLine line) lines := by
  refine or_congr_right ?_
  cases last : lines.1 with
  | nil =>
    refine ⟨fun ⟨_, full⟩ => absurd full ?_, fun ⟨none_, _⟩ => absurd rfl none_⟩
    rw [dropLast_singleton, flatMap_nil, append_nil]
    exact Nat.not_le.mpr more
  | cons next rest =>
    rw [dropLast_cons_of_ne_nil (cons_ne_nil next rest), flatMap_cons, append_assoc]
    exact and_congr_left fun _ => ⟨fun _ => cons_ne_nil _ _, fun _ => cons_ne_nil _ _⟩

theorem scanGroups_eq (max : Nat) (begun text : Text) (groups : List GroupEntry)
    (room : groups.length ≤ max)
    (reading : begun ≠ [] → groups.length < max) :
    scanGroups max begun groups (text ++ [0]) =
      if StopsInside max groups (groupLines begun (text ++ [0])) then
        some ((groups ++ (groupLines begun (text ++ [0])).1.flatMap groupOfLine).take max)
      else none := by
  induction text generalizing begun groups with
  | nil =>
    by_cases atStart : begun = []
    · have lines : groupLines begun ([] ++ [0]) = ([], true) := by
        rw [nil_append, groupLines, if_pos ⟨atStart, rfl⟩]
      have inside : StopsInside max groups ([], true) := .inl rfl
      rw [lines, if_pos inside, flatMap_nil, append_nil, take_of_length_le room, nil_append,
        scanGroups, if_pos ⟨atStart, .inl rfl⟩]
    · have lines : groupLines begun ([] ++ [0]) = ([begun], false) := by
        rw [nil_append, groupLines, if_neg fun stop => atStart stop.1, if_pos (.inl rfl),
          groupLines]
      have outside : ¬StopsInside max groups ([begun], false) := by
        rintro (stops | ⟨_, full⟩)
        · cases stops
        · rw [dropLast_singleton, flatMap_nil, append_nil] at full
          exact Nat.not_lt.mpr full (reading atStart)
      rw [lines, if_neg outside, nil_append, scanGroups, if_neg fun stop => atStart stop.1,
        if_pos (.inl rfl),
        scanGroups]
  | cons c rest ih =>
    rw [cons_append, scanGroups]
    by_cases stops : begun = [] ∧ (c = 0 ∨ max ≤ groups.length)
    · rw [if_pos stops]
      obtain ⟨rfl, isNul | full⟩ := stops
      · have lines : groupLines [] (c :: (rest ++ [0])) = ([], true) := by
          rw [groupLines, if_pos ⟨rfl, isNul⟩]
        have inside : StopsInside max groups ([], true) := .inl rfl
        rw [lines, if_pos inside, flatMap_nil, append_nil, take_of_length_le room]
      · have isFull : groups.length = max := Nat.le_antisymm room full
        have inside : StopsInside max groups (groupLines [] (c :: (rest ++ [0]))) := by
          by_cases isNul : c = 0
          · refine .inl ?_
            rw [groupLines, if_pos ⟨rfl, isNul⟩]
          · refine .inr ⟨groupLines_nonempty isNul rest, ?_⟩
            rw [length_append]
            exact Nat.le_add_right_of_le full
        rw [if_pos inside, take_append_of_le_length isFull.ge, take_of_length_le room]
    · have more : groups.length < max := by
        by_cases atStart : begun = []
        · exact Nat.not_le.mp fun full => stops ⟨atStart, .inr full⟩
        · exact reading atStart
      have goesOn : ¬(begun = [] ∧ c = 0) := fun stop => stops ⟨stop.1, .inl stop.2⟩
      rw [if_neg stops, groupLines, if_neg goesOn]
      split
      · have one := groupOfLine_length begun
        have added : (groups ++ groupOfLine begun).length ≤ max := by
          rw [length_append]
          omega
        rw [ih [] _ added fun none_ => absurd rfl none_, flatMap_cons, append_assoc]
        simp only [stopsInside_cons more]
      · exact ih _ _ room fun _ => more

theorem parseGroupFields_plain (field : Nat) (group : GroupEntry) {text : Text} (rest : Text)
    (noNul : 0 ∉ text)
    (noComment : 35 ∉ text) (noColon : 58 ∉ text) :
    parseGroupFields field group (text ++ rest) =
      parseGroupFields field (text.foldl (fun g c => g.put field c) group) rest := by
  induction text generalizing group with
  | nil => rfl
  | cons c text ih =>
    have goesOn : ¬(c = 0 ∨ c = 35) := by
      rintro (rfl | rfl)
      · exact noNul mem_cons_self
      · exact noComment mem_cons_self
    have other : c ≠ 58 := fun same => noColon (same ▸ mem_cons_self)
    rw [cons_append, parseGroupFields, if_neg goesOn, if_neg other, ih, foldl_cons]
    · exact fun later => noNul (mem_cons_of_mem c later)
    · exact fun later => noComment (mem_cons_of_mem c later)
    · exact fun later => noColon (mem_cons_of_mem c later)

theorem parseGroupFields_colon (field : Nat) (group : GroupEntry) (rest : Text) :
    parseGroupFields field group (58 :: rest) = parseGroupFields (field + 1) group rest := by
  rw [parseGroupFields, if_neg (by decide), if_pos rfl]

namespace GroupEntry

theorem put_groupname (group : GroupEntry) (text : Text) (isBlank : group.groupname = []) :
    text.foldl (fun g c => g.put 0 c) group = { group with groupname := text.take 63 } :=
  Field.foldl_text_blank
    ⟨fun g : GroupEntry => g.groupname, fun g t => { g with groupname := t }, fun _ _ => rfl,
      fun _ _ _ => rfl, fun _ => rfl⟩
    (fun _ _ => rfl) isBlank

theorem put_members (group : GroupEntry) (text : Text) (isBlank : group.members = []) :
    text.foldl (fun g c => g.put 2 c) group = { group with members := text.take 255 } :=
  Field.foldl_text_blank
    ⟨fun g : GroupEntry => g.members, fun g t => { g with members := t }, fun _ _ => rfl,
      fun _ _ _ => rfl, fun _ => rfl⟩
    (fun _ _ => rfl) isBlank

theorem put_gid (group : GroupEntry) (text : Text) :
    text.foldl (fun g c => g.put 1 c) group =
      { group with gid := text.foldl readDigit group.gid } :=
  Field.foldl_number
    ⟨fun g : GroupEntry => g.gid, fun g n => { g with gid := n }, fun _ _ => rfl, fun _ _ _ => rfl,
      fun _ => rfl⟩
    (fun _ _ => rfl) group text

variable {group : GroupEntry}

section

variable (wellFormed : group.WellFormed)

include wellFormed

theorem body_eq :
    group.body = group.groupname ++ 58 :: (decimal group.gid ++ 58 :: group.members) := by
  have nameFits := wellFormed.groupname.1
  have membersFit := wellFormed.members.1
  have digits := decimal_length group.gid
  have head_eq : group.head = group.groupname ++ [58] ++ decimal group.gid ++ [58] := by
    rw [head, take_of_length_le (nameFits.trans (by decide)), take_of_length_le]
    rw [length_append, length_singleton]
    omega
  have headLength : group.head.length ≤ 75 := by
    rw [head_eq]
    simp only [length_append, length_singleton]
    omega
  rw [body, take_of_length_le (by omega), head_eq]
  simp only [append_assoc, cons_append, nil_append]

theorem not_mem_body {c : UInt8} (notColon : c ≠ 58) (notDigit : c < 48)
    (groupname : c ∉ group.groupname) (members : c ∉ group.members) : c ∉ group.body := by
  have gid : c ∉ decimal group.gid := fun digit =>
    UInt8.not_lt.mpr (decimal_plain _ digit).1 notDigit
  rw [body_eq wellFormed]
  simp only [mem_append, mem_cons, not_or]
  exact ⟨groupname, notColon, gid, notColon, members⟩

theorem body_noNul : 0 ∉ group.body :=
  not_mem_body wellFormed (by decide) (by decide) wellFormed.groupname.2.1 wellFormed.members.2.1

theorem body_oneLine : 10 ∉ group.body :=
  not_mem_body wellFormed (by decide) (by decide) wellFormed.groupname.2.2.1
    wellFormed.members.2.2.1

theorem body_noComment : 35 ∉ group.body :=
  not_mem_body wellFormed (by decide) (by decide) wellFormed.groupname.2.2.2.2
    wellFormed.members.2.2.2.2

theorem body_ne_nil : group.body ≠ [] := by
  rw [body_eq wellFormed]
  exact append_ne_nil_of_right_ne_nil _ (cons_ne_nil _ _)

theorem groupOfLine_body : groupOfLine group.body = [group] := by
  have noDigit (c : UInt8) (low : c < 48) : c ∉ decimal group.gid := fun digit =>
    UInt8.not_lt.mpr (decimal_plain _ digit).1 low
  have noColon : 58 ∉ decimal group.gid := fun digit => absurd (decimal_plain _ digit).2 (by decide)
  have noComment : group.body.head? ≠ some 35 := fun first =>
    body_noComment wellFormed (mem_of_mem_head? first)
  have last :=
    parseGroupFields_plain 2 ⟨group.groupname, (decimal group.gid).foldl readDigit 0, []⟩ []
    wellFormed.members.2.1 wellFormed.members.2.2.2.2 wellFormed.members.2.2.2.1
  rw [append_nil, put_members _ _ rfl, take_of_length_le wellFormed.members.1] at last
  rw [groupOfLine, if_pos ⟨body_ne_nil wellFormed, noComment⟩, body_eq wellFormed, parseGroupLine,
    parseGroupFields_plain 0 _ _ wellFormed.groupname.2.1 wellFormed.groupname.2.2.2.2
      wellFormed.groupname.2.2.2.1,
    parseGroupFields_colon, put_groupname _ _ rfl, take_of_length_le wellFormed.groupname.1,
    parseGroupFields_plain 1 _ _ (noDigit 0 (by decide)) (noDigit 35 (by decide)) noColon, put_gid,
    parseGroupFields_colon]
  refine congrArg (fun g => [g]) (last.trans ?_)
  rw [parseGroupFields, decimal_value]

end

end GroupEntry

theorem groupLines_plain (begun : Text) {plain : Text} (rest : Text) (oneLine : 10 ∉ plain)
    (noNul : 0 ∉ plain) :
    groupLines begun (plain ++ rest) = groupLines (begun ++ plain) rest := by
  induction plain generalizing begun with
  | nil => rw [nil_append, append_nil]
  | cons c plain ih =>
    have notNul : c ≠ 0 := fun same => noNul (same ▸ mem_cons_self)
    have notNewline : c ≠ 10 := fun same => oneLine (same ▸ mem_cons_self)
    have inLine : ¬(c = 0 ∨ c = 10) := not_or.mpr ⟨notNul, notNewline⟩
    rw [cons_append, groupLines, if_neg fun stop => notNul stop.2, if_neg inLine, ih, append_assoc,
      singleton_append]
    · exact fun later => oneLine (mem_cons_of_mem c later)
    · exact fun later => noNul (mem_cons_of_mem c later)

def groupsText (groups : List GroupEntry) : Text := groups.flatMap GroupEntry.line

theorem groupLines_text (wellFormed : ∀ group ∈ groups, group.WellFormed) (rest : Text) :
    groupLines [] (groupsText groups ++ rest) =
      (groups.map GroupEntry.body ++ (groupLines [] rest).1, (groupLines [] rest).2) := by
  induction groups with
  | nil => rfl
  | cons group groups ih =>
    have fits := wellFormed group mem_cons_self
    have text : groupsText (group :: groups) ++ rest =
        group.body ++ 10 :: (groupsText groups ++ rest) := by
      rw [groupsText, flatMap_cons, GroupEntry.line, append_assoc, append_assoc]
      rfl
    rw [text, groupLines_plain [] _ (GroupEntry.body_oneLine fits) (GroupEntry.body_noNul fits),
      nil_append,
      groupLines, if_neg fun stop => GroupEntry.body_ne_nil fits stop.1, if_pos (.inr rfl),
      ih fun later member => wellFormed later (mem_cons_of_mem group member)]
    rfl

theorem groups_of_bodies (wellFormed : ∀ group ∈ groups, group.WellFormed) :
    (groups.map GroupEntry.body).flatMap groupOfLine = groups := by
  rw [flatMap_map]
  calc groups.flatMap (fun group => groupOfLine group.body)
      = groups.flatMap (fun group => [group]) :=
        flatMap_congr fun group member => GroupEntry.groupOfLine_body (wellFormed group member)
    _ = groups := flatMap_singleton' groups

theorem storedLines_complete {lost : Nat → Nat} (i : Nat)
    (complete : ∀ j < groups.length, lost (i + j) = 0) :
    storedLines lost i groups = groupsText groups := by
  induction groups generalizing i with
  | nil => rfl
  | cons group rest ih =>
    have first : lost i = 0 := complete 0 (Nat.zero_lt_succ _)
    rw [storedLines, first, Nat.sub_zero, take_length, groupsText, flatMap_cons, ih (i + 1),
      groupsText]
    intro j inRest
    rw [Nat.add_assoc, Nat.add_comm 1 j]
    exact complete (j + 1) (Nat.succ_lt_succ inRest)

theorem comma_split {rest before after : Text} (noComma : 44 ∉ begun)
    (same : before ++ 44 :: after = begun ++ 44 :: rest) :
    before = begun ∧ after = rest ∨ ∃ between,
    before = begun ++ 44 :: between ∧ rest = between ++ 44 :: after := by
  induction begun generalizing before with
  | nil =>
    cases before with
    | nil => exact .inl ⟨rfl, (List.cons.inj same).2⟩
    | cons c before =>
      obtain ⟨rfl, later⟩ := List.cons.inj same
      exact .inr ⟨before, rfl, later.symm⟩
  | cons c begun ih =>
    cases before with
    | nil => exact absurd (List.cons.inj same).1 fun isComma => noComma (isComma ▸ mem_cons_self)
    | cons d before =>
      obtain ⟨rfl, later⟩ := List.cons.inj same
      rcases ih (fun member => noComma (mem_cons_of_mem d member)) later with ⟨rfl, rfl⟩ | ⟨between,
        rfl, rfl⟩
      · exact .inl ⟨rfl, rfl⟩
      · exact .inr ⟨between, rfl, rfl⟩

theorem isMember_comma {rest : Text} (noComma : 44 ∉ begun) :
    IsMember username (begun ++ 44 :: rest) ↔ username = begun ∨ IsMember username rest := by
  constructor
  · rintro ⟨plain, before, after, same, start, stop⟩
    rcases start with rfl | ⟨front, rfl⟩
    · rcases stop with ⟨behind, rfl⟩ | ⟨rfl, _⟩
      · rw [nil_append] at same
        rcases comma_split noComma same.symm with ⟨sameName, _⟩ | ⟨between, sameName, _⟩
        · exact .inl sameName
        · exact absurd (sameName ▸ mem_append_right begun mem_cons_self) plain
      · rw [nil_append, append_nil] at same
        exact absurd (same ▸ mem_append_right begun mem_cons_self) plain
    · have split : front ++ 44 :: (username ++ after) = begun ++ 44 :: rest := by
        rw [same]
        simp only [append_assoc, cons_append, nil_append]
      rcases comma_split noComma split with ⟨_, later⟩ | ⟨between, _, later⟩
      · exact .inr ⟨plain, [], after, by rw [← later, nil_append], .inl rfl, stop⟩
      · refine .inr ⟨plain, between ++ [44], after, ?_, .inr ⟨between, rfl⟩, stop⟩
        rw [later]
        simp only [append_assoc, cons_append, nil_append]
  · rintro (rfl | ⟨plain, before, after, same, start, stop⟩)
    · exact ⟨noComma, [], 44 :: rest, rfl, .inl rfl, .inl ⟨rest, rfl⟩⟩
    · refine ⟨plain, begun ++ 44 :: before, after, ?_, ?_, stop⟩
      · rw [same]
        simp only [append_assoc, cons_append]
      · rcases start with rfl | ⟨front, rfl⟩
        · exact .inr ⟨begun, rfl⟩
        · exact .inr ⟨begun ++ 44 :: front, by rw [append_assoc, cons_append]⟩

theorem isMember_last (noComma : 44 ∉ begun) :
    IsMember username begun ↔ begun ≠ [] ∧ username = begun := by
  constructor
  · rintro ⟨_, before, after, same, start, stop⟩
    rcases stop with ⟨behind, rfl⟩ | ⟨rfl, named⟩
    · exact absurd (same ▸ mem_append_right _ mem_cons_self) noComma
    · rcases start with rfl | ⟨front, rfl⟩
      · rw [nil_append, append_nil] at same
        exact ⟨same ▸ named, same.symm⟩
      · have comma : 44 ∈ begun := by
          rw [same]
          simp only [mem_append, mem_singleton, true_or, or_true]
        exact absurd comma noComma
  · rintro ⟨named, rfl⟩
    exact ⟨noComma, [], [], (append_nil _).symm, .inl rfl, .inr ⟨rfl, named⟩⟩

theorem memberLoop_iff (members : Text) (noComma : 44 ∉ begun) :
    memberLoop username begun members = true ↔ IsMember username (begun ++ members) := by
  induction members generalizing begun with
  | nil => rw [memberLoop, decide_eq_true_iff, append_nil, isMember_last noComma]
  | cons c rest ih =>
    rw [memberLoop]
    split
    · next isComma =>
      rw [isComma, isMember_comma noComma]
      split
      · next same => exact ⟨fun _ => .inl same, fun _ => rfl⟩
      · next other =>
        rw [ih not_mem_nil, nil_append]
        exact ⟨.inr, fun member => member.resolve_left other⟩
    · next notComma =>
      have longer : 44 ∉ begun ++ [c] := by
        rw [mem_append, mem_singleton]
        exact not_or.mpr ⟨noComma, fun same => notComma same.symm⟩
      rw [ih longer, append_assoc, singleton_append]

theorem inGroup_iff {file : Option Text} (read : readGroupsDb file 32 = some groups)
    (username groupname : Text) :
    inGroup file username groupname = some true ↔
      ∃ group, groups.find? (fun group => group.groupname = groupname) = some group ∧
        IsMember username group.members := by
  rw [inGroup, getgrnam, read, Option.map_some, Option.map_some]
  cases found : groups.find? (fun group => group.groupname = groupname) with
  | none => exact ⟨fun absent => (nomatch absent), fun ⟨_, absent, _⟩ => (nomatch absent)⟩
  | some group =>
    rw [Option.some_inj, memberLoop_iff group.members not_mem_nil, nil_append]
    exact ⟨fun member => ⟨group, rfl, member⟩,
      fun ⟨other, same, member⟩ => Option.some.inj same ▸ member⟩

/-- The first 2047 bytes are the lines of these groups. -/
def ReadsAs (contents : Text) (groups : List GroupEntry) : Prop :=
  StopsInside 32 [] (groupLines [] (contents.take 2047 ++ [0])) ∧
    ((groupLines [] (contents.take 2047 ++ [0])).1.flatMap groupOfLine).take 32 = groups

theorem readGroupsDb_iff (contents : Text) (groups : List GroupEntry) :
    readGroupsDb (some contents) 32 = some groups ↔ ReadsAs contents groups := by
  have scanned := scanGroups_eq 32 [] (contents.take 2047) [] (Nat.zero_le 32) fun none_ =>
    absurd rfl none_
  rw [nil_append] at scanned
  have read : readGroupsDb (some contents) 32 =
      scanGroups 32 [] [] (contents.take 2047 ++ [0]) := by
    rw [readGroupsDb]
    split
    · next isEmpty =>
      rw [isEmpty]
      rfl
    · rfl
  rw [read, scanned, ReadsAs]
  split
  · next stops =>
    rw [Option.some_inj]
    exact ⟨fun same => ⟨stops, same⟩, fun reads => reads.2⟩
  · next runsOut => exact ⟨fun absent => (nomatch absent), fun reads => absurd reads.1 runsOut⟩

/-- What the temporary file has behind the groups is not read as a group. -/
def StaleHarmless (tmp : Option Text) (groups : List GroupEntry) : Prop :=
  let stale := groupLines [] (((tmp.getD []).take 2047).drop (groupsText groups).length ++ [0])
  groups.length = 32 ∨ stale.2 = true ∧ stale.1.flatMap groupOfLine = []

theorem groupLines_ends (stale : Text) :
    (groupLines [] (stale ++ [0])).2 = true ∨ (groupLines [] (stale ++ [0])).1 ≠ [] := by
  cases stale with
  | nil => exact .inl rfl
  | cons c rest =>
    by_cases isNul : c = 0
    · refine .inl ?_
      rw [cons_append, groupLines, if_pos ⟨rfl, isNul⟩]
    · exact .inr (groupLines_nonempty isNul rest)

theorem readsAs_overwritten (tmp : Option Text) (wellFormed : ∀ group ∈ groups, group.WellFormed)
    (few : groups.length ≤ 32)
    (short : (groupsText groups).length < 2047) :
    ReadsAs (overwrite (tmp.getD []) (groupsText groups)) groups ↔ StaleHarmless tmp groups := by
  have stays : (overwrite (tmp.getD []) (groupsText groups)).take 2047 =
      groupsText groups ++ ((tmp.getD []).take 2047).drop (groupsText groups).length := by
    rw [overwrite, take_append, take_of_length_le short.le, drop_take]
  rw [ReadsAs, StaleHarmless, stays, append_assoc, groupLines_text wellFormed]
  have ends := groupLines_ends (((tmp.getD []).take 2047).drop (groupsText groups).length)
  generalize groupLines [] (((tmp.getD []).take 2047).drop (groupsText groups).length ++ [0]) =
    stale at ends ⊢
  dsimp only
  rw [flatMap_append, groups_of_bodies wellFormed, take_append_eq_left few]
  by_cases full : groups.length = 32
  · refine ⟨fun _ => .inl full, fun _ => ⟨ends.imp id fun some_ => ?_, .inl full⟩⟩
    refine ⟨append_ne_nil_of_right_ne_nil _ some_, ?_⟩
    rw [dropLast_append_of_ne_nil some_, flatMap_append, groups_of_bodies wellFormed, nil_append,
      length_append]
    exact Nat.le_add_right_of_le full.ge
  · simp only [full, false_or]
    refine and_congr_left fun nothing => ⟨fun stops => stops.resolve_right ?_, .inl⟩
    rintro ⟨_, enough⟩
    have groupsOfAll : (groups.map GroupEntry.body ++ stale.1).flatMap groupOfLine = groups := by
      rw [flatMap_append, groups_of_bodies wellFormed, nothing, append_nil]
    obtain ⟨last, whole⟩ := dropLast_prefix (groups.map GroupEntry.body ++ stale.1)
    rw [← whole, flatMap_append] at groupsOfAll
    have lengths := congrArg List.length groupsOfAll
    rw [length_append] at lengths
    rw [nil_append] at enough
    dsimp only at enough
    omega

/-- The update reports a failure or leaves exactly these groups to be read. -/
def GroupsReadBack (io : GroupStorage) (files : GroupFiles) (groups : List GroupEntry) : Prop :=
  (updateGroupsDb io files groups).2 = 0 →
    readGroupsDb (updateGroupsDb io files groups).1.file 32 = some groups ∧
    ∀ username groupname, inGroup (updateGroupsDb io files groups).1.file username groupname =
      some true ↔
      ∃ group, groups.find? (fun group => group.groupname = groupname) = some group ∧
        IsMember username group.members

/-- Every write of the update is complete. -/
def GroupStorage.Complete (io : GroupStorage) (groups : List GroupEntry) : Prop :=
  ∀ i < groups.length, io.lost i = 0

/-- The written groups are read with what the temporary file has behind them; where the rename
cannot insert its entry, the group file holds the groups already. -/
def GroupsHeld (io : GroupStorage) (groups : List GroupEntry) : GroupFiles → Prop
  | .apart file tmp =>
    if io.inserts = true then
      (io.Complete groups → StaleHarmless tmp groups) ∧
      (¬io.Complete groups →
        ReadsAs (overwrite (tmp.getD []) (storedLines io.lost 0 groups)) groups)
    else
      match file with
      | some contents => ReadsAs contents groups
      | none => groups = [primeGroup]
  | .linked contents =>
    (io.Complete groups → StaleHarmless (some contents) groups) ∧
    (¬io.Complete groups → ReadsAs (overwrite contents (storedLines io.lost 0 groups)) groups)

theorem readsAs_stored (io : GroupStorage) (tmp : Option Text)
    (wellFormed : ∀ group ∈ groups, group.WellFormed) (few : groups.length ≤ 32)
    (short : (groupsText groups).length < 2047) :
    ReadsAs (overwrite (tmp.getD []) (storedLines io.lost 0 groups)) groups ↔
      (io.Complete groups → StaleHarmless tmp groups) ∧
      (¬io.Complete groups →
        ReadsAs (overwrite (tmp.getD []) (storedLines io.lost 0 groups)) groups) := by
  by_cases complete : io.Complete groups
  · have stored : storedLines io.lost 0 groups = groupsText groups :=
      storedLines_complete 0 fun j inside => by rw [Nat.zero_add]; exact complete j inside
    rw [stored, readsAs_overwritten tmp wellFormed few short]
    exact ⟨fun harmless => ⟨fun _ => harmless, fun not_ => absurd complete not_⟩,
      fun held => held.1 complete⟩
  · exact ⟨fun reads => ⟨fun now => absurd now complete, fun _ => reads⟩,
      fun held => held.2 complete⟩

theorem renameTmp_file (io : GroupStorage) (contents : Text) (files : GroupFiles) :
    ((files.writeTmp contents).renameTmp io).file =
      match files with
      | .apart file _ => if io.inserts = true then some contents else file
      | .linked _ => some contents := by
  cases files with
  | linked old => rfl
  | apart file tmp =>
    rw [GroupFiles.writeTmp, GroupFiles.renameTmp]
    cases io.inserts with
    | false => rfl
    | true =>
      dsimp only
      rw [if_neg (by decide), if_pos rfl]
      split <;> rfl

/-- `musr_update_groups_db` returns 0 only when the groups are read back, exactly so. -/
theorem groups_round_trip_iff (io : GroupStorage) (files : GroupFiles) {groups : List GroupEntry}
    (wellFormed : ∀ group ∈ groups, group.WellFormed) (few : groups.length ≤ 32)
    (short : (groupsText groups).length < 2047) :
    GroupsReadBack io files groups ↔ (io.opens = true → GroupsHeld io groups files) := by
  have readsOnly : GroupsReadBack io files groups ↔
      ((updateGroupsDb io files groups).2 = 0 →
        readGroupsDb (updateGroupsDb io files groups).1.file 32 = some groups) :=
    forall_congr' fun _ => ⟨And.left, fun read => ⟨read, inGroup_iff read⟩⟩
  rw [readsOnly]
  by_cases opens : io.opens = true
  · have written : (updateGroupsDb io files groups).2 = 0 := by
      rw [updateGroupsDb, if_pos opens]
    have after : (updateGroupsDb io files groups).1 = (files.writeTmp
        (overwrite (files.tmp.getD []) (storedLines io.lost 0 groups))).renameTmp io := by
      rw [updateGroupsDb, if_pos opens]
    simp only [written, opens, after, true_implies, renameTmp_file]
    cases files with
    | linked contents =>
      exact (readGroupsDb_iff _ _).trans (readsAs_stored io (some contents) wellFormed few short)
    | apart file tmp =>
      simp only [GroupsHeld]
      split
      · next inserts =>
        exact (readGroupsDb_iff _ _).trans (readsAs_stored io tmp wellFormed few short)
      · next refused =>
        cases file with
        | some contents => exact readGroupsDb_iff contents groups
        | none =>
          rw [readGroupsDb, Option.some_inj]
          exact eq_comm
  · have failed : (updateGroupsDb io files groups).2 = -1 := by
      rw [updateGroupsDb, if_neg opens]
    exact ⟨fun _ now => absurd now opens,
      fun _ succeeds => by rw [failed] at succeeds; cases succeeds⟩

def shortGroup (name : UInt8) (members : Text) : GroupEntry := ⟨[name], 7, members⟩

theorem shortGroup_wellFormed : ∀ group ∈ [shortGroup 103 [97], shortGroup 104 [98]],
    group.WellFormed := by
  rintro group (_ | ⟨_, _ | ⟨_, ⟨⟩⟩⟩)
  · exact ⟨by decide, by decide⟩
  · exact ⟨by decide, by decide⟩

/-- Two groups replace one, in an older group file and in a left over temporary file. -/
theorem groups_round_trip_grown : GroupsReadBack ⟨true, fun _ => 0, true, true⟩
    (.apart (some (groupsText [shortGroup 103 [98]])) (some (groupsText [shortGroup 104 [97]])))
    [shortGroup 103 [97], shortGroup 104 [98]] :=
  (groups_round_trip_iff _ _ shortGroup_wellFormed (by decide) (by decide)).mpr
    fun _ => ⟨fun _ => .inr ⟨rfl, rfl⟩, fun incomplete => absurd (fun _ _ => rfl) incomplete⟩

/-- After an update over an existing group file a removed group stays. -/
theorem removed_group_stays :
    ¬∀ (io : GroupStorage) (files : GroupFiles) (groups : List GroupEntry),
      (∀ group ∈ groups, group.WellFormed) → groups ≠ [] → groups.length ≤ 32 →
      (groupsText groups).length < 2047 → GroupsReadBack io files groups := by
  intro always
  have back := always ⟨true, fun _ => 0, true, true⟩
    (updateGroupsDb ⟨true, fun _ => 0, true, true⟩
      (.apart (some (groupsText [shortGroup 103 [98]])) none)
      [shortGroup 103 [97], shortGroup 104 [98]]).1
    [shortGroup 103 [97]]
    (fun group member => shortGroup_wellFormed group
      (mem_of_mem_head? (congrArg _ (mem_singleton.mp member).symm)))
    (by decide) (by decide) (by decide) rfl
  exact absurd back.1 (by decide)

end M4KK1.Shell
