import M4KK1.Lib.PathMoves
import M4KK1.Yafs.Paths

/-!
# The resolver of relative paths in `syscall.c`

`mkrn_resolve_path` with its buffers `tmp` and `parts`; what does not fit makes the result empty.
-/

namespace M4KK1.Kernel

open Lib Yafs List

/-- The room of `tmp`, less the NUL and the byte before it. -/
def tmpRoom : Nat := 510

/-- The size of `parts`. -/
def maxParts : Nat := 64

/-- A loop that copies a string behind what is in `tmp`, and whether it sets `truncated`. -/
def copyTmp : CString → CString → CString × Bool
  | tmp, [] => (tmp, false)
  | tmp, byte :: rest => if tmp.length ≥ tmpRoom then (tmp, true) else copyTmp (tmp ++ [byte]) rest

/-- What is in `tmp` before the components are collected, and whether it was truncated. -/
def fillTmp (cwd path : CString) : CString × Bool :=
  if path.head? = some slash then copyTmp [] path
  else
    let (tmp, truncated) := copyTmp [] cwd
    let tmp :=
      if truncated = false ∧ tmp.length > 0 ∧ tmp.getLast? ≠ some slash ∧
          tmp.length < tmpRoom then tmp ++ [slash]
      else tmp
    let (tmp, again) := copyTmp tmp path
    (tmp, truncated || again)

/-- The loop that collects the components; `p` is the unread rest of `tmp`. -/
def collectParts : Nat → CString → List CString → Option (List CString)
  | 0, _, _ => none
  | fuel + 1, p, parts =>
    let start := p.dropWhile (· = slash)
    if start = [] then some parts
    else
      let part := start.takeWhile (· ≠ slash)
      let p := (start.dropWhile (· ≠ slash)).drop 1
      if part = cstr "." then collectParts fuel p parts
      else if part = cstr ".." then collectParts fuel p parts.dropLast
      else if parts.length < maxParts then collectParts fuel p (parts ++ [part])
      else none

def writePart (oSize : Nat) : CString → CString → CString
  | out, [] => out
  | out, byte :: rest =>
    if out.length < oSize - 1 then writePart oSize (out ++ [byte]) rest else out

def writeParts (oSize : Nat) : CString → List CString → CString
  | out, [] => out
  | out, part :: rest =>
    if out.length < oSize - 1 then
      let out := writePart oSize out part
      writeParts oSize (if rest ≠ [] ∧ out.length < oSize - 1 then out ++ [slash] else out) rest
    else out

/-- `mkrn_resolve_path`; no caller passes NULL. -/
def resolvePath (cwd path : CString) (oSize : Nat) : CString :=
  if path = [] then cwd.take (oSize - 1)
  else
    match fillTmp cwd path with
    | (_, true) => []
    | (tmp, false) =>
      match collectParts (tmp.length + 1) tmp [] with
      | none => []
      | some parts => writeParts oSize [slash] parts

/-- What stands between a directory and a path taken from it. -/
def separator (cwd : CString) : CString :=
  if cwd = [] ∨ cwd.getLast? = some slash then [] else [slash]

/-- The text of a path taken from a directory. -/
def joined (cwd path : CString) : CString :=
  if path.head? = some slash then path else cwd ++ separator cwd ++ path

def moveOf (comp : CString) : Move CString :=
  if comp = [] ∨ comp = cstr "." then .stay else if comp = cstr ".." then .up else .down comp

def moves (path : CString) : List (Move CString) := (components path).map moveOf

/-- Names put together with slashes. -/
def slashed : List CString → CString
  | [] => []
  | [last] => last
  | part :: rest => part ++ slash :: slashed rest

def absolute (names : List CString) : CString := slash :: slashed names

/-- The path a path stands for, whatever its length. -/
def fullPath (cwd path : CString) : CString :=
  if path = [] then cwd else absolute (Move.settle [] (moves (joined cwd path)))

/-- The text fits `tmp` and there is never a component too many for `parts`. -/
def FitsParts (cwd path : CString) : Prop :=
  path = [] ∨ (joined cwd path).length ≤ tmpRoom ∧ Move.Within maxParts [] (moves (joined cwd path))

theorem slashed_cons (part next : CString) (others : List CString) :
    slashed (part :: next :: others) = part ++ slash :: slashed (next :: others) := rfl

theorem moveOf_name {comp : CString} (named : comp ≠ []) (dot : comp ≠ cstr ".")
    (dots : comp ≠ cstr "..") :
    moveOf comp = .down comp := by
  rw [moveOf, if_neg (not_or.mpr ⟨named, dot⟩), if_neg dots]

theorem copyTmp_eq {tmp src : CString} (room : tmp.length ≤ tmpRoom) :
    copyTmp tmp src = ((tmp ++ src).take tmpRoom, decide (tmpRoom < tmp.length + src.length)) := by
  induction src generalizing tmp with
  | nil => simp [copyTmp, take_of_length_le, room]
  | cons byte rest ih =>
    rw [copyTmp]
    split
    next full =>
      have length : tmp.length = tmpRoom := Nat.le_antisymm room full
      simp [length]
    next more =>
      rw [ih (by simp; omega)]
      simp [Nat.add_comm, Nat.add_left_comm]

theorem separator_eq {cwd : CString} (room : cwd.length < tmpRoom) :
    (if false = false ∧ cwd.length > 0 ∧ cwd.getLast? ≠ some slash ∧
      cwd.length < tmpRoom then cwd ++ [slash]
      else cwd) = cwd ++ separator cwd := by
  unfold separator
  by_cases empty : cwd = []
  · simp [empty]
  · by_cases slashLast : cwd.getLast? = some slash
    · simp [empty, slashLast]
    · simp [empty, slashLast, room, length_pos_iff]

theorem fillTmp_eq {cwd path : CString} (named : path ≠ []) :
    fillTmp cwd path = ((joined cwd path).take tmpRoom,
      decide (tmpRoom < (joined cwd path).length)) := by
  have positive : 0 < path.length := length_pos_iff.mpr named
  unfold fillTmp joined
  split
  next => simp [copyTmp_eq]
  next =>
    rw [copyTmp_eq (Nat.zero_le _), nil_append, length_nil, Nat.zero_add]
    dsimp only
    by_cases room : cwd.length < tmpRoom
    · rw [take_of_length_le (Nat.le_of_lt room),
        decide_eq_false (Nat.not_lt.mpr (Nat.le_of_lt room)),
        separator_eq room, copyTmp_eq ?_]
      · simp [Nat.add_assoc]
      · unfold separator
        split <;> simp <;> omega
    · have full : tmpRoom ≤ cwd.length := Nat.not_lt.mp room
      have cut : (cwd.take tmpRoom).length = tmpRoom := length_take_of_le full
      have long : tmpRoom < (cwd ++ separator cwd ++ path).length := by
        simp only [length_append]
        omega
      rw [if_neg fun more => absurd (cut ▸ more.2.2.2) (Nat.lt_irrefl _),
        copyTmp_eq (Nat.le_of_eq cut), cut,
        decide_eq_true long, decide_eq_true (Nat.lt_add_of_pos_right positive), Bool.or_true,
        take_append_of_le_length (Nat.le_of_eq cut.symm), take_take, Nat.min_self, append_assoc,
        take_append_of_le_length full]

theorem settleWithin_dropWhile (limit : Nat) (parts : List CString) (p : CString) :
    Move.settleWithin limit parts (moves (p.dropWhile (· = slash))) =
      Move.settleWithin limit parts (moves p) := by
  induction p with
  | nil => rfl
  | cons byte rest ih =>
    by_cases isSlash : byte = slash
    · subst isSlash
      rw [dropWhile_cons_of_pos (by simp), ih]
      rfl
    · rw [dropWhile_cons_of_neg (by simpa using isSlash)]

theorem settleWithin_part (limit : Nat) (parts : List CString) (start : CString) :
    Move.settleWithin limit parts (moves start) = Move.settleWithin limit parts
        (moveOf (start.takeWhile (· ≠ slash)) :: moves ((start.dropWhile (· ≠ slash)).drop 1)) := by
  have noSlash : slash ∉ start.takeWhile (· ≠ slash) := fun member => by
    simpa using all_eq_true.mp all_takeWhile slash member
  have whole : start.takeWhile (· ≠ slash) ++ start.dropWhile (· ≠ slash) = start :=
    takeWhile_append_dropWhile
  cases rest : start.dropWhile (· ≠ slash) with
  | nil =>
    rw [rest, append_nil] at whole
    conv_lhs => rw [← whole, moves, components_noSlash noSlash]
    exact (Move.settleWithin_stay limit parts [moveOf (start.takeWhile (· ≠ slash))]).symm
  | cons byte tail =>
    have isSlash : byte = slash := by
      have stops := head?_dropWhile_not (· ≠ slash) start
      rw [rest] at stops
      simpa using stops
    conv_lhs => rw [← whole, rest, isSlash, moves, components_append noSlash]
    rfl

theorem collectParts_eq {fuel : Nat} {p : CString} (enough : p.length < fuel)
    (parts : List CString) :
    collectParts fuel p parts = Move.settleWithin maxParts parts (moves p) := by
  induction fuel generalizing p parts with
  | zero => omega
  | succ fuel ih =>
    rw [collectParts, ← settleWithin_dropWhile]
    dsimp only
    split
    next ended =>
      rw [ended]
      rfl
    next named =>
      have notSlash := head?_dropWhile_not (· = slash) p
      have shorter : (p.dropWhile (· = slash)).length ≤ p.length := (dropWhile_suffix _).length_le
      generalize p.dropWhile (· = slash) = start at named notSlash shorter
      have partNamed : start.takeWhile (· ≠ slash) ≠ [] := by
        cases start with
        | nil => exact absurd rfl named
        | cons first rest =>
          have other : ¬first = slash := by simpa using notSlash
          simp [other]
      have rest : ((start.dropWhile (· ≠ slash)).drop 1).length < fuel := by
        have cut : (start.dropWhile (· ≠ slash)).length ≤ start.length :=
          (dropWhile_suffix _).length_le
        have positive := length_pos_iff.mpr named
        rw [length_drop]
        omega
      rw [settleWithin_part]
      generalize start.takeWhile (· ≠ slash) = part at partNamed
      by_cases dot : part = cstr "."
      · rw [if_pos dot, ih rest, dot]
        rfl
      · rw [if_neg dot]
        by_cases dots : part = cstr ".."
        · rw [if_pos dots, ih rest, dots]
          rfl
        · rw [if_neg dots, moveOf_name partNamed dot dots, Move.settleWithin, ih rest]

theorem writePart_eq {oSize : Nat} {out part : CString} (room : out.length ≤ oSize - 1) :
    writePart oSize out part = (out ++ part).take (oSize - 1) := by
  induction part generalizing out with
  | nil => rw [writePart, append_nil, take_of_length_le room]
  | cons byte rest ih =>
    rw [writePart]
    split
    next more =>
      rw [ih (by simpa using Nat.succ_le_of_lt more), append_assoc, singleton_append]
    next full => rw [take_append_of_le_length (Nat.not_lt.mp full), take_of_length_le room]

theorem writeParts_eq {oSize : Nat} {out : CString} {parts : List CString}
    (room : out.length ≤ oSize - 1) :
    writeParts oSize out parts = (out ++ slashed parts).take (oSize - 1) := by
  induction parts generalizing out with
  | nil => rw [writeParts, slashed, append_nil, take_of_length_le room]
  | cons part rest ih =>
    rw [writeParts]
    split
    next more =>
      dsimp only
      rw [writePart_eq room]
      cases rest with
      | nil => rfl
      | cons next others =>
        rw [slashed_cons]
        by_cases fits : (out ++ part).length < oSize - 1
        · rw [take_of_length_le (Nat.le_of_lt fits), if_pos ⟨cons_ne_nil next others, fits⟩, ih]
          · simp [append_assoc]
          · simpa [Nat.add_assoc] using Nat.succ_le_of_lt fits
        · have full : ((out ++ part).take (oSize - 1)).length = oSize - 1 :=
            length_take_of_le (Nat.not_lt.mp fits)
          rw [if_neg fun more => absurd more.2 (Nat.not_lt.mpr (Nat.le_of_eq full.symm)),
            ih (Nat.le_of_eq full),
            take_append_of_le_length (Nat.le_of_eq full.symm), take_take, Nat.min_self,
            ← append_assoc, take_append_of_le_length (Nat.not_lt.mp fits)]
    next full => rw [take_append_of_le_length (Nat.not_lt.mp full), take_of_length_le room]

variable {cwd path : CString} {oSize : Nat}

/-- Where the parts fit the result is the full path, cut to the buffer. -/
theorem resolvePath_fits (some : 1 < oSize) (fits : FitsParts cwd path) :
    resolvePath cwd path oSize = (fullPath cwd path).take (oSize - 1) := by
  unfold resolvePath fullPath
  split
  next => rfl
  next named =>
    obtain ⟨text, depth⟩ := fits.resolve_left named
    rw [fillTmp_eq named, decide_eq_false (Nat.not_lt.mpr text), take_of_length_le text]
    dsimp only
    rw [collectParts_eq (Nat.lt_succ_self _), Move.settleWithin_some depth]
    exact writeParts_eq (Nat.le_sub_one_of_lt some)

/-- Where they do not it is empty. -/
theorem resolvePath_overflow (outside : ¬ FitsParts cwd path) :
    resolvePath cwd path oSize = [] := by
  have named : path ≠ [] := fun empty => outside (.inl empty)
  rw [resolvePath, if_neg named, fillTmp_eq named]
  by_cases text : (joined cwd path).length ≤ tmpRoom
  · have deep : ¬ Move.Within maxParts [] (moves (joined cwd path)) :=
      fun depth => outside (.inr ⟨text, depth⟩)
    rw [decide_eq_false (Nat.not_lt.mpr text), take_of_length_le text]
    dsimp only
    rw [collectParts_eq (Nat.lt_succ_self _), Move.settleWithin_none (Nat.zero_le _) deep]
  · rw [decide_eq_true (Nat.not_le.mp text)]

end M4KK1.Kernel
