import M4KK1.Kernel.ResolvePath

/-!
# The paths the resolver returns

A result that fits is a slash and names with slashes between them, and resolves to itself.
-/

namespace M4KK1.Kernel

open Lib Yafs List

/-- The size of `resolved` and of a process's `cwd`. -/
def pathRoom : Nat := 256

/-- The result fits the buffers of `mkrn_resolve_path` and that of its caller. -/
def PathFits (cwd path : CString) : Prop :=
  FitsParts cwd path ∧ (fullPath cwd path).length < pathRoom

/-- The results that fit; with an empty path, the directory has to be one as well. -/
inductive Resolved : CString → Prop where
  | named {cwd path : CString} (named : path ≠ []) (fits : PathFits cwd path) :
      Resolved (resolvePath cwd path pathRoom)
  | same {cwd : CString} (resolved : Resolved cwd) : Resolved (resolvePath cwd [] pathRoom)

/-- An absolute path without an empty component, `.` or `..`, and no slash at its end. -/
structure NormalPath (path : CString) : Prop where
  absolute : path.head? = some slash
  named : path = [slash] ∨ ∀ comp ∈ (components path).drop 1,
      comp ≠ [] ∧ comp ≠ cstr "." ∧ comp ≠ cstr ".."
  noTrailing : path = [slash] ∨ path.getLast? ≠ some slash

/-- A component that stands for a name. -/
structure IsName (comp : CString) : Prop where
  named : comp ≠ []
  dot : comp ≠ cstr "."
  dots : comp ≠ cstr ".."
  noSlash : slash ∉ comp

/-- The names of a result that fits. -/
structure NormalNames (names : List CString) : Prop where
  isName : ∀ name ∈ names, IsName name
  few : names.length ≤ maxParts
  short : (absolute names).length < pathRoom

theorem components_slashFree {path comp : CString} (member : comp ∈ components path) :
    slash ∉ comp := by
  induction path generalizing comp with
  | nil =>
    obtain rfl : comp = [] := by simpa [components] using member
    exact not_mem_nil
  | cons byte rest ih =>
    rw [components] at member
    split at member
    next =>
      rcases mem_cons.mp member with rfl | later
      · exact not_mem_nil
      · exact ih later
    next other =>
      cases parts : components rest with
      | nil => exact absurd parts (components_ne_nil rest)
      | cons first others =>
        rw [parts] at member ih
        rcases mem_cons.mp member with rfl | later
        · rintro (_ | ⟨_, inFirst⟩)
          · exact other rfl
          · exact ih mem_cons_self inFirst
        · exact ih (mem_cons_of_mem _ later)

theorem moveOf_isName {name : CString} (isName : IsName name) : moveOf name = .down name :=
  moveOf_name isName.named isName.dot isName.dots

theorem isName_of_moveOf {comp name : CString} (noSlash : slash ∉ comp)
    (move : moveOf comp = .down name) :
    IsName name := by
  unfold moveOf at move
  split at move
  next => cases move
  next named =>
    split at move
    next => cases move
    next dots =>
      cases move
      exact ⟨fun empty => named (.inl empty), fun dot => named (.inr dot), dots, noSlash⟩

variable {names : List CString}

theorem isName_settle (isName : ∀ name ∈ names, IsName name) (path : CString) :
    ∀ name ∈ Move.settle names (moves path), IsName name := by
  intro name member
  rcases Move.mem_settle member with here | moved
  · exact isName name here
  · obtain ⟨comp, inPath, move⟩ := mem_map.mp moved
    exact isName_of_moveOf (components_slashFree inPath) move

theorem absolute_ne_nil (names : List CString) : absolute names ≠ [] := cons_ne_nil _ _

theorem components_slashed (some : names ≠ []) (noSlash : ∀ name ∈ names, slash ∉ name) :
    components (slashed names) = names := by
  induction names with
  | nil => exact absurd rfl some
  | cons name rest ih =>
    have free : slash ∉ name := noSlash name mem_cons_self
    cases rest with
    | nil => exact components_noSlash free
    | cons next others =>
      rw [slashed_cons, components_append free,
        ih (cons_ne_nil next others) fun other member =>
          noSlash other (mem_cons_of_mem name member)]

theorem components_absolute (some : names ≠ []) (noSlash : ∀ name ∈ names, slash ∉ name) :
    components (absolute names) = [] :: names := by
  rw [absolute, components, if_pos rfl, components_slashed some noSlash]

theorem moves_absolute (isName : ∀ name ∈ names, IsName name) :
    moves (absolute names) = .stay :: if names = [] then [.stay] else names.map .down := by
  split
  next empty =>
    rw [empty]
    rfl
  next some =>
    rw [moves, components_absolute some fun name member => (isName name member).noSlash, map_cons]
    congr 1
    exact map_congr_left fun name member => moveOf_isName (isName name member)

theorem settle_absolute (isName : ∀ name ∈ names, IsName name) :
    Move.settle [] (moves (absolute names)) = names := by
  rw [moves_absolute isName]
  split
  next empty =>
    rw [empty]
    rfl
  next => rw [Move.settle_cons, Move.onto, Move.settle_downs, nil_append]

theorem within_absolute (isName : ∀ name ∈ names, IsName name) (few : names.length ≤ maxParts) :
    Move.Within maxParts [] (moves (absolute names)) := by
  rw [moves_absolute isName, Move.within_cons]
  refine ⟨Nat.zero_le _, ?_⟩
  split
  next => exact Move.within_cons.mpr ⟨Nat.zero_le _, by
    intro made isPrefix
    rw [prefix_nil.mp isPrefix]
    exact Nat.zero_le _⟩
  next => exact Move.within_downs few

theorem settle_joined {cwd path : CString} :
    Move.settle names (moves (cwd ++ separator cwd ++ path)) =
      Move.settle (Move.settle names (moves cwd)) (moves path) := by
  unfold separator
  rcases eq_nil_or_concat cwd with rfl | ⟨front, last, rfl⟩
  · rfl
  · rw [concat_eq_append]
    by_cases isSlash : last = slash
    · subst isSlash
      have parts (tail : CString) : moves (front ++ slash :: tail) = moves front ++ moves tail := by
        rw [moves, components_slash, map_append]
        rfl
      rw [if_pos (.inr getLast?_concat), append_nil, append_assoc, singleton_append, parts, parts,
        Move.settle_append, Move.settle_append]
      rfl
    · rw [if_neg (by simp [isSlash]), append_assoc _ [slash], singleton_append, moves,
        components_slash,
        map_append, Move.settle_append]
      rfl

theorem settle_joined_names (isName : ∀ name ∈ names, IsName name) (path : CString) :
    Move.settle [] (moves (joined (absolute names) path)) =
      Move.settle (if path.head? = some slash then [] else names) (moves path) := by
  unfold joined
  split
  next => rfl
  next => rw [settle_joined, settle_absolute isName]

variable {cwd path : CString}

theorem resolvePath_eq (fits : PathFits cwd path) :
    resolvePath cwd path pathRoom = fullPath cwd path := by
  rw [resolvePath_fits (by decide) fits.1, take_of_length_le (Nat.le_sub_one_of_lt fits.2)]

theorem PathFits.normalNames (fits : PathFits cwd path) (named : path ≠ []) :
    NormalNames (Move.settle [] (moves (joined cwd path))) where
  isName := isName_settle (by simp) _
  few := (fits.1.resolve_left named).2 _ prefix_rfl
  short := by
    have short := fits.2
    rwa [fullPath, if_neg named] at short

/-- What the resolver returns is a slash and names. -/
theorem Resolved.shape (resolved : Resolved cwd) :
    ∃ names, NormalNames names ∧ cwd = absolute names := by
  induction resolved with
  | named named fits =>
    refine ⟨_, fits.normalNames named, ?_⟩
    rw [resolvePath_eq fits, fullPath, if_neg named]
  | same _ ih =>
    obtain ⟨names, normal, rfl⟩ := ih
    refine ⟨names, normal, ?_⟩
    rw [resolvePath, if_pos rfl, take_of_length_le (Nat.le_sub_one_of_lt normal.short)]

section

variable (normal : NormalNames names)

include normal

theorem PathFits.resolved_names (fits : PathFits (absolute names) path) :
    ∃ after, NormalNames after ∧ resolvePath (absolute names) path pathRoom = absolute after ∧
      after = Move.settle (if path.head? = some slash then [] else names) (moves path) := by
  by_cases empty : path = []
  · subst empty
    refine ⟨names, normal, ?_, rfl⟩
    rw [resolvePath_eq fits, fullPath, if_pos rfl]
  · refine ⟨_, fits.normalNames empty, ?_, settle_joined_names normal.isName path⟩
    rw [resolvePath_eq fits, fullPath, if_neg empty]

theorem NormalNames.normalPath : NormalPath (absolute names) := by
  by_cases empty : names = []
  · subst empty
    exact ⟨rfl, .inl rfl, .inl rfl⟩
  · have noSlash : ∀ name ∈ names, slash ∉ name :=
      fun name member => (normal.isName name member).noSlash
    refine ⟨rfl, .inr fun comp member => ?_, .inr fun slashLast => ?_⟩
    · rw [components_absolute empty noSlash] at member
      exact ⟨(normal.isName comp member).named, (normal.isName comp member).dot,
        (normal.isName comp member).dots⟩
    · -- A slash at the end would leave an empty component behind it.
      obtain ⟨front, whole⟩ := getLast?_eq_some_iff.mp slashLast
      have parts := components_absolute empty noSlash
      rw [whole, components_slash] at parts
      have ends : ([] :: names).getLast? = some [] := by
        rw [← parts]
        exact getLast?_concat
      obtain ⟨others, last, isLast⟩ := eq_nil_or_concat names |>.resolve_left empty
      rw [isLast, concat_eq_append, ← cons_append, getLast?_concat] at ends
      refine (normal.isName last ?_).named (Option.some.inj ends)
      simp [isLast]

theorem NormalNames.fullPath_eq (cwd : CString) :
    fullPath cwd (absolute names) = absolute names := by
  have isAbsolute : joined cwd (absolute names) = absolute names := if_pos rfl
  rw [fullPath, if_neg (absolute_ne_nil names), isAbsolute, settle_absolute normal.isName]

/-- A normal path fits whatever directory it is resolved from. -/
theorem NormalNames.fits (cwd : CString) : PathFits cwd (absolute names) := by
  have isAbsolute : joined cwd (absolute names) = absolute names := if_pos rfl
  refine ⟨.inr ?_, lt_of_eq_of_lt (congrArg List.length (normal.fullPath_eq cwd)) normal.short⟩
  rw [isAbsolute]
  exact ⟨Nat.le_of_lt (Nat.lt_trans normal.short (by decide)),
    within_absolute normal.isName normal.few⟩

theorem NormalNames.resolvePath_self (cwd : CString) :
    resolvePath cwd (absolute names) pathRoom = absolute names := by
  rw [resolvePath_eq (normal.fits cwd), normal.fullPath_eq]

end

theorem resolved_iff : Resolved cwd ↔ ∃ names, NormalNames names ∧ cwd = absolute names := by
  refine ⟨Resolved.shape, ?_⟩
  rintro ⟨names, normal, rfl⟩
  rw [← normal.resolvePath_self []]
  exact .named (absolute_ne_nil names) (normal.fits [])

theorem normalNames_nil : NormalNames [] :=
  ⟨fun _ member => absurd member not_mem_nil, Nat.zero_le _, by decide⟩

theorem resolved_root : Resolved (cstr "/") := resolved_iff.mpr ⟨[], normalNames_nil, by decide⟩

end M4KK1.Kernel
