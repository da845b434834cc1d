import Mathlib.Data.List.Basic

/-!
# Moves along the names of a path

Moves up and down, on a stack of names and in a graph, agree where nodes have single parents.
-/

namespace M4KK1.Lib

open List

/-- One step of a path. -/
inductive Move (Name : Type) where
  | stay
  | up
  | down (name : Name)

namespace Move

variable {Name Node : Type}

def onto (names : List Name) : Move Name → List Name
  | .stay => names
  | .up => names.dropLast
  | .down name => names ++ [name]

def settle (names : List Name) (moves : List (Move Name)) : List Name :=
  moves.foldl onto names

/-- The stack after a list of moves, on which no step down may put more than `limit` names. -/
@[simp] def settleWithin (limit : Nat) : List Name → List (Move Name) → Option (List Name)
  | names, [] => some names
  | names, .down name :: moves =>
    if names.length < limit then settleWithin limit (names ++ [name]) moves else none
  | names, move :: moves => settleWithin limit (move.onto names) moves

/-- The stack never has more than `limit` names. -/
def Within (limit : Nat) (names : List Name) (moves : List (Move Name)) : Prop :=
  ∀ made, made <+: moves → (settle names made).length ≤ limit

@[simp] theorem settle_nil (names : List Name) : settle names [] = names := rfl

@[simp] theorem settle_cons (names : List Name) (move : Move Name) (moves : List (Move Name)) :
    settle names (move :: moves) = settle (move.onto names) moves := rfl

@[simp] theorem settle_append (names : List Name) (first second : List (Move Name)) :
    settle names (first ++ second) = settle (settle names first) second :=
  foldl_append

theorem settle_downs (names more : List Name) : settle names (more.map down) = names ++ more := by
  induction more generalizing names with
  | nil => simp
  | cons name more ih =>
    rw [map_cons, settle_cons, onto, ih, append_assoc]
    rfl

variable {names : List Name} {moves : List (Move Name)} {limit : Nat}

theorem mem_settle {name : Name}
    (member : name ∈ settle names moves) : name ∈ names ∨ down name ∈ moves := by
  induction moves generalizing names with
  | nil => exact .inl member
  | cons move moves ih =>
    rcases ih member with here | later
    · cases move with
      | stay => exact .inl here
      | up => exact .inl (dropLast_subset names here)
      | down other =>
        rcases mem_append.mp here with old | new
        · exact .inl old
        · exact .inr (by simp [mem_singleton.mp new])
    · exact .inr (mem_cons_of_mem move later)

theorem Within.start (within : Within limit names moves) : names.length ≤ limit :=
  within [] nil_prefix

theorem within_cons {move : Move Name} :
    Within limit names (move :: moves) ↔ names.length ≤ limit ∧
    Within limit (move.onto names) moves := by
  constructor
  · intro within
    refine ⟨within.start, fun made isPrefix => ?_⟩
    exact within (move :: made) (cons_prefix_cons.mpr ⟨rfl, isPrefix⟩)
  · rintro ⟨start, rest⟩ made isPrefix
    cases made with
    | nil => exact start
    | cons first made =>
      obtain ⟨rfl, others⟩ := cons_prefix_cons.mp isPrefix
      exact rest made others

theorem within_short (few : names.length + moves.length ≤ limit) : Within limit names moves := by
  induction moves generalizing names with
  | nil =>
    intro made isPrefix
    rw [prefix_nil.mp isPrefix]
    exact few
  | cons move moves ih =>
    rw [length_cons] at few
    refine within_cons.mpr ⟨by omega, ih ?_⟩
    cases move with
    | stay =>
      rw [onto]
      omega
    | up =>
      rw [onto, length_dropLast]
      omega
    | down name =>
      rw [onto, length_append, length_singleton]
      omega

theorem within_downs {more : List Name} (room : more.length ≤ limit) :
    Within limit [] (more.map down) := by
  rintro made ⟨rest, whole⟩
  obtain ⟨first, _, rfl, rfl, _⟩ := map_eq_append_iff.mp whole.symm
  rw [settle_downs, nil_append]
  rw [length_append] at room
  omega

theorem settleWithin_stay (limit : Nat) (names : List Name) (moves : List (Move Name)) :
    settleWithin limit names (moves ++ [.stay]) = settleWithin limit names moves := by
  induction moves generalizing names with
  | nil => rfl
  | cons move moves ih =>
    cases move with
    | stay => exact ih names
    | up => exact ih _
    | down name =>
      rw [cons_append, settleWithin, settleWithin]
      split
      next => exact ih _
      next => rfl

theorem settleWithin_some
    (within : Within limit names moves) :
    settleWithin limit names moves = some (settle names moves) := by
  induction moves generalizing names with
  | nil => rfl
  | cons move moves ih =>
    obtain ⟨_, rest⟩ := within_cons.mp within
    cases move with
    | stay => exact ih rest
    | up => exact ih rest
    | down name =>
      have room : names.length < limit := by
        simpa [onto, Nat.succ_le_iff] using rest.start
      rw [settleWithin, if_pos room]
      exact ih rest

theorem settleWithin_none (start : names.length ≤ limit) (outside : ¬ Within limit names moves) :
    settleWithin limit names moves = none := by
  induction moves generalizing names with
  | nil =>
    refine absurd (fun made isPrefix => ?_) outside
    rw [prefix_nil.mp isPrefix]
    exact start
  | cons move moves ih =>
    have later : ¬ Within limit (move.onto names) moves :=
      fun rest => outside (within_cons.mpr ⟨start, rest⟩)
    cases move with
    | stay => exact ih start later
    | up => exact ih (Nat.le_trans (by simp [onto]) start) later
    | down name =>
      rw [settleWithin]
      split
      next room => exact ih (by simpa [onto] using Nat.succ_le_of_lt room) later
      next => rfl

section Graph

variable (above : Node → Node) (below : Node → Name → Node)

def lead (node : Node) : Move Name → Node
  | .stay => node
  | .up => above node
  | .down name => below node name

variable {above below}

/-- Every way down from `root` to this node comes from the node above it. -/
def ReturnsFrom (above : Node → Node) (below : Node → Name → Node) (root node : Node) : Prop :=
  ∀ (names : List Name) (name : Name), below (names.foldl below root) name = node →
    above node = names.foldl below root

/-- Moving through the graph ends where the settled names lead. -/
theorem lead_settle {root : Node} (top : above root = root) {names : List Name}
    {moves : List (Move Name)}
    (returns : ∀ before after, moves = before ++ .up :: after →
      ReturnsFrom above below root (before.foldl (lead above below) (names.foldl below root))) :
    moves.foldl (lead above below) (names.foldl below root) =
      (settle names moves).foldl below root := by
  induction moves generalizing names with
  | nil => rfl
  | cons move moves ih =>
    have first : lead above below (names.foldl below root) move =
        (move.onto names).foldl below root := by
      cases move with
      | stay => rfl
      | down name => rw [onto, foldl_append, foldl_cons, foldl_nil, lead]
      | up =>
        have back := returns [] moves rfl
        rcases eq_nil_or_concat names with rfl | ⟨front, last, rfl⟩
        · exact top
        · rw [concat_eq_append] at back ⊢
          rw [onto, dropLast_concat, lead]
          refine back front last ?_
          rw [foldl_nil, foldl_append, foldl_cons, foldl_nil]
    rw [foldl_cons, settle_cons, first]
    refine ih fun before after split => ?_
    rw [← first, ← foldl_cons]
    exact returns (move :: before) after (by rw [split, cons_append])

end Graph

end Move

end M4KK1.Lib
