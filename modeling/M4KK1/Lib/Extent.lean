import Mathlib.Algebra.Order.Group.Defs
import Mathlib.Order.Bounds.Basic
import Mathlib.Data.List.Induction

/-!
# An extent that grows by intervals

An extent has a start and a width: when the start moves, the end goes down with it.
-/

namespace M4KK1.Lib

open List

/-- The start and the width of a stretch. -/
@[ext] structure Extent (α : Type) where
  start : α
  width : α

variable {α β : Type} [LinearOrder α] {low high : β → α}

theorem isLeast_image_iff {intervals : List β} {edge : α} :
    IsLeast (low '' {interval | interval ∈ intervals}) edge ↔
      (∀ interval ∈ intervals, edge ≤ low interval) ∧ ∃ interval ∈ intervals,
      low interval = edge := by
  rw [IsLeast, and_comm, mem_lowerBounds, Set.forall_mem_image]
  rfl

theorem isGreatest_image_iff {intervals : List β} {edge : α} :
    IsGreatest (high '' {interval | interval ∈ intervals}) edge ↔
      (∀ interval ∈ intervals, high interval ≤ edge) ∧ ∃ interval ∈ intervals,
      high interval = edge := by
  rw [IsGreatest, and_comm, mem_upperBounds, Set.forall_mem_image]
  rfl

variable [AddCommGroup α] {first : β}

/-- The start moves down, and the width grows when the interval ends further from that start. -/
def Extent.grow (low high : β → α) (extent : Extent α) (added : β) : Extent α :=
  { start := min extent.start (low added)
    width := max extent.width (high added - min extent.start (low added)) }

def extentOf (low high : β → α) (first : β) (rest : List β) : Extent α :=
  rest.foldl (Extent.grow low high) ⟨low first, high first - low first⟩

/-- One of the intervals that end last has, among itself and those before it, one that
starts first. -/
def EndsAfterStart (low high : β → α) (intervals : List β) : Prop :=
  ∃ before last, (before ++ [last]) <+: intervals ∧ (∀ other ∈ intervals, high other ≤ high last) ∧
    ∃ near ∈ before ++ [last], ∀ other ∈ intervals, low near ≤ low other

variable (rest : List β)

theorem extentOf_append (added : β) : extentOf low high first (rest ++ [added]) =
      (extentOf low high first rest).grow low high added := by
  rw [extentOf, foldl_append]
  rfl

/-- The start is the least of the starts. -/
theorem extentOf_start :
    IsLeast (low '' {interval | interval ∈ first :: rest})
      (extentOf low high first rest).start := by
  rw [isLeast_image_iff]
  induction rest using List.reverseRecOn with
  | nil => simp [extentOf]
  | append_singleton rest added ih =>
    obtain ⟨below, nearest, member, same⟩ := ih
    rw [extentOf_append, ← cons_append]
    constructor
    · intro interval inList
      rcases mem_append.mp inList with old | new
      · exact (min_le_left _ _).trans (below interval old)
      · obtain rfl := mem_singleton.mp new
        exact min_le_right _ _
    · rcases le_total (extentOf low high first rest).start (low added) with stays | moves
      · exact ⟨nearest, mem_append_left _ member, same.trans (min_eq_left stays).symm⟩
      · exact ⟨added, mem_append_right _ mem_cons_self, (min_eq_right moves).symm⟩

variable [IsOrderedAddMonoid α]

theorem add_sub_le_end {start low high : α} (before : start ≤ low) :
    start + (high - low) ≤ high := by
  rw [add_sub_left_comm]
  exact add_le_of_nonpos_right (sub_nonpos.mpr before)

theorem extentOf_width :
    (∀ before last, (before ++ [last]) <+: first :: rest → ∀ near ∈ before ++ [last],
        high last - low near ≤ (extentOf low high first rest).width) ∧
      ∃ before last, (before ++ [last]) <+: first :: rest ∧ ∃ near ∈ before ++ [last],
        (extentOf low high first rest).width = high last - low near := by
  induction rest using List.reverseRecOn with
  | nil =>
    constructor
    · intro before last isPrefix near member
      obtain ⟨rfl, rfl⟩ : before = [] ∧ last = first := by
        rcases prefix_concat_iff.mp (show _ <+: ([] : List β) ++ [first] from isPrefix) with
          whole | empty
        · exact append_singleton_inj.mp whole
        · exact absurd (prefix_nil.mp empty) (by simp)
      obtain rfl := mem_singleton.mp member
      exact le_refl _
    · exact ⟨[], first, prefix_refl _, first, mem_singleton_self _, rfl⟩
  | append_singleton rest added ih =>
    obtain ⟨above, before, last, isPrefix, near, member, same⟩ := ih
    obtain ⟨below, nearest, inList, least⟩ := isLeast_image_iff.mp
      (extentOf_start (rest ++ [added]) : IsLeast _ (extentOf low high first _).start)
    rw [extentOf_append, ← cons_append] at *
    constructor
    · intro before last isPrefix near member
      rcases prefix_concat_iff.mp isPrefix with whole | old
      · obtain ⟨rfl, rfl⟩ := append_singleton_inj.mp whole
        exact (sub_le_sub_left (below near member) _).trans (le_max_right _ _)
      · exact (above before last old near member).trans (le_max_left _ _)
    · rcases le_total (high added - min (extentOf low high first rest).start (low added))
        (extentOf low high first rest).width with stays | widens
      · exact ⟨before, last, isPrefix.trans (prefix_append _ _), near, member,
          (max_eq_left stays).trans same⟩
      · refine ⟨first :: rest, added, prefix_refl _, nearest, inList, ?_⟩
        rw [least]
        exact max_eq_right widens

/-- The end is the greatest of the ends exactly if one that ends last comes once the start is there.
-/
theorem extentOf_end_iff : IsGreatest (high '' {interval | interval ∈ first :: rest})
        ((extentOf low high first rest).start + (extentOf low high first rest).width) ↔
      EndsAfterStart low high (first :: rest) := by
  obtain ⟨below, nearest, inList, least⟩ := isLeast_image_iff.mp
    (extentOf_start rest : IsLeast _ (extentOf low high first rest).start)
  obtain ⟨above, before, last, isPrefix, near, member, width⟩ :=
    (extentOf_width rest : _ ∧ ∃ before last, _ ∧ ∃ near ∈ _,
      (extentOf low high first rest).width = _)
  rw [isGreatest_image_iff]
  have lastIn : last ∈ first :: rest := isPrefix.subset (by simp)
  have nearIn : near ∈ first :: rest := isPrefix.subset member
  constructor
  · rintro ⟨covers, _⟩
    have reached := covers last lastIn
    rw [width] at covers reached
    have starts : low near ≤ (extentOf low high first rest).start := by
      rwa [add_sub_left_comm, le_add_iff_nonneg_right, sub_nonneg] at reached
    refine ⟨before, last, isPrefix, fun other otherIn => ?_, near, member, fun other otherIn => ?_⟩
    · exact (covers other otherIn).trans (add_sub_le_end (below near nearIn))
    · exact starts.trans (below other otherIn)
  · rintro ⟨before', last', isPrefix', greatest, near', member', starts⟩
    have lastIn' : last' ∈ first :: rest := isPrefix'.subset (by simp)
    have nearIn' : near' ∈ first :: rest := isPrefix'.subset member'
    have start : (extentOf low high first rest).start = low near' :=
      le_antisymm (below near' nearIn') (least ▸ starts nearest inList)
    have wide := above before' last' isPrefix' near' member'
    have ends : high last' =
        (extentOf low high first rest).start + (extentOf low high first rest).width := by
      rw [width] at wide ⊢
      rw [start]
      exact le_antisymm (sub_le_iff_le_add'.mp wide)
        ((add_sub_le_end (starts near nearIn)).trans (greatest last lastIn))
    exact ⟨fun other otherIn => ends ▸ greatest other otherIn, last', lastIn', ends⟩

end M4KK1.Lib
