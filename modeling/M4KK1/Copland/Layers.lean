import Mathlib.Data.List.Basic
import Mathlib.Data.List.Induction

/-!
# Pictures painted in layers

A point shows what the last layer that reaches it has put there.
-/

namespace M4KK1.Layers

open List

variable {Point Color Item : Type}

/-- What a write sets each point to, or nothing where it does not reach. -/
abbrev Layer (Point Color : Type) := Point → Option Color

def Layer.over (layer : Layer Point Color) (picture : Point → Color) : Point → Color :=
  fun point => (layer point).getD (picture point)

variable (layers : List (Layer Point Color))

/-- A picture after writes in their order. -/
def paint (picture : Point → Color) : Point → Color :=
  layers.foldl (fun picture layer => layer.over picture) picture

@[simp]
theorem paint_nil (picture : Point → Color) : paint [] picture = picture := rfl

@[simp]
theorem paint_cons (layer : Layer Point Color) (layers : List (Layer Point Color))
    (picture : Point → Color) :
    paint (layer :: layers) picture = paint layers (layer.over picture) :=
  rfl

theorem paint_append (first second : List (Layer Point Color)) (picture : Point → Color) :
    paint (first ++ second) picture = paint second (paint first picture) :=
  foldl_append

/-- Some layer shows something there. -/
def Reached (point : Point) : Prop :=
  ∃ layer ∈ layers, layer point ≠ none

theorem paint_unreached {layers : List (Layer Point Color)} {point : Point}
    (unreached : ¬Reached layers point)
    (picture : Point → Color) : paint layers picture point = picture point := by
  induction layers generalizing picture with
  | nil => rfl
  | cons layer layers ih =>
    have skips : layer point = none := by
      by_contra reaches
      exact unreached ⟨layer, mem_cons_self, reaches⟩
    have rest : ¬Reached layers point := fun ⟨l, member, reaches⟩ =>
      unreached ⟨l, mem_cons_of_mem layer member, reaches⟩
    rw [paint_cons, ih rest, Layer.over, skips, Option.getD_none]

theorem paint_reached {layers : List (Layer Point Color)} {point : Point}
    (reached : Reached layers point)
    (picture other : Point → Color) : paint layers picture point = paint layers other point := by
  induction layers generalizing picture other with
  | nil =>
    obtain ⟨_, absent, _⟩ := reached
    cases absent
  | cons layer layers ih =>
    by_cases later : Reached layers point
    · exact ih later _ _
    · obtain ⟨set, member, reaches⟩ := reached
      rcases mem_cons.mp member with rfl | inRest
      · obtain ⟨color, written⟩ := Option.ne_none_iff_exists'.mp reaches
        rw [paint_cons, paint_cons, paint_unreached later, paint_unreached later, Layer.over,
          Layer.over, written,
          Option.getD_some, Option.getD_some]
      · exact absurd ⟨set, inRest, reaches⟩ later

theorem paint_eq_iff (point : Point) (picture other : Point → Color) :
    paint layers picture point = paint layers other point ↔
      (¬Reached layers point → picture point = other point) := by
  by_cases reached : Reached layers point
  · exact ⟨fun _ unreached => absurd reached unreached, fun _ => paint_reached reached _ _⟩
  · rw [paint_unreached reached, paint_unreached reached]
    exact ⟨fun same _ => same, fun same => same reached⟩

section Stack

variable (covers : Item → Prop) [DecidablePred covers]

def topmost (items : List Item) : Option Item := (items.filter fun item => covers item).getLast?

theorem topmost_and (keeps : Item → Prop) [DecidablePred keeps] {items : List Item} {item : Item}
    (top : topmost covers items = some item) (kept : keeps item) :
    topmost (fun item => covers item ∧ keeps item) items = some item := by
  obtain ⟨front, split⟩ := getLast?_eq_some_iff.mp top
  have both : (items.filter fun item => covers item ∧ keeps item) =
      (items.filter fun item => covers item).filter fun item => keeps item := by
    rw [filter_filter]
    exact filter_congr fun item _ => by rw [Bool.decide_and, Bool.and_comm]
  rw [topmost, both, split, filter_append, filter_singleton, decide_eq_true kept, cond_true]
  exact getLast?_concat

theorem topmost_and_none (keeps : Item → Prop) [DecidablePred keeps] {items : List Item}
    (bare : topmost covers items = none) :
    topmost (fun item => covers item ∧ keeps item) items = none := by
  have nothing := filter_eq_nil_iff.mp (getLast?_eq_none_iff.mp bare)
  refine getLast?_eq_none_iff.mpr (filter_eq_nil_iff.mpr fun item member both => ?_)
  exact nothing item member (decide_eq_true (of_decide_eq_true both).1)

/-- A stack of items drawn in order shows the topmost that covers the point. -/
theorem paint_stack (draw : Item → List (Layer Point Color)) (shown : Item → Color) (point : Point)
    (draws : ∀ item picture, paint (draw item) picture point = if covers item then shown item
      else picture point)
    (items : List Item) (picture : Point → Color) :
    paint (items.flatMap draw) picture point =
      ((topmost covers items).map shown).getD (picture point) := by
  induction items using List.reverseRecOn with
  | nil => rfl
  | append_singleton items item ih =>
    rw [flatMap_append, flatMap_singleton, paint_append, draws, topmost, filter_append,
      filter_singleton]
    split
    · next covered =>
      rw [decide_eq_true covered, cond_true, getLast?_concat]
      rfl
    · next uncovered =>
      rw [decide_eq_false uncovered, cond_false, append_nil]
      exact ih

end Stack

end M4KK1.Layers
