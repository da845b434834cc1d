import M4KK1.Lib.Extent
import M4KK1.Copland.Compositor
import Mathlib.Algebra.Order.Group.Int
import Mathlib.Data.Set.Finite.List
import Mathlib.Data.Set.Finite.Lemmas

/-!
# Damage boxes

A box moves its corner first, so what reached furthest before the move reaches less far behind it.
-/

namespace M4KK1.Copland

open M4KK1.Lib List

/-- A rectangle with something in it whose edges are values of `int32_t`. -/
structure Box.Drawn (box : Box) : Prop where
  left : -2147483648 ≤ box.x
  top : -2147483648 ≤ box.y
  wide : 0 < box.w
  tall : 0 < box.h
  width : box.w < 2147483648
  height : box.h < 2147483648
  right : box.x + box.w < 2147483648
  bottom : box.y + box.h < 2147483648

/-- The point lies in the rectangle. -/
def Box.Spans (box : Box) (px py : Int) : Prop :=
  (box.x ≤ px ∧ px < box.x + box.w) ∧ box.y ≤ py ∧ py < box.y + box.h

/-- Every point of every rectangle lies in the box. -/
def Box.Bounds (box : Box) (boxes : List Box) : Prop :=
  ∀ added ∈ boxes, ∀ px py, added.Spans px py → box.Spans px py

/-- The smallest box with every rectangle in it. -/
def Box.Tight (box : Box) (boxes : List Box) : Prop :=
  box.Bounds boxes ∧
    ∀ other : Box, other.Bounds boxes → ∀ px py, box.Spans px py → other.Spans px py

/-- From the first edge of a rectangle to the last of another is an `int32_t`. -/
def SpreadFits (boxes : List Box) : Prop :=
  ∀ near ∈ boxes, ∀ far ∈ boxes,
    far.x + far.w - near.x < 2147483648 ∧ far.y + far.h - near.y < 2147483648

/-- In either direction one rectangle furthest on comes no earlier than one furthest back. -/
def GrowsOutward (boxes : List Box) : Prop :=
  SpreadFits boxes ∧ EndsAfterStart Box.x (fun box => box.x + box.w) boxes ∧
    EndsAfterStart Box.y (fun box => box.y + box.h) boxes

variable {box : Box} {boxes : List Box} {first : Box} {rest : List Box}

theorem spans_of_spans_iff {added : Box} (drawn : added.Drawn) :
    (∀ px py, added.Spans px py → box.Spans px py) ↔
    (box.x ≤ added.x ∧ added.x + added.w ≤ box.x + box.w) ∧
        box.y ≤ added.y ∧ added.y + added.h ≤ box.y + box.h := by
  have wide := drawn.wide
  have tall := drawn.tall
  unfold Box.Spans
  constructor
  · intro holds
    have first := holds added.x added.y (by omega)
    have last := holds (added.x + added.w - 1) (added.y + added.h - 1) (by omega)
    omega
  · intro outside px py inside
    omega

theorem bounds_iff (drawn : ∀ added ∈ boxes, added.Drawn) :
    box.Bounds boxes ↔ ∀ added ∈ boxes, (box.x ≤ added.x ∧ added.x + added.w ≤ box.x + box.w) ∧
      box.y ≤ added.y ∧ added.y + added.h ≤ box.y + box.h :=
  forall₂_congr fun added member => spans_of_spans_iff (drawn added member)

theorem tight_iff (nonempty : boxes ≠ []) (drawn : ∀ added ∈ boxes, added.Drawn) : box.Tight boxes ↔
      (IsLeast (Box.x '' {added | added ∈ boxes}) box.x ∧
        IsGreatest ((fun added => added.x + added.w) '' {added | added ∈ boxes}) (box.x + box.w)) ∧
      IsLeast (Box.y '' {added | added ∈ boxes}) box.y ∧
        IsGreatest ((fun added => added.y + added.h) '' {added | added ∈ boxes})
          (box.y + box.h) := by
  have finite : {added | added ∈ boxes}.Finite := boxes.finite_toSet
  have occupied : {added | added ∈ boxes}.Nonempty := exists_mem_of_ne_nil boxes nonempty
  simp only [isLeast_image_iff, isGreatest_image_iff]
  rw [Box.Tight, bounds_iff drawn]
  constructor
  · rintro ⟨bounds, smallest⟩
    obtain ⟨west, westIn, isWest⟩ := Set.exists_min_image _ Box.x finite occupied
    obtain ⟨north, northIn, isNorth⟩ := Set.exists_min_image _ Box.y finite occupied
    obtain ⟨east, eastIn, isEast⟩ := Set.exists_max_image _ (fun added => added.x + added.w)
      finite occupied
    obtain ⟨south, southIn, isSouth⟩ := Set.exists_max_image _ (fun added => added.y + added.h)
      finite occupied
    -- the hull is one of the boxes that bound the rectangles, so it has the smallest in it
    have inHull :=
      smallest ⟨west.x, north.y, east.x + east.w - west.x, south.y + south.h - north.y⟩ (by
      rw [bounds_iff drawn]
      intro added member
      have := isWest added member
      have := isNorth added member
      have := isEast added member
      have := isSouth added member
      dsimp only at *
      omega)
    have first := inHull box.x box.y
    have last := inHull (box.x + box.w - 1) (box.y + box.h - 1)
    have westBounds := bounds west westIn
    have northBounds := bounds north northIn
    have eastBounds := bounds east eastIn
    have southBounds := bounds south southIn
    have wide := (drawn west westIn).wide
    have tall := (drawn west westIn).tall
    unfold Box.Spans at first last
    dsimp only at first last
    refine ⟨⟨⟨fun added member => (bounds added member).1.1, west, westIn, ?_⟩,
      fun added member => (bounds added member).1.2, east, eastIn, ?_⟩,
      ⟨fun added member => (bounds added member).2.1, north, northIn, ?_⟩,
      fun added member => (bounds added member).2.2, south, southIn, ?_⟩
    · omega
    · omega
    · omega
    · omega
  · rintro ⟨⟨⟨lefts, west, westIn, isWest⟩, rights, east, eastIn, isEast⟩,
      ⟨tops, north, northIn, isNorth⟩, bottoms, south, southIn, isSouth⟩
    refine ⟨fun added member => ⟨⟨lefts added member, rights added member⟩, tops added member,
      bottoms added member⟩, fun other bounds px py inside => ?_⟩
    rw [bounds_iff drawn] at bounds
    have westBounds := bounds west westIn
    have northBounds := bounds north northIn
    have eastBounds := bounds east eastIn
    have southBounds := bounds south southIn
    unfold Box.Spans at *
    omega

/-- The edges of a box fit an `int32_t`, and it is not the one for no damage. -/
structure Box.Kept (box : Box) : Prop where
  left : -2147483648 ≤ box.x
  top : -2147483648 ≤ box.y
  some : box.w ≠ 0
  width : box.w < 2147483648
  height : box.h < 2147483648

theorem Box.Drawn.kept (drawn : box.Drawn) : box.Kept :=
  { drawn with some := Int.ne_of_gt drawn.wide }

theorem cover_kept {added : Box} (kept : box.Kept) (drawn : added.Drawn) :
    (box.cover added).Kept := by
  obtain ⟨left, top, some, width, height⟩ := kept
  obtain ⟨addedLeft, addedTop, wide, tall, addedWidth, addedHeight, right, bottom⟩ := drawn
  have farEdge : int32 (added.x + added.w) = added.x + added.w := int32_fits (by omega) right
  have below : ∀ (grows : Prop) [Decidable grows] (extent old : Int), old < 2147483648 →
      (if grows then int32 extent else old) < 2147483648 := by
    intro grows _ extent old fits
    split
    · exact int32_lt extent
    · exact fits
  refine ⟨?_, ?_, ?_, below _ _ _ width, below _ _ _ height⟩
  · simp only [Box.cover]
    split <;> omega
  · simp only [Box.cover]
    split <;> omega
  · simp only [Box.cover, farEdge]
    generalize edge : (if added.x < box.x then added.x else box.x) = x
    have start : x ≤ added.x ∧ -2147483648 ≤ x := by
      rw [← edge]
      split <;> omega
    split
    · rw [int32, Int.bmod_def]
      omega
    · exact some

theorem covers_kept (kept : first.Kept) (drawn : ∀ box ∈ rest, box.Drawn) :
    (rest.foldl Box.cover first).Kept := by
  induction rest generalizing first with
  | nil => exact kept
  | cons added rest ih =>
    obtain ⟨drawnFirst, drawnRest⟩ := forall_mem_cons.mp drawn
    exact ih (cover_kept kept drawnFirst) drawnRest

/-- One direction of `Box.cover`: the start and the width after an interval from `low` to
`high`. -/
def coverAxis (start width low high : Int) : Extent Int :=
  let moved := if low < start then low else start
  ⟨moved, if int32 high > int32 (moved + width) then int32 (int32 high - moved) else width⟩

theorem cover_eq (box added : Box) :
    box.cover added =
      let across := coverAxis box.x box.w added.x (added.x + added.w)
      let down := coverAxis box.y box.h added.y (added.y + added.h)
      ⟨across.start, down.start, across.width, down.width⟩ := rfl

section Axis

variable {low high : Box → Int} {first : Box} {rest : List Box}

/-- In one direction, the edges of rectangles and what lies between them are values of `int32_t`. -/
structure AxisFits (low high : Box → Int) (boxes : List Box) : Prop where
  near : ∀ box ∈ boxes, -2147483648 ≤ low box
  some : ∀ box ∈ boxes, low box < high box
  far : ∀ box ∈ boxes, high box < 2147483648
  spread : ∀ near ∈ boxes, ∀ far ∈ boxes, high far - low near < 2147483648

theorem AxisFits.extent (fits : AxisFits low high (first :: rest)) :
    -2147483648 ≤ (extentOf low high first rest).start ∧ 0 < (extentOf low high first rest).width ∧
      (extentOf low high first rest).start + (extentOf low high first rest).width < 2147483648 := by
  obtain ⟨below, nearest, inList, least⟩ := isLeast_image_iff.mp
    (extentOf_start rest : IsLeast _ (extentOf low high first rest).start)
  obtain ⟨above, before, last, isPrefix, near, member, width⟩ :=
    (extentOf_width rest : _ ∧ ∃ before last, _ ∧ ∃ near ∈ _,
      (extentOf low high first rest).width = _)
  have lastIn : last ∈ first :: rest := isPrefix.subset (by simp)
  have wide := above [] first (prefix_append [first] rest) first (mem_singleton_self _)
  have some := fits.some first mem_cons_self
  refine ⟨?_, by omega, ?_⟩
  · rw [← least]
    exact fits.near nearest inList
  · rw [width]
    exact (add_sub_le_end (below near (isPrefix.subset member))).trans_lt (fits.far last lastIn)

theorem AxisFits.grow {added : Box} (fits : AxisFits low high (first :: (rest ++ [added]))) :
    coverAxis (extentOf low high first rest).start (extentOf low high first rest).width (low added)
      (high added) = extentOf low high first (rest ++ [added]) := by
  have addedIn : added ∈ first :: (rest ++ [added]) := by simp
  have within : ∀ box ∈ first :: rest, box ∈ first :: (rest ++ [added]) := by
    intro box member
    simp only [mem_cons, mem_append] at member ⊢
    tauto
  have fitsRest : AxisFits low high (first :: rest) :=
    ⟨fun box member => fits.near box (within box member),
      fun box member => fits.some box (within box member),
      fun box member => fits.far box (within box member),
      fun near nearIn far farIn => fits.spread near (within near nearIn) far (within far farIn)⟩
  obtain ⟨left, wide, right⟩ := fitsRest.extent
  obtain ⟨newLeft, _, _⟩ := fits.extent
  obtain ⟨_, nearest, inList, least⟩ := isLeast_image_iff.mp
    (extentOf_start (rest ++ [added]) : IsLeast _ (extentOf low high first _).start)
  have spread := fits.spread nearest inList added addedIn
  have near := fits.near added addedIn
  have some := fits.some added addedIn
  have far := fits.far added addedIn
  rw [least] at spread
  have start : (if low added < (extentOf low high first rest).start then low added
      else (extentOf low high first rest).start) =
        (extentOf low high first (rest ++ [added])).start := by
    rw [extentOf_append]
    simp only [Extent.grow]
    split <;> omega
  have width : (extentOf low high first (rest ++ [added])).width =
      max (extentOf low high first rest).width
        (high added - (extentOf low high first (rest ++ [added])).start) := by
    rw [extentOf_append]
    rfl
  rw [coverAxis]
  simp only [start]
  ext
  · rfl
  · simp only
    rw [int32_fits (by omega) far, int32_fits (by omega) (by omega), int32_fits (by omega) spread,
      width]
    split <;> omega

end Axis

theorem axisFits_x (drawn : ∀ box ∈ boxes, box.Drawn)
    (fits : SpreadFits boxes) : AxisFits Box.x (fun box => box.x + box.w) boxes :=
  ⟨fun box member => (drawn box member).left,
    fun box member => Int.lt_add_of_pos_right _ (drawn box member).wide,
    fun box member => (drawn box member).right,
    fun near nearIn far farIn => (fits near nearIn far farIn).1⟩

theorem axisFits_y (drawn : ∀ box ∈ boxes, box.Drawn)
    (fits : SpreadFits boxes) : AxisFits Box.y (fun box => box.y + box.h) boxes :=
  ⟨fun box member => (drawn box member).top,
    fun box member => Int.lt_add_of_pos_right _ (drawn box member).tall,
    fun box member => (drawn box member).bottom,
    fun near nearIn far farIn => (fits near nearIn far farIn).2⟩

/-- The extents of a sequence of rectangles in both directions, as a box. -/
def extentBox (first : Box) (rest : List Box) : Box :=
  let across := extentOf Box.x (fun box => box.x + box.w) first rest
  let down := extentOf Box.y (fun box => box.y + box.h) first rest
  ⟨across.start, down.start, across.width, down.width⟩

theorem covers_eq (drawn : ∀ box ∈ first :: rest, box.Drawn)
    (fits : SpreadFits (first :: rest)) : rest.foldl Box.cover first = extentBox first rest := by
  induction rest using List.reverseRecOn with
  | nil => simp [extentBox, extentOf]
  | append_singleton rest added ih =>
    have within : ∀ box ∈ first :: rest, box ∈ first :: (rest ++ [added]) := by
      intro box member
      simp only [mem_cons, mem_append] at member ⊢
      tauto
    have soFar := ih (fun box member => drawn box (within box member))
      (fun near nearIn far farIn => fits near (within near nearIn) far (within far farIn))
    rw [foldl_append, foldl_cons, foldl_nil, soFar, cover_eq]
    simp only [extentBox]
    rw [(axisFits_x drawn fits).grow, (axisFits_y drawn fits).grow]

theorem covers_tight_iff (drawn : ∀ box ∈ first :: rest, box.Drawn) :
    (rest.foldl Box.cover first).Tight (first :: rest) ↔ GrowsOutward (first :: rest) := by
  have edges : SpreadFits (first :: rest) →
      ((rest.foldl Box.cover first).Tight (first :: rest) ↔
        EndsAfterStart Box.x (fun box => box.x + box.w) (first :: rest) ∧
          EndsAfterStart Box.y (fun box => box.y + box.h) (first :: rest)) := by
    intro fits
    rw [covers_eq drawn fits,
      tight_iff (cons_ne_nil _ _) drawn, ← extentOf_end_iff, ← extentOf_end_iff]
    exact and_congr (and_iff_right (extentOf_start rest)) (and_iff_right (extentOf_start rest))
  constructor
  · intro tight
    have kept := covers_kept (drawn first mem_cons_self).kept
      (fun box member => drawn box (mem_cons_of_mem _ member))
    have bounds := (bounds_iff drawn).mp tight.1
    have width := kept.width
    have height := kept.height
    have fits : SpreadFits (first :: rest) := by
      intro near nearIn far farIn
      have nearEdges := bounds near nearIn
      have farEdges := bounds far farIn
      omega
    exact ⟨fits, (edges fits).mp tight⟩
  · rintro ⟨fits, outward⟩
    exact (edges fits).mpr outward

theorem frame_covers {c : Compositor} (dirty : c.frameDirty = true)
    (drawn : ∀ box ∈ boxes, box.Drawn) :
    (boxes.foldl cpFrameAccum c).frameDmg = boxes.foldl Box.cover c.frameDmg := by
  induction boxes generalizing c with
  | nil => rfl
  | cons added boxes ih =>
    obtain ⟨drawnFirst, drawnRest⟩ := forall_mem_cons.mp drawn
    have wide := drawnFirst.wide
    have tall := drawnFirst.tall
    have accumulated : cpFrameAccum c added = { c with frameDmg := c.frameDmg.cover added } := by
      rw [cpFrameAccum, if_neg (by omega), if_neg (by rw [dirty]; decide)]
    rw [foldl_cons, foldl_cons, accumulated]
    exact ih dirty drawnRest

theorem surface_covers {s : SurfaceState} (kept : s.pdmg.Kept) (drawn : ∀ box ∈ boxes, box.Drawn) :
    (boxes.foldl SurfaceState.damaged s).pdmg = boxes.foldl Box.cover s.pdmg := by
  induction boxes generalizing s with
  | nil => rfl
  | cons added boxes ih =>
    obtain ⟨drawnFirst, drawnRest⟩ := forall_mem_cons.mp drawn
    have damaged : s.damaged added = { s with pdmg := s.pdmg.cover added } := by
      rw [SurfaceState.damaged, if_pos ⟨drawnFirst.wide, drawnFirst.tall⟩, if_neg kept.some]
    rw [foldl_cons, foldl_cons, damaged]
    exact ih (cover_kept kept drawnFirst) drawnRest

theorem region_covers {rg : RegionState} (bounded : rg.infinite = false) (boxes : List Box) :
    (boxes.foldl RegionState.add rg).box = boxes.foldl Box.cover rg.box := by
  induction boxes generalizing rg with
  | nil => rfl
  | cons added boxes ih =>
    have stored : rg.add added = { rg with box := rg.box.cover added } := by
      rw [RegionState.add, if_neg (by rw [bounded]; decide)]
    rw [foldl_cons, foldl_cons, stored]
    exact ih bounded

theorem reset_covers (drawn : ∀ box ∈ first :: rest, box.Drawn) :
    (∀ c : Compositor, c.frameDirty = false →
        ((first :: rest).foldl cpFrameAccum c).frameDmg = rest.foldl Box.cover first) ∧
      (∀ s : SurfaceState, s.pdmg.w = 0 →
        ((first :: rest).foldl SurfaceState.damaged s).pdmg = rest.foldl Box.cover first) ∧
      ∀ rg : RegionState, rg.infinite = true →
        ((first :: rest).foldl RegionState.add rg).box = rest.foldl Box.cover first := by
  obtain ⟨drawnFirst, drawnRest⟩ := forall_mem_cons.mp drawn
  have wide := drawnFirst.wide
  have tall := drawnFirst.tall
  refine ⟨fun c clean => ?_, fun s none => ?_, fun rg infinite => ?_⟩
  · rw [foldl_cons, cpFrameAccum, if_neg (by omega), if_pos clean]
    exact frame_covers rfl drawnRest
  · rw [foldl_cons, SurfaceState.damaged, if_pos ⟨wide, tall⟩, if_pos none]
    exact surface_covers drawnFirst.kept drawnRest
  · rw [foldl_cons, RegionState.add, if_pos infinite]
    exact region_covers rfl rest

/-- A box of damage is the smallest around its rectangles exactly when these grow outward. -/
theorem damage_tight_iff {boxes : List Box} (nonempty : boxes ≠ [])
    (drawn : ∀ box ∈ boxes, box.Drawn) :
    (∀ c : Compositor, c.frameDirty = false →
        ((boxes.foldl cpFrameAccum c).frameDmg.Tight boxes ↔ GrowsOutward boxes)) ∧
      (∀ s : SurfaceState, s.pdmg.w = 0 →
        ((boxes.foldl SurfaceState.damaged s).pdmg.Tight boxes ↔ GrowsOutward boxes)) ∧
      ∀ rg : RegionState, rg.infinite = true →
        ((boxes.foldl RegionState.add rg).box.Tight boxes ↔ GrowsOutward boxes) := by
  obtain ⟨first, rest, rfl⟩ := exists_cons_of_ne_nil nonempty
  obtain ⟨frame, surface, region⟩ := reset_covers drawn
  have tight := covers_tight_iff drawn
  refine ⟨fun c clean => ?_, fun s none => ?_, fun rg infinite => ?_⟩
  · rw [frame c clean]
    exact tight
  · rw [surface s none]
    exact tight
  · rw [region rg infinite]
    exact tight

/-- Two boxes that touch at a corner, each drawn outward from the last. -/
theorem damage_tight_outward :
    ([(⟨0, 0, 5, 5⟩ : Box), ⟨5, 5, 10, 10⟩].foldl RegionState.add ⟨7, 1, ⟨0, 0, 0, 0⟩,
      true⟩).box.Tight
      [⟨0, 0, 5, 5⟩, ⟨5, 5, 10, 10⟩] := by
  have drawn : ∀ box ∈ [(⟨0, 0, 5, 5⟩ : Box), ⟨5, 5, 10, 10⟩], box.Drawn := by
    intro box member
    simp only [mem_cons, not_mem_nil, or_false] at member
    rcases member with rfl | rfl <;> constructor <;> decide
  have spread : SpreadFits [⟨0, 0, 5, 5⟩, ⟨5, 5, 10, 10⟩] := by
    unfold SpreadFits
    decide
  refine ((damage_tight_iff (cons_ne_nil _ _) drawn).2.2 _ rfl).mpr ⟨spread, ?_, ?_⟩
  · exact ⟨[⟨0, 0, 5, 5⟩], ⟨5, 5, 10, 10⟩, prefix_refl _, by decide, ⟨0, 0, 5, 5⟩, by decide,
      by decide⟩
  · exact ⟨[⟨0, 0, 5, 5⟩], ⟨5, 5, 10, 10⟩, prefix_refl _, by decide, ⟨0, 0, 5, 5⟩, by decide,
      by decide⟩

/-- The second rectangle lies to the left of the first: the box ends at 10 instead of 20. -/
theorem damage_lost_left :
    (∀ c : Compositor, c.frameDirty = false →
        ¬ ([(⟨10, 0, 10, 10⟩ : Box), ⟨0, 0, 5, 10⟩].foldl cpFrameAccum c).frameDmg.Bounds
          [⟨10, 0, 10, 10⟩, ⟨0, 0, 5, 10⟩]) ∧
      (∀ s : SurfaceState, s.pdmg.w = 0 →
        ¬ ([(⟨10, 0, 10, 10⟩ : Box), ⟨0, 0, 5, 10⟩].foldl SurfaceState.damaged s).pdmg.Bounds
          [⟨10, 0, 10, 10⟩, ⟨0, 0, 5, 10⟩]) ∧
      ∀ rg : RegionState, rg.infinite = true →
        ¬ ([(⟨10, 0, 10, 10⟩ : Box), ⟨0, 0, 5, 10⟩].foldl RegionState.add rg).box.Bounds
          [⟨10, 0, 10, 10⟩, ⟨0, 0, 5, 10⟩] := by
  have drawn : ∀ box ∈ [(⟨10, 0, 10, 10⟩ : Box), ⟨0, 0, 5, 10⟩], box.Drawn := by
    intro box member
    simp only [mem_cons, not_mem_nil, or_false] at member
    rcases member with rfl | rfl <;> constructor <;> decide
  have grown : [(⟨0, 0, 5, 10⟩ : Box)].foldl Box.cover ⟨10, 0, 10, 10⟩ = ⟨0, 0, 10, 10⟩ := by
    decide
  have short : ¬ (⟨0, 0, 10, 10⟩ : Box).Bounds [⟨10, 0, 10, 10⟩, ⟨0, 0, 5, 10⟩] := by
    intro bounds
    have edges := (bounds_iff drawn).mp bounds _ mem_cons_self
    revert edges
    decide
  obtain ⟨frame, surface, region⟩ := reset_covers drawn
  rw [grown] at frame surface region
  refine ⟨fun c clean => ?_, fun s none => ?_, fun rg infinite => ?_⟩
  · rw [frame c clean]
    exact short
  · rw [surface s none]
    exact short
  · rw [region rg infinite]
    exact short

end M4KK1.Copland
