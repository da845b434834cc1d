import M4KK1.Copland.Damage
import M4KK1.Copland.CompositorRuns

/-!
# Holes in a region

Only a hole that covers a region in one direction cuts it; at the near side the width stays.
-/

namespace M4KK1.Copland

/-- What is left of a box lies in it, and all of it outside the hole is left. -/
def Box.SoundCut (box hole cut : Box) : Prop :=
  (∀ px py, cut.Spans px py → box.Spans px py) ∧
    ∀ px py, box.Spans px py → ¬ hole.Spans px py → cut.Spans px py

/-- The four members are values of `int32_t`, and the extents are not negative. -/
structure Box.Extents (box : Box) : Prop where
  left : -2147483648 ≤ box.x
  top : -2147483648 ≤ box.y
  right : box.x < 2147483648
  bottom : box.y < 2147483648
  wide : 0 ≤ box.w
  tall : 0 ≤ box.h
  width : box.w < 2147483648
  height : box.h < 2147483648

/-- The far edges of a rectangle are values of `int32_t`. -/
structure Box.EdgesFit (box : Box) : Prop where
  left : -2147483648 ≤ box.x + box.w
  right : box.x + box.w < 2147483648
  top : -2147483648 ≤ box.y + box.h
  bottom : box.y + box.h < 2147483648

/-- In one direction: a hole from before the start ends there, one to the end begins no later, or
nothing is there. -/
def CutsSoundly (start width holeStart holeEnd across : Int) (covers : Prop) : Prop :=
  if holeStart ≤ start then holeEnd = start ∨ width = 0 ∨ across = 0
  else if int32 (start + width) ≤ holeEnd then
    across = 0 ∨ width = 0 ∧ 2147483648 ≤ holeStart - start ∨
      holeStart ≤ start + width ∧ (holeStart = start + width ∨ start + width ≤ holeEnd ∧ covers)
  else True

def Box.HoleFits (box hole : Box) : Prop :=
  if hole.y ≤ box.y ∧ hole.y + hole.h ≥ int32 (box.y + box.h) then
    CutsSoundly box.x box.w hole.x (hole.x + hole.w) box.h (box.y + box.h ≤ hole.y + hole.h)
  else if hole.x ≤ box.x ∧ hole.x + hole.w ≥ int32 (box.x + box.w) then
    CutsSoundly box.y box.h hole.y (hole.y + hole.h) box.w (box.x + box.w ≤ hole.x + hole.w)
  else True

theorem soundCut_self (box hole : Box) : box.SoundCut hole box :=
  ⟨fun _ _ inside => inside, fun _ _ inside _ => inside⟩

def Box.swap (box : Box) : Box := ⟨box.y, box.x, box.h, box.w⟩

variable {box hole : Box}

theorem swap_spans {px py : Int} : box.swap.Spans px py ↔ box.Spans py px :=
  And.comm

theorem swap_soundCut {cut : Box} : box.swap.SoundCut hole.swap cut.swap ↔
    box.SoundCut hole cut := by
  simp only [Box.SoundCut, swap_spans]
  exact and_congr forall_comm forall_comm

theorem moved_sound_iff (extents : box.Extents) (edge : Int) :
    box.SoundCut hole { box with x := edge } ↔ edge = box.x ∨ box.w = 0 ∨ box.h = 0 := by
  have wide := extents.wide
  have tall := extents.tall
  simp only [Box.SoundCut, Box.Spans]
  constructor
  · rintro ⟨within, _⟩
    by_contra moved
    have first := within edge box.y
    have last := within (edge + box.w - 1) box.y
    omega
  · intro still
    constructor <;> intro px py <;> omega

theorem narrowed_sound_iff (extents : box.Extents)
    (fits : -2147483648 ≤ hole.x ∧ hole.x < 2147483648) (inside : box.x < hole.x)
    (covers : hole.y ≤ box.y) :
    box.SoundCut hole { box with w := int32 (hole.x - box.x) } ↔
      box.h = 0 ∨ box.w = 0 ∧ 2147483648 ≤ hole.x - box.x ∨
        hole.x ≤ box.x + box.w ∧ (hole.x = box.x + box.w ∨
          box.x + box.w ≤ hole.x + hole.w ∧ box.y + box.h ≤ hole.y + hole.h) := by
  obtain ⟨left, top, right, bottom, wide, tall, width, height⟩ := extents
  have wrapped : int32 (hole.x - box.x) =
      if hole.x - box.x < 2147483648 then hole.x - box.x else hole.x - box.x - 4294967296 := by
    rw [int32, Int.bmod_def]
    omega
  simp only [Box.SoundCut, Box.Spans, wrapped]
  constructor
  · rintro ⟨within, remains⟩
    have last := within (hole.x - 1) box.y
    have corner := remains (box.x + box.w - 1) (box.y + box.h - 1)
    have start := remains box.x box.y
    have := within box.x box.y
    split at * <;> omega
  · intro sound
    constructor <;> intro px py <;> split <;> omega

/-- What the code does along the first direction. -/
def Box.cutAcross (box hole : Box) : Box :=
  if hole.x ≤ box.x then { box with x := hole.x + hole.w }
  else if hole.x + hole.w ≥ int32 (box.x + box.w) then
    { box with w := int32 (hole.x - box.x) }
  else box

theorem cutAcross_sound_iff (extents : box.Extents)
    (fits : -2147483648 ≤ hole.x ∧ hole.x < 2147483648) (covers : hole.y ≤ box.y) :
    box.SoundCut hole (box.cutAcross hole) ↔ CutsSoundly box.x box.w hole.x (hole.x + hole.w) box.h
        (box.y + box.h ≤ hole.y + hole.h) := by
  unfold Box.cutAcross CutsSoundly
  split
  · exact moved_sound_iff extents _
  · split
    · exact narrowed_sound_iff extents fits (by omega) covers
    · exact iff_of_true (soundCut_self box hole) trivial

theorem Box.Extents.swap {box : Box} (extents : box.Extents) : box.swap.Extents :=
  ⟨extents.top, extents.left, extents.bottom, extents.right, extents.tall, extents.wide,
    extents.height, extents.width⟩

theorem swap_cutAcross :
    (box.swap.cutAcross hole.swap).swap =
      if hole.y ≤ box.y then { box with y := hole.y + hole.h }
      else if hole.y + hole.h ≥ int32 (box.y + box.h) then
        { box with h := int32 (hole.y - box.y) }
      else box := by
  rw [Box.cutAcross, apply_ite Box.swap, apply_ite Box.swap]
  rfl

theorem cut_eq (edges : hole.EdgesFit) :
    box.cut hole =
      if hole.y ≤ box.y ∧ hole.y + hole.h ≥ int32 (box.y + box.h) then box.cutAcross hole
      else if hole.x ≤ box.x ∧ hole.x + hole.w ≥ int32 (box.x + box.w) then
        (box.swap.cutAcross hole.swap).swap
      else box := by
  simp only [Box.cut, int32_fits edges.left edges.right, int32_fits edges.top edges.bottom]
  split
  · rfl
  · split
    · exact swap_cutAcross.symm
    · rfl

theorem getI32_bounds (r : Words) : -2147483648 ≤ r.getI32.1 ∧ r.getI32.1 < 2147483648 := by
  have word : r.getU32.1 < 4294967296 := by
    cases r with
    | nil => decide
    | cons word rest => exact word.toNat_lt
  simp only [Words.getI32, toInt32]
  split <;> omega

theorem cut_sound_iff (extents : box.Extents) (edges : hole.EdgesFit)
    (across : -2147483648 ≤ hole.x ∧ hole.x < 2147483648)
    (down : -2147483648 ≤ hole.y ∧ hole.y < 2147483648) :
    box.SoundCut hole (box.cut hole) ↔ box.HoleFits hole := by
  rw [cut_eq edges, Box.HoleFits]
  split
  next covers => exact cutAcross_sound_iff extents across covers.1
  next =>
    split
    next covers =>
      rw [← swap_soundCut]
      exact cutAcross_sound_iff extents.swap down covers.1
    next => exact iff_of_true (soundCut_self box hole) trivial

/-- `CP_REGION_SUBTRACT` leaves all of the region outside the hole exactly when the hole fits. -/
theorem region_subtract_sound_iff {c : Compositor} {i : Fin cpMaxClients} {obj : Nat} {r : Words}
    {k : Fin cpMaxSurfaces} (found : cpFindRegion c obj = some k)
    (bounded : (c.regions k).infinite = false) (extents : (c.regions k).box.Extents)
    (edges : r.getBox.EdgesFit) :
    (c.regions k).box.SoundCut r.getBox ((cpHandleRegion c i obj 2 r).1.regions k).box ↔
      (c.regions k).box.HoleFits r.getBox := by
  have after : ((cpHandleRegion c i obj 2 r).1.regions k).box =
      (c.regions k).box.cut r.getBox := by
    simp [cpHandleRegion, found, RegionReq.ofOpcode, Compositor.setRegion, RegionState.subtract,
      bounded]
  rw [after]
  exact cut_sound_iff extents edges (getI32_bounds r) (getI32_bounds _)

def squareRegion : Compositor :=
  serve twoClients
    [(0, ⟨1, 1, [2]⟩), (0, ⟨2, 0, [4, 3]⟩), (0, ⟨3, 1, [7]⟩), (0, ⟨7, 1, [0, 0, 100, 100]⟩)]

theorem squareRegion_found : cpFindRegion squareRegion 7 = some 0 := by decide +kernel

theorem squareRegion_record : squareRegion.regions 0 = ⟨7, 1, ⟨0, 0, 100, 100⟩, false⟩ := by
  decide +kernel

theorem squareRegion_extents : (squareRegion.regions 0).box.Extents := by
  rw [squareRegion_record]
  constructor <;> decide

/-- The right half of a square is cut off. -/
theorem region_subtract_sound_right :
    (squareRegion.regions 0).box.SoundCut ⟨50, 0, 50, 100⟩
      ((cpHandleRegion squareRegion 0 7 2 [50, 0, 50, 100]).1.regions 0).box := by
  refine (region_subtract_sound_iff squareRegion_found (by rw [squareRegion_record])
    squareRegion_extents (r := [50, 0, 50, 100]) ?_).mpr ?_
  · constructor <;> decide
  · rw [squareRegion_record]
    unfold Box.HoleFits CutsSoundly
    decide

/-- The left half is cut off: the region moves, and ends at 150. -/
theorem region_grows_when_cut : Reachable squareRegion ∧ (squareRegion.clients 0).active = true ∧
    ¬ (squareRegion.regions 0).box.SoundCut ⟨0, 0, 50, 100⟩
      ((cpHandleRegion squareRegion 0 7 2 [0, 0, 50, 100]).1.regions 0).box := by
  refine ⟨reachable_serve reachable_twoClients (by decide +kernel), by decide +kernel, ?_⟩
  have moved : ((cpHandleRegion squareRegion 0 7 2 [0, 0, 50, 100]).1.regions 0).box =
      ⟨50, 0, 100, 100⟩ := by decide +kernel
  rw [moved, squareRegion_record]
  intro sound
  simp only [Box.SoundCut, Box.Spans] at sound
  have corner := sound.1 149 99
  omega

end M4KK1.Copland
