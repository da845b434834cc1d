import M4KK1.Copland.Composite
import M4KK1.Copland.CompositorRuns

/-!
# Where the incremental composite agrees with the full one

Both show the topmost surface at a pixel; the full path also its border, and across overflowing
edges.
-/

namespace M4KK1.Copland

open M4KK1.Layers

/-- The pixel is on the screen. -/
def Screen.Has (screen : Screen) (p : Pixel) : Prop :=
  0 ≤ p.1 ∧ p.1 < screen.width ∧ 0 ≤ p.2 ∧ p.2 < screen.height

def InBox (x y w h : Int) (p : Pixel) : Prop := (x ≤ p.1 ∧ p.1 < x + w) ∧ y ≤ p.2 ∧ p.2 < y + h

instance (x y w h : Int) (p : Pixel) : Decidable (InBox x y w h p) :=
  inferInstanceAs (Decidable (_ ∧ _))

theorem inBox_column (x y h : Int) (p : Pixel) :
    InBox x y 1 h p ↔ x = p.1 ∧ y ≤ p.2 ∧ p.2 < y + h := by
  rw [InBox]
  exact and_congr_left fun _ => by omega

theorem inBox_row (x y w : Int) (p : Pixel) :
    InBox x y w 1 p ↔ (x ≤ p.1 ∧ p.1 < x + w) ∧ y = p.2 := by
  rw [InBox]
  exact and_congr_right fun _ => by omega

variable {screen : Screen} {p : Pixel}

theorem clipped_on (on : screen.Has p) (x y w h : Int) (color : Pixel → UInt32) :
    clipped screen x y w h color p = if InBox x y w h p then some (color p) else none := by
  rw [clipped]
  by_cases inBox : InBox x y w h p
  · rw [if_pos inBox, if_pos ⟨on, inBox⟩]
  · rw [if_neg inBox, if_neg fun both => inBox both.2]

theorem over_clipped (on : screen.Has p) (x y w h : Int) (color : Pixel → UInt32)
    (picture : Pixel → UInt32) :
    (Layer.over (clipped screen x y w h color) picture) p = if InBox x y w h p then color p
    else picture p := by
  rw [Layer.over, clipped_on on]
  split <;> rfl

theorem int32_edge {edge c : Int} (low : -2147483648 ≤ edge) (high : edge ≤ 4294967293)
    (onScreen : 0 ≤ c)
    (small : c < 2147483648) : int32 edge = c ↔ edge = c := by
  rw [int32, Int.bmod_def]
  omega

theorem int32_overflows {edge : Int} (large : 2147483648 ≤ edge) (high : edge ≤ 4294967294) :
    int32 edge < 0 := by
  rw [int32, Int.bmod_def]
  omega

variable (memory : Nat → UInt32)

namespace CoplandSurface

variable (s : CoplandSurface)

/-- The surface is drawn over the pixel. -/
def Covers (p : Pixel) : Prop :=
  s.inUse ≠ 0 ∧ s.Visible ∧ 0 < s.w.toInt ∧ 0 < s.h.toInt ∧
  InBox s.x.toInt s.y.toInt s.w.toInt s.h.toInt p

instance (p : Pixel) : Decidable (s.Covers p) := inferInstanceAs (Decidable (_ ∧ _))

/-- The right and the bottom edge are values of `int`. -/
def EdgesFit : Prop := s.x.toInt + s.w.toInt < 2147483648 ∧ s.y.toInt + s.h.toInt < 2147483648

instance : Decidable s.EdgesFit := inferInstanceAs (Decidable (_ ∧ _))

def borderColor (p : Pixel) : Option UInt32 :=
  if p.1 = s.x.toInt + s.w.toInt - 1 ∨ p.2 = s.y.toInt + s.h.toInt - 1 then some coplandColorDark
  else if p.1 = s.x.toInt ∨ p.2 = s.y.toInt then some coplandColorWhite
  else none

def stride : Int :=
  if s.bufferStride ≠ 0 ∧ s.bufferStride ≠ s.w.toUInt32 ∧
      s.w.toInt ≤ toInt32 s.bufferStride.toNat then
    toInt32 s.bufferStride.toNat
  else s.w.toInt

/-- The colour of the content of the surface at a pixel of it: a word of its buffer or its own. -/
def content (p : Pixel) : UInt32 :=
  if s.bufferPtr ≠ 0 then
    memory
      ((s.bufferPtr.toNat + 4 * ((p.2 - s.y.toInt) * s.stride + (p.1 - s.x.toInt)).toNat) %
      4294967296)
  else s.color

variable {s}

theorem blit_eq (screen : Screen) (buffered : s.bufferPtr ≠ 0) : s.blit memory screen =
      clipped screen s.x.toInt s.y.toInt s.w.toInt s.h.toInt (s.content memory) := by
  have address : s.bufferPtr.toNat ≠ 0 := fun isZero => buffered (UInt32.toNat_inj.mp isZero)
  have word (p : Pixel) : s.content memory p =
      memory
        ((s.bufferPtr.toNat + 4 * ((p.2 - s.y.toInt) * s.stride + (p.1 - s.x.toInt)).toNat) %
        4294967296) :=
    if_pos buffered
  rw [blit]
  split
  · next other =>
    rw [m4kGfxBlitStride, if_neg address]
    congr 1
    funext p
    rw [word, stride]
    split
    · next short => rw [if_neg fun all => absurd short (Int.not_lt.mpr all.2.2)]
    · next wide => rw [if_pos ⟨other.1, other.2, Int.not_lt.mp wide⟩]
  · next same =>
    rw [m4kGfxBlit, m4kGfxBlitStride, if_neg address, if_neg (Int.lt_irrefl _)]
    congr 1
    funext p
    rw [word, stride, if_neg fun all => same ⟨all.1, all.2.1⟩]

theorem content_over {screen : Screen} {p : Pixel} (on : screen.Has p)
    (picture : Pixel → UInt32) :
    (Layer.over
        (if s.bufferPtr ≠ 0 then s.blit memory screen
        else guiDrawRect screen s.x.toInt s.y.toInt s.w.toInt s.h.toInt s.color) picture) p =
      if InBox s.x.toInt s.y.toInt s.w.toInt s.h.toInt p then s.content memory p
        else picture p := by
  split
  · next buffered => rw [blit_eq memory screen buffered, over_clipped on]
  · next flat =>
    have own : s.content memory p = s.color := if_neg flat
    rw [guiDrawRect, over_clipped on, own]

theorem render_at {screen : Screen} {p : Pixel} (on : screen.Has p)
    (picture : Pixel → UInt32) :
    paint (if s.inUse ≠ 0 then coplandRenderSurface memory screen s else []) picture p =
      if s.Covers p then (s.borderColor p).getD (s.content memory p) else picture p := by
  have width := screen.width_lt
  have height := screen.height_lt
  have xLow := s.x.le_toInt
  have yLow := s.y.le_toInt
  have xHigh := s.x.toInt_lt
  have yHigh := s.y.toInt_lt
  have wHigh := s.w.toInt_lt
  have hHigh := s.h.toInt_lt
  obtain ⟨left, right, top, bottom⟩ := on
  by_cases drawn : s.inUse ≠ 0 ∧ s.Visible ∧ 0 < s.w.toInt ∧ 0 < s.h.toInt
  · obtain ⟨inUse, visible, wide, high⟩ := drawn
    have positive : ¬(s.w.toInt ≤ 0 ∨ s.h.toInt ≤ 0) := by omega
    have rightEdge : int32 (s.x.toInt + s.w.toInt - 1) = p.1 ↔ s.x.toInt + s.w.toInt - 1 = p.1 :=
      int32_edge (by omega) (by omega) left (by omega)
    have bottomEdge : int32 (s.y.toInt + s.h.toInt - 1) = p.2 ↔ s.y.toInt + s.h.toInt - 1 = p.2 :=
      int32_edge (by omega) (by omega) top (by omega)
    have on : screen.Has p := ⟨left, right, top, bottom⟩
    rw [if_pos inUse, coplandRenderSurface, if_neg (not_not.mpr visible), if_neg positive]
    simp only [paint_cons, paint_nil]
    rw [guiDrawRect, over_clipped on, guiDrawRect, over_clipped on, guiDrawRect, over_clipped on,
      guiDrawRect,
      over_clipped on, content_over memory on]
    simp only [inBox_column, inBox_row, rightEdge, bottomEdge]
    by_cases inside : InBox s.x.toInt s.y.toInt s.w.toInt s.h.toInt p
    · have covers : s.Covers p := ⟨inUse, visible, wide, high, inside⟩
      have columns (x : Int) : x = p.1 ∧ s.y.toInt ≤ p.2 ∧ p.2 < s.y.toInt + s.h.toInt ↔ p.1 = x :=
        (and_iff_left inside.2).trans eq_comm
      have rows (y : Int) : (s.x.toInt ≤ p.1 ∧ p.1 < s.x.toInt + s.w.toInt) ∧ y = p.2 ↔ p.2 = y :=
        (and_iff_right inside.1).trans eq_comm
      rw [if_pos covers, if_pos inside, borderColor, ite_or, ite_or]
      simp only [columns, rows, apply_ite (fun color => Option.getD color (s.content memory p)),
        Option.getD_some,
        Option.getD_none]
    · have uncovered : ¬s.Covers p := fun covers => inside covers.2.2.2.2
      rw [InBox] at inside
      rw [if_neg (by omega), if_neg (by omega), if_neg (by omega), if_neg (by omega),
        if_neg (by rw [InBox]; omega),
        if_neg uncovered]
  · have uncovered : ¬s.Covers p := fun covers =>
      drawn ⟨covers.1, covers.2.1, covers.2.2.1, covers.2.2.2.1⟩
    have nothing : (if s.inUse ≠ 0 then coplandRenderSurface memory screen s else []) = [] := by
      rw [coplandRenderSurface]
      split
      · next inUse =>
        split
        · rfl
        · next visible =>
          rw [if_pos]
          by_contra positive
          rw [not_or] at positive
          exact drawn ⟨inUse, not_not.mp visible, Int.not_le.mp positive.1,
            Int.not_le.mp positive.2⟩
      · rfl
    rw [nothing, paint_nil, if_neg uncovered]

end CoplandSurface

namespace MkrnRect

/-- The rectangle lies on the screen. -/
structure Inside (r : MkrnRect) (screen : Screen) : Prop where
  left : 0 ≤ r.left
  top : 0 ≤ r.top
  right : r.right ≤ screen.width
  bottom : r.bottom ≤ screen.height

/-- The pixel is in the region, whose right and bottom edges are outside. -/
def Has (r : MkrnRect) (p : Pixel) : Prop :=
  (r.left ≤ p.1 ∧ p.1 < r.right) ∧ r.top ≤ p.2 ∧ p.2 < r.bottom

theorem Inside.has {r : MkrnRect} {screen : Screen} (inside : r.Inside screen) {p : Pixel}
    (inRegion : r.Has p) :
    screen.Has p := by
  obtain ⟨left, top, right, bottom⟩ := inside
  obtain ⟨⟨fromLeft, toRight⟩, fromTop, toBottom⟩ := inRegion
  exact ⟨left.trans fromLeft, toRight.trans_le right, top.trans fromTop, toBottom.trans_le bottom⟩

theorem intersect_has (dst clip : MkrnRect) (p : Pixel) :
    (dst.intersect clip).Has p ↔ dst.Has p ∧ clip.Has p := by
  simp only [Has, intersect]
  omega

theorem not_has_of_isEmpty {r : MkrnRect} (empty : r.IsEmpty) (p : Pixel) : ¬r.Has p := by
  rintro ⟨⟨fromLeft, toRight⟩, fromTop, toBottom⟩
  rcases empty with past | past <;> omega

theorem intersect_isEmpty {dst clip : MkrnRect}
    (outside : dst.right < clip.left ∨ dst.bottom < clip.top) :
    (dst.intersect clip).IsEmpty := by
  simp only [IsEmpty, intersect]
  omega

end MkrnRect

namespace CoplandSurface

variable {s : CoplandSurface}

theorem region_at {screen : Screen} {r : MkrnRect} {p : Pixel} (inside : r.Inside screen)
    (inRegion : r.Has p) (picture : Pixel → UInt32) :
    paint (regionSurface memory screen r s) picture p =
      if s.Covers p ∧ s.EdgesFit then s.content memory p else picture p := by
  have on := inside.has inRegion
  have xLow := s.x.le_toInt
  have yLow := s.y.le_toInt
  have xHigh := s.x.toInt_lt
  have yHigh := s.y.toInt_lt
  have wHigh := s.w.toInt_lt
  have hHigh := s.h.toInt_lt
  rw [regionSurface]
  split
  · next skipped =>
    rw [paint_nil, if_neg]
    rintro ⟨⟨inUse, visible, _⟩, _⟩
    exact skipped.elim inUse fun hidden => hidden visible
  · next live =>
    split
    · next flat =>
      rw [paint_nil, if_neg]
      rintro ⟨⟨_, _, wide, high, _⟩, _⟩
      omega
    · next solid =>
      rw [not_or, not_not] at live
      rw [not_or, Int.not_le, Int.not_le] at solid
      have covers : s.Covers p ↔ InBox s.x.toInt s.y.toInt s.w.toInt s.h.toInt p :=
        ⟨fun covers => covers.2.2.2.2, fun inBox => ⟨live.1, live.2, solid.1, solid.2, inBox⟩⟩
      by_cases fit : s.EdgesFit
      · have right : int32 (s.x.toInt + s.w.toInt) = s.x.toInt + s.w.toInt :=
          int32_fits (by omega) fit.1
        have bottom : int32 (s.y.toInt + s.h.toInt) = s.y.toInt + s.h.toInt :=
          int32_fits (by omega) fit.2
        rw [right, bottom]
        have cut := MkrnRect.intersect_has
          ⟨s.x.toInt, s.y.toInt, s.x.toInt + s.w.toInt, s.y.toInt + s.h.toInt⟩ r p
        generalize MkrnRect.intersect _ r = isect at cut ⊢
        have sameBox : isect.Has p ↔ InBox s.x.toInt s.y.toInt s.w.toInt s.h.toInt p :=
          cut.trans (and_iff_left inRegion)
        have shown : s.Covers p ∧ s.EdgesFit ↔ InBox s.x.toInt s.y.toInt s.w.toInt s.h.toInt p :=
          (and_iff_left fit).trans covers
        simp only [shown]
        split
        · next empty =>
            rw [paint_nil, if_neg fun inBox =>
            MkrnRect.not_has_of_isEmpty empty p (sameBox.mpr inBox)]
        · split
          · next buffered =>
              rw [paint_cons, paint_nil, blit_eq memory screen buffered, over_clipped on]
          · next flat =>
            have own : s.content memory p = s.color := if_neg flat
            have sides : InBox isect.left isect.top (isect.right - isect.left)
              (isect.bottom - isect.top) p ↔
                InBox s.x.toInt s.y.toInt s.w.toInt s.h.toInt p := by
              rw [← sameBox, InBox, MkrnRect.Has]
              omega
            rw [paint_cons, paint_nil, guiDrawRect, over_clipped on, own]
            simp only [sides]
      · have empty : (MkrnRect.intersect ⟨s.x.toInt, s.y.toInt, int32 (s.x.toInt + s.w.toInt),
            int32 (s.y.toInt + s.h.toInt)⟩ r).IsEmpty := by
          refine MkrnRect.intersect_isEmpty ?_
          by_cases overX : s.x.toInt + s.w.toInt < 2147483648
          · have overY : 2147483648 ≤ s.y.toInt + s.h.toInt :=
              Int.not_lt.mp fun small => fit ⟨overX, small⟩
            exact .inr ((int32_overflows overY (by omega)).trans_le inside.top)
          · exact .inl ((int32_overflows (Int.not_lt.mp overX) (by omega)).trans_le inside.left)
        rw [if_pos empty, paint_nil, if_neg fun both => fit both.2]

end CoplandSurface

variable (d : Desktop)

/-- What the full path paints under the surfaces. -/
def fullBackground (screen : Screen) (p : Pixel) : UInt32 :=
  gradientColor screen (guiColors d).1 (guiColors d).2 p.2

/-- What the incremental path has under the surfaces: no wallpaper is painted on a screen of one
row. -/
def regionBackground (screen : Screen) (picture : Pixel → UInt32) (p : Pixel) : UInt32 :=
  if screen.height ≤ 1 then picture p
    else gradientColor screen (regionColors d).1 (regionColors d).2 p.2

theorem fullBackground_at (on : screen.Has p)
    (picture : Pixel → UInt32) :
    paint (guiDrawWallpaper d screen) picture p = fullBackground d screen p := by
  have whole : InBox 0 0 screen.width screen.height p := by
    rw [InBox, Int.zero_add, Int.zero_add]
    exact ⟨⟨on.1, on.2.1⟩, on.2.2⟩
  rw [guiDrawWallpaper, paint_cons, paint_nil, m4kFillGradient, over_clipped on, if_pos whole,
    fullBackground]

theorem regionBackground_at {r : MkrnRect} (inside : r.Inside screen)
    (inRegion : r.Has p) (picture : Pixel → UInt32) :
    paint (coplandWallpaperRect d screen r.left r.top (r.right - r.left) (r.bottom - r.top)) picture
      p =
      regionBackground d screen picture p := by
  rw [coplandWallpaperRect, regionBackground]
  split
  · rfl
  · have within : InBox r.left r.top (r.right - r.left) (r.bottom - r.top) p := by
      rw [InBox]
      rw [MkrnRect.Has] at inRegion
      omega
    rw [paint_cons, paint_nil, m4kFillGradient, over_clipped (inside.has inRegion), if_pos within]

def topSurface (p : Pixel) : Option CoplandSurface := topmost (fun s => s.Covers p) d.slots

def topRegionSurface (p : Pixel) : Option CoplandSurface :=
  topmost (fun s => s.Covers p ∧ s.EdgesFit) d.slots

theorem full_at (on : screen.Has p) (picture : Pixel → UInt32) :
    paint (guiDrawWallpaper d screen ++
        d.slots.flatMap fun s => if s.inUse ≠ 0 then coplandRenderSurface d.memory screen s
          else []) picture p =
      ((topSurface d p).map fun s => (s.borderColor p).getD (s.content d.memory p)).getD
        (fullBackground d screen p) := by
  rw [paint_append, paint_stack (fun s => s.Covers p) _ _ p fun s =>
    CoplandSurface.render_at d.memory on,
    fullBackground_at d on, topSurface]

theorem region_full_at {r : MkrnRect} (inside : r.Inside screen)
    (inRegion : r.Has p) (picture : Pixel → UInt32) :
    paint (coplandWallpaperRect d screen r.left r.top (r.right - r.left) (r.bottom - r.top) ++
        d.slots.flatMap (regionSurface d.memory screen r)) picture p =
      ((topRegionSurface d p).map fun s => s.content d.memory p).getD
        (regionBackground d screen picture p) := by
  rw [paint_append, paint_stack (fun s => s.Covers p ∧ s.EdgesFit) _ _ p
    fun s => CoplandSurface.region_at d.memory inside inRegion,
    regionBackground_at d inside inRegion,
    topRegionSurface]

/-- The wallpapers have one colour; the topmost surface has no other border; far edges do not
overflow, or what is below looks alike. -/
def AgreesAt (screen : Screen) (picture : Pixel → UInt32) (p : Pixel) : Prop :=
  match topSurface d p with
  | none => regionBackground d screen picture p = fullBackground d screen p
  | some s =>
    if s.EdgesFit then ∀ color ∈ s.borderColor p, color = s.content d.memory p
    else
      ((topRegionSurface d p).map fun below => below.content d.memory p).getD
        (regionBackground d screen picture p) =
        (s.borderColor p).getD (s.content d.memory p)

theorem agreesAt_iff (screen : Screen) (picture : Pixel → UInt32) (p : Pixel) :
    ((topRegionSurface d p).map fun s => s.content d.memory p).getD
    (regionBackground d screen picture p) =
        ((topSurface d p).map fun s => (s.borderColor p).getD (s.content d.memory p)).getD
          (fullBackground d screen p) ↔
      AgreesAt d screen picture p := by
  rw [AgreesAt]
  cases top : topSurface d p with
  | none =>
    have none_ : topRegionSurface d p = none := topmost_and_none _ _ top
    rw [none_]
    rfl
  | some s =>
    dsimp only
    split
    · next fit =>
      have same : topRegionSurface d p = some s := topmost_and _ _ top fit
      rw [same, Option.map_some, Option.map_some, Option.getD_some, Option.getD_some]
      cases border : s.borderColor p with
      | none => exact ⟨fun _ color absent => (nomatch absent), fun _ => rfl⟩
      | some dark =>
        rw [Option.getD_some]
        exact ⟨fun same color isDark => Option.some.inj isDark ▸ same.symm,
          fun each => (each dark rfl).symm⟩
    · rw [Option.map_some, Option.getD_some]

/-- The incremental composite agrees with the full one exactly where `AgreesAt` does. -/
theorem composite_region_iff (d : Desktop) (screen : Screen) (picture : Pixel → UInt32)
    {r : MkrnRect}
    (inside : r.Inside screen) :
    (∀ p, r.Has p →
        paint (coplandCompositeRegion d screen r) picture p =
          paint (coplandComposite d screen) picture p) ↔
      ∀ p, r.Has p → ¬Reached (daemonPaint d screen) p → AgreesAt d screen picture p := by
  refine forall₂_congr fun p inRegion => ?_
  rw [coplandCompositeRegion, coplandComposite, paint_append _ (daemonPaint d screen),
    paint_append _ (daemonPaint d screen), paint_eq_iff, region_full_at d inside inRegion,
    full_at d (inside.has inRegion), agreesAt_iff]

/-- Two windows of one colour on the framebuffer, the front one over a corner of the other. -/
def windowDesktop (color : UInt32) : Desktop where
  surfaces k :=
    if k.val = 0 then ⟨1, 100, 100, 200, 150, 0, color, 1, 0⟩
    else if k.val = 1 then ⟨1, 180, 140, 200, 150, 0, color, 1, 0⟩
    else ⟨0, 0, 0, 0, 0, 0, 0, 0, 0⟩
  magic := 0x434F504C
  wallpaperTheme := 0
  guiWallpaperTheme := 0
  compositor := zeroCompositor
  memory := fun _ => 0

def vgaScreen : Screen := ⟨800, 600, by decide, by decide⟩

/-- It has the upper left corners of both windows and no right or lower border. -/
def cornerRegion : MkrnRect := ⟨50, 50, 250, 200⟩

theorem cornerRegion_inside : cornerRegion.Inside vgaScreen :=
  ⟨by decide, by decide, by decide, by decide⟩

theorem white_border {s : CoplandSurface} {p : Pixel} (bare : s.bufferPtr = 0)
    (white : s.color = coplandColorWhite)
    (right : p.1 < s.x.toInt + s.w.toInt - 1) (below : p.2 < s.y.toInt + s.h.toInt - 1) :
    ∀ color ∈ s.borderColor p, color = s.content (fun _ => 0) p := by
  intro color isBorder
  rw [CoplandSurface.content, if_neg (not_not.mpr bare), white]
  rw [CoplandSurface.borderColor, if_neg (by omega)] at isBorder
  split at isBorder
  · exact (Option.some.inj isBorder).symm
  · cases isBorder

theorem windowDesktop_agrees {p : Pixel} (inRegion : cornerRegion.Has p)
    {s : CoplandSurface} (slot : s ∈ (windowDesktop coplandColorWhite).slots)
    (covers : s.Covers p) :
    s.EdgesFit ∧ ∀ color ∈ s.borderColor p, color = s.content (fun _ => 0) p := by
  obtain ⟨⟨-, right⟩, -, below⟩ := inRegion
  obtain ⟨k, -, rfl⟩ := List.mem_map.mp slot
  by_cases first : k.val = 0
  · rw [show (windowDesktop coplandColorWhite).surfaces k = _ from if_pos first]
    exact ⟨by decide, white_border rfl rfl (right.trans (by decide)) (below.trans (by decide))⟩
  · by_cases second : k.val = 1
    · rw [show (windowDesktop coplandColorWhite).surfaces k =
        _ from (if_neg first).trans (if_pos second)]
      exact ⟨by decide, white_border rfl rfl (right.trans (by decide)) (below.trans (by decide))⟩
    · rw [show (windowDesktop coplandColorWhite).surfaces k = _ from
        (if_neg first).trans (if_neg second)] at covers
      exact absurd rfl covers.1

/-- A region at the corner of a window is composed as the whole 800x600 screen is. -/
theorem composite_region_corners : cornerRegion.Has (180, 140) ∧ ∀ p, cornerRegion.Has p →
    paint (coplandCompositeRegion (windowDesktop coplandColorWhite) vgaScreen cornerRegion)
        (fun _ => 0) p =
      paint (coplandComposite (windowDesktop coplandColorWhite) vgaScreen) (fun _ => 0) p := by
  refine ⟨⟨by decide, by decide⟩,
    (composite_region_iff _ _ (fun _ => 0) cornerRegion_inside).mpr ?_⟩
  intro p inRegion _
  rw [AgreesAt]
  cases top : topSurface (windowDesktop coplandColorWhite) p with
  | none =>
    have sameColors : regionColors (windowDesktop coplandColorWhite) =
        guiColors (windowDesktop coplandColorWhite) := by decide
    have rows : ¬vgaScreen.height ≤ 1 := by decide
    dsimp only
    rw [regionBackground, if_neg rows, sameColors, fullBackground]
  | some s =>
    have found := List.mem_filter.mp (List.mem_of_getLast? top)
    obtain ⟨fit, border⟩ := windowDesktop_agrees inRegion found.1 (of_decide_eq_true found.2)
    dsimp only
    rw [if_pos fit]
    exact border

/-- The border of a window is lost where only its region is composited. -/
theorem border_lost_in_region :
    ¬∀ (d : Desktop) (screen : Screen) (picture : Pixel → UInt32) (r : MkrnRect), r.Inside screen →
      ∀ p, r.Has p →
        paint (coplandCompositeRegion d screen r) picture p =
          paint (coplandComposite d screen) picture p := by
  intro always
  have inRegion : cornerRegion.Has (180, 140) := ⟨by decide, by decide⟩
  have corner :=
    always (windowDesktop 0x336699) vgaScreen (fun _ => 0) cornerRegion cornerRegion_inside
    (180, 140) inRegion
  have noProtocol : daemonPaint (windowDesktop 0x336699) vgaScreen = [] := rfl
  have top : topSurface (windowDesktop 0x336699) (180, 140) =
      some ⟨1, 180, 140, 200, 150, 0, 0x336699, 1, 0⟩ := rfl
  have same : topRegionSurface (windowDesktop 0x336699) (180, 140) =
      some ⟨1, 180, 140, 200, 150, 0, 0x336699, 1, 0⟩ := topmost_and _ _ top (by decide)
  rw [coplandCompositeRegion, coplandComposite, noProtocol, List.append_nil, List.append_nil,
    region_full_at _ cornerRegion_inside inRegion, full_at _ (cornerRegion_inside.has inRegion),
    top,
    same] at corner
  exact absurd corner (by decide)

end M4KK1.Copland
