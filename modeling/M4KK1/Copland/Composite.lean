import Mathlib.Algebra.Ring.Nat
import M4KK1.Copland.Compositor
import M4KK1.Copland.Layers

/-!
# The two composite paths

`cmd/copland.c` with `libgui.c` and `mkrn_rect.h`, on a framebuffer of the size `libgui` has cached.
-/

namespace M4KK1.Copland

open M4KK1.Layers

abbrev Pixel := Int × Int

/-- The size of the framebuffer, which the kernel converts to `int`. -/
structure Screen where
  width : Nat
  height : Nat
  width_lt : width < 2147483648
  height_lt : height < 2147483648

def coplandMaxSurfaces : Nat := 16

instance : NeZero coplandMaxSurfaces := ⟨by decide⟩

structure CoplandSurface where
  inUse : UInt32
  x : Int32
  y : Int32
  w : Int32
  h : Int32
  bufferPtr : UInt32
  color : UInt32
  flags : UInt32
  bufferStride : UInt32

structure MkrnRect where
  left : Int
  top : Int
  right : Int
  bottom : Int

/-- A rectangle without a pixel. -/
def MkrnRect.IsEmpty (r : MkrnRect) : Prop := r.left > r.right ∨ r.top > r.bottom

instance (r : MkrnRect) : Decidable r.IsEmpty := inferInstanceAs (Decidable (_ ∨ _))

def MkrnRect.intersect (dst clip : MkrnRect) : MkrnRect where
  left := if clip.left > dst.left then clip.left else dst.left
  top := if clip.top > dst.top then clip.top else dst.top
  right := if clip.right < dst.right then clip.right else dst.right
  bottom := if clip.bottom < dst.bottom then clip.bottom else dst.bottom

/-- What the daemon composites from. -/
structure Desktop where
  surfaces : Fin coplandMaxSurfaces → CoplandSurface
  magic : UInt32
  wallpaperTheme : UInt32
  guiWallpaperTheme : Int
  compositor : Compositor
  memory : Nat → UInt32

def clipped (screen : Screen) (x y w h : Int) (color : Pixel → UInt32) : Layer Pixel UInt32 :=
  fun p =>
  if (0 ≤ p.1 ∧ p.1 < screen.width ∧ 0 ≤ p.2 ∧ p.2 < screen.height) ∧
      (x ≤ p.1 ∧ p.1 < x + w) ∧ y ≤ p.2 ∧ p.2 < y + h then some (color p)
  else none

def guiDrawRect (screen : Screen) (x y w h : Int) (color : UInt32) : Layer Pixel UInt32 :=
  clipped screen x y w h fun _ => color

def gradientChannel (screen : Screen) (top bottom : UInt32) (row : Int) : UInt32 :=
  let span : Int := if screen.height > 1 then screen.height - 1 else 1
  let step := (((bottom.toNat : Int) - top.toNat) * 65536).tdiv span
  UInt32.ofNat (((top.toNat * 65536 + row * step) / 65536) % 256).toNat

def gradientColor (screen : Screen) (top bottom : UInt32) (row : Int) : UInt32 :=
  gradientChannel screen (top >>> 16 &&& 0xFF) (bottom >>> 16 &&& 0xFF) row <<< 16 |||
    gradientChannel screen (top >>> 8 &&& 0xFF) (bottom >>> 8 &&& 0xFF) row <<< 8 |||
    gradientChannel screen (top &&& 0xFF) (bottom &&& 0xFF) row

def m4kFillGradient (screen : Screen) (x y w h : Int) (colors : UInt32 × UInt32) :
    Layer Pixel UInt32 :=
  clipped screen x y w h fun p => gradientColor screen colors.1 colors.2 p.2

variable (memory : Nat → UInt32)

/-- `m4k_gfx_blit_stride` from a word address, with the stride in pixels. -/
def m4kGfxBlitStride (screen : Screen) (x y w h : Int) (src : Nat) (stride : Int) :
    Layer Pixel UInt32 :=
  let stride := if stride < w then w else stride
  if src = 0 then fun _ => none
  else clipped screen x y w h fun p =>
    memory ((src + 4 * ((p.2 - y) * stride + (p.1 - x)).toNat) % 4294967296)

def m4kGfxBlit (screen : Screen) (x y w h : Int) (src : Nat) : Layer Pixel UInt32 :=
  m4kGfxBlitStride memory screen x y w h src w

def coplandWallpapers : List (UInt32 × UInt32) :=
  [(0x00000044, 0x0066FF), (0x00224488, 0x0044AACC), (0x00331166, 0x00AA44CC),
    (0x001A1A2E, 0x00444466),
    (0x00663300, 0x00CCAA33), (0x00104010, 0x0030A030)]

def guiWallpapers : List (UInt32 × UInt32) :=
  [(0x00000044, 0x0066FF), (0x00224488, 0x0044AACC), (0x00331166, 0x00AA44CC),
    (0x001A1A2E, 0x00444466),
    (0x00663300, 0x00CCAA33), (0x00104010, 0x0030A030)]

variable (d : Desktop)

def shmWallpaperTheme : UInt32 := if d.magic ≠ 0x434F504C then 0 else d.wallpaperTheme

/-- The colours of `copland_wallpaper_rect`. -/
def regionColors : UInt32 × UInt32 :=
  let theme := shmWallpaperTheme d
  coplandWallpapers.getD (if theme ≥ 6 then 0 else theme.toNat) (0, 0)

def coplandWallpaperRect (screen : Screen) (x y w h : Int) : List (Layer Pixel UInt32) :=
  if screen.height ≤ 1 then [] else [m4kFillGradient screen x y w h (regionColors d)]

/-- The colours of `gui_draw_wallpaper`. -/
def guiColors : UInt32 × UInt32 :=
  let theme := d.guiWallpaperTheme
  guiWallpapers.getD (if theme < 0 ∨ theme ≥ 6 then 0 else theme.toNat) (0, 0)

def guiDrawWallpaper (screen : Screen) : List (Layer Pixel UInt32) :=
  [m4kFillGradient screen 0 0 screen.width screen.height (guiColors d)]

namespace CoplandSurface

def Visible (s : CoplandSurface) : Prop := s.flags &&& 1 ≠ 0

instance (s : CoplandSurface) : Decidable s.Visible := inferInstanceAs (Decidable (_ ≠ _))

def blit (screen : Screen) (s : CoplandSurface) : Layer Pixel UInt32 :=
  if s.bufferStride ≠ 0 ∧ s.bufferStride ≠ s.w.toUInt32 then
    m4kGfxBlitStride memory screen s.x.toInt s.y.toInt s.w.toInt s.h.toInt s.bufferPtr.toNat
      (toInt32 s.bufferStride.toNat)
  else m4kGfxBlit memory screen s.x.toInt s.y.toInt s.w.toInt s.h.toInt s.bufferPtr.toNat

end CoplandSurface

def coplandColorWhite : UInt32 := 0x00FFFFFF

def coplandColorDark : UInt32 := 0x00404040

def coplandRenderSurface (screen : Screen) (s : CoplandSurface) :
    List (Layer Pixel UInt32) :=
  let x := s.x.toInt
  let y := s.y.toInt
  let sw := s.w.toInt
  let sh := s.h.toInt
  if ¬s.Visible then []
  else if sw ≤ 0 ∨ sh ≤ 0 then []
  else
    [if s.bufferPtr ≠ 0 then s.blit memory screen else guiDrawRect screen x y sw sh s.color,
      guiDrawRect screen x y sw 1 coplandColorWhite,
      guiDrawRect screen x y 1 sh coplandColorWhite,
      guiDrawRect screen x (int32 (y + sh - 1)) sw 1 coplandColorDark,
      guiDrawRect screen (int32 (x + sw - 1)) y 1 sh coplandColorDark]

/-- One turn of the surface loop of `copland_composite_region`. -/
def regionSurface (screen : Screen) (r : MkrnRect) (s : CoplandSurface) :
    List (Layer Pixel UInt32) :=
  let isect := MkrnRect.intersect
    ⟨s.x.toInt, s.y.toInt, int32 (s.x.toInt + s.w.toInt), int32 (s.y.toInt + s.h.toInt)⟩ r
  if s.inUse = 0 ∨ ¬s.Visible then []
  else if s.w.toInt ≤ 0 ∨ s.h.toInt ≤ 0 then []
  else if isect.IsEmpty then []
  else if s.bufferPtr ≠ 0 then [s.blit memory screen]
  else
    [guiDrawRect screen isect.left isect.top (isect.right - isect.left)
    (isect.bottom - isect.top) s.color]

def cpDaemonBlit (screen : Screen) (b : Blit) : List (Layer Pixel UInt32) :=
  if (b.stride : Int) = b.w * 4 % 4294967296 then [m4kGfxBlit memory screen b.x b.y b.w b.h b.src]
  else (List.range b.h.toNat).map fun (row : Nat) =>
    m4kGfxBlit memory screen b.x (int32 (b.y + row)) b.w 1 ((b.src + row * b.stride) % 4294967296)

/-- `cp_compositor_paint` with the back end of the daemon. -/
def daemonPaint (screen : Screen) : List (Layer Pixel UInt32) :=
  (cpCompositorPaint d.compositor).flatMap (cpDaemonBlit d.memory screen)

def Desktop.slots : List CoplandSurface := (List.finRange coplandMaxSurfaces).map d.surfaces

def coplandCompositeRegion (screen : Screen) (r : MkrnRect) : List (Layer Pixel UInt32) :=
  coplandWallpaperRect d screen r.left r.top (r.right - r.left) (r.bottom - r.top) ++
    d.slots.flatMap (regionSurface d.memory screen r) ++ daemonPaint d screen

def coplandComposite (screen : Screen) : List (Layer Pixel UInt32) :=
  guiDrawWallpaper d screen ++
    d.slots.flatMap (fun s => if s.inUse ≠ 0 then coplandRenderSurface d.memory screen s else []) ++
    daemonPaint d screen

end M4KK1.Copland
