import Citron.Graphics.Layers
import Mathlib.Logic.Function.Basic

/-!
# The display

`src/arch/riscv64/graphics.rs`: the frame of the GPU as a painter.

* `Canvas`             what a painter shows: a cell for each pixel, set by `draw_at`;
* `VirtioGpu.canvas`   the words of the GPU's frame are such cells.
-/

namespace Citron.Graphics

/-- the cells of a painter, as `draw_at` sets them -/
structure Canvas (π γ : Type) [Painter π] where
  cell : π → Nat → Nat → γ
  encode : UInt32 → γ
  getWidth_drawAt : ∀ (p : π) x y c, Painter.getWidth (Painter.drawAt x y c p) = Painter.getWidth p
  getHeight_drawAt : ∀ (p : π) x y c, Painter.getHeight (Painter.drawAt x y c p) = Painter.getHeight p
  cell_drawAt : ∀ (p : π) x y c x' y', x < Painter.getWidth p → y < Painter.getHeight p →
    x' < Painter.getWidth p → y' < Painter.getHeight p →
    cell (Painter.drawAt x y c p) x' y' = if x' = x ∧ y' = y then encode c else cell p x' y'
  cell_flush : ∀ (p : π) x y, cell (Painter.flush p) x y = cell p x y

/-- the index of a pixel, for fewer than `2^30` pixels -/
theorem rowMajor_eq {width height x y : Nat} (hfits : width * height < 2^30) (hx : x < width) (hy : y < height) :
    u32 (u32 (y * width) + x) = y * width + x ∧ y * width + x < width * height := by
  have hrow : y * width + width ≤ width * height := by
    rw [← Nat.succ_mul, Nat.mul_comm width]
    exact Nat.mul_le_mul_right _ hy
  unfold u32
  rw [Nat.mod_eq_of_lt (show y * width < 2^32 by omega), Nat.mod_eq_of_lt (show y * width + x < 2^32 by omega)]
  exact ⟨rfl, by omega⟩

theorem rowMajor_inj {width x y x' y' : Nat} (hx : x < width) (hx' : x' < width) :
    y' * width + x' = y * width + x ↔ x' = x ∧ y' = y := by
  constructor
  · intro h
    have hpos : 0 < width := by omega
    have hrow : y' = y := by
      have h' := congrArg (· / width) h
      simpa [Nat.mul_comm _ width, Nat.mul_add_div hpos, Nat.div_eq_of_lt hx, Nat.div_eq_of_lt hx'] using h'
    subst hrow
    exact ⟨by omega, rfl⟩
  · intro h
    rw [h.1, h.2]

/-- `u32::swap_bytes` -/
def swapBytes (p : UInt32) : UInt32 :=
  (p <<< 24) ||| ((p &&& (0xff00 : UInt32)) <<< 8) ||| ((p >>> 8) &&& (0xff00 : UInt32)) ||| (p >>> 24)

def pixelSize : Nat := 4

/-- of the device, the frame; its size in bytes, `width * pixel_size * height`, is a `u32` -/
structure VirtioGpu where
  framebuffer : Nat → UInt32
  width : Nat
  height : Nat
  fits : width * pixelSize * height < 2^32

namespace VirtioGpu

/-- the index of a pixel in the frame -/
def index (g : VirtioGpu) (x y : Nat) : Nat := u32 (u32 (y * g.width) + x)

def drawAt (x y : Nat) (pixel : UInt32) (g : VirtioGpu) : VirtioGpu :=
  { g with framebuffer := Function.update g.framebuffer (g.index x y) (swapBytes pixel >>> 8) }

/-- `update_display` sends the frame to the host, and leaves it as it is -/
instance : Painter VirtioGpu where
  drawAt := drawAt
  flush g := g
  getWidth g := g.width
  getHeight g := g.height

theorem pixels_lt (g : VirtioGpu) : g.width * g.height < 2^30 := by
  have h := g.fits
  rw [pixelSize, Nat.mul_right_comm] at h
  omega

theorem index_eq {g : VirtioGpu} {x y : Nat} (hx : x < g.width) (hy : y < g.height) :
    g.index x y = y * g.width + x :=
  (rowMajor_eq g.pixels_lt hx hy).1

/-- two pixels of the display have two words -/
theorem index_inj {g : VirtioGpu} {x y x' y' : Nat} (hx : x < g.width) (hy : y < g.height)
    (hx' : x' < g.width) (hy' : y' < g.height) : g.index x' y' = g.index x y ↔ x' = x ∧ y' = y := by
  rw [index_eq hx hy, index_eq hx' hy']
  exact rowMajor_inj hx hx'

def canvas : Canvas VirtioGpu UInt32 where
  cell g x y := g.framebuffer (g.index x y)
  encode pixel := swapBytes pixel >>> 8
  getWidth_drawAt _ _ _ _ := rfl
  getHeight_drawAt _ _ _ _ := rfl
  cell_drawAt g x y c x' y' hx hy hx' hy' := by
    show Function.update g.framebuffer (g.index x y) _ (g.index x' y') = _
    rw [Function.update_apply]
    exact if_congr (index_inj hx hy hx' hy') rfl rfl
  cell_flush _ _ _ := rfl

end VirtioGpu

end Citron.Graphics
