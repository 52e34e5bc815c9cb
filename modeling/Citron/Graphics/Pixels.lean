import Citron.Graphics.Drag
import Citron.Graphics.Press
import Citron.Lib.Memory

/-!
# Pixel accesses

`src/graphics.rs`: `draw_iter`, and the loops of `update_frame`, `transfer_buffer_range` and `update` with the words
that they read and write.  The buffers of a window have the size that `FrameBuffer::new` asks for, computed in `u32`; so
are the indices, and the height of the layer.

* `Access`              a word of a frame, of the buffer of a layer or of the display;
* `updateFrameTrace`, `drawIterTrace`, `transferTrace`, `updateTrace`   the functions with their accesses;
* `PixelsInside`        every access of every later action is inside;
* `pixels_inside_iff`   for which sizes.
-/

namespace Citron.Graphics
open Trace

/-! ## the buffers -/

namespace FrameBuffer

/-- the bytes that `FrameBuffer::new` asks for -/
def size (width height : Nat) : Nat := u32 (u32 (width * 4) * height)

def index (fb : FrameBuffer) (x y : Nat) : Nat := u32 (u32 (y * fb.width) + x)

/-- from the bytes of a colour: the `i`th is shifted by `i * 8` -/
def pixelWord (color : List UInt8) : UInt32 :=
  color.zipIdx.foldl (fun word (byte, i) => word ||| byte.toUInt32 <<< (UInt32.ofNat (i * 8))) 0xff000000

/-- a point outside is skipped -/
def skips (fb : FrameBuffer) (x y : Int32) : Bool :=
  decide (Int32.ofNat fb.width ≤ x ∨ Int32.ofNat fb.height ≤ y ∨ x < 0 ∨ y < 0)

/-- `draw_iter` over points with the bytes of their colours -/
def drawIter (pixels : List (Int32 × Int32 × List UInt8)) (fb : FrameBuffer) : FrameBuffer :=
  pixels.foldl (fun b (x, y, color) =>
    if fb.skips x y then b else b.drawAt x.toUInt32.toNat y.toUInt32.toNat (pixelWord color)) fb

end FrameBuffer

/-- the buffer of the window and the one of its layer, as `create_window` allocates them; `none` where one is null -/
def createBuffers {limit : Nat} (A : Allocator 0x1000 limit) (width height : Nat) (s : Heap) :
    Option ((Nat × Nat) × (Nat × Nat) × Heap) :=
  let frameSize := FrameBuffer.size width height
  let (frame, s) := s.allocZeroed A frameSize
  let bufferSize := FrameBuffer.size width (u32 (height + 30))
  let (buffer, s) := s.allocZeroed A bufferSize
  if frame = 0 ∨ buffer = 0 then none else some ((frame, frameSize), (buffer, bufferSize), s)

/-! ## accesses -/

/-- a word of the frame of the window, of the buffer of a layer, or of the display -/
inductive Access
  | frame (index : Nat)
  | layer (id : LayerId) (index : Nat)
  | display (index : Nat)
deriving DecidableEq, Repr

/-- the pixels of the loops over `y_start..y_end` and `x_start..x_end` -/
def rectPixels (xStart xEnd yStart yEnd : Nat) : List (Nat × Nat) :=
  (List.range' yStart (yEnd - yStart)).flatMap fun y => (List.range' xStart (xEnd - xStart)).map fun x => (x, y)

theorem mem_rectPixels {xStart xEnd yStart yEnd x y : Nat} :
    (x, y) ∈ rectPixels xStart xEnd yStart yEnd ↔ (xStart ≤ x ∧ x < xEnd) ∧ yStart ≤ y ∧ y < yEnd := by
  unfold rectPixels
  rw [List.mem_flatMap]
  constructor
  · rintro ⟨y', hy, hmem⟩
    obtain ⟨x', hx, he⟩ := List.mem_map.mp hmem
    obtain ⟨rfl, rfl⟩ := Prod.mk.inj he
    exact ⟨mem_range'_sub.mp hx, mem_range'_sub.mp hy⟩
  · rintro ⟨hx, hy⟩
    exact ⟨y, mem_range'_sub.mpr hy, List.mem_map.mpr ⟨x, mem_range'_sub.mpr hx, rfl⟩⟩

theorem foldl_rectPixels {σ : Type} (f : σ → Nat → Nat → σ) (xStart xEnd yStart yEnd : Nat) (s : σ) :
    (rectPixels xStart xEnd yStart yEnd).foldl (fun s q => f s q.1 q.2) s
      = (List.range' yStart (yEnd - yStart)).foldl (fun s y =>
          (List.range' xStart (xEnd - xStart)).foldl (fun s x => f s x y) s) s := by
  unfold rectPixels
  rw [List.foldl_flatMap]
  simp only [List.foldl_map]

namespace FrameBuffer

/-- `draw_iter` with the words it writes -/
def drawIterTrace (id : LayerId) (pixels : List (Int32 × Int32 × List UInt8)) (fb : FrameBuffer) :
    List Access × FrameBuffer :=
  logged
    (fun (x, y, _) b => if fb.skips x y then [] else [.layer id (b.index x.toUInt32.toNat y.toUInt32.toNat)])
    (fun b (x, y, color) =>
      if fb.skips x y then b else b.drawAt x.toUInt32.toNat y.toUInt32.toNat (pixelWord color)) pixels fb

theorem drawIterTrace_snd (id : LayerId) (pixels : List (Int32 × Int32 × List UInt8)) (fb : FrameBuffer) :
    (drawIterTrace id pixels fb).2 = drawIter pixels fb :=
  logged_snd pixels fb

end FrameBuffer

/-- `update_frame` with the words of the frame it reads and those of the layer's buffer it writes -/
def Window.updateFrameTrace (id : LayerId) (window : Window) (buffer : FrameBuffer) : List Access × FrameBuffer :=
  logged
    (fun q b => [.frame (window.frame.index q.1 q.2), .layer id (b.index q.1 (u32 (q.2 + window.titleBarHeight)))])
    (fun b q => b.drawAt q.1 (u32 (q.2 + window.titleBarHeight)) (window.frame.getPixel q.1 q.2))
    (rectPixels 0 window.frame.width 0 window.frame.height) buffer

theorem Window.updateFrameTrace_snd (id : LayerId) (window : Window) (buffer : FrameBuffer) :
    (window.updateFrameTrace id buffer).2 = window.updateFrame buffer := by
  unfold updateFrameTrace updateFrame
  rw [logged_snd]
  refine (foldl_rectPixels (fun b x y => b.drawAt x (u32 (y + window.titleBarHeight)) (window.frame.getPixel x y))
    0 window.frame.width 0 window.frame.height buffer).trans ?_
  rw [List.range_eq_range', List.range_eq_range', Nat.sub_zero, Nat.sub_zero]

/-- `transfer_buffer_range` with the words of the layer's buffer it reads and those of the display it writes -/
def Layer.transferTrace (id : LayerId) (l : Layer) (x y width height : Nat) (painter : VirtioGpu) :
    List Access × VirtioGpu :=
  let xStart := max x l.x
  let xEnd := min (u32 (x + width)) (min (u32 (l.x + l.width)) painter.width)
  let yStart := max y l.y
  let yEnd := min (u32 (y + height)) (min (u32 (l.y + l.height)) painter.height)
  logged
    (fun q p => .layer id (l.buffer.index (q.1 - l.x) (q.2 - l.y)) ::
      if l.transparent = some (l.buffer.getPixel (q.1 - l.x) (q.2 - l.y)) then [] else [.display (p.index q.1 q.2)])
    (fun p q => l.drawPixel q.1 q.2 p) (rectPixels xStart xEnd yStart yEnd) painter

theorem Layer.transferTrace_snd (id : LayerId) (l : Layer) (x y width height : Nat) (painter : VirtioGpu) :
    (l.transferTrace id x y width height painter).2 = l.transferBufferRange x y width height painter := by
  unfold transferTrace
  rw [logged_snd]
  exact foldl_rectPixels (fun p x y => l.drawPixel x y p) _ _ _ _ painter

namespace LayerManager

/-- the loop of `update` up to `id`, with its accesses -/
def drawUpToTrace (id : LayerId) (prevX prevY prevWidth prevHeight x y width height : Nat) :
    List LayerId → Nat → LayerManager VirtioGpu → List Access × Option (Nat × LayerManager VirtioGpu)
  | [], _, lm => ([], some (0, lm))
  | layerId :: rest, idx, lm =>
    match lm.layers layerId with
    | none => ([], none)
    | some layer =>
      if layerId = id then
        let layer := layer.updatePrevInfo
        let lm := lm.setLayer layerId layer
        let (as, painter) := layer.transferTrace layerId x y width height lm.painter
        (as, some (idx, lm.setPainter painter))
      else
        let (as, painter) := layer.transferTrace layerId prevX prevY prevWidth prevHeight lm.painter
        let (bs, r) := drawUpToTrace id prevX prevY prevWidth prevHeight x y width height rest (idx + 1)
          (lm.setPainter painter)
        (as ++ bs, r)

/-- the loop over the layers above, with its accesses -/
def drawFullTrace : List LayerId → LayerManager VirtioGpu → List Access × Option (LayerManager VirtioGpu)
  | [], lm => ([], some lm)
  | layerId :: rest, lm =>
    match lm.layers layerId with
    | none => ([], none)
    | some layer =>
      let (as, painter) := layer.transferTrace layerId layer.x layer.y layer.width layer.height lm.painter
      let (bs, r) := drawFullTrace rest (lm.setPainter painter)
      (as ++ bs, r)

/-- `update` with its accesses -/
def updateTrace (lm : LayerManager VirtioGpu) (id : LayerId) : List Access × Option (LayerManager VirtioGpu) :=
  match lm.layers id with
  | none => ([], none)
  | some layer =>
    match drawUpToTrace id layer.prevX layer.prevY layer.prevWidth layer.prevHeight layer.x layer.y layer.width
        layer.height lm.layerStack 0 lm with
    | (as, none) => (as, none)
    | (as, some (index, lm)) =>
      let (bs, r) := drawFullTrace (lm.layerStack.drop (index + 1)) lm
      (as ++ bs, r.map fun lm => lm.setPainter (Painter.flush lm.painter))

theorem drawUpToTrace_snd (id : LayerId) (prevX prevY prevWidth prevHeight x y width height : Nat)
    (stack : List LayerId) : ∀ (idx : Nat) (lm : LayerManager VirtioGpu),
      (drawUpToTrace id prevX prevY prevWidth prevHeight x y width height stack idx lm).2
        = drawUpTo id prevX prevY prevWidth prevHeight x y width height stack idx lm := by
  induction stack with
  | nil => exact fun _ _ => rfl
  | cons a stack ih =>
    intro idx lm
    unfold drawUpToTrace drawUpTo
    cases ha : lm.layers a with
    | none => rfl
    | some layer =>
      rw [Option.bind_some]
      dsimp only
      by_cases hid : a = id
      · rw [if_pos hid, if_pos hid, Layer.transferTrace_snd]
      · rw [if_neg hid, if_neg hid, Layer.transferTrace_snd]
        exact ih (idx + 1) _

theorem drawFullTrace_snd (stack : List LayerId) : ∀ lm : LayerManager VirtioGpu,
    (drawFullTrace stack lm).2 = drawFull stack lm := by
  induction stack with
  | nil => exact fun _ => rfl
  | cons a stack ih =>
    intro lm
    unfold drawFullTrace drawFull
    cases ha : lm.layers a with
    | none => rfl
    | some layer =>
      rw [Option.bind_some]
      dsimp only
      rw [Layer.transferTrace_snd]
      exact ih _

theorem updateTrace_snd (lm : LayerManager VirtioGpu) (id : LayerId) : (lm.updateTrace id).2 = lm.update id := by
  unfold updateTrace update
  cases hid : lm.layers id with
  | none => rfl
  | some layer =>
    rw [Option.bind_some, ← drawUpToTrace_snd]
    dsimp only
    generalize drawUpToTrace id layer.prevX layer.prevY layer.prevWidth layer.prevHeight layer.x layer.y layer.width
      layer.height lm.layerStack 0 lm = r
    obtain ⟨as, r⟩ := r
    cases r with
    | none => rfl
    | some r =>
      dsimp only
      rw [drawFullTrace_snd]
      rfl

end LayerManager

/-! ## what is done later -/

/-- `transfer_buffer_range`, `update_frame` and `draw_iter` are those of the window and its layer -/
inductive PixelAction
  | moveRel (id : LayerId) (x y : Int32)
  | moveAbs (id : LayerId) (x y : Int32)
  | moveLayer (id : LayerId) (newHeight : Int)
  | update (id : LayerId)
  | transferBufferRange (x y width height : Nat)
  | updateFrame (words : Nat → UInt32)
  | drawIter (pixels : List (Int32 × Int32 × List UInt8))

/-- the owner of the window has drawn in its frame -/
def Window.withWords (words : Nat → UInt32) (window : Window) : Window :=
  { window with frame := { window.frame with buffer := words } }

namespace PixelAction

/-- `none` is a panic -/
def step (window : Window) (id : LayerId) : PixelAction → Screen VirtioGpu → Option (Screen VirtioGpu)
  | .moveRel a x y, s => s.moveRel a x y
  | .moveAbs a x y, s => s.moveAbs a x y
  | .moveLayer a newHeight, s => s.moveLayer a newHeight
  | .update a, s => s.update a
  | .transferBufferRange x y width height, s => (s.lm.layers id).map fun l =>
      s.withLm (s.lm.setPainter (l.transferBufferRange x y width height s.lm.painter))
  | .updateFrame words, s => s.change id fun l => { l with buffer := (window.withWords words).updateFrame l.buffer }
  | .drawIter pixels, s => s.change id fun l => { l with buffer := l.buffer.drawIter pixels }

/-- the accesses of an action, also of one that panics -/
def accesses (window : Window) (id : LayerId) : PixelAction → Screen VirtioGpu → List Access
  | .moveRel .., _ => []
  | .moveAbs .., _ => []
  | .moveLayer .., _ => []
  | .update a, s => (s.lm.updateTrace a).1
  | .transferBufferRange x y width height, s =>
    (s.lm.layers id).elim [] fun l => (l.transferTrace id x y width height s.lm.painter).1
  | .updateFrame words, s => (s.lm.layers id).elim [] fun l => ((window.withWords words).updateFrameTrace id l.buffer).1
  | .drawIter pixels, s => (s.lm.layers id).elim [] fun l => (l.buffer.drawIterTrace id pixels).1

end PixelAction

/-- the pixels that the frame of the device was allocated for -/
def VirtioGpu.pixels (g : VirtioGpu) : Nat := u32 (u32 (g.width * pixelSize) * g.height) / 4

/-- with so many pixels in the frame of the window, in the buffer of its layer `id` and in the display -/
def Access.Inside (id : LayerId) (frame buffer display : Nat) : Access → Prop
  | .frame index => index < frame
  | .layer a index => a = id → index < buffer
  | .display index => index < display

/-- coordinates below these have indices of their own -/
def Apart (index : Nat → Nat → Nat) (width height : Nat) : Prop :=
  ∀ x y x' y', x < width → y < height → x' < width → y' < height → index x' y' = index x y → x' = x ∧ y' = y

/-- **Pixel accesses stay inside the buffers**, in every state after `s` -/
structure PixelsInside (window : Window) (id : LayerId) (frame buffer : Nat) (s : Screen VirtioGpu) : Prop where
  inside : ∀ actions s' (action : PixelAction), run (PixelAction.step window id) actions s = some s' →
    ∀ a ∈ action.accesses window id s', a.Inside id frame buffer s'.lm.painter.pixels
  frame_apart : Apart window.frame.index window.frame.width window.frame.height
  layer_apart : ∀ actions s' l, run (PixelAction.step window id) actions s = some s' → s'.lm.layers id = some l →
    Apart l.buffer.index l.buffer.width l.buffer.height
  display_apart : ∀ actions s', run (PixelAction.step window id) actions s = some s' →
    Apart s'.lm.painter.index s'.lm.painter.width s'.lm.painter.height

/-! ## sizes -/

theorem size_lt (width height : Nat) : FrameBuffer.size width height / 4 < 2^30 := by
  unfold FrameBuffer.size u32
  omega

/-- the size does not wrap for fewer than `2^30` pixels -/
theorem size_eq {width height : Nat} (h : width * height < 2^30) :
    FrameBuffer.size width height / 4 = width * height := by
  unfold FrameBuffer.size u32
  cases height with
  | zero => simp
  | succ n =>
    have hle : width ≤ width * (n+1) := Nat.le_mul_of_pos_right width (Nat.succ_pos n)
    rw [Nat.mod_eq_of_lt (show width * 4 < 2^32 by omega), Nat.mul_right_comm, Nat.mod_eq_of_lt (by omega)]
    omega

theorem FrameBuffer.apart {fb : FrameBuffer} (h : fb.width * fb.height < 2^30) : Apart fb.index fb.width fb.height := by
  intro x y x' y' hx hy hx' hy' he
  unfold index at he
  rw [(rowMajor_eq h hx hy).1, (rowMajor_eq h hx' hy').1] at he
  exact (rowMajor_inj hx hx').mp he

theorem FrameBuffer.index_lt {fb : FrameBuffer} (h : fb.width * fb.height < 2^30) {x y : Nat} (hx : x < fb.width)
    (hy : y < fb.height) : fb.index x y < size fb.width fb.height / 4 := by
  unfold index
  rw [size_eq h, (rowMajor_eq h hx hy).1]
  exact (rowMajor_eq h hx hy).2

namespace VirtioGpu
variable {g : VirtioGpu}

theorem pixels_eq (g : VirtioGpu) : g.pixels = g.width * g.height := size_eq g.pixels_lt

theorem index_lt {x y : Nat} (hx : x < g.width) (hy : y < g.height) : g.index x y < g.pixels := by
  rw [pixels_eq, index_eq hx hy]
  exact (rowMajor_eq g.pixels_lt hx hy).2

end VirtioGpu

/-! ## inside -/

/-- a layer of this size, with a buffer of this size -/
structure Layer.Spans (w h : Nat) (l : Layer) : Prop where
  width : l.width = w
  height : l.height = h
  buffer_width : l.buffer.width = w
  buffer_height : l.buffer.height = h

/-- a window created with this size -/
structure Created (w h : Nat) (window : Window) : Prop where
  width : window.frame.width = w
  height : window.frame.height = h
  titleBarHeight : window.titleBarHeight = 30

theorem Created.withWords {w h : Nat} {window : Window} (hwindow : Created w h window) (words : Nat → UInt32) :
    Created w h (window.withWords words) :=
  ⟨hwindow.width, hwindow.height, hwindow.titleBarHeight⟩

/-- a point that is not skipped -/
theorem FrameBuffer.lt_of_not_skips {fb : FrameBuffer} {x y : Int32} (h : ¬ fb.skips x y) :
    x.toUInt32.toNat < fb.width ∧ y.toUInt32.toNat < fb.height := by
  have hlt : ∀ {v : Int32} {n : Nat}, ¬ Int32.ofNat n ≤ v → ¬ v < 0 → v.toUInt32.toNat < n := by
    intro v n hn h0
    have hv : (0 : Int32) ≤ v := Int32.not_lt.mp h0
    have hle := Int32.lt_iff_toInt_lt.mp (Int32.not_le.mp hn)
    rw [Int32.toInt_ofNat'] at hle
    -- as an `i32` the size is no larger
    have hmod : (n : Int).bmod Int32.size ≤ n := by
      rw [Int.bmod_def]
      unfold Int32.size
      split <;> omega
    rw [Int32.toNat_toUInt32_of_le hv]
    have := Int32.cast_toNatClampNeg v hv
    omega
  unfold skips at h
  simp only [decide_eq_true_eq, not_or] at h
  exact ⟨hlt h.1 h.2.2.1, hlt h.2.1 h.2.2.2⟩

section inside
variable (id : LayerId) {n w h : Nat} (hfits : w * h < 2^30)
include hfits

theorem drawIter_inside {fb : FrameBuffer} (hw : fb.width = w) (hh : fb.height = h) (display : Nat)
    (pixels : List (Int32 × Int32 × List UInt8)) :
    ((fb.drawIterTrace id pixels).2.width = w ∧ (fb.drawIterTrace id pixels).2.height = h) ∧
      ∀ a ∈ (fb.drawIterTrace id pixels).1, a.Inside id n (FrameBuffer.size w h / 4) display := by
  refine logged_forall (I := fun b : FrameBuffer => b.width = w ∧ b.height = h) pixels ?_ fb ⟨hw, hh⟩
  rintro ⟨x, y, color⟩ - b ⟨hbw, hbh⟩
  dsimp only
  by_cases hskip : fb.skips x y
  · rw [if_pos hskip, if_pos hskip]
    exact ⟨⟨hbw, hbh⟩, fun _ ha => absurd ha List.not_mem_nil⟩
  · rw [if_neg hskip, if_neg hskip]
    obtain ⟨hx, hy⟩ := FrameBuffer.lt_of_not_skips hskip
    rw [hw, ← hbw] at hx
    rw [hh, ← hbh] at hy
    refine ⟨⟨hbw, hbh⟩, fun a ha => ?_⟩
    rw [List.mem_singleton.mp ha]
    subst hbw hbh
    exact fun _ => FrameBuffer.index_lt hfits hx hy

/-- what is read of the layer is in its rectangle, and what is written is on the display -/
theorem transfer_inside {a : LayerId} {l : Layer} (hl : a = id → l.Spans w h) (x y width height : Nat) (p : VirtioGpu) :
    ((l.transferTrace a x y width height p).2.width = p.width ∧
        (l.transferTrace a x y width height p).2.height = p.height) ∧
      ∀ b ∈ (l.transferTrace a x y width height p).1, b.Inside id n (FrameBuffer.size w h / 4) p.pixels := by
  refine logged_forall (I := fun g : VirtioGpu => g.width = p.width ∧ g.height = p.height) _ ?_ p ⟨rfl, rfl⟩
  rintro ⟨x', y'⟩ hq g ⟨hgw, hgh⟩
  obtain ⟨⟨hx, hx'⟩, hy, hy'⟩ := mem_rectPixels.mp hq
  rw [Nat.max_le] at hx hy
  rw [Nat.lt_min, Nat.lt_min] at hx' hy'
  have hpixel := LayerManager.drawPixel_size l x' y' g
  refine ⟨⟨hpixel.1.trans hgw, hpixel.2.trans hgh⟩, fun b hb => ?_⟩
  rcases List.mem_cons.mp hb with rfl | hb
  · intro ha
    obtain ⟨hw, hh, hbw, hbh⟩ := hl ha
    have hux : u32 (l.x + l.width) ≤ l.x + l.width := Nat.mod_le _ _
    have huy : u32 (l.y + l.height) ≤ l.y + l.height := Nat.mod_le _ _
    subst hbw hbh
    exact FrameBuffer.index_lt hfits (by dsimp only; omega) (by dsimp only; omega)
  · split at hb
    · exact absurd hb List.not_mem_nil
    · rw [List.mem_singleton.mp hb]
      have hsize : g.pixels = p.pixels := by rw [g.pixels_eq, p.pixels_eq, hgw, hgh]
      show g.index x' y' < p.pixels
      rw [← hsize]
      exact VirtioGpu.index_lt (hgw ▸ hx'.2.2) (hgh ▸ hy'.2.2)

omit hfits in
/-- the title bar is above the frame -/
theorem updateFrame_inside {window : Window} {height : Nat} (hfits : w * (height + 30) < 2^30)
    (hwindow : Created w height window)
    {buffer : FrameBuffer} (hbw : buffer.width = w) (hbh : buffer.height = u32 (height + 30)) (display : Nat) :
    ((window.updateFrameTrace id buffer).2.width = w ∧
        (window.updateFrameTrace id buffer).2.height = u32 (height + 30)) ∧
      ∀ a ∈ (window.updateFrameTrace id buffer).1, a.Inside id (FrameBuffer.size w height / 4)
        (FrameBuffer.size w (u32 (height + 30)) / 4) display := by
  refine logged_forall (I := fun b : FrameBuffer => b.width = w ∧ b.height = u32 (height + 30)) _ ?_ buffer ⟨hbw, hbh⟩
  rintro ⟨x, y⟩ hq b ⟨hbw, hbh⟩
  obtain ⟨⟨-, hx⟩, -, hy⟩ := mem_rectPixels.mp hq
  refine ⟨⟨hbw, hbh⟩, fun a ha => ?_⟩
  dsimp only at ha
  obtain ⟨rfl, rfl, hbar⟩ := hwindow
  -- with a pixel in it, the frame is not so high that the title bar would wrap
  have hle : window.frame.height + 30 ≤ window.frame.width * (window.frame.height + 30) :=
    Nat.le_mul_of_pos_left _ (by omega)
  have hmul : window.frame.width * window.frame.height ≤ window.frame.width * (window.frame.height + 30) :=
    Nat.mul_le_mul_left _ (by omega)
  have hu : ∀ n, n ≤ window.frame.height + 30 → u32 n = n := fun n hn => Nat.mod_eq_of_lt (by omega)
  rcases List.mem_cons.mp ha with rfl | ha
  · exact FrameBuffer.index_lt (by omega) hx hy
  · rw [List.mem_singleton.mp ha, hbar]
    intro _
    rw [← hbw, ← hbh]
    rw [hu _ (Nat.le_refl _)] at hbh
    refine FrameBuffer.index_lt (by rw [hbw, hbh]; exact hfits) (by rw [hbw]; exact hx) ?_
    rw [hbh, hu _ (by omega)]
    omega

end inside

/-! ## runs -/

/-- the layer `id` has this size, and the display that of `g` -/
structure Framed (id : LayerId) (w h : Nat) (g : VirtioGpu) (lm : LayerManager VirtioGpu) : Prop where
  layer : ∀ l, lm.layers id = some l → l.Spans w h
  width : lm.painter.width = g.width
  height : lm.painter.height = g.height

namespace Framed
variable {id : LayerId} {n w h : Nat} {g : VirtioGpu} {lm lm' : LayerManager VirtioGpu}

theorem pixels (hf : Framed id w h g lm) : lm.painter.pixels = g.pixels := by
  rw [VirtioGpu.pixels_eq, VirtioGpu.pixels_eq, hf.width, hf.height]

theorem setPainter (hf : Framed id w h g lm) {p : VirtioGpu}
    (hp : p.width = lm.painter.width ∧ p.height = lm.painter.height) : Framed id w h g (lm.setPainter p) :=
  ⟨hf.layer, hp.1.trans hf.width, hp.2.trans hf.height⟩

theorem setLayer (hf : Framed id w h g lm) {a : LayerId} {l : Layer} (hl : a = id → l.Spans w h) :
    Framed id w h g (lm.setLayer a l) := by
  refine ⟨fun l' hl' => ?_, hf.width, hf.height⟩
  change (if id = a then some l else lm.layers id) = some l' at hl'
  by_cases ha : id = a
  · rw [if_pos ha] at hl'
    cases hl'
    exact hl ha.symm
  · rw [if_neg ha] at hl'
    exact hf.layer l' hl'

section trace
variable (hfits : w * h < 2^30)
include hfits

/-- one call of `transfer_buffer_range` in `update` -/
theorem transfer (hf : Framed id w h g lm) {a : LayerId} {l : Layer} (hl : a = id → l.Spans w h)
    (x y width height : Nat) : Framed id w h g (lm.setPainter (l.transferTrace a x y width height lm.painter).2) ∧
      ∀ b ∈ (l.transferTrace a x y width height lm.painter).1, b.Inside id n (FrameBuffer.size w h / 4) g.pixels := by
  obtain ⟨hsize, hin⟩ := transfer_inside id (n := n) hfits hl x y width height lm.painter
  rw [hf.pixels] at hin
  exact ⟨hf.setPainter hsize, hin⟩

theorem drawUpTo (a : LayerId) (prevX prevY prevWidth prevHeight x y width height : Nat) (stack : List LayerId) :
    ∀ (idx : Nat) {lm : LayerManager VirtioGpu}, Framed id w h g lm →
      (∀ b ∈ (lm.drawUpToTrace a prevX prevY prevWidth prevHeight x y width height stack idx).1,
        b.Inside id n (FrameBuffer.size w h / 4) g.pixels) ∧
      ∀ r, (lm.drawUpToTrace a prevX prevY prevWidth prevHeight x y width height stack idx).2 = some r →
        Framed id w h g r.2 := by
  induction stack with
  | nil =>
    intro idx lm hf
    refine ⟨fun b hb => absurd hb List.not_mem_nil, fun r hr => ?_⟩
    cases hr
    exact hf
  | cons c stack ih =>
    intro idx lm hf
    unfold LayerManager.drawUpToTrace
    cases hc : lm.layers c with
    | none => exact ⟨fun b hb => absurd hb List.not_mem_nil, fun r hr => by cases hr⟩
    | some layer =>
      have hl : c = id → layer.Spans w h := fun he => hf.layer layer (he ▸ hc)
      dsimp only
      by_cases hid : c = a
      · rw [if_pos hid]
        have hprev : c = id → layer.updatePrevInfo.Spans w h := fun he =>
          ⟨(hl he).width, (hl he).height, (hl he).buffer_width, (hl he).buffer_height⟩
        obtain ⟨hf', hin⟩ := (hf.setLayer hprev).transfer (n := n) hfits hprev x y width height
        refine ⟨hin, fun r hr => ?_⟩
        cases hr
        exact hf'
      · rw [if_neg hid]
        obtain ⟨hf', hin⟩ := hf.transfer (n := n) hfits hl prevX prevY prevWidth prevHeight
        obtain ⟨hin', hr⟩ := ih (idx + 1) hf'
        exact ⟨List.forall_mem_append.mpr ⟨hin, hin'⟩, hr⟩

theorem drawFull (stack : List LayerId) : ∀ {lm : LayerManager VirtioGpu}, Framed id w h g lm →
    (∀ b ∈ (lm.drawFullTrace stack).1, b.Inside id n (FrameBuffer.size w h / 4) g.pixels) ∧
      ∀ lm', (lm.drawFullTrace stack).2 = some lm' → Framed id w h g lm' := by
  induction stack with
  | nil =>
    intro lm hf
    refine ⟨fun b hb => absurd hb List.not_mem_nil, fun lm' hr => ?_⟩
    cases hr
    exact hf
  | cons c stack ih =>
    intro lm hf
    unfold LayerManager.drawFullTrace
    cases hc : lm.layers c with
    | none => exact ⟨fun b hb => absurd hb List.not_mem_nil, fun r hr => by cases hr⟩
    | some layer =>
      have hl : c = id → layer.Spans w h := fun he => hf.layer layer (he ▸ hc)
      obtain ⟨hf', hin⟩ := hf.transfer (n := n) hfits hl layer.x layer.y layer.width layer.height
      obtain ⟨hin', hr⟩ := ih hf'
      exact ⟨List.forall_mem_append.mpr ⟨hin, hin'⟩, hr⟩

theorem update (hf : Framed id w h g lm) (a : LayerId) :
    (∀ b ∈ (lm.updateTrace a).1, b.Inside id n (FrameBuffer.size w h / 4) g.pixels) ∧
      ∀ lm', lm.update a = some lm' → Framed id w h g lm' := by
  rw [← LayerManager.updateTrace_snd]
  unfold LayerManager.updateTrace
  cases lm.layers a with
  | none => exact ⟨fun b hb => absurd hb List.not_mem_nil, fun r hr => by cases hr⟩
  | some layer =>
    dsimp only
    obtain ⟨hin, hr⟩ := hf.drawUpTo (n := n) hfits a layer.prevX layer.prevY layer.prevWidth layer.prevHeight layer.x
      layer.y layer.width layer.height lm.layerStack 0
    generalize LayerManager.drawUpToTrace a layer.prevX layer.prevY layer.prevWidth layer.prevHeight layer.x layer.y
      layer.width layer.height lm.layerStack 0 lm = t at hin hr ⊢
    obtain ⟨as, r⟩ := t
    cases r with
    | none => exact ⟨hin, fun r hr => by cases hr⟩
    | some r =>
      obtain ⟨hin', hr'⟩ := (hr r rfl).drawFull (n := n) hfits (r.2.layerStack.drop (r.1 + 1))
      refine ⟨List.forall_mem_append.mpr ⟨hin, hin'⟩, fun lm' hlm => ?_⟩
      obtain ⟨lm₂, hlm₂, rfl⟩ := Option.map_eq_some_iff.mp hlm
      exact (hr' lm₂ hlm₂).setPainter ⟨rfl, rfl⟩

end trace

end Framed

section run
variable {id : LayerId} {width height : Nat} {window : Window} {g : VirtioGpu} {s s' : Screen VirtioGpu}
  (hfits : width * (height + 30) < 2^30) (hwindow : Created width height window)
include hfits

theorem layer_fits : width * u32 (height + 30) < 2^30 :=
  Nat.lt_of_le_of_lt (Nat.mul_le_mul_left _ (Nat.mod_le _ _)) hfits

omit hfits in
/-- a layer that keeps its size, anywhere -/
theorem Framed.change {a : LayerId} {f : Layer → Layer} {w h : Nat} (hs : Framed id w h g s.lm)
    (hf : ∀ l, a = id → l.Spans w h → (f l).Spans w h) (hc : s.change a f = some s') : Framed id w h g s'.lm := by
  obtain ⟨l, hl, rfl⟩ := Option.map_eq_some_iff.mp hc
  exact hs.setLayer fun ha => hf l ha (hs.layer l (ha ▸ hl))

omit hfits in
theorem forall_mem_elim {o : Option Layer} {f : Layer → List Access} {P : Access → Prop}
    (h : ∀ l, o = some l → ∀ a ∈ f l, P a) : ∀ a ∈ o.elim [] f, P a := by
  cases o with
  | none => exact fun _ ha => absurd ha List.not_mem_nil
  | some l => exact h l rfl

include hwindow

theorem PixelAction.step_inside (hs : Framed id width (u32 (height + 30)) g s.lm) (action : PixelAction) :
    (∀ a ∈ action.accesses window id s, a.Inside id (FrameBuffer.size width height / 4)
      (FrameBuffer.size width (u32 (height + 30)) / 4) g.pixels) ∧
      ∀ s', action.step window id s = some s' → Framed id width (u32 (height + 30)) g s'.lm := by
  have hlayer := layer_fits hfits
  have hnone : ∀ a ∈ ([] : List Access), a.Inside id (FrameBuffer.size width height / 4)
      (FrameBuffer.size width (u32 (height + 30)) / 4) g.pixels := fun _ ha => absurd ha List.not_mem_nil
  cases action with
  | moveRel a x y =>
    refine ⟨hnone, fun s' hc => ?_⟩
    change s.change a (Layer.moveRel (s.display a) x y) = some s' at hc
    exact hs.change (f := Layer.moveRel (s.display a) x y)
      (fun l _ hl => ⟨hl.width, hl.height, hl.buffer_width, hl.buffer_height⟩) hc
  | moveAbs a x y =>
    refine ⟨hnone, fun s' hc => ?_⟩
    change s.change a (Layer.moveAbs (s.display a) x y) = some s' at hc
    exact hs.change (f := Layer.moveAbs (s.display a) x y)
      (fun l _ hl => ⟨hl.width, hl.height, hl.buffer_width, hl.buffer_height⟩) hc
  | moveLayer a newHeight =>
    refine ⟨hnone, fun s' hm => ?_⟩
    obtain ⟨lm, hlm, rfl⟩ := Option.map_eq_some_iff.mp hm
    obtain ⟨-, hlayers, hpainter⟩ := moveLayer_others hlm
    refine ⟨fun l hl => hs.layer l (by rw [← hlayers]; exact hl), ?_, ?_⟩
    · show lm.painter.width = _
      rw [hpainter]
      exact hs.width
    · show lm.painter.height = _
      rw [hpainter]
      exact hs.height
  | update a =>
    obtain ⟨hin, hr⟩ := hs.update hlayer a
    refine ⟨hin, fun s' hu => ?_⟩
    obtain ⟨lm, hlm, rfl⟩ := Option.map_eq_some_iff.mp hu
    exact hr lm hlm
  | transferBufferRange x y w h =>
    have hin : ∀ l, s.lm.layers id = some l → _ := fun l hl =>
      hs.transfer (n := FrameBuffer.size width height / 4) (a := id) hlayer (fun _ => hs.layer l hl) x y w h
    refine ⟨forall_mem_elim fun l hl => (hin l hl).2, fun s' hc => ?_⟩
    obtain ⟨l, hl, rfl⟩ := Option.map_eq_some_iff.mp hc
    have hf := (hin l hl).1
    rw [Layer.transferTrace_snd] at hf
    exact hf
  | updateFrame words =>
    have hin : ∀ l, s.lm.layers id = some l → _ := fun l hl =>
      updateFrame_inside id hfits (hwindow.withWords words) (hs.layer l hl).buffer_width (hs.layer l hl).buffer_height
        g.pixels
    refine ⟨forall_mem_elim fun l hl => (hin l hl).2, fun s' hc => ?_⟩
    obtain ⟨l, hl, rfl⟩ := Option.map_eq_some_iff.mp hc
    have hb := (hin l hl).1
    rw [Window.updateFrameTrace_snd] at hb
    exact hs.setLayer fun _ => ⟨(hs.layer l hl).width, (hs.layer l hl).height, hb.1, hb.2⟩
  | drawIter pixels =>
    have hin : ∀ l, s.lm.layers id = some l → _ := fun l hl =>
      drawIter_inside id (n := FrameBuffer.size width height / 4) hlayer (hs.layer l hl).buffer_width
        (hs.layer l hl).buffer_height g.pixels pixels
    refine ⟨forall_mem_elim fun l hl => (hin l hl).2, fun s' hc => ?_⟩
    obtain ⟨l, hl, rfl⟩ := Option.map_eq_some_iff.mp hc
    have hb := (hin l hl).1
    rw [FrameBuffer.drawIterTrace_snd] at hb
    exact hs.setLayer fun _ => ⟨(hs.layer l hl).width, (hs.layer l hl).height, hb.1, hb.2⟩

theorem pixelsInside_of_fits (hs : Framed id width (u32 (height + 30)) s.lm.painter s.lm) :
    PixelsInside window id (FrameBuffer.size width height / 4) (FrameBuffer.size width (u32 (height + 30)) / 4) s := by
  have hrun : ∀ actions s', run (PixelAction.step window id) actions s = some s' →
      Framed id width (u32 (height + 30)) s.lm.painter s'.lm := by
    intro actions s' hrun
    refine invariant (fun _ _ => True) (fun t => Framed id width (u32 (height + 30)) s.lm.painter t.lm) ?_ actions hs
      (throughout_of_forall actions (fun _ _ _ => trivial) s) hrun
    exact fun t action t' ht _ hstep => (PixelAction.step_inside hfits hwindow ht action).2 t' hstep
  refine ⟨fun actions s' action h => ?_, ?_, fun actions s' l h hl => ?_, fun actions s' _ => ?_⟩
  · rw [(hrun actions s' h).pixels]
    exact (PixelAction.step_inside hfits hwindow (hrun actions s' h) action).1
  · refine FrameBuffer.apart (Nat.lt_of_le_of_lt (Nat.mul_le_mul ?_ ?_) hfits)
    · rw [hwindow.width]
    · rw [hwindow.height]
      omega
  · obtain ⟨-, -, hbw, hbh⟩ := (hrun actions s' h).layer l hl
    exact FrameBuffer.apart (by rw [hbw, hbh]; exact layer_fits hfits)
  · exact fun x y x' y' hx hy hx' hy' => (VirtioGpu.index_inj hx hy hx' hy').mp

end run

/-! ## outside -/

section outside
variable {id : LayerId} {n k width height : Nat} {window : Window} {s : Screen VirtioGpu} {l : Layer}

/-- the last index that a buffer can have is one of the first `2^30` -/
theorem rowMajor_last {w h : Nat} (h30 : 2^30 ≤ w * h) :
    (2^30 - 1) % w < w ∧ (2^30 - 1) / w < h ∧ u32 (u32 ((2^30 - 1) / w * w) + (2^30 - 1) % w) = 2^30 - 1 := by
  have hw : 0 < w := Nat.pos_of_ne_zero fun h0 => by
    rw [h0, Nat.zero_mul] at h30
    omega
  have hdiv := Nat.div_add_mod (2^30 - 1) w
  have hmul : (2^30 - 1) / w * w = w * ((2^30 - 1) / w) := Nat.mul_comm _ _
  refine ⟨Nat.mod_lt _ hw, Nat.div_lt_of_lt_mul (by omega), ?_⟩
  unfold u32
  rw [Nat.mod_eq_of_lt (show (2^30 - 1) / w * w < 2^32 by omega), Nat.mod_eq_of_lt (by omega)]
  omega

/-- a frame of `2^30` pixels or more is read outside -/
theorem frame_outside (hwindow : Created width height window) (hl : s.lm.layers id = some l)
    (h30 : 2^30 ≤ width * height) (words : Nat → UInt32) :
    .frame (2^30 - 1) ∈ (PixelAction.updateFrame words).accesses window id s := by
  obtain ⟨hx, hy, hindex⟩ := rowMajor_last h30
  show _ ∈ (s.lm.layers id).elim [] _
  rw [hl]
  refine mem_logged (a := ((2^30 - 1) % width, (2^30 - 1) / width)) (mem_rectPixels.mpr ?_) (fun b => ?_) l.buffer
  · rw [(hwindow.withWords words).width, (hwindow.withWords words).height]
    exact ⟨⟨Nat.zero_le _, hx⟩, Nat.zero_le _, hy⟩
  · unfold FrameBuffer.index
    rw [(hwindow.withWords words).width, hindex]
    exact List.mem_cons_self

/-- a coordinate that is no negative `i32` is not skipped below the size -/
theorem not_skips {fb : FrameBuffer} {x y : Nat} (hw : fb.width < 2^31) (hh : fb.height < 2^31) (hx : x < fb.width)
    (hy : y < fb.height) : fb.skips (Int32.ofNat x) (Int32.ofNat y) = false := by
  have hlt : ∀ {v n : Nat}, n < 2^31 → v < n → ¬ Int32.ofNat n ≤ Int32.ofNat v ∧ ¬ Int32.ofNat v < 0 := by
    intro v n hn hv
    rw [Int32.le_iff_toInt_le, Int32.lt_iff_toInt_lt, Int32.toInt_ofNat_of_lt hn, Int32.toInt_ofNat_of_lt (by omega),
      Int32.toInt_zero]
    omega
  unfold FrameBuffer.skips
  simp [hlt hw hx, hlt hh hy]

theorem toNat_ofNat_int32 {n : Nat} (h : n < 2^31) : (Int32.ofNat n).toUInt32.toNat = n := by
  have h0 : (0 : Int32) ≤ Int32.ofNat n := by
    rw [Int32.le_iff_toInt_le, Int32.toInt_ofNat_of_lt h, Int32.toInt_zero]
    exact Int.natCast_nonneg n
  rw [Int32.toNat_toUInt32_of_le h0, Int32.toNatClampNeg_ofNat_of_lt h]

/-- a buffer of `2^30` pixels or more, whose sides are no negative `i32`, is written outside -/
theorem layer_outside (window : Window) (hl : s.lm.layers id = some l) (hw : l.buffer.width < 2^31)
    (hh : l.buffer.height < 2^31) (h30 : 2^30 ≤ l.buffer.width * l.buffer.height) : ∃ pixels,
    .layer id (2^30 - 1) ∈ (PixelAction.drawIter pixels).accesses window id s := by
  obtain ⟨hx, hy, hindex⟩ := rowMajor_last h30
  refine ⟨[(Int32.ofNat ((2^30 - 1) % l.buffer.width), Int32.ofNat ((2^30 - 1) / l.buffer.width), [])], ?_⟩
  show _ ∈ (s.lm.layers id).elim [] _
  rw [hl]
  refine List.mem_append_left _ ?_
  dsimp only
  rw [not_skips hw hh hx hy, if_neg Bool.false_ne_true, toNat_ofNat_int32 (by omega), toNat_ofNat_int32 (by omega),
    FrameBuffer.index, hindex]
  exact List.mem_singleton.mpr rfl

/-- in rows of `2^31` pixels or more, the third one starts with an index of the first -/
theorem not_apart {fb : FrameBuffer} (hw : 2^31 ≤ fb.width) (hw' : fb.width < 2^32) (hh : 2 < fb.height) :
    ¬ Apart fb.index fb.width fb.height := by
  intro hapart
  have hsame : fb.index (2 * fb.width - 2^32) 0 = fb.index 0 2 := by
    unfold FrameBuffer.index u32
    omega
  have := hapart 0 2 (2 * fb.width - 2^32) 0 (by omega) hh (by omega) (by omega) hsame
  omega

theorem fits_of_pixelsInside (hwindow : Created width height window) (hl : s.lm.layers id = some l)
    (hspans : l.Spans width (u32 (height + 30))) (hw : width < 2^32) (hh : height < 2^32)
    (h : PixelsInside window id (FrameBuffer.size width height / 4)
      (FrameBuffer.size width (u32 (height + 30)) / 4) s) :
    width * (height + 30) < 2^30 := by
  by_contra h30
  have hframe : width * height < 2^30 := by
    by_contra hframe
    have hin := h.inside [] s (.updateFrame fun _ => 0) rfl _ (frame_outside hwindow hl (by omega) _)
    have hlt := size_lt width height
    change 2^30 - 1 < FrameBuffer.size width height / 4 at hin
    omega
  -- then there is a pixel, and the height does not wrap
  have hpos : 0 < width := Nat.pos_of_ne_zero fun h0 => by
    rw [h0, Nat.zero_mul] at h30
    omega
  have hle : height ≤ width * height := Nat.le_mul_of_pos_left height hpos
  have hheight : u32 (height + 30) = height + 30 := Nat.mod_eq_of_lt (by omega)
  obtain ⟨-, -, hbw, hbh⟩ := hspans
  by_cases hsmall : width < 2^31
  · obtain ⟨pixels, hmem⟩ := layer_outside window hl (by rw [hbw]; exact hsmall)
      (by rw [hbh, hheight]; omega) (by rw [hbw, hbh, hheight]; omega)
    have hin := h.inside [] s _ rfl _ hmem rfl
    have hlt := size_lt width (u32 (height + 30))
    omega
  · exact not_apart (by omega) (by omega) (by omega) (h.layer_apart [] s l rfl hl)

end outside

theorem createBuffers_size {limit width height : Nat} {A : Allocator 0x1000 limit} {s s' : Heap}
    {frame buffer : Nat × Nat} (h : createBuffers A width height s = some (frame, buffer, s')) :
    frame.2 = FrameBuffer.size width height ∧ buffer.2 = FrameBuffer.size width (u32 (height + 30)) := by
  unfold createBuffers at h
  dsimp only at h
  split at h
  · cases h
  · cases h
    exact ⟨rfl, rfl⟩

/-- the window and the layer that `create_window` makes -/
theorem createWindow_created (g : Globals VirtioGpu) (title : String) (x y width height : Nat) :
    ∃ object window id g' l, g.createWindow title x y width height = (object, g') ∧
      g'.arena.map object = some (.window window) ∧ g'.map object = some id ∧ Created width height window ∧
      g'.screen.lm.layers id = some l ∧ l.Spans width (u32 (height + 30)) :=
  ⟨_, (Window.new width height).setTitle title, g.screen.currId, _, Layer.new x y width (u32 (height + 30)), rfl,
    Function.update_self .., Function.update_self .., ⟨rfl, rfl, rfl⟩, if_pos rfl, ⟨rfl, rfl, rfl, rfl⟩⟩

/-- **Where the pixel accesses stay inside**: with the title bar, the window has fewer than `2^30` pixels. -/
theorem pixels_inside_iff {limit : Nat} (A : Allocator 0x1000 limit) (heap heap' : Heap) (frame buffer : Nat × Nat)
    (g : Globals VirtioGpu) (title : String) (x y width height : UInt32)
    (hnew : createBuffers A width.toNat height.toNat heap = some (frame, buffer, heap')) :
    ∃ object window id g', g.createWindow title x.toNat y.toNat width.toNat height.toNat = (object, g') ∧
      g'.arena.map object = some (.window window) ∧ g'.map object = some id ∧
      (PixelsInside window id (frame.2 / 4) (buffer.2 / 4) g'.screen ↔ width.toNat * (height.toNat + 30) < 2^30) := by
  obtain ⟨hframe, hbuffer⟩ := createBuffers_size hnew
  obtain ⟨object, window, id, g', l, hg, harena, hid, hwindow, hl, hspans⟩ :=
    createWindow_created g title x.toNat y.toNat width.toNat height.toNat
  refine ⟨object, window, id, g', hg, harena, hid, ?_⟩
  rw [hframe, hbuffer]
  refine ⟨fits_of_pixelsInside hwindow hl hspans width.toNat_lt height.toNat_lt, fun hfits => ?_⟩
  refine pixelsInside_of_fits hfits hwindow ⟨fun l' hl' => ?_, rfl, rfl⟩
  obtain rfl := Option.some.inj (hl.symm.trans hl')
  exact hspans

def bumpBuffers : Allocator 0x1000 (2^56) := Allocator.bump 0x1000 (2^56) (by decide)

def emptyHeap : Heap := ⟨fun _ => 0, []⟩

/-- one row of two pixels under the title bar -/
theorem pixels_inside_iff_example : ∃ heap' object window id g',
    createBuffers bumpBuffers 2 1 emptyHeap = some ((0x1000, 8), (0x2000, 248), heap') ∧
      Globals.bare.createWindow "a" 0 0 2 1 = (object, g') ∧ g'.arena.map object = some (.window window) ∧
      g'.map object = some id ∧ PixelsInside window id 2 62 g'.screen := by
  have hnew : createBuffers bumpBuffers 2 1 emptyHeap = some ((0x1000, 8), (0x2000, 248), _) := rfl
  obtain ⟨object, window, id, g', hg, harena, hid, hiff⟩ := pixels_inside_iff bumpBuffers emptyHeap _ _ _ Globals.bare
    "a" 0 0 2 1 hnew
  exact ⟨_, object, window, id, g', hnew, hg, harena, hid, hiff.mpr (by decide)⟩

/-- The size of the frame wraps, and the number of its pixels is that of one row: the rows behind it are read
outside. -/
theorem pixels_overrun : ∃ heap' object window id g',
    createBuffers bumpBuffers 65536 16385 emptyHeap = some ((0x1000, 262144), (0x42000, 8126464), heap') ∧
      Globals.bare.createWindow "a" 0 0 65536 16385 = (object, g') ∧ g'.arena.map object = some (.window window) ∧
      g'.map object = some id ∧
      ∃ a ∈ (PixelAction.updateFrame fun _ => 0).accesses window id g'.screen,
        ¬ a.Inside id 65536 2031616 g'.screen.lm.painter.pixels := by
  have hnew : createBuffers bumpBuffers 65536 16385 emptyHeap = some ((0x1000, 262144), (0x42000, 8126464), _) := rfl
  obtain ⟨object, window, id, g', l, hg, harena, hid, hwindow, hl, -⟩ :=
    createWindow_created Globals.bare "a" 0 0 65536 16385
  refine ⟨_, object, window, id, g', hnew, hg, harena, hid, _, frame_outside hwindow hl (by decide) _, ?_⟩
  exact Nat.not_lt.mpr (by decide)

end Citron.Graphics
