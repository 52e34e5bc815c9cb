import Citron.Lib.Overlay
import Citron.Lib.Word
import Mathlib.Data.List.Nodup

/-!
# Layers

`src/graphics.rs`: layers, their stack (bottom first) and the drawing of them on a painter.  Coordinates
and sizes are `u32`: natural numbers, with the sums and products taken modulo `2^32`.  Of a layer only
what drawing reads is kept.  `none` is the `unwrap` of a layer that does not exist.
-/

namespace Citron.Graphics

/-- the trait `Painter` (`copy_buf` is not called by what follows) -/
class Painter (π : Type) where
  drawAt : Nat → Nat → UInt32 → π → π
  flush : π → π
  getWidth : π → Nat
  getHeight : π → Nat

structure FrameBuffer where
  /-- the words from the start of the buffer on -/
  buffer : Nat → UInt32
  width : Nat
  height : Nat

def FrameBuffer.getPixel (fb : FrameBuffer) (x y : Nat) : UInt32 :=
  fb.buffer (u32 (u32 (y * fb.width) + x))

structure Layer where
  buffer : FrameBuffer
  x : Nat
  y : Nat
  width : Nat
  height : Nat
  prevX : Nat
  prevY : Nat
  prevWidth : Nat
  prevHeight : Nat
  transparent : Option UInt32

namespace Layer

def updatePrevInfo (l : Layer) : Layer :=
  { l with prevX := l.x, prevY := l.y, prevWidth := l.width, prevHeight := l.height }

variable {π : Type} [Painter π]

/-- the pixel of the display at `(x, y)`, unless it is transparent -/
def drawPixel (l : Layer) (x y : Nat) (painter : π) : π :=
  let pixel := l.buffer.getPixel (x - l.x) (y - l.y)
  match l.transparent with
  | some transparent => if pixel = transparent then painter else Painter.drawAt x y pixel painter
  | none => Painter.drawAt x y pixel painter

/-- `for y in y_start..y_end`, `for x in x_start..x_end` -/
def drawRows (l : Layer) (xStart xEnd yStart yEnd : Nat) (painter : π) : π :=
  (List.range' yStart (yEnd - yStart)).foldl (fun painter y =>
    (List.range' xStart (xEnd - xStart)).foldl (fun painter x => l.drawPixel x y painter) painter) painter

def transferBufferRange (l : Layer) (x y width height : Nat) (painter : π) : π :=
  let xStart := max x l.x
  let xEnd := min (u32 (x + width)) (min (u32 (l.x + l.width)) (Painter.getWidth painter))
  let yStart := max y l.y
  let yEnd := min (u32 (y + height)) (min (u32 (l.y + l.height)) (Painter.getHeight painter))
  l.drawRows xStart xEnd yStart yEnd painter

end Layer

abbrev LayerId := Nat

structure LayerManager (π : Type) where
  painter : π
  layers : LayerId → Option Layer
  layerStack : List LayerId

namespace LayerManager
variable {π : Type}

def setPainter (lm : LayerManager π) (p : π) : LayerManager π := { lm with painter := p }

def setLayer (lm : LayerManager π) (id : LayerId) (l : Layer) : LayerManager π :=
  { lm with layers := fun n => if n = id then some l else lm.layers n }

/-! ## the stack -/

/-- the first index of `id` in the stack -/
def position (id : LayerId) (stack : List LayerId) : Option Nat := stack.findIdx? (· == id)

def hideLayer (lm : LayerManager π) (id : LayerId) : LayerManager π :=
  match position id lm.layerStack with
  | some index => { lm with layerStack := lm.layerStack.eraseIdx index }
  | none => lm

/-- `none`: `Vec::insert` past the end, when the layer is already there and is moved to the top -/
def moveLayer (lm : LayerManager π) (id : LayerId) (newHeight : Int) : Option (LayerManager π) :=
  if newHeight < 0 then some (lm.hideLayer id)
  else
    let newHeight := min newHeight.toNat lm.layerStack.length
    match position id lm.layerStack with
    | none => some { lm with layerStack := lm.layerStack.insertIdx newHeight id }
    | some index =>
      let stack := lm.layerStack.eraseIdx index
      if newHeight ≤ stack.length then some { lm with layerStack := stack.insertIdx newHeight id }
      else none

/-! ## `update` -/

variable [Painter π]

/-- the loop up to `id`: the layers below it in the old rectangle, `id` in the new one; the index of `id`
comes back, or `0` when it is not in the stack -/
def drawUpTo (id : LayerId) (prevX prevY prevWidth prevHeight x y width height : Nat) :
    List LayerId → Nat → LayerManager π → Option (Nat × LayerManager π)
  | [], _, lm => some (0, lm)
  | layerId :: rest, idx, lm =>
    (lm.layers layerId).bind fun layer =>
      if layerId = id then
        let layer := layer.updatePrevInfo
        let lm := lm.setLayer layerId layer
        some (idx, lm.setPainter (layer.transferBufferRange x y width height lm.painter))
      else
        drawUpTo id prevX prevY prevWidth prevHeight x y width height rest (idx + 1)
          (lm.setPainter (layer.transferBufferRange prevX prevY prevWidth prevHeight lm.painter))

/-- the loop over the layers above, each in full -/
def drawFull : List LayerId → LayerManager π → Option (LayerManager π)
  | [], lm => some lm
  | layerId :: rest, lm =>
    (lm.layers layerId).bind fun layer =>
      drawFull rest
        (lm.setPainter (layer.transferBufferRange layer.x layer.y layer.width layer.height lm.painter))

def update (lm : LayerManager π) (id : LayerId) : Option (LayerManager π) :=
  (lm.layers id).bind fun layer =>
    (drawUpTo id layer.prevX layer.prevY layer.prevWidth layer.prevHeight layer.x layer.y layer.width
        layer.height lm.layerStack 0 lm).bind fun (index, lm) =>
      (drawFull (lm.layerStack.drop (index + 1)) lm).map fun lm => lm.setPainter (Painter.flush lm.painter)

end LayerManager

end Citron.Graphics
