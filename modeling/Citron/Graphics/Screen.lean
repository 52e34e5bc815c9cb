import Citron.Graphics.Redraw

/-!
# The screen

`src/graphics.rs`: the rest of the layer manager, and `graphics::init`.  The layers keep the size of the display
they were created for, beside what drawing reads.  What an object draws into the buffer of its layer is a
parameter, except for the mouse.

* `createLayer`, `moveRel`, `moveAbs`, `updateBuffer`   on one layer;
* `drawAll`                                             every layer of the stack, in full;
* `init`                                                the mouse above the desktop.
-/

namespace Citron.Graphics
open Overlay

/-! ## one layer -/

/-- `draw_to` of an object: the words of the buffer, from the place of the layer and the buffer before -/
abbrev Drawing := Nat → Nat → FrameBuffer → Nat → UInt32

/-- all zero -/
def FrameBuffer.new (width height : Nat) : FrameBuffer := ⟨fun _ => 0, width, height⟩

def FrameBuffer.drawAt (x y : Nat) (pixel : UInt32) (fb : FrameBuffer) : FrameBuffer :=
  { fb with buffer := Function.update fb.buffer (u32 (u32 (y * fb.width) + x)) pixel }

/-- of a coordinate: not below zero and not above the size of the display -/
def clamp (v size : Int32) : Int32 := if v < 0 then 0 else if size < v then size else v

namespace Layer

def new (x y width height : Nat) : Layer := ⟨.new width height, x, y, width, height, 0, 0, 0, 0, none⟩

def setTransparentColor (color : UInt32) (l : Layer) : Layer := { l with transparent := some color }

/-- `display` is the layer's `display_width` and `display_height` -/
def moveAbs (display : Nat × Nat) (x y : Int32) (l : Layer) : Layer :=
  { l with
    x := (clamp x (Int32.ofNat display.1)).toUInt32.toNat
    y := (clamp y (Int32.ofNat display.2)).toUInt32.toNat }

def moveRel (display : Nat × Nat) (x y : Int32) (l : Layer) : Layer :=
  { l with
    x := (clamp (Int32.ofNat l.x + x) (Int32.ofNat display.1)).toUInt32.toNat
    y := (clamp (Int32.ofNat l.y + y) (Int32.ofNat display.2)).toUInt32.toNat }

def drawToBuffer (draw : Drawing) (l : Layer) : Layer :=
  { l with buffer := { l.buffer with buffer := draw l.x l.y l.buffer } }

end Layer

/-! ## all layers -/

/-- the layer manager with its `curr_id`, and for each layer the size of the display it was created for -/
structure Screen (π : Type) where
  lm : LayerManager π
  currId : LayerId
  display : LayerId → Nat × Nat

namespace Screen
variable {π : Type}

def withLm (s : Screen π) (lm : LayerManager π) : Screen π := { s with lm }

/-- `none` is the `unwrap` of a layer that does not exist -/
def change (id : LayerId) (f : Layer → Layer) (s : Screen π) : Option (Screen π) :=
  (s.lm.layers id).map fun l => s.withLm (s.lm.setLayer id (f l))

def moveRel (id : LayerId) (x y : Int32) (s : Screen π) : Option (Screen π) :=
  s.change id (Layer.moveRel (s.display id) x y)

def moveAbs (id : LayerId) (x y : Int32) (s : Screen π) : Option (Screen π) :=
  s.change id (Layer.moveAbs (s.display id) x y)

def updateBuffer (id : LayerId) (draw : Drawing) (s : Screen π) : Option (Screen π) :=
  s.change id (Layer.drawToBuffer draw)

def moveLayer (id : LayerId) (newHeight : Int) (s : Screen π) : Option (Screen π) :=
  (s.lm.moveLayer id newHeight).map s.withLm

def hideLayer (id : LayerId) (s : Screen π) : Screen π := s.withLm (s.lm.hideLayer id)

variable [Painter π]

def new (painter : π) : Screen π := ⟨⟨painter, fun _ => none, []⟩, 0, fun _ => (0, 0)⟩

def createLayer (x y width height : Nat) (s : Screen π) : Screen π where
  lm := s.lm.setLayer s.currId (.new x y width height)
  currId := s.currId + 1
  display := Function.update s.display s.currId (Painter.getWidth s.lm.painter, Painter.getHeight s.lm.painter)

def update (id : LayerId) (s : Screen π) : Option (Screen π) := (s.lm.update id).map s.withLm

end Screen

namespace LayerManager
variable {π : Type} [Painter π]

def drawAllLoop (draw : LayerId → Drawing) : List LayerId → LayerManager π → Option (LayerManager π)
  | [], lm => some lm
  | layerId :: rest, lm =>
    (lm.layers layerId).bind fun layer =>
      let layer := layer.drawToBuffer (draw layerId)
      drawAllLoop draw rest ((lm.setLayer layerId layer).setPainter
        (layer.transferBufferRange layer.x layer.y layer.width layer.height lm.painter))

def drawAll (draw : LayerId → Drawing) (lm : LayerManager π) : Option (LayerManager π) :=
  (drawAllLoop draw lm.layerStack lm).map fun lm => lm.setPainter (Painter.flush lm.painter)

end LayerManager

/-! ## the mouse -/

def mouseCursor : List (List Char) := [
  ['.', '.', '.', '.', '.', '.', '.', '.', '.', '.', '.', '.', '.', '.', '.', '.'],
  ['.', '.', '.', '.', '.', '.', '.', '.', '.', '.', '.', '.', '.', '.', '.', '.'],
  ['.', '.', '#', '.', '.', '.', '.', '.', '.', '.', '.', '.', '.', '.', '.', '.'],
  ['.', '.', '#', '#', '.', '.', '.', '.', '.', '.', '.', '.', '.', '.', '.', '.'],
  ['.', '.', '#', '=', '#', '.', '.', '.', '.', '.', '.', '.', '.', '.', '.', '.'],
  ['.', '.', '#', '=', '=', '#', '.', '.', '.', '.', '.', '.', '.', '.', '.', '.'],
  ['.', '.', '#', '=', '=', '=', '#', '.', '.', '.', '.', '.', '.', '.', '.', '.'],
  ['.', '.', '#', '=', '=', '=', '=', '#', '.', '.', '.', '.', '.', '.', '.', '.'],
  ['.', '.', '#', '=', '=', '=', '=', '=', '#', '.', '.', '.', '.', '.', '.', '.'],
  ['.', '.', '#', '=', '=', '=', '=', '=', '=', '#', '.', '.', '.', '.', '.', '.'],
  ['.', '.', '#', '=', '=', '=', '=', '=', '=', '=', '#', '.', '.', '.', '.', '.'],
  ['.', '.', '#', '=', '=', '=', '=', '=', '=', '=', '=', '#', '.', '.', '.', '.'],
  ['.', '.', '#', '=', '=', '=', '=', '=', '=', '=', '=', '=', '#', '.', '.', '.'],
  ['.', '.', '#', '=', '=', '=', '=', '=', '=', '=', '=', '=', '=', '#', '.', '.'],
  ['.', '.', '#', '=', '=', '=', '=', '=', '=', '#', '#', '#', '#', '#', '.', '.'],
  ['.', '.', '#', '=', '=', '=', '#', '=', '=', '#', '.', '.', '.', '.', '.', '.'],
  ['.', '.', '#', '=', '=', '#', '.', '#', '=', '=', '#', '.', '.', '.', '.', '.'],
  ['.', '.', '#', '=', '#', '.', '.', '#', '=', '=', '#', '.', '.', '.', '.', '.'],
  ['.', '.', '#', '#', '.', '.', '.', '.', '#', '=', '=', '#', '.', '.', '.', '.'],
  ['.', '.', '.', '.', '.', '.', '.', '.', '#', '=', '=', '#', '.', '.', '.', '.'],
  ['.', '.', '.', '.', '.', '.', '.', '.', '.', '#', '#', '.', '.', '.', '.', '.'],
  ['.', '.', '.', '.', '.', '.', '.', '.', '.', '.', '.', '.', '.', '.', '.', '.'],
  ['.', '.', '.', '.', '.', '.', '.', '.', '.', '.', '.', '.', '.', '.', '.', '.']]

/-- `draw_to` of the mouse; where its layer stands is compared with the size of its buffer -/
def Mouse.drawTo (transparent : UInt32) : Drawing := fun x y buffer =>
  (mouseCursor.zipIdx.foldl (fun fb (s, ty) => s.zipIdx.foldl (fun fb (ch, tx) =>
    if buffer.width ≤ u32 (x + tx) ∨ buffer.height ≤ u32 (y + ty) then fb
    else match ch with
      | '.' => fb.drawAt tx ty transparent
      | '#' => fb.drawAt tx ty 0xff000000
      | '=' => fb.drawAt tx ty 0xffffffff
      | _ => fb) fb) buffer).buffer

/-! ## `graphics::init` -/

def mouseTransparentColor : UInt32 := 0xff00ff00

def mouseLayerId : LayerId := 0
def desktopLayerId : LayerId := 1

/-- `draw` gives what the objects of the two layers draw -/
def Screen.init {π : Type} [Painter π] (painter : π) (draw : LayerId → Drawing) : Option (Screen π) :=
  let s := (Screen.new painter).createLayer 0 0 16 23
  let s := s.createLayer 0 0 (Painter.getWidth painter) (Painter.getHeight painter)
  (s.change mouseLayerId (Layer.setTransparentColor mouseTransparentColor)).bind fun s =>
    (s.moveLayer mouseLayerId (2^31 - 1)).bind fun s =>
      (s.moveLayer desktopLayerId 0).bind fun s => (s.lm.drawAll draw).map s.withLm

/-! ## what the operations do -/

/-- a coordinate stays on the display -/
theorem clamp_le (v : Int32) {d : Nat} (hd : d < 2^31) : (clamp v (Int32.ofNat d)).toUInt32.toNat ≤ d := by
  have hsize := Int32.toInt_ofNat_of_lt hd
  have hzero : (0 : Int32) ≤ Int32.ofNat d := by
    rw [Int32.le_iff_toInt_le, hsize, Int32.toInt_zero]
    exact Int.natCast_nonneg d
  unfold clamp
  split
  · exact Nat.zero_le d
  · rename_i hneg
    split
    · rw [Int32.toNat_toUInt32_of_le hzero, Int32.toNatClampNeg_ofNat_of_lt hd]
    · rename_i hlt
      have hv : (0 : Int32) ≤ v := Int32.not_lt.mp hneg
      have hle := Int32.le_iff_toInt_le.mp (Int32.not_lt.mp hlt)
      rw [Int32.toNat_toUInt32_of_le hv]
      have := Int32.cast_toNatClampNeg v hv
      omega

section
variable {π γ : Type} [Painter π] (K : Canvas π γ) {w h : Nat}

/-- `update` of a layer that is not in the stack: its old rectangle is drawn over -/
theorem update_hidden {lm : LayerManager π} {id : LayerId} {layer : Layer} (hs : Sized lm.painter w h)
    (hid : id ∉ lm.layerStack) (hlayer : lm.layers id = some layer) (hfit : StackFits lm.layers lm.layerStack)
    (hpx : layer.prevX + layer.prevWidth < 2^32) (hpy : layer.prevY + layer.prevHeight < 2^32) :
    ∃ p, lm.update id = some (lm.setPainter (Painter.flush p)) ∧ Sized p w h ∧
      ∀ q : Pixel w h,
        (inRect layer.prevX layer.prevY layer.prevWidth layer.prevHeight q = false →
          ∀ c, comp lm.layers lm.layerStack q = some c → K.frame lm.painter q = K.encode c) →
        ∀ c, comp lm.layers lm.layerStack q = some c → K.frame p q = K.encode c := by
  obtain ⟨p₁, hd₁, hs₁, hf₁⟩ := drawBelow_frame K layer.x layer.y layer.width layer.height hpx hpy []
    lm.layerStack hid 0 hs hfit
  rw [List.append_nil] at hd₁
  have hfit₁ : StackFits (lm.setPainter p₁).layers (lm.layerStack.drop 1) := fun a ha =>
    hfit a (List.mem_of_mem_drop ha)
  obtain ⟨p₂, hd₂, hs₂, hf₂⟩ := drawFull_frame K (lm.layerStack.drop 1)
    (show Sized (lm.setPainter p₁).painter w h from hs₁) hfit₁
  refine ⟨p₂, ?_, hs₂, fun q hf c hc => ?_⟩
  · unfold LayerManager.update
    rw [hlayer, Option.bind_some, hd₁]
    show Option.map _ (LayerManager.drawFull (lm.layerStack.drop 1) (lm.setPainter p₁)) = _
    rw [hd₂]
    rfl
  · have hdrop : (shownStack K lm.layers (lm.layerStack.drop 1) : List (Image (Pixel w h) γ))
        = (shownStack K lm.layers lm.layerStack).drop 1 := by
      unfold shownStack
      rw [List.map_drop]
    rw [hf₂]
    show paint (K.frame p₁) (flat (shownStack K lm.layers (lm.layerStack.drop 1))) q = _
    rw [hf₁, hdrop]
    refine redraw_all _ (fun hR => hf hR c hc) ?_
    rw [flat_shownStack]
    show (comp lm.layers lm.layerStack q).map K.encode = _
    rw [hc]
    rfl

/-- the layers of the stack with what their objects drew -/
def drawn (draw : LayerId → Drawing) (stack : List LayerId) (layers : LayerId → Option Layer) :
    LayerId → Option Layer :=
  fun id => if id ∈ stack then (layers id).map (Layer.drawToBuffer (draw id)) else layers id

theorem drawAllLoop_frame (draw : LayerId → Drawing) (stack : List LayerId) : ∀ {lm : LayerManager π},
    stack.Nodup → Sized lm.painter w h → StackFits lm.layers stack →
    ∃ lm', LayerManager.drawAllLoop draw stack lm = some lm' ∧ lm'.layerStack = lm.layerStack ∧
      lm'.layers = drawn draw stack lm.layers ∧ Sized lm'.painter w h ∧
      (K.frame lm'.painter : Pixel w h → γ)
        = paint (K.frame lm.painter) (flat (shownStack K (drawn draw stack lm.layers) stack)) := by
  induction stack with
  | nil =>
    intro lm _ hs _
    exact ⟨lm, rfl, rfl, funext fun id => (if_neg List.not_mem_nil).symm, hs, rfl⟩
  | cons a stack ih =>
    intro lm hnd hs hfit
    obtain ⟨ha, hnd⟩ := List.nodup_cons.mp hnd
    obtain ⟨⟨l, hl, hlf⟩, hfit⟩ := List.forall_mem_cons.mp hfit
    have hlf' : (l.drawToBuffer (draw a)).Fits := ⟨hlf.x, hlf.y⟩
    obtain ⟨hs₁, hf₁⟩ := transfer_frame K (l := l.drawToBuffer (draw a)) hs hlf' hlf'.x hlf'.y
    -- the layers still to be drawn are as they were
    have hfit₁ : StackFits (lm.setLayer a (l.drawToBuffer (draw a))).layers stack := by
      intro b hb
      show ∃ l', (if b = a then _ else lm.layers b) = some l' ∧ l'.Fits
      rw [if_neg (ne_of_mem_of_not_mem hb ha)]
      exact hfit b hb
    obtain ⟨lm', hd, hstack, hlayers, hs₂, hf₂⟩ := ih hnd (show Sized ((lm.setLayer a (l.drawToBuffer
      (draw a))).setPainter _).painter w h from hs₁) hfit₁
    have hall : drawn draw stack (lm.setLayer a (l.drawToBuffer (draw a))).layers = drawn draw (a :: stack) lm.layers := by
      funext b
      unfold drawn
      show (if b ∈ stack then (if b = a then _ else lm.layers b).map _ else if b = a then _ else lm.layers b) = _
      by_cases hb : b = a
      · subst hb
        rw [if_neg ha, if_pos rfl, if_pos List.mem_cons_self, hl]
        rfl
      · simp [hb]
    refine ⟨lm', ?_, hstack, hlayers.trans hall, hs₂, hf₂.trans ?_⟩
    · show (lm.layers a).bind _ = _
      rw [hl]
      exact hd
    · have himg : shown K (layerImage (drawn draw (a :: stack) lm.layers) a : Image (Pixel w h) UInt32)
          = shown K (l.drawToBuffer (draw a)).image := by
        rw [layerImage_eq]
        unfold drawn
        rw [if_pos List.mem_cons_self, hl]
        rfl
      show paint (K.frame (Layer.transferBufferRange _ _ _ _ _ lm.painter))
        (flat (shownStack K (drawn draw stack (lm.setLayer a (l.drawToBuffer (draw a))).layers) stack)) = _
      rw [hf₁, within_shown_image, paint_cons, hall, ← himg]
      rfl

/-- every layer that `update` goes over exists -/
theorem drawFull_exists {stack : List LayerId} : ∀ {lm lm' : LayerManager π},
    LayerManager.drawFull stack lm = some lm' → ∀ a ∈ stack, ∃ l, lm.layers a = some l := by
  induction stack with
  | nil => exact fun _ a ha => absurd ha List.not_mem_nil
  | cons b stack ih =>
    intro lm lm' hd a ha
    obtain ⟨l, hl, hd⟩ := Option.bind_eq_some_iff.mp hd
    rcases List.mem_cons.mp ha with rfl | ha
    · exact ⟨l, hl⟩
    · exact ih hd a ha

theorem drawUpTo_exists {id : LayerId} {prevX prevY prevWidth prevHeight x y width height : Nat}
    {stack : List LayerId} : ∀ {idx index : Nat} {lm lm' : LayerManager π},
    LayerManager.drawUpTo id prevX prevY prevWidth prevHeight x y width height stack idx lm = some (index, lm') →
    lm'.layerStack = lm.layerStack ∧ (∀ a, (∃ l, lm'.layers a = some l) → ∃ l, lm.layers a = some l) ∧
      ∃ lo hi, stack = lo ++ hi ∧ (∀ a ∈ lo, ∃ l, lm.layers a = some l) ∧ (hi = [] ∨ index + 1 = idx + lo.length) := by
  induction stack with
  | nil =>
    intro idx index lm lm' hd
    cases hd
    exact ⟨rfl, fun _ h => h, [], [], rfl, fun a ha => absurd ha List.not_mem_nil, .inl rfl⟩
  | cons b stack ih =>
    intro idx index lm lm' hd
    obtain ⟨l, hl, hd⟩ := Option.bind_eq_some_iff.mp hd
    dsimp only at hd
    split at hd
    · cases hd
      refine ⟨rfl, fun a ⟨l', hl'⟩ => ?_, [b], stack, rfl, fun a ha => ?_, .inr rfl⟩
      · by_cases e : a = b
        · exact ⟨l, e ▸ hl⟩
        · change (if a = b then _ else lm.layers a) = some l' at hl'
          rw [if_neg e] at hl'
          exact ⟨l', hl'⟩
      · rw [List.mem_singleton.mp ha]
        exact ⟨l, hl⟩
    · obtain ⟨hstack, hback, lo, hi, rfl, hlo, hidx⟩ := ih hd
      refine ⟨hstack, hback, b :: lo, hi, rfl, fun a ha => ?_, ?_⟩
      · rcases List.mem_cons.mp ha with rfl | ha
        · exact ⟨l, hl⟩
        · exact hlo a ha
      · rcases hidx with e | e
        · exact .inl e
        · refine .inr ?_
          rw [List.length_cons]
          omega

theorem update_exists {lm lm' : LayerManager π} {id : LayerId} (h : lm.update id = some lm') :
    (∃ l, lm.layers id = some l) ∧ ∀ a ∈ lm.layerStack, ∃ l, lm.layers a = some l := by
  obtain ⟨layer, hlayer, h⟩ := Option.bind_eq_some_iff.mp h
  obtain ⟨⟨index, lm₁⟩, hd, h⟩ := Option.bind_eq_some_iff.mp h
  obtain ⟨lm₂, hfull, -⟩ := Option.map_eq_some_iff.mp h
  obtain ⟨hstack, hback, lo, hi, he, hlo, hidx⟩ := drawUpTo_exists hd
  refine ⟨⟨layer, hlayer⟩, fun a ha => ?_⟩
  rw [he] at ha
  rcases List.mem_append.mp ha with ha | ha
  · exact hlo a ha
  · rcases hidx with e | e
    · rw [e] at ha
      exact absurd ha List.not_mem_nil
    · refine hback a (drawFull_exists hfull a ?_)
      rw [hstack, he, e, Nat.zero_add, List.drop_left]
      exact ha

end

/-- a layer is in the stack at most once -/
theorem moveLayer_nodup {π : Type} {lm lm' : LayerManager π} {id : LayerId} {newHeight : Int}
    (hnd : lm.layerStack.Nodup) (hm : lm.moveLayer id newHeight = some lm') : lm'.layerStack.Nodup := by
  have hinsert : ∀ {stack : List LayerId} {n : Nat}, stack.Nodup → id ∉ stack → n ≤ stack.length →
      (stack.insertIdx n id).Nodup := by
    intro stack n hs hid hn
    exact (List.perm_insertIdx id stack hn).nodup_iff.mpr (List.nodup_cons.mpr ⟨hid, hs⟩)
  have hnone : LayerManager.position id lm.layerStack = none → id ∉ lm.layerStack := by
    intro hp hm
    exact absurd (List.findIdx?_eq_none_iff.mp hp id hm) (by simp)
  have herase : ∀ {index}, LayerManager.position id lm.layerStack = some index →
      (lm.layerStack.eraseIdx index).Nodup ∧ id ∉ lm.layerStack.eraseIdx index := by
    intro index hp
    obtain ⟨hlt, hat, -⟩ := List.findIdx?_eq_some_iff_getElem.mp hp
    have hid : lm.layerStack[index] = id := by simpa using hat
    refine ⟨hnd.sublist (List.eraseIdx_sublist ..), fun hm => ?_⟩
    obtain ⟨j, hj, hne, he⟩ := List.mem_eraseIdx_iff_getElem.mp hm
    exact hne ((List.Nodup.getElem_inj_iff hnd).mp (he.trans hid.symm))
  unfold LayerManager.moveLayer at hm
  split at hm
  · cases hm
    unfold LayerManager.hideLayer
    split
    · exact (herase ‹_›).1
    · exact hnd
  · dsimp only at hm
    split at hm
    · cases hm
      exact hinsert hnd (hnone ‹_›) (Nat.min_le_right ..)
    · split at hm
      · cases hm
        obtain ⟨h1, h2⟩ := herase ‹_›
        exact hinsert h1 h2 ‹_›
      · cases hm

end Citron.Graphics
