import Citron.Graphics.Display

/-!
# Incremental redraw

`update` redraws one layer that has changed: the layers below it in its old rectangle, the layer, and the
layers above in full.  `update_frame` says that the frame is then the composition of the whole stack.

* `Layer.image`        a layer as an image over the display;
* `comp`               the composition of a stack;
* `transfer_frame`     `transfer_buffer_range` paints the layer's image in the rectangle, and nothing else.
-/

namespace Citron.Graphics
open Overlay

/-- the pixels of a display -/
abbrev Pixel (w h : Nat) := Fin w × Fin h

section canvas
variable {π γ : Type} [Painter π] (K : Canvas π γ)

def Canvas.frame (p : π) {w h : Nat} (q : Pixel w h) : γ := K.cell p q.1.val q.2.val

structure Sized (p : π) (w h : Nat) : Prop where
  width : Painter.getWidth p = w
  height : Painter.getHeight p = h

/-! ## layers as images -/

/-- the colour of a layer at a pixel of the display inside its rectangle, unless it is transparent -/
def Layer.colour (l : Layer) (x y : Nat) : Option UInt32 :=
  let pixel := l.buffer.getPixel (x - l.x) (y - l.y)
  if l.transparent = some pixel then none else some pixel

def inRect (x y width height : Nat) {w h : Nat} (q : Pixel w h) : Bool :=
  decide (x ≤ q.1.val ∧ q.1.val < x + width ∧ y ≤ q.2.val ∧ q.2.val < y + height)

def Layer.image (l : Layer) {w h : Nat} : Image (Pixel w h) UInt32 :=
  within (inRect l.x l.y l.width l.height) fun q => l.colour q.1.val q.2.val

/-- the sums of the layer's coordinates are `u32` -/
structure Layer.Fits (l : Layer) : Prop where
  x : l.x + l.width < 2^32
  y : l.y + l.height < 2^32

/-- the image as the painter shows it -/
def shown {w h : Nat} (a : Image (Pixel w h) UInt32) : Image (Pixel w h) γ := fun q => (a q).map K.encode

/-! ## drawing a layer -/

variable {l : Layer} {w h : Nat}

theorem drawPixel_eq (l : Layer) (x y : Nat) (p : π) :
    l.drawPixel x y p = match l.colour x y with
      | some c => Painter.drawAt x y c p
      | none => p := by
  unfold Layer.drawPixel Layer.colour
  cases ht : l.transparent with
  | none => rfl
  | some t =>
    by_cases hc : l.buffer.getPixel (x - l.x) (y - l.y) = t
    · simp [hc]
    · simp [hc, Ne.symm hc]

include K in
theorem drawPixel_sized {p : π} (hp : Sized p w h) (x y : Nat) : Sized (l.drawPixel x y p) w h := by
  rw [drawPixel_eq]
  cases l.colour x y with
  | none => exact hp
  | some c => exact ⟨(K.getWidth_drawAt ..).trans hp.width, (K.getHeight_drawAt ..).trans hp.height⟩

/-- the layer's colour over the cell -/
def shade (K : Canvas π γ) (l : Layer) (q : Pixel w h) (c : γ) : γ :=
  ((l.colour q.1.val q.2.val).map K.encode).getD c

theorem shade_shade (q : Pixel w h) (c : γ) : shade K l q (shade K l q c) = shade K l q c := by
  unfold shade
  cases l.colour q.1.val q.2.val <;> rfl

theorem drawPixel_frame {p : π} (hp : Sized p w h) {x y : Nat} (hx : x < w) (hy : y < h) (q : Pixel w h) :
    K.frame (l.drawPixel x y p) q
      = if q.1.val = x ∧ q.2.val = y then shade K l q (K.frame p q) else K.frame p q := by
  rw [drawPixel_eq]
  unfold shade
  by_cases hq : q.1.val = x ∧ q.2.val = y
  · rw [if_pos hq, hq.1, hq.2]
    cases l.colour x y with
    | none => rfl
    | some c =>
      refine (K.cell_drawAt p x y c _ _ (hp.width ▸ hx) (hp.height ▸ hy) (hp.width ▸ q.1.isLt)
        (hp.height ▸ q.2.isLt)).trans ?_
      rw [if_pos hq]
      rfl
  · rw [if_neg hq]
    cases l.colour x y with
    | none => rfl
    | some c =>
      refine (K.cell_drawAt p x y c _ _ (hp.width ▸ hx) (hp.height ▸ hy) (hp.width ▸ q.1.isLt)
        (hp.height ▸ q.2.isLt)).trans ?_
      rw [if_neg hq]
      rfl

/-- one row -/
theorem drawRow_frame {y : Nat} (hy : y < h) (xs : List Nat) : ∀ {p : π}, Sized p w h →
    (∀ x ∈ xs, x < w) →
    Sized (xs.foldl (fun p x => l.drawPixel x y p) p) w h ∧
    ∀ q : Pixel w h, K.frame (xs.foldl (fun p x => l.drawPixel x y p) p) q
      = if q.1.val ∈ xs ∧ q.2.val = y then shade K l q (K.frame p q) else K.frame p q := by
  induction xs with
  | nil => intro p hp _; exact ⟨hp, fun q => by simp⟩
  | cons x xs ih =>
    intro p hp hxs
    obtain ⟨hx, hxs⟩ := List.forall_mem_cons.mp hxs
    obtain ⟨hs, hf⟩ := ih (drawPixel_sized K hp x y) hxs
    refine ⟨hs, fun q => ?_⟩
    show K.frame (xs.foldl (fun p x => l.drawPixel x y p) (l.drawPixel x y p)) q = _
    rw [hf, drawPixel_frame K hp hx hy]
    by_cases hy' : q.2.val = y
    · by_cases h1 : q.1.val = x
      · simp [h1, hy', shade_shade]
      · simp [h1, hy']
    · simp [hy']

/-- row by row -/
theorem drawRows_frame {xs : List Nat} (hxs : ∀ x ∈ xs, x < w) (ys : List Nat) : ∀ {p : π}, Sized p w h →
    (∀ y ∈ ys, y < h) →
    Sized (ys.foldl (fun p y => xs.foldl (fun p x => l.drawPixel x y p) p) p) w h ∧
    ∀ q : Pixel w h, K.frame (ys.foldl (fun p y => xs.foldl (fun p x => l.drawPixel x y p) p) p) q
      = if q.1.val ∈ xs ∧ q.2.val ∈ ys then shade K l q (K.frame p q) else K.frame p q := by
  induction ys with
  | nil => intro p hp _; exact ⟨hp, fun q => by simp⟩
  | cons y ys ih =>
    intro p hp hys
    obtain ⟨hy, hys⟩ := List.forall_mem_cons.mp hys
    obtain ⟨hs₁, hf₁⟩ := drawRow_frame K hy xs hp hxs
    obtain ⟨hs, hf⟩ := ih hs₁ hys
    refine ⟨hs, fun q => ?_⟩
    refine (hf q).trans ?_
    rw [hf₁]
    by_cases hx' : q.1.val ∈ xs
    · by_cases h1 : q.2.val = y
      · simp [hx', h1, shade_shade]
      · simp [hx', h1]
    · simp [hx']

/-- the coordinates of the loop -/
theorem mem_range'_sub {a b n : Nat} : n ∈ List.range' a (b - a) ↔ a ≤ n ∧ n < b := by
  rw [List.mem_range'_1]
  omega

/-- `transfer_buffer_range` paints the image of the layer in the rectangle -/
theorem transfer_frame {p : π} (hp : Sized p w h) (hl : l.Fits) {x y width height : Nat}
    (hx : x + width < 2^32) (hy : y + height < 2^32) :
    Sized (l.transferBufferRange x y width height p) w h ∧
    (K.frame (l.transferBufferRange x y width height p) : Pixel w h → γ)
      = paint (K.frame p) (within (inRect x y width height) (shown K l.image)) := by
  have e1 : u32 (x + width) = x + width := Nat.mod_eq_of_lt hx
  have e2 : u32 (l.x + l.width) = l.x + l.width := Nat.mod_eq_of_lt hl.x
  have e3 : u32 (y + height) = y + height := Nat.mod_eq_of_lt hy
  have e4 : u32 (l.y + l.height) = l.y + l.height := Nat.mod_eq_of_lt hl.y
  unfold Layer.transferBufferRange Layer.drawRows
  dsimp only
  rw [e1, e2, e3, e4, hp.width, hp.height]
  have hxs : ∀ n ∈ List.range' (max x l.x) (min (x + width) (min (l.x + l.width) w) - max x l.x), n < w := by
    intro n hn
    have := (mem_range'_sub.mp hn).2
    omega
  have hys : ∀ n ∈ List.range' (max y l.y) (min (y + height) (min (l.y + l.height) h) - max y l.y), n < h := by
    intro n hn
    have := (mem_range'_sub.mp hn).2
    omega
  obtain ⟨hs, hf⟩ := drawRows_frame K (l := l) hxs _ hp hys
  refine ⟨hs, funext fun q => (hf q).trans ?_⟩
  have hq1 := q.1.isLt
  have hq2 := q.2.isLt
  show _ = (if inRect x y width height q then (l.image q).map K.encode else none).getD (K.frame p q)
  unfold Layer.image within inRect shade
  simp only [mem_range'_sub, decide_eq_true_eq]
  by_cases hr : x ≤ q.1.val ∧ q.1.val < x + width ∧ y ≤ q.2.val ∧ q.2.val < y + height
  · rw [if_pos hr]
    by_cases hi : l.x ≤ q.1.val ∧ q.1.val < l.x + l.width ∧ l.y ≤ q.2.val ∧ q.2.val < l.y + l.height
    · rw [if_pos hi, if_pos (by omega)]
    · rw [if_neg hi, if_neg (by omega)]
      rfl
  · rw [if_neg hr, if_neg (by omega)]
    rfl

/-! ## drawing the stack -/

def layerImage (layers : LayerId → Option Layer) {w h : Nat} (id : LayerId) : Image (Pixel w h) UInt32 :=
  match layers id with
  | some l => l.image
  | none => fun _ => none

/-- **The composition**: at each pixel the colour of the highest layer that shows there. -/
def comp (layers : LayerId → Option Layer) (stack : List LayerId) {w h : Nat} : Image (Pixel w h) UInt32 :=
  flat (stack.map (layerImage layers))

/-- the layers of a stack exist and their coordinates are `u32` -/
def StackFits (layers : LayerId → Option Layer) (stack : List LayerId) : Prop :=
  ∀ id ∈ stack, ∃ l, layers id = some l ∧ l.Fits

/-- the images of a stack, as the painter shows them -/
def shownStack (layers : LayerId → Option Layer) (stack : List LayerId) {w h : Nat} :
    List (Image (Pixel w h) γ) :=
  stack.map fun id => shown K (layerImage layers id)

theorem flat_shownStack (layers : LayerId → Option Layer) (stack : List LayerId) :
    flat (shownStack K layers stack : List (Image (Pixel w h) γ)) = shown K (comp layers stack) := by
  unfold shownStack comp shown
  rw [← flat_recolour, List.map_map]
  rfl

theorem within_shown_image (l : Layer) :
    within (inRect l.x l.y l.width l.height) (shown K l.image : Image (Pixel w h) γ) = shown K l.image := by
  funext q
  unfold shown Layer.image within
  dsimp only
  cases inRect l.x l.y l.width l.height q <;> rfl

theorem layerImage_eq {layers : LayerId → Option Layer} {id : LayerId} {l : Layer}
    (hl : layers id = some l) : layerImage layers id = (l.image : Image (Pixel w h) UInt32) := by
  unfold layerImage
  rw [hl]

/-- the layers above, each in full -/
theorem drawFull_frame (stack : List LayerId) : ∀ {lm : LayerManager π}, Sized lm.painter w h →
    StackFits lm.layers stack →
    ∃ p, LayerManager.drawFull stack lm = some (lm.setPainter p) ∧ Sized p w h ∧
      (K.frame p : Pixel w h → γ) = paint (K.frame lm.painter) (flat (shownStack K lm.layers stack)) := by
  induction stack with
  | nil => intro lm hs _; exact ⟨lm.painter, rfl, hs, rfl⟩
  | cons id stack ih =>
    intro lm hs hfit
    obtain ⟨⟨l, hl, hlf⟩, hfit⟩ := List.forall_mem_cons.mp hfit
    obtain ⟨hs₁, hf₁⟩ := transfer_frame K (l := l) hs hlf hlf.x hlf.y
    obtain ⟨p, hd, hs₂, hf₂⟩ := ih (show Sized (lm.setPainter
      (l.transferBufferRange l.x l.y l.width l.height lm.painter)).painter w h from hs₁) hfit
    refine ⟨p, ?_, hs₂, hf₂.trans ?_⟩
    · show (lm.layers id).bind _ = _
      rw [hl]
      exact hd
    · show paint (K.frame (l.transferBufferRange l.x l.y l.width l.height lm.painter)) _ = _
      rw [hf₁, within_shown_image, paint_cons, ← layerImage_eq hl]
      rfl

/-- the layers below `id`, each in the old rectangle -/
theorem drawBelow_frame {id : LayerId} {prevX prevY prevWidth prevHeight : Nat} (x y width height : Nat)
    (hpx : prevX + prevWidth < 2^32) (hpy : prevY + prevHeight < 2^32) (rest lo : List LayerId) (hlo : id ∉ lo) :
    ∀ {lm : LayerManager π} (idx : Nat), Sized lm.painter w h → StackFits lm.layers lo →
    ∃ p, LayerManager.drawUpTo id prevX prevY prevWidth prevHeight x y width height (lo ++ rest) idx lm
          = LayerManager.drawUpTo id prevX prevY prevWidth prevHeight x y width height rest (idx + lo.length)
            (lm.setPainter p) ∧
      Sized p w h ∧
      (K.frame p : Pixel w h → γ) = paint (K.frame lm.painter)
        (within (inRect prevX prevY prevWidth prevHeight) (flat (shownStack K lm.layers lo))) := by
  induction lo with
  | nil =>
    intro lm idx hs _
    refine ⟨lm.painter, rfl, hs, ?_⟩
    show _ = paint _ (within _ fun _ => none)
    rw [within_none, paint_none]
  | cons a lo ih =>
    intro lm idx hs hfit
    obtain ⟨⟨l, hla, hlf⟩, hfit⟩ := List.forall_mem_cons.mp hfit
    obtain ⟨hne, hlo⟩ := not_or.mp (fun h => hlo (List.mem_cons.mpr h))
    obtain ⟨hs₁, hf₁⟩ := transfer_frame K (l := l) hs hlf hpx hpy
    obtain ⟨p, hd, hs₂, hf₂⟩ := ih hlo (idx + 1) (show Sized (lm.setPainter (l.transferBufferRange
      prevX prevY prevWidth prevHeight lm.painter)).painter w h from hs₁) hfit
    refine ⟨p, ?_, hs₂, hf₂.trans ?_⟩
    · show (lm.layers a).bind _ = _
      rw [hla, Option.bind_some, if_neg (Ne.symm hne)]
      refine hd.trans ?_
      rw [List.length_cons, Nat.add_assoc, Nat.add_comm 1]
      rfl
    · show paint (K.frame (l.transferBufferRange prevX prevY prevWidth prevHeight lm.painter)) _ = _
      rw [hf₁, paint_within_cons, ← layerImage_eq hla]
      rfl

/-- the layers up to `id`: those below in the old rectangle, then `id` itself -/
theorem drawUpTo_frame {id : LayerId} {layer : Layer} (hl : layer.Fits)
    (hpx : layer.prevX + layer.prevWidth < 2^32) (hpy : layer.prevY + layer.prevHeight < 2^32)
    (lo hi : List LayerId) (hlo : id ∉ lo) {lm : LayerManager π} (idx : Nat) (hs : Sized lm.painter w h)
    (hid : lm.layers id = some layer) (hfit : StackFits lm.layers lo) :
    ∃ p, LayerManager.drawUpTo id layer.prevX layer.prevY layer.prevWidth layer.prevHeight layer.x layer.y
        layer.width layer.height (lo ++ id :: hi) idx lm
          = some (idx + lo.length, (lm.setLayer id layer.updatePrevInfo).setPainter p) ∧
      Sized p w h ∧
      (K.frame p : Pixel w h → γ)
        = paint (paint (K.frame lm.painter)
            (within (inRect layer.prevX layer.prevY layer.prevWidth layer.prevHeight)
              (flat (shownStack K lm.layers lo)))) (shown K layer.image) := by
  obtain ⟨p, hd, hs₁, hf⟩ := drawBelow_frame K layer.x layer.y layer.width layer.height hpx hpy (id :: hi)
    lo hlo idx hs hfit
  obtain ⟨hs₂, hf₁⟩ := transfer_frame K (l := layer.updatePrevInfo) hs₁ ⟨hl.x, hl.y⟩ hl.x hl.y
  refine ⟨layer.updatePrevInfo.transferBufferRange layer.x layer.y layer.width layer.height p, hd.trans ?_, hs₂, ?_⟩
  · show (lm.layers id).bind _ = _
    rw [hid]
    exact if_pos rfl
  · have himg : within (inRect layer.x layer.y layer.width layer.height)
        (shown K layer.updatePrevInfo.image : Image (Pixel w h) γ) = shown K layer.image :=
      within_shown_image K layer
    rw [hf₁, himg, hf]

/-! ## compositions -/

theorem comp_congr {layers layers' : LayerId → Option Layer} {stack : List LayerId}
    (hl : ∀ id ∈ stack, layers' id = layers id) :
    comp layers' stack = (comp layers stack : Image (Pixel w h) UInt32) := by
  unfold comp
  congr 1
  refine List.map_congr_left fun id hid => ?_
  unfold layerImage
  rw [hl id hid]

/-- the layers that do not show at a pixel can be left out -/
theorem comp_filter_none {layers : LayerId → Option Layer} {q : Pixel w h} (keep : LayerId → Bool)
    (stack : List LayerId) (hq : ∀ id ∈ stack, keep id = false → layerImage layers id q = none) :
    comp layers (stack.filter keep) q = comp layers stack q := by
  induction stack with
  | nil => rfl
  | cons a stack ih =>
    obtain ⟨ha, hq⟩ := List.forall_mem_cons.mp hq
    cases hk : keep a with
    | true =>
      rw [List.filter_cons_of_pos hk]
      show (comp layers (stack.filter keep) q).or _ = (comp layers stack q).or _
      rw [ih hq]
    | false =>
      rw [List.filter_cons_of_neg (by simp [hk]), ih hq]
      show _ = (comp layers stack q).or (layerImage layers a q)
      rw [ha hk, Option.or_none]

theorem comp_filter {layers : LayerId → Option Layer} {id : LayerId} {q : Pixel w h}
    (hq : layerImage layers id q = none) (stack : List LayerId) :
    comp layers (stack.filter (· ≠ id)) q = comp layers stack q := by
  refine comp_filter_none _ stack fun a _ ha => ?_
  obtain rfl : a = id := not_not.mp (of_decide_eq_false ha)
  exact hq

/-- what `update_prev_info` changes does not show -/
theorem layerImage_updatePrevInfo {layers : LayerId → Option Layer} {id : LayerId} {layer : Layer}
    (hid : layers id = some layer) :
    layerImage (fun n => if n = id then some layer.updatePrevInfo else layers n)
      = (layerImage layers : LayerId → Image (Pixel w h) UInt32) := by
  funext n
  unfold layerImage
  dsimp only
  by_cases hn : n = id
  · subst hn
    rw [if_pos rfl, hid]
    rfl
  · rw [if_neg hn]

/-- the layer as it was when the frame was last right: at its old rectangle -/
structure Layer.IsOld (old layer : Layer) : Prop where
  x : old.x = layer.prevX
  y : old.y = layer.prevY
  width : old.width = layer.prevWidth
  height : old.height = layer.prevHeight

/-- outside the old rectangle, the old composition is that of the other layers -/
theorem comp_old {layers : LayerId → Option Layer} {id : LayerId} {layer old : Layer}
    (hold : old.IsOld layer) {oldStack stack : List LayerId}
    (hothers : oldStack.filter (· ≠ id) = stack.filter (· ≠ id)) {q : Pixel w h}
    (hq : inRect layer.prevX layer.prevY layer.prevWidth layer.prevHeight q = false) :
    comp (fun n => if n = id then some old else layers n) oldStack q
      = comp layers (stack.filter (· ≠ id)) q := by
  have hnone : layerImage (fun n => if n = id then some old else layers n) id q = none := by
    rw [layerImage_eq (if_pos rfl)]
    unfold Layer.image within
    rw [hold.x, hold.y, hold.width, hold.height, hq]
    rfl
  rw [← comp_filter hnone, hothers]
  refine congrFun (comp_congr fun n hn => if_neg ?_) q
  simpa using (List.mem_filter.mp hn).2

/-! ## `update` -/

/-- **What `update` does**: the layers below in the old rectangle, the layer, the layers above. -/
theorem update_paints {lm : LayerManager π} {id : LayerId} {layer : Layer} {lo hi : List LayerId}
    (hs : Sized lm.painter w h) (hlayer : lm.layers id = some layer)
    (hstack : lm.layerStack = lo ++ id :: hi) (hlo : id ∉ lo) (hhi : id ∉ hi)
    (hfit : StackFits lm.layers lm.layerStack)
    (hpx : layer.prevX + layer.prevWidth < 2^32) (hpy : layer.prevY + layer.prevHeight < 2^32) :
    ∃ p, lm.update id = some ((lm.setLayer id layer.updatePrevInfo).setPainter (Painter.flush p)) ∧ Sized p w h ∧
      (K.frame p : Pixel w h → γ)
        = paint (paint (paint (K.frame lm.painter)
            (within (inRect layer.prevX layer.prevY layer.prevWidth layer.prevHeight)
              (flat (shownStack K lm.layers lo)))) (shown K layer.image))
            (flat (shownStack K lm.layers hi)) := by
  have hfits : StackFits lm.layers lo ∧ layer.Fits ∧ StackFits lm.layers hi := by
    rw [hstack] at hfit
    obtain ⟨hflo, hfid⟩ := List.forall_mem_append.mp hfit
    obtain ⟨⟨l, h1, h2⟩, hfhi⟩ := List.forall_mem_cons.mp hfid
    rw [hlayer] at h1
    exact ⟨hflo, Option.some.inj h1 ▸ h2, hfhi⟩
  obtain ⟨p₁, hd₁, hs₁, hf₁⟩ := drawUpTo_frame K hfits.2.1 hpx hpy lo hi hlo 0 hs hlayer hfits.1
  -- the layers above are as they were
  have hsame : ∀ a ∈ hi, (lm.setLayer id layer.updatePrevInfo).layers a = lm.layers a :=
    fun a ha => if_neg (ne_of_mem_of_not_mem ha hhi)
  have hfit₁ : StackFits (lm.setLayer id layer.updatePrevInfo).layers hi := by
    intro a ha
    rw [hsame a ha]
    exact hfits.2.2 a ha
  obtain ⟨p₂, hd₂, hs₂, hf₂⟩ := drawFull_frame K hi
    (show Sized ((lm.setLayer id layer.updatePrevInfo).setPainter p₁).painter w h from hs₁) hfit₁
  have hshown : (shownStack K (lm.setLayer id layer.updatePrevInfo).layers hi : List (Image (Pixel w h) γ))
      = shownStack K lm.layers hi := by
    refine List.map_congr_left fun a ha => ?_
    unfold layerImage
    rw [hsame a ha]
  refine ⟨p₂, ?_, hs₂, ?_⟩
  · have hdrop : (lo ++ id :: hi).drop (lo.length + 1) = hi := by simp
    unfold LayerManager.update
    rw [hlayer, Option.bind_some, hstack, hd₁, Option.bind_some, Nat.zero_add]
    show Option.map _ (LayerManager.drawFull (lm.layerStack.drop (lo.length + 1)) _) = _
    rw [hstack, hdrop, hd₂]
    rfl
  · rw [← hf₁, ← hshown]
    exact hf₂

/-- `update` of a layer of the stack, pixel by pixel: outside the old rectangle the frame must already show the
other layers, where the layer does not -/
theorem update_at {lm : LayerManager π} {id : LayerId} {layer : Layer} (hs : Sized lm.painter w h)
    (hnodup : lm.layerStack.Nodup) (hid : id ∈ lm.layerStack) (hlayer : lm.layers id = some layer)
    (hfit : StackFits lm.layers lm.layerStack)
    (hpx : layer.prevX + layer.prevWidth < 2^32) (hpy : layer.prevY + layer.prevHeight < 2^32) :
    ∃ p, lm.update id = some ((lm.setLayer id layer.updatePrevInfo).setPainter (Painter.flush p)) ∧ Sized p w h ∧
      ∀ q : Pixel w h,
        (inRect layer.prevX layer.prevY layer.prevWidth layer.prevHeight q = false →
          layerImage lm.layers id q = none → ∀ c, comp lm.layers (lm.layerStack.filter (· ≠ id)) q = some c →
          K.frame lm.painter q = K.encode c) →
        ∀ c, comp lm.layers lm.layerStack q = some c → K.frame p q = K.encode c := by
  obtain ⟨lo, hi, hstack⟩ := List.append_of_mem hid
  obtain ⟨hlo, hhi⟩ : id ∉ lo ∧ id ∉ hi := by
    rw [hstack, List.nodup_append'] at hnodup
    exact ⟨fun hm => hnodup.2.2 hm (List.mem_cons_self ..), (List.nodup_cons.mp hnodup.2.1).1⟩
  have hfilter : lm.layerStack.filter (· ≠ id) = lo ++ hi := by
    rw [hstack, List.filter_append, List.filter_cons_of_neg (by simp), List.filter_eq_self.mpr,
      List.filter_eq_self.mpr]
    · exact fun a ha => decide_eq_true (ne_of_mem_of_not_mem ha hhi)
    · exact fun a ha => decide_eq_true (ne_of_mem_of_not_mem ha hlo)
  obtain ⟨p, hupdate, hs', hpaint⟩ := update_paints K hs hlayer hstack hlo hhi hfit hpx hpy
  refine ⟨p, hupdate, hs', fun q hf c hc => ?_⟩
  rw [hpaint]
  refine redraw _ (fun hR hd hc' => ?_) ?_
  · have hflat : flat (shownStack K lm.layers lo ++ shownStack K lm.layers hi : List (Image (Pixel w h) γ))
        = shown K (comp lm.layers (lo ++ hi)) := by
      rw [← flat_shownStack]
      unfold shownStack
      rw [List.map_append]
    rw [hflat] at hc'
    obtain ⟨c₀, hc₀, he⟩ := Option.map_eq_some_iff.mp hc'
    rw [← he]
    refine hf hR ?_ c₀ (by rw [hfilter]; exact hc₀)
    rw [layerImage_eq hlayer]
    exact Option.map_eq_none_iff.mp hd
  · have hflat : flat (shownStack K lm.layers lo ++ shown K layer.image :: shownStack K lm.layers hi :
        List (Image (Pixel w h) γ)) = shown K (comp lm.layers lm.layerStack) := by
      rw [← flat_shownStack, hstack, ← layerImage_eq hlayer]
      unfold shownStack
      rw [List.map_append, List.map_cons]
    rw [hflat]
    show (comp lm.layers lm.layerStack q).map K.encode = _
    rw [hc]
    rfl

/-- where the frame showed the composition with layer `id` as it was before, after `update(id)` it shows
the composition of the stack -/
theorem update_shows (K : Canvas π γ) {lm : LayerManager π} {id : LayerId} {layer old : Layer}
    {oldStack : List LayerId} (hs : Sized lm.painter w h)
    (hnodup : lm.layerStack.Nodup) (hid : id ∈ lm.layerStack) (hlayer : lm.layers id = some layer)
    (hfit : StackFits lm.layers lm.layerStack)
    (hpx : layer.prevX + layer.prevWidth < 2^32) (hpy : layer.prevY + layer.prevHeight < 2^32)
    (hold : old.IsOld layer)
    (hothers : oldStack.filter (· ≠ id) = lm.layerStack.filter (· ≠ id))
    (hframe : ∀ (q : Pixel w h) c,
      comp (fun n => if n = id then some old else lm.layers n) oldStack q = some c →
      K.frame lm.painter q = K.encode c) :
    ∃ p, lm.update id = some ((lm.setLayer id layer.updatePrevInfo).setPainter p) ∧
      ∀ (q : Pixel w h) c, comp lm.layers lm.layerStack q = some c → K.frame p q = K.encode c := by
  obtain ⟨p, hupdate, -, hat⟩ := update_at K hs hnodup hid hlayer hfit hpx hpy
  refine ⟨Painter.flush p, hupdate, fun q c hc => (K.cell_flush _ _ _).trans (hat q (fun hR _ c' hc' => ?_) c hc)⟩
  -- outside the old rectangle the frame already shows the other layers
  refine hframe q c' ?_
  rw [comp_old hold hothers hR]
  exact hc'

/-- **Incremental redraw.**  Where the frame was the composition with layer `id` as it was before (its old
rectangle, buffer and place in the stack), after `update(id)` it is the composition of the stack. -/
theorem update_frame (K : Canvas π γ) (w h : Nat) (lm : LayerManager π) (id : LayerId) (layer old : Layer)
    (oldStack : List LayerId) (hs : Sized lm.painter w h)
    (hnodup : lm.layerStack.Nodup) (hid : id ∈ lm.layerStack) (hlayer : lm.layers id = some layer)
    (hfit : StackFits lm.layers lm.layerStack)
    (hpx : layer.prevX + layer.prevWidth < 2^32) (hpy : layer.prevY + layer.prevHeight < 2^32)
    (hbottom : ∃ b rest, lm.layerStack = b :: rest ∧
      ∀ q : Pixel w h, (layerImage lm.layers b q).isSome = true)
    (hold : old.IsOld layer)
    (hothers : oldStack.filter (· ≠ id) = lm.layerStack.filter (· ≠ id))
    (hframe : ∀ (q : Pixel w h) c,
      comp (fun n => if n = id then some old else lm.layers n) oldStack q = some c →
      K.frame lm.painter q = K.encode c) :
    ∃ lm', lm.update id = some lm' ∧ lm'.layerStack = lm.layerStack ∧
      ∀ q : Pixel w h, ∃ c, comp lm'.layers lm'.layerStack q = some c ∧
        K.frame lm'.painter q = K.encode c := by
  obtain ⟨p, hupdate, hshows⟩ := update_shows K hs hnodup hid hlayer hfit hpx hpy hold hothers hframe
  refine ⟨_, hupdate, rfl, fun q => ?_⟩
  -- the bottom layer shows everywhere, so the composition has a colour
  obtain ⟨c, hc⟩ : ∃ c, comp lm.layers lm.layerStack q = some c := by
    obtain ⟨b, rest, hb, hshow⟩ := hbottom
    rw [← Option.isSome_iff_exists, hb]
    show ((comp lm.layers rest q).or (layerImage lm.layers b q)).isSome = true
    rw [Option.isSome_or, hshow q, Bool.or_true]
  refine ⟨c, ?_, hshows q c hc⟩
  show flat (List.map (layerImage fun n => if n = id then some layer.updatePrevInfo else lm.layers n)
    lm.layerStack) q = some c
  rw [layerImage_updatePrevInfo hlayer]
  exact hc

end canvas

/-! ## a display of two pixels -/

/-- a layer of one colour, the frame last drawn with it at `prevX` -/
def sampleLayer (colour : UInt32) (x prevX width : Nat) : Layer where
  buffer := ⟨fun _ => colour, width, 1⟩
  x := x
  y := 0
  width := width
  height := 1
  prevX := prevX
  prevY := 0
  prevWidth := width
  prevHeight := 1
  transparent := none

def sampleLayers : LayerId → Option Layer
  | 0 => some (sampleLayer 5 0 0 2)
  | 1 => some (sampleLayer 7 1 0 1)
  | _ => none

/-- the cursor, layer 1, is still shown on the left and has moved to the right -/
def sampleManager : LayerManager VirtioGpu where
  painter :=
    { framebuffer := fun n => if n = 0 then swapBytes 7 >>> 8 else swapBytes 5 >>> 8
      width := 2
      height := 1
      fits := by decide }
  layers := sampleLayers
  layerStack := [0, 1]

theorem update_frame_example :
    ∃ lm', sampleManager.update 1 = some lm' ∧ lm'.layerStack = sampleManager.layerStack ∧
      ∀ q : Pixel 2 1, ∃ c, comp lm'.layers lm'.layerStack q = some c ∧
        VirtioGpu.canvas.frame lm'.painter q = VirtioGpu.canvas.encode c := by
  have hshown : ∀ (x : Fin 2) (y : Fin 1),
      (comp (fun n => if n = 1 then some (sampleLayer 7 0 0 1) else sampleManager.layers n) [0, 1] (x, y)).map
        VirtioGpu.canvas.encode = some (VirtioGpu.canvas.frame sampleManager.painter (x, y)) := by
    decide
  have hcovers : ∀ (x : Fin 2) (y : Fin 1), (layerImage sampleManager.layers 0 (x, y)).isSome = true := by
    decide
  refine update_frame VirtioGpu.canvas 2 1 sampleManager 1 (sampleLayer 7 1 0 1) (sampleLayer 7 0 0 1)
    [0, 1] ⟨rfl, rfl⟩ (by decide) (by decide) rfl ?_ (by decide) (by decide) ⟨0, [1], rfl, fun q => hcovers q.1 q.2⟩
    ⟨rfl, rfl, rfl, rfl⟩ rfl ?_
  · intro id hid
    rcases List.mem_pair.mp hid with rfl | rfl
    · exact ⟨_, rfl, by decide, by decide⟩
    · exact ⟨_, rfl, by decide, by decide⟩
  · intro q c hc
    have hq := hshown q.1 q.2
    rw [hc] at hq
    exact (Option.some.inj hq).symm

/-! ## moving a layer -/

section moving
variable {π γ : Type} {lm lm' : LayerManager π} {id : LayerId}

/-- taking a layer out of the stack, and putting it in, leaves the others in their order -/
theorem filter_eraseIdx_position {stack : List LayerId} {index : Nat}
    (hp : LayerManager.position id stack = some index) :
    (stack.eraseIdx index).filter (· ≠ id) = stack.filter (· ≠ id) := by
  obtain ⟨hlt, hat, -⟩ := List.findIdx?_eq_some_iff_getElem.mp hp
  have hid : stack[index] = id := by simpa using hat
  conv_rhs => rw [← List.take_append_drop index stack, List.drop_eq_getElem_cons hlt, hid]
  rw [List.eraseIdx_eq_take_drop_succ, List.filter_append, List.filter_append,
    List.filter_cons_of_neg (by simp)]

theorem filter_insertIdx (stack : List LayerId) : ∀ index : Nat,
    (stack.insertIdx index id).filter (· ≠ id) = stack.filter (· ≠ id) := by
  induction stack with
  | nil =>
    intro index
    cases index <;> simp
  | cons a stack ih =>
    intro index
    cases index with
    | zero => exact List.filter_cons_of_neg (by simp)
    | succ index =>
      rw [List.insertIdx_succ_cons, List.filter_cons, List.filter_cons, ih]

/-- `move_layer` and `hide_layer` change the place of one layer, and nothing else -/
theorem moveLayer_others {newHeight : Int} (hm : lm.moveLayer id newHeight = some lm') :
    lm'.layerStack.filter (· ≠ id) = lm.layerStack.filter (· ≠ id) ∧ lm'.layers = lm.layers ∧
      lm'.painter = lm.painter := by
  unfold LayerManager.moveLayer at hm
  split at hm
  · obtain rfl := Option.some.inj hm
    unfold LayerManager.hideLayer
    split
    · exact ⟨filter_eraseIdx_position ‹_›, rfl, rfl⟩
    · exact ⟨rfl, rfl, rfl⟩
  · dsimp only at hm
    split at hm
    · obtain rfl := Option.some.inj hm
      exact ⟨filter_insertIdx _ _, rfl, rfl⟩
    · split at hm
      · obtain rfl := Option.some.inj hm
        exact ⟨(filter_insertIdx _ _).trans (filter_eraseIdx_position ‹_›), rfl, rfl⟩
      · cases hm

end moving

end Citron.Graphics
