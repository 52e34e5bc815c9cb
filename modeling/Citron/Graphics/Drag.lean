import Citron.Graphics.Press
import Citron.Graphics.Stale
import Mathlib.Data.List.TakeWhile

/-!
# Dragging a window

A press records its point in any case, but the layer it goes to only if there is one; a release moves the layer that
is recorded by the difference of the points, if the point is not below the title bar of the window.  So a press that
goes to no layer is taken together with the window of an earlier press, and the row directly below a title bar counts
as part of it.

* `DragRun`        the mouse with the window manager; beside it the latest press, with the layer as it was then;
* `Grabbed`        a release moves only the window that was grabbed by its title bar, and moves it by the drag;
* `Held`           what holds in every run;
* `Held.release`   one release;
* `drag_iff`       for every run.
-/

namespace Citron.Graphics
open Trace

/-! ## the run -/

/-- the point of a press, and the layer that it went to, as it was then -/
structure LatestPress where
  x : Nat
  y : Nat
  target : Option (LayerId × Layer)

structure DragRun where
  g : Globals VirtioGpu
  latest : Option LatestPress

/-- the events of the mouse as `kproc` takes them, and the calls of the window manager -/
inductive DragAction
  | createWindow (title : String) (x y width height : Nat)
  | showWindow (id : ObjectId)
  | updateWindowFrame (id : ObjectId) (words : Nat → UInt32)
  | relX (value : Int32)
  | relY (value : Int32)
  | syn
  | press
  | release

namespace Globals

def place (g : Globals VirtioGpu) (id : LayerId) : Option (Nat × Nat) :=
  (g.screen.lm.layers id).map fun l => (l.x, l.y)

theorem place_of_layer {g : Globals VirtioGpu} {id : LayerId} {l : Layer} (hl : g.screen.lm.layers id = some l) :
    g.place id = some (l.x, l.y) := by
  unfold place
  rw [hl]
  rfl

/-- `move_rel` of the mouse's layer -/
def moveMouse (dx dy : Int32) (g : Globals VirtioGpu) : Option (Globals VirtioGpu) :=
  (g.screen.moveRel mouseLayerId dx dy).map g.withScreen

/-- the layer that a press goes to -/
def target (x y : Nat) (g : Globals VirtioGpu) : Option (LayerId × Layer) :=
  (g.deliver (.mouseLeftPress x y) mouseLayerId).bind fun (affect, _) =>
    affect.bind fun id => (g.screen.lm.layers id).map (id, ·)

end Globals

namespace DragRun

/-- where the mouse is -/
def pointer (s : DragRun) : Option (Nat × Nat) := s.g.place mouseLayerId

def press (s : DragRun) : Option DragRun :=
  s.pointer.bind fun (x, y) =>
    (s.g.onEvent (.mouseLeftPress x y) mouseLayerId).map fun g => ⟨g, some ⟨x, y, s.g.target x y⟩⟩

def release (s : DragRun) : Option DragRun :=
  s.pointer.bind fun (x, y) =>
    (s.g.onEvent (.mouseLeftRelease x y) mouseLayerId).map fun g => { s with g }

def step (art : Art) : DragAction → DragRun → Option DragRun
  | .createWindow title x y width height, s => some { s with g := (s.g.createWindow title x y width height).2 }
  | .showWindow id, s => (s.g.showWindow art id).map fun g => { s with g }
  | .updateWindowFrame id words, s => (s.g.updateWindowFrame id words).map fun g => { s with g }
  | .relX value, s => (s.g.moveMouse value 0).map fun g => { s with g }
  | .relY value, s => (s.g.moveMouse 0 value).map fun g => { s with g }
  | .syn, s => (s.g.update mouseLayerId).map fun g => { s with g }
  | .press, s => s.press
  | .release, s => s.release

def init (art : Art) (display : VirtioGpu) : Option DragRun := (Globals.init art display).map fun g => ⟨g, none⟩

/-! ## what is asked of a release -/

/-- a coordinate on a display of the size -/
def clampTo (size : Nat) (v : Int) : Nat := (max 0 (min v size)).toNat

/-- the old place of a layer and the difference of the two points, on the display -/
def dragged (s : DragRun) (l : Layer) (x y pressedX pressedY : Nat) : Nat × Nat :=
  (clampTo s.g.screen.lm.painter.width (l.x + (x - pressedX)),
    clampTo s.g.screen.lm.painter.height (l.y + (y - pressedY)))

/-- the point is in the title bar of the window in the layer -/
def inTitleBar (x y : Nat) (l : Layer) (window : Window) : Prop :=
  l.contains x y = true ∧ y < l.y + window.titleBarHeight

/-- whatever a release moves is the window that the latest press went to, by its title bar, and goes where the drag
takes it -/
def Grabbed (s s' : DragRun) : Prop :=
  ∀ id, s'.g.place id ≠ s.g.place id → ∃ p l₀ l window x y,
    s.latest = some p ∧ p.target = some (id, l₀) ∧ s.g.arena.map (s.g.object id) = some (.window window) ∧
      inTitleBar p.x p.y l₀ window ∧ s.g.screen.lm.layers id = some l ∧ s.pointer = some (x, y) ∧
      s'.g.place id = some (s.dragged l x y p.x p.y)

def Drags (art : Art) (s : DragRun) : DragAction → Prop
  | .release => ∀ s', step art .release s = some s' → Grabbed s s'
  | _ => True

/-- No window is recorded; or the press was below its title bar; or it is where the drag takes it; or the latest press
went to a layer, and not in the row directly below the title bar. -/
def steady (s : DragRun) : DragAction → Prop
  | .release => ∀ window l x y, s.g.arena.map (s.g.object s.g.eventInfo.pressedId) = some (.window window) →
      s.g.screen.lm.layers s.g.eventInfo.pressedId = some l → s.pointer = some (x, y) →
      l.y + window.titleBarHeight < s.g.eventInfo.pressedY ∨
      s.dragged l x y s.g.eventInfo.pressedX s.g.eventInfo.pressedY = (l.x, l.y) ∨
      ∃ p id l₀, s.latest = some p ∧ p.target = some (id, l₀) ∧ p.y ≠ l₀.y + window.titleBarHeight
  | _ => True

end DragRun

/-! ## what stays where it is -/

def Layer.rect (l : Layer) : (Nat × Nat) × Nat × Nat := ((l.x, l.y), l.width, l.height)

/-- no layer is moved, and the display keeps its size -/
structure LayerManager.Kept (lm lm' : LayerManager VirtioGpu) : Prop where
  rect : ∀ a, (lm'.layers a).map Layer.rect = (lm.layers a).map Layer.rect
  width : lm'.painter.width = lm.painter.width
  height : lm'.painter.height = lm.painter.height

namespace LayerManager
variable {lm lm' lm'' : LayerManager VirtioGpu} {id : LayerId}

theorem Kept.refl (lm : LayerManager VirtioGpu) : Kept lm lm := ⟨fun _ => rfl, rfl, rfl⟩

theorem Kept.trans (h : Kept lm lm') (h' : Kept lm' lm'') : Kept lm lm'' :=
  ⟨fun a => (h'.rect a).trans (h.rect a), h'.width.trans h.width, h'.height.trans h.height⟩

theorem kept_setLayer {l l' : Layer} (hl : lm.layers id = some l) (hrect : l'.rect = l.rect) :
    Kept lm (lm.setLayer id l') := by
  refine ⟨fun a => ?_, rfl, rfl⟩
  show (if a = id then some l' else lm.layers a).map Layer.rect = _
  by_cases ha : a = id
  · rw [if_pos ha, ha, hl, Option.map_some, Option.map_some, hrect]
  · rw [if_neg ha]

theorem drawPixel_size (l : Layer) (x y : Nat) (p : VirtioGpu) :
    (l.drawPixel x y p).width = p.width ∧ (l.drawPixel x y p).height = p.height := by
  rw [drawPixel_eq]
  cases l.colour x y with
  | none => exact ⟨rfl, rfl⟩
  | some c => exact ⟨rfl, rfl⟩

theorem foldl_size {α : Type} {f : VirtioGpu → α → VirtioGpu}
    (hf : ∀ p a, (f p a).width = p.width ∧ (f p a).height = p.height) (as : List α) :
    ∀ p, (as.foldl f p).width = p.width ∧ (as.foldl f p).height = p.height := by
  induction as with
  | nil => exact fun _ => ⟨rfl, rfl⟩
  | cons a as ih => exact fun p => ⟨(ih _).1.trans (hf p a).1, (ih _).2.trans (hf p a).2⟩

/-- drawing leaves everything but the pixels -/
theorem kept_transfer (l : Layer) (x y width height : Nat) (lm : LayerManager VirtioGpu) :
    Kept lm (lm.setPainter (l.transferBufferRange x y width height lm.painter)) := by
  have hsize := foldl_size (fun p y => foldl_size (fun p x => drawPixel_size l x y p)
    (List.range' (max x l.x) (min (u32 (x + width)) (min (u32 (l.x + l.width)) lm.painter.width) - max x l.x)) p)
    (List.range' (max y l.y) (min (u32 (y + height)) (min (u32 (l.y + l.height)) lm.painter.height) - max y l.y))
    lm.painter
  exact ⟨fun _ => rfl, hsize.1, hsize.2⟩

theorem drawUpTo_kept {prevX prevY prevWidth prevHeight x y width height : Nat} {stack : List LayerId} :
    ∀ {idx index : Nat} {lm : LayerManager VirtioGpu},
    drawUpTo id prevX prevY prevWidth prevHeight x y width height stack idx lm = some (index, lm') → Kept lm lm' := by
  induction stack with
  | nil =>
    intro idx index lm h
    cases h
    exact Kept.refl _
  | cons b stack ih =>
    intro idx index lm h
    obtain ⟨l, hl, h⟩ := Option.bind_eq_some_iff.mp h
    dsimp only at h
    split at h
    · cases h
      have hset : Kept lm (lm.setLayer b l.updatePrevInfo) := kept_setLayer hl rfl
      exact hset.trans (kept_transfer _ _ _ _ _ _)
    · exact (kept_transfer _ _ _ _ _ _).trans (ih h)

theorem drawFull_kept {stack : List LayerId} : ∀ {lm : LayerManager VirtioGpu},
    drawFull stack lm = some lm' → Kept lm lm' := by
  induction stack with
  | nil =>
    intro lm h
    cases h
    exact Kept.refl _
  | cons b stack ih =>
    intro lm h
    obtain ⟨l, hl, h⟩ := Option.bind_eq_some_iff.mp h
    exact (kept_transfer _ _ _ _ _ _).trans (ih h)

theorem update_kept (h : lm.update id = some lm') : Kept lm lm' := by
  obtain ⟨layer, -, h⟩ := Option.bind_eq_some_iff.mp h
  obtain ⟨⟨index, lm₁⟩, hd, h⟩ := Option.bind_eq_some_iff.mp h
  obtain ⟨lm₂, hfull, rfl⟩ := Option.map_eq_some_iff.mp h
  have h₁ := (drawUpTo_kept hd).trans (drawFull_kept hfull)
  exact ⟨h₁.rect, h₁.width, h₁.height⟩

theorem drawAllLoop_kept {draw : LayerId → Drawing} {stack : List LayerId} : ∀ {lm : LayerManager VirtioGpu},
    drawAllLoop draw stack lm = some lm' → Kept lm lm' := by
  induction stack with
  | nil =>
    intro lm h
    cases h
    exact Kept.refl _
  | cons b stack ih =>
    intro lm h
    obtain ⟨l, hl, h⟩ := Option.bind_eq_some_iff.mp h
    have hset : Kept lm (lm.setLayer b (l.drawToBuffer (draw b))) := kept_setLayer hl rfl
    exact (hset.trans (kept_transfer _ _ _ _ _ _)).trans (ih h)

theorem drawAll_kept {draw : LayerId → Drawing} (h : lm.drawAll draw = some lm') : Kept lm lm' := by
  obtain ⟨lm₁, hloop, rfl⟩ := Option.map_eq_some_iff.mp h
  have h₁ := drawAllLoop_kept hloop
  exact ⟨h₁.rect, h₁.width, h₁.height⟩

theorem moveLayer_kept {newHeight : Int} (h : lm.moveLayer id newHeight = some lm') : Kept lm lm' := by
  obtain ⟨-, hlayers, hpainter⟩ := moveLayer_others h
  exact ⟨fun a => by rw [hlayers], by rw [hpainter], by rw [hpainter]⟩

end LayerManager

/-- nothing but the layer manager changes, and in it no layer moves -/
structure Globals.Still (g g' : Globals VirtioGpu) : Prop where
  kept : LayerManager.Kept g.screen.lm g'.screen.lm
  same : g' = g.withLm g'.screen.lm

namespace Globals.Still
variable {g g' g'' : Globals VirtioGpu} {id : LayerId}

theorem refl (g : Globals VirtioGpu) : Still g g := ⟨.refl _, rfl⟩

theorem trans (h : Still g g') (h' : Still g' g'') : Still g g'' := by
  refine ⟨h.kept.trans h'.kept, h'.same.trans ?_⟩
  rw [h.same]
  rfl

theorem update (h : g.update id = some g') : Still g g' := by
  obtain ⟨screen, hs, rfl⟩ := Option.map_eq_some_iff.mp h
  obtain ⟨lm, hlm, rfl⟩ := Option.map_eq_some_iff.mp hs
  exact ⟨LayerManager.update_kept hlm, rfl⟩

theorem moveLayer {newHeight : Int} (h : g.moveLayer id newHeight = some g') : Still g g' := by
  obtain ⟨screen, hs, rfl⟩ := Option.map_eq_some_iff.mp h
  obtain ⟨lm, hlm, rfl⟩ := Option.map_eq_some_iff.mp hs
  exact ⟨LayerManager.moveLayer_kept hlm, rfl⟩

/-- a change of a layer that does not move it -/
theorem change {f : Layer → Layer} {screen : Screen VirtioGpu} (h : g.screen.change id f = some screen)
    (hf : ∀ l, (f l).rect = l.rect) : Still g (g.withScreen screen) := by
  obtain ⟨l, hl, rfl⟩ := Option.map_eq_some_iff.mp h
  exact ⟨LayerManager.kept_setLayer hl (hf l), rfl⟩

theorem showWindow {art : Art} {object : ObjectId} (h : g.showWindow art object = some g') : Still g g' := by
  obtain ⟨obj, -, h⟩ := Option.bind_eq_some_iff.mp h
  obtain ⟨layerId, -, h⟩ := Option.bind_eq_some_iff.mp h
  obtain ⟨g₁, hmove, h⟩ := Option.bind_eq_some_iff.mp h
  obtain ⟨g₂, hbuffer, h⟩ := Option.bind_eq_some_iff.mp h
  obtain ⟨obj, -, hbuffer⟩ := Option.bind_eq_some_iff.mp hbuffer
  obtain ⟨screen, hscreen, rfl⟩ := Option.map_eq_some_iff.mp hbuffer
  exact ((moveLayer hmove).trans (change hscreen fun _ => rfl)).trans (update h)

theorem updateWindowFrame {object : ObjectId} {words : Nat → UInt32} (h : g.updateWindowFrame object words = some g') :
    Still g g' := by
  obtain ⟨obj, -, h⟩ := Option.bind_eq_some_iff.mp h
  obtain ⟨layerId, -, h⟩ := Option.bind_eq_some_iff.mp h
  cases obj with
  | mouse transparent => cases h
  | desktop => cases h
  | window window =>
    obtain ⟨screen, hscreen, h⟩ := Option.bind_eq_some_iff.mp h
    exact (change hscreen fun _ => rfl).trans (update h)

/-- a press moves no layer -/
theorem dispatch_press {x y : Nat} (h : g.dispatch (.mouseLeftPress x y) id = some g') : Still g g' := by
  obtain ⟨l, -, h⟩ := Option.bind_eq_some_iff.mp h
  obtain ⟨obj, -, h⟩ := Option.bind_eq_some_iff.mp h
  cases obj with
  | mouse transparent =>
    cases h
    exact refl g
  | desktop =>
    cases h
    exact refl g
  | window window =>
    change (if _ then some g else _) = some g' at h
    split at h
    · cases h
      exact refl g
    · obtain ⟨g₁, hmove, h⟩ := Option.bind_eq_some_iff.mp h
      exact (moveLayer hmove).trans (update h)

theorem layer (h : Still g g') {l' : Layer} (hl : g'.screen.lm.layers id = some l') :
    ∃ l, g.screen.lm.layers id = some l ∧ l'.rect = l.rect := by
  have hrect := h.kept.rect id
  rw [hl] at hrect
  obtain ⟨l, hl, he⟩ := Option.map_eq_some_iff.mp hrect.symm
  exact ⟨l, hl, he.symm⟩

theorem place (h : Still g g') (id : LayerId) : g'.place id = g.place id := by
  have hrect := congrArg (Option.map Prod.fst) (h.kept.rect id)
  rw [Option.map_map, Option.map_map] at hrect
  exact hrect

end Globals.Still

/-! ## the arithmetic of a drag -/

/-- `clamp` on a display of less than `2^31` -/
theorem clamp_eq (v : Int32) {d : Nat} (hd : d < 2^31) :
    (clamp v (Int32.ofNat d)).toUInt32.toNat = DragRun.clampTo d v.toInt := by
  have hsize := Int32.toInt_ofNat_of_lt hd
  have hzero : (0 : Int32) ≤ Int32.ofNat d := by
    rw [Int32.le_iff_toInt_le, hsize, Int32.toInt_zero]
    exact Int.natCast_nonneg d
  unfold clamp DragRun.clampTo
  split
  · rename_i hneg
    have hlt := Int32.lt_iff_toInt_lt.mp hneg
    rw [Int32.toInt_zero] at hlt
    show 0 = _
    omega
  · rename_i hpos
    have hv : (0 : Int32) ≤ v := Int32.not_lt.mp hpos
    have hcast := Int32.cast_toNatClampNeg v hv
    split
    · rename_i hlt
      have hlt := Int32.lt_iff_toInt_lt.mp hlt
      rw [Int32.toNat_toUInt32_of_le hzero, Int32.toNatClampNeg_ofNat_of_lt hd]
      omega
    · rename_i hle
      have hle := Int32.le_iff_toInt_le.mp (Int32.not_lt.mp hle)
      rw [Int32.toNat_toUInt32_of_le hv]
      omega

/-- the sums of `on_event` do not wrap -/
theorem toInt_drag {x p l : Nat} (hx : x < 2^30) (hp : p < 2^30) (hl : l < 2^30) :
    (Int32.ofNat x - (Int32.ofNat p - Int32.ofNat l)).toInt = l + (x - p) := by
  have hlt : 2^30 < 2^31 := by decide
  have e1 : ((p : Int) - l).bmod (2^32) = p - l := Int.bmod_eq_of_le (by omega) (by omega)
  have e2 : ((x : Int) - (p - l)).bmod (2^32) = x - (p - l) := Int.bmod_eq_of_le (by omega) (by omega)
  rw [Int32.toInt_sub, Int32.toInt_sub, Int32.toInt_ofNat_of_lt (hx.trans hlt), Int32.toInt_ofNat_of_lt (hp.trans hlt),
    Int32.toInt_ofNat_of_lt (hl.trans hlt), e1, e2]
  omega

/-! ## what holds in every run -/

/-- The pointer is on the display, which keeps its size `w` by `h`; the windows have their title bars; the layer that
is recorded is the one of the latest press if that went to a layer, and it is on the display, and was not moved if the
press was below its title bar. -/
structure Held (w h : Nat) (s : DragRun) : Prop where
  width : s.g.screen.lm.painter.width = w
  height : s.g.screen.lm.painter.height = h
  display : ∀ id < s.g.screen.currId, s.g.screen.display id = (w, h)
  bar : ∀ object window, s.g.arena.map object = some (.window window) → window.titleBarHeight = 30
  pointer : ∀ x y, s.pointer = some (x, y) → (w < 2^31 → x ≤ w) ∧ (h < 2^31 → y ≤ h)
  first : s.latest = none → s.g.eventInfo.pressedId = mouseLayerId
  latest : ∀ p, s.latest = some p → p.x = s.g.eventInfo.pressedX ∧ p.y = s.g.eventInfo.pressedY ∧
    (w < 2^31 → p.x ≤ w) ∧ (h < 2^31 → p.y ≤ h)
  target : ∀ p id l₀, s.latest = some p → p.target = some (id, l₀) → id ≠ mouseLayerId ∧
    id = s.g.eventInfo.pressedId ∧ l₀.contains p.x p.y = true ∧
      (l₀.y + 30 < p.y → ∀ l, s.g.screen.lm.layers id = some l → l.y = l₀.y)
  pressed : s.g.eventInfo.pressedId ≠ mouseLayerId → (w < 2^30 ∧ h < 2^30) ∧
    ∀ l, s.g.screen.lm.layers s.g.eventInfo.pressedId = some l → l.x ≤ w ∧ l.y ≤ h

/-- a layer under a point of the display is on the display, and the display has pixels -/
theorem under_bounds {w h x y : Nat} {l : Layer} (hfits : w * pixelSize * h < 2^32) (hx : w < 2^31 → x ≤ w)
    (hy : h < 2^31 → y ≤ h) (hu : l.under x y = true) :
    (w < 2^30 ∧ h < 2^30) ∧ l.contains x y = true ∧ l.x ≤ w ∧ l.y ≤ h := by
  unfold Layer.under isOverlapping at hu
  rw [← Bool.decide_and] at hu
  obtain ⟨⟨hx2, hx1⟩, hy2, hy1⟩ := of_decide_eq_true hu
  have hux : u32 (l.x + l.width) ≤ l.x + l.width := Nat.mod_le _ _
  have huy : u32 (l.y + l.height) ≤ l.y + l.height := Nat.mod_le _ _
  have hw0 : 0 < w := by
    by_contra h0
    have := hx (by omega)
    omega
  have hh0 : 0 < h := by
    by_contra h0
    have := hy (by omega)
    omega
  unfold pixelSize at hfits
  have hw : w * 4 ≤ w * 4 * h := Nat.le_mul_of_pos_right _ hh0
  have hh : 4 * h ≤ w * 4 * h := by
    rw [Nat.mul_assoc]
    exact Nat.le_mul_of_pos_left _ hw0
  have := hx (by omega)
  have := hy (by omega)
  exact ⟨by omega, decide_eq_true (by omega), by omega⟩

namespace Held
variable {w h : Nat} {s s' : DragRun} {g' : Globals VirtioGpu}

/-- a step in which no layer moves and nothing is recorded -/
theorem still (hs : Held w h s) (hg : s.g.Still g') : Held w h { s with g := g' } := by
  have hsame := hg.same
  have hinfo : g'.eventInfo = s.g.eventInfo := by rw [hsame]; rfl
  have harena : g'.arena = s.g.arena := by rw [hsame]; rfl
  have hcurr : g'.screen.currId = s.g.screen.currId := by rw [hsame]; rfl
  have hdisplay : g'.screen.display = s.g.screen.display := by rw [hsame]; rfl
  refine ⟨hg.kept.width.trans hs.width, hg.kept.height.trans hs.height, ?_, ?_, fun x y hp => ?_, ?_, ?_, ?_, ?_⟩
  · show ∀ id < g'.screen.currId, g'.screen.display id = (w, h)
    rw [hcurr, hdisplay]
    exact hs.display
  · show ∀ object window, g'.arena.map object = _ → _
    rw [harena]
    exact hs.bar
  · exact hs.pointer x y ((hg.place mouseLayerId).symm.trans hp)
  · show s.latest = none → g'.eventInfo.pressedId = _
    rw [hinfo]
    exact hs.first
  · show ∀ p, s.latest = some p → p.x = g'.eventInfo.pressedX ∧ p.y = g'.eventInfo.pressedY ∧ _
    rw [hinfo]
    exact hs.latest
  · show ∀ p id l₀, s.latest = some p → p.target = some (id, l₀) → id ≠ mouseLayerId ∧ id = g'.eventInfo.pressedId ∧
      l₀.contains p.x p.y = true ∧ (l₀.y + 30 < p.y → ∀ l, g'.screen.lm.layers id = some l → l.y = l₀.y)
    rw [hinfo]
    intro p id l₀ hp ht
    obtain ⟨hne, hid, hc, hy⟩ := hs.target p id l₀ hp ht
    refine ⟨hne, hid, hc, fun hlow l' hl' => ?_⟩
    obtain ⟨l, hl, hrect⟩ := hg.layer hl'
    have he : l'.y = l.y := congrArg (·.1.2) hrect
    exact he.trans (hy hlow l hl)
  · show g'.eventInfo.pressedId ≠ _ → (w < 2^30 ∧ h < 2^30) ∧
      ∀ l, g'.screen.lm.layers g'.eventInfo.pressedId = some l → _
    rw [hinfo]
    intro hne
    obtain ⟨hsize, hl⟩ := hs.pressed hne
    refine ⟨hsize, fun l' hl' => ?_⟩
    obtain ⟨l, hl₀, hrect⟩ := hg.layer hl'
    have hx : l'.x = l.x := congrArg (·.1.1) hrect
    have hy : l'.y = l.y := congrArg (·.1.2) hrect
    rw [hx, hy]
    exact hl l hl₀

/-- a press is recorded, and the layer it went to if there is one -/
theorem press (hs : Held w h s) (hp : LayerManager.Present s.g.screen.lm s.g.layerStack) (hstep : s.press = some s') :
    Held w h s' := by
  obtain ⟨⟨x, y⟩, hpt, hstep⟩ := Option.bind_eq_some_iff.mp hstep
  obtain ⟨g', hevent, rfl⟩ := Option.map_eq_some_iff.mp hstep
  obtain ⟨hx, hy⟩ := hs.pointer x y hpt
  have hdeliver : s.g.deliver (.mouseLeftPress x y) mouseLayerId = some (s.g.pressed x y,
      { s.g with eventInfo := ⟨(s.g.pressed x y).getD s.g.eventInfo.pressedId, x, y⟩ }) :=
    Globals.deliver_press hp x y mouseLayerId
  have htarget : s.g.target x y = (s.g.pressed x y).bind fun id => (s.g.screen.lm.layers id).map (id, ·) := by
    unfold Globals.target
    rw [hdeliver]
    rfl
  rw [Globals.onEvent_eq, hdeliver, Option.bind_some] at hevent
  rw [htarget]
  cases haffect : s.g.pressed x y with
  | none =>
    rw [haffect] at hevent
    cases hevent
    refine ⟨hs.width, hs.height, hs.display, hs.bar, hs.pointer, nofun, fun p hp => ?_, fun p id l₀ hp ht => ?_,
      hs.pressed⟩
    · cases hp
      exact ⟨rfl, rfl, hx, hy⟩
    · cases hp
      cases ht
  | some id =>
    rw [haffect] at hevent
    obtain ⟨hin, hunder⟩ := List.mem_filter.mp (List.mem_of_getLast? haffect)
    have hne : id ≠ mouseLayerId := of_decide_eq_true (List.mem_takeWhile_imp (p := (· ≠ mouseLayerId)) hin)
    obtain ⟨l, hl, hlu⟩ := (Option.any_eq_true _ _).mp hunder
    have hfits := s.g.screen.lm.painter.fits
    rw [hs.width, hs.height] at hfits
    obtain ⟨hsize, hcontains, hlx⟩ := under_bounds hfits hx hy hlu
    have hrecorded : Held w h ⟨{ s.g with eventInfo := ⟨id, x, y⟩ }, some ⟨x, y, some (id, l)⟩⟩ := by
      refine ⟨hs.width, hs.height, hs.display, hs.bar, hs.pointer, nofun, fun p hp => ?_, fun p id' l₀ hp ht => ?_,
        fun _ => ⟨hsize, fun l' hl' => ?_⟩⟩
      · cases hp
        exact ⟨rfl, rfl, hx, hy⟩
      · cases hp
        cases ht
        refine ⟨hne, rfl, hcontains, fun _ l' hl' => ?_⟩
        cases hl.symm.trans hl'
        rfl
      · cases hl.symm.trans hl'
        exact hlx
    rw [Option.bind_some, hl]
    exact hrecorded.still (Globals.Still.dispatch_press hevent)

theorem createWindow (hs : Held w h s) {d : Desk} (hshape : s.g.Shape d) (title : String) (x y width height : Nat) :
    Held w h { s with g := (s.g.createWindow title x y width height).2 } := by
  have hold : ∀ id < s.g.screen.currId,
      (s.g.createWindow title x y width height).2.screen.lm.layers id = s.g.screen.lm.layers id :=
    fun id hid => if_neg (Nat.ne_of_lt hid)
  refine ⟨hs.width, hs.height, fun id hid => ?_, fun object window hwindow => ?_, fun x' y' hpt => ?_, hs.first,
    hs.latest, fun p id l₀ hp ht => ?_, fun hne => ?_⟩
  · show Function.update s.g.screen.display s.g.screen.currId _ id = _
    by_cases he : id = s.g.screen.currId
    · rw [he, Function.update_self]
      exact Prod.ext hs.width hs.height
    · rw [Function.update_of_ne he]
      exact hs.display id (Nat.lt_of_le_of_ne (Nat.le_of_lt_succ hid) he)
  · change Function.update s.g.arena.map s.g.arena.currId _ object = _ at hwindow
    by_cases he : object = s.g.arena.currId
    · rw [he, Function.update_self] at hwindow
      cases hwindow
      rfl
    · rw [Function.update_of_ne he] at hwindow
      exact hs.bar object window hwindow
  · have hmouse : mouseLayerId < s.g.screen.currId := Nat.lt_of_succ_lt hshape.low
    refine hs.pointer x' y' ?_
    unfold DragRun.pointer Globals.place at hpt ⊢
    rwa [← hold _ hmouse]
  · obtain ⟨hne, hid, hc, hy⟩ := hs.target p id l₀ hp ht
    refine ⟨hne, hid, hc, fun hlow l hl => hy hlow l ?_⟩
    rwa [← hold id (hid ▸ hshape.pressed)]
  · obtain ⟨hsize, hl⟩ := hs.pressed hne
    refine ⟨hsize, fun l hl' => hl l ?_⟩
    rwa [← hold _ hshape.pressed]

/-- the pointer stays on the display -/
theorem moveMouse (hs : Held w h s) {d : Desk} (hshape : s.g.Shape d) {dx dy : Int32}
    (hm : s.g.moveMouse dx dy = some g') : Held w h { s with g := g' } := by
  obtain ⟨screen, hscreen, rfl⟩ := Option.map_eq_some_iff.mp hm
  obtain ⟨l, hl, rfl⟩ := Option.map_eq_some_iff.mp hscreen
  have hothers : ∀ id ≠ mouseLayerId, (if id = mouseLayerId then
      some (l.moveRel (s.g.screen.display mouseLayerId) dx dy) else s.g.screen.lm.layers id)
        = s.g.screen.lm.layers id :=
    fun id hid => if_neg hid
  have hdisplay := hs.display mouseLayerId (Nat.lt_of_succ_lt hshape.low)
  refine ⟨hs.width, hs.height, hs.display, hs.bar, fun x y hpt => ?_, hs.first, hs.latest, fun p id l₀ hp ht => ?_,
    fun hne => ?_⟩
  · have hpt : some ((l.moveRel (s.g.screen.display mouseLayerId) dx dy).x,
        (l.moveRel (s.g.screen.display mouseLayerId) dx dy).y) = some (x, y) := hpt
    rw [hdisplay] at hpt
    cases hpt
    exact ⟨clamp_le _, clamp_le _⟩
  · obtain ⟨hne, hid, hc, hy⟩ := hs.target p id l₀ hp ht
    exact ⟨hne, hid, hc, fun hlow l' hl' => hy hlow l' ((hothers id hne).symm.trans hl')⟩
  · obtain ⟨hsize, hl⟩ := hs.pressed hne
    exact ⟨hsize, fun l' hl' => hl l' ((hothers _ hne).symm.trans hl')⟩

end Held

/-! ## a release -/

namespace DragRun
variable {s s' : DragRun} {window : Window} {l : Layer} {x y : Nat}

/-- the layer that is recorded, at the place that `on_event` computes -/
def moved (s : DragRun) (l : Layer) (x y : Nat) : Globals VirtioGpu :=
  s.g.withLm (s.g.screen.lm.setLayer s.g.eventInfo.pressedId (l.moveAbs (s.g.screen.display s.g.eventInfo.pressedId)
    (Int32.ofNat x - (Int32.ofNat s.g.eventInfo.pressedX - Int32.ofNat l.x))
    (Int32.ofNat y - (Int32.ofNat s.g.eventInfo.pressedY - Int32.ofNat l.y))))

/-- no window is recorded -/
theorem release_other (h : s.release = some s')
    (hno : ∀ window, s.g.arena.map (s.g.object s.g.eventInfo.pressedId) ≠ some (.window window)) : s' = s := by
  obtain ⟨⟨x, y⟩, -, h⟩ := Option.bind_eq_some_iff.mp h
  obtain ⟨g', hevent, rfl⟩ := Option.map_eq_some_iff.mp h
  obtain ⟨l, -, hevent⟩ := Option.bind_eq_some_iff.mp hevent
  obtain ⟨obj, hobj, hevent⟩ := Option.bind_eq_some_iff.mp hevent
  cases obj with
  | mouse transparent =>
    cases hevent
    rfl
  | desktop =>
    cases hevent
    rfl
  | window window => exact absurd hobj (hno window)

/-- a window is recorded: nothing happens below its title bar -/
theorem release_window (h : s.release = some s')
    (hw : s.g.arena.map (s.g.object s.g.eventInfo.pressedId) = some (.window window))
    (hl : s.g.screen.lm.layers s.g.eventInfo.pressedId = some l) (hpt : s.pointer = some (x, y)) :
    if u32 (l.y + window.titleBarHeight) < s.g.eventInfo.pressedY then s' = s
    else (s.moved l x y).Still s'.g ∧ s'.latest = s.latest := by
  unfold release at h
  rw [hpt, Option.bind_some] at h
  obtain ⟨g', hevent, rfl⟩ := Option.map_eq_some_iff.mp h
  change (s.g.screen.lm.layers s.g.eventInfo.pressedId).bind _ = _ at hevent
  rw [hl, Option.bind_some, hw, Option.bind_some] at hevent
  change (s.g.screen.lm.layers s.g.eventInfo.pressedId).bind _ = _ at hevent
  rw [hl, Option.bind_some] at hevent
  dsimp only at hevent
  split
  · rw [if_pos ‹_›] at hevent
    cases hevent
    rfl
  · rw [if_neg ‹_›] at hevent
    obtain ⟨g₁, hmove, hupdate⟩ := Option.bind_eq_some_iff.mp hevent
    obtain ⟨screen, hscreen, rfl⟩ := Option.map_eq_some_iff.mp hmove
    unfold Screen.moveAbs Screen.change at hscreen
    rw [hl] at hscreen
    cases hscreen
    exact ⟨Globals.Still.update hupdate, rfl⟩

theorem moved_others {id : LayerId} (hid : id ≠ s.g.eventInfo.pressedId) :
    (s.moved l x y).screen.lm.layers id = s.g.screen.lm.layers id := if_neg hid

end DragRun

namespace Held
variable {w h : Nat} {s s' : DragRun} {window : Window} {l : Layer} {x y : Nat}

/-- a window that is recorded was pressed -/
theorem window_bounds (hs : Held w h s) {d : Desk} (hshape : s.g.Shape d)
    (hw : s.g.arena.map (s.g.object s.g.eventInfo.pressedId) = some (.window window))
    (hl : s.g.screen.lm.layers s.g.eventInfo.pressedId = some l) (hpt : s.pointer = some (x, y)) :
    s.g.eventInfo.pressedId ≠ mouseLayerId ∧ window.titleBarHeight = 30 ∧ (w < 2^30 ∧ x ≤ w ∧ l.x ≤ w ∧
      s.g.eventInfo.pressedX ≤ w) ∧ h < 2^30 ∧ y ≤ h ∧ l.y ≤ h ∧ s.g.eventInfo.pressedY ≤ h := by
  have hne : s.g.eventInfo.pressedId ≠ mouseLayerId := by
    intro he
    obtain ⟨transparent, hmouse⟩ := hshape.mouse
    rw [he, hmouse] at hw
    cases hw
  have hlt : 2^30 < 2^31 := by decide
  obtain ⟨⟨hwlt, hhlt⟩, hlayer⟩ := hs.pressed hne
  obtain ⟨hlx, hly⟩ := hlayer l hl
  obtain ⟨hx, hy⟩ := hs.pointer x y hpt
  obtain ⟨p, hp⟩ := Option.ne_none_iff_exists'.mp fun hnone => hne (hs.first hnone)
  obtain ⟨hpx, hpy, hxw, hyh⟩ := hs.latest p hp
  rw [← hpx, ← hpy]
  exact ⟨hne, hs.bar _ window hw, ⟨hwlt, hx (hwlt.trans hlt), hlx, hxw (hwlt.trans hlt)⟩, hhlt,
    hy (hhlt.trans hlt), hly, hyh (hhlt.trans hlt)⟩

/-- the window goes where the drag takes it -/
theorem moved_place (hs : Held w h s) {d : Desk} (hshape : s.g.Shape d)
    (hw : s.g.arena.map (s.g.object s.g.eventInfo.pressedId) = some (.window window))
    (hl : s.g.screen.lm.layers s.g.eventInfo.pressedId = some l) (hpt : s.pointer = some (x, y)) :
    (s.moved l x y).place s.g.eventInfo.pressedId
      = some (s.dragged l x y s.g.eventInfo.pressedX s.g.eventInfo.pressedY) := by
  obtain ⟨-, -, ⟨hwlt, hx, hlx, hpx⟩, hhlt, hy, hly, hpy⟩ := hs.window_bounds hshape hw hl hpt
  have hlt : 2^30 < 2^31 := by decide
  have hdisplay := hs.display _ hshape.pressed
  have hset : (s.moved l x y).screen.lm.layers s.g.eventInfo.pressedId = _ := if_pos rfl
  unfold Globals.place DragRun.dragged
  rw [hset, hdisplay, hs.width, hs.height, Option.map_some]
  unfold Layer.moveAbs
  dsimp only
  rw [clamp_eq _ (hwlt.trans hlt), clamp_eq _ (hhlt.trans hlt),
    toInt_drag (hx.trans_lt hwlt) (hpx.trans_lt hwlt) (hlx.trans_lt hwlt),
    toInt_drag (hy.trans_lt hhlt) (hpy.trans_lt hhlt) (hly.trans_lt hhlt)]

theorem moved (hs : Held w h s) {d : Desk} (hshape : s.g.Shape d)
    (hw : s.g.arena.map (s.g.object s.g.eventInfo.pressedId) = some (.window window))
    (hl : s.g.screen.lm.layers s.g.eventInfo.pressedId = some l) (hpt : s.pointer = some (x, y))
    (hbar : ¬u32 (l.y + window.titleBarHeight) < s.g.eventInfo.pressedY) : Held w h { s with g := s.moved l x y } := by
  obtain ⟨hne, h30, ⟨hwlt, -⟩, hhlt, -, hly, -⟩ := hs.window_bounds hshape hw hl hpt
  have hlt : 2^30 < 2^31 := by decide
  have hdisplay := hs.display _ hshape.pressed
  refine ⟨hs.width, hs.height, hs.display, hs.bar, fun x' y' hpt' => ?_, hs.first, hs.latest, fun p id l₀ hp ht => ?_,
    fun _ => ⟨⟨hwlt, hhlt⟩, fun l' hl' => ?_⟩⟩
  · refine hs.pointer x' y' ?_
    unfold DragRun.pointer Globals.place at hpt' ⊢
    rwa [← DragRun.moved_others (Ne.symm hne)]
  · obtain ⟨hmouse, hid, hc, hy⟩ := hs.target p id l₀ hp ht
    refine ⟨hmouse, hid, hc, fun hlow => absurd ?_ hbar⟩
    -- below the title bar it would not have been moved
    have he := hy hlow l (hid ▸ hl)
    have hu : u32 (l.y + 30) = l.y + 30 := Nat.mod_eq_of_lt (by omega)
    rw [h30, hu, he, ← (hs.latest p hp).2.1]
    exact hlow
  · have hl' : some _ = some l' := (if_pos rfl).symm.trans hl'
    rw [hdisplay] at hl'
    cases hl'
    exact ⟨clamp_le _ (hwlt.trans hlt), clamp_le _ (hhlt.trans hlt)⟩

theorem release (hs : Held w h s) {d : Desk} (hshape : s.g.Shape d) (hstep : s.release = some s') : Held w h s' := by
  by_cases hno : ∀ window, s.g.arena.map (s.g.object s.g.eventInfo.pressedId) ≠ some (.window window)
  · rw [DragRun.release_other hstep hno]
    exact hs
  · obtain ⟨window, hw⟩ := not_forall_not.mp hno
    obtain ⟨⟨x, y⟩, hpt, -⟩ := Option.bind_eq_some_iff.mp hstep
    obtain ⟨l, hl⟩ := Option.isSome_iff_exists.mp (hshape.layer _ hshape.pressed)
    have hrelease := DragRun.release_window hstep hw hl hpt
    split at hrelease
    · rw [hrelease]
      exact hs
    · have hm := (hs.moved hshape hw hl hpt ‹_›).still hrelease.1
      obtain ⟨g', latest⟩ := s'
      obtain ⟨-, rfl⟩ := hrelease
      exact hm

/-- the row below the title bar is computed without a wrap -/
theorem title_bar (hs : Held w h s) {d : Desk} (hshape : s.g.Shape d)
    (hw : s.g.arena.map (s.g.object s.g.eventInfo.pressedId) = some (.window window))
    (hl : s.g.screen.lm.layers s.g.eventInfo.pressedId = some l) (hpt : s.pointer = some (x, y)) :
    u32 (l.y + window.titleBarHeight) = l.y + window.titleBarHeight := by
  obtain ⟨-, h30, -, hhlt, -, hly, -⟩ := hs.window_bounds hshape hw hl hpt
  rw [h30]
  exact Nat.mod_eq_of_lt (by omega)

/-- what a release leaves of a window that was grabbed: it goes where the drag takes it, and nothing else moves -/
theorem release_place (hs : Held w h s) {d : Desk} (hshape : s.g.Shape d) (hstep : s.release = some s')
    (hw : s.g.arena.map (s.g.object s.g.eventInfo.pressedId) = some (.window window))
    (hl : s.g.screen.lm.layers s.g.eventInfo.pressedId = some l) (hpt : s.pointer = some (x, y))
    (hbar : ¬l.y + window.titleBarHeight < s.g.eventInfo.pressedY) :
    s'.g.place s.g.eventInfo.pressedId = some (s.dragged l x y s.g.eventInfo.pressedX s.g.eventInfo.pressedY) ∧
      ∀ id ≠ s.g.eventInfo.pressedId, s'.g.place id = s.g.place id := by
  have hrelease := DragRun.release_window hstep hw hl hpt
  rw [hs.title_bar hshape hw hl hpt, if_neg hbar] at hrelease
  refine ⟨(hrelease.1.place _).trans (hs.moved_place hshape hw hl hpt), fun id hid => ?_⟩
  refine (hrelease.1.place id).trans ?_
  unfold Globals.place
  rw [DragRun.moved_others hid]

theorem steady_of_drags (hs : Held w h s) {d : Desk} (hshape : s.g.Shape d) {art : Art}
    (hd : DragRun.Drags art s .release) : s.steady .release := by
  intro window l x y hw hl hpt
  by_cases hbar : l.y + window.titleBarHeight < s.g.eventInfo.pressedY
  · exact .inl hbar
  by_cases hplace : s.dragged l x y s.g.eventInfo.pressedX s.g.eventInfo.pressedY = (l.x, l.y)
  · exact .inr (.inl hplace)
  -- the window is moved, so it was grabbed
  obtain ⟨g', hevent, -⟩ := hshape.release x y
  have hstep : s.release = some { s with g := g' } := by
    unfold DragRun.release
    rw [hpt, Option.bind_some]
    dsimp only
    rw [hevent]
    rfl
  have hmove : g'.place s.g.eventInfo.pressedId ≠ s.g.place s.g.eventInfo.pressedId := by
    rw [(hs.release_place hshape hstep hw hl hpt hbar).1, Globals.place_of_layer hl]
    exact fun he => hplace (Option.some.inj he)
  obtain ⟨p, l₀, -, window', -, -, hp, ht, hw', ⟨-, hin⟩, -⟩ := hd _ hstep _ hmove
  cases hw.symm.trans hw'
  exact .inr (.inr ⟨p, _, l₀, hp, ht, Nat.ne_of_lt hin⟩)

theorem drags_of_steady (hs : Held w h s) {d : Desk} (hshape : s.g.Shape d) {art : Art} (hok : s.steady .release) :
    DragRun.Drags art s .release := by
  intro s' hstep id hmove
  by_cases hno : ∀ window, s.g.arena.map (s.g.object s.g.eventInfo.pressedId) ≠ some (.window window)
  · rw [DragRun.release_other hstep hno] at hmove
    exact absurd rfl hmove
  obtain ⟨window, hw⟩ := not_forall_not.mp hno
  obtain ⟨⟨x, y⟩, hpt, -⟩ := Option.bind_eq_some_iff.mp hstep
  obtain ⟨l, hl⟩ := Option.isSome_iff_exists.mp (hshape.layer _ hshape.pressed)
  by_cases hbar : l.y + window.titleBarHeight < s.g.eventInfo.pressedY
  · have hrelease := DragRun.release_window hstep hw hl hpt
    rw [hs.title_bar hshape hw hl hpt, if_pos hbar] at hrelease
    exact absurd (congrArg (·.g.place id) hrelease) hmove
  obtain ⟨hnew, hothers⟩ := hs.release_place hshape hstep hw hl hpt hbar
  have hid : id = s.g.eventInfo.pressedId := by
    by_contra hid
    exact hmove (hothers id hid)
  rcases hok window l x y hw hl hpt with hlow | hplace | ⟨p, id', l₀, hp, ht, hrow⟩
  · exact absurd hlow hbar
  · rw [hid, hnew, Globals.place_of_layer hl, hplace] at hmove
    exact absurd rfl hmove
  · obtain ⟨-, hid', hc, hkept⟩ := hs.target p id' l₀ hp ht
    obtain ⟨hpx, hpy, -⟩ := hs.latest p hp
    -- in a row below the bar the window would not have been moved since
    have hin : p.y < l₀.y + window.titleBarHeight := by
      obtain ⟨-, h30, -⟩ := hs.window_bounds hshape hw hl hpt
      by_contra hle
      have he := hkept (by omega) l (hid' ▸ hl)
      omega
    refine ⟨p, l₀, l, window, x, y, hp, ?_, hid ▸ hw, ⟨hc, hin⟩, hid ▸ hl, hpt, ?_⟩
    · rw [ht, hid, hid']
    · rw [hid, hnew, hpx, hpy]

/-- **A release** drags the window that was grabbed exactly when it is steady. -/
theorem drags_iff (hs : Held w h s) {d : Desk} (hshape : s.g.Shape d) (art : Art) :
    DragRun.Drags art s .release ↔ s.steady .release :=
  ⟨hs.steady_of_drags hshape, hs.drags_of_steady hshape⟩

end Held

/-! ## runs -/

namespace DragRun
variable {w h : Nat} {art : Art} {s s' : DragRun}

/-- what is shown and updated is a window of the window manager -/
theorem known_showWindow {g g' : Globals VirtioGpu} {id : ObjectId} (hstep : g.showWindow art id = some g') :
    (g.map id).isSome := by
  obtain ⟨obj, -, hstep⟩ := Option.bind_eq_some_iff.mp hstep
  obtain ⟨layerId, hmap, -⟩ := Option.bind_eq_some_iff.mp hstep
  exact Option.isSome_iff_exists.mpr ⟨layerId, hmap⟩

theorem known_updateWindowFrame {g g' : Globals VirtioGpu} {id : ObjectId} {words : Nat → UInt32}
    (hstep : g.updateWindowFrame id words = some g') : (g.map id).isSome := by
  obtain ⟨obj, -, hstep⟩ := Option.bind_eq_some_iff.mp hstep
  obtain ⟨layerId, hmap, -⟩ := Option.bind_eq_some_iff.mp hstep
  exact Option.isSome_iff_exists.mpr ⟨layerId, hmap⟩

theorem shape_moveMouse {g g' : Globals VirtioGpu} {d : Desk} (hshape : g.Shape d) {dx dy : Int32}
    (hm : g.moveMouse dx dy = some g') : g'.Shape d := by
  obtain ⟨lm, hchange, hs⟩ := hshape.change (Nat.lt_of_succ_lt hshape.low)
    (Layer.moveRel (g.screen.display mouseLayerId) dx dy)
  obtain ⟨screen, hscreen, rfl⟩ := Option.map_eq_some_iff.mp hm
  cases hchange.symm.trans hscreen
  exact hs

/-- every step keeps the desk and what is held of the run -/
theorem step_held {a : DragAction} (hs : (∃ d, s.g.Shape d) ∧ Held w h s) (hstep : step art a s = some s') :
    (∃ d, s'.g.Shape d) ∧ Held w h s' := by
  obtain ⟨⟨d, hshape⟩, hs⟩ := hs
  cases a with
  | createWindow title x y width height =>
    cases hstep
    exact ⟨⟨d, hshape.createWindow title x y width height⟩, hs.createWindow hshape title x y width height⟩
  | showWindow id =>
    obtain ⟨g', hg, rfl⟩ := Option.map_eq_some_iff.mp hstep
    obtain ⟨g'', hg', hd⟩ := hshape.step art (r := .showWindow id) (known_showWindow hg)
    cases hg.symm.trans hg'
    exact ⟨hd, hs.still (Globals.Still.showWindow hg)⟩
  | updateWindowFrame id words =>
    obtain ⟨g', hg, rfl⟩ := Option.map_eq_some_iff.mp hstep
    obtain ⟨g'', hg', hd⟩ := hshape.step art (r := .updateWindowFrame id words) (known_updateWindowFrame hg)
    cases hg.symm.trans hg'
    exact ⟨hd, hs.still (Globals.Still.updateWindowFrame hg)⟩
  | relX value =>
    obtain ⟨g', hg, rfl⟩ := Option.map_eq_some_iff.mp hstep
    exact ⟨⟨d, shape_moveMouse hshape hg⟩, hs.moveMouse hshape hg⟩
  | relY value =>
    obtain ⟨g', hg, rfl⟩ := Option.map_eq_some_iff.mp hstep
    exact ⟨⟨d, shape_moveMouse hshape hg⟩, hs.moveMouse hshape hg⟩
  | syn =>
    obtain ⟨g', hg, rfl⟩ := Option.map_eq_some_iff.mp hstep
    obtain ⟨lm, hg', hd⟩ := hshape.update (Nat.lt_of_succ_lt hshape.low)
    cases hg.symm.trans hg'
    exact ⟨⟨d, hd⟩, hs.still (Globals.Still.update hg)⟩
  | press =>
    have hheld := hs.press hshape.present hstep
    obtain ⟨⟨x, y⟩, -, hstep⟩ := Option.bind_eq_some_iff.mp hstep
    obtain ⟨g', hevent, rfl⟩ := Option.map_eq_some_iff.mp hstep
    obtain ⟨g'', d', hevent', hd, -⟩ := hshape.press x y
    cases hevent.symm.trans hevent'
    exact ⟨⟨d', hd⟩, hheld⟩
  | release =>
    have hheld := hs.release hshape hstep
    obtain ⟨⟨x, y⟩, -, hstep⟩ := Option.bind_eq_some_iff.mp hstep
    obtain ⟨g', hevent, rfl⟩ := Option.map_eq_some_iff.mp hstep
    obtain ⟨g'', hevent', hd⟩ := hshape.release x y
    cases hevent.symm.trans hevent'
    exact ⟨⟨d, hd⟩, hheld⟩

theorem drags_iff_steady (hs : (∃ d, s.g.Shape d) ∧ Held w h s) (a : DragAction) : Drags art s a ↔ s.steady a := by
  obtain ⟨⟨d, hshape⟩, hs⟩ := hs
  cases a with
  | release => exact hs.drags_iff hshape art
  | _ => exact Iff.rfl

theorem init_held {display : VirtioGpu} (hinit : init art display = some s) : Held display.width display.height s := by
  obtain ⟨g, hg, rfl⟩ := Option.map_eq_some_iff.mp hinit
  unfold Globals.init at hg
  obtain ⟨screen, hscreen, rfl⟩ := Option.map_eq_some_iff.mp hg
  rw [init_eq] at hscreen
  obtain ⟨lm, hlm, rfl⟩ := Option.map_eq_some_iff.mp hscreen
  have hkept := LayerManager.drawAll_kept hlm
  refine ⟨hkept.width, hkept.height, fun id hid => ?_, fun object window hwindow => ?_, fun x y hpt => ?_, fun _ => rfl,
    nofun, nofun, fun hne => absurd rfl hne⟩
  · obtain rfl | rfl := Nat.le_one_iff_eq_zero_or_eq_one.mp (Nat.le_of_lt_succ (show id < 2 from hid))
    · rfl
    · rfl
  · change Function.update (Function.update (fun _ => none) 0 (some (Object.mouse mouseTransparentColor))) 1
      (some Object.desktop) object = _ at hwindow
    by_cases h1 : object = 1
    · rw [h1, Function.update_self] at hwindow
      cases hwindow
    rw [Function.update_of_ne h1] at hwindow
    by_cases h0 : object = 0
    · rw [h0, Function.update_self] at hwindow
      cases hwindow
    · rw [Function.update_of_ne h0] at hwindow
      cases hwindow
  · have hrect := congrArg (Option.map Prod.fst) (hkept.rect mouseLayerId)
    rw [Option.map_map, Option.map_map] at hrect
    have hpt : some (0, 0) = some (x, y) := hrect.symm.trans hpt
    cases hpt
    exact ⟨fun _ => Nat.zero_le _, fun _ => Nat.zero_le _⟩

end DragRun

/-- **A drag moves only the window that was grabbed**, in a run from `graphics::init` on with any windows and any
events of the mouse, exactly if every release of it is steady: no window is recorded, or the latest press was below its
title bar, or the window is already where the drag takes it, or the latest press went to a layer and was not in the row
directly below the title bar. -/
theorem drag_iff (art : Art) (display : VirtioGpu) : ∃ s₀, DragRun.init art display = some s₀ ∧
    ∀ actions, Throughout (DragRun.step art) (DragRun.Drags art) actions s₀ ↔
      Throughout (DragRun.step art) DragRun.steady actions s₀ := by
  obtain ⟨g₀, d₀, hinit, hshape, -⟩ := Globals.init_shape art display
  have hrun : DragRun.init art display = some ⟨g₀, none⟩ := by
    unfold DragRun.init
    rw [hinit]
    rfl
  have hheld := DragRun.init_held hrun
  refine ⟨⟨g₀, none⟩, hrun, fun actions => ?_⟩
  constructor
  · exact Throughout.imp (fun s => (∃ d, s.g.Shape d) ∧ Held display.width display.height s)
      (fun s a s' hs _ h => DragRun.step_held hs h) (fun s a hs => (DragRun.drags_iff_steady hs a).mp) actions
      ⟨⟨d₀, hshape⟩, hheld⟩
  · exact Throughout.imp (fun s => (∃ d, s.g.Shape d) ∧ Held display.width display.height s)
      (fun s a s' hs _ h => DragRun.step_held hs h) (fun s a hs => (DragRun.drags_iff_steady hs a).mpr) actions
      ⟨⟨d₀, hshape⟩, hheld⟩

/-- a window of two by two in the corner of the display is pressed and released; then the mouse is pressed at the left
edge, where it finds no layer, and released elsewhere -/
def strayPress : List DragAction :=
  [.createWindow "a" 0 0 2 2, .showWindow 2, .relX 1, .relY 1, .press, .release, .relX (-1), .relY 1, .press, .relX 2]

/-- the stray press drags the window that was pressed before -/
theorem drag_fails : ∃ s₀, DragRun.init Globals.plain Globals.small = some s₀ ∧
    ∃ s, run (DragRun.step Globals.plain) strayPress s₀ = some s ∧ (s.latest.map fun p => p.target.isNone) = some true ∧
      ¬DragRun.Drags Globals.plain s .release ∧
      ¬Throughout (DragRun.step Globals.plain) (DragRun.Drags Globals.plain) (strayPress ++ [.release]) s₀ := by
  have h : (DragRun.init Globals.plain Globals.small).any (fun s₀ =>
      (run (DragRun.step Globals.plain) strayPress s₀).any fun s =>
        (s.latest.any fun p => p.target.isNone) && (DragRun.step Globals.plain .release s).any fun s' =>
          s'.g.place 2 != s.g.place 2) = true := by
    decide +kernel
  obtain ⟨s₀, h₀, h⟩ := (Option.any_eq_true _ _).mp h
  obtain ⟨s, hs, h⟩ := (Option.any_eq_true _ _).mp h
  obtain ⟨hnone, h⟩ := Bool.and_eq_true_iff.mp h
  obtain ⟨s', hs', hmove⟩ := (Option.any_eq_true _ _).mp h
  obtain ⟨p, hp, htarget⟩ := (Option.any_eq_true _ _).mp hnone
  have hno : ¬DragRun.Drags Globals.plain s .release := by
    intro hd
    obtain ⟨p', l₀, -, -, -, -, hp', ht, -⟩ := hd s' hs' 2 (by simpa using hmove)
    cases hp.symm.trans hp'
    rw [ht] at htarget
    cases htarget
  refine ⟨s₀, h₀, s, hs, ?_, hno, fun hall => hno (Throughout.last hall hs)⟩
  rw [hp]
  exact congrArg some htarget

end Citron.Graphics
