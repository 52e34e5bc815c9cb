import Citron.Graphics.Screen
import Citron.Lib.Trace

/-!
# Stale pixels

`update` clears what its layer has drawn in its old rectangle and nowhere else.  But a layer is also drawn by
`draw_all`, and when another layer is updated, and neither of these records where.  A layer that is then changed
again leaves pixels behind.

* `ScreenRun`              the screen, the layers that are to be updated (`dirty`), and those that were drawn
                           outside their old rectangle (`away`);
* `inPlace`                the layers that are away are not moved or hidden;
* `Right`                  what the frame shows while layers are dirty;
* `no_stale_pixels`        with no layer dirty, the frame is the composition of the stack;
* `stale_after_init`       the mouse is moved once.
-/

namespace Citron.Graphics
open Overlay Trace

/-- the layer is in its old rectangle -/
def Layer.stays (l : Layer) : Bool :=
  l.x == l.prevX && l.y == l.prevY && l.width == l.prevWidth && l.height == l.prevHeight

structure ScreenRun where
  screen : Screen VirtioGpu
  dirty : List LayerId
  away : List LayerId

inductive ScreenAction where
  | createLayer (x y width height : Nat)
  | moveLayer (id : LayerId) (newHeight : Int)
  | hideLayer (id : LayerId)
  | moveRel (id : LayerId) (x y : Int32)
  | moveAbs (id : LayerId) (x y : Int32)
  | updateBuffer (id : LayerId) (draw : Drawing)
  | update (id : LayerId)

namespace ScreenRun

def lm (s : ScreenRun) : LayerManager VirtioGpu := s.screen.lm

/-- the layers of the stack that are not in their old rectangle -/
def outOfPlace (screen : Screen VirtioGpu) : List LayerId :=
  screen.lm.layerStack.filter fun id => (screen.lm.layers id).any fun l => !l.stays

/-- a layer has changed -/
def touch (s : ScreenRun) (id : LayerId) (screen : Screen VirtioGpu) : ScreenRun :=
  ⟨screen, id :: s.dirty, s.away⟩

def step : ScreenAction → ScreenRun → Option ScreenRun
  | .createLayer x y width height, s => some { s with screen := s.screen.createLayer x y width height }
  | .moveLayer id newHeight, s => (s.screen.moveLayer id newHeight).map (s.touch id)
  | .hideLayer id, s => some (s.touch id (s.screen.hideLayer id))
  | .moveRel id x y, s => (s.screen.moveRel id x y).map (s.touch id)
  | .moveAbs id x y, s => (s.screen.moveAbs id x y).map (s.touch id)
  | .updateBuffer id draw, s => (s.screen.updateBuffer id draw).map (s.touch id)
  | .update id, s => (s.screen.update id).map fun screen =>
      ⟨screen, s.dirty.filter (· ≠ id), outOfPlace screen ++ s.away.filter (· ≠ id)⟩

/-- after `graphics::init` on the display `g` -/
def init (g : VirtioGpu) (draw : LayerId → Drawing) : Option ScreenRun :=
  (Screen.init g draw).map fun screen => ⟨screen, [], outOfPlace screen⟩

/-- a layer that was drawn outside its old rectangle is not moved or hidden before it is updated, nor drawn anew if
it has a transparent colour; and the coordinates of the layers stay below `2^32` -/
def inPlace (s : ScreenRun) : ScreenAction → Bool
  | .createLayer x y width height =>
    decide (x + width < 2^32 ∧ y + height < 2^32 ∧ s.lm.painter.width + width < 2^32 ∧
      s.lm.painter.height + height < 2^32)
  | .moveLayer id newHeight => !s.away.contains id || decide (0 ≤ newHeight)
  | .hideLayer id => !s.away.contains id
  | .moveRel id _ _ => !s.away.contains id
  | .moveAbs id _ _ => !s.away.contains id
  | .updateBuffer id _ => !s.away.contains id || (s.lm.layers id).any fun l => l.transparent.isNone
  | .update _ => true

end ScreenRun

/-! ## layers -/

/-- the coordinates of the layer are `u32`, now, before and wherever it is moved on a display of `w` by `h` -/
structure Layer.Placed (l : Layer) (w h : Nat) : Prop where
  fits : l.Fits
  prevX : l.prevX + l.prevWidth < 2^32
  prevY : l.prevY + l.prevHeight < 2^32
  width : w + l.width < 2^32
  height : h + l.height < 2^32

/-- the old rectangle -/
def Layer.before (l : Layer) {w h : Nat} (q : Pixel w h) : Bool := inRect l.prevX l.prevY l.prevWidth l.prevHeight q

structure Layer.SamePrev (l l' : Layer) : Prop where
  x : l'.prevX = l.prevX
  y : l'.prevY = l.prevY
  width : l'.prevWidth = l.prevWidth
  height : l'.prevHeight = l.prevHeight

variable {l l' : Layer} {w h : Nat}

theorem new_placed {x y width height : Nat} (hx : x + width < 2^32) (hy : y + height < 2^32) (hw : w + width < 2^32)
    (hh : h + height < 2^32) : (Layer.new x y width height).Placed w h :=
  ⟨⟨hx, hy⟩, show 0 + 0 < 2^32 by decide, show 0 + 0 < 2^32 by decide, hw, hh⟩

theorem Layer.SamePrev.before (hl : l.SamePrev l') (q : Pixel w h) : l'.before q = l.before q := by
  unfold Layer.before
  rw [hl.x, hl.y, hl.width, hl.height]

theorem image_stays (hl : l.stays = true) {q : Pixel w h} (hq : l.before q = false) : l.image q = none := by
  simp only [Layer.stays, Bool.and_eq_true, beq_iff_eq] at hl
  obtain ⟨⟨⟨hx, hy⟩, hw⟩, hh⟩ := hl
  unfold Layer.image within
  unfold Layer.before at hq
  rw [hx, hy, hw, hh, hq]
  rfl

theorem colour_of_transparent_none (hl : l.transparent = none) (x y : Nat) :
    l.colour x y = some (l.buffer.getPixel (x - l.x) (y - l.y)) := by
  unfold Layer.colour
  rw [hl]
  exact if_neg nofun

/-- a layer without transparent colour shows where it did, whatever is drawn into its buffer -/
theorem image_drawToBuffer (hl : l.transparent = none) (draw : Drawing) (q : Pixel w h)
    (hq : (l.drawToBuffer draw).image q = none) : l.image q = none := by
  unfold Layer.image within at hq ⊢
  split at hq
  · have ht : (l.drawToBuffer draw).transparent = none := hl
    cases (colour_of_transparent_none ht _ _).symm.trans hq
  · rename_i hn
    exact if_neg hn

/-! ## the frame while layers are dirty -/

/-- Outside the old rectangles of the dirty layers, and where those of them that are away do not show, the frame
is the composition of the layers that are not dirty. -/
structure Right (w h : Nat) (s : ScreenRun) : Prop where
  sized : Sized s.lm.painter w h
  nodup : s.lm.layerStack.Nodup
  layer : ∀ id l, s.lm.layers id = some l → l.Placed w h ∧ s.screen.display id = (w, h)
  fresh : ∀ id, s.screen.currId ≤ id → s.lm.layers id = none
  missing : ∀ id ∈ s.lm.layerStack, s.lm.layers id = none → id ∈ s.dirty
  visible : ∀ id ∈ s.away, id ∈ s.lm.layerStack ∧ ∃ l, s.lm.layers id = some l
  place : ∀ id ∈ s.lm.layerStack, id ∉ s.dirty → id ∉ s.away → ∀ l, s.lm.layers id = some l → l.stays = true
  pixel : ∀ q : Pixel w h, (∀ id ∈ s.dirty, ∀ l, s.lm.layers id = some l → l.before q = false) →
    (∀ id ∈ s.dirty, id ∈ s.away → layerImage s.lm.layers id q = none) →
    ∀ c, comp s.lm.layers (s.lm.layerStack.filter (· ∉ s.dirty)) q = some c →
    VirtioGpu.canvas.frame s.lm.painter q = VirtioGpu.canvas.encode c

variable {s s' : ScreenRun}

/-- what the operations other than `update` leave alone, when they change the layer `id` -/
structure Changed (id : LayerId) (screen screen' : Screen VirtioGpu) : Prop where
  painter : screen'.lm.painter = screen.lm.painter
  currId : screen'.currId = screen.currId
  display : screen'.display = screen.display
  nodup : screen.lm.layerStack.Nodup → screen'.lm.layerStack.Nodup
  others : screen'.lm.layerStack.filter (· ≠ id) = screen.lm.layerStack.filter (· ≠ id)
  layers : ∀ a, a ≠ id → screen'.lm.layers a = screen.lm.layers a
  prev : (screen'.lm.layers id = none ∧ screen.lm.layers id = none) ∨
    ∃ l l', screen.lm.layers id = some l ∧ screen'.lm.layers id = some l' ∧ l.SamePrev l'

theorem Changed.mem {id : LayerId} {screen screen' : Screen VirtioGpu} (hc : Changed id screen screen') {a : LayerId}
    (ha : a ≠ id) : a ∈ screen'.lm.layerStack ↔ a ∈ screen.lm.layerStack := by
  have h : ∀ stack : List LayerId, a ∈ stack.filter (· ≠ id) ↔ a ∈ stack := fun stack => by
    rw [List.mem_filter, and_iff_left (decide_eq_true ha)]
  rw [← h screen'.lm.layerStack, ← h screen.lm.layerStack, hc.others]

theorem Changed.exists_iff {id : LayerId} {screen screen' : Screen VirtioGpu} (hc : Changed id screen screen')
    (a : LayerId) : (∃ l, screen'.lm.layers a = some l) ↔ ∃ l, screen.lm.layers a = some l := by
  by_cases e : a = id
  · subst e
    rcases hc.prev with ⟨h1, h2⟩ | ⟨l, l', h1, h2, -⟩
    · exact iff_of_false (fun ⟨l, e⟩ => by cases h1.symm.trans e) (fun ⟨l, e⟩ => by cases h2.symm.trans e)
    · exact iff_of_true ⟨l', h2⟩ ⟨l, h1⟩
  · rw [hc.layers a e]

/-- every layer keeps its old rectangle -/
theorem Changed.before {id : LayerId} {screen screen' : Screen VirtioGpu} (hc : Changed id screen screen')
    {a : LayerId} {l : Layer} (hl : screen.lm.layers a = some l) (q : Pixel w h) :
    ∃ l', screen'.lm.layers a = some l' ∧ l'.before q = l.before q := by
  by_cases e : a = id
  · subst e
    rcases hc.prev with ⟨-, h2⟩ | ⟨l₀, l', h1, h2, hprev⟩
    · cases h2.symm.trans hl
    · cases h1.symm.trans hl
      exact ⟨l', h2, hprev.before q⟩
  · exact ⟨l, (hc.layers a e).trans hl, rfl⟩

theorem filter_notMem_cons (id : LayerId) (dirty stack : List LayerId) :
    stack.filter (· ∉ id :: dirty) = (stack.filter (· ≠ id)).filter (· ∉ dirty) := by
  rw [List.filter_filter]
  refine List.filter_congr fun a _ => ?_
  rw [← Bool.decide_and]
  exact decide_eq_decide.mpr (by rw [List.mem_cons, not_or, and_comm])

/-- the layers that are not dirty are as they were -/
theorem Changed.comp_clean {id : LayerId} {screen screen' : Screen VirtioGpu} (hc : Changed id screen screen')
    (dirty : List LayerId) (q : Pixel w h) :
    comp screen'.lm.layers (screen'.lm.layerStack.filter (· ∉ id :: dirty)) q
      = comp screen.lm.layers (screen.lm.layerStack.filter (· ∉ id :: dirty)) q := by
  rw [filter_notMem_cons, hc.others, ← filter_notMem_cons]
  refine congrFun (comp_congr fun a ha => hc.layers a ?_) q
  rintro rfl
  exact of_decide_eq_true (List.mem_filter.mp ha).2 List.mem_cons_self

/-- the layer shows nowhere outside its old rectangle -/
theorem Right.hidden (hs : Right w h s) {id : LayerId} (hd : id ∉ s.dirty) (ha : id ∉ s.away)
    (hid : id ∈ s.lm.layerStack) {q : Pixel w h} (hq : ∀ l, s.lm.layers id = some l → l.before q = false) :
    layerImage s.lm.layers id q = none := by
  cases hl : s.lm.layers id with
  | none =>
    unfold layerImage
    rw [hl]
  | some l =>
    rw [layerImage_eq hl]
    exact image_stays (hs.place id hid hd ha l hl) (hq l hl)

/-- one more layer may be held to be dirty -/
theorem Right.pixel_cons (hs : Right w h s) {id : LayerId} {q : Pixel w h}
    (hbefore : ∀ a ∈ id :: s.dirty, ∀ l, s.lm.layers a = some l → l.before q = false)
    (himage : ∀ a ∈ id :: s.dirty, a ∈ s.away → layerImage s.lm.layers a q = none) {c : UInt32}
    (hcomp : comp s.lm.layers (s.lm.layerStack.filter (· ∉ id :: s.dirty)) q = some c) :
    VirtioGpu.canvas.frame s.lm.painter q = VirtioGpu.canvas.encode c := by
  refine hs.pixel q (fun a ha => hbefore a (List.mem_cons_of_mem id ha))
    (fun a ha => himage a (List.mem_cons_of_mem id ha)) c ?_
  rw [← hcomp]
  by_cases hd : id ∈ s.dirty
  · congr 1
    refine List.filter_congr fun a _ => decide_eq_decide.mpr ?_
    rw [List.mem_cons, not_or]
    exact ⟨fun h => ⟨fun e => h (e ▸ hd), h⟩, And.right⟩
  · have hid : id ∈ s.lm.layerStack → layerImage s.lm.layers id q = none := by
      intro hid
      by_cases haw : id ∈ s.away
      · exact himage id List.mem_cons_self haw
      · exact hs.hidden hd haw hid (hbefore id List.mem_cons_self)
    rw [filter_notMem_cons, List.filter_comm]
    refine (comp_filter_none _ _ fun a ha hk => ?_).symm
    obtain rfl : a = id := not_not.mp (of_decide_eq_false hk)
    exact hid (List.mem_filter.mp ha).1

/-- a layer is changed; one that is away stays where it is and shows at least where it did -/
theorem Right.touch (hs : Right w h s) {id : LayerId} {screen : Screen VirtioGpu} (hc : Changed id s.screen screen)
    (hplaced : ∀ l, screen.lm.layers id = some l → l.Placed w h)
    (haway : id ∈ s.away → id ∈ screen.lm.layerStack ∧ ∀ q : Pixel w h, layerImage screen.lm.layers id q = none →
      layerImage s.lm.layers id q = none) : Right w h (s.touch id screen) := by
  have hne : ∀ {a}, a ∉ id :: s.dirty → a ≠ id ∧ a ∉ s.dirty := fun h =>
    ⟨fun e => h (e ▸ List.mem_cons_self), fun e => h (List.mem_cons_of_mem id e)⟩
  refine ⟨?_, hc.nodup hs.nodup, fun a l hl => ?_, fun a ha => ?_, fun a ha hnone => ?_, fun a ha => ?_,
    fun a ha hd haw l hl => ?_, fun q hbefore himage c hcomp => ?_⟩
  · show Sized screen.lm.painter w h
    rw [hc.painter]
    exact hs.sized
  · show l.Placed w h ∧ screen.display a = (w, h)
    rw [hc.display]
    by_cases e : a = id
    · subst e
      obtain ⟨l₀, hl₀⟩ := (hc.exists_iff a).mp ⟨l, hl⟩
      exact ⟨hplaced l hl, (hs.layer a l₀ hl₀).2⟩
    · exact hs.layer a l ((hc.layers a e).symm.trans hl)
  · have ha : s.screen.currId ≤ a := hc.currId ▸ ha
    have hnone := hs.fresh a ha
    refine Option.eq_none_iff_forall_ne_some.mpr fun l hl => ?_
    obtain ⟨l₀, hl₀⟩ := (hc.exists_iff a).mp ⟨l, hl⟩
    cases hnone.symm.trans hl₀
  · show a ∈ id :: s.dirty
    by_cases e : a = id
    · exact e ▸ List.mem_cons_self
    · exact List.mem_cons_of_mem id (hs.missing a ((hc.mem e).mp ha) ((hc.layers a e).symm.trans hnone))
  · show a ∈ screen.lm.layerStack ∧ ∃ l, screen.lm.layers a = some l
    have hvis := hs.visible a ha
    refine ⟨?_, (hc.exists_iff a).mpr hvis.2⟩
    by_cases e : a = id
    · subst e
      exact (haway ha).1
    · exact (hc.mem e).mpr hvis.1
  · obtain ⟨e, hd⟩ := hne hd
    exact hs.place a ((hc.mem e).mp ha) hd haw l ((hc.layers a e).symm.trans hl)
  · have hbefore' : ∀ a ∈ id :: s.dirty, ∀ l, s.lm.layers a = some l → l.before q = false := by
      intro a ha l hl
      obtain ⟨l', hl', hq⟩ := hc.before hl q
      rw [← hq]
      exact hbefore a ha l' hl'
    have himage' : ∀ a ∈ id :: s.dirty, a ∈ s.away → layerImage s.lm.layers a q = none := by
      intro a ha haw
      by_cases e : a = id
      · subst e
        exact (haway haw).2 q (himage a ha haw)
      · have hi := himage a ha haw
        unfold layerImage at hi ⊢
        rwa [show (s.touch id screen).lm.layers a = s.lm.layers a from hc.layers a e] at hi
    show VirtioGpu.canvas.frame screen.lm.painter q = _
    rw [hc.painter]
    exact hs.pixel_cons hbefore' himage' ((hc.comp_clean s.dirty q).symm.trans hcomp)

/-- a new layer is not in the stack, or has been put there before and is dirty -/
theorem Right.create (hs : Right w h s) {x y width height : Nat} (hx : x + width < 2^32) (hy : y + height < 2^32)
    (hw : w + width < 2^32) (hh : h + height < 2^32) :
    Right w h { s with screen := s.screen.createLayer x y width height } := by
  have hold : s.lm.layers s.screen.currId = none := hs.fresh _ (Nat.le_refl _)
  have hnew : (s.screen.createLayer x y width height).lm.layers s.screen.currId = some (.new x y width height) :=
    if_pos rfl
  have hothers : ∀ a, a ≠ s.screen.currId → (s.screen.createLayer x y width height).lm.layers a = s.lm.layers a :=
    fun a ha => if_neg ha
  have hpast : ∀ {a l}, s.lm.layers a = some l → a ≠ s.screen.currId := by
    rintro a l hl rfl
    cases hold.symm.trans hl
  have hplaced := new_placed hx hy hw hh
  refine ⟨hs.sized, hs.nodup, fun a l hl => ?_, fun a ha => ?_, fun a ha hnone => ?_, fun a ha => ?_,
    fun a ha hd haw l hl => ?_, fun q hbefore himage c hcomp => ?_⟩
  · show l.Placed w h ∧ Function.update s.screen.display s.screen.currId _ a = (w, h)
    by_cases e : a = s.screen.currId
    · subst e
      cases hnew.symm.trans hl
      rw [Function.update_self]
      exact ⟨hplaced, Prod.ext hs.sized.width hs.sized.height⟩
    · rw [Function.update_of_ne e]
      exact hs.layer a l ((hothers a e).symm.trans hl)
  · have ha : s.screen.currId + 1 ≤ a := ha
    exact (hothers a (Nat.ne_of_gt ha)).trans (hs.fresh a (Nat.le_of_succ_le ha))
  · by_cases e : a = s.screen.currId
    · subst e
      cases hnew.symm.trans hnone
    · exact hs.missing a ha ((hothers a e).symm.trans hnone)
  · obtain ⟨hm, l, hl⟩ := hs.visible a ha
    exact ⟨hm, l, (hothers a (hpast hl)).trans hl⟩
  · by_cases e : a = s.screen.currId
    · subst e
      exact absurd (hs.missing _ ha hold) hd
    · exact hs.place a ha hd haw l ((hothers a e).symm.trans hl)
  · refine hs.pixel q (fun a ha l hl => ?_) (fun a ha haw => ?_) c ?_
    · exact hbefore a ha l ((hothers a (hpast hl)).trans hl)
    · obtain ⟨-, l, hl⟩ := hs.visible a haw
      rw [layerImage_eq hl, ← layerImage_eq ((hothers a (hpast hl)).trans hl)]
      exact himage a ha haw
    · rw [← hcomp]
      refine (congrFun (comp_congr fun a ha => hothers a ?_) q).symm
      rintro rfl
      obtain ⟨hm, hd⟩ := List.mem_filter.mp ha
      exact absurd (hs.missing _ hm hold) (of_decide_eq_true hd)

/-! ## `update` -/

/-- what `update` changes beside the frame -/
structure Updated (w h : Nat) (id : LayerId) (layer : Layer) (lm lm' : LayerManager VirtioGpu) : Prop where
  sized : Sized lm'.painter w h
  stack : lm'.layerStack = lm.layerStack
  found : lm.layers id = some layer
  self : id ∈ lm.layerStack → lm'.layers id = some layer.updatePrevInfo
  hidden : id ∉ lm.layerStack → lm'.layers id = some layer
  others : ∀ a, a ≠ id → lm'.layers a = lm.layers a
  exist : ∀ a ∈ lm.layerStack, ∃ l, lm.layers a = some l
  frame : ∀ q : Pixel w h,
    (layer.before q = false → (id ∈ lm.layerStack → layerImage lm.layers id q = none) →
      ∀ c, comp lm.layers lm.layerStack q = some c →
      VirtioGpu.canvas.frame lm.painter q = VirtioGpu.canvas.encode c) →
    ∀ c, comp lm.layers lm.layerStack q = some c →
      VirtioGpu.canvas.frame lm'.painter q = VirtioGpu.canvas.encode c

theorem Right.updated (hs : Right w h s) {id : LayerId} {lm : LayerManager VirtioGpu}
    (hu : s.lm.update id = some lm) : ∃ layer, Updated w h id layer s.lm lm := by
  obtain ⟨⟨layer, hlayer⟩, hexist⟩ := update_exists hu
  obtain ⟨hplaced, -⟩ := hs.layer id layer hlayer
  have hfit : StackFits s.lm.layers s.lm.layerStack := fun a ha => by
    obtain ⟨l, hl⟩ := hexist a ha
    exact ⟨l, hl, (hs.layer a l hl).1.fits⟩
  by_cases hid : id ∈ s.lm.layerStack
  · obtain ⟨p, hp, hsized, hframe⟩ := update_at VirtioGpu.canvas hs.sized hs.nodup hid hlayer hfit hplaced.prevX
      hplaced.prevY
    cases hu.symm.trans hp
    refine ⟨layer, hsized, rfl, hlayer, fun _ => if_pos rfl, fun hn => absurd hid hn, fun a ha => if_neg ha, hexist,
      fun q hf c hc => hframe q (fun hb hi c' hc' => ?_) c hc⟩
    refine hf hb (fun _ => hi) c' ?_
    rw [← comp_filter hi s.lm.layerStack]
    exact hc'
  · obtain ⟨p, hp, hsized, hframe⟩ := update_hidden VirtioGpu.canvas hs.sized hid hlayer hfit hplaced.prevX
      hplaced.prevY
    cases hu.symm.trans hp
    exact ⟨layer, hsized, rfl, hlayer, fun hn => absurd hn hid, fun _ => hlayer, fun a _ => rfl, hexist,
      fun q hf c hc => hframe q (fun hb => hf hb fun hn => absurd hn hid) c hc⟩

section
variable {id : LayerId} {layer : Layer} {lm : LayerManager VirtioGpu}

theorem Updated.self_cases {lm₀ : LayerManager VirtioGpu} (hup : Updated w h id layer lm₀ lm) {l : Layer}
    (hl : lm.layers id = some l) : l = layer ∨ l = layer.updatePrevInfo := by
  by_cases hid : id ∈ lm₀.layerStack
  · cases (hup.self hid).symm.trans hl
    exact .inr rfl
  · cases (hup.hidden hid).symm.trans hl
    exact .inl rfl

theorem Updated.layerImage_eq_old {lm₀ : LayerManager VirtioGpu} (hup : Updated w h id layer lm₀ lm) (a : LayerId) :
    (layerImage lm.layers a : Image (Pixel w h) UInt32) = layerImage lm₀.layers a := by
  by_cases e : a = id
  · subst e
    rw [layerImage_eq hup.found]
    by_cases hid : a ∈ lm₀.layerStack
    · exact (layerImage_eq (hup.self hid)).trans rfl
    · exact layerImage_eq (hup.hidden hid)
  · unfold layerImage
    rw [hup.others a e]

/-- a pixel where the dirty layers other than the updated one do not show -/
theorem Right.update_pixel (hs : Right w h s) (hup : Updated w h id layer s.lm lm) {q : Pixel w h}
    (hbefore : ∀ a ∈ s.dirty, a ≠ id → ∀ l, s.lm.layers a = some l → l.before q = false)
    (hclean : ∀ a ∈ s.lm.layerStack, a ∈ s.dirty → a ≠ id → layerImage s.lm.layers a q = none) {c : UInt32}
    (hcomp : comp lm.layers (lm.layerStack.filter (· ∉ s.dirty.filter (· ≠ id))) q = some c) :
    VirtioGpu.canvas.frame lm.painter q = VirtioGpu.canvas.encode c := by
  -- the composition is that of the whole stack
  have hwhole : comp lm.layers (lm.layerStack.filter (· ∉ s.dirty.filter (· ≠ id))) q
      = comp s.lm.layers s.lm.layerStack q := by
    rw [hup.stack, ← comp_filter_none (fun a => decide (a ∉ s.dirty.filter (· ≠ id))) s.lm.layerStack]
    · unfold comp
      rw [funext hup.layerImage_eq_old]
    · intro a ha hk
      obtain ⟨hd, hne⟩ := List.mem_filter.mp (not_not.mp (of_decide_eq_false hk))
      exact hclean a ha hd (of_decide_eq_true hne)
  refine hup.frame q (fun hb hi c' hc' => ?_) c (hwhole.symm.trans hcomp)
  refine hs.pixel q (fun a ha l hl => ?_) (fun a ha haw => ?_) c' ?_
  · by_cases e : a = id
    · subst e
      cases hup.found.symm.trans hl
      exact hb
    · exact hbefore a ha e l hl
  · by_cases e : a = id
    · subst e
      exact hi (hs.visible a haw).1
    · exact hclean a (hs.visible a haw).1 ha e
  · rw [← hc']
    refine comp_filter_none _ _ fun a ha hk => ?_
    have hd : a ∈ s.dirty := not_not.mp (of_decide_eq_false hk)
    by_cases e : a = id
    · subst e
      exact hi ha
    · exact hclean a ha hd e

end

theorem mem_outOfPlace {screen : Screen VirtioGpu} {id : LayerId} {l : Layer} (hid : id ∈ screen.lm.layerStack)
    (hl : screen.lm.layers id = some l) (hn : l.stays = false) : id ∈ ScreenRun.outOfPlace screen := by
  refine List.mem_filter.mpr ⟨hid, ?_⟩
  rw [hl]
  simp [hn]

/-- `update` redraws what its layer has left behind, and may draw dirty layers outside their old rectangles -/
theorem Right.update (hs : Right w h s) {id : LayerId} {lm : LayerManager VirtioGpu}
    (hu : s.lm.update id = some lm) : Right w h ⟨s.screen.withLm lm, s.dirty.filter (· ≠ id),
      ScreenRun.outOfPlace (s.screen.withLm lm) ++ s.away.filter (· ≠ id)⟩ := by
  obtain ⟨layer, hup⟩ := hs.updated hu
  have hdirty : ∀ {a}, a ∈ s.dirty.filter (· ≠ id) ↔ a ∈ s.dirty ∧ a ≠ id := by
    intro a
    rw [List.mem_filter, decide_eq_true_iff]
  have hstays : ∀ a ∈ s.lm.layerStack, ∀ l, lm.layers a = some l → l.stays = false →
      a ∈ ScreenRun.outOfPlace (s.screen.withLm lm) := by
    intro a ha l hl hn
    have ha' : a ∈ (s.screen.withLm lm).lm.layerStack := by
      show a ∈ lm.layerStack
      rw [hup.stack]
      exact ha
    exact mem_outOfPlace ha' hl hn
  refine ⟨hup.sized, ?_, fun a l hl => ?_, fun a ha => ?_, fun a ha hnone => ?_, fun a ha => ?_,
    fun a ha hd haw l hl => ?_, fun q hbefore himage c hcomp => ?_⟩
  · show lm.layerStack.Nodup
    rw [hup.stack]
    exact hs.nodup
  · by_cases e : a = id
    · subst e
      obtain ⟨hp, hdisp⟩ := hs.layer a layer hup.found
      rcases hup.self_cases hl with rfl | rfl
      · exact ⟨hp, hdisp⟩
      · exact ⟨⟨⟨hp.fits.x, hp.fits.y⟩, hp.fits.x, hp.fits.y, hp.width, hp.height⟩, hdisp⟩
    · exact hs.layer a l ((hup.others a e).symm.trans hl)
  · have hnone := hs.fresh a ha
    have e : a ≠ id := by
      rintro rfl
      cases hnone.symm.trans hup.found
    exact (hup.others a e).trans hnone
  · have hm : a ∈ s.lm.layerStack := hup.stack ▸ ha
    obtain ⟨l, hl⟩ := hup.exist a hm
    by_cases e : a = id
    · subst e
      cases (hup.self hm).symm.trans hnone
    · cases ((hup.others a e).trans hl).symm.trans hnone
  · show a ∈ lm.layerStack ∧ ∃ l, lm.layers a = some l
    rcases List.mem_append.mp ha with ha | ha
    · obtain ⟨hm, hany⟩ := List.mem_filter.mp ha
      obtain ⟨l, hl, -⟩ := (Option.any_eq_true _ _).mp hany
      exact ⟨hm, l, hl⟩
    · obtain ⟨ha, hne⟩ := List.mem_filter.mp ha
      obtain ⟨hm, l, hl⟩ := hs.visible a ha
      rw [hup.stack, hup.others a (of_decide_eq_true hne)]
      exact ⟨hm, l, hl⟩
  · have hm : a ∈ s.lm.layerStack := hup.stack ▸ ha
    by_contra hn
    exact haw (List.mem_append_left _ (hstays a hm l hl (Bool.eq_false_iff.mpr hn)))
  · refine hs.update_pixel hup (fun a ha hne l hl => ?_) (fun a ha hd hne => ?_) hcomp
    · exact hbefore a (hdirty.mpr ⟨ha, hne⟩) l ((hup.others a hne).trans hl)
    · obtain ⟨l, hl⟩ := hup.exist a ha
      have hl' : lm.layers a = some l := (hup.others a hne).trans hl
      cases hst : l.stays with
      | true =>
        rw [layerImage_eq hl]
        exact image_stays hst (hbefore a (hdirty.mpr ⟨hd, hne⟩) l hl')
      | false =>
        rw [← hup.layerImage_eq_old a]
        exact himage a (hdirty.mpr ⟨hd, hne⟩) (List.mem_append_left _ (hstays a ha l hl' hst))

/-! ## the steps -/

theorem Layer.SamePrev.refl (l : Layer) : l.SamePrev l := ⟨rfl, rfl, rfl, rfl⟩

theorem change_changed {id : LayerId} {f : Layer → Layer} {screen screen' : Screen VirtioGpu}
    (hc : screen.change id f = some screen') (hf : ∀ l : Layer, l.SamePrev (f l)) :
    Changed id screen screen' ∧ screen'.lm.layerStack = screen.lm.layerStack ∧
      ∃ l, screen.lm.layers id = some l ∧ screen'.lm.layers id = some (f l) := by
  obtain ⟨l, hl, rfl⟩ := Option.map_eq_some_iff.mp hc
  have hnew : (screen.lm.setLayer id (f l)).layers id = some (f l) := if_pos rfl
  exact ⟨⟨rfl, rfl, rfl, fun hnd => hnd, rfl, fun a ha => if_neg ha, .inr ⟨l, f l, hl, hnew, hf l⟩⟩, rfl, l, hl, hnew⟩

theorem moveLayer_changed {id : LayerId} {newHeight : Int} {screen screen' : Screen VirtioGpu}
    (hm : screen.moveLayer id newHeight = some screen') :
    Changed id screen screen' ∧ screen'.lm.layers = screen.lm.layers := by
  obtain ⟨lm, hlm, rfl⟩ := Option.map_eq_some_iff.mp hm
  obtain ⟨hothers, hlayers, hpainter⟩ := moveLayer_others hlm
  have hprev : (lm.layers id = none ∧ screen.lm.layers id = none) ∨
      ∃ l l', screen.lm.layers id = some l ∧ lm.layers id = some l' ∧ l.SamePrev l' := by
    rw [hlayers]
    cases hl : screen.lm.layers id with
    | none => exact .inl ⟨rfl, rfl⟩
    | some l => exact .inr ⟨l, l, rfl, rfl, .refl l⟩
  exact ⟨⟨hpainter, rfl, rfl, fun hnd => moveLayer_nodup hnd hlm, hothers, fun a _ => congrFun hlayers a, hprev⟩, hlayers⟩

theorem mem_moveLayer {π : Type} {lm lm' : LayerManager π} {id : LayerId} {newHeight : Int} (hn : 0 ≤ newHeight)
    (hm : lm.moveLayer id newHeight = some lm') : id ∈ lm'.layerStack := by
  unfold LayerManager.moveLayer at hm
  rw [if_neg (not_lt.mpr hn)] at hm
  dsimp only at hm
  split at hm
  · cases hm
    exact (List.mem_insertIdx (Nat.min_le_right ..)).mpr (.inl rfl)
  · split at hm
    · rename_i hle
      cases hm
      exact (List.mem_insertIdx hle).mpr (.inl rfl)
    · cases hm

/-- a layer that is moved stays on the display -/
theorem Layer.Placed.move (hl : l.Placed w h) {x y : Nat} (hx : x ≤ w) (hy : y ≤ h) :
    Layer.Placed { l with x, y } w h :=
  ⟨⟨Nat.lt_of_le_of_lt (Nat.add_le_add_right hx _) hl.width, Nat.lt_of_le_of_lt (Nat.add_le_add_right hy _) hl.height⟩,
    hl.prevX, hl.prevY, hl.width, hl.height⟩

section
variable (hw : w < 2^31) (hh : h < 2^31)
include hw hh

theorem Right.moveTo (hs : Right w h s) {id : LayerId} {x y : Layer → Int32} {screen : Screen VirtioGpu}
    (haway : (!s.away.contains id) = true)
    (hc : s.screen.change id (fun l => { l with
      x := (clamp (x l) (Int32.ofNat (s.screen.display id).1)).toUInt32.toNat
      y := (clamp (y l) (Int32.ofNat (s.screen.display id).2)).toUInt32.toNat }) = some screen) :
    Right w h (s.touch id screen) := by
  have hna : id ∉ s.away := by simpa using haway
  obtain ⟨hch, -, l, hl, hl'⟩ := change_changed hc fun l => ⟨rfl, rfl, rfl, rfl⟩
  obtain ⟨hplaced, hdisp⟩ := hs.layer id l hl
  refine hs.touch hch (fun l' e => ?_) fun ha => absurd ha hna
  cases hl'.symm.trans e
  rw [hdisp]
  exact hplaced.move (clamp_le _ hw) (clamp_le _ hh)

theorem Right.step (hs : Right w h s) {a : ScreenAction} (hok : s.inPlace a = true)
    (ha : ScreenRun.step a s = some s') : Right w h s' := by
  cases a with
  | createLayer x y width height =>
    cases ha
    obtain ⟨hx, hy, hw', hh'⟩ := of_decide_eq_true hok
    have hpw : s.lm.painter.width = w := hs.sized.width
    have hph : s.lm.painter.height = h := hs.sized.height
    rw [hpw] at hw'
    rw [hph] at hh'
    exact hs.create hx hy hw' hh'
  | moveLayer id newHeight =>
    obtain ⟨screen, hm, rfl⟩ := Option.map_eq_some_iff.mp ha
    obtain ⟨hch, hlayers⟩ := moveLayer_changed hm
    refine hs.touch hch (fun l hl => (hs.layer id l ?_).1) fun haw => ?_
    · rw [hlayers] at hl
      exact hl
    · have hn : 0 ≤ newHeight := by simpa [ScreenRun.inPlace, haw] using hok
      obtain ⟨lm, hlm, rfl⟩ := Option.map_eq_some_iff.mp hm
      refine ⟨mem_moveLayer hn hlm, fun q hq => ?_⟩
      rw [hlayers] at hq
      exact hq
  | hideLayer id =>
    cases ha
    have hm : s.screen.moveLayer id (-1) = some (s.screen.hideLayer id) := rfl
    obtain ⟨hch, hlayers⟩ := moveLayer_changed hm
    refine hs.touch hch (fun l hl => (hs.layer id l ?_).1) fun haw => ?_
    · rw [hlayers] at hl
      exact hl
    · simp [ScreenRun.inPlace, haw] at hok
  | moveRel id x y =>
    obtain ⟨screen, hc, rfl⟩ := Option.map_eq_some_iff.mp ha
    exact hs.moveTo hw hh hok hc
  | moveAbs id x y =>
    obtain ⟨screen, hc, rfl⟩ := Option.map_eq_some_iff.mp ha
    exact hs.moveTo hw hh hok hc
  | updateBuffer id draw =>
    obtain ⟨screen, hc, rfl⟩ := Option.map_eq_some_iff.mp ha
    have hc : s.screen.change id (Layer.drawToBuffer draw) = some screen := hc
    obtain ⟨hch, hstack, l, hl, hl'⟩ := change_changed hc fun l => ⟨rfl, rfl, rfl, rfl⟩
    refine hs.touch hch (fun l' e => ?_) fun haw => ⟨?_, fun q hq => ?_⟩
    · cases hl'.symm.trans e
      have hp := (hs.layer id l hl).1
      exact ⟨⟨hp.fits.x, hp.fits.y⟩, hp.prevX, hp.prevY, hp.width, hp.height⟩
    · rw [hstack]
      exact (hs.visible id haw).1
    · have hop : l.transparent = none := by
        have hl₀ : s.lm.layers id = some l := hl
        simpa [ScreenRun.inPlace, haw, hl₀] using hok
      rw [layerImage_eq hl'] at hq
      have hl₀ : s.lm.layers id = some l := hl
      rw [layerImage_eq hl₀]
      exact image_drawToBuffer hop draw q hq
  | update id =>
    obtain ⟨screen, hu, rfl⟩ := Option.map_eq_some_iff.mp ha
    obtain ⟨lm, hlm, rfl⟩ := Option.map_eq_some_iff.mp hu
    exact hs.update hlm

end

/-! ## runs -/

/-- the screen before `draw_all`: the mouse above the desktop -/
def beforeDraw (g : VirtioGpu) : Screen VirtioGpu :=
  let s := ((Screen.new g).createLayer 0 0 16 23).createLayer 0 0 g.width g.height
  let mouse := (Layer.new 0 0 16 23).setTransparentColor mouseTransparentColor
  s.withLm { s.lm.setLayer mouseLayerId mouse with layerStack := [desktopLayerId, mouseLayerId] }

theorem init_eq (g : VirtioGpu) (draw : LayerId → Drawing) :
    Screen.init g draw = ((beforeDraw g).lm.drawAll draw).map (beforeDraw g).withLm := rfl

theorem beforeDraw_layer {g : VirtioGpu} (hw : g.width < 2^31) (hh : g.height < 2^31) {id : LayerId} {l : Layer}
    (hl : (beforeDraw g).lm.layers id = some l) :
    l.Placed g.width g.height ∧ (beforeDraw g).display id = (g.width, g.height) ∧ id < 2 := by
  by_cases h0 : id = 0
  · subst h0
    have hl : some ((Layer.new 0 0 16 23).setTransparentColor mouseTransparentColor) = some l := hl
    cases hl
    have hp : (Layer.new 0 0 16 23).Placed g.width g.height := new_placed (by omega) (by omega) (by omega) (by omega)
    exact ⟨⟨⟨hp.fits.x, hp.fits.y⟩, hp.prevX, hp.prevY, hp.width, hp.height⟩, rfl, by decide⟩
  · by_cases h1 : id = 1
    · subst h1
      have hl : some (Layer.new 0 0 g.width g.height) = some l := hl
      cases hl
      exact ⟨new_placed (by omega) (by omega) (by omega) (by omega), rfl, by decide⟩
    · have hnone : (beforeDraw g).lm.layers id = none :=
        (if_neg h0).trans ((if_neg h1).trans (if_neg h0))
      cases hnone.symm.trans hl

theorem right_init {g : VirtioGpu} (hw : g.width < 2^31) (hh : g.height < 2^31) {draw : LayerId → Drawing}
    (hs : ScreenRun.init g draw = some s) : Right g.width g.height s := by
  have hstack : (beforeDraw g).lm.layerStack = [desktopLayerId, mouseLayerId] := rfl
  have hnd : (beforeDraw g).lm.layerStack.Nodup := show [1, 0].Nodup by decide
  have hexist : ∀ a ∈ (beforeDraw g).lm.layerStack, ∃ l, (beforeDraw g).lm.layers a = some l := by
    intro a ha
    rw [hstack] at ha
    rcases List.mem_pair.mp ha with rfl | rfl
    · exact ⟨_, rfl⟩
    · exact ⟨_, rfl⟩
  have hfit : StackFits (beforeDraw g).lm.layers (beforeDraw g).lm.layerStack := fun a ha => by
    obtain ⟨l, hl⟩ := hexist a ha
    exact ⟨l, hl, (beforeDraw_layer hw hh hl).1.fits⟩
  obtain ⟨lm, hd, hst, hlayers, hsized, hframe⟩ := drawAllLoop_frame VirtioGpu.canvas draw _ hnd
    (show Sized (beforeDraw g).lm.painter g.width g.height from ⟨rfl, rfl⟩) hfit
  obtain ⟨screen, hi, rfl⟩ := Option.map_eq_some_iff.mp hs
  have hscreen : screen = (beforeDraw g).withLm lm := by
    have hall : (beforeDraw g).lm.drawAll draw = some lm := by
      unfold LayerManager.drawAll
      rw [hd]
      rfl
    rw [init_eq, hall] at hi
    exact (Option.some.inj hi).symm
  subst hscreen
  -- the layers as they were, but for what is drawn in their buffers
  have hback : ∀ {a l}, lm.layers a = some l → ∃ l₀, (beforeDraw g).lm.layers a = some l₀ ∧
      (l = l₀ ∨ l = l₀.drawToBuffer (draw a)) := by
    intro a l hl
    rw [hlayers] at hl
    unfold drawn at hl
    split at hl
    · obtain ⟨l₀, hl₀, rfl⟩ := Option.map_eq_some_iff.mp hl
      exact ⟨l₀, hl₀, .inr rfl⟩
    · exact ⟨l, hl, .inl rfl⟩
  refine ⟨hsized, ?_, fun a l hl => ?_, fun a ha => ?_, fun a ha hnone => ?_, fun a ha => ?_,
    fun a ha _ haw l hl => ?_, fun q _ _ c hc => ?_⟩
  · show lm.layerStack.Nodup
    rw [hst]
    exact hnd
  · obtain ⟨l₀, hl₀, rfl | rfl⟩ := hback hl
    · exact ⟨(beforeDraw_layer hw hh hl₀).1, (beforeDraw_layer hw hh hl₀).2.1⟩
    · obtain ⟨hp, hdisp, -⟩ := beforeDraw_layer hw hh hl₀
      exact ⟨⟨⟨hp.fits.x, hp.fits.y⟩, hp.prevX, hp.prevY, hp.width, hp.height⟩, hdisp⟩
  · refine Option.eq_none_iff_forall_ne_some.mpr fun l hl => ?_
    obtain ⟨l₀, hl₀, -⟩ := hback hl
    exact absurd (beforeDraw_layer hw hh hl₀).2.2 (Nat.not_lt.mpr ha)
  · have hm : a ∈ (beforeDraw g).lm.layerStack := hst ▸ ha
    obtain ⟨l, hl⟩ := hexist a hm
    have hsome : lm.layers a = some (l.drawToBuffer (draw a)) := by
      rw [hlayers]
      unfold drawn
      rw [if_pos hm, hl]
      rfl
    cases hsome.symm.trans hnone
  · obtain ⟨hm, hany⟩ := List.mem_filter.mp ha
    obtain ⟨l, hl, -⟩ := (Option.any_eq_true _ _).mp hany
    exact ⟨hm, l, hl⟩
  · by_contra hn
    exact haw (mem_outOfPlace ha hl (Bool.eq_false_iff.mpr hn))
  · show VirtioGpu.canvas.frame lm.painter q = _
    have hall : comp lm.layers lm.layerStack q = some c := by
      rw [← hc]
      congr 1
      exact (List.filter_eq_self.mpr fun a _ => decide_eq_true List.not_mem_nil).symm
    rw [hframe, flat_shownStack, ← hlayers, ← hst]
    show ((comp lm.layers lm.layerStack q).map VirtioGpu.canvas.encode).getD _ = _
    rw [hall]
    rfl

/-- **The frame never keeps stale pixels**, in a run in which no layer that was drawn outside its old rectangle is
moved or hidden before it is updated. -/
theorem no_stale_pixels (g : VirtioGpu) (draw : LayerId → Drawing) (actions : List ScreenAction) (s₀ s : ScreenRun)
    (hinit : ScreenRun.init g draw = some s₀)
    (hok : Throughout ScreenRun.step (fun s a => s.inPlace a = true) actions s₀)
    (hrun : run ScreenRun.step actions s₀ = some s) (hclean : s.dirty = []) :
    ∀ (q : Pixel g.width g.height) c, comp s.lm.layers s.lm.layerStack q = some c →
      VirtioGpu.canvas.frame s.lm.painter q = VirtioGpu.canvas.encode c := by
  intro q c hc
  -- there is a pixel, so the frame is not that large
  have hsize : g.width < 2^31 ∧ g.height < 2^31 := by
    have hfits := g.fits
    unfold pixelSize at hfits
    have hle : g.width * 4 ≤ g.width * 4 * g.height := Nat.le_mul_of_pos_right _ q.2.pos
    have hle' : 4 * g.height ≤ g.width * 4 * g.height := by
      rw [Nat.mul_assoc]
      exact Nat.le_mul_of_pos_left _ q.1.pos
    omega
  have hs := invariant _ (Right g.width g.height) (fun _ _ _ hs hok h => hs.step hsize.1 hsize.2 hok h) actions
    (right_init hsize.1 hsize.2 hinit) hok hrun
  refine hs.pixel q ?_ ?_ c ?_
  · rw [hclean]
    exact fun id hid => absurd hid List.not_mem_nil
  · rw [hclean]
    exact fun id hid => absurd hid List.not_mem_nil
  · rw [← hc, hclean]
    congr 1
    exact List.filter_eq_self.mpr fun a _ => decide_eq_true List.not_mem_nil

/-- the left upper corner of the wallpaper, on a display of three by three -/
def corner : Drawing := fun _ _ _ i =>
  ([0xffd0d4e9, 0xffd1d5ea, 0xffc8d0ee, 0xfff3f9ff, 0xfff5fbff, 0xfff3fdff, 0xfff9fffd, 0xfff9fffd,
    0xfffaffff] : List UInt32).getD i 0

def objects : LayerId → Drawing
  | 0 => Mouse.drawTo mouseTransparentColor
  | _ => corner

/-- a display of three by three, all zero -/
def small : VirtioGpu := ⟨fun _ => 0, 3, 3, by decide⟩

/-- The mouse is updated, moved and updated again. -/
theorem no_stale_pixels_example : ∃ s₀ s, ScreenRun.init small objects = some s₀ ∧
    run ScreenRun.step [.update mouseLayerId, .moveRel mouseLayerId 1 0, .update mouseLayerId] s₀ = some s ∧
      s.dirty = [] ∧ ∀ (q : Pixel small.width small.height) c, comp s.lm.layers s.lm.layerStack q = some c →
        VirtioGpu.canvas.frame s.lm.painter q = VirtioGpu.canvas.encode c := by
  have h : (ScreenRun.init small objects).any (fun s₀ =>
      decide (Throughout ScreenRun.step (fun s a => s.inPlace a = true)
        [.update mouseLayerId, .moveRel mouseLayerId 1 0, .update mouseLayerId] s₀) &&
      (run ScreenRun.step [.update mouseLayerId, .moveRel mouseLayerId 1 0, .update mouseLayerId] s₀).any
        fun s => s.dirty.isEmpty) = true := by
    decide
  obtain ⟨s₀, h₀, h⟩ := (Option.any_eq_true _ _).mp h
  obtain ⟨hok, h⟩ := Bool.and_eq_true_iff.mp h
  obtain ⟨s, hs, hclean⟩ := (Option.any_eq_true _ _).mp h
  have hclean := List.isEmpty_iff.mp hclean
  exact ⟨s₀, s, h₀, hs, hclean, no_stale_pixels small objects _ s₀ s h₀ (of_decide_eq_true hok) hs hclean⟩

/-- The mouse is moved for the first time after `graphics::init`, and updated: where it was, it still shows. -/
theorem stale_after_init : ∃ s₀ s, ScreenRun.init small objects = some s₀ ∧
    run ScreenRun.step [.moveRel mouseLayerId 1 0, .update mouseLayerId] s₀ = some s ∧ s.dirty = [] ∧
      ∃ (q : Pixel small.width small.height) (c : UInt32), comp s.lm.layers s.lm.layerStack q = some c ∧
        VirtioGpu.canvas.frame s.lm.painter q ≠ VirtioGpu.canvas.encode c := by
  let q : Pixel small.width small.height := ((2 : Fin 3), (2 : Fin 3))
  have h : (ScreenRun.init small objects).any (fun s₀ =>
      (run ScreenRun.step [.moveRel mouseLayerId 1 0, .update mouseLayerId] s₀).any fun s => s.dirty.isEmpty &&
        (comp s.lm.layers s.lm.layerStack q).any fun c =>
          decide (VirtioGpu.canvas.frame s.lm.painter q ≠ VirtioGpu.canvas.encode c)) = true := by
    decide +kernel
  obtain ⟨s₀, h₀, h⟩ := (Option.any_eq_true _ _).mp h
  obtain ⟨s, hs, h⟩ := (Option.any_eq_true _ _).mp h
  obtain ⟨hclean, h⟩ := Bool.and_eq_true_iff.mp h
  obtain ⟨c, hc, hne⟩ := (Option.any_eq_true _ _).mp h
  exact ⟨s₀, s, h₀, hs, List.isEmpty_iff.mp hclean, q, c, hc, of_decide_eq_true hne⟩

end Citron.Graphics
