import Citron.Graphics.Windows
import Mathlib.Data.List.Basic

/-!
# The desk

The stack of the layers is a desk: the desktop, the windows that are shown, and the mouse.  Every request to the
window manager and every event of the mouse leaves a desk; a window that is shown goes under the other windows, and
one that is pressed goes over them.

* `Desk`               a stack of this shape, with `lower` and `raise`;
* `update_total`       `update` succeeds where the layers exist;
* `Shape`              the stack is a desk, and every layer has its object;
* `layers_in_order`    for every run.
-/

namespace Citron.Graphics

/-! ## desks -/

/-- the windows that are shown, bottom first -/
structure Desk where
  windows : List LayerId
  nodup : windows.Nodup
  other : ∀ id ∈ windows, id ≠ mouseLayerId ∧ id ≠ desktopLayerId

namespace Desk

def stack (d : Desk) : List LayerId := desktopLayerId :: (d.windows ++ [mouseLayerId])

theorem mouse_notMem (d : Desk) : mouseLayerId ∉ desktopLayerId :: d.windows := by
  intro h
  rcases List.mem_cons.mp h with h | h
  · cases h
  · exact (d.other _ h).1 rfl

variable {id : LayerId}

/-- a window under the other windows -/
def lower (d : Desk) (id : LayerId) (hid : id ≠ mouseLayerId ∧ id ≠ desktopLayerId) : Desk where
  windows := id :: d.windows.erase id
  nodup := List.nodup_cons.mpr ⟨d.nodup.not_mem_erase, d.nodup.erase id⟩
  other a ha := by
    rcases List.mem_cons.mp ha with rfl | ha
    · exact hid
    · exact d.other a (List.mem_of_mem_erase ha)

/-- a window over the other windows -/
def raise (d : Desk) (id : LayerId) (hid : id ∈ d.windows) : Desk where
  windows := d.windows.erase id ++ [id]
  nodup := List.nodup_append.mpr ⟨d.nodup.erase id, List.nodup_singleton id, fun a ha b hb => by
    rw [List.mem_singleton.mp hb]
    exact ne_of_mem_of_not_mem ha d.nodup.not_mem_erase⟩
  other a ha := by
    rcases List.mem_append.mp ha with ha | ha
    · exact d.other a (List.mem_of_mem_erase ha)
    · rw [List.mem_singleton.mp ha]
      exact d.other id hid

theorem stack_lower (d : Desk) (hid : id ≠ mouseLayerId ∧ id ≠ desktopLayerId) :
    (d.lower id hid).stack = desktopLayerId :: (id :: d.windows.erase id ++ [mouseLayerId]) := rfl

theorem stack_raise (d : Desk) (hid : id ∈ d.windows) :
    (d.raise id hid).stack = desktopLayerId :: (d.windows.erase id ++ [id] ++ [mouseLayerId]) := rfl

/-- a window of the desk, with those below and those above it -/
theorem split (d : Desk) (hid : id ∈ d.windows) :
    ∃ lo hi, d.windows = lo ++ id :: hi ∧ id ∉ lo ∧ d.windows.erase id = lo ++ hi := by
  obtain ⟨lo, hi, hlo, he, herase⟩ := List.exists_erase_eq hid
  exact ⟨lo, hi, he, hlo, herase⟩

end Desk

/-! ## the stack -/

theorem insertIdx_length_append {α : Type} (a : α) (l l' : List α) : (l ++ l').insertIdx l.length a = l ++ a :: l' := by
  induction l with
  | nil => rfl
  | cons b l ih => exact congrArg (b :: ·) ih

namespace LayerManager
variable {π : Type} {lm : LayerManager π} {id : LayerId}

theorem position_append {lo : List LayerId} (hlo : id ∉ lo) (hi : List LayerId) :
    position id (lo ++ id :: hi) = some lo.length := by
  induction lo with
  | nil => simp [position, List.findIdx?_cons]
  | cons a lo ih =>
    have hne : (a == id) = false := beq_eq_false_iff_ne.mpr (List.ne_of_not_mem_cons hlo).symm
    have hlo : id ∉ lo := List.not_mem_of_not_mem_cons hlo
    unfold position at ih ⊢
    rw [List.cons_append, List.findIdx?_cons, hne]
    simp [ih hlo]

theorem position_notMem {stack : List LayerId} (h : id ∉ stack) : position id stack = none := by
  refine List.findIdx?_eq_none_iff.mpr fun a ha => ?_
  exact beq_eq_false_iff_ne.mpr (ne_of_mem_of_not_mem ha h)

/-- a layer that is not in the stack -/
theorem moveLayer_new (h : id ∉ lm.layerStack) {n : Nat} (hn : n ≤ lm.layerStack.length) :
    lm.moveLayer id n = some { lm with layerStack := lm.layerStack.insertIdx n id } := by
  unfold moveLayer
  rw [if_neg (by omega), position_notMem h]
  simp [Nat.min_eq_left hn]

/-- the height counts in the stack without the layer -/
theorem moveLayer_old {lo hi : List LayerId} (hstack : lm.layerStack = lo ++ id :: hi) (hlo : id ∉ lo) {n : Nat}
    (hn : n ≤ (lo ++ hi).length) :
    lm.moveLayer id n = some { lm with layerStack := (lo ++ hi).insertIdx n id } := by
  have herase : lm.layerStack.eraseIdx lo.length = lo ++ hi := by
    rw [hstack, List.eraseIdx_append_of_length_le (Nat.le_refl _), Nat.sub_self]
    rfl
  have hlen : n ≤ lm.layerStack.length := by
    rw [hstack]
    rw [List.length_append] at hn ⊢
    rw [List.length_cons]
    omega
  have hpos : position id lm.layerStack = some lo.length := by
    rw [hstack, position_append hlo]
  unfold moveLayer
  rw [if_neg (by omega), hpos]
  simp only [Int.toNat_natCast, Nat.min_eq_left hlen, herase, if_pos hn]

variable {d : Desk}

/-- below the mouse is the height that `on_event` of a window asks for -/
theorem mouse_height (hstack : lm.layerStack = d.stack) :
    position mouseLayerId lm.layerStack = some (d.windows.length + 1) := by
  rw [hstack]
  exact position_append d.mouse_notMem []

theorem moveLayer_lower (hstack : lm.layerStack = d.stack) (hid : id ≠ mouseLayerId ∧ id ≠ desktopLayerId) :
    lm.moveLayer id (1 : Nat) = some { lm with layerStack := (d.lower id hid).stack } := by
  by_cases hm : id ∈ d.windows
  · obtain ⟨lo, hi, he, hlo, herase⟩ := d.split hm
    have hold : lm.layerStack = (desktopLayerId :: lo) ++ id :: (hi ++ [mouseLayerId]) := by
      rw [hstack, Desk.stack, he, List.cons_append, List.append_assoc]
      rfl
    have hlow : id ∉ desktopLayerId :: lo := List.not_mem_cons_of_ne_of_not_mem hid.2 hlo
    rw [moveLayer_old (n := 1) hold hlow (by simp), d.stack_lower, herase]
    simp
  · have hnew : id ∉ lm.layerStack := by
      rw [hstack]
      simp [Desk.stack, hm, hid.1, hid.2]
    rw [moveLayer_new hnew (by rw [hstack]; simp [Desk.stack])]
    rw [d.stack_lower, List.erase_of_not_mem hm, hstack]
    rfl

theorem moveLayer_raise (hstack : lm.layerStack = d.stack) (hid : id ∈ d.windows) :
    lm.moveLayer id d.windows.length = some { lm with layerStack := (d.raise id hid).stack } := by
  obtain ⟨lo, hi, he, hlo, herase⟩ := d.split hid
  have hold : lm.layerStack = (desktopLayerId :: lo) ++ id :: (hi ++ [mouseLayerId]) := by
    rw [hstack, Desk.stack, he, List.cons_append, List.append_assoc]
    rfl
  have hlow : id ∉ desktopLayerId :: lo := List.not_mem_cons_of_ne_of_not_mem (d.other id hid).2 hlo
  -- without the window, the mouse is where the window goes
  have hlen : d.windows.length = (desktopLayerId :: (lo ++ hi)).length := by
    rw [he, List.length_append, List.length_cons, List.length_cons, List.length_append]
    omega
  have hrest : (desktopLayerId :: lo) ++ (hi ++ [mouseLayerId]) = (desktopLayerId :: (lo ++ hi)) ++ [mouseLayerId] := by
    simp
  rw [moveLayer_old hold hlow (by rw [hrest, hlen, List.length_append]; omega), hrest, hlen, insertIdx_length_append,
    d.stack_raise, herase]
  simp

/-! ## drawing -/

/-- the stack is as it was, and the layers that are there were there -/
structure Alike (lm lm' : LayerManager π) : Prop where
  stack : lm'.layerStack = lm.layerStack
  layers : ∀ a, (lm'.layers a).isSome = (lm.layers a).isSome

theorem Alike.trans {lm' lm'' : LayerManager π} (h : Alike lm lm') (h' : Alike lm' lm'') : Alike lm lm'' :=
  ⟨h'.stack.trans h.stack, fun a => (h'.layers a).trans (h.layers a)⟩

theorem alike_setPainter (lm : LayerManager π) (p : π) : Alike lm (lm.setPainter p) := ⟨rfl, fun _ => rfl⟩

theorem alike_setLayer {layer : Layer} (h : lm.layers id = some layer) (layer' : Layer) :
    Alike lm (lm.setLayer id layer') := by
  refine ⟨rfl, fun a => ?_⟩
  show (if a = id then some layer' else lm.layers a).isSome = _
  by_cases ha : a = id
  · rw [if_pos ha, ha, h]
    rfl
  · rw [if_neg ha]

/-- every layer of the list is there -/
def Present (lm : LayerManager π) (stack : List LayerId) : Prop := ∀ a ∈ stack, (lm.layers a).isSome

theorem Alike.present {lm' : LayerManager π} (h : Alike lm lm') {stack : List LayerId} (hp : Present lm stack) :
    Present lm' stack := fun a ha => (h.layers a).trans (hp a ha)

variable [Painter π]

theorem drawUpTo_total (id : LayerId) {prevX prevY prevWidth prevHeight x y width height : Nat} {stack : List LayerId} :
    ∀ (idx : Nat) {lm : LayerManager π}, Present lm stack → ∃ index lm',
      drawUpTo id prevX prevY prevWidth prevHeight x y width height stack idx lm = some (index, lm') ∧ Alike lm lm' := by
  induction stack with
  | nil => exact fun _ lm _ => ⟨0, lm, rfl, rfl, fun _ => rfl⟩
  | cons b stack ih =>
    intro idx lm hp
    obtain ⟨hb, hp⟩ := List.forall_mem_cons.mp hp
    obtain ⟨layer, hlayer⟩ := Option.isSome_iff_exists.mp hb
    unfold drawUpTo
    rw [hlayer, Option.bind_some]
    by_cases hid : b = id
    · rw [if_pos hid]
      exact ⟨idx, _, rfl, (alike_setLayer hlayer _).trans (alike_setPainter _ _)⟩
    · rw [if_neg hid]
      have hpaint := alike_setPainter lm (layer.transferBufferRange prevX prevY prevWidth prevHeight lm.painter)
      obtain ⟨index, lm', hd, halike⟩ := ih (idx + 1) (hpaint.present hp)
      exact ⟨index, lm', hd, hpaint.trans halike⟩

theorem drawFull_total (stack : List LayerId) : ∀ {lm : LayerManager π}, Present lm stack →
    ∃ lm', drawFull stack lm = some lm' ∧ Alike lm lm' := by
  induction stack with
  | nil => exact fun {lm} _ => ⟨lm, rfl, rfl, fun _ => rfl⟩
  | cons b stack ih =>
    intro lm hp
    obtain ⟨hb, hp⟩ := List.forall_mem_cons.mp hp
    obtain ⟨layer, hlayer⟩ := Option.isSome_iff_exists.mp hb
    have hpaint := alike_setPainter lm (layer.transferBufferRange layer.x layer.y layer.width layer.height lm.painter)
    obtain ⟨lm', hd, halike⟩ := ih (hpaint.present hp)
    refine ⟨lm', ?_, hpaint.trans halike⟩
    unfold drawFull
    rw [hlayer, Option.bind_some, hd]

/-- **`update` succeeds** where the layer and those of the stack are there. -/
theorem update_total (hid : (lm.layers id).isSome) (hp : Present lm lm.layerStack) :
    ∃ lm', lm.update id = some lm' ∧ Alike lm lm' := by
  obtain ⟨layer, hlayer⟩ := Option.isSome_iff_exists.mp hid
  obtain ⟨index, lm₁, hd, h₁⟩ := drawUpTo_total id 0 hp
  have hp₁ : Present lm₁ (lm₁.layerStack.drop (index + 1)) := fun a ha =>
    h₁.present hp a (h₁.stack ▸ List.mem_of_mem_drop ha)
  obtain ⟨lm₂, hd₂, h₂⟩ := drawFull_total _ hp₁
  refine ⟨lm₂.setPainter (Painter.flush lm₂.painter), ?_, (h₁.trans h₂).trans (alike_setPainter _ _)⟩
  unfold update
  rw [hlayer, Option.bind_some, hd, Option.bind_some]
  dsimp only
  rw [hd₂]
  rfl

theorem drawAllLoop_total (draw : LayerId → Drawing) {stack : List LayerId} : ∀ {lm : LayerManager π},
    Present lm stack → ∃ lm', drawAllLoop draw stack lm = some lm' ∧ Alike lm lm' := by
  induction stack with
  | nil => exact fun {lm} _ => ⟨lm, rfl, rfl, fun _ => rfl⟩
  | cons b stack ih =>
    intro lm hp
    obtain ⟨hb, hp⟩ := List.forall_mem_cons.mp hp
    obtain ⟨layer, hlayer⟩ := Option.isSome_iff_exists.mp hb
    unfold drawAllLoop
    rw [hlayer, Option.bind_some]
    dsimp only
    have hset := alike_setLayer hlayer (layer.drawToBuffer (draw b))
    have hpaint := hset.trans (alike_setPainter _ ((layer.drawToBuffer (draw b)).transferBufferRange layer.x layer.y
      layer.width layer.height lm.painter))
    obtain ⟨lm', hd, halike⟩ := ih (hpaint.present hp)
    exact ⟨lm', hd, hpaint.trans halike⟩

end LayerManager

/-! ## the shape -/

/-- the point is in the layer -/
def LayerManager.under {π : Type} (lm : LayerManager π) (x y : Nat) (id : LayerId) : Bool :=
  (lm.layers id).any (Layer.under x y)

namespace Globals
variable {π : Type}

def withLm (g : Globals π) (lm : LayerManager π) : Globals π := g.withScreen (g.screen.withLm lm)

/-- the highest layer below the mouse that the point is in -/
def pressed (g : Globals π) (x y : Nat) : Option LayerId :=
  ((g.layerStack.takeWhile (· ≠ mouseLayerId)).filter (g.screen.lm.under x y)).getLast?

/-- the stack is the desk's; every layer has its object, and the windows are those of the window manager -/
structure Shape (g : Globals π) (d : Desk) : Prop where
  stack : g.layerStack = d.stack
  layer : ∀ id < g.screen.currId, (g.screen.lm.layers id).isSome
  low : desktopLayerId < g.screen.currId
  windows : ∀ id ∈ d.windows, id < g.screen.currId
  mouse : ∃ transparent, g.arena.map (g.object mouseLayerId) = some (.mouse transparent)
  desktop : g.arena.map (g.object desktopLayerId) = some .desktop
  window : ∀ id < g.screen.currId, id ≠ mouseLayerId ∧ id ≠ desktopLayerId →
    ∃ window, g.arena.map (g.object id) = some (.window window)
  known : ∀ object id, g.map object = some id →
    id < g.screen.currId ∧ (id ≠ mouseLayerId ∧ id ≠ desktopLayerId) ∧ g.object id = object
  arena : ∀ id < g.screen.currId, g.object id < g.arena.currId
  pressed : g.eventInfo.pressedId < g.screen.currId

namespace Shape
variable {g : Globals π} {d : Desk} {id : LayerId}

theorem present (h : Shape g d) : LayerManager.Present g.screen.lm g.screen.lm.layerStack := by
  intro a ha
  refine h.layer a ?_
  rw [show g.screen.lm.layerStack = d.stack from h.stack] at ha
  rcases List.mem_cons.mp ha with rfl | ha
  · exact h.low
  rcases List.mem_append.mp ha with ha | ha
  · exact h.windows a ha
  · rw [List.mem_singleton.mp ha]
    exact Nat.lt_of_succ_lt h.low

/-- another layer manager with the same layers, and another desk -/
theorem withLm {lm : LayerManager π} {d' : Desk} (h : Shape g d) (hstack : lm.layerStack = d'.stack)
    (hlayers : ∀ a, (lm.layers a).isSome = (g.screen.lm.layers a).isSome)
    (hwindows : ∀ a ∈ d'.windows, a < g.screen.currId) : Shape (g.withLm lm) d' :=
  { h with
    stack := hstack
    layer := fun id hid => (hlayers id).trans (h.layer id hid)
    windows := hwindows }

theorem alike {lm : LayerManager π} (h : Shape g d) (hlm : LayerManager.Alike g.screen.lm lm) : Shape (g.withLm lm) d :=
  h.withLm (hlm.stack.trans h.stack) hlm.layers h.windows

/-! ### operations on layers -/

theorem change (h : Shape g d) (hid : id < g.screen.currId) (f : Layer → Layer) :
    ∃ lm, g.screen.change id f = some (g.screen.withLm lm) ∧ Shape (g.withLm lm) d := by
  obtain ⟨layer, hlayer⟩ := Option.isSome_iff_exists.mp (h.layer id hid)
  refine ⟨g.screen.lm.setLayer id (f layer), ?_, h.alike (LayerManager.alike_setLayer hlayer _)⟩
  unfold Screen.change
  rw [hlayer]
  rfl

theorem moveAbs (h : Shape g d) (hid : id < g.screen.currId) (x y : Int32) :
    ∃ lm, g.moveAbs id x y = some (g.withLm lm) ∧ Shape (g.withLm lm) d := by
  obtain ⟨lm, hlm, hs⟩ := h.change hid (Layer.moveAbs (g.screen.display id) x y)
  refine ⟨lm, ?_, hs⟩
  unfold Globals.moveAbs Screen.moveAbs
  rw [hlm]
  rfl

/-- each layer has its object -/
theorem object (h : Shape g d) (hid : id < g.screen.currId) : ∃ obj, g.arena.map (g.object id) = some obj := by
  by_cases hm : id = mouseLayerId
  · subst hm
    obtain ⟨t, ht⟩ := h.mouse
    exact ⟨_, ht⟩
  by_cases hd : id = desktopLayerId
  · subst hd
    exact ⟨_, h.desktop⟩
  · obtain ⟨w, hw⟩ := h.window id hid ⟨hm, hd⟩
    exact ⟨_, hw⟩

theorem updateBuffer (h : Shape g d) (art : Art) (hid : id < g.screen.currId) :
    ∃ lm, g.updateBuffer art id = some (g.withLm lm) ∧ Shape (g.withLm lm) d := by
  obtain ⟨obj, hobj⟩ := h.object hid
  obtain ⟨lm, hlm, hs⟩ := h.change hid (Layer.drawToBuffer (obj.drawTo art))
  refine ⟨lm, ?_, hs⟩
  unfold Globals.updateBuffer Screen.updateBuffer
  rw [hobj, Option.bind_some, hlm]
  rfl

theorem moveLayer {d' : Desk} {n : Int} (h : Shape g d)
    (hlm : g.screen.lm.moveLayer id n = some { g.screen.lm with layerStack := d'.stack })
    (hwindows : ∀ a ∈ d'.windows, a < g.screen.currId) :
    ∃ lm, g.moveLayer id n = some (g.withLm lm) ∧ Shape (g.withLm lm) d' := by
  refine ⟨{ g.screen.lm with layerStack := d'.stack }, ?_, h.withLm rfl (fun _ => rfl) hwindows⟩
  unfold Globals.moveLayer Screen.moveLayer
  rw [hlm]
  rfl

variable [Painter π]

theorem update (h : Shape g d) (hid : id < g.screen.currId) :
    ∃ lm, g.update id = some (g.withLm lm) ∧ Shape (g.withLm lm) d := by
  obtain ⟨lm, hlm, halike⟩ := LayerManager.update_total (h.layer id hid) h.present
  refine ⟨lm, ?_, h.alike halike⟩
  unfold Globals.update Screen.update
  rw [hlm]
  rfl

/-! ### the window manager -/

theorem createWindow (h : Shape g d) (title : String) (x y width height : Nat) :
    Shape (g.createWindow title x y width height).2 d := by
  have hlt : ∀ {a}, a < g.screen.currId → a ≠ g.screen.currId := fun ha => Nat.ne_of_lt ha
  have hobject : ∀ a < g.screen.currId, (g.createWindow title x y width height).2.object a = g.object a :=
    fun a ha => Function.update_of_ne (hlt ha) _ _
  have harena : ∀ a < g.screen.currId, (g.createWindow title x y width height).2.arena.map (g.object a)
      = g.arena.map (g.object a) := fun a ha => Function.update_of_ne (Nat.ne_of_lt (h.arena a ha)) _ _
  have hmouse : mouseLayerId < g.screen.currId := Nat.lt_of_succ_lt h.low
  refine ⟨h.stack, fun a ha => ?_, Nat.lt_succ_of_lt h.low, fun a ha => Nat.lt_succ_of_lt (h.windows a ha), ?_, ?_,
    fun a ha hne => ?_, fun object a hmap => ?_, fun a ha => ?_, Nat.lt_succ_of_lt h.pressed⟩
  · show (if a = g.screen.currId then _ else g.screen.lm.layers a).isSome
    by_cases he : a = g.screen.currId
    · rw [if_pos he]
      rfl
    · rw [if_neg he]
      exact h.layer a (Nat.lt_of_le_of_ne (Nat.le_of_lt_succ ha) he)
  · rw [hobject _ hmouse, harena _ hmouse]
    exact h.mouse
  · rw [hobject _ h.low, harena _ h.low]
    exact h.desktop
  · by_cases he : a = g.screen.currId
    · subst he
      refine ⟨(Window.new width height).setTitle title, ?_⟩
      show Function.update g.arena.map g.arena.currId _ (Function.update g.object g.screen.currId _ _) = _
      rw [Function.update_self, Function.update_self]
    · have ha : a < g.screen.currId := Nat.lt_of_le_of_ne (Nat.le_of_lt_succ ha) he
      rw [hobject a ha, harena a ha]
      exact h.window a ha hne
  · change Function.update g.map g.arena.currId (some g.screen.currId) object = some a at hmap
    by_cases he : object = g.arena.currId
    · subst he
      rw [Function.update_self] at hmap
      cases hmap
      exact ⟨Nat.lt_succ_self _, ⟨(Nat.ne_of_lt hmouse).symm, (Nat.ne_of_lt h.low).symm⟩, Function.update_self ..⟩
    · rw [Function.update_of_ne he] at hmap
      obtain ⟨hlt, hne, hobj⟩ := h.known object a hmap
      exact ⟨Nat.lt_succ_of_lt hlt, hne, (hobject a hlt).trans hobj⟩
  · show Function.update g.object g.screen.currId g.arena.currId a < g.arena.currId + 1
    by_cases he : a = g.screen.currId
    · rw [he, Function.update_self]
      exact Nat.lt_succ_self _
    · rw [Function.update_of_ne he]
      exact Nat.lt_succ_of_lt (h.arena a (Nat.lt_of_le_of_ne (Nat.le_of_lt_succ ha) he))

/-- a window that is shown goes under the others, wherever it was -/
theorem showWindow (h : Shape g d) (art : Art) {object : ObjectId} (hmap : g.map object = some id) :
    ∃ hid lm, g.showWindow art object = some (g.withLm lm) ∧ Shape (g.withLm lm) (d.lower id hid) := by
  obtain ⟨hlt, hne, hobj⟩ := h.known object id hmap
  obtain ⟨window, hwindow⟩ := h.window id hlt hne
  rw [hobj] at hwindow
  have hwindows : ∀ a ∈ (d.lower id hne).windows, a < g.screen.currId := by
    intro a ha
    rcases List.mem_cons.mp ha with rfl | ha
    · exact hlt
    · exact h.windows a (List.mem_of_mem_erase ha)
  obtain ⟨lm₁, hmove, h₁⟩ := h.moveLayer (LayerManager.moveLayer_lower h.stack hne) hwindows
  obtain ⟨lm₂, hbuffer, h₂⟩ := h₁.updateBuffer art hlt
  obtain ⟨lm₃, hupdate, h₃⟩ := h₂.update hlt
  refine ⟨hne, lm₃, ?_, h₃⟩
  unfold Globals.showWindow
  rw [hwindow, Option.bind_some, hmap, Option.bind_some]
  exact Option.bind_eq_some_iff.mpr ⟨_, hmove, Option.bind_eq_some_iff.mpr ⟨_, hbuffer, hupdate⟩⟩

theorem updateWindowFrame (h : Shape g d) {object : ObjectId} (hmap : g.map object = some id) (words : Nat → UInt32) :
    ∃ lm, g.updateWindowFrame object words = some (g.withLm lm) ∧ Shape (g.withLm lm) d := by
  obtain ⟨hlt, hne, hobj⟩ := h.known object id hmap
  obtain ⟨window, hwindow⟩ := h.window id hlt hne
  rw [hobj] at hwindow
  let drawn : Window := { window with frame := { window.frame with buffer := words } }
  obtain ⟨lm₁, hchange, h₁⟩ := h.change hlt fun layer => { layer with buffer := drawn.updateFrame layer.buffer }
  obtain ⟨lm₂, hupdate, h₂⟩ := h₁.update hlt
  refine ⟨lm₂, ?_, h₂⟩
  unfold Globals.updateWindowFrame
  rw [hwindow, Option.bind_some, hmap, Option.bind_some]
  exact Option.bind_eq_some_iff.mpr ⟨_, hchange, hupdate⟩

/-! ### events -/

omit [Painter π] in
/-- the loop of `on_event` -/
theorem affectLayer_eq {lm : LayerManager π} (x y : Nat) (eventFrom : LayerId) {stack : List LayerId}
    (hp : LayerManager.Present lm stack) : ∀ affect, affectLayer lm.layers x y eventFrom stack affect
      = some (((stack.takeWhile (· ≠ eventFrom)).filter (lm.under x y)).getLast?.or affect) := by
  induction stack with
  | nil => exact fun _ => rfl
  | cons a stack ih =>
    intro affect
    obtain ⟨ha, hp⟩ := List.forall_mem_cons.mp hp
    obtain ⟨layer, hlayer⟩ := Option.isSome_iff_exists.mp ha
    show (lm.layers a).bind _ = _
    rw [hlayer, Option.bind_some]
    by_cases hfrom : a = eventFrom
    · rw [if_pos hfrom, List.takeWhile_cons_of_neg (by simpa using hfrom)]
      rfl
    · have hunder : lm.under x y a = layer.under x y := by
        unfold LayerManager.under
        rw [hlayer]
        rfl
      rw [if_neg hfrom, List.takeWhile_cons_of_pos (by simpa using hfrom)]
      refine (ih hp _).trans ?_
      rw [List.filter_cons, hunder]
      cases layer.under x y with
      | false => rfl
      | true =>
        rw [if_pos rfl, if_pos rfl, List.getLast?_cons]
        cases ((stack.takeWhile (· ≠ eventFrom)).filter (lm.under x y)).getLast? <;> rfl

omit [Painter π] in
theorem takeWhile_stack (h : Shape g d) :
    g.layerStack.takeWhile (· ≠ mouseLayerId) = desktopLayerId :: d.windows := by
  have hbelow : ∀ a ∈ desktopLayerId :: d.windows, decide (a ≠ mouseLayerId) = true :=
    fun a ha => decide_eq_true (ne_of_mem_of_not_mem ha d.mouse_notMem)
  rw [h.stack]
  refine (List.takeWhile_append_of_pos hbelow).trans ?_
  simp

omit [Painter π] in
theorem getLayerHeight_mouse (h : Shape g d) : g.getLayerHeight mouseLayerId = d.windows.length + 1 := by
  unfold getLayerHeight
  rw [show LayerManager.position mouseLayerId g.layerStack = _ from LayerManager.mouse_height h.stack]
  rfl

omit [Painter π] in
/-- the window that is directly below the mouse is over all others -/
theorem raise_top (h : Shape g d) (hid : id ∈ d.windows) (htop : g.getLayerHeight id = d.windows.length) :
    (d.raise id hid).stack = d.stack := by
  obtain ⟨lo, hi, he, hlo, herase⟩ := d.split hid
  have hlow : id ∉ desktopLayerId :: lo := List.not_mem_cons_of_ne_of_not_mem (d.other id hid).2 hlo
  have hstack : g.layerStack = (desktopLayerId :: lo) ++ id :: (hi ++ [mouseLayerId]) := by
    rw [h.stack, Desk.stack, he, List.cons_append, List.append_assoc]
    rfl
  have hlast : hi = [] := by
    unfold getLayerHeight at htop
    rw [hstack, LayerManager.position_append hlow, he] at htop
    simp only [Option.getD_some, List.length_cons, List.length_append] at htop
    exact List.length_eq_zero_iff.mp (by omega)
  rw [d.stack_raise, Desk.stack, herase, he, hlast, List.append_nil]

/-- a press raises a window over all others -/
theorem windowOnEvent_press (h : Shape g d) (hid : id ∈ d.windows) (window : Window) (x y : Nat) :
    ∃ lm, g.windowOnEvent window id (.mouseLeftPress x y) = some (g.withLm lm) ∧ Shape (g.withLm lm) (d.raise id hid) := by
  have hheight : (g.getLayerHeight mouseLayerId : Int) - 1 = d.windows.length := by
    rw [h.getLayerHeight_mouse]
    omega
  have hlt : id < g.screen.currId := h.windows id hid
  unfold windowOnEvent
  dsimp only
  rw [hheight]
  by_cases htop : (g.getLayerHeight id : Int) = d.windows.length
  · have hstack : (d.raise id hid).stack = d.stack := h.raise_top hid (Int.ofNat_inj.mp htop)
    rw [if_pos htop]
    refine ⟨g.screen.lm, rfl, h.withLm (h.stack.trans hstack.symm) (fun _ => rfl) fun a ha => ?_⟩
    rcases List.mem_append.mp ha with ha | ha
    · exact h.windows a (List.mem_of_mem_erase ha)
    · rw [List.mem_singleton.mp ha]
      exact hlt
  · have hwindows : ∀ a ∈ (d.raise id hid).windows, a < g.screen.currId := by
      intro a ha
      rcases List.mem_append.mp ha with ha | ha
      · exact h.windows a (List.mem_of_mem_erase ha)
      · rw [List.mem_singleton.mp ha]
        exact hlt
    obtain ⟨lm₁, hmove, h₁⟩ := h.moveLayer (LayerManager.moveLayer_raise h.stack hid) hwindows
    obtain ⟨lm₂, hupdate, h₂⟩ := h₁.update hlt
    rw [if_neg htop]
    exact ⟨lm₂, Option.bind_eq_some_iff.mpr ⟨_, hmove, hupdate⟩, h₂⟩

/-- a release moves a window on the display, and not in the stack -/
theorem windowOnEvent_release (h : Shape g d) (hid : id < g.screen.currId) (window : Window) (x y : Nat) :
    ∃ lm, g.windowOnEvent window id (.mouseLeftRelease x y) = some (g.withLm lm) ∧ Shape (g.withLm lm) d := by
  obtain ⟨layer, hlayer⟩ := Option.isSome_iff_exists.mp (h.layer id hid)
  unfold windowOnEvent
  dsimp only
  rw [hlayer, Option.bind_some]
  split
  · exact ⟨g.screen.lm, rfl, h⟩
  · obtain ⟨lm₁, hmove, h₁⟩ := h.moveAbs hid _ _
    obtain ⟨lm₂, hupdate, h₂⟩ := h₁.update hid
    exact ⟨lm₂, Option.bind_eq_some_iff.mpr ⟨_, hmove, hupdate⟩, h₂⟩

/-- the object of the layer takes the event -/
theorem dispatch_eq (h : Shape g d) (hid : id < g.screen.currId) (event : ObjectEvent) :
    ∃ obj, g.arena.map (g.object id) = some obj ∧ g.dispatch event id = g.objectOnEvent obj event id := by
  obtain ⟨layer, hlayer⟩ := Option.isSome_iff_exists.mp (h.layer id hid)
  obtain ⟨obj, hobj⟩ := h.object hid
  refine ⟨obj, hobj, ?_⟩
  unfold dispatch
  rw [hlayer, Option.bind_some, hobj, Option.bind_some]

omit [Painter π] in
theorem pressed_eq (h : Shape g d) (x y : Nat) :
    g.pressed x y = ((desktopLayerId :: d.windows).filter (g.screen.lm.under x y)).getLast? := by
  unfold Globals.pressed
  rw [h.takeWhile_stack]

/-- **A press** raises the window it is in, and nothing else. -/
theorem press (h : Shape g d) (x y : Nat) : ∃ g' d', g.onEvent (.mouseLeftPress x y) mouseLayerId = some g' ∧
    Shape g' d' ∧ (∀ id ∈ d.windows, g.pressed x y = some id → d'.windows = d.windows.erase id ++ [id]) ∧
    ((∀ id ∈ d.windows, g.pressed x y ≠ some id) → d' = d) := by
  have haffect : affectLayer g.screen.lm.layers x y mouseLayerId g.screen.lm.layerStack none = some (g.pressed x y) := by
    rw [affectLayer_eq x y mouseLayerId h.present, Option.or_none]
    rfl
  unfold onEvent layerStack
  dsimp only
  rw [haffect, Option.bind_some]
  cases hpressed : g.pressed x y with
  | none => exact ⟨_, d, rfl, { h with }, by simp, fun _ => rfl⟩
  | some id =>
    have hmem : id ∈ desktopLayerId :: d.windows := by
      rw [h.pressed_eq] at hpressed
      exact List.mem_of_mem_filter (List.mem_of_getLast? hpressed)
    have hlt : id < g.screen.currId := by
      rcases List.mem_cons.mp hmem with rfl | hm
      · exact h.low
      · exact h.windows id hm
    dsimp only
    -- what is recorded of the press is no part of the shape
    have h₁ : Shape { g with eventInfo := ⟨id, x, y⟩ } d := { h with pressed := hlt }
    obtain ⟨obj, hobj, hdispatch⟩ := h₁.dispatch_eq hlt (.mouseLeftPress x y)
    rw [show Globals.dispatch _ id _ = _ from hdispatch]
    rcases List.mem_cons.mp hmem with rfl | hm
    · cases h.desktop.symm.trans hobj
      refine ⟨_, d, rfl, h₁, fun a ha e => ?_, fun _ => rfl⟩
      cases e
      exact absurd rfl (d.other _ ha).2
    · obtain ⟨window, hwindow⟩ := h.window id hlt (d.other id hm)
      cases hwindow.symm.trans hobj
      obtain ⟨lm, hevent, h₂⟩ := h₁.windowOnEvent_press hm window x y
      refine ⟨_, d.raise id hm, hevent, h₂, fun a _ e => ?_, fun hno => absurd rfl (hno id hm)⟩
      cases e
      rfl

/-- **A release** leaves the stack as it is. -/
theorem release (h : Shape g d) (x y : Nat) :
    ∃ g', g.onEvent (.mouseLeftRelease x y) mouseLayerId = some g' ∧ Shape g' d := by
  obtain ⟨obj, -, hdispatch⟩ := h.dispatch_eq h.pressed (.mouseLeftRelease x y)
  unfold onEvent
  dsimp only
  rw [hdispatch]
  cases obj with
  | mouse transparent => exact ⟨g, rfl, h⟩
  | desktop => exact ⟨g, rfl, h⟩
  | window window =>
    obtain ⟨lm, hevent, h₁⟩ := h.windowOnEvent_release h.pressed window x y
    exact ⟨_, hevent, h₁⟩

/-- **Every request** succeeds and leaves a desk. -/
theorem step (h : Shape g d) (art : Art) {r : Request} (hr : r.Known g) :
    ∃ g', r.step art g = some g' ∧ ∃ d', Shape g' d' := by
  cases r with
  | createWindow title x y width height => exact ⟨_, rfl, d, h.createWindow title x y width height⟩
  | showWindow object =>
    obtain ⟨id, hid⟩ := Option.isSome_iff_exists.mp hr
    obtain ⟨hne, lm, hshow, hs⟩ := h.showWindow art hid
    exact ⟨_, hshow, _, hs⟩
  | updateWindowFrame object words =>
    obtain ⟨id, hid⟩ := Option.isSome_iff_exists.mp hr
    obtain ⟨lm, hupdate, hs⟩ := h.updateWindowFrame hid words
    exact ⟨_, hupdate, _, hs⟩
  | event event =>
    cases event with
    | mouseLeftPress x y =>
      obtain ⟨g', d', hpress, hs, -⟩ := h.press x y
      exact ⟨g', hpress, d', hs⟩
    | mouseLeftRelease x y =>
      obtain ⟨g', hrelease, hs⟩ := h.release x y
      exact ⟨g', hrelease, d, hs⟩

end Shape

variable [Painter π]

/-- the desk of `graphics::init` has no windows -/
theorem init_shape (art : Art) (painter : π) :
    ∃ g d, init art painter = some g ∧ Shape g d ∧ d.windows = [] := by
  have hscreen : ∀ draw : LayerId → Drawing, ∃ s : Screen π, Screen.init painter draw = some s ∧ s.currId = 2 ∧
      s.lm.layerStack = [desktopLayerId, mouseLayerId] ∧ ∀ id < 2, (s.lm.layers id).isSome := by
    intro draw
    -- the screen before `draw_all`
    obtain ⟨s, hinit, hcurr, hstack, hlayers⟩ : ∃ s : Screen π,
        Screen.init painter draw = (s.lm.drawAll draw).map s.withLm ∧ s.currId = 2 ∧
        s.lm.layerStack = [desktopLayerId, mouseLayerId] ∧ ∀ id < 2, (s.lm.layers id).isSome := by
      let s := ((Screen.new painter).createLayer 0 0 16 23).createLayer 0 0 (Painter.getWidth painter)
        (Painter.getHeight painter)
      let mouse := (Layer.new 0 0 16 23).setTransparentColor mouseTransparentColor
      refine ⟨s.withLm { s.lm.setLayer mouseLayerId mouse with layerStack := [desktopLayerId, mouseLayerId] }, rfl, rfl,
        rfl, fun id hid => ?_⟩
      obtain rfl | rfl : id = 0 ∨ id = 1 := Nat.le_one_iff_eq_zero_or_eq_one.mp (Nat.le_of_lt_succ hid)
      · rfl
      · rfl
    have hp : LayerManager.Present s.lm s.lm.layerStack := by
      intro a ha
      rw [hstack] at ha
      rcases List.mem_pair.mp ha with rfl | rfl
      · exact hlayers _ (by decide)
      · exact hlayers _ (by decide)
    obtain ⟨lm, hd, halike⟩ := LayerManager.drawAllLoop_total draw hp
    refine ⟨s.withLm (lm.setPainter (Painter.flush lm.painter)), ?_, hcurr, halike.stack.trans hstack, fun id hid =>
      (halike.layers id).trans (hlayers id hid)⟩
    rw [hinit]
    unfold LayerManager.drawAll
    rw [hd]
    rfl
  unfold init
  obtain ⟨s, hinit, hcurr, hstack, hlayers⟩ := hscreen fun id =>
    (if id = mouseLayerId then Object.mouse mouseTransparentColor else .desktop).drawTo art
  dsimp only
  rw [hinit]
  refine ⟨_, ⟨[], List.nodup_nil, by simp⟩, rfl, ?_, rfl⟩
  · refine ⟨hstack, fun id hid => hlayers id (hcurr ▸ hid), ?_, by simp, ⟨_, rfl⟩, rfl, fun id hid hne => ?_, ?_,
      fun id hid => ?_, ?_⟩
    · show 1 < s.currId
      rw [hcurr]
      exact Nat.lt_succ_self 1
    · rcases Nat.le_one_iff_eq_zero_or_eq_one.mp (Nat.le_of_lt_succ (hcurr ▸ hid : id < 2)) with e | e
      · exact absurd e hne.1
      · exact absurd e hne.2
    · intro object id h
      cases h
    · show (if id = mouseLayerId then 0 else 1) < 2
      split
      · exact Nat.zero_lt_two
      · exact Nat.one_lt_two
    · show 0 < s.currId
      rw [hcurr]
      exact Nat.zero_lt_two

/-- **Desktop at the bottom, pointer on top.**  In every run of the window manager from `graphics::init` on, with
any events of the mouse, no call panics; the stack is the desktop, windows that are all different, and the mouse.  A
press goes to the highest window under it, which is then directly below the mouse, with the others in their order. -/
theorem layers_in_order (art : Art) (painter : π) : ∃ g₀, init art painter = some g₀ ∧
    ∀ requests, Trace.Throughout (Request.step art) Request.Known requests g₀ →
      ∃ g, Trace.run (Request.step art) requests g₀ = some g ∧ ∃ d : Desk, g.layerStack = d.stack ∧
        (∀ id ∈ g.layerStack, (g.screen.lm.layers id).isSome) ∧
        (∀ id ∈ d.windows, ∃ window, g.arena.map (g.object id) = some (.window window)) ∧
        ∀ x y, ∃ g', Request.step art (.event (.mouseLeftPress x y)) g = some g' ∧
          (∀ id ∈ d.windows, g.pressed x y = some id →
            g'.layerStack = desktopLayerId :: (d.windows.erase id ++ [id, mouseLayerId])) ∧
          ((∀ id ∈ d.windows, g.pressed x y ≠ some id) → g'.layerStack = g.layerStack) := by
  obtain ⟨g₀, d₀, hinit, h₀, -⟩ := init_shape art painter
  refine ⟨g₀, hinit, fun requests hknown => ?_⟩
  obtain ⟨g, hrun, d, h⟩ := Trace.run_total Request.Known (fun g => ∃ d, Shape g d)
    (fun g r ⟨d, h⟩ hr => h.step art hr) requests ⟨d₀, h₀⟩ hknown
  refine ⟨g, hrun, d, h.stack, h.present, fun id hid => h.window id (h.windows id hid) (d.other id hid), fun x y => ?_⟩
  obtain ⟨g', d', hpress, h', hraise, hsame⟩ := h.press x y
  refine ⟨g', hpress, fun id hid e => ?_, fun hno => ?_⟩
  · rw [h'.stack, Desk.stack, hraise id hid e, List.append_assoc]
    rfl
  · rw [h'.stack, hsame hno, h.stack]

/-- nothing is drawn, on a small display -/
def plain : Art := ⟨fun _ _ _ => 0, fun _ _ => 0⟩
def small : VirtioGpu := ⟨fun _ => 0, 4, 4, by decide⟩

/-- two windows; the second is shown under the first, and then pressed where the first is not -/
def twoWindows : List Request :=
  [.createWindow "a" 0 0 8 8, .createWindow "b" 4 4 8 8, .showWindow 2, .showWindow 3, .event (.mouseLeftPress 10 10)]

theorem layers_in_order_example : ∃ g₀, init plain small = some g₀ ∧
    ∃ g, Trace.run (Request.step plain) twoWindows g₀ = some g ∧ g.layerStack = [1, 2, 3, 0] ∧
      ∀ id ∈ g.layerStack, (g.screen.lm.layers id).isSome := by
  obtain ⟨g₀, hinit, h⟩ := layers_in_order plain small
  have hg : g₀ = (init plain small).get rfl := (Option.get_of_eq_some rfl hinit).symm
  have hknown : Trace.Throughout (Request.step plain) Request.Known twoWindows g₀ := by
    rw [hg]
    decide
  have hstack : (Trace.run (Request.step plain) twoWindows g₀).map layerStack = some [1, 2, 3, 0] := by
    rw [hg]
    rfl
  obtain ⟨g, hrun, d, -, hlayers, -⟩ := h twoWindows hknown
  rw [hrun] at hstack
  exact ⟨g₀, hinit, g, hrun, Option.some.inj hstack, hlayers⟩

end Globals

end Citron.Graphics
