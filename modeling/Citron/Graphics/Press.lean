import Citron.Graphics.Desk

/-!
# Where a press goes

`on_event` looks for the layer under a press with `is_overlapping`, which compares open intervals: a point on the
left or the upper edge of a rectangle is drawn by `transfer_buffer_range` but is not in the rectangle for a press.

* `Layer.contains`   the pixels that are drawn;
* `deliver`          `on_event` up to the call of the object;
* `PressHits`        the press goes to what is drawn at its point;
* `press_hits_iff`   it does unless the highest layer there has the point on its left or upper edge.
-/

namespace Citron.Graphics

/-- the point is drawn by the layer -/
def Layer.contains (x y : Nat) (l : Layer) : Bool :=
  decide (l.x ≤ x ∧ x < l.x + l.width ∧ l.y ≤ y ∧ y < l.y + l.height)

/-- the point is in the leftmost column or the topmost row of the layer -/
def Layer.onEdge (x y : Nat) (l : Layer) : Bool := decide (x = l.x ∨ y = l.y)

theorem Layer.under_eq {l : Layer} (hl : l.Fits) (x y : Nat) : l.under x y = (l.contains x y && !l.onEdge x y) := by
  unfold Layer.under Layer.contains Layer.onEdge isOverlapping
  rw [show u32 (l.x + l.width) = l.x + l.width from Nat.mod_eq_of_lt hl.x,
    show u32 (l.y + l.height) = l.y + l.height from Nat.mod_eq_of_lt hl.y, ← Bool.decide_and, ← decide_not,
    ← Bool.decide_and]
  exact decide_eq_decide.mpr (by omega)

/-- among the elements with `p`, the last has `q` as well -/
theorem getLast?_filter_and {α : Type} (p q : α → Bool) (l : List α) :
    (l.filter fun a => p a && q a).getLast? = (l.filter p).getLast? ↔ ∀ a ∈ (l.filter p).getLast?, q a = true := by
  have htwice : (l.filter fun a => p a && q a) = (l.filter p).filter q := by
    rw [List.filter_filter]
    exact List.filter_congr fun a _ => Bool.and_comm _ _
  rw [htwice]
  constructor
  · intro h a ha
    rw [← h] at ha
    exact (List.mem_filter.mp (List.mem_of_getLast? ha)).2
  · intro h
    cases hlast : (l.filter p).getLast? with
    | none =>
      rw [List.getLast?_eq_none_iff.mp hlast]
      rfl
    | some a =>
      obtain ⟨lo, hlo⟩ := List.getLast?_eq_some_iff.mp hlast
      rw [hlo, List.filter_append, List.filter_cons_of_pos (h a hlast), List.getLast?_append]
      rfl

namespace LayerManager
variable {π : Type}

def contains (lm : LayerManager π) (x y : Nat) (id : LayerId) : Bool := (lm.layers id).any (Layer.contains x y)

def onEdge (lm : LayerManager π) (x y : Nat) (id : LayerId) : Bool := (lm.layers id).any (Layer.onEdge x y)

/-- the highest layer below `eventFrom` that is drawn at the point -/
def hit (lm : LayerManager π) (x y : Nat) (eventFrom : LayerId) : Option LayerId :=
  ((lm.layerStack.takeWhile (· ≠ eventFrom)).filter (lm.contains x y)).getLast?

theorem hit_eq_none_iff (lm : LayerManager π) (x y : Nat) (eventFrom : LayerId) : lm.hit x y eventFrom = none ↔
    ∀ id ∈ lm.layerStack.takeWhile (· ≠ eventFrom), lm.contains x y id = false := by
  unfold hit
  rw [List.getLast?_eq_none_iff, List.filter_eq_nil_iff]
  exact forall₂_congr fun _ _ => Bool.eq_false_iff.symm

theorem under_eq {lm : LayerManager π} {id : LayerId} {l : Layer} (hlayer : lm.layers id = some l) (hl : l.Fits)
    (x y : Nat) : lm.under x y id = (lm.contains x y id && !lm.onEdge x y id) := by
  unfold LayerManager.under contains onEdge
  rw [hlayer]
  exact l.under_eq hl x y

end LayerManager

/-! ## delivery -/

namespace Globals
variable {π : Type}

/-- `on_event` up to the call of the object: the layer that the event goes to, and what is recorded of the press -/
def deliver (event : ObjectEvent) (eventFrom : LayerId) (g : Globals π) : Option (Option LayerId × Globals π) :=
  match event with
  | .mouseLeftPress x y =>
    let g := { g with eventInfo := { g.eventInfo with pressedX := x, pressedY := y } }
    (affectLayer g.screen.lm.layers x y eventFrom g.layerStack none).map fun
      | some layerId => (some layerId, { g with eventInfo := { g.eventInfo with pressedId := layerId } })
      | none => (none, g)
  | .mouseLeftRelease _ _ => some (some g.eventInfo.pressedId, g)

theorem onEvent_eq [Painter π] (event : ObjectEvent) (eventFrom : LayerId) (g : Globals π) :
    g.onEvent event eventFrom = (g.deliver event eventFrom).bind fun (affect, g) =>
      match affect with
      | some layerId => g.dispatch event layerId
      | none => some g := by
  cases event with
  | mouseLeftPress x y =>
    unfold onEvent deliver
    dsimp only
    cases affectLayer _ _ _ _ _ _ with
    | none => rfl
    | some affect => cases affect <;> rfl
  | mouseLeftRelease x y => rfl

/-- the press goes to the highest layer below `eventFrom` that is drawn at the point, which is recorded; it goes to no
layer exactly when no layer there is drawn at the point -/
def PressHits (x y : Nat) (eventFrom : LayerId) (g : Globals π) : Prop :=
  ∃ affect, g.deliver (.mouseLeftPress x y) eventFrom
      = some (affect, { g with eventInfo := ⟨affect.getD g.eventInfo.pressedId, x, y⟩ }) ∧
    affect = g.screen.lm.hit x y eventFrom ∧
    (affect = none ↔ ∀ id ∈ g.layerStack.takeWhile (· ≠ eventFrom), g.screen.lm.contains x y id = false)

theorem deliver_press {g : Globals π} (hp : LayerManager.Present g.screen.lm g.layerStack) (x y : Nat)
    (eventFrom : LayerId) :
    let affect := ((g.layerStack.takeWhile (· ≠ eventFrom)).filter (g.screen.lm.under x y)).getLast?
    g.deliver (.mouseLeftPress x y) eventFrom
      = some (affect, { g with eventInfo := ⟨affect.getD g.eventInfo.pressedId, x, y⟩ }) := by
  intro affect
  have haffect : affectLayer g.screen.lm.layers x y eventFrom g.layerStack none = some affect := by
    rw [Shape.affectLayer_eq x y eventFrom hp, Option.or_none]
  change Option.map _ (affectLayer g.screen.lm.layers x y eventFrom g.layerStack none) = _
  rw [haffect]
  cases affect <;> rfl

/-- **A press hits what is drawn** at its point unless the highest layer there has the point in its leftmost column
or its topmost row. -/
theorem press_hits_iff (g : Globals π) (x y : Nat) (hfit : StackFits g.screen.lm.layers g.layerStack) :
    g.PressHits x y mouseLayerId ↔
      ∀ id ∈ g.screen.lm.hit x y mouseLayerId, g.screen.lm.onEdge x y id = false := by
  have hp : LayerManager.Present g.screen.lm g.layerStack := by
    intro a ha
    obtain ⟨l, hl, -⟩ := hfit a ha
    rw [hl]
    rfl
  have hunder : (g.layerStack.takeWhile (· ≠ mouseLayerId)).filter (g.screen.lm.under x y)
      = (g.layerStack.takeWhile (· ≠ mouseLayerId)).filter
          fun a => g.screen.lm.contains x y a && !g.screen.lm.onEdge x y a := by
    refine List.filter_congr fun a ha => ?_
    obtain ⟨l, hl, hlf⟩ := hfit a ((List.takeWhile_sublist _).subset ha)
    exact LayerManager.under_eq hl hlf x y
  have hiff := getLast?_filter_and (g.screen.lm.contains x y) (fun a => !g.screen.lm.onEdge x y a)
    (g.layerStack.takeWhile (· ≠ mouseLayerId))
  rw [← hunder] at hiff
  unfold PressHits
  rw [deliver_press hp]
  constructor
  · intro ⟨affect, h, haffect, _⟩ id hid
    have he := (Prod.mk.inj (Option.some.inj h)).1
    simpa using hiff.mp (he.trans haffect) id hid
  · intro h
    have he := hiff.mpr fun a ha => by simpa using h a ha
    refine ⟨_, rfl, he, ?_⟩
    rw [he]
    exact g.screen.lm.hit_eq_none_iff x y mouseLayerId

/-- what `graphics::init` leaves: the desktop and the mouse on a small display -/
def bare : Globals VirtioGpu := (init plain small).get rfl

theorem bare_fits : StackFits bare.screen.lm.layers bare.layerStack := by
  intro a ha
  obtain rfl | rfl : a = desktopLayerId ∨ a = mouseLayerId := List.mem_pair.mp ha
  · exact ⟨_, rfl, by decide, by decide⟩
  · exact ⟨_, rfl, by decide, by decide⟩

/-- a press inside the desktop -/
theorem press_hits_desktop : StackFits bare.screen.lm.layers bare.layerStack ∧ bare.PressHits 1 2 mouseLayerId :=
  ⟨bare_fits, (press_hits_iff bare 1 2 bare_fits).mpr (by decide)⟩

/-- at the left edge of the display the press goes to no layer, although the desktop is drawn there -/
theorem press_misses_edge : StackFits bare.screen.lm.layers bare.layerStack ∧
    bare.screen.lm.hit 0 2 mouseLayerId = some desktopLayerId ∧ ¬bare.PressHits 0 2 mouseLayerId := by
  refine ⟨bare_fits, by decide, fun ⟨affect, h, haffect, _⟩ => ?_⟩
  have hnone : (bare.deliver (.mouseLeftPress 0 2) mouseLayerId).map Prod.fst = some none := by decide
  have hhit : bare.screen.lm.hit 0 2 mouseLayerId = some desktopLayerId := by decide
  rw [h, haffect, hhit] at hnone
  cases hnone

end Globals

end Citron.Graphics
