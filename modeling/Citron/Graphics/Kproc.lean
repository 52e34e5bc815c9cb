import Citron.Graphics.Drag
import Citron.Virtio.Input

/-!
# From the mouse to the pointer

`kproc` (`src/kmain.rs`) takes the events of the mouse out of the queue that `pending` fills, and hands them to the
layer manager; other processes call the window manager in between.  `none` is a panic, or a step that is not the next.

* `EventType.ofCode`, `handle`   one event;
* `Kproc`                        the mouse with its driver, the event that `kproc` has in hand, and the layers;
* `handle_eq`                    an event is an action of `DragRun`, or none;
* `Follows`                      the driver as if nothing had been taken out, and the layers as `DragRun` has them;
* `pointer_follows`              the pointer is where the events that were handled take it.
-/

namespace Citron.Graphics
open Citron.Virtio Trace

/-! ## events -/

structure VirtioInputEvent where
  type : UInt16
  code : UInt16
  value : UInt32
deriving DecidableEq

inductive EventType
  | syn
  | key
  | rel
  | abs
  | msc
  | sw
  | led
  | snd
  | rep
  | ff
  | pwr
  | ffStatus
  | max
deriving DecidableEq

/-- `EventType::from`; an unknown type is a panic -/
def EventType.ofCode (type : UInt16) : Option EventType :=
  match type.toNat with
  | 0 => some .syn
  | 1 => some .key
  | 2 => some .rel
  | 3 => some .abs
  | 4 => some .msc
  | 5 => some .sw
  | 17 => some .led
  | 18 => some .snd
  | 20 => some .rep
  | 21 => some .ff
  | 22 => some .pwr
  | 23 => some .ffStatus
  | 31 => some .max
  | _ => none

def relX : UInt16 := 0
def relY : UInt16 := 1
def btnLeft : UInt16 := 272

/-- the body of the inner loop of `kproc` -/
def handle (ev : VirtioInputEvent) (g : Globals VirtioGpu) : Option (Globals VirtioGpu) :=
  (EventType.ofCode ev.type).bind fun type =>
    match type with
    | .rel =>
      if ev.code = relX then g.moveMouse ev.value.toInt32 0
      else if ev.code = relY then g.moveMouse 0 ev.value.toInt32
      else some g
    | .key =>
      if ev.code = btnLeft ∧ ev.value = 1 then
        (g.place mouseLayerId).bind fun p => g.onEvent (.mouseLeftPress p.1 p.2) mouseLayerId
      else if ev.code = btnLeft ∧ ev.value = 0 then
        (g.place mouseLayerId).bind fun p => g.onEvent (.mouseLeftRelease p.1 p.2) mouseLayerId
      else some g
    | .syn => g.update mouseLayerId
    | _ => some g

/-! ## `kproc` -/

/-- `handled` is the events that were in hand before -/
structure Kproc where
  mouse : InputRun VirtioInputEvent
  hand : Option VirtioInputEvent
  handled : List VirtioInputEvent
  g : Globals VirtioGpu

inductive KprocAction
  /-- the device writes an event -/
  | device (ev : VirtioInputEvent)
  | pending
  /-- `pop_front` -/
  | pop
  | handle
  /-- the calls of other processes -/
  | createWindow (title : String) (x y width height : Nat)
  | showWindow (id : ObjectId)
  | updateWindowFrame (id : ObjectId) (words : Nat → UInt32)

namespace Kproc

/-- `event_queue` -/
def queue (s : Kproc) : List VirtioInputEvent := s.mouse.drv.eventQueue

def pop (s : Kproc) : Option Kproc :=
  match s.hand, s.queue with
  | none, ev :: queue =>
    some { s with hand := some ev, mouse := { s.mouse with drv := { s.mouse.drv with eventQueue := queue } } }
  | _, _ => none

def handle (s : Kproc) : Option Kproc :=
  s.hand.bind fun ev => (Graphics.handle ev s.g).map fun g => { s with hand := none, handled := s.handled ++ [ev], g }

def step (art : Art) : KprocAction → Kproc → Option Kproc
  | .device ev, s => (InputRun.step (.device ev) s.mouse).map fun mouse => { s with mouse }
  | .pending, s => (InputRun.step .pending s.mouse).map fun mouse => { s with mouse }
  | .pop, s => s.pop
  | .handle, s => s.handle
  | .createWindow title x y width height, s => some { s with g := (s.g.createWindow title x y width height).2 }
  | .showWindow id, s => (s.g.showWindow art id).map fun g => { s with g }
  | .updateWindowFrame id words, s => (s.g.updateWindowFrame id words).map fun g => { s with g }

/-- at the loop of `kproc`, after `init_input_event` and `graphics::init` -/
def init (art : Art) (display : VirtioGpu) (eventBuffer : Nat) : Option Kproc :=
  (Globals.init art display).map fun g => ⟨InputRun.init eventBuffer ⟨0, 0, 0⟩, none, [], g⟩

/-- where the mouse is drawn -/
def pointer (s : Kproc) : Option (Nat × Nat) := s.g.place mouseLayerId

end Kproc

/-! ## what is asked of the pointer -/

/-- what an event asks of the layer manager -/
def VirtioInputEvent.action (ev : VirtioInputEvent) : Option DragAction :=
  if ev.type = 0 then some .syn
  else if ev.type = 1 ∧ ev.code = btnLeft ∧ ev.value = 1 then some .press
  else if ev.type = 1 ∧ ev.code = btnLeft ∧ ev.value = 0 then some .release
  else if ev.type = 2 ∧ ev.code = relX then some (.relX ev.value.toInt32)
  else if ev.type = 2 ∧ ev.code = relY then some (.relY ev.value.toInt32)
  else none

/-- the coordinate `v` on a display of the size, moved by `d` as an `i32` -/
def DragRun.movedBy (size : Nat) (v : Nat) (d : Int32) : Nat := clampTo size ((v + d.toInt : Int).bmod (2^32))

/-- where an action takes the pointer, on a display of `w` by `h` -/
def DragAction.move (w h : Nat) (p : Nat × Nat) : DragAction → Nat × Nat
  | .relX value => (DragRun.movedBy w p.1 value, p.2)
  | .relY value => (p.1, DragRun.movedBy h p.2 value)
  | _ => p

/-- where events take the pointer from the corner -/
def path (w h : Nat) (evs : List VirtioInputEvent) : Nat × Nat :=
  (evs.filterMap VirtioInputEvent.action).foldl (DragAction.move w h) (0, 0)

def DragAction.isEvent : DragAction → Bool
  | .createWindow .. | .showWindow _ | .updateWindowFrame .. => false
  | _ => true


/-! ## the pointer under `DragRun` -/

namespace DragRun
variable {art : Art} {s s' : DragRun} {w h : Nat}

theorem movedBy_eq (v : Nat) (d : Int32) {size : Nat} (hv : v ≤ size) (hsize : size < 2^31) :
    (clamp (Int32.ofNat v + d) (Int32.ofNat size)).toUInt32.toNat = movedBy size v d := by
  rw [clamp_eq _ hsize, Int32.toInt_add, Int32.toInt_ofNat_of_lt (hv.trans_lt hsize)]
  rfl

/-- a coordinate that is not moved -/
theorem movedBy_zero {v size : Nat} (hv : v ≤ size) (hsize : size < 2^31) : movedBy size v 0 = v := by
  have hb : ((v : Int) + 0).bmod (2^32) = v := by
    rw [Int.add_zero]
    exact Int.bmod_eq_of_le (by omega) (by omega)
  unfold movedBy
  rw [Int32.toInt_zero, hb]
  unfold clampTo
  omega

/-- a press moves nothing -/
theorem press_place (hp : LayerManager.Present s.g.screen.lm s.g.layerStack) (hstep : s.press = some s') (id : LayerId) :
    s'.g.place id = s.g.place id := by
  obtain ⟨⟨x, y⟩, -, hstep⟩ := Option.bind_eq_some_iff.mp hstep
  obtain ⟨g', hevent, rfl⟩ := Option.map_eq_some_iff.mp hstep
  rw [Globals.onEvent_eq, Globals.deliver_press hp x y mouseLayerId, Option.bind_some] at hevent
  dsimp only at hevent
  split at hevent
  · exact (Globals.Still.dispatch_press hevent).place id
  · cases hevent
    rfl

/-- a release moves a window, and not the pointer -/
theorem release_pointer (hs : Held w h s) {d : Desk} (hshape : s.g.Shape d) (hstep : s.release = some s') :
    s'.pointer = s.pointer := by
  by_cases hno : ∀ window, s.g.arena.map (s.g.object s.g.eventInfo.pressedId) ≠ some (.window window)
  · rw [release_other hstep hno]
  obtain ⟨window, hw⟩ := not_forall_not.mp hno
  obtain ⟨⟨x, y⟩, hpt, -⟩ := Option.bind_eq_some_iff.mp hstep
  obtain ⟨l, hl⟩ := Option.isSome_iff_exists.mp (hshape.layer _ hshape.pressed)
  have hrelease := release_window hstep hw hl hpt
  split at hrelease
  · rw [hrelease]
  · have hne := (hs.window_bounds hshape hw hl hpt).1
    refine (hrelease.1.place mouseLayerId).trans ?_
    unfold Globals.place
    rw [moved_others (Ne.symm hne)]
    rfl

theorem moveMouse_pointer (hs : Held w h s) {d : Desk} (hshape : s.g.Shape d) (hw : w < 2^31) (hh : h < 2^31)
    {x y : Nat} (hp : s.pointer = some (x, y)) {dx dy : Int32} {g' : Globals VirtioGpu}
    (hm : s.g.moveMouse dx dy = some g') : g'.place mouseLayerId = some (movedBy w x dx, movedBy h y dy) := by
  obtain ⟨screen, hscreen, rfl⟩ := Option.map_eq_some_iff.mp hm
  obtain ⟨l, hl, rfl⟩ := Option.map_eq_some_iff.mp hscreen
  obtain ⟨hx, hy⟩ := hs.pointer x y hp
  have hplace : some (l.x, l.y) = some (x, y) := (Globals.place_of_layer hl).symm.trans hp
  obtain ⟨rfl, rfl⟩ := Prod.mk.inj (Option.some.inj hplace)
  have hdisplay := hs.display mouseLayerId (Nat.lt_of_succ_lt hshape.low)
  show some ((l.moveRel (s.g.screen.display mouseLayerId) dx dy).x,
    (l.moveRel (s.g.screen.display mouseLayerId) dx dy).y) = _
  rw [hdisplay]
  unfold Layer.moveRel
  dsimp only
  rw [movedBy_eq l.x dx (hx hw) hw, movedBy_eq l.y dy (hy hh) hh]

theorem init_pointer {display : VirtioGpu} (hinit : init art display = some s) : s.pointer = some (0, 0) := by
  obtain ⟨g, hg, rfl⟩ := Option.map_eq_some_iff.mp hinit
  unfold Globals.init at hg
  obtain ⟨screen, hscreen, rfl⟩ := Option.map_eq_some_iff.mp hg
  rw [init_eq] at hscreen
  obtain ⟨lm, hlm, rfl⟩ := Option.map_eq_some_iff.mp hscreen
  have hrect := congrArg (Option.map Prod.fst) ((LayerManager.drawAll_kept hlm).rect mouseLayerId)
  rw [Option.map_map, Option.map_map] at hrect
  exact hrect

/-- where a step takes the pointer -/
theorem step_pointer (hs : Held w h s) {d : Desk} (hshape : s.g.Shape d) (hw : w < 2^31) (hh : h < 2^31)
    {p : Nat × Nat} (hp : s.pointer = some p) {a : DragAction} (hstep : step art a s = some s') :
    s'.pointer = some (a.move w h p) := by
  obtain ⟨x, y⟩ := p
  obtain ⟨hx, hy⟩ := hs.pointer x y hp
  cases a with
  | createWindow title x' y' width height =>
    cases hstep
    have hmouse : mouseLayerId < s.g.screen.currId := Nat.lt_of_succ_lt hshape.low
    refine Eq.trans ?_ hp
    exact congrArg (Option.map fun l : Layer => (l.x, l.y)) (if_neg (Nat.ne_of_lt hmouse))
  | showWindow id =>
    obtain ⟨g', hg, rfl⟩ := Option.map_eq_some_iff.mp hstep
    exact ((Globals.Still.showWindow hg).place mouseLayerId).trans hp
  | updateWindowFrame id words =>
    obtain ⟨g', hg, rfl⟩ := Option.map_eq_some_iff.mp hstep
    exact ((Globals.Still.updateWindowFrame hg).place mouseLayerId).trans hp
  | relX value =>
    obtain ⟨g', hg, rfl⟩ := Option.map_eq_some_iff.mp hstep
    refine (moveMouse_pointer hs hshape hw hh hp hg).trans ?_
    rw [movedBy_zero (hy hh) hh]
    rfl
  | relY value =>
    obtain ⟨g', hg, rfl⟩ := Option.map_eq_some_iff.mp hstep
    refine (moveMouse_pointer hs hshape hw hh hp hg).trans ?_
    rw [movedBy_zero (hx hw) hw]
    rfl
  | syn =>
    obtain ⟨g', hg, rfl⟩ := Option.map_eq_some_iff.mp hstep
    exact ((Globals.Still.update hg).place mouseLayerId).trans hp
  | press => exact (press_place hshape.present hstep mouseLayerId).trans hp
  | release => exact (release_pointer hs hshape hstep).trans hp

/-- the calls of the window manager leave the pointer -/
theorem run_pointer (hw : w < 2^31) (hh : h < 2^31) (acts : List DragAction) : ∀ {s s' : DragRun} {p : Nat × Nat},
    ((∃ d, s.g.Shape d) ∧ Held w h s) → s.pointer = some p → run (step art) acts s = some s' →
    s'.pointer = some ((acts.filter DragAction.isEvent).foldl (DragAction.move w h) p) := by
  induction acts with
  | nil =>
    intro s s' p _ hp hrun
    cases hrun
    exact hp
  | cons a acts ih =>
    intro s s' p hs hp hrun
    obtain ⟨t, ht, hrun⟩ := Option.bind_eq_some_iff.mp hrun
    obtain ⟨⟨d, hshape⟩, hheld⟩ := hs
    have h₁ := ih (step_held ⟨⟨d, hshape⟩, hheld⟩ ht) (step_pointer hheld hshape hw hh hp ht) hrun
    rw [h₁]
    cases a <;> rfl

/-- no event of the mouse panics -/
theorem step_event {d : Desk} (hshape : s.g.Shape d) {a : DragAction} (ha : a.isEvent = true) :
    ∃ s', step art a s = some s' := by
  have hmouse : mouseLayerId < s.g.screen.currId := Nat.lt_of_succ_lt hshape.low
  have hmove : ∀ dx dy, ∃ g', s.g.moveMouse dx dy = some g' := by
    intro dx dy
    obtain ⟨lm, hchange, -⟩ := hshape.change hmouse (Layer.moveRel (s.g.screen.display mouseLayerId) dx dy)
    refine ⟨_, Option.map_eq_some_iff.mpr ⟨_, hchange, rfl⟩⟩
  obtain ⟨l, hl⟩ := Option.isSome_iff_exists.mp (hshape.layer _ hmouse)
  have hpt : s.pointer = some (l.x, l.y) := Globals.place_of_layer hl
  cases a with
  | createWindow title x y width height => cases ha
  | showWindow id => cases ha
  | updateWindowFrame id words => cases ha
  | relX value =>
    obtain ⟨g', hg⟩ := hmove value 0
    exact ⟨_, Option.map_eq_some_iff.mpr ⟨g', hg, rfl⟩⟩
  | relY value =>
    obtain ⟨g', hg⟩ := hmove 0 value
    exact ⟨_, Option.map_eq_some_iff.mpr ⟨g', hg, rfl⟩⟩
  | syn =>
    obtain ⟨lm, hg, -⟩ := hshape.update hmouse
    exact ⟨_, Option.map_eq_some_iff.mpr ⟨_, hg, rfl⟩⟩
  | press =>
    obtain ⟨g', d', hg, -⟩ := hshape.press l.x l.y
    exact ⟨_, Option.bind_eq_some_iff.mpr ⟨_, hpt, Option.map_eq_some_iff.mpr ⟨g', hg, rfl⟩⟩⟩
  | release =>
    obtain ⟨g', hg, -⟩ := hshape.release l.x l.y
    exact ⟨_, Option.bind_eq_some_iff.mpr ⟨_, hpt, Option.map_eq_some_iff.mpr ⟨g', hg, rfl⟩⟩⟩

end DragRun

/-! ## an event is an action -/

/-- the discriminants of the `enum` -/
def EventType.code : EventType → UInt16
  | .syn => 0
  | .key => 1
  | .rel => 2
  | .abs => 3
  | .msc => 4
  | .sw => 5
  | .led => 17
  | .snd => 18
  | .rep => 20
  | .ff => 21
  | .pwr => 22
  | .ffStatus => 23
  | .max => 31

theorem EventType.ofCode_eq {type : UInt16} {t : EventType} (h : ofCode type = some t) : type = t.code := by
  refine UInt16.toNat_inj.mp ?_
  unfold ofCode at h
  split at h
  case h_14 => cases h
  all_goals
    cases h
    assumption

/-- what an action of `DragRun` does to the layers -/
theorem DragRun.step_g (art : Art) (g : Globals VirtioGpu) (latest : Option LatestPress) {a : DragAction}
    (ha : a.isEvent = true) : (DragRun.step art a ⟨g, latest⟩).map DragRun.g =
      match a with
      | .relX value => g.moveMouse value 0
      | .relY value => g.moveMouse 0 value
      | .syn => g.update mouseLayerId
      | .press => (g.place mouseLayerId).bind fun p => g.onEvent (.mouseLeftPress p.1 p.2) mouseLayerId
      | .release => (g.place mouseLayerId).bind fun p => g.onEvent (.mouseLeftRelease p.1 p.2) mouseLayerId
      | _ => none := by
  have hid : ∀ {o : Option (Globals VirtioGpu)} {f : Globals VirtioGpu → DragRun}, (∀ g, (f g).g = g) →
      (o.map f).map DragRun.g = o := by
    intro o f hf
    rw [Option.map_map]
    exact (congrArg (Option.map · o) (funext hf)).trans (Option.map_id' (x := o))
  cases a with
  | createWindow title x y width height => cases ha
  | showWindow id => cases ha
  | updateWindowFrame id words => cases ha
  | relX value => exact hid fun _ => rfl
  | relY value => exact hid fun _ => rfl
  | syn => exact hid fun _ => rfl
  | press =>
    refine (Option.map_bind ..).trans (congrArg (Option.bind _) (funext fun p => ?_))
    exact hid fun _ => rfl
  | release =>
    refine (Option.map_bind ..).trans (congrArg (Option.bind _) (funext fun p => ?_))
    exact hid fun _ => rfl

theorem action_key (code : UInt16) (value : UInt32) : VirtioInputEvent.action ⟨1, code, value⟩ =
    if code = btnLeft ∧ value = 1 then some .press else if code = btnLeft ∧ value = 0 then some .release else none := by
  simp [VirtioInputEvent.action]

theorem action_rel (code : UInt16) (value : UInt32) : VirtioInputEvent.action ⟨2, code, value⟩ =
    if code = relX then some (.relX value.toInt32) else if code = relY then some (.relY value.toInt32) else none := by
  simp [VirtioInputEvent.action]

/-- `kproc` handles an event of a known type as `DragRun` does -/
theorem handle_eq (art : Art) (ev : VirtioInputEvent) (g : Globals VirtioGpu) (latest : Option LatestPress) :
    handle ev g = (EventType.ofCode ev.type).bind fun _ =>
      match ev.action with
      | some a => (DragRun.step art a ⟨g, latest⟩).map DragRun.g
      | none => some g := by
  have hstep := fun (a : DragAction) (ha : a.isEvent = true) => DragRun.step_g art g latest ha
  obtain ⟨type, code, value⟩ := ev
  unfold handle
  cases ht : EventType.ofCode type with
  | none => rfl
  | some t =>
    obtain rfl := EventType.ofCode_eq ht
    rw [Option.bind_some, Option.bind_some]
    cases t with
    | syn => exact (hstep .syn rfl).symm
    | key =>
      show _ = (match VirtioInputEvent.action ⟨1, code, value⟩ with | some a => _ | none => _)
      rw [action_key]
      dsimp only
      split
      · exact (hstep .press rfl).symm
      split
      · exact (hstep .release rfl).symm
      · rfl
    | rel =>
      show _ = (match VirtioInputEvent.action ⟨2, code, value⟩ with | some a => _ | none => _)
      rw [action_rel]
      dsimp only
      split
      · exact (hstep (.relX value.toInt32) rfl).symm
      split
      · exact (hstep (.relY value.toInt32) rfl).symm
      · rfl
    | _ => rfl

theorem action_isEvent {ev : VirtioInputEvent} {a : DragAction} (h : ev.action = some a) : a.isEvent = true := by
  unfold VirtioInputEvent.action at h
  split at h
  · cases h
    rfl
  split at h
  · cases h
    rfl
  split at h
  · cases h
    rfl
  split at h
  · cases h
    rfl
  split at h
  · cases h
    rfl
  · cases h

/-! ## the driver, with the queue as if nothing were taken out -/

section behind
variable {E : Type} (pre : List E)

def behindDrv (v : VirtioInput E) : VirtioInput E := { v with eventQueue := pre ++ v.eventQueue }

def behind (s : InputRun E) : InputRun E := { s with drv := behindDrv pre s.drv }

theorem pendingLoop_behind : ∀ (fuel : Nat) (v : VirtioInput E),
    VirtioInput.pendingLoop fuel (behindDrv pre v) = (VirtioInput.pendingLoop fuel v).map (behindDrv pre) := by
  intro fuel
  induction fuel with
  | zero => exact fun _ => rfl
  | succ fuel ih =>
    intro v
    unfold VirtioInput.pendingLoop
    by_cases hdone : v.eventAckUsedIndex = v.queue.usedIdx
    · rw [if_pos hdone]
      exact if_pos hdone
    · rw [if_neg hdone]
      refine (if_neg hdone).trans ?_
      rw [← ih]
      exact congrArg (fun queue => VirtioInput.pendingLoop fuel
        { (v.repopulateEvent v.nextElem.id).pushEvent v.nextElem.id with eventQueue := queue })
        (List.append_assoc pre v.eventQueue _)

/-- a step of the device or of `pending` does not look at the queue -/
theorem step_behind (a : InputAction E) (s : InputRun E) :
    InputRun.step a (behind pre s) = (InputRun.step a s).map (behind pre) := by
  cases a with
  | device event =>
    by_cases hdone : s.lastAvail = s.drv.queue.availIdx
    · have hs : InputRun.step (.device event) s = none := if_pos hdone
      rw [hs]
      exact if_pos hdone
    · have hs : InputRun.step (.device event) s = some _ := if_neg hdone
      rw [hs]
      exact if_neg hdone
  | pending =>
    show (VirtioInput.pendingLoop (2^16) (behindDrv pre s.drv)).map _ = ((VirtioInput.pendingLoop (2^16) s.drv).map _).map _
    rw [pendingLoop_behind, Option.map_map, Option.map_map]
    rfl

end behind

/-! ## what holds in every run -/

/-- The driver is in step with the device, if what was taken out is put in front of the queue again; the layers are
those of a run of `DragRun` in which the events are those that were handled. -/
structure Follows (art : Art) (s₀ : DragRun) (s : Kproc) : Prop where
  synced : ∃ n, (behind (s.handled ++ s.hand.toList) s.mouse).Synced n
  drag : ∃ acts latest, run (DragRun.step art) acts s₀ = some ⟨s.g, latest⟩ ∧
    acts.filter DragAction.isEvent = s.handled.filterMap VirtioInputEvent.action

namespace Follows
variable {art : Art} {s₀ : DragRun} {s s' : Kproc}

theorem mouse (hs : Follows art s₀ s) {a : InputAction VirtioInputEvent} {mouse : InputRun VirtioInputEvent}
    (h : InputRun.step a s.mouse = some mouse) : Follows art s₀ { s with mouse } := by
  obtain ⟨n, hn⟩ := hs.synced
  have hstep : InputRun.step a (behind (s.handled ++ s.hand.toList) s.mouse)
      = some (behind (s.handled ++ s.hand.toList) mouse) := by
    rw [step_behind, h]
    rfl
  refine ⟨?_, hs.drag⟩
  cases a with
  | device event => exact ⟨n, hn.device hstep⟩
  | pending =>
    obtain ⟨v, hv, hn'⟩ := hn.pending
    have hpending : InputRun.step .pending (behind (s.handled ++ s.hand.toList) s.mouse) = some _ :=
      Option.map_eq_some_iff.mpr ⟨v, hv, rfl⟩
    have he := Option.some.inj (hstep.symm.trans hpending)
    exact ⟨_, he ▸ hn'⟩

theorem pop (hs : Follows art s₀ s) (h : s.pop = some s') :
    ∃ ev, s.hand = none ∧ s.queue = ev :: s'.queue ∧ s'.hand = some ev ∧ s'.handled = s.handled ∧
      s'.mouse.produced = s.mouse.produced ∧ Follows art s₀ s' := by
  unfold Kproc.pop at h
  split at h
  · rename_i ev queue hhand hqueue
    cases h
    refine ⟨ev, hhand, hqueue, rfl, rfl, rfl, ?_, hs.drag⟩
    obtain ⟨n, hn⟩ := hs.synced
    have hsame : behind (s.handled ++ s.hand.toList) s.mouse = behind (s.handled ++ [ev])
        { s.mouse with drv := { s.mouse.drv with eventQueue := queue } } := by
      have happ : s.handled ++ s.hand.toList ++ s.mouse.drv.eventQueue = s.handled ++ [ev] ++ queue := by
        rw [hhand, show s.mouse.drv.eventQueue = ev :: queue from hqueue]
        simp
      exact congrArg (fun q => ({ s.mouse with drv := { s.mouse.drv with eventQueue := q } } :
        InputRun VirtioInputEvent)) happ
    exact ⟨n, hsame ▸ hn⟩
  · cases h

/-- an action of `DragRun` -/
theorem action (hs : Follows art s₀ s) {a : DragAction} {g : Globals VirtioGpu}
    (h : ∀ latest, (DragRun.step art a ⟨s.g, latest⟩).map DragRun.g = some g) :
    ∃ acts latest, run (DragRun.step art) acts s₀ = some ⟨g, latest⟩ ∧
      acts.filter DragAction.isEvent =
        s.handled.filterMap VirtioInputEvent.action ++ (if a.isEvent then [a] else []) := by
  obtain ⟨acts, latest, hrun, hacts⟩ := hs.drag
  obtain ⟨t, ht, rfl⟩ := Option.map_eq_some_iff.mp (h latest)
  refine ⟨acts ++ [a], t.latest, run_append hrun (Option.bind_eq_some_iff.mpr ⟨t, ht, rfl⟩), ?_⟩
  rw [List.filter_append, hacts, List.filter_cons]
  rfl

theorem handle (hs : Follows art s₀ s) (h : s.handle = some s') :
    ∃ ev, s.hand = some ev ∧ s'.hand = none ∧ s'.handled = s.handled ++ [ev] ∧ s'.mouse = s.mouse ∧
      Follows art s₀ s' := by
  obtain ⟨ev, hhand, h⟩ := Option.bind_eq_some_iff.mp h
  obtain ⟨g, hg, rfl⟩ := Option.map_eq_some_iff.mp h
  refine ⟨ev, hhand, rfl, rfl, rfl, ?_, ?_⟩
  · obtain ⟨n, hn⟩ := hs.synced
    rw [hhand] at hn
    show ∃ n, (behind (s.handled ++ [ev] ++ []) s.mouse).Synced n
    rw [List.append_nil]
    exact ⟨n, hn⟩
  · show ∃ acts latest, _ ∧ _ = (s.handled ++ [ev]).filterMap VirtioInputEvent.action
    rw [List.filterMap_append]
    have hstep := fun latest => (handle_eq art ev s.g latest).symm.trans hg
    cases ha : ev.action with
    | none =>
      obtain ⟨type, -, hsame⟩ := Option.bind_eq_some_iff.mp (hstep none)
      rw [ha] at hsame
      cases hsame
      have hnone : [ev].filterMap VirtioInputEvent.action = [] := by
        rw [List.filterMap_cons, ha]
        rfl
      rw [hnone, List.append_nil]
      exact hs.drag
    | some a =>
      have hone : [ev].filterMap VirtioInputEvent.action = [a] := by
        rw [List.filterMap_cons, ha]
        rfl
      have h₁ := hs.action (a := a) (g := g) fun latest => by
        obtain ⟨type, -, h⟩ := Option.bind_eq_some_iff.mp (hstep latest)
        rw [ha] at h
        exact h
      rw [if_pos (action_isEvent ha)] at h₁
      rw [hone]
      exact h₁

/-- another process calls the window manager -/
theorem call (hs : Follows art s₀ s) {a : DragAction} (ha : a.isEvent = false) {g : Globals VirtioGpu}
    (h : ∀ latest, (DragRun.step art a ⟨s.g, latest⟩).map DragRun.g = some g) : Follows art s₀ { s with g } := by
  obtain ⟨acts, latest, hrun, hacts⟩ := hs.action h
  rw [ha, if_neg Bool.false_ne_true, List.append_nil] at hacts
  exact ⟨hs.synced, acts, latest, hrun, hacts⟩

theorem step (hs : Follows art s₀ s) {a : KprocAction} (h : Kproc.step art a s = some s') : Follows art s₀ s' := by
  cases a with
  | device ev =>
    obtain ⟨mouse, hm, rfl⟩ := Option.map_eq_some_iff.mp h
    exact hs.mouse hm
  | pending =>
    obtain ⟨mouse, hm, rfl⟩ := Option.map_eq_some_iff.mp h
    exact hs.mouse hm
  | pop =>
    obtain ⟨-, -, -, -, -, -, hs'⟩ := hs.pop h
    exact hs'
  | handle =>
    obtain ⟨-, -, -, -, -, hs'⟩ := hs.handle h
    exact hs'
  | createWindow title x y width height =>
    cases h
    exact hs.call (a := .createWindow title x y width height) rfl fun _ => rfl
  | showWindow id =>
    obtain ⟨g, hg, rfl⟩ := Option.map_eq_some_iff.mp h
    refine hs.call (a := .showWindow id) rfl fun latest => ?_
    show ((s.g.showWindow art id).map _).map _ = _
    rw [hg]
    rfl
  | updateWindowFrame id words =>
    obtain ⟨g, hg, rfl⟩ := Option.map_eq_some_iff.mp h
    refine hs.call (a := .updateWindowFrame id words) rfl fun latest => ?_
    show ((s.g.updateWindowFrame id words).map _).map _ = _
    rw [hg]
    rfl

/-- what was produced is handled, in hand, in the queue or with the device, in this order -/
theorem prefix_produced (hs : Follows art s₀ s) : s.handled ++ s.hand.toList ++ s.queue <+: s.mouse.produced := by
  obtain ⟨n, hn⟩ := hs.synced
  have hq : s.handled ++ s.hand.toList ++ s.queue = s.mouse.produced.take n := hn.pushed
  rw [hq]
  exact List.take_prefix n _

end Follows

/-! ## runs -/

namespace Kproc
variable {art : Art} {s₀ : DragRun} {s s' : Kproc} {w h : Nat}

/-- where events take the pointer is where it is -/
theorem pointer_eq (hw : w < 2^31) (hh : h < 2^31) (h₀ : (∃ d, s₀.g.Shape d) ∧ Held w h s₀)
    (hp : s₀.pointer = some (0, 0)) (hs : Follows art s₀ s) : s.pointer = some (path w h s.handled) := by
  obtain ⟨acts, latest, hrun, hacts⟩ := hs.drag
  have hpt := DragRun.run_pointer hw hh acts h₀ hp hrun
  rw [hacts] at hpt
  exact hpt

/-- `kproc` panics at an event of an unknown type, and at no other -/
theorem handle_isSome (h₀ : (∃ d, s₀.g.Shape d) ∧ Held w h s₀) (hs : Follows art s₀ s) {ev : VirtioInputEvent}
    (hhand : s.hand = some ev) : (step art .handle s).isSome ↔ (EventType.ofCode ev.type).isSome := by
  obtain ⟨acts, latest, hrun, -⟩ := hs.drag
  obtain ⟨⟨d, hshape⟩, -⟩ := Trace.invariant (fun _ _ => True) (fun s => (∃ d, s.g.Shape d) ∧ Held w h s)
    (fun _ _ _ hs _ h => DragRun.step_held hs h) acts h₀ (throughout_of_forall acts (fun _ _ _ => trivial) _) hrun
  show (s.hand.bind fun ev => (Graphics.handle ev s.g).map _).isSome ↔ _
  rw [hhand, Option.bind_some, Option.isSome_map, handle_eq art ev s.g latest]
  cases EventType.ofCode ev.type with
  | none => rfl
  | some type =>
    rw [Option.bind_some]
    refine ⟨fun _ => rfl, fun _ => ?_⟩
    cases ha : ev.action with
    | none => rfl
    | some a =>
      obtain ⟨t, ht⟩ : ∃ t, DragRun.step art a ⟨s.g, latest⟩ = some t := DragRun.step_event hshape (action_isEvent ha)
      show ((DragRun.step art a ⟨s.g, latest⟩).map DragRun.g).isSome
      rw [ht]
      rfl

theorem pop_eq {ev : VirtioInputEvent} {queue : List VirtioInputEvent} (hhand : s.hand = none)
    (hqueue : s.queue = ev :: queue) : s.pop = some { s with
      hand := some ev
      mouse := { s.mouse with drv := { s.mouse.drv with eventQueue := queue } } } := by
  unfold Kproc.pop
  rw [hhand, hqueue]

/-- steps of `kproc` and of `pending` -/
def ofKernel : KprocAction → Bool
  | .pending | .pop | .handle => true
  | _ => false

/-- `kproc` empties the queue -/
theorem drain (h₀ : (∃ d, s₀.g.Shape d) ∧ Held w h s₀) : ∀ (queue : List VirtioInputEvent) {s : Kproc}, Follows art s₀ s →
    s.queue = queue → (∀ ev ∈ s.hand.toList ++ queue, (EventType.ofCode ev.type).isSome) →
    ∃ l s', (∀ a ∈ l, ofKernel a = true) ∧ run (step art) l s = some s' ∧ s'.mouse.produced = s.mouse.produced ∧
      s'.handled = s.handled ++ s.hand.toList ++ queue := by
  -- the event in hand
  have hhandle : ∀ {s : Kproc}, Follows art s₀ s → (∀ ev ∈ s.hand.toList, (EventType.ofCode ev.type).isSome) →
      ∃ l s', (∀ a ∈ l, ofKernel a = true) ∧ run (step art) l s = some s' ∧ s'.mouse = s.mouse ∧ s'.hand = none ∧
        s'.handled = s.handled ++ s.hand.toList ∧ Follows art s₀ s' := by
    intro s hs hknown
    cases hhand : s.hand with
    | none => exact ⟨[], s, by simp, rfl, rfl, hhand, by simp, hs⟩
    | some ev =>
      obtain ⟨s', hs'⟩ := Option.isSome_iff_exists.mp ((handle_isSome h₀ hs hhand).mpr (hknown ev (by simp [hhand])))
      obtain ⟨ev', hhand', hnone, hhandled, hmouse, hf⟩ := hs.handle hs'
      cases hhand.symm.trans hhand'
      refine ⟨[.handle], s', ?_, Option.bind_eq_some_iff.mpr ⟨s', hs', rfl⟩, hmouse, hnone, hhandled, hf⟩
      intro a ha
      rw [List.mem_singleton.mp ha]
      rfl
  intro queue
  induction queue with
  | nil =>
    intro s hs _ hknown
    obtain ⟨l, s', hl, hrun, hmouse, -, hhandled, -⟩ := hhandle hs fun ev hev => hknown ev (List.mem_append_left _ hev)
    exact ⟨l, s', hl, hrun, by rw [hmouse], by rw [hhandled, List.append_nil]⟩
  | cons ev queue ih =>
    intro s hs hqueue hknown
    obtain ⟨l, s₁, hl, hrun, hmouse, hnone, hhandled, hs₁⟩ :=
      hhandle hs fun ev hev => hknown ev (List.mem_append_left _ hev)
    have hqueue₁ : s₁.queue = ev :: queue := by
      unfold Kproc.queue at hqueue ⊢
      rw [hmouse]
      exact hqueue
    have hpop := pop_eq hnone hqueue₁
    obtain ⟨ev', -, -, -, -, -, hs₂⟩ := hs₁.pop hpop
    obtain ⟨l', s', hl', hrun', hmouse', hhandled'⟩ := ih hs₂ rfl fun e he => hknown e (List.mem_append_right _ he)
    refine ⟨l ++ .pop :: l', s', ?_, run_append hrun (Option.bind_eq_some_iff.mpr ⟨_, hpop, hrun'⟩), ?_, ?_⟩
    · intro a ha
      rcases List.mem_append.mp ha with ha | ha
      · exact hl a ha
      rcases List.mem_cons.mp ha with rfl | ha
      · rfl
      · exact hl' a ha
    · rw [hmouse']
      show s₁.mouse.produced = _
      rw [hmouse]
    · rw [hhandled']
      show s₁.handled ++ [ev] ++ queue = _
      rw [hhandled, List.append_assoc, List.singleton_append]

/-- after `pending` everything that was produced is in the queue or was taken out of it -/
theorem pending_all (hs : Follows art s₀ s) : ∃ s', step art .pending s = some s' ∧ s'.handled = s.handled ∧
    s'.hand = s.hand ∧ s'.mouse.produced = s.mouse.produced ∧
    s'.handled ++ s'.hand.toList ++ s'.queue = s.mouse.produced := by
  obtain ⟨n, hn⟩ := hs.synced
  obtain ⟨v, hv, hn'⟩ := hn.pending
  have hpending : InputRun.step .pending (behind (s.handled ++ s.hand.toList) s.mouse) = some _ :=
    Option.map_eq_some_iff.mpr ⟨v, hv, rfl⟩
  rw [step_behind] at hpending
  obtain ⟨mouse, hm, hb⟩ := Option.map_eq_some_iff.mp hpending
  refine ⟨{ s with mouse }, Option.map_eq_some_iff.mpr ⟨mouse, hm, rfl⟩, rfl, rfl, ?_, ?_⟩
  · have hp : mouse.produced = s.mouse.produced := congrArg (fun m => m.produced) hb
    exact hp
  · have hq : s.handled ++ s.hand.toList ++ mouse.drv.eventQueue = v.eventQueue :=
      congrArg (fun m => m.drv.eventQueue) hb
    exact hq.trans (hn'.pushed.trans List.take_length)

end Kproc

/-- **The pointer follows the mouse.**  In every run of the mouse's device, `pending`, `kproc` and calls of the window
manager, the events are handled in the order in which the device wrote them, none twice and none left out; the pointer is
where those that were handled take it, each move cut off at the edges of the display; `kproc` panics at an event of an
unknown type only; and without such events, `pending` and `kproc` alone take the pointer to where all events take it. -/
theorem pointer_follows (art : Art) (display : VirtioGpu) (eventBuffer : Nat) (hw : display.width < 2^31)
    (hh : display.height < 2^31) : ∃ s₀, Kproc.init art display eventBuffer = some s₀ ∧
    ∀ actions s, run (Kproc.step art) actions s₀ = some s →
      s.handled ++ s.hand.toList ++ s.queue <+: s.mouse.produced ∧
      s.pointer = some (path display.width display.height s.handled) ∧
      (∀ ev, s.hand = some ev → ((Kproc.step art .handle s).isSome ↔ (EventType.ofCode ev.type).isSome)) ∧
      ((∀ ev ∈ s.mouse.produced, (EventType.ofCode ev.type).isSome) → ∃ actions' s',
        (∀ a ∈ actions', Kproc.ofKernel a = true) ∧ run (Kproc.step art) actions' s = some s' ∧
        s'.mouse.produced = s.mouse.produced ∧ s'.handled = s.mouse.produced ∧
        s'.pointer = some (path display.width display.height s.mouse.produced)) := by
  obtain ⟨g₀, d₀, hinit, hshape, -⟩ := Globals.init_shape art display
  have hrun : DragRun.init art display = some ⟨g₀, none⟩ := by
    unfold DragRun.init
    rw [hinit]
    rfl
  have h₀ : (∃ d, g₀.Shape d) ∧ Held display.width display.height ⟨g₀, none⟩ :=
    ⟨⟨d₀, hshape⟩, DragRun.init_held hrun⟩
  have hp₀ : DragRun.pointer ⟨g₀, none⟩ = some (0, 0) := DragRun.init_pointer hrun
  refine ⟨⟨InputRun.init eventBuffer ⟨0, 0, 0⟩, none, [], g₀⟩, Option.map_eq_some_iff.mpr ⟨g₀, hinit, rfl⟩,
    fun actions s hs => ?_⟩
  have hbehind : ∀ m : InputRun VirtioInputEvent, behind ([] ++ (none : Option VirtioInputEvent).toList) m = m :=
    fun _ => rfl
  have hf₀ : Follows art ⟨g₀, none⟩ ⟨InputRun.init eventBuffer ⟨0, 0, 0⟩, none, [], g₀⟩ := by
    refine ⟨⟨0, ?_⟩, [], none, rfl, rfl⟩
    rw [hbehind]
    exact InputRun.synced_init eventBuffer _
  have hf := Trace.invariant (fun _ _ => True) (Follows art ⟨g₀, none⟩) (fun _ _ _ hs _ h => hs.step h) actions hf₀
    (throughout_of_forall actions (fun _ _ _ => trivial) _) hs
  refine ⟨hf.prefix_produced, Kproc.pointer_eq hw hh h₀ hp₀ hf, fun ev => Kproc.handle_isSome h₀ hf, fun hknown => ?_⟩
  obtain ⟨s₁, hs₁, hhandled, hhand, hproduced, hall⟩ := Kproc.pending_all hf
  have hf₁ := hf.step hs₁
  obtain ⟨l, s', hl, hrun', hproduced', hhandled'⟩ := Kproc.drain h₀ s₁.queue hf₁ rfl fun ev hev =>
    hknown ev (hall ▸ List.append_assoc .. ▸ List.mem_append_right _ hev)
  have hf' := Trace.invariant (fun _ _ => True) (Follows art ⟨g₀, none⟩) (fun _ _ _ hs _ h => hs.step h) l hf₁
    (throughout_of_forall l (fun _ _ _ => trivial) _) hrun'
  rw [hall] at hhandled'
  refine ⟨.pending :: l, s', ?_, Option.bind_eq_some_iff.mpr ⟨s₁, hs₁, hrun'⟩, hproduced'.trans hproduced, hhandled', ?_⟩
  · intro a ha
    rcases List.mem_cons.mp ha with rfl | ha
    · rfl
    · exact hl a ha
  · rw [Kproc.pointer_eq hw hh h₀ hp₀ hf', hhandled']

/-- three moves, of which the second goes over the edge -/
def threeMoves : List KprocAction :=
  [.device ⟨2, 0, 3⟩, .device ⟨2, 0, 3⟩, .pending, .pop, .handle, .device ⟨2, 1, 2⟩, .pop, .handle]

theorem pointer_follows_moves : ∃ s₀, Kproc.init Globals.plain Globals.small 4096 = some s₀ ∧
    ∃ s, run (Kproc.step Globals.plain) threeMoves s₀ = some s ∧ s.pointer = some (4, 0) ∧
      ∃ actions s', run (Kproc.step Globals.plain) actions s = some s' ∧ s'.pointer = some (4, 2) := by
  obtain ⟨s₀, h₀, h⟩ := pointer_follows Globals.plain Globals.small 4096 (by decide) (by decide)
  have hrun : (Kproc.init Globals.plain Globals.small 4096).any (fun s₀ =>
      (run (Kproc.step Globals.plain) threeMoves s₀).any fun s =>
        s.handled = [⟨2, 0, 3⟩, ⟨2, 0, 3⟩] ∧ s.mouse.produced = [⟨2, 0, 3⟩, ⟨2, 0, 3⟩, ⟨2, 1, 2⟩]) = true := by
    decide +kernel
  obtain ⟨s₀', h₀', hrun⟩ := (Option.any_eq_true _ _).mp hrun
  cases h₀.symm.trans h₀'
  obtain ⟨s, hs, hrun⟩ := (Option.any_eq_true _ _).mp hrun
  obtain ⟨hhandled, hproduced⟩ := of_decide_eq_true hrun
  obtain ⟨-, hpt, -, hall⟩ := h threeMoves s hs
  obtain ⟨actions, s', -, hrun', -, -, hpt'⟩ := hall (by rw [hproduced]; decide)
  rw [hhandled] at hpt
  rw [hproduced] at hpt'
  exact ⟨s₀, h₀, s, hs, hpt, actions, s', hrun', hpt'⟩

end Citron.Graphics
