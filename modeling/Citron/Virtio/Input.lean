import Citron.Virtio.Queue
import Citron.Lib.Trace

/-!
# The input driver

`src/arch/riscv64/virtio/virtio_input.rs`: the event queue of a mouse or a keyboard.  An event is any value;
`memory` holds the events by address, and the event buffers stand at `eventBuffer`.  Nothing is taken out of
`eventQueue` here, so it is everything that was ever pushed.

* `repopulateEvent`, `pending`   the driver;
* `step`                         a device that uses the available descriptors in order, and whole calls of
                                 `pending`;
* `Synced`                       the windows of the two rings, and the buffers in them;
* `events_in_order`              every event is delivered once, in order.
-/

namespace Citron.Virtio
open Trace

variable {E : Type}

/-- `size_of::<VirtioInputEvent>()` -/
def eventSize : Nat := 8

def eventBufferSize : Nat := virtioRingSize

structure VirtioInput (E : Type) where
  queue : Virtqueue
  eventBuffer : Nat
  memory : Nat → E
  eventAckUsedIndex : Nat
  eventIndex : Nat
  eventQueue : List E

namespace VirtioInput

/-- `new` and `init`; the buffers are zeroed -/
def new (eventBuffer : Nat) (zero : E) : VirtioInput E := ⟨.new, eventBuffer, fun _ => zero, 0, 0, []⟩

/-- the address of event buffer `i` -/
def bufferAddr (v : VirtioInput E) (i : Nat) : Nat := v.eventBuffer + eventSize * i

def eventDesc (v : VirtioInput E) (i : Nat) : VirtqDesc := ⟨v.bufferAddr i, eventSize, virtqDescFWrite, 0⟩

/-- `write_desc` of the next descriptor, for event buffer `i` -/
def writeEvent (v : VirtioInput E) (i : Nat) : VirtioInput E :=
  { v with queue := v.queue.writeDesc v.eventIndex (v.eventDesc i), eventIndex := (v.eventIndex + 1) % virtioRingSize }

/-- `send_desc` -/
def sendDesc (v : VirtioInput E) (head : Nat) : VirtioInput E := { v with queue := v.queue.makeAvail head }

def repopulateEvent (v : VirtioInput E) (i : Nat) : VirtioInput E := (v.writeEvent i).sendDesc v.eventIndex

def initInputEvent (v : VirtioInput E) : VirtioInput E :=
  (List.range (eventBufferSize / 2)).foldl repopulateEvent v

/-- the element that is handled next -/
def nextElem (v : VirtioInput E) : VirtqUsedElem := v.queue.usedRing (v.eventAckUsedIndex % virtioRingSize)

/-- the event of descriptor `id` is acknowledged and pushed -/
def pushEvent (v : VirtioInput E) (id : Nat) : VirtioInput E :=
  { v with
    eventAckUsedIndex := u16 (v.eventAckUsedIndex + 1)
    eventQueue := v.eventQueue ++ [v.memory (v.queue.desc id).addr] }

def pendingLoop : Nat → VirtioInput E → Option (VirtioInput E)
  | 0, _ => none
  | fuel + 1, v =>
    if v.eventAckUsedIndex = v.queue.usedIdx then some v
    else pendingLoop fuel ((v.repopulateEvent v.nextElem.id).pushEvent v.nextElem.id)

/-- `pending`, as far as the driver goes; the indexes come to each other within `2^16` rounds -/
def pending (v : VirtioInput E) : Option (VirtioInput E) := pendingLoop (2^16) v

/-- the device writes an event through descriptor `head` and returns it -/
def deviceUse (v : VirtioInput E) (head : Nat) (event : E) : VirtioInput E :=
  { v with
    memory := Function.update v.memory (v.queue.desc head).addr event
    queue := v.queue.putUsed ⟨head, eventSize⟩ }

end VirtioInput

/-! ## a device that works in order -/

/-- the driver, the device's place in the available ring, and the events it produced -/
structure InputRun (E : Type) where
  drv : VirtioInput E
  lastAvail : Nat
  produced : List E

inductive InputAction (E : Type) where
  | device (event : E)
  | pending

namespace InputRun

def init (eventBuffer : Nat) (zero : E) : InputRun E :=
  ⟨(VirtioInput.new eventBuffer zero).initInputEvent, 0, []⟩

/-- the device has nothing to do when it has used all that is available -/
def step : InputAction E → InputRun E → Option (InputRun E)
  | .device event, s =>
    if s.lastAvail = s.drv.queue.availIdx then none
    else
      let head := s.drv.queue.availRing (s.lastAvail % virtioRingSize)
      some ⟨s.drv.deviceUse head event, u16 (s.lastAvail + 1), s.produced ++ [event]⟩
  | .pending, s => s.drv.pending.map fun v => { s with drv := v }

/-- the buffer that goes with the `k`-th available descriptor: after the first 64 the buffers trail the
descriptors by 64 -/
def buf (k : Nat) : Nat := if k < 64 then k else (k - 64) % virtioRingSize

/-- the buffers of a window of 64 are distinct -/
theorem buf_inj {p k l : Nat} (hk : p ≤ k) (hk' : k < p + 64) (hl : p ≤ l) (hl' : l < p + 64)
    (h : buf k = buf l) : k = l := by
  unfold buf virtioRingSize at h
  split at h <;> split at h <;> omega

/-- `n` descriptors handled: 64 from there on are available, and those up to the events produced are
returned -/
structure Synced (s : InputRun E) (n : Nat) : Prop where
  le : n ≤ s.produced.length
  window : s.produced.length ≤ n + 64
  availIdx : s.drv.queue.availIdx = u16 (n + 64)
  usedIdx : s.drv.queue.usedIdx = u16 s.produced.length
  ack : s.drv.eventAckUsedIndex = u16 n
  last : s.lastAvail = u16 s.produced.length
  eventIndex : s.drv.eventIndex = (n + 64) % virtioRingSize
  avail : Ring.Holds virtioRingSize s.drv.queue.availRing ((List.range (n + 64)).map (· % virtioRingSize))
  used : Ring.Holds virtioRingSize s.drv.queue.usedRing
    ((List.range s.produced.length).map fun k => ⟨k % virtioRingSize, eventSize⟩)
  desc : ∀ k, n ≤ k → k < n + 64 → s.drv.queue.desc (k % virtioRingSize) = s.drv.eventDesc (buf k)
  memory : ∀ k e, n ≤ k → s.produced[k]? = some e → s.drv.memory (s.drv.bufferAddr (buf k)) = e
  pushed : s.drv.eventQueue = s.produced.take n

variable {s s' : InputRun E} {n : Nat}

/-- the device uses the next descriptor: its buffer is that of no event that waits -/
theorem Synced.device (hs : s.Synced n) {event : E} (h : step (.device event) s = some s') : s'.Synced n := by
  simp only [step] at h
  split at h
  · cases h
  · rename_i hne
    cases h
    have hlt : s.produced.length < n + 64 := by
      refine lt_of_le_of_ne hs.window fun e => hne ?_
      rw [hs.last, hs.availIdx, e]
    have hhead : s.drv.queue.availRing (s.lastAvail % virtioRingSize) = s.produced.length % virtioRingSize := by
      rw [hs.last, u16_slot]
      exact hs.avail.get hlt (by unfold virtioRingSize; have := hs.le; omega)
    have hdesc := hs.desc _ hs.le hlt
    have hlen : (s.produced ++ [event]).length = s.produced.length + 1 := by simp
    rw [hhead]
    refine ⟨by rw [hlen]; exact hs.le.trans (Nat.le_succ _), by rw [hlen]; omega, hs.availIdx, ?_, hs.ack, ?_,
      hs.eventIndex, hs.avail, ?_, hs.desc, ?_, ?_⟩
    · show u16 (s.drv.queue.usedIdx + 1) = _
      rw [hs.usedIdx, u16_add_one, hlen]
    · show u16 (s.lastAvail + 1) = _
      rw [hs.last, u16_add_one, hlen]
    · show Ring.Holds virtioRingSize (Function.update s.drv.queue.usedRing
        (s.drv.queue.usedIdx % virtioRingSize) ⟨s.produced.length % virtioRingSize, eventSize⟩) _
      rw [hs.usedIdx, u16_slot, hlen]
      exact hs.used.push_range
    · intro k e hk he
      show Function.update s.drv.memory (s.drv.queue.desc _).addr event (s.drv.bufferAddr (buf k)) = e
      rw [hdesc]
      show Function.update s.drv.memory (s.drv.bufferAddr (buf s.produced.length)) event _ = e
      by_cases hlast : k < s.produced.length
      · rw [List.getElem?_append_left hlast] at he
        rw [Function.update_of_ne, hs.memory k e hk he]
        intro heq
        have hbuf : buf k = buf s.produced.length := by
          unfold VirtioInput.bufferAddr eventSize at heq
          omega
        have := buf_inj hk (by omega) hs.le hlt hbuf
        omega
      · have hk' : k < (s.produced ++ [event]).length := (List.getElem?_eq_some_iff.mp he).1
        obtain rfl : k = s.produced.length := by omega
        rw [List.getElem?_concat_length] at he
        rw [Function.update_self]
        exact Option.some.inj he
    · show s.drv.eventQueue = _
      rw [hs.pushed, List.take_append_of_le_length hs.le]

/-- one round of `pending` -/
theorem Synced.round (hs : s.Synced n) (hlt : n < s.produced.length) :
    ({ s with drv := (s.drv.repopulateEvent s.drv.nextElem.id).pushEvent s.drv.nextElem.id } :
      InputRun E).Synced (n + 1) := by
  have hw := hs.window
  have hid : s.drv.nextElem.id = n % virtioRingSize := by
    unfold VirtioInput.nextElem
    rw [hs.ack, u16_slot, hs.used.get hlt (by unfold virtioRingSize; omega)]
  -- the descriptor that is rewritten is not the one that is read
  have hne : n % virtioRingSize ≠ (n + 64) % virtioRingSize :=
    Ring.mod_ne (by omega) (by unfold virtioRingSize; omega)
  have hread : ((s.drv.repopulateEvent s.drv.nextElem.id).queue.desc (n % virtioRingSize))
      = s.drv.eventDesc (buf n) := by
    show Function.update s.drv.queue.desc s.drv.eventIndex _ (n % virtioRingSize) = _
    rw [hs.eventIndex, Function.update_of_ne hne]
    exact hs.desc n le_rfl (by omega)
  obtain ⟨e, he⟩ : ∃ e, s.produced[n]? = some e := ⟨_, List.getElem?_eq_getElem hlt⟩
  refine ⟨hlt, by show s.produced.length ≤ n + 1 + 64; omega, ?_, hs.usedIdx, ?_, hs.last, ?_, ?_, hs.used, ?_, ?_, ?_⟩
  · show u16 (s.drv.queue.availIdx + 1) = _
    rw [hs.availIdx, u16_add_one, Nat.add_right_comm]
  · show u16 (s.drv.eventAckUsedIndex + 1) = _
    rw [hs.ack, u16_add_one]
  · show (s.drv.eventIndex + 1) % virtioRingSize = _
    rw [hs.eventIndex, Nat.mod_add_mod, Nat.add_right_comm]
  · show Ring.Holds virtioRingSize (Function.update s.drv.queue.availRing
      (s.drv.queue.availIdx % virtioRingSize) s.drv.eventIndex) _
    rw [hs.availIdx, u16_slot, hs.eventIndex, Nat.add_right_comm n 1 64]
    exact hs.avail.push_range
  · intro k hk hk'
    show Function.update s.drv.queue.desc s.drv.eventIndex (s.drv.eventDesc s.drv.nextElem.id)
      (k % virtioRingSize) = s.drv.eventDesc (buf k)
    rw [hs.eventIndex]
    by_cases hlast : k < n + 64
    · rw [Function.update_of_ne (Ring.mod_ne hlast (by unfold virtioRingSize; omega))]
      exact hs.desc k (by omega) hlast
    · obtain rfl : k = n + 64 := by omega
      have hbuf : buf (n + 64) = n % virtioRingSize := by
        unfold buf
        rw [if_neg (by omega), Nat.add_sub_cancel]
      rw [Function.update_self, hid, hbuf]
  · intro k e hk he
    exact hs.memory k e (by omega) he
  · show s.drv.eventQueue ++ [s.drv.memory ((s.drv.repopulateEvent s.drv.nextElem.id).queue.desc
      s.drv.nextElem.id).addr] = s.produced.take (n + 1)
    rw [List.take_add_one, he, hs.pushed, hid] 
    rw [hid] at hread
    rw [hread]
    show _ ++ [s.drv.memory (s.drv.bufferAddr (buf n))] = _
    rw [hs.memory n e le_rfl he]
    rfl

/-- the loop of `pending` catches up with the device -/
theorem Synced.loop (k : Nat) : ∀ {fuel n : Nat} {s : InputRun E}, s.Synced n → s.produced.length = n + k → k < fuel →
    ∃ v, VirtioInput.pendingLoop fuel s.drv = some v ∧ ({ s with drv := v } : InputRun E).Synced s.produced.length := by
  induction k with
  | zero =>
    intro fuel n s hs hk hfuel
    obtain ⟨fuel, rfl⟩ : ∃ m, fuel = m + 1 := ⟨fuel - 1, by omega⟩
    rw [Nat.add_zero] at hk
    refine ⟨s.drv, ?_, hk ▸ hs⟩
    rw [VirtioInput.pendingLoop, if_pos (by rw [hs.ack, hs.usedIdx, hk])]
  | succ k ih =>
    intro fuel n s hs hk hfuel
    obtain ⟨fuel, rfl⟩ : ∃ m, fuel = m + 1 := ⟨fuel - 1, by omega⟩
    have hw := hs.window
    have hne : s.drv.eventAckUsedIndex ≠ s.drv.queue.usedIdx := by
      rw [hs.ack, hs.usedIdx]
      unfold u16
      omega
    rw [VirtioInput.pendingLoop, if_neg hne]
    exact ih (hs.round (by omega)) (by show s.produced.length = _; omega) (by omega)

theorem Synced.pending (hs : s.Synced n) :
    ∃ v, s.drv.pending = some v ∧ ({ s with drv := v } : InputRun E).Synced s.produced.length := by
  have hw := hs.window
  have hl := hs.le
  exact hs.loop (s.produced.length - n) (by omega) (by omega)

/-! ## the first 64 descriptors -/

/-- the driver after `m` rounds of `init_input_event` -/
structure Populated (v₀ v : VirtioInput E) (m : Nat) : Prop where
  availIdx : v.queue.availIdx = u16 m
  eventIndex : v.eventIndex = m
  avail : Ring.Holds virtioRingSize v.queue.availRing ((List.range m).map (· % virtioRingSize))
  desc : ∀ k < m, v.queue.desc k = v₀.eventDesc k
  rest : v.queue.usedIdx = 0 ∧ v.eventAckUsedIndex = 0 ∧ v.eventQueue = [] ∧ v.eventBuffer = v₀.eventBuffer

theorem Populated.repopulate {v₀ v : VirtioInput E} {m : Nat} (h : Populated v₀ v m) (hm : m < 64) :
    Populated v₀ (v.repopulateEvent m) (m + 1) := by
  have hslot : m % virtioRingSize = m := Nat.mod_eq_of_lt (by unfold virtioRingSize; omega)
  refine ⟨?_, ?_, ?_, fun k hk => ?_, h.rest⟩
  · show u16 (v.queue.availIdx + 1) = _
    rw [h.availIdx, u16_add_one]
  · show (v.eventIndex + 1) % virtioRingSize = _
    rw [h.eventIndex]
    exact Nat.mod_eq_of_lt (by unfold virtioRingSize; omega)
  · show Ring.Holds virtioRingSize (Function.update v.queue.availRing (v.queue.availIdx % virtioRingSize)
      v.eventIndex) _
    rw [h.availIdx, u16_slot, h.eventIndex]
    nth_rewrite 2 [← hslot]
    exact h.avail.push_range
  · have haddr : v.eventDesc m = v₀.eventDesc m := by
      unfold VirtioInput.eventDesc VirtioInput.bufferAddr
      rw [h.rest.2.2.2]
    show Function.update v.queue.desc v.eventIndex (v.eventDesc m) k = _
    rw [h.eventIndex, haddr]
    by_cases hkm : k = m
    · rw [hkm, Function.update_self]
    · rw [Function.update_of_ne hkm]
      exact h.desc k (by omega)

theorem populated_init (v₀ : VirtioInput E) (h : Populated v₀ v₀ 0) : ∀ m ≤ 64,
    Populated v₀ ((List.range m).foldl VirtioInput.repopulateEvent v₀) m := by
  intro m
  induction m with
  | zero => exact fun _ => h
  | succ m ih =>
    intro hm
    rw [List.range_succ, List.foldl_append]
    exact (ih (by omega)).repopulate (by omega)

theorem populated_new (eventBuffer : Nat) (zero : E) :
    Populated (VirtioInput.new eventBuffer zero) (VirtioInput.new eventBuffer zero).initInputEvent 64 := by
  refine populated_init _ ?_ 64 le_rfl
  exact ⟨rfl, rfl, by intro k a hk; simp at hk, by simp, rfl, rfl, rfl, rfl⟩

theorem synced_init (eventBuffer : Nat) (zero : E) : (init eventBuffer zero).Synced 0 := by
  have h := populated_new eventBuffer zero
  refine ⟨le_rfl, by simp [init], h.availIdx, h.rest.1, h.rest.2.1, rfl, h.eventIndex, h.avail, ?_, ?_, ?_,
    h.rest.2.2.1⟩
  · intro k a hk
    simp [init] at hk
  · intro k _ hk
    have hslot : k % virtioRingSize = k := Nat.mod_eq_of_lt (by unfold virtioRingSize; omega)
    have hbuf : buf k = k := if_pos (by omega)
    rw [hslot, hbuf]
    refine (h.desc k (by omega)).trans ?_
    unfold VirtioInput.eventDesc VirtioInput.bufferAddr
    rw [← h.rest.2.2.2]
    rfl
  · intro k e _ he
    simp [init] at he

theorem synced_run {eventBuffer : Nat} {zero : E} {actions : List (InputAction E)}
    (h : run step actions (init eventBuffer zero) = some s) : ∃ n, s.Synced n := by
  refine invariant (fun _ _ => True) (fun s => ∃ n, s.Synced n) ?_ actions
    ⟨0, synced_init eventBuffer zero⟩ (throughout_of_forall actions (fun _ _ _ => trivial) _) h
  intro s a s' ⟨n, hs⟩ _ h
  cases a with
  | device event => exact ⟨n, hs.device h⟩
  | pending =>
    obtain ⟨v, hv, hs'⟩ := hs.pending
    simp only [step, hv, Option.map_some, Option.some.injEq] at h
    exact ⟨_, h ▸ hs'⟩

/-- **Events are delivered exactly once and in order.**  In every run what was pushed is a prefix of what
the device produced, and all of it after a `pending`, which returns; 64 descriptors are with the device or
wait to be handled, each with a buffer of its own, and the events that wait stand in their buffers. -/
theorem events_in_order (eventBuffer : Nat) (zero : E) (actions : List (InputAction E)) (s : InputRun E)
    (h : run step actions (init eventBuffer zero) = some s) :
    s.drv.eventQueue <+: s.produced ∧
    (∃ s', step .pending s = some s' ∧ s'.produced = s.produced ∧ s'.drv.eventQueue = s.produced) ∧
    u16 (s.drv.queue.availIdx + (2^16 - s.drv.eventAckUsedIndex)) = 64 ∧
    ∃ heads buffers : Nat → Nat,
      (∀ j < 64, ∀ k < 64, j ≠ k → heads j ≠ heads k ∧ buffers j ≠ buffers k) ∧
      (∀ j < 64, s.drv.queue.availRing ((s.drv.eventAckUsedIndex + j) % virtioRingSize) = heads j ∧
        s.drv.queue.desc (heads j) = s.drv.eventDesc (buffers j)) ∧
      ∀ j e, s.produced[s.drv.eventQueue.length + j]? = some e →
        s.drv.memory (s.drv.bufferAddr (buffers j)) = e := by
  obtain ⟨n, hs⟩ := synced_run h
  have hle := hs.le
  have hpushed : s.drv.eventQueue.length = n := by
    rw [hs.pushed, List.length_take]
    omega
  refine ⟨hs.pushed ▸ List.take_prefix n _, ?_, ?_, fun j => (n + j) % virtioRingSize, fun j => buf (n + j),
    ?_, ?_, ?_⟩
  · obtain ⟨v, hv, hs'⟩ := hs.pending
    refine ⟨{ s with drv := v }, by simp only [step, hv, Option.map_some], rfl, ?_⟩
    rw [hs'.pushed]
    exact List.take_length
  · rw [hs.availIdx, hs.ack]
    unfold u16
    omega
  · intro j hj k hk hjk
    constructor
    · rcases Nat.lt_or_gt_of_ne hjk with h | h
      · exact Ring.mod_ne (by omega) (by unfold virtioRingSize; omega)
      · exact (Ring.mod_ne (by omega) (by unfold virtioRingSize; omega)).symm
    · intro hb
      have := buf_inj (p := n) (k := n + j) (l := n + k) (by omega) (by omega) (by omega) (by omega) hb
      omega
  · intro j hj
    refine ⟨?_, hs.desc (n + j) (by omega) (by omega)⟩
    have hslot : (s.drv.eventAckUsedIndex + j) % virtioRingSize = (n + j) % virtioRingSize := by
      rw [hs.ack, ← Nat.mod_add_mod, u16_slot, Nat.mod_add_mod]
    rw [hslot]
    exact hs.avail.get (by omega) (by unfold virtioRingSize; omega)
  · intro j e he
    rw [hpushed] at he
    exact hs.memory (n + j) e (by omega) he

/-- five events, handled in two calls -/
def sampleActions : List (InputAction Nat) :=
  [.device 3, .device 4, .pending, .device 5, .device 6, .device 7, .pending]

theorem events_in_order_example : ∃ s, run step sampleActions (init 4096 0) = some s ∧
    s.drv.eventQueue <+: s.produced := by
  have hsome : (run step sampleActions (init 4096 0)).isSome = true := by decide +kernel
  obtain ⟨s, hs⟩ := Option.isSome_iff_exists.mp hsome
  exact ⟨s, hs, (events_in_order 4096 0 sampleActions s hs).1⟩

end InputRun

end Citron.Virtio
