import Mathlib.Data.List.Perm.Basic
import Citron.Virtio.Input

/-!
# Who owns the event buffers

The steps of `VirtioInput::pending` one by one, and a device that returns the descriptors it was given in
any order.  A descriptor and its buffer belong to the device from the time the driver makes them available
until the device returns them.

* `owns`            an access of the driver to what is its own;
* `careful`         the element that is handled finds the next descriptor and its own buffer unused, and the
                    buffer that is copied is not the one just given away;
* `careful_owns`    with this the driver accesses only what is its own.
-/

namespace Citron.Virtio
open Trace

variable {E : Type}

/-- where `pending` is: before the test of its loop, or with an element at hand -/
inductive Handler where
  | idle
  | taken (id : Nat)
  | written (id head : Nat)
  | offered (id head : Nat)
deriving DecidableEq, Repr

/-- once the new descriptor is offered and until the element is done, one more is in use -/
def Handler.extra : Handler → Nat
  | .offered .. => 1
  | _ => 0

/-- the driver, its place in `pending`, the descriptors that belong to the device, each with its buffer, and
those that were returned and not yet handled -/
structure OwnerRun (E : Type) where
  drv : VirtioInput E
  pc : Handler
  owned : List (Nat × Nat)
  returned : List Nat

inductive OwnerAction (E : Type) where
  /-- the device returns the `i`-th of its descriptors -/
  | device (i : Nat) (event : E)
  | take
  | write
  | offer
  | copy

namespace OwnerRun

/-- after `init_input_event` -/
def init (eventBuffer : Nat) (zero : E) : OwnerRun E :=
  let v := (VirtioInput.new eventBuffer zero).initInputEvent
  ⟨v, .idle, (List.range 64).map fun i => (i, v.bufferAddr i), []⟩

def step : OwnerAction E → OwnerRun E → Option (OwnerRun E)
  | .device i event, s =>
    s.owned[i]?.map fun (head, _) =>
      { s with drv := s.drv.deviceUse head event, owned := s.owned.eraseIdx i, returned := s.returned ++ [head] }
  | .take, s =>
    match s.pc with
    | .idle =>
      if s.drv.eventAckUsedIndex = s.drv.queue.usedIdx then none else some { s with pc := .taken s.drv.nextElem.id }
    | _ => none
  | .write, s =>
    match s.pc with
    | .taken id => some { s with drv := s.drv.writeEvent id, pc := .written id s.drv.eventIndex }
    | _ => none
  | .offer, s =>
    match s.pc with
    | .written id head =>
      some { s with
        drv := s.drv.sendDesc head
        pc := .offered id head
        owned := (head, (s.drv.queue.desc head).addr) :: s.owned }
    | _ => none
  | .copy, s =>
    match s.pc with
    | .offered id _ => some { s with drv := s.drv.pushEvent id, pc := .idle, returned := s.returned.tail }
    | _ => none

/-- the driver rewrites a descriptor, offers a buffer or copies from one that is not the device's -/
def owns (s : OwnerRun E) : OwnerAction E → Bool
  | .write =>
    match s.pc with
    | .taken _ => s.owned.all fun x => x.1 != s.drv.eventIndex
    | _ => true
  | .offer =>
    match s.pc with
    | .written id _ => s.owned.all fun x => x.2 != s.drv.bufferAddr id
    | _ => true
  | .copy =>
    match s.pc with
    | .offered id _ => s.owned.all fun x => x.2 != (s.drv.queue.desc id).addr
    | _ => true
  | _ => true

/-- the descriptors in use: with the device, or returned and not yet handled -/
def live (s : OwnerRun E) : List Nat := s.owned.map Prod.fst ++ s.returned

def careful (s : OwnerRun E) : OwnerAction E → Bool
  | .take => s.live.all fun a => a != s.drv.eventIndex &&
      (a == s.drv.nextElem.id || (s.drv.queue.desc a).addr != s.drv.bufferAddr s.drv.nextElem.id)
  | .copy =>
    match s.pc with
    | .offered id head => (s.drv.queue.desc id).addr != s.drv.bufferAddr id || s.owned.all fun x => x.1 != head
    | _ => true
  | _ => true

/-! ## the invariant -/

/-- what the place in `pending` says of the element at hand and of its new descriptor -/
def Handling (s : OwnerRun E) : Handler → Prop
  | .idle => True
  | .taken id =>
    s.returned.head? = some id ∧ s.drv.eventIndex ∉ s.live ∧
      ∀ a ∈ s.live, a ≠ id → (s.drv.queue.desc a).addr ≠ s.drv.bufferAddr id
  | .written id head =>
    s.returned.head? = some id ∧ head ∉ s.live ∧ (s.drv.queue.desc head).addr = s.drv.bufferAddr id ∧
      ∀ a ∈ s.live, a ≠ id → (s.drv.queue.desc a).addr ≠ s.drv.bufferAddr id
  | .offered id head => s.returned.head? = some id ∧ (s.drv.queue.desc head).addr = s.drv.bufferAddr id

structure Sound (s : OwnerRun E) : Prop where
  size : s.live.length = 64 + s.pc.extra
  usedIdx : s.drv.queue.usedIdx = u16 (s.drv.eventAckUsedIndex + s.returned.length)
  ack : s.drv.eventAckUsedIndex < 2^16
  ring : ∀ k h, s.returned[k]? = some h →
    (s.drv.queue.usedRing ((s.drv.eventAckUsedIndex + k) % virtioRingSize)).id = h
  held : ∀ x ∈ s.owned, (s.drv.queue.desc x.1).addr = x.2
  nodup : s.live.Nodup
  apart : ∀ a ∈ s.live, ∀ b ∈ s.live, (s.drv.queue.desc a).addr = (s.drv.queue.desc b).addr →
    a = b ∨ s.pc = .offered a b ∨ s.pc = .offered b a
  handling : s.Handling s.pc

variable {s s' : OwnerRun E}

theorem mem_live_of_owned {x : Nat × Nat} (hx : x ∈ s.owned) : x.1 ∈ s.live :=
  List.mem_append_left _ (List.mem_map_of_mem hx)

theorem Sound.returned_le (hs : s.Sound) : s.returned.length ≤ 65 := by
  have h := hs.size
  unfold live at h
  rw [List.length_append] at h
  unfold Handler.extra at h
  split at h <;> omega

/-- what was returned belongs to the device no more -/
theorem Sound.not_owned (hs : s.Sound) {id : Nat} (hid : s.returned.head? = some id) {x : Nat × Nat}
    (hx : x ∈ s.owned) : x.1 ≠ id := by
  intro h
  have hmem : id ∈ s.returned := List.mem_of_head? hid
  exact (List.nodup_append.mp hs.nodup).2.2 x.1 (List.mem_map_of_mem hx) id hmem h

/-! ## the steps -/

/-- a descriptor that is returned stays in use -/
theorem live_device {i head buffer : Nat} (h : s.owned[i]? = some (head, buffer)) (event : E) :
    ({ s with drv := s.drv.deviceUse head event, owned := s.owned.eraseIdx i, returned := s.returned ++ [head] } :
      OwnerRun E).live.Perm s.live := by
  obtain ⟨hi, hget⟩ := List.getElem?_eq_some_iff.mp h
  have hperm := (List.getElem_cons_eraseIdx_perm hi).map Prod.fst
  rw [hget, List.map_cons] at hperm
  show ((s.owned.eraseIdx i).map Prod.fst ++ (s.returned ++ [head])).Perm (s.owned.map Prod.fst ++ s.returned)
  rw [← List.append_assoc]
  exact (List.perm_append_singleton ..).trans (hperm.append_right s.returned)

/-- the facts of `Handling` are about the set of the descriptors in use -/
theorem Handling.congr (hlive : ∀ a, a ∈ s'.live ↔ a ∈ s.live) (hhead : ∀ id, s.returned.head? = some id →
    s'.returned.head? = some id) (hdesc : s'.drv.queue.desc = s.drv.queue.desc)
    (hbuf : s'.drv.eventBuffer = s.drv.eventBuffer) (hidx : s'.drv.eventIndex = s.drv.eventIndex) {pc : Handler}
    (h : s.Handling pc) : s'.Handling pc := by
  have haddr : ∀ id, s'.drv.bufferAddr id = s.drv.bufferAddr id := fun id => by
    unfold VirtioInput.bufferAddr
    rw [hbuf]
  cases pc with
  | idle => trivial
  | taken id =>
    simp only [Handling, hlive, hdesc, haddr, hidx] at h ⊢
    exact ⟨hhead id h.1, h.2⟩
  | written id head =>
    simp only [Handling, hlive, hdesc, haddr] at h ⊢
    exact ⟨hhead id h.1, h.2⟩
  | offered id head =>
    simp only [Handling, hdesc, haddr] at h ⊢
    exact ⟨hhead id h.1, h.2⟩

theorem Sound.device (hs : s.Sound) {i : Nat} {event : E} (h : step (.device i event) s = some s') : s'.Sound := by
  obtain ⟨⟨head, buffer⟩, hget, he⟩ := Option.map_eq_some_iff.mp h
  have hperm := live_device hget event
  cases he
  have hlen := hs.returned_le
  have hslot : s.drv.queue.usedIdx % virtioRingSize
      = (s.drv.eventAckUsedIndex + s.returned.length) % virtioRingSize := by
    rw [hs.usedIdx, u16_slot]
  refine ⟨hperm.length_eq.trans hs.size, ?_, hs.ack, ?_, fun x hx => hs.held x (List.mem_of_mem_eraseIdx hx),
    hperm.nodup_iff.mpr hs.nodup, fun a ha b hb => hs.apart a (hperm.mem_iff.mp ha) b (hperm.mem_iff.mp hb), ?_⟩
  · show u16 (s.drv.queue.usedIdx + 1) = u16 (s.drv.eventAckUsedIndex + (s.returned ++ [head]).length)
    rw [hs.usedIdx, u16_add_one, List.length_append, List.length_singleton, Nat.add_assoc]
  · intro k h hk
    show (Function.update s.drv.queue.usedRing (s.drv.queue.usedIdx % virtioRingSize) ⟨head, eventSize⟩
      ((s.drv.eventAckUsedIndex + k) % virtioRingSize)).id = h
    rw [hslot]
    by_cases hlt : k < s.returned.length
    · rw [List.getElem?_append_left hlt] at hk
      rw [Function.update_of_ne (Ring.mod_ne (by omega) (by unfold virtioRingSize; omega))]
      exact hs.ring k h hk
    · have hk' : k < (s.returned ++ [head]).length := (List.getElem?_eq_some_iff.mp hk).1
      rw [List.length_append, List.length_singleton] at hk'
      obtain rfl : k = s.returned.length := by omega
      rw [List.getElem?_concat_length] at hk
      rw [Function.update_self]
      exact Option.some.inj hk
  · refine Handling.congr (fun a => hperm.mem_iff) (fun id hid => ?_) rfl rfl rfl hs.handling
    show (s.returned ++ [head]).head? = some id
    rw [List.head?_append, hid]
    rfl

/-- the element that is taken is the first of those returned -/
theorem Sound.head (hs : s.Sound) (hne : s.drv.eventAckUsedIndex ≠ s.drv.queue.usedIdx) :
    s.returned.head? = some s.drv.nextElem.id := by
  cases hr : s.returned with
  | nil =>
    refine absurd ?_ hne
    have hu := hs.usedIdx
    rw [hr, List.length_nil, Nat.add_zero] at hu
    exact (hu.trans (Nat.mod_eq_of_lt hs.ack)).symm
  | cons id l =>
    have hid := hs.ring 0 id (by rw [hr]; rfl)
    rw [Nat.add_zero] at hid
    exact congrArg some hid.symm

theorem Sound.take (hs : s.Sound) (hok : s.careful .take = true) (h : step .take s = some s') : s'.Sound := by
  simp only [step] at h
  split at h
  · rename_i hpc
    split at h
    · cases h
    · rename_i hne
      cases h
      have hsize := hs.size
      rw [hpc] at hsize
      have hapart := hs.apart
      simp only [hpc, reduceCtorEq, or_false] at hapart
      have hall := List.all_eq_true.mp hok
      simp only [Bool.and_eq_true, Bool.or_eq_true, bne_iff_ne, beq_iff_eq] at hall
      refine ⟨hsize, hs.usedIdx, hs.ack, hs.ring, hs.held, hs.nodup, fun a ha b hb e => .inl (hapart a ha b hb e), ?_⟩
      refine ⟨hs.head hne, fun hm => (hall _ hm).1 rfl, fun a ha hne => ?_⟩
      exact (hall a ha).2.resolve_left hne
  · cases h

/-- the descriptor that is rewritten is in no use -/
theorem Sound.write (hs : s.Sound) (h : step .write s = some s') : s'.Sound := by
  simp only [step] at h
  split at h
  · rename_i id hpc
    cases h
    have hsize := hs.size
    rw [hpc] at hsize
    have hapart := hs.apart
    simp only [hpc, reduceCtorEq, or_false] at hapart
    have hhand := hs.handling
    rw [hpc] at hhand
    obtain ⟨hhead, hfresh, hbuf⟩ := hhand
    have hdesc : ∀ a ∈ s.live, (s.drv.writeEvent id).queue.desc a = s.drv.queue.desc a := by
      intro a ha
      have hne : a ≠ s.drv.eventIndex := fun e => hfresh (e ▸ ha)
      exact Function.update_of_ne hne _ _
    refine ⟨hsize, hs.usedIdx, hs.ack, hs.ring, fun x hx => ?_, hs.nodup, fun a ha b hb e => .inl ?_, hhead, hfresh,
      ?_, fun a ha hne => ?_⟩
    · show ((s.drv.writeEvent id).queue.desc x.1).addr = x.2
      rw [hdesc x.1 (mem_live_of_owned hx)]
      exact hs.held x hx
    · change ((s.drv.writeEvent id).queue.desc a).addr = ((s.drv.writeEvent id).queue.desc b).addr at e
      rw [hdesc a ha, hdesc b hb] at e
      exact hapart a ha b hb e
    · show (Function.update s.drv.queue.desc s.drv.eventIndex (s.drv.eventDesc id) s.drv.eventIndex).addr = _
      rw [Function.update_self]
      rfl
    · show ((s.drv.writeEvent id).queue.desc a).addr ≠ _
      rw [hdesc a ha]
      exact hbuf a ha hne
  · cases h

/-- now two descriptors may be for one buffer: the element's and the new one -/
theorem Sound.offer (hs : s.Sound) (h : step .offer s = some s') : s'.Sound := by
  simp only [step] at h
  split at h
  · rename_i id head hpc
    cases h
    have hsize := hs.size
    rw [hpc] at hsize
    have hapart := hs.apart
    simp only [hpc, reduceCtorEq, or_false] at hapart
    have hhand := hs.handling
    rw [hpc] at hhand
    obtain ⟨hhead, hfresh, hdesc, hbuf⟩ := hhand
    -- a descriptor in use for the buffer of the new one is the element's
    have hid : ∀ a ∈ s.live, (s.drv.queue.desc a).addr = (s.drv.queue.desc head).addr → a = id := by
      intro a ha e
      by_contra hne
      exact hbuf a ha hne (e.trans hdesc)
    refine ⟨congrArg (· + 1) hsize, hs.usedIdx, hs.ack, hs.ring, fun x hx => ?_, List.nodup_cons.mpr ⟨hfresh, hs.nodup⟩,
      fun a ha b hb e => ?_, hhead, hdesc⟩
    · rcases List.mem_cons.mp hx with rfl | hx
      · rfl
      · exact hs.held x hx
    · rcases List.mem_cons.mp ha with rfl | ha <;> rcases List.mem_cons.mp hb with rfl | hb
      · exact .inl rfl
      · obtain rfl := hid b hb e.symm
        exact .inr (.inr rfl)
      · obtain rfl := hid a ha e
        exact .inr (.inl rfl)
      · exact .inl (hapart a ha b hb e)
  · cases h

theorem Sound.copy (hs : s.Sound) (h : step .copy s = some s') : s'.Sound := by
  simp only [step] at h
  split at h
  · rename_i id head hpc
    cases h
    have hsize := hs.size
    rw [hpc] at hsize
    have hhand := hs.handling
    rw [hpc] at hhand
    obtain ⟨l, hl⟩ : ∃ l, s.returned = id :: l := List.head?_eq_some_iff.mp hhand.1
    -- the element's descriptor is in use no more
    have hperm : s.live.Perm (id :: (s.owned.map Prod.fst ++ l)) := by
      unfold live
      rw [hl]
      exact List.perm_middle
    have hnd := List.nodup_cons.mp (hperm.nodup_iff.mp hs.nodup)
    have hmem : ∀ a ∈ s.owned.map Prod.fst ++ l, a ∈ s.live ∧ a ≠ id := fun a ha =>
      ⟨hperm.mem_iff.mpr (List.mem_cons_of_mem id ha), fun e => hnd.1 (e ▸ ha)⟩
    have hlive : ({ s with drv := s.drv.pushEvent id, pc := .idle, returned := s.returned.tail } : OwnerRun E).live
        = s.owned.map Prod.fst ++ l := by
      show s.owned.map Prod.fst ++ s.returned.tail = _
      rw [hl]
      rfl
    have hack : ∀ k, (u16 (s.drv.eventAckUsedIndex + 1) + k) % virtioRingSize
        = (s.drv.eventAckUsedIndex + (k + 1)) % virtioRingSize := by
      intro k
      rw [← Nat.mod_add_mod, u16_slot, Nat.mod_add_mod, Nat.add_assoc, Nat.add_comm 1 k]
    refine ⟨?_, ?_, Nat.mod_lt _ (by decide), fun k h hk => ?_, hs.held, ?_, fun a ha b hb e => .inl ?_, trivial⟩
    · rw [hlive]
      have := hperm.length_eq.symm.trans hsize
      rw [List.length_cons] at this
      exact Nat.succ.inj this
    · show s.drv.queue.usedIdx = u16 (u16 (s.drv.eventAckUsedIndex + 1) + s.returned.tail.length)
      rw [hs.usedIdx, hl]
      unfold u16
      rw [Nat.mod_add_mod, List.length_cons, List.tail_cons]
      congr 1
      omega
    · show (s.drv.queue.usedRing ((u16 (s.drv.eventAckUsedIndex + 1) + k) % virtioRingSize)).id = h
      rw [hack]
      refine hs.ring (k + 1) h ?_
      rw [hl]
      change s.returned.tail[k]? = some h at hk
      rwa [hl] at hk
    · rw [hlive]
      exact hnd.2
    · rw [hlive] at ha hb
      rcases hs.apart a (hmem a ha).1 b (hmem b hb).1 e with h | h | h
      · exact h
      · exact absurd (Handler.offered.inj (hpc.symm.trans h)).1.symm (hmem a ha).2
      · exact absurd (Handler.offered.inj (hpc.symm.trans h)).1.symm (hmem b hb).2
  · cases h

theorem Sound.step (hs : s.Sound) {a : OwnerAction E} (hok : s.careful a = true) (h : step a s = some s') :
    s'.Sound := by
  cases a with
  | device i event => exact hs.device h
  | take => exact hs.take hok h
  | write => exact hs.write h
  | offer => exact hs.offer h
  | copy => exact hs.copy h

theorem sound_init (eventBuffer : Nat) (zero : E) : (init eventBuffer zero).Sound := by
  have hp := InputRun.populated_new eventBuffer zero
  have hlive : (init eventBuffer zero).live = List.range 64 := by
    show ((List.range 64).map fun i => (i, _)).map Prod.fst ++ [] = _
    rw [List.map_map, List.append_nil]
    exact List.map_id _
  have hdesc : ∀ k ∈ List.range 64, ((init eventBuffer zero).drv.queue.desc k).addr
      = (init eventBuffer zero).drv.bufferAddr k := by
    intro k hk
    refine (congrArg VirtqDesc.addr (hp.desc k (List.mem_range.mp hk))).trans ?_
    show eventBuffer + eventSize * k = (init eventBuffer zero).drv.eventBuffer + eventSize * k
    rw [show (init eventBuffer zero).drv.eventBuffer = eventBuffer from hp.rest.2.2.2]
  refine ⟨by rw [hlive]; rfl, ?_, ?_, by intro k h hk; simp [init] at hk, ?_, by rw [hlive]; exact List.nodup_range,
    ?_, trivial⟩
  · show (init eventBuffer zero).drv.queue.usedIdx = u16 ((init eventBuffer zero).drv.eventAckUsedIndex + 0)
    rw [show (init eventBuffer zero).drv.queue.usedIdx = 0 from hp.rest.1,
      show (init eventBuffer zero).drv.eventAckUsedIndex = 0 from hp.rest.2.1]
    rfl
  · rw [show (init eventBuffer zero).drv.eventAckUsedIndex = 0 from hp.rest.2.1]
    decide
  · intro x hx
    obtain ⟨k, hk, rfl⟩ := List.mem_map.mp hx
    exact hdesc k hk
  · intro a ha b hb e
    rw [hlive] at ha hb
    rw [hdesc a ha, hdesc b hb] at e
    refine .inl ?_
    unfold VirtioInput.bufferAddr eventSize at e
    omega

/-- in a sound state the driver's next access is to what is its own -/
theorem Sound.owns (hs : s.Sound) {a : OwnerAction E} (hok : s.careful a = true) : s.owns a = true := by
  have hhand := hs.handling
  cases a with
  | device i event => rfl
  | take => rfl
  | write =>
    cases hpc : s.pc with
    | taken id =>
      rw [hpc] at hhand
      simp only [OwnerRun.owns, hpc]
      refine List.all_eq_true.mpr fun x hx => bne_iff_ne.mpr fun e => hhand.2.1 ?_
      exact e ▸ mem_live_of_owned hx
    | _ => simp only [OwnerRun.owns, hpc]
  | offer =>
    cases hpc : s.pc with
    | written id head =>
      rw [hpc] at hhand
      simp only [OwnerRun.owns, hpc]
      refine List.all_eq_true.mpr fun x hx => bne_iff_ne.mpr fun e => ?_
      refine hhand.2.2.2 x.1 (mem_live_of_owned hx) (hs.not_owned hhand.1 hx) ?_
      exact (hs.held x hx).trans e
    | _ => simp only [OwnerRun.owns, hpc]
  | copy =>
    cases hpc : s.pc with
    | offered id head =>
      rw [hpc] at hhand
      simp only [OwnerRun.owns, hpc]
      refine List.all_eq_true.mpr fun x hx => bne_iff_ne.mpr fun e => ?_
      have hid : id ∈ s.live := List.mem_append_right _ (List.mem_of_head? hhand.1)
      have heq : (s.drv.queue.desc x.1).addr = (s.drv.queue.desc id).addr := (hs.held x hx).trans e
      have hne := hs.not_owned hhand.1 hx
      -- only the new descriptor can be for the same buffer, and then it was returned
      obtain rfl : x.1 = head := by
        rcases hs.apart x.1 (mem_live_of_owned hx) id hid heq with h | h | h
        · exact absurd h hne
        · exact absurd (Handler.offered.inj (hpc.symm.trans h)).1.symm hne
        · exact ((Handler.offered.inj (hpc.symm.trans h)).2).symm
      simp only [careful, hpc, Bool.or_eq_true, bne_iff_ne, List.all_eq_true] at hok
      rcases hok with hok | hok
      · exact hok (heq.symm.trans hhand.2)
      · exact hok x hx rfl
    | _ => simp only [OwnerRun.owns, hpc]

/-- **Ownership for any completion order.** -/
theorem careful_owns (eventBuffer : Nat) (zero : E) (actions : List (OwnerAction E))
    (h : Throughout step (fun s a => s.careful a = true) actions (init eventBuffer zero)) :
    Throughout step (fun s a => s.owns a = true) actions (init eventBuffer zero) :=
  Throughout.imp Sound (fun _ _ _ hs hok hstep => hs.step hok hstep) (fun _ _ hs hok => hs.owns hok) actions
    (sound_init eventBuffer zero) h

/-- the device returns the re-armed descriptor before the event is copied -/
def sampleActions : List (OwnerAction Nat) := [.device 0 3, .take, .write, .offer, .device 0 4, .copy]

theorem careful_owns_example : (run step sampleActions (init 4096 0)).isSome = true ∧
    Throughout step (fun s a => s.owns a = true) sampleActions (init 4096 0) :=
  ⟨by decide, careful_owns 4096 0 sampleActions (by decide +kernel)⟩

/-- the first event of an idle device is copied from a buffer that was just given back -/
theorem reads_offered_buffer : ¬ ∀ actions : List (OwnerAction Nat),
    Throughout step (fun s a => s.owns a = true) actions (init 4096 0) := by
  intro h
  exact absurd (h [.device 0 3, .take, .write, .offer, .copy]) (by decide +kernel)

end OwnerRun

end Citron.Virtio
