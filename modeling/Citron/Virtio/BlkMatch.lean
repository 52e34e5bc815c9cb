import Citron.Virtio.BlkMutex

/-!
# Requests and completions of the block driver

The driver keeps one pid and one list of descriptors, for a request that is not the only one under way.  They are
the right ones as long as the requests come one after the other.

* `serial`             the driver is taken only when every request before was served, and an interrupt finds the
                       submitter of a completed request in its `io_wait`, or nothing to do;
* `Serial`             then at most one request is under way;
* `requests_matched`   and the interrupt is for that one;
* `wrong_request`      with two requests under way it is for the other one.
-/

namespace Citron.Virtio
open Resumption Trace

/-- after `io_wait` -/
def BlkPc.waits : BlkPc → Bool
  | .blocked _ => true
  | .sleeping _ => true
  | _ => false

/-- before `self.pid = pm.running`, or after `io_wait` -/
def BlkPc.outer : BlkPc → Bool
  | .idle => true
  | .entering _ => true
  | .blocked _ => true
  | .sleeping _ => true
  | _ => false

namespace VirtioBlk

/-- every used element was acknowledged -/
def Level (b : VirtioBlk) : Prop := ∃ n, b.ackUsedIndex = u16 n ∧ b.queue.usedIdx = u16 n

/-- one was not, with a good status -/
def Due (b : VirtioBlk) (head : Nat) : Prop :=
  (∃ n, b.ackUsedIndex = u16 n ∧ b.queue.usedIdx = u16 (n + 1)) ∧ b.nextElem.id = head ∧ b.status head = 0

/-- the descriptors in use are those of one request -/
structure Allocated (b : VirtioBlk) (indexes : List Nat) : Prop where
  free : ∀ i, b.freeDesc i = !decide (i ∈ indexes)
  laid : ∃ r i₀ i₁ i₂, indexes = [i₀, i₁, i₂] ∧ b.Laid r i₀ i₁ i₂

variable {b b' : VirtioBlk} {r : Request} {indexes : List Nat}

theorem prepare_pid (h : b.prepare r = some (indexes, b')) : b'.pid = b.pid := by
  obtain ⟨⟨indexes', free⟩, -, h⟩ := Option.bind_eq_some_iff.mp h
  dsimp only at h
  split at h
  · cases h
    rfl
  · cases h

theorem prepare_allocated (hfree : ∀ i, b.freeDesc i = true) (h : b.prepare r = some (indexes, b')) :
    b'.Allocated indexes := by
  obtain ⟨i₀, i₁, i₂, free, hix, halloc, hlaid, hf, -⟩ := prepare_some h
  obtain ⟨new, he, -, -, -, hrest⟩ := allocateDesc_some halloc
  rw [List.nil_append] at he
  subst he
  refine ⟨fun i => ?_, r, i₀, i₁, i₂, hix, hlaid⟩
  rw [hf, hrest, hfree, Bool.true_and]

theorem prepare_level (hb : b.Level) (h : b.prepare r = some (indexes, b')) : b'.Level := by
  obtain ⟨_, _, _, _, -, -, -, -, -, hused, -, hack, -⟩ := prepare_some h
  obtain ⟨n, h1, h2⟩ := hb
  exact ⟨n, hack.trans h1, hused.trans h2⟩

/-- the device completes the request that is in use -/
theorem Allocated.complete (hb : b.Allocated indexes) (hl : b.Level) (len : Nat) :
    (b.complete (indexes.headD 0) len).Allocated indexes ∧
      (b.complete (indexes.headD 0) len).Due (indexes.headD 0) := by
  obtain ⟨r, i₀, i₁, i₂, rfl, hlaid⟩ := hb.laid
  obtain ⟨n, hack, hused⟩ := hl
  refine ⟨⟨hb.free, r, i₀, i₁, i₂, rfl, ⟨hlaid.nodup, hlaid.header, hlaid.data, hlaid.status⟩⟩,
    ⟨n, hack, ?_⟩, ?_, hlaid.complete_status len⟩
  · show u16 (b.queue.usedIdx + 1) = _
    rw [hused, u16_add_one]
  · show (Function.update b.queue.usedRing (b.queue.usedIdx % virtioRingSize) ⟨i₀, len⟩
      (b.ackUsedIndex % virtioRingSize)).id = i₀
    rw [hack, hused, Function.update_self]

/-- an interrupt with nothing to acknowledge -/
theorem Level.pending (hb : b.Level) (hsaved : b.descIndexes = some indexes) :
    b.pending = some ([], b.release indexes) := by
  obtain ⟨n, hack, hused⟩ := hb
  unfold VirtioBlk.pending
  rw [show (2 : Nat)^16 = 65535 + 1 by norm_num, pendingLoop_done _ _ (hack.trans hused.symm), Option.bind_some]
  dsimp only
  rw [hsaved]

/-- an interrupt after a completion -/
theorem Due.pending {head : Nat} (hb : b.Due head) (hsaved : b.descIndexes = some indexes) :
    ∃ acks, b.pending = some (acks, (b.setAck b.queue.usedIdx).release indexes) := by
  obtain ⟨⟨n, hack, hused⟩, hid, hstatus⟩ := hb
  refine ⟨_, pending_one ?_ ?_ ?_ hsaved⟩
  · rw [hack, hused]
    exact u16_ne_succ n
  · rw [hack, hused, u16_add_one]
  · rw [hid, hstatus]

/-- descriptors that are free already -/
theorem release_free (hfree : ∀ i ∈ indexes, b.freeDesc i = true) : b.release indexes = b := by
  have h : deallocateDesc indexes b.freeDesc = b.freeDesc := by
    funext i
    rw [deallocateDesc_apply]
    by_cases hi : i ∈ indexes
    · simp [hi, hfree i hi]
    · simp [hi]
  unfold release
  rw [h]

theorem Allocated.release (hb : b.Allocated indexes) (n i : Nat) :
    ((b.setAck n).release indexes).freeDesc i = true := by
  show deallocateDesc indexes b.freeDesc i = true
  rw [deallocateDesc_apply, hb.free]
  by_cases hi : i ∈ indexes
  · simp [hi]
  · simp [hi]

end VirtioBlk

namespace BlkRun

/-- requests one after the other, and interrupts when they are expected -/
def serial (s : BlkRun) : BlkAction → Bool
  | .take => s.busy.isEmpty
  | .pending =>
    if s.returned.isEmpty then
      s.blk.descIndexes.all (fun indexes => indexes.all s.blk.freeDesc) &&
        !(s.sys.st.stateOf s.blk.pid).any State.blocked
    else s.returned.all fun r => (s.pc r.pid).waits
  | _ => true

/-- a request of `p` that the device has not completed -/
def Underway (s : BlkRun) (p : Pid) (indexes : List Nat) : Prop :=
  s.pc p = .built indexes ∨ s.pc p = .left indexes ∨ ⟨p, indexes⟩ ∈ s.outstanding

/-- descriptors of requests that are not completed are not free, and in one of them only; and an interrupt after a
completion does not panic -/
structure Safe (s : BlkRun) : Prop where
  used : ∀ p indexes, s.Underway p indexes → ∀ i ∈ indexes, s.blk.freeDesc i = false
  apart : ∀ p q indexes indexes', s.Underway p indexes → s.Underway q indexes' → p ≠ q → indexes.Disjoint indexes'
  answers : s.returned ≠ [] → s.serial .pending = true → s.blk.pending.isSome = true

/-- an interrupt frees the three descriptors of the requests that are completed, and makes their submitters ready;
and a `block_op` that returns has no request under way -/
structure Matched (s : BlkRun) (a : BlkAction) (s' : BlkRun) : Prop where
  three : a = .pending → ∀ r ∈ s.returned, r.indexes.length = 3 ∧ r.indexes.Nodup ∧
    ∀ i ∈ r.indexes, s.blk.freeDesc i = false
  freed : a = .pending → ∀ i, s'.blk.freeDesc i = true ↔ s.blk.freeDesc i = true ∨ ∃ r ∈ s.returned, i ∈ r.indexes
  woken : a = .pending → ∀ p st, s.sys.st.stateOf p = some st → st.blocked = true →
    (s'.sys.st.Runnable p ↔ ∃ r ∈ s.returned, r.pid = p)
  returns : a = .ret → ∀ indexes, ¬ s.Underway s.me indexes

/-! ## the request that is under way -/

structure Quiet (s : BlkRun) : Prop where
  free : ∀ i, s.blk.freeDesc i = true
  level : s.blk.Level
  outstanding : s.outstanding = []
  returned : s.returned = []

structure Built (s : BlkRun) (indexes : List Nat) : Prop where
  allocated : s.blk.Allocated indexes
  level : s.blk.Level
  outstanding : s.outstanding = []
  returned : s.returned = []

structure Sent (s : BlkRun) (p : Pid) (indexes : List Nat) : Prop where
  allocated : s.blk.Allocated indexes
  done : s.outstanding = [⟨p, indexes⟩] ∧ s.returned = [] ∧ s.blk.Level ∨
    s.outstanding = [] ∧ s.returned = [⟨p, indexes⟩] ∧ s.blk.Due (indexes.headD 0)

structure Saved (s : BlkRun) (p : Pid) (indexes : List Nat) : Prop extends Sent s p indexes where
  saved : s.blk.descIndexes = some indexes

/-- what is so while the process that took the driver last is at a place -/
def Phase (s : BlkRun) (p : Pid) : BlkPc → Prop
  | .taken _ => s.Quiet
  | .built indexes => s.Built indexes
  | .left indexes => s.Built indexes
  | .published indexes => s.Sent p indexes
  | .saved indexes => s.Saved p indexes
  | .blocked indexes => s.Saved p indexes ∧ s.sys.st.stateOf p = some .ioWait
  | .sleeping indexes => s.Saved p indexes ∧ s.sys.st.stateOf p = some .ioWait
  | _ => False

structure Serial (H : Heap) (sie : Bool) (s : BlkRun) : Prop extends Waiting H sie s where
  outer : ∀ q, q ∉ s.busy → (s.pc q).outer = true
  phase : s.busy = [] ∧ s.Quiet ∨ ∃ p, s.busy = [p] ∧ s.blk.pid = p ∧ s.Phase p (s.pc p)

variable {H : Heap} {sie : Bool} {s s' : BlkRun}

theorem serial_init (statusAddr : Nat) (headers : Nat → VirtioBlkRequest) :
    Serial H sie (init H sie statusAddr headers) :=
  ⟨waiting_init statusAddr headers, fun _ _ => rfl, .inl ⟨rfl, fun _ => rfl, ⟨0, rfl, rfl⟩, rfl, rfl⟩⟩

/-- the process that has the driver -/
theorem Serial.holder (hs : Serial H sie s) {q : Pid} (h : q ∈ s.busy) :
    s.busy = [q] ∧ s.blk.pid = q ∧ s.Phase q (s.pc q) := by
  rcases hs.phase with ⟨e, -⟩ | ⟨p, e, hpid, hp⟩
  · rw [e] at h
    exact absurd h List.not_mem_nil
  · rw [e] at h
    obtain rfl := List.mem_singleton.mp h
    exact ⟨e, hpid, hp⟩

theorem Serial.inner (hs : Serial H sie s) {q : Pid} (h : (s.pc q).outer = false) :
    s.busy = [q] ∧ s.blk.pid = q ∧ s.Phase q (s.pc q) := by
  refine hs.holder ?_
  by_contra hn
  exact Bool.false_ne_true (h.symm.trans (hs.outer q hn))

theorem Serial.mine (hs : Serial H sie s) (h : s.here.outer = false) :
    s.busy = [s.me] ∧ s.blk.pid = s.me ∧ s.Phase s.me s.here := hs.inner h

theorem Phase.waits {p : Pid} {pc : BlkPc} (h : s.Phase p pc) (hw : pc.waits = true) :
    ∃ indexes, s.Saved p indexes ∧ s.sys.st.stateOf p = some .ioWait := by
  cases pc with
  | blocked indexes => exact ⟨indexes, h⟩
  | sleeping indexes => exact ⟨indexes, h⟩
  | _ => cases hw

/-- the phase is of the driver and of one process only -/
theorem Phase.keep {p : Pid} {pc : BlkPc} (h : s.Phase p pc) (hb : s'.blk = s.blk)
    (ho : s'.outstanding = s.outstanding) (hr : s'.returned = s.returned)
    (hst : pc.waits = true → s.sys.st.stateOf p = some .ioWait → s'.sys.st.stateOf p = some .ioWait) :
    s'.Phase p pc := by
  have hquiet : s.Quiet → s'.Quiet := fun h =>
    ⟨hb ▸ h.free, hb ▸ h.level, ho.trans h.outstanding, hr.trans h.returned⟩
  have hbuilt : ∀ {indexes}, s.Built indexes → s'.Built indexes := fun h =>
    ⟨hb ▸ h.allocated, hb ▸ h.level, ho.trans h.outstanding, hr.trans h.returned⟩
  have hsent : ∀ {indexes}, s.Sent p indexes → s'.Sent p indexes := by
    intro indexes ⟨ha, hd⟩
    refine ⟨hb ▸ ha, ?_⟩
    rw [ho, hr, hb]
    exact hd
  have hsaved : ∀ {indexes}, s.Saved p indexes → s'.Saved p indexes := fun h =>
    ⟨hsent h.toSent, hb ▸ h.saved⟩
  cases pc with
  | idle => exact h
  | entering r => exact h
  | taken r => exact hquiet h
  | built indexes => exact hbuilt h
  | left indexes => exact hbuilt h
  | published indexes => exact hsent h
  | saved indexes => exact hsaved h
  | blocked indexes => exact ⟨hsaved h.1, hst rfl h.2⟩
  | sleeping indexes => exact ⟨hsaved h.1, hst rfl h.2⟩

/-- who waits for its request still does after a step that is not of the driver -/
theorem Serial.asleep (hs : Serial H sie s) {a : BlkAction} (h : Stepped H s a s') (h1 : a ≠ .ioWait)
    (h2 : a ≠ .pending) {p : Pid} (hw : (s.pc p).waits = true) (hst : s.sys.st.stateOf p = some .ioWait) :
    s'.sys.st.stateOf p = some .ioWait := by
  have hidle : ∀ {q}, s.pc q = .idle → p ≠ q := by
    rintro q hq rfl
    rw [hq] at hw
    cases hw
  have hqueue : ¬ s.sys.st.Queued p := by
    refine hs.not_queued fun r e => ?_
    rw [e] at hw
    cases hw
  rcases h.sys_cases with ⟨-, e⟩ | ⟨l, hl, hcall⟩
  · rwa [e]
  · refine Reachable.untouched_step hs.reach hcall rfl hst fun op e => ?_
    rw [e] at hl
    cases h with
    | new turn hsid h =>
      cases hl
      exact id
    | enter turn here hsid h =>
      simp only [label, hsid, Option.map_some, Option.some.injEq] at hl
      subst hl
      exact hidle here
    | leave turn here hsid h =>
      simp only [label, hsid, Option.map_some, Option.some.injEq] at hl
      subst hl
      exact hqueue
    | signal owed hsid h =>
      simp only [label, hsid, Option.map_some, Option.some.injEq] at hl
      subst hl
      exact hqueue
    | schedule turn here h =>
      cases hl
      exact id
    | kernel ok h =>
      simp only [label, Option.some.injEq] at hl
      subst hl
      cases op with
      | ready q => exact hidle (beq_iff_eq.mp (Bool.and_eq_true_iff.mp ok).2)
      | sleep q delay => exact hidle (beq_iff_eq.mp (Bool.and_eq_true_iff.mp ok).2)
      | wakeup =>
        intro ht
        cases hst.symm.trans ht
      | schedule => exact id
      | createProcess priority doSetup => exact id
      | createKernelProcess priority => exact id
      | createSemaphore count => exact id
      | _ => cases ok
    | ioWait turn here h => exact absurd rfl h1
    | pending turn hsid hp h => exact absurd rfl h2
    | _ => cases hl

/-- a step that leaves the driver and its process alone -/
theorem Serial.still (hs : Serial H sie s) (hw : Waiting H sie s') (hb : s'.blk = s.blk)
    (ho : s'.outstanding = s.outstanding) (hr : s'.returned = s.returned) (hbusy : s'.busy = s.busy)
    (hout : ∀ q, q ∉ s.busy → (s'.pc q).outer = true) (hpc : ∀ p, s.busy = [p] → s'.pc p = s.pc p)
    (hst : ∀ p, (s.pc p).waits = true → s.sys.st.stateOf p = some .ioWait → s'.sys.st.stateOf p = some .ioWait) :
    Serial H sie s' := by
  refine ⟨hw, fun q hq => hout q (hbusy ▸ hq), ?_⟩
  rcases hs.phase with ⟨e, hq⟩ | ⟨p, e, hpid, hp⟩
  · exact .inl ⟨hbusy.trans e, hb ▸ hq.free, hb ▸ hq.level, ho.trans hq.outstanding, hr.trans hq.returned⟩
  · refine .inr ⟨p, hbusy.trans e, (congrArg VirtioBlk.pid hb).trans hpid, ?_⟩
    rw [hpc p e]
    exact hp.keep hb ho hr (hst p)

/-- the process that has the driver makes a step -/
theorem Serial.advance (hs : Serial H sie s) (hw : Waiting H sie s') (hm : s.busy = [s.me])
    {pc : BlkPc} (hbusy : s'.busy = s.busy) (hpid : s'.blk.pid = s.me) (hpc : s'.pc = (s.goto pc).pc)
    (hp : s'.Phase s.me pc) : Serial H sie s' := by
  refine ⟨hw, fun q hq => ?_, .inr ⟨s.me, hbusy.trans hm, hpid, ?_⟩⟩
  · have hne : q ≠ s.me := by
      rintro rfl
      rw [hbusy, hm] at hq
      exact hq List.mem_cons_self
    rw [hpc, goto_pc, if_neg hne]
    exact hs.outer q (hbusy ▸ hq)
  · rw [hpc, goto_pc, if_pos rfl]
    exact hp

/-! ## the interrupt -/

/-- the one request that is completed, its submitter in `io_wait` -/
structure Completed (s : BlkRun) (p : Pid) (indexes : List Nat) : Prop where
  busy : s.busy = [p]
  pid : s.blk.pid = p
  waits : (s.pc p).waits = true
  allocated : s.blk.Allocated indexes
  saved : s.blk.descIndexes = some indexes
  outstanding : s.outstanding = []
  returned : s.returned = [⟨p, indexes⟩]
  due : s.blk.Due (indexes.headD 0)
  state : s.sys.st.stateOf p = some .ioWait

/-- an interrupt that changes nothing -/
structure Spurious (s : BlkRun) : Prop where
  returned : s.returned = []
  level : s.blk.Level
  saved : ∀ indexes, s.blk.descIndexes = some indexes → ∀ i ∈ indexes, s.blk.freeDesc i = true
  awake : ∀ st, s.sys.st.stateOf s.blk.pid = some st → st.blocked = false

theorem Sent.level {p : Pid} {indexes : List Nat} (h : s.Sent p indexes) (hr : s.returned = []) : s.blk.Level := by
  rcases h.done with ⟨-, -, hl⟩ | ⟨-, e, -⟩
  · exact hl
  · cases hr.symm.trans e

theorem Sent.unique {p : Pid} {indexes indexes' : List Nat} (h : s.Sent p indexes) (h' : s.Sent p indexes') :
    indexes = indexes' := by
  rcases h.done with ⟨e, -⟩ | ⟨e, hr, -⟩
  · rcases h'.done with ⟨e', -⟩ | ⟨e', -⟩
    · cases e.symm.trans e'
      rfl
    · cases e.symm.trans e'
  · rcases h'.done with ⟨e', -⟩ | ⟨-, hr', -⟩
    · cases e.symm.trans e'
    · cases hr.symm.trans hr'
      rfl

theorem Phase.cases {p : Pid} {pc : BlkPc} (h : s.Phase p pc) :
    s.Quiet ∨ (∃ indexes, s.Built indexes) ∨ ∃ indexes, s.Sent p indexes := by
  cases pc with
  | idle => exact h.elim
  | entering r => exact h.elim
  | taken r => exact .inl h
  | built indexes => exact .inr (.inl ⟨indexes, h⟩)
  | left indexes => exact .inr (.inl ⟨indexes, h⟩)
  | published indexes => exact .inr (.inr ⟨indexes, h⟩)
  | saved indexes => exact .inr (.inr ⟨indexes, Saved.toSent h⟩)
  | blocked indexes => exact .inr (.inr ⟨indexes, h.1.toSent⟩)
  | sleeping indexes => exact .inr (.inr ⟨indexes, h.1.toSent⟩)

theorem Serial.level (hs : Serial H sie s) (hr : s.returned = []) : s.blk.Level := by
  rcases hs.phase with ⟨-, hq⟩ | ⟨p, -, -, hp⟩
  · exact hq.level
  · rcases hp.cases with hq | ⟨indexes, hb⟩ | ⟨indexes, hsent⟩
    · exact hq.level
    · exact hb.level
    · exact hsent.level hr

/-- who submitted a request that is not served has the driver -/
theorem Serial.submitter (hs : Serial H sie s) {r : Submitted} (hr : r ∈ s.outstanding ∨ r ∈ s.returned) :
    s.busy = [r.pid] ∧ s.blk.pid = r.pid ∧ s.Phase r.pid (s.pc r.pid) ∧ s.Sent r.pid r.indexes := by
  have hnone : ¬ (s.outstanding = [] ∧ s.returned = []) := by
    intro ⟨e, e'⟩
    rw [e, e'] at hr
    exact hr.elim List.not_mem_nil List.not_mem_nil
  rcases hs.phase with ⟨-, hq⟩ | ⟨p, e, hpid, hp⟩
  · exact absurd ⟨hq.outstanding, hq.returned⟩ hnone
  · rcases hp.cases with hq | ⟨indexes, hb⟩ | ⟨indexes, hsent⟩
    · exact absurd ⟨hq.outstanding, hq.returned⟩ hnone
    · exact absurd ⟨hb.outstanding, hb.returned⟩ hnone
    · obtain rfl : r = ⟨p, indexes⟩ := by
        rcases hsent.done with ⟨ho, e, -⟩ | ⟨ho, e, -⟩
        · rw [ho, e] at hr
          exact List.mem_singleton.mp (hr.resolve_right List.not_mem_nil)
        · rw [ho, e] at hr
          exact List.mem_singleton.mp (hr.resolve_left List.not_mem_nil)
      exact ⟨e, hpid, hp, hsent⟩

theorem Serial.interrupt (hs : Serial H sie s) (hok : s.serial .pending = true) :
    s.Spurious ∨ ∃ p indexes, s.Completed p indexes := by
  cases hret : s.returned with
  | nil =>
    simp only [serial, hret, List.isEmpty_nil, if_true, Bool.and_eq_true, Bool.not_eq_true'] at hok
    refine .inl ⟨hret, hs.level hret, fun indexes e i hi => ?_, fun st e => ?_⟩
    · rw [e] at hok
      exact List.all_eq_true.mp hok.1 i hi
    · rw [e] at hok
      exact hok.2
  | cons r rs =>
    have hmem : r ∈ s.returned := by
      rw [hret]
      exact List.mem_cons_self
    obtain ⟨hbusy, hpid, hp, -⟩ := hs.submitter (.inr hmem)
    have hw : (s.pc r.pid).waits = true := by
      simp only [serial, hret, List.isEmpty_cons, Bool.false_eq_true, if_false, List.all_cons,
        Bool.and_eq_true] at hok
      exact hok.1
    obtain ⟨indexes, hsaved, hst⟩ := hp.waits hw
    rcases hsaved.done with ⟨-, e, -⟩ | ⟨ho, e, hdue⟩
    · cases e.symm.trans hret
    · exact .inr ⟨r.pid, indexes, hbusy, hpid, hw, hsaved.allocated, hsaved.saved, ho, e, hdue, hst⟩

theorem Spurious.pending (hs : s.Spurious) {acks : List Ack} {blk : VirtioBlk}
    (h : s.blk.pending = some (acks, blk)) : blk = s.blk := by
  obtain ⟨-, indexes, hsaved, -⟩ := VirtioBlk.pending_some h
  rw [hs.level.pending hsaved, VirtioBlk.release_free (hs.saved indexes hsaved)] at h
  cases h
  rfl

theorem Completed.pending {p : Pid} {indexes : List Nat} (hs : s.Completed p indexes) :
    ∃ acks, s.blk.pending = some (acks, (s.blk.setAck s.blk.queue.usedIdx).release indexes) :=
  hs.due.pending hs.saved

/-- the interrupt of a completed request leaves nothing under way -/
theorem Completed.quiet {p : Pid} {indexes : List Nat} (hs : s.Completed p indexes)
    (hb : s'.blk = (s.blk.setAck s.blk.queue.usedIdx).release indexes) (ho : s'.outstanding = s.outstanding)
    (hr : s'.returned = []) : s'.Quiet := by
  refine ⟨fun i => ?_, ?_, ho.trans hs.outstanding, hr⟩
  · rw [hb]
    exact hs.allocated.release _ i
  · rw [hb]
    obtain ⟨⟨n, -, hused⟩, -⟩ := hs.due
    exact ⟨n + 1, hused, hused⟩

/-! ## the steps -/

theorem Serial.spares (hs : Serial H sie s) {a : BlkAction} (hok : s.serial a = true) (h : Stepped H s a s') :
    s.Spares a := by
  refine ⟨?_, ?_⟩
  · rintro rfl
    cases h with
    | ioWait turn here h =>
      rw [(hs.mine (by rw [here]; rfl)).2.1]
      exact hs.not_queued fun r e => by cases here.symm.trans e
  · rintro rfl - hst
    rcases hs.interrupt hok with hsp | ⟨p, indexes, hc⟩
    · cases hsp.awake _ hst
    · rw [hc.pid, hc.state] at hst
      cases hst

theorem Serial.device (hs : Serial H sie s) {i len : Nat} {r : Submitted} (h : s.outstanding[i]? = some r)
    (hw : Waiting H sie s') (hb : s'.blk = s.blk.complete (r.indexes.headD 0) len)
    (ho : s'.outstanding = s.outstanding.eraseIdx i) (hr : s'.returned = s.returned ++ [r])
    (hbusy : s'.busy = s.busy) (hpc : s'.pc = s.pc) (hsys : s'.sys = s.sys) : Serial H sie s' := by
  obtain ⟨e, hpid, hp, hsent⟩ := hs.submitter (.inl (List.mem_of_getElem? h))
  have hone : s.outstanding = [r] ∧ s.returned = [] ∧ s.blk.Level := by
    rcases hsent.done with hd | ⟨hd, -⟩
    · exact hd
    · rw [hd] at h
      cases h
  obtain ⟨hout, hret, hlevel⟩ := hone
  obtain rfl : i = 0 := by
    rw [hout] at h
    have := (List.getElem?_eq_some_iff.mp h).1
    simpa using this
  obtain ⟨hall, hdue⟩ := hsent.allocated.complete hlevel len
  have hsent' : s'.Sent r.pid r.indexes := by
    refine ⟨hb ▸ hall, .inr ⟨?_, ?_, hb ▸ hdue⟩⟩
    · rw [ho, hout]
      rfl
    · rw [hr, hret]
      rfl
  have hsaved : ∀ {indexes}, s.Saved r.pid indexes → s'.Saved r.pid indexes := by
    intro indexes h
    obtain rfl := hsent.unique h.toSent
    exact ⟨hsent', hb ▸ h.saved⟩
  refine ⟨hw, fun q hq => hpc ▸ hs.outer q (hbusy ▸ hq), .inr ⟨r.pid, hbusy.trans e, ?_, ?_⟩⟩
  · rw [hb]
    exact hpid
  · rw [hpc]
    cases hat : s.pc r.pid with
    | idle => rw [hat] at hp; exact hp.elim
    | entering r => rw [hat] at hp; exact hp.elim
    | taken r' =>
      rw [hat] at hp
      cases (Quiet.outstanding hp).symm.trans hout
    | built indexes =>
      rw [hat] at hp
      cases (Built.outstanding hp).symm.trans hout
    | left indexes =>
      rw [hat] at hp
      cases (Built.outstanding hp).symm.trans hout
    | published indexes =>
      rw [hat] at hp
      obtain rfl := hsent.unique hp
      exact hsent'
    | saved indexes => rw [hat] at hp; exact hsaved hp
    | blocked indexes => rw [hat] at hp; exact ⟨hsaved hp.1, hsys ▸ hp.2⟩
    | sleeping indexes => rw [hat] at hp; exact ⟨hsaved hp.1, hsys ▸ hp.2⟩

theorem Serial.pending (hs : Serial H sie s) (hok : s.serial .pending = true) {acks : List Ack} {blk : VirtioBlk}
    (hp : s.blk.pending = some (acks, blk)) (h : s.call H (some (.ioSignal blk.pid)) = some s'.sys)
    (hw : Waiting H sie s') (hb : s'.blk = blk) (ho : s'.outstanding = s.outstanding) (hr : s'.returned = [])
    (hbusy : s'.busy = s.busy.filter fun p => !(s.returned.map Submitted.pid).contains p) (hpc : s'.pc = s.pc) :
    Serial H sie s' := by
  rcases hs.interrupt hok with hsp | ⟨p, indexes, hc⟩
  · obtain rfl := hsp.pending hp
    have hbusy : s'.busy = s.busy := by
      rw [hbusy, hsp.returned]
      simp
    refine hs.still hw hb ho (hr.trans hsp.returned.symm) hbusy (fun q hq => hpc ▸ hs.outer q hq)
      (fun p _ => congrFun hpc p) fun p _ hst => ?_
    refine (Reachable.ioSignal_step hs.reach h).2 p _ ?_ hst rfl
    rintro rfl
    cases hsp.awake _ hst
  · obtain ⟨acks', hp'⟩ := hc.pending
    cases hp.symm.trans hp'
    have hbusy : s'.busy = [] := by
      rw [hbusy, hc.busy, hc.returned]
      simp
    refine ⟨hw, fun q _ => ?_, .inl ⟨hbusy, hc.quiet hb ho hr⟩⟩
    rw [hpc]
    by_cases e : q ∈ s.busy
    · -- the process that was served is after its `io_wait`
      rw [hc.busy] at e
      obtain rfl := List.mem_singleton.mp e
      have := hc.waits
      cases hat : s.pc q with
      | blocked indexes => rfl
      | sleeping indexes => rfl
      | _ => rw [hat] at this; cases this
    · exact hs.outer q e

theorem goto_outer (hs : Serial H sie s) {pc : BlkPc} (h : pc.outer = true) (q : Pid) (hq : q ∉ s.busy) :
    ((s.goto pc).pc q).outer = true := by
  rw [goto_pc]
  split
  · exact h
  · exact hs.outer q hq

theorem goto_busy (pc : BlkPc) (h : s.me ∉ s.busy) (p : Pid) (hp : s.busy = [p]) :
    (s.goto pc).pc p = s.pc p := by
  rw [goto_pc, if_neg]
  rintro rfl
  rw [hp] at h
  exact h List.mem_cons_self

theorem Serial.step (hs : Serial H sie s) {a : BlkAction} (hok : s.serial a = true) (h : Stepped H s a s') :
    Serial H sie s' := by
  have hw := hs.toWaiting.step (hs.spares hok h) h
  have hasleep : a ≠ .ioWait → a ≠ .pending → ∀ p, (s.pc p).waits = true → s.sys.st.stateOf p = some .ioWait →
      s'.sys.st.stateOf p = some .ioWait := fun h1 h2 _ hwaits hst => hs.asleep h h1 h2 hwaits hst
  cases h with
  | new turn hsid h => exact hs.still hw rfl rfl rfl rfl hs.outer (fun _ _ => rfl) (hasleep nofun nofun)
  | enter turn here hsid h =>
    have hme : s.me ∉ s.busy := by
      intro hm
      obtain ⟨-, -, hp⟩ := hs.holder hm
      have hat : s.pc s.me = .idle := here
      rw [hat] at hp
      exact hp
    exact hs.still hw rfl rfl rfl rfl (goto_outer hs rfl) (goto_busy _ hme) (hasleep nofun nofun)
  | take turn runs here =>
    have hbusy : s.busy = [] := List.isEmpty_iff.mp hok
    rcases hs.phase with ⟨-, hq⟩ | ⟨p, e, -⟩
    · refine ⟨hw, fun q hq => ?_, .inr ⟨s.me, ?_, rfl, ?_⟩⟩
      · have hne : q ≠ s.me := fun e => hq (e ▸ List.mem_cons_self)
        show ((s.goto _).pc q).outer = true
        rw [goto_pc, if_neg hne]
        exact hs.outer q (by rw [hbusy]; exact List.not_mem_nil)
      · show s.me :: s.busy = _
        rw [hbusy]
      · show Phase _ s.me ((s.goto _).pc s.me)
        rw [goto_pc, if_pos rfl]
        exact ⟨hq.free, hq.level, hq.outstanding, hq.returned⟩
    · cases hbusy.symm.trans e
  | build turn here h =>
    obtain ⟨hm, hpid, hp⟩ := hs.mine (by rw [here]; rfl)
    rw [here] at hp
    exact hs.advance hw hm rfl ((VirtioBlk.prepare_pid h).trans hpid) rfl
      ⟨VirtioBlk.prepare_allocated hp.free h, VirtioBlk.prepare_level hp.level h, hp.outstanding, hp.returned⟩
  | leave turn here hsid h =>
    obtain ⟨hm, hpid, hp⟩ := hs.mine (by rw [here]; rfl)
    rw [here] at hp
    exact hs.advance hw hm rfl hpid rfl ⟨hp.allocated, hp.level, hp.outstanding, hp.returned⟩
  | publish turn here =>
    obtain ⟨hm, hpid, hp⟩ := hs.mine (by rw [here]; rfl)
    rw [here] at hp
    obtain ⟨⟨hfree, r, i₀, i₁, i₂, e, hlaid⟩, hlevel, ho, hr⟩ := hp
    refine hs.advance hw hm rfl hpid rfl ⟨⟨hfree, r, i₀, i₁, i₂, e, ?_⟩, .inl ⟨?_, hr, hlevel⟩⟩
    · exact ⟨hlaid.nodup, hlaid.header, hlaid.data, hlaid.status⟩
    · show s.outstanding ++ [_] = _
      rw [ho]
      rfl
  | save turn here =>
    obtain ⟨hm, hpid, hp⟩ := hs.mine (by rw [here]; rfl)
    rw [here] at hp
    obtain ⟨⟨hfree, r, i₀, i₁, i₂, e, hlaid⟩, hdone⟩ := hp
    refine hs.advance hw hm rfl hpid rfl ⟨⟨⟨hfree, r, i₀, i₁, i₂, e, ?_⟩, hdone⟩, rfl⟩
    exact ⟨hlaid.nodup, hlaid.header, hlaid.data, hlaid.status⟩
  | ioWait turn here h =>
    obtain ⟨hm, hpid, hp⟩ := hs.mine (by rw [here]; rfl)
    rw [here] at hp
    rw [hpid] at h
    have hst := (ioWait_step (Reachable.kept hs.reach).inv.1.running h).1
    refine hs.advance hw hm rfl hpid rfl ⟨⟨⟨hp.allocated, hp.done⟩, hp.saved⟩, hst⟩
  | @schedule indexes sys turn here h =>
    by_cases hme : s.me ∈ s.busy
    · obtain ⟨hm, hpid, hp⟩ := hs.holder hme
      have hat : s.pc s.me = .blocked indexes := here
      rw [hat] at hp
      have hst := hasleep nofun nofun s.me (by rw [hat]; rfl) hp.2
      exact hs.advance hw hm rfl hpid rfl ⟨⟨⟨hp.1.allocated, hp.1.done⟩, hp.1.saved⟩, hst⟩
    · exact hs.still hw rfl rfl rfl rfl (goto_outer hs rfl) (goto_busy _ hme) (hasleep nofun nofun)
  | ret turn runs here =>
    have hme : s.me ∉ s.busy := by
      intro hm
      obtain ⟨-, -, hp⟩ := hs.holder hm
      have hat : s.pc s.me = .sleeping _ := here
      rw [hat] at hp
      cases hp.2.symm.trans runs
    exact hs.still hw rfl rfl rfl rfl (goto_outer hs rfl) (goto_busy _ hme) (hasleep nofun nofun)
  | device h => exact hs.device h hw rfl rfl rfl rfl rfl rfl
  | pending turn hsid hp h => exact hs.pending hok hp h hw rfl rfl rfl rfl rfl
  | signal owed hsid h => exact hs.still hw rfl rfl rfl rfl hs.outer (fun _ _ => rfl) (hasleep nofun nofun)
  | kernel ok h => exact hs.still hw rfl rfl rfl rfl hs.outer (fun _ _ => rfl) (hasleep nofun nofun)

/-! ## requests and completions -/

/-- the request under way is that of the process that has the driver -/
theorem Serial.underway (hs : Serial H sie s) {p : Pid} {indexes : List Nat} (h : s.Underway p indexes) :
    s.busy = [p] ∧ s.blk.Allocated indexes := by
  rcases h with h | h | h
  · obtain ⟨e, -, hp⟩ := hs.inner (q := p) (by rw [h]; rfl)
    rw [h] at hp
    exact ⟨e, hp.allocated⟩
  · obtain ⟨e, -, hp⟩ := hs.inner (q := p) (by rw [h]; rfl)
    rw [h] at hp
    exact ⟨e, hp.allocated⟩
  · obtain ⟨e, -, -, hsent⟩ := hs.submitter (.inl h)
    exact ⟨e, hsent.allocated⟩

theorem Serial.safe (hs : Serial H sie s) : s.Safe := by
  refine ⟨fun p indexes h i hi => ?_, fun p q indexes indexes' h h' hne => ?_, fun hr hok => ?_⟩
  · rw [(hs.underway h).2.free]
    simp [hi]
  · have e := (hs.underway h).1.symm.trans (hs.underway h').1
    exact absurd (List.singleton_inj.mp e) hne
  · rcases hs.interrupt hok with hsp | ⟨p, indexes, hc⟩
    · exact absurd hsp.returned hr
    · obtain ⟨acks, h⟩ := hc.pending
      rw [h]
      rfl

/-- the interrupt is for the request that is completed -/
theorem Serial.matched_pending (hs : Serial H sie s) (hok : s.serial .pending = true)
    (h : Stepped H s .pending s') : s.Matched .pending s' := by
  cases h with
  | @pending acks blk sys turn hsid hp h =>
    obtain ⟨hwake, hother⟩ := Reachable.ioSignal_step hs.reach h
    rcases hs.interrupt hok with hsp | ⟨p, indexes, hc⟩
    · obtain rfl := hsp.pending hp
      have hnone : ∀ {Q : Submitted → Prop}, ¬ ∃ r ∈ s.returned, Q r := by
        intro Q ⟨r, hr, _⟩
        rw [hsp.returned] at hr
        exact List.not_mem_nil hr
      refine ⟨fun _ r hr => absurd ⟨r, hr, trivial⟩ (hnone (Q := fun _ => True)), fun _ i => ?_,
        fun _ q st hst hb => ?_, nofun⟩
      · exact (or_iff_left hnone).symm
      · have hne : q ≠ s.blk.pid := by
          rintro rfl
          cases hb.symm.trans (hsp.awake st hst)
        exact iff_of_false (not_runnable_of_blocked hb (hother q st hne hst hb)) hnone
    · obtain ⟨acks', hp'⟩ := hc.pending
      cases hp.symm.trans hp'
      obtain ⟨r, i₀, i₁, i₂, rfl, hlaid⟩ := hc.allocated.laid
      have hret : ∀ {Q : Submitted → Prop}, (∃ r ∈ s.returned, Q r) ↔ Q ⟨p, [i₀, i₁, i₂]⟩ := by
        intro Q
        rw [hc.returned]
        simp
      refine ⟨fun _ r hr => ?_, fun _ i => ?_, fun _ q st hst hb => ?_, nofun⟩
      · rw [hc.returned] at hr
        obtain rfl := List.mem_singleton.mp hr
        refine ⟨rfl, hlaid.nodup, fun i hi => ?_⟩
        rw [hc.allocated.free, decide_eq_true hi]
        rfl
      · rw [hret]
        refine iff_of_true (hc.allocated.release _ i) ?_
        rw [hc.allocated.free]
        by_cases hi : i ∈ [i₀, i₁, i₂]
        · exact .inr hi
        · exact .inl (by simp only [decide_eq_false hi, Bool.not_false])
      · rw [hret]
        by_cases e : q = p
        · subst e
          have hpid : ((s.blk.setAck s.blk.queue.usedIdx).release [i₀, i₁, i₂]).pid = q := hc.pid
          rw [hpid] at hwake
          exact iff_of_true (hwake st hst hb) rfl
        · have hne : q ≠ ((s.blk.setAck s.blk.queue.usedIdx).release [i₀, i₁, i₂]).pid := fun e' =>
            e (e'.trans hc.pid)
          exact iff_of_false (not_runnable_of_blocked hb (hother q st hne hst hb)) (Ne.symm e)

/-- who returns has no request under way -/
theorem Serial.matched_ret (hs : Serial H sie s) (h : Stepped H s .ret s') : s.Matched .ret s' := by
  cases h with
  | @ret indexes turn runs here =>
    refine ⟨nofun, nofun, nofun, fun _ indexes' hu => ?_⟩
    have hme : s.me ∈ s.busy := by
      rw [(hs.underway hu).1]
      exact List.mem_cons_self
    obtain ⟨-, -, hp⟩ := hs.holder hme
    have hat : s.pc s.me = .sleeping indexes := here
    rw [hat] at hp
    cases hp.2.symm.trans runs

/-- **Requests and completions are matched**, in a run in which the requests come one after the other and the
interrupts when they are expected. -/
theorem requests_matched (H : Heap) (sie : Bool) (statusAddr : Nat) (headers : Nat → VirtioBlkRequest)
    (actions : List BlkAction) (s : BlkRun)
    (hok : Throughout (BlkRun.step H) (fun s a => s.serial a = true) actions (init H sie statusAddr headers))
    (hrun : run (BlkRun.step H) actions (init H sie statusAddr headers) = some s) :
    s.Safe ∧ ∀ a s', s.serial a = true → BlkRun.step H a s = some s' → s.Matched a s' := by
  have hs := invariant _ (Serial H sie) (fun _ _ _ hs hok h => hs.step hok (step_cases h)) actions
    (serial_init statusAddr headers) hok hrun
  refine ⟨hs.safe, fun a s' hok h => ?_⟩
  cases a with
  | pending => exact hs.matched_pending hok (step_cases h)
  | ret => exact hs.matched_ret (step_cases h)
  | _ => exact ⟨nofun, nofun, nofun, nofun⟩

/-- a process submits a request, and the device completes it -/
def completed : List BlkAction :=
  [.kernel (some (.createKernelProcess 1)), .kernel (some (.ready 1)), .new, .enter firstSector, .take, .build,
    .leave, .publish, .save, .ioWait, .schedule, .kernel none, .device 0 513]

theorem requests_matched_example : ∃ s s',
    run (BlkRun.step (BinaryHeap.scan _)) completed (init (BinaryHeap.scan _) true 0x3000 fun _ => ⟨0, 0⟩) = some s ∧
      s.returned = [⟨1, [0, 1, 2]⟩] ∧ BlkRun.step (BinaryHeap.scan _) .pending s = some s' ∧ s.Safe ∧
      s.Matched .pending s' := by
  have h : (run (BlkRun.step (BinaryHeap.scan _)) completed
      (init (BinaryHeap.scan _) true 0x3000 fun _ => ⟨0, 0⟩)).any (fun s => s.serial .pending &&
        s.returned == [⟨1, [0, 1, 2]⟩] && (BlkRun.step (BinaryHeap.scan _) .pending s).isSome) = true := by
    decide +kernel
  obtain ⟨s, hs, h⟩ := (Option.any_eq_true _ _).mp h
  simp only [Bool.and_eq_true, beq_iff_eq] at h
  obtain ⟨⟨hok, hret⟩, h⟩ := h
  obtain ⟨s', hs'⟩ := Option.isSome_iff_exists.mp h
  obtain ⟨hsafe, hmatched⟩ := requests_matched _ true 0x3000 _ completed s (by decide +kernel) hs
  exact ⟨s, s', hs, hret, hs', hsafe, hmatched .pending s' hok hs'⟩

/-- two processes submit a request each, and the device completes the first one -/
def twoRequests : List BlkAction :=
  [.kernel (some (.createKernelProcess 1)), .kernel (some (.createKernelProcess 2)), .kernel (some (.ready 1)), .new,
    .enter firstSector, .take, .build, .leave, .publish, .save, .ioWait, .schedule, .kernel none,
    .kernel (some (.ready 2)), .enter firstSector, .take, .build, .leave, .publish, .save, .ioWait, .schedule,
    .kernel none, .device 0 513]

/-- The interrupt frees the descriptors of the second request and wakes its process, which returns. -/
theorem wrong_request : ∃ s s' t t',
    run (BlkRun.step (BinaryHeap.scan _)) twoRequests (init (BinaryHeap.scan _) true 0x3000 fun _ => ⟨0, 0⟩) = some s ∧
      BlkRun.step (BinaryHeap.scan _) .pending s = some s' ∧
      BlkRun.step (BinaryHeap.scan _) (.kernel none) s' = some t ∧ BlkRun.step (BinaryHeap.scan _) .ret t = some t' ∧
      ¬ s'.Safe ∧ ¬ s.Matched .pending s' ∧ ¬ t.Matched .ret t' := by
  have h : (run (BlkRun.step (BinaryHeap.scan _)) twoRequests
      (init (BinaryHeap.scan _) true 0x3000 fun _ => ⟨0, 0⟩)).any (fun s => s.returned == [⟨1, [0, 1, 2]⟩] &&
        s.sys.st.stateOf 1 == some .ioWait && (BlkRun.step (BinaryHeap.scan _) .pending s).any fun s' =>
          s'.outstanding == [⟨2, [3, 4, 5]⟩] && s'.blk.freeDesc 3 && s'.sys.st.stateOf 1 == some .ioWait &&
          (BlkRun.step (BinaryHeap.scan _) (.kernel none) s').any fun t => t.me == 2 &&
            t.outstanding == [⟨2, [3, 4, 5]⟩] && (BlkRun.step (BinaryHeap.scan _) .ret t).isSome) = true := by
    decide +kernel
  obtain ⟨s, hs, h⟩ := (Option.any_eq_true _ _).mp h
  simp only [Bool.and_eq_true, beq_iff_eq] at h
  obtain ⟨⟨hret, hst⟩, h⟩ := h
  obtain ⟨s', hs', h⟩ := (Option.any_eq_true _ _).mp h
  simp only [Bool.and_eq_true, beq_iff_eq] at h
  obtain ⟨⟨⟨hout, hfree⟩, hst'⟩, h⟩ := h
  obtain ⟨t, ht, h⟩ := (Option.any_eq_true _ _).mp h
  simp only [Bool.and_eq_true, beq_iff_eq] at h
  obtain ⟨⟨hme, hout'⟩, h⟩ := h
  obtain ⟨t', ht'⟩ := Option.isSome_iff_exists.mp h
  refine ⟨s, s', t, t', hs, hs', ht, ht', fun hsafe => ?_, fun hm => ?_, fun hm => ?_⟩
  · have hunder : s'.Underway 2 [3, 4, 5] := .inr (.inr (by rw [hout]; exact List.mem_cons_self))
    have := hsafe.used 2 [3, 4, 5] hunder 3 List.mem_cons_self
    cases this.symm.trans hfree
  · have hrun := (hm.woken rfl 1 .ioWait hst rfl).mpr ⟨⟨1, [0, 1, 2]⟩, by rw [hret]; exact List.mem_cons_self, rfl⟩
    exact not_runnable_of_blocked rfl hst' hrun
  · refine hm.returns rfl [3, 4, 5] (.inr (.inr ?_))
    rw [hout', hme]
    exact List.mem_cons_self

end BlkRun

end Citron.Virtio
