import Citron.Virtio.Blk
import Citron.Process.States
import Citron.Process.Semaphore
import Citron.Process.Waiters
import Citron.Lib.Trace

/-!
# Processes and the block driver

Any number of processes in `block_op`, with the device and its interrupts, over the whole kernel.  `pending` is
called by whoever has the processor; after its `io_signal` that process may lose the processor, and its
`signal_semaphore` comes when it has it again.  A process goes on after a wait only when it is `Running`.  The
rest of the kernel leaves the driver's semaphore and the processes in `block_op` alone.

* `step`           the steps of `block_op`, of the device, of `pending` and of the rest of the kernel;
* `Stepped`        the same, as a relation.
-/

namespace Citron.Virtio
open Resumption

/-- a process in `block_op`: before it, in `wait_semaphore`, after `self.pid = pm.running`, after the third
descriptor, after `signal_semaphore`, after the available ring, after `self.desc_indexes = ..`, after `io_wait`, in
`schedule` -/
inductive BlkPc where
  | idle
  | entering (r : Request)
  | taken (r : Request)
  | built (indexes : List Nat)
  | left (indexes : List Nat)
  | published (indexes : List Nat)
  | saved (indexes : List Nat)
  | blocked (indexes : List Nat)
  | sleeping (indexes : List Nat)
deriving DecidableEq, Repr

/-- a request in the available ring -/
structure Submitted where
  pid : Pid
  indexes : List Nat
deriving DecidableEq, Repr

/-- the kernel, the driver with its semaphore, the places of the processes, and which of them have still to do
the `signal_semaphore` of a `pending`.  Then what has happened: the requests the device has, those it completed
since the last `pending`, the processes that took the driver and were not served, those that did a
`wait_semaphore` and not the `signal_semaphore` after it, and the numbers of calls of `pending` and of their
signals. -/
structure BlkRun where
  sys : Sys ProcessManager ProcessError
  sid : Option Sid
  blk : VirtioBlk
  pc : Pid → BlkPc
  owed : Pid → Bool
  outstanding : List Submitted
  returned : List Submitted
  busy : List Pid
  holders : List Pid
  calls : Nat
  signals : Nat

inductive BlkAction where
  | new
  | enter (r : Request)
  | take
  | build
  | leave
  | publish
  | save
  | ioWait
  | schedule
  | ret
  | device (i len : Nat)
  | pending
  | signal
  | kernel (l : Option Op)

namespace BlkRun

def me (s : BlkRun) : Pid := s.sys.st.running

/-- the place of the process that has the processor -/
def here (s : BlkRun) : BlkPc := s.pc s.me

def goto (s : BlkRun) (pc : BlkPc) : BlkRun := { s with pc := Function.update s.pc s.me pc }

def withSys (s : BlkRun) (sys : Sys ProcessManager ProcessError) : BlkRun := { s with sys }

def withBlk (s : BlkRun) (blk : VirtioBlk) : BlkRun := { s with blk }

/-- the process that has the processor is neither in a call of the kernel nor in `pending` -/
def turn (s : BlkRun) : Bool := (s.sys.susp s.me).isNone && !s.owed s.me

def runs (s : BlkRun) : Bool := s.sys.st.stateOf s.me == some .running

/-- what the rest of the kernel may call -/
def outside (s : BlkRun) : Option Op → Bool
  | none => true
  | some .schedule => s.turn
  | some .wakeup => s.turn
  | some (.createProcess _ _) => s.turn
  | some (.createKernelProcess _) => s.turn
  | some (.createSemaphore count) => s.turn && decide (0 ≤ count)
  | some (.ready pid) => s.turn && s.pc pid == .idle
  | some (.sleep pid _) => s.turn && s.pc pid == .idle
  | _ => false

def call (H : Heap) (s : BlkRun) (l : Option Op) : Option (Sys ProcessManager ProcessError) :=
  s.sys.step ProcessManager.running (Op.run H) l

end BlkRun

def VirtioBlk.setPid (b : VirtioBlk) (pid : Pid) : VirtioBlk := { b with pid }
def VirtioBlk.publish (b : VirtioBlk) (indexes : List Nat) : VirtioBlk :=
  { b with queue := b.queue.makeAvail (indexes.headD 0) }
def VirtioBlk.save (b : VirtioBlk) (indexes : List Nat) : VirtioBlk := { b with descIndexes := some indexes }

/-- the two halves of `submit` -/
theorem VirtioBlk.save_publish (b : VirtioBlk) (indexes : List Nat) :
    (b.publish indexes).save indexes = b.submit indexes := rfl

namespace BlkRun
variable (H : Heap)

def step : BlkAction → BlkRun → Option BlkRun
  | .new, s =>
    if s.turn && s.sid.isNone then
      (s.call H (some (.createSemaphore 1))).map fun sys => { s.withSys sys with sid := some s.sys.st.currSid }
    else none
  | .enter r, s =>
    if s.turn && s.here == .idle then
      s.sid.bind fun sid => (s.call H (some (.waitSemaphore sid))).map fun sys =>
        { (s.goto (.entering r)).withSys sys with holders := s.me :: s.holders }
    else none
  | .take, s =>
    if s.turn && s.runs then
      match s.here with
      | .entering r => some { (s.goto (.taken r)).withBlk (s.blk.setPid s.me) with busy := s.me :: s.busy }
      | _ => none
    else none
  | .build, s =>
    if s.turn then
      match s.here with
      | .taken r => (s.blk.prepare r).map fun (indexes, blk) => (s.goto (.built indexes)).withBlk blk
      | _ => none
    else none
  | .leave, s =>
    if s.turn then
      match s.here with
      | .built indexes =>
        s.sid.bind fun sid => (s.call H (some (.signalSemaphore sid))).map fun sys =>
          { (s.goto (.left indexes)).withSys sys with holders := s.holders.erase s.me }
      | _ => none
    else none
  | .publish, s =>
    if s.turn then
      match s.here with
      | .left indexes =>
        some { (s.goto (.published indexes)).withBlk (s.blk.publish indexes) with
          outstanding := s.outstanding ++ [⟨s.me, indexes⟩] }
      | _ => none
    else none
  | .save, s =>
    if s.turn then
      match s.here with
      | .published indexes => some ((s.goto (.saved indexes)).withBlk (s.blk.save indexes))
      | _ => none
    else none
  | .ioWait, s =>
    if s.turn then
      match s.here with
      | .saved indexes => (s.call H (some (.ioWait s.blk.pid))).map (s.goto (.blocked indexes)).withSys
      | _ => none
    else none
  | .schedule, s =>
    if s.turn then
      match s.here with
      | .blocked indexes => (s.call H (some .schedule)).map (s.goto (.sleeping indexes)).withSys
      | _ => none
    else none
  | .ret, s =>
    if s.turn && s.runs then
      match s.here with
      | .sleeping _ => some (s.goto .idle)
      | _ => none
    else none
  | .device i len, s =>
    s.outstanding[i]?.map fun r =>
      { s.withBlk (s.blk.complete (r.indexes.headD 0) len) with
        outstanding := s.outstanding.eraseIdx i, returned := s.returned ++ [r] }
  | .pending, s =>
    if s.turn && s.sid.isSome then
      s.blk.pending.bind fun (_, blk) => (s.call H (some (.ioSignal blk.pid))).map fun sys =>
        { (s.withSys sys).withBlk blk with
          owed := Function.update s.owed s.me true
          returned := []
          busy := s.busy.filter fun p => !(s.returned.map Submitted.pid).contains p
          calls := s.calls + 1 }
    else none
  | .signal, s =>
    if s.owed s.me then
      s.sid.bind fun sid => (s.call H (some (.signalSemaphore sid))).map fun sys =>
        { s.withSys sys with owed := Function.update s.owed s.me false, signals := s.signals + 1 }
    else none
  | .kernel l, s => if s.outside l then (s.call H l).map s.withSys else none

/-- the kernel and the driver before `VirtioBlk::new` -/
def init (sie : Bool) (statusAddr : Nat) (headers : Nat → VirtioBlkRequest) : BlkRun :=
  ⟨⟨ProcessManager.booted H sie, fun _ => none⟩, none, .new statusAddr headers, fun _ => .idle, fun _ => false,
    [], [], [], [], 0, 0⟩

/-! ## the steps as a relation -/

variable {H}

inductive Stepped (H : Heap) (s : BlkRun) : BlkAction → BlkRun → Prop where
  | new {sys : Sys ProcessManager ProcessError} (turn : s.turn = true) (hsid : s.sid = none)
      (h : s.call H (some (.createSemaphore 1)) = some sys) :
      Stepped H s .new { s.withSys sys with sid := some s.sys.st.currSid }
  | enter {r : Request} {sid : Sid} {sys : Sys ProcessManager ProcessError} (turn : s.turn = true)
      (here : s.here = .idle) (hsid : s.sid = some sid) (h : s.call H (some (.waitSemaphore sid)) = some sys) :
      Stepped H s (.enter r) { (s.goto (.entering r)).withSys sys with holders := s.me :: s.holders }
  | take {r : Request} (turn : s.turn = true) (runs : s.sys.st.stateOf s.me = some .running)
      (here : s.here = .entering r) :
      Stepped H s .take { (s.goto (.taken r)).withBlk (s.blk.setPid s.me) with busy := s.me :: s.busy }
  | build {r : Request} {indexes : List Nat} {blk : VirtioBlk} (turn : s.turn = true) (here : s.here = .taken r)
      (h : s.blk.prepare r = some (indexes, blk)) : Stepped H s .build ((s.goto (.built indexes)).withBlk blk)
  | leave {indexes : List Nat} {sid : Sid} {sys : Sys ProcessManager ProcessError} (turn : s.turn = true)
      (here : s.here = .built indexes) (hsid : s.sid = some sid)
      (h : s.call H (some (.signalSemaphore sid)) = some sys) :
      Stepped H s .leave { (s.goto (.left indexes)).withSys sys with holders := s.holders.erase s.me }
  | publish {indexes : List Nat} (turn : s.turn = true) (here : s.here = .left indexes) :
      Stepped H s .publish { (s.goto (.published indexes)).withBlk (s.blk.publish indexes) with
        outstanding := s.outstanding ++ [⟨s.me, indexes⟩] }
  | save {indexes : List Nat} (turn : s.turn = true) (here : s.here = .published indexes) :
      Stepped H s .save ((s.goto (.saved indexes)).withBlk (s.blk.save indexes))
  | ioWait {indexes : List Nat} {sys : Sys ProcessManager ProcessError} (turn : s.turn = true)
      (here : s.here = .saved indexes) (h : s.call H (some (.ioWait s.blk.pid)) = some sys) :
      Stepped H s .ioWait ((s.goto (.blocked indexes)).withSys sys)
  | schedule {indexes : List Nat} {sys : Sys ProcessManager ProcessError} (turn : s.turn = true)
      (here : s.here = .blocked indexes) (h : s.call H (some .schedule) = some sys) :
      Stepped H s .schedule ((s.goto (.sleeping indexes)).withSys sys)
  | ret {indexes : List Nat} (turn : s.turn = true) (runs : s.sys.st.stateOf s.me = some .running)
      (here : s.here = .sleeping indexes) : Stepped H s .ret (s.goto .idle)
  | device {i len : Nat} {r : Submitted} (h : s.outstanding[i]? = some r) :
      Stepped H s (.device i len) { s.withBlk (s.blk.complete (r.indexes.headD 0) len) with
        outstanding := s.outstanding.eraseIdx i, returned := s.returned ++ [r] }
  | pending {acks : List Ack} {blk : VirtioBlk} {sys : Sys ProcessManager ProcessError} (turn : s.turn = true)
      (hsid : s.sid.isSome) (hp : s.blk.pending = some (acks, blk))
      (h : s.call H (some (.ioSignal blk.pid)) = some sys) :
      Stepped H s .pending { (s.withSys sys).withBlk blk with
        owed := Function.update s.owed s.me true
        returned := []
        busy := s.busy.filter fun p => !(s.returned.map Submitted.pid).contains p
        calls := s.calls + 1 }
  | signal {sid : Sid} {sys : Sys ProcessManager ProcessError} (owed : s.owed s.me = true) (hsid : s.sid = some sid)
      (h : s.call H (some (.signalSemaphore sid)) = some sys) :
      Stepped H s .signal { s.withSys sys with owed := Function.update s.owed s.me false, signals := s.signals + 1 }
  | kernel {l : Option Op} {sys : Sys ProcessManager ProcessError} (ok : s.outside l = true)
      (h : s.call H l = some sys) : Stepped H s (.kernel l) (s.withSys sys)

theorem step_cases {a : BlkAction} {s s' : BlkRun} (h : step H a s = some s') : Stepped H s a s' := by
  cases a with
  | new =>
    simp only [step] at h
    split at h
    · rename_i hg
      obtain ⟨hturn, hsid⟩ := Bool.and_eq_true_iff.mp hg
      obtain ⟨sys, hsys, rfl⟩ := Option.map_eq_some_iff.mp h
      exact .new hturn (Option.isNone_iff_eq_none.mp hsid) hsys
    · cases h
  | enter r =>
    simp only [step] at h
    split at h
    · rename_i hg
      obtain ⟨hturn, hhere⟩ := Bool.and_eq_true_iff.mp hg
      obtain ⟨sid, hsid, h⟩ := Option.bind_eq_some_iff.mp h
      obtain ⟨sys, hsys, rfl⟩ := Option.map_eq_some_iff.mp h
      exact .enter hturn (beq_iff_eq.mp hhere) hsid hsys
    · cases h
  | take =>
    simp only [step] at h
    split at h
    · rename_i hg
      obtain ⟨hturn, hruns⟩ := Bool.and_eq_true_iff.mp hg
      split at h
      · rename_i r hhere
        cases h
        exact .take hturn (beq_iff_eq.mp hruns) hhere
      · cases h
    · cases h
  | build =>
    simp only [step] at h
    split at h
    · rename_i hturn
      split at h
      · rename_i r hhere
        obtain ⟨⟨indexes, blk⟩, hp, rfl⟩ := Option.map_eq_some_iff.mp h
        exact .build hturn hhere hp
      · cases h
    · cases h
  | leave =>
    simp only [step] at h
    split at h
    · rename_i hturn
      split at h
      · rename_i indexes hhere
        obtain ⟨sid, hsid, h⟩ := Option.bind_eq_some_iff.mp h
        obtain ⟨sys, hsys, rfl⟩ := Option.map_eq_some_iff.mp h
        exact .leave hturn hhere hsid hsys
      · cases h
    · cases h
  | publish =>
    simp only [step] at h
    split at h
    · rename_i hturn
      split at h
      · rename_i indexes hhere
        cases h
        exact .publish hturn hhere
      · cases h
    · cases h
  | save =>
    simp only [step] at h
    split at h
    · rename_i hturn
      split at h
      · rename_i indexes hhere
        cases h
        exact .save hturn hhere
      · cases h
    · cases h
  | ioWait =>
    simp only [step] at h
    split at h
    · rename_i hturn
      split at h
      · rename_i indexes hhere
        obtain ⟨sys, hsys, rfl⟩ := Option.map_eq_some_iff.mp h
        exact .ioWait hturn hhere hsys
      · cases h
    · cases h
  | schedule =>
    simp only [step] at h
    split at h
    · rename_i hturn
      split at h
      · rename_i indexes hhere
        obtain ⟨sys, hsys, rfl⟩ := Option.map_eq_some_iff.mp h
        exact .schedule hturn hhere hsys
      · cases h
    · cases h
  | ret =>
    simp only [step] at h
    split at h
    · rename_i hg
      obtain ⟨hturn, hruns⟩ := Bool.and_eq_true_iff.mp hg
      split at h
      · rename_i indexes hhere
        cases h
        exact .ret hturn (beq_iff_eq.mp hruns) hhere
      · cases h
    · cases h
  | device i len =>
    obtain ⟨r, hr, rfl⟩ := Option.map_eq_some_iff.mp h
    exact .device hr
  | pending =>
    simp only [step] at h
    split at h
    · rename_i hg
      obtain ⟨hturn, hsid⟩ := Bool.and_eq_true_iff.mp hg
      obtain ⟨⟨acks, blk⟩, hp, h⟩ := Option.bind_eq_some_iff.mp h
      obtain ⟨sys, hsys, rfl⟩ := Option.map_eq_some_iff.mp h
      exact .pending hturn hsid hp hsys
    · cases h
  | signal =>
    simp only [step] at h
    split at h
    · rename_i howed
      obtain ⟨sid, hsid, h⟩ := Option.bind_eq_some_iff.mp h
      obtain ⟨sys, hsys, rfl⟩ := Option.map_eq_some_iff.mp h
      exact .signal howed hsid hsys
    · cases h
  | kernel l =>
    simp only [step] at h
    split at h
    · rename_i hok
      obtain ⟨sys, hsys, rfl⟩ := Option.map_eq_some_iff.mp h
      exact .kernel hok hsys
    · cases h

/-! ## the calls of the kernel -/

/-- the step of the kernel that the action makes -/
def label (s : BlkRun) : BlkAction → Option (Option Op)
  | .new => some (some (.createSemaphore 1))
  | .enter _ => s.sid.map fun sid => some (.waitSemaphore sid)
  | .leave => s.sid.map fun sid => some (.signalSemaphore sid)
  | .ioWait => some (some (.ioWait s.blk.pid))
  | .schedule => some (some .schedule)
  | .pending => some (some (.ioSignal s.blk.pid))
  | .signal => s.sid.map fun sid => some (.signalSemaphore sid)
  | .kernel l => some l
  | _ => none

theorem Stepped.sys_cases {a : BlkAction} {s s' : BlkRun} (h : Stepped H s a s') :
    s.label a = none ∧ s'.sys = s.sys ∨ ∃ l, s.label a = some l ∧ s.call H l = some s'.sys := by
  cases h with
  | new turn hsid h => exact .inr ⟨_, rfl, h⟩
  | enter turn here hsid h => exact .inr ⟨_, by simp [label, hsid], h⟩
  | leave turn here hsid h => exact .inr ⟨_, by simp [label, hsid], h⟩
  | ioWait turn here h => exact .inr ⟨_, rfl, h⟩
  | schedule turn here h => exact .inr ⟨_, rfl, h⟩
  | pending turn hsid hp h => exact .inr ⟨_, rfl, (VirtioBlk.pending_pid hp) ▸ h⟩
  | signal owed hsid h => exact .inr ⟨_, by simp [label, hsid], h⟩
  | kernel ok h => exact .inr ⟨_, rfl, h⟩
  | _ => exact .inl ⟨rfl, rfl⟩

/-- runs of the driver are runs of the kernel -/
theorem Stepped.reach {may : Op → ProcessManager → Prop} {sie : Bool} {a : BlkAction} {s s' : BlkRun}
    (h : Stepped H s a s') (hs : Reachable H may sie s.sys)
    (hmay : ∀ op, s.label a = some (some op) → may op s.sys.st) : Reachable H may sie s'.sys := by
  rcases h.sys_cases with ⟨-, e⟩ | ⟨l, hl, hcall⟩
  · rwa [e]
  · refine .step hs (fun op e => hmay op ?_) hcall
    rw [hl, e]

end BlkRun

end Citron.Virtio
