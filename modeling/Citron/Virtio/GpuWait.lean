import Citron.Process.States
import Citron.Lib.Trace

/-!
# The processes that wait for the GPU

What `init_display`, `send_desc` and `pending` of `src/arch/riscv64/virtio/virtio_gpu.rs` do to the processes,
over the whole kernel.  The device completes the commands in any order, `pending` is called by whoever has the
processor, and any operation of the kernel may come between two steps (the `signal_semaphore` at the end of
`pending` is one of those).

* `step`           the steps of the driver, of the device and of the rest of the kernel;
* `Own`            a command blocks its caller and nobody else, and its completion wakes its caller and nobody
                   else;
* `orderly`        the commands are of the process that called `init_display`, and the interrupt for a completed one
                   finds its caller in its `io_wait`;
* `wakes_caller`   with this every step is as it should be.
-/

namespace Citron.Gpu
open Resumption Trace

/-- a process in `send_desc`: not there, after the command was made available, after `io_wait` -/
inductive Sender where
  | idle
  | posted
  | waiting
deriving DecidableEq, Repr

/-- the kernel, the driver's `pid` (`none` before `init_display`), the places of the processes in `send_desc`, and
the callers of the commands: those the device has, and those it completed since the last `pending` -/
structure GpuRun where
  sys : Sys ProcessManager ProcessError
  pid : Option Pid
  sender : Pid → Sender
  outstanding : List Pid
  completed : List Pid

inductive GpuAction where
  | initDisplay
  | post
  | ioWait
  | schedule
  | complete (i : Nat)
  | pending
  | kernel (l : Option Op)

namespace GpuRun

/-- the place of the process that has the processor -/
def here (s : GpuRun) : Sender := s.sender s.sys.st.running

def goto (s : GpuRun) (pc : Sender) : GpuRun :=
  { s with sender := Function.update s.sender s.sys.st.running pc }

def withSys (s : GpuRun) (sys : Sys ProcessManager ProcessError) : GpuRun := { s with sys }

end GpuRun

section
variable (H : Heap)

/-- the process that has the processor calls an operation -/
def call (op : Op) (s : GpuRun) : Option (Sys ProcessManager ProcessError) :=
  s.sys.step ProcessManager.running (Op.run H) (some op)

def step : GpuAction → GpuRun → Option GpuRun
  | .initDisplay, s =>
    if s.pid.isNone && (s.sys.susp s.sys.st.running).isNone then some { s with pid := some s.sys.st.running } else none
  | .post, s =>
    if s.pid.isSome && s.here == .idle && (s.sys.susp s.sys.st.running).isNone then
      some { s.goto .posted with outstanding := s.outstanding ++ [s.sys.st.running] }
    else none
  | .ioWait, s =>
    if s.here == .posted then
      s.pid.bind fun pid => (call H (.ioWait pid) s).map (s.goto .waiting).withSys
    else none
  | .schedule, s => if s.here == .waiting then (call H .schedule s).map (s.goto .idle).withSys else none
  | .complete i, s =>
    s.outstanding[i]?.map fun caller =>
      { s with outstanding := s.outstanding.eraseIdx i, completed := s.completed ++ [caller] }
  | .pending, s =>
    s.pid.bind fun pid => (call H (.ioSignal pid) s).map ({ s with completed := [] } : GpuRun).withSys
  | .kernel l, s => (s.sys.step ProcessManager.running (Op.run H) l).map s.withSys

def init (sie : Bool) : GpuRun := ⟨⟨ProcessManager.booted H sie, fun _ => none⟩, none, fun _ => .idle, [], []⟩

/-- `io_wait` blocks the caller only, whose command is still to be answered; the `pending` after a completion makes
the caller of the command ready, who waits for it, and nobody else -/
def Own (s : GpuRun) (a : GpuAction) : Prop :=
  ∀ s', step H a s = some s' →
    match a with
    | .ioWait => s'.sys.st.stateOf s.sys.st.running = some .ioWait ∧
        (∀ q, q ≠ s.sys.st.running → s'.sys.st.stateOf q = s.sys.st.stateOf q) ∧
        (s.sys.st.running ∈ s.outstanding ∨ s.sys.st.running ∈ s.completed)
    | .pending => ∀ c ∈ s.completed, s.sys.st.stateOf c = some .ioWait ∧ s'.sys.st.Runnable c ∧
        ∀ q st, q ≠ c → s.sys.st.stateOf q = some st → st.blocked = true → s'.sys.st.stateOf q = some st
    | _ => True

/-- A command is given only by the process that called `init_display`, and `pending` comes after a completion only when
the caller of the command has done its `io_wait` and still waits. -/
def orderly (s : GpuRun) : GpuAction → Bool
  | .post => s.pid == some s.sys.st.running
  | .pending => s.completed.all fun c => s.sender c != .posted && s.sys.st.stateOf c == some .ioWait
  | _ => true

end

/-! ## the invariant -/

section
variable {H : Heap} {sie : Bool} {s s' : GpuRun}

/-- every command under way is of the process in `pid`, and none is answered before its caller waits -/
structure Single (H : Heap) (sie : Bool) (s : GpuRun) : Prop where
  reach : Reachable H (fun _ _ => True) sie s.sys
  sender : ∀ p, s.sender p ≠ .idle → s.pid = some p
  outstanding : ∀ c ∈ s.outstanding, s.pid = some c
  completed : ∀ c ∈ s.completed, s.pid = some c
  posted : ∀ p, s.sender p = .posted → p ∈ s.outstanding ∨ p ∈ s.completed

theorem single_init : Single H sie (init H sie) :=
  ⟨.init, fun _ h => absurd rfl h, fun _ h => absurd h List.not_mem_nil, fun _ h => absurd h List.not_mem_nil,
    fun _ h => nomatch h⟩

theorem Single.withSys (hs : Single H sie s) {l : Option Op} {sys : Sys ProcessManager ProcessError}
    (h : s.sys.step ProcessManager.running (Op.run H) l = some sys) : Single H sie (s.withSys sys) :=
  ⟨.step hs.reach (fun _ _ => trivial) h, hs.sender, hs.outstanding, hs.completed, hs.posted⟩

theorem goto_sender (s : GpuRun) (pc : Sender) (p : Pid) :
    p = s.sys.st.running ∧ (s.goto pc).sender p = pc ∨ (s.goto pc).sender p = s.sender p := by
  by_cases e : p = s.sys.st.running
  · subst e
    exact .inl ⟨rfl, Function.update_self ..⟩
  · exact .inr (Function.update_of_ne e ..)

/-- the process that has the processor moves on in `send_desc`, past the place where its command was made available -/
theorem Single.goto (hs : Single H sie s) (pc : Sender) (h : pc ≠ .idle → s.pid = some s.sys.st.running)
    (hpc : pc ≠ .posted) : Single H sie (s.goto pc) := by
  refine ⟨hs.reach, fun p hp => ?_, hs.outstanding, hs.completed, fun p hp => ?_⟩
  · obtain ⟨rfl, e⟩ | e := goto_sender s pc p
    · exact h (e ▸ hp)
    · exact hs.sender p (e ▸ hp)
  · obtain ⟨-, e⟩ | e := goto_sender s pc p
    · exact absurd (e.symm.trans hp) hpc
    · exact hs.posted p (e.symm.trans hp)

/-- the process in `pid` makes a command available -/
theorem Single.post (hs : Single H sie s) (hpid : s.pid = some s.sys.st.running) :
    Single H sie { s.goto .posted with outstanding := s.outstanding ++ [s.sys.st.running] } := by
  refine ⟨hs.reach, fun p hp => ?_, fun c hc => ?_, hs.completed, fun p hp => ?_⟩
  · obtain ⟨rfl, -⟩ | e := goto_sender s .posted p
    · exact hpid
    · exact hs.sender p fun h => hp (e.trans h)
  · rcases List.mem_append.mp hc with hc | hc
    · exact hs.outstanding c hc
    · rw [List.mem_singleton.mp hc]
      exact hpid
  · obtain ⟨rfl, -⟩ | e := goto_sender s .posted p
    · exact .inl (List.mem_append_right _ (List.mem_singleton.mpr rfl))
    · exact (hs.posted p (e.symm.trans hp)).imp_left (List.mem_append_left _)

/-- a process in `send_desc` is the one in `pid` -/
theorem Single.caller (hs : Single H sie s) {pc : Sender} (hpc : (s.here == pc) = true) (hne : pc ≠ .idle) :
    s.pid = some s.sys.st.running := by
  refine hs.sender _ ?_
  rwa [show s.sender s.sys.st.running = pc from beq_iff_eq.mp hpc]

theorem orderly_pending (hok : orderly s .pending = true) {c : Pid} (hc : c ∈ s.completed) :
    s.sender c ≠ .posted ∧ s.sys.st.stateOf c = some .ioWait := by
  simpa using List.all_eq_true.mp hok c hc

theorem Single.step (hs : Single H sie s) {a : GpuAction} (hok : orderly s a = true)
    (h : step H a s = some s') : Single H sie s' := by
  cases a with
  | initDisplay =>
    simp only [Gpu.step] at h
    split at h
    · rename_i hnone
      have hn : s.pid = none := Option.isNone_iff_eq_none.mp (Bool.and_eq_true_iff.mp hnone).1
      cases h
      refine ⟨hs.reach, fun p hp => ?_, fun c hc => ?_, fun c hc => ?_, hs.posted⟩
      · exact absurd ((hs.sender p hp).symm.trans hn) (by simp)
      · exact absurd ((hs.outstanding c hc).symm.trans hn) (by simp)
      · exact absurd ((hs.completed c hc).symm.trans hn) (by simp)
    · cases h
  | post =>
    have hpid : s.pid = some s.sys.st.running := beq_iff_eq.mp hok
    simp only [Gpu.step] at h
    split at h
    · cases h
      exact hs.post hpid
    · cases h
  | ioWait =>
    simp only [Gpu.step] at h
    split at h
    · rename_i hpc
      obtain ⟨pid, hpid, h⟩ := Option.bind_eq_some_iff.mp h
      obtain ⟨sys, hsys, rfl⟩ := Option.map_eq_some_iff.mp h
      exact (hs.goto .waiting (fun _ => hs.caller hpc nofun) nofun).withSys hsys
    · cases h
  | schedule =>
    simp only [Gpu.step] at h
    split at h
    · obtain ⟨sys, hsys, rfl⟩ := Option.map_eq_some_iff.mp h
      exact (hs.goto .idle (fun e => absurd rfl e) nofun).withSys hsys
    · cases h
  | complete i =>
    obtain ⟨c, hc, rfl⟩ := Option.map_eq_some_iff.mp h
    have hcaller := hs.outstanding c (List.mem_of_getElem? hc)
    refine ⟨hs.reach, hs.sender, fun c hc => hs.outstanding c (List.mem_of_mem_eraseIdx hc), fun c' hc' => ?_,
      fun p hp => .inr ?_⟩
    · rcases List.mem_append.mp hc' with hc' | hc'
      · exact hs.completed c' hc'
      · rw [List.mem_singleton.mp hc']
        exact hcaller
    · -- there are no commands but those of one process
      rw [← Option.some.inj (hcaller.symm.trans (hs.sender p (by rw [hp]; nofun)))]
      exact List.mem_append_right _ (List.mem_singleton.mpr rfl)
  | pending =>
    obtain ⟨pid, hpid, h⟩ := Option.bind_eq_some_iff.mp h
    obtain ⟨sys, hsys, rfl⟩ := Option.map_eq_some_iff.mp h
    refine ⟨.step hs.reach (fun _ _ => trivial) hsys, hs.sender, hs.outstanding, fun c hc => absurd hc List.not_mem_nil,
      fun p hp => .inl ((hs.posted p hp).resolve_right fun hc => ?_)⟩
    have hp : s.sender p = .posted := hp
    exact absurd hp (orderly_pending hok hc).1
  | kernel l =>
    obtain ⟨sys, hsys, rfl⟩ := Option.map_eq_some_iff.mp h
    exact hs.withSys hsys

/-- where all commands are of the process in `pid`, the driver blocks and wakes the right one -/
theorem Single.own (hs : Single H sie s) {a : GpuAction} (hok : orderly s a = true) : Own H s a := by
  intro s' h
  cases a with
  | ioWait =>
    simp only [Gpu.step] at h
    split at h
    · rename_i hpc
      obtain ⟨pid, hpid, h⟩ := Option.bind_eq_some_iff.mp h
      obtain ⟨sys, hsys, rfl⟩ := Option.map_eq_some_iff.mp h
      obtain rfl : s.sys.st.running = pid := Option.some.inj ((hs.caller hpc nofun).symm.trans hpid)
      obtain ⟨hblocked, hothers⟩ := ioWait_step (Reachable.kept hs.reach).inv.1.running hsys
      exact ⟨hblocked, hothers, hs.posted _ (beq_iff_eq.mp hpc)⟩
    · cases h
  | pending =>
    obtain ⟨pid, hpid, h⟩ := Option.bind_eq_some_iff.mp h
    obtain ⟨sys, hsys, rfl⟩ := Option.map_eq_some_iff.mp h
    intro c hc
    obtain rfl : c = pid := Option.some.inj ((hs.completed c hc).symm.trans hpid)
    have hwait := (orderly_pending hok hc).2
    obtain ⟨hwoken, hothers⟩ := Reachable.ioSignal_step hs.reach hsys
    exact ⟨hwait, hwoken _ hwait rfl, hothers⟩
  | _ => trivial

end

/-- **GPU commands block and wake their own caller**, in a run whose commands are all of the process that
called `init_display` and whose interrupts find the caller in its `io_wait`. -/
theorem wakes_caller (H : Heap) (sie : Bool) (actions : List GpuAction)
    (hok : Throughout (step H) (fun s a => orderly s a = true) actions (init H sie)) :
    Throughout (step H) (Own H) actions (init H sie) :=
  Throughout.imp (Single H sie) (fun _ _ _ hs hok h => hs.step hok h) (fun _ _ hs hok => hs.own hok) actions
    single_init hok

/-- process 1 initialises the display -/
def display : List GpuAction := [.kernel (some (.createKernelProcess 1)), .kernel (some (.ready 1)), .initDisplay]

/-- and gives a command, which the device completes -/
def ownCommand : List GpuAction := display ++ [.post, .ioWait, .schedule, .kernel none, .complete 0, .pending]

theorem wakes_caller_example : (run (step (BinaryHeap.scan _)) ownCommand (init (BinaryHeap.scan _) true)).isSome = true ∧
    Throughout (step (BinaryHeap.scan _)) (Own (BinaryHeap.scan _)) ownCommand (init (BinaryHeap.scan _) true) :=
  ⟨by decide +kernel, wakes_caller (BinaryHeap.scan _) true ownCommand (by decide +kernel)⟩

/-- process 2 gives a command, and process 1 is blocked: it was ready, and process 2 runs on -/
theorem blocks_another : ∃ s s', run (step (BinaryHeap.scan _))
    (display ++ [.kernel (some (.createKernelProcess 1)), .kernel (some (.ready 2)), .post])
      (init (BinaryHeap.scan _) true) = some s ∧
    s.sys.st.running = 2 ∧ s.sys.st.stateOf 1 = some .ready ∧ step (BinaryHeap.scan _) .ioWait s = some s' ∧
    s'.sys.st.stateOf 1 = some .ioWait ∧ s'.sys.st.stateOf 2 = some .running := by
  have h : (run (step (BinaryHeap.scan _))
      (display ++ [.kernel (some (.createKernelProcess 1)), .kernel (some (.ready 2)), .post])
      (init (BinaryHeap.scan _) true)).any (fun s => decide (s.sys.st.running = 2 ∧ s.sys.st.stateOf 1 = some .ready) &&
        (step (BinaryHeap.scan _) .ioWait s).any fun s' =>
          s'.sys.st.stateOf 1 = some .ioWait ∧ s'.sys.st.stateOf 2 = some .running) = true := by
    decide
  obtain ⟨s, hs, h⟩ := (Option.any_eq_true _ _).mp h
  obtain ⟨h₀, h⟩ := Bool.and_eq_true_iff.mp h
  obtain ⟨s', hs', h⟩ := (Option.any_eq_true _ _).mp h
  obtain ⟨hrun, hready⟩ := of_decide_eq_true h₀
  exact ⟨s, s', hs, hrun, hready, hs', of_decide_eq_true h⟩

end Citron.Gpu
