import Citron.Process.PlanRun

/-!
# What `schedule` does

* `popReadyProc_run`  the heap gives up a ready process of the greatest priority, dropping stale
                      descriptors, or everything in it was stale;
* `Scheduled`         the four outcomes of `schedule`;
* `schedule_cases`    in a closed state there are no others.
-/

set_option linter.unusedSectionVars false

namespace Citron
open Resumption

/-- `pop_ready_proc` returns the descriptor `d` and leaves `q` in the heap -/
structure Popped (s : ProcessManager) (d : ProcessDesc) (q : List ProcessDesc) : Prop where
  mem : d ∈ s.pqueue
  ready : s.stateOf d.pid = some .ready
  sub : ∀ d' ∈ q, d' ∈ s.pqueue
  keep : ∀ d' ∈ s.pqueue, s.stateOf d'.pid = some .ready → d' = d ∨ d' ∈ q
  max : ∀ d' ∈ s.pqueue, s.stateOf d'.pid = some .ready → d'.priority ≤ d.priority

/-- nothing in the heap is ready -/
def Stale (s : ProcessManager) : Prop := ∀ d ∈ s.pqueue, s.stateOf d.pid ≠ some .ready

section
variable (H : Heap)

/-! ## the heap -/

/-- a stale descriptor on top changes nothing -/
theorem Popped.of_stale {s : ProcessManager} {d d' : ProcessDesc} {l q : List ProcessDesc}
    (hpop : H.pop s.pqueue = some (d, l)) (hd : s.stateOf d.pid ≠ some .ready)
    (h : Popped (s.setQueue l) d' q) : Popped s d' q := by
  have rest : ∀ b ∈ s.pqueue, s.stateOf b.pid = some .ready → b ∈ l := by
    intro b hb hr
    rcases (H.mem_of_pop hpop b).mp hb with rfl | hb
    · exact absurd hr hd
    · exact hb
  have back : ∀ b ∈ l, b ∈ s.pqueue := fun b hb => (H.mem_of_pop hpop b).mpr (.inr hb)
  exact
    { mem := back _ h.mem
      ready := h.ready
      sub := fun b hb => back b (h.sub b hb)
      keep := fun b hb hr => h.keep b (rest b hb hr) hr
      max := fun b hb hr => h.max b (rest b hb hr) hr }

/-- the loop finds a ready process of the greatest priority, or empties the heap -/
theorem popReadyLoop_run (n : Nat) : ∀ {s : ProcessManager}, s.pqueue.length < n →
    (∀ d ∈ s.pqueue, (s.ptable d.pid).isSome) →
    (Stale s ∧ popReadyLoop H n s = .ok none (s.setQueue [])) ∨
    ∃ d q, Popped s d q ∧ popReadyLoop H n s = .ok (some d) (s.setQueue q) := by
  induction n with
  | zero => intro s h _; exact absurd h (Nat.not_lt_zero _)
  | succ n ih =>
    intro s hn hp
    unfold popReadyLoop popHeap
    simp only [Prog.bind_run, Prog.get_run, Res.ok_bind]
    cases hpop : H.pop s.pqueue with
    | none =>
      have hnil := H.pop_none _ hpop
      refine .inl ⟨fun d hd => ?_, ?_⟩
      · rw [hnil] at hd
        exact absurd hd (by simp)
      · rw [← hnil]
        rfl
    | some x =>
      obtain ⟨d, l⟩ := x
      have hmem := H.mem_of_pop hpop
      obtain ⟨p, hd⟩ := Option.isSome_iff_exists.mp (hp d ((hmem d).mpr (.inl rfl)))
      have hst := ProcessManager.stateOf_of_ptable hd
      have hd' : (s.setQueue l).ptable d.pid = some p := hd
      simp only [Prog.bind_run, Prog.modify_run, Res.ok_bind, Prog.pure_run, getProcess_some hd',
        Prog.ite_run]
      by_cases hr : p.state = .ready
      · rw [if_pos hr]
        refine .inr ⟨d, l, ?_, rfl⟩
        exact
          { mem := (hmem d).mpr (.inl rfl)
            ready := by rw [hst, hr]
            sub := fun b hb => (hmem b).mpr (.inr hb)
            keep := fun b hb _ => (hmem b).mp hb
            max := fun b hb _ => H.pop_max _ _ _ hpop b hb }
      · rw [if_neg hr]
        have hns : s.stateOf d.pid ≠ some .ready := by
          rw [hst]
          simpa using hr
        have hlen := H.length_of_pop hpop
        have hl : (s.setQueue l).pqueue.length < n := by
          show l.length < n
          omega
        rcases ih hl (fun b hb => hp b ((hmem b).mpr (.inr hb))) with ⟨hs, h⟩ | ⟨d', q, hs, h⟩
        · refine .inl ⟨fun b hb => ?_, h⟩
          rcases (hmem b).mp hb with rfl | hb
          · exact hns
          · exact hs b hb
        · exact .inr ⟨d', q, hs.of_stale H hpop hns, h⟩

theorem popReadyProc_run {s : ProcessManager} (hs : ∀ d ∈ s.pqueue, (s.ptable d.pid).isSome) :
    (Stale s ∧ popReadyProc H s = .ok none (s.setQueue [])) ∨
    ∃ d q, Popped s d q ∧ popReadyProc H s = .ok (some d) (s.setQueue q) :=
  popReadyLoop_run H _ (Nat.lt_succ_self _) hs

/-! ## outcomes -/

namespace ProcessManager

/-- the running process `r` goes back to the heap, unless it waits for something -/
def preempt (s : ProcessManager) (r : Process) : ProcessManager :=
  if r.state = .running then
    (s.setState s.running .ready).setQueue (H.push s.pqueue ⟨r.priority, s.running⟩)
  else s

/-- the process `new` takes the processor -/
def takeOver (s : ProcessManager) (new : Pid) : ProcessManager :=
  ({ s.setState new .running with running := new } : ProcessManager).contextSwitch s.running new

/-- the state in which `schedule` gives the processor of the process `r` to `new`, with `q` left in
the heap -/
def dispatch (s : ProcessManager) (r : Process) (q : List ProcessDesc) (new : Pid) :
    ProcessManager :=
  ((s.masked.setQueue q).preempt H r).takeOver new

end ProcessManager

inductive Scheduled (s : ProcessManager) : Res ProcessManager ProcessError Unit → Prop where
  | deferred (hc : 0 < s.defer.count) : Scheduled s (.ok () s.setAttempt)
  | idle (hc : s.defer.count = 0) (h : Stale s) : Scheduled s (.ok () (s.setQueue []))
  | stay {d : ProcessDesc} {q : List ProcessDesc} {p r : Process} (hc : s.defer.count = 0)
      (hd : Popped s d q) (hp : s.ptable d.pid = some p) (hr : s.ptable s.running = some r)
      (hrun : r.state = .running) (hlt : p.priority < r.priority) :
      Scheduled s (.ok () (s.setQueue (H.push q ⟨p.priority, d.pid⟩)))
  | switch {d : ProcessDesc} {q : List ProcessDesc} {p r : Process} (hc : s.defer.count = 0)
      (hd : Popped s d q) (hp : s.ptable d.pid = some p) (hr : s.ptable s.running = some r)
      (h : r.state = .running → r.priority ≤ p.priority) :
      Scheduled s (.switch (s.dispatch H r q d.pid)
        (fun s' => .ok () { s' with sie := s'.sie || s.sie }))

theorem switchTo_run {s : ProcessManager} {new : Pid} {p : Process} (mask : Bool)
    (h : s.ptable new = some p) : schedule.switchTo mask s.running new s
      = .switch (s.takeOver new) (fun s' => .ok () { s' with sie := s'.sie || mask }) := by
  simp only [schedule.switchTo, Prog.bind_run, setProcessState_some _ h, Res.ok_bind,
    Prog.modify_run, Prog.suspend_run, Res.switch_bind, interruptRestore_run]
  rfl

/-- **What `schedule` does.** -/
theorem schedule_cases {s : ProcessManager} (hs : Closed s) : Scheduled H s (schedule H s) := by
  by_cases hc : 0 < s.defer.count
  · rw [schedule_deferred H hc]
    exact .deferred hc
  have hc0 : s.defer.count = 0 := by omega
  obtain ⟨r, hr⟩ := Option.isSome_iff_exists.mp hs.running
  unfold schedule
  simp only [Prog.bind_run, interruptDisable_run, Res.ok_bind, Prog.get_run]
  rw [if_neg (show ¬ s.masked.defer.count > 0 from hc), Prog.bind_run]
  rcases popReadyProc_run H (s := s.masked) hs.desc with ⟨hst, h⟩ | ⟨d, q, hd, h⟩
  · rw [h]
    exact .idle hc0 hst
  · obtain ⟨p, hp⟩ := Option.isSome_iff_exists.mp (hs.desc d hd.mem)
    have hd : Popped s d q := ⟨hd.mem, hd.ready, hd.sub, hd.keep, hd.max⟩
    have hr' : (s.masked.setQueue q).ptable s.running = some r := hr
    have hp' : (s.masked.setQueue q).ptable d.pid = some p := hp
    have hrun : (s.masked.setQueue q).running = s.running := rfl
    rw [h]
    simp only [Res.ok_bind, Prog.bind_run, Prog.get_run, hrun, getProcess_some hr',
      getProcess_some hp', Prog.ite_run]
    by_cases hst : r.state = .running
    · by_cases hle : r.priority ≤ p.priority
      · -- the running process is put back into the heap
        have hpre : (s.masked.setQueue q).preempt H r
            = ((s.masked.setQueue q).setState s.running .ready).setQueue
                (H.push q ⟨r.priority, s.running⟩) := if_pos hst
        have hsome : ((((s.masked.setQueue q).setState s.running .ready).setQueue
            (H.push q ⟨r.priority, s.running⟩)).ptable d.pid).isSome :=
          (isSome_setState ..).trans (by rw [hp']; rfl)
        obtain ⟨p2, hp2⟩ := Option.isSome_iff_exists.mp hsome
        simp only [hle, hst, if_true, Prog.bind_run, setProcessState_some _ hr', Res.ok_bind,
          pushReady_run]
        refine Eq.subst (motive := Scheduled H s) (switchTo_run s.sie hp2).symm ?_
        rw [← hpre]
        exact .switch hc0 hd hp hr (fun _ => hle)
      · simp only [hle, hst, if_false, if_true, pushReady_run, Res.ok_bind, interruptRestore_run]
        exact .stay hc0 hd hp hr hst (by omega)
    · have hpre : (s.masked.setQueue q).preempt H r = s.masked.setQueue q := if_neg hst
      simp only [hst, if_false, ite_self]
      refine Eq.subst (motive := Scheduled H s) (switchTo_run s.sie hp').symm ?_
      rw [← hpre]
      exact .switch hc0 hd hp hr (fun h => absurd h hst)

end

end Citron
