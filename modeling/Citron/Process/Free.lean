import Citron.Process.Ownership
import Citron.Process.States

/-!
# Dead processes

`kill` leaves the pid of a dead process in whatever lists it was in.  `ready` passes over it, but `sleep`,
`io_wait`, `event_wait` and the waits of a dead process that still has the processor give it a new state,
from which it is woken like any other.

* `Op.SparesDead`     no dead process is put to wait;
* `free_is_final`     then a dead process stays dead and does not get the processor;
* `free_not_final`    otherwise it comes back.
-/

namespace Citron
open Resumption

/-- no dead process is put to wait or to sleep -/
def Op.SparesDead (op : Op) (s : ProcessManager) : Prop :=
  ∀ pid, s.stateOf pid = some .free → op.Blocks s pid → op = .kill pid

variable {H : Heap} {sie : Bool} {y y' : Sys ProcessManager ProcessError} {pid : Pid}

theorem Act.free_apply {s : ProcessManager} {a : Act} (hs : Inv s) (ha : a.Hits pid s → a = .kill pid)
    (h : s.stateOf pid = some .free) : (a.apply H s).stateOf pid = some .free := by
  by_cases hit : a.Hits pid s
  · rw [ha hit]
    show (s.setState pid .free).stateOf pid = some .free
    rw [ProcessManager.stateOf_setState, if_pos rfl, h]
    rfl
  · exact Act.stateOf_of_not_hits hs rfl hit h

/-- the acts of a call that puts `pid` to wait do so by killing it again, or not at all -/
theorem Planned.hits_kill {s : ProcessManager} {mask : Bool} {op : Op} {p : Plan} (h : Planned H s mask op p)
    (hb : op.Blocks s pid → op = .kill pid) : Along H (fun s a => a.Hits pid s → a = .kill pid) s p.acts := by
  by_cases hop : op.Blocks s pid
  · obtain rfl := hb hop
    refine Along.of_forall (Q := fun a => a.harmless = true ∨ a = .kill pid) (fun s a ha hit => ?_) fun a ha => ?_
    · exact ha.resolve_left fun hh => Act.not_hits_of_harmless hh pid s hit
    · cases h with
      | fail h => exact absurd ha List.not_mem_nil
      | kill hp he =>
        simp only [Plan.acts, List.mem_cons, List.not_mem_nil, or_false] at ha
        rcases ha with rfl | rfl | rfl | rfl
        · exact .inr rfl
        · exact .inl rfl
        · exact .inl rfl
        · exact .inl rfl
      | killSignal hp he =>
        simp only [Plan.acts, Plan.after, deferred, List.cons_append, List.nil_append, List.mem_cons, List.mem_append,
          List.mem_map, List.not_mem_nil, or_false] at ha
        rcases ha with rfl | rfl | rfl | ⟨q, _, rfl⟩ | rfl
        · exact .inr rfl
        · exact .inl rfl
        · exact .inl rfl
        · exact .inl rfl
        · exact .inl rfl
  · exact (h.not_hits hop).imp fun _ _ hn hit => absurd hit hn

/-- one step: a dead process stays dead, and is not given the processor -/
theorem Reachable.free_step (hy : Reachable H Op.SparesDead sie y) {l : Option Op}
    (hl : Legal Op.SparesDead l y.st) (h : y.step ProcessManager.running (Op.run H) l = some y')
    (hfree : y.st.stateOf pid = some .free) :
    y'.st.stateOf pid = some .free ∧ (y'.st.running = pid → y.st.running = pid) := by
  have hkeep : ∀ {sch : Prop} {s t : ProcessManager}, Tailed sch s t → s.stateOf pid = some .free →
      t.stateOf pid = some .free := by
    intro sch s t ht hs
    refine (ht.stateOf_of_not_runnable ?_).trans hs
    rintro (hr | hr)
    · cases hs.symm.trans hr
    · cases hs.symm.trans hr
  have hdead : y'.st.stateOf pid = some .free := by
    obtain ⟨rfl, -, ht⟩ | ⟨op, p, rfl, hp, ht⟩ := Reachable.step_cases hy h
    · exact hkeep ht hfree
    · obtain ⟨hi, hset⟩ := (Reachable.kept hy).inv
      obtain ⟨hi, -, -⟩ := op.inv_entry hi hset
      obtain ⟨hstate, -, -⟩ := op.entry_stateOf y.st pid
      have hb : op.Blocks (op.entry y.st) pid → op = .kill pid := by
        intro hb
        by_contra hne
        exact op.not_blocks_entry (fun hb' => hne (hl op rfl pid hfree hb')) hb
      exact hkeep ht (hi.along (fun _ _ ht hr ha => Act.free_apply ht ha hr) (hp.valid hi) (hp.hits_kill hb)
        (hstate.trans hfree)).2
  refine ⟨hdead, fun e => ?_⟩
  rcases Reachable.step_running hy h with hrun | hbusy
  · exact hrun.symm.trans e
  · unfold ProcessManager.Busy at hbusy
    rw [e] at hbusy
    cases hdead.symm.trans hbusy

/-- **A dead process stays dead** and never gets the processor, in every run in which no dead process is put
to wait: whatever lists still hold its pid. -/
theorem free_is_final (H : Heap) (sie : Bool) (y : Sys ProcessManager ProcessError)
    (hy : Reachable H Op.SparesDead sie y) (pid : Pid) (hfree : y.st.stateOf pid = some .free)
    (ls : List (Option Op)) (hl : y.LegalSteps ProcessManager.running (Op.run H) Op.SparesDead ls)
    (y' : Sys ProcessManager ProcessError) (h : y.steps ProcessManager.running (Op.run H) ls = some y') :
    y'.st.stateOf pid = some .free ∧ (y'.st.running = pid → y.st.running = pid) := by
  induction ls generalizing y with
  | nil =>
    obtain rfl := Option.some.inj h
    exact ⟨hfree, id⟩
  | cons l ls ih =>
    obtain ⟨z, hz, h⟩ := Option.bind_eq_some_iff.mp h
    have hlegal : Legal Op.SparesDead l y.st := fun op e => hl.1 op e
    obtain ⟨hfree', hrun⟩ := Reachable.free_step hy hlegal hz hfree
    obtain ⟨hdead, hrun'⟩ := ih z (.step hy hlegal hz) hfree' (hl.2 z hz) h
    exact ⟨hdead, fun e => hrun (hrun' e)⟩

/-- A process is killed while it sleeps; the timer passes over it. -/
theorem free_is_final_example : ∃ y, Reachable (BinaryHeap.scan _) Op.SparesDead true y ∧
    y.st.stateOf 1 = some .free ∧
    ∃ y', y.steps ProcessManager.running (Op.run (BinaryHeap.scan _)) [some .wakeup, some (.ready 1)] = some y' ∧
      y'.st.stateOf 1 = some .free ∧ y'.st.running = 0 := by
  let ls : List (Option Op) := [some (.createProcess 5 true), some (.sleep 1 1), some (.kill 1)]
  let ls' : List (Option Op) := [some .wakeup, some (.ready 1)]
  let y₀ : Sys ProcessManager ProcessError :=
    ⟨ProcessManager.booted (BinaryHeap.scan _) true, fun _ => none⟩
  have hrun : ((y₀.steps ProcessManager.running (Op.run (BinaryHeap.scan _)) ls).bind fun y =>
      (y.steps ProcessManager.running (Op.run (BinaryHeap.scan _)) ls').map fun y' =>
      (y.st.stateOf 1, y'.st.running)) = some (some .free, 0) := rfl
  obtain ⟨y, hy, h⟩ := Option.bind_eq_some_iff.mp hrun
  obtain ⟨y', hy', he⟩ := Option.map_eq_some_iff.mp h
  simp only [Prod.mk.injEq] at he
  have hlegal : y₀.LegalSteps ProcessManager.running (Op.run (BinaryHeap.scan _)) Op.SparesDead ls := by
    refine ⟨fun op hop => ?_, fun y₁ h₁ => ⟨fun op hop => ?_, fun y₂ _ => ⟨fun op hop => ?_, fun y₃ _ => trivial⟩⟩⟩
    · obtain rfl := Option.some.inj hop
      exact fun pid _ hb => hb.elim
    · obtain rfl := Option.some.inj hop
      rintro pid hp ⟨⟩
      obtain rfl := Option.some.inj h₁
      cases hp
    · obtain rfl := Option.some.inj hop
      rintro pid hp ⟨⟩
      rfl
  have hreach : Reachable (BinaryHeap.scan _) Op.SparesDead true y := Reach.steps .init hlegal hy
  have hfinal := free_is_final _ _ y hreach 1 he.1 ls'
    (.of_forall (by simp [ls', Op.SparesDead, Op.Blocks])) y' hy'
  exact ⟨y, hreach, he.1, y', hy', hfinal.1, he.2⟩

/-- A driver waits for a process that has been killed, and signals it: the dead process has the processor. -/
theorem free_not_final : ¬ ∀ (H : Heap) (sie : Bool) (y : Sys ProcessManager ProcessError),
    Reachable H (fun _ _ => True) sie y → ∀ pid, y.st.stateOf pid = some .free → ∀ ls y',
    y.steps ProcessManager.running (Op.run H) ls = some y' →
    (y'.st.stateOf pid ≠ some .ready ∧ y'.st.stateOf pid ≠ some .running) ∧
      (y'.st.running = pid → y.st.running = pid) := by
  intro hall
  let ls : List (Option Op) := [some (.createProcess 5 true), some (.kill 1)]
  let ls' : List (Option Op) := [some (.ioWait 1), some (.ioSignal 1)]
  let y₀ : Sys ProcessManager ProcessError :=
    ⟨ProcessManager.booted (BinaryHeap.scan _) true, fun _ => none⟩
  have hrun : ((y₀.steps ProcessManager.running (Op.run (BinaryHeap.scan _)) ls).bind fun y =>
      (y.steps ProcessManager.running (Op.run (BinaryHeap.scan _)) ls').map fun y' =>
      (y.st.stateOf 1, y'.st.stateOf 1)) = some (some .free, some .running) := rfl
  obtain ⟨y, hy, h⟩ := Option.bind_eq_some_iff.mp hrun
  obtain ⟨y', hy', he⟩ := Option.map_eq_some_iff.mp h
  simp only [Prod.mk.injEq] at he
  have hreach : Reachable (BinaryHeap.scan _) (fun _ _ => True) true y :=
    Reach.steps .init (.of_forall fun _ _ _ _ _ => trivial) hy
  exact (hall _ _ y hreach 1 he.1 ls' y' hy').1.2 he.2

end Citron
