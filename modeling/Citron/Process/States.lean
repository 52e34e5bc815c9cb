import Citron.Process.Step

/-!
# The state of one process

* `Act.stateOf_apply`      what an act can make of the state of a process;
* `wake_not_blocked`       a process that is woken waits no more;
* `Act.mem_waiters_apply`  only `event_signal` takes a process from the list of an event.
-/

namespace Citron
open Resumption

variable {H : Heap} {s : ProcessManager}

/-- the act is one that gives the process `pid` the state `st` -/
def Act.Sets (pid : Pid) (s : ProcessManager) (st : State) : Act → Prop
  | .create _ => pid = s.currPid ∧ st = .suspend
  | .semWait sid => pid = s.running ∧ (∃ x ∈ s.stable sid, x.take.count < 0) ∧ st = .semaWait
  | .wake q => pid = q ∧ st = .ready
  | .wakeLater q => pid = q ∧ st = .ready
  | .sleepOn q _ => pid = q ∧ st = .sleep
  | .sleepers pids => pid ∈ pids ∧ s.stateOf pid = some .sleep ∧ st = .ready
  | .ioOn q => pid = q ∧ st = .ioWait
  | .eventOn q _ => pid = q ∧ st = .eventWait
  | .kill q => pid = q ∧ st = .free
  | _ => False

theorem setState_cases (q : Pid) (st : State) (pid : Pid) : (s.setState q st).stateOf pid = s.stateOf pid ∨
    pid = q ∧ (s.setState q st).stateOf pid = some st := by
  rw [ProcessManager.stateOf_setState]
  by_cases h : pid = q
  · subst h
    rw [if_pos rfl]
    cases s.stateOf pid with
    | none => exact .inl rfl
    | some st' => exact .inr ⟨rfl, rfl⟩
  · rw [if_neg h]
    exact .inl rfl

theorem wake_stateOf (q pid : Pid) : (s.wake H q).stateOf pid = s.stateOf pid ∨
    pid = q ∧ (s.wake H q).stateOf pid = some .ready := by
  unfold ProcessManager.wake
  split
  · split
    · exact setState_cases q .ready pid
    · exact .inl rfl
  · exact .inl rfl

theorem wakeLater_stateOf (q pid : Pid) : (s.wakeLater H q).stateOf pid = s.stateOf pid ∨
    pid = q ∧ (s.wakeLater H q).stateOf pid = some .ready := by
  rcases wakeLater_cases H s q with h | ⟨p, _, _, h⟩
  · rw [h]
    exact .inl rfl
  · rw [h]
    exact setState_cases q .ready pid

theorem wakeSleepers_stateOf (pids : List Pid) (pid : Pid) : ∀ {s : ProcessManager},
    (s.wakeSleepers H pids).stateOf pid = s.stateOf pid ∨
    pid ∈ pids ∧ s.stateOf pid = some .sleep ∧ (s.wakeSleepers H pids).stateOf pid = some .ready := by
  induction pids with
  | nil => exact .inl rfl
  | cons q pids ih =>
    intro s
    unfold ProcessManager.wakeSleepers
    split
    · rename_i hq
      rcases ih (s := s.wakeLater H q) with h | ⟨hm, hsleep, h⟩
      · rcases wakeLater_stateOf (H := H) (s := s) q pid with h' | ⟨rfl, h'⟩
        · exact .inl (h.trans h')
        · exact .inr ⟨List.mem_cons_self, hq, h.trans h'⟩
      · rcases wakeLater_stateOf (H := H) (s := s) q pid with h' | ⟨-, h'⟩
        · exact .inr ⟨List.mem_cons_of_mem q hm, h'.symm.trans hsleep, h⟩
        · exact absurd (h'.symm.trans hsleep) (by simp)
    · rcases ih (s := s) with h | ⟨hm, hsleep, h⟩
      · exact .inl h
      · exact .inr ⟨List.mem_cons_of_mem q hm, hsleep, h⟩

/-- **What an act makes of the state of a process.** -/
theorem Act.stateOf_apply (a : Act) (pid : Pid) : (a.apply H s).stateOf pid = s.stateOf pid ∨
    ∃ st, a.Sets pid s st ∧ (a.apply H s).stateOf pid = some st := by
  have hset : ∀ q st, (s.setState q st).stateOf pid = s.stateOf pid ∨
      ∃ st', (pid = q ∧ st' = st) ∧ (s.setState q st).stateOf pid = some st' := by
    intro q st
    rcases setState_cases (s := s) q st pid with h | ⟨e, h⟩
    · exact .inl h
    · exact .inr ⟨st, ⟨e, rfl⟩, h⟩
  cases a with
  | create priority =>
    show (s.insertProcess s.currPid _).stateOf pid = _ ∨ _
    by_cases h : pid = s.currPid
    · refine .inr ⟨.suspend, ⟨h, rfl⟩, ?_⟩
      subst h
      simp [Act.apply, ProcessManager.insertProcess, ProcessManager.stateOf]
    · refine .inl ?_
      simp [ProcessManager.insertProcess, ProcessManager.stateOf, Function.update_of_ne h]
  | setup q => exact .inl (ProcessManager.stateOf_saveStatus s q pid)
  | semWait sid =>
    cases hx : s.stable sid with
    | none =>
      rw [semWait_none hx]
      exact .inl rfl
    | some x =>
      by_cases hc : x.take.count < 0
      · rw [semWait_block hx hc]
        rcases hset s.running .semaWait with h | ⟨st, ⟨e, e'⟩, h⟩
        · exact .inl h
        · exact .inr ⟨st, ⟨e, ⟨x, hx, hc⟩, e'⟩, h⟩
      · rw [semWait_pass hx hc]
        exact .inl rfl
  | semPost sid =>
    cases hx : s.stable sid with
    | none => rw [semPost_none hx]; exact .inl rfl
    | some x => rw [semPost_some hx]; exact .inl rfl
  | semPop sid =>
    cases hx : s.stable sid with
    | none => rw [semPop_none hx]; exact .inl rfl
    | some x => rw [semPop_some hx]; exact .inl rfl
  | semFree sid =>
    cases hx : s.stable sid with
    | none => rw [semFree_none hx]; exact .inl rfl
    | some x => rw [semFree_some hx]; exact .inl rfl
  | wake q =>
    rcases wake_stateOf (H := H) (s := s) q pid with h | ⟨e, h⟩
    · exact .inl h
    · exact .inr ⟨.ready, ⟨e, rfl⟩, h⟩
  | wakeLater q =>
    rcases wakeLater_stateOf (H := H) (s := s) q pid with h | ⟨e, h⟩
    · exact .inl h
    · exact .inr ⟨.ready, ⟨e, rfl⟩, h⟩
  | sleepers pids =>
    rcases wakeSleepers_stateOf (H := H) pids pid (s := s) with h | ⟨hm, hsleep, h⟩
    · exact .inl h
    · exact .inr ⟨.ready, ⟨hm, hsleep, rfl⟩, h⟩
  | sleepOn q delay => exact hset q .sleep
  | ioOn q => exact hset q .ioWait
  | eventOn q event => exact hset q .eventWait
  | kill q => exact hset q .free
  | reap q index =>
    exact .inl (s.map_updateProcess q Process.state (fun p => { p with children := p.children.eraseIdx index })
      (fun _ => rfl) pid)
  | _ => exact .inl rfl

/-- a process that is woken waits no more -/
theorem wakeLater_not_blocked {pid : Pid} {st : State} (h : (s.wakeLater H pid).stateOf pid = some st) :
    st.blocked = false := by
  unfold ProcessManager.wakeLater at h
  cases hp : s.ptable pid with
  | none =>
    rw [hp] at h
    exact absurd h (by simp [ProcessManager.stateOf, hp])
  | some p =>
    simp only [hp] at h
    cases hb : p.state.blocked with
    | false =>
      simp only [hb, Bool.false_eq_true, if_false] at h
      rw [ProcessManager.stateOf_of_ptable hp] at h
      rwa [← Option.some.inj h]
    | true =>
      simp only [hb, if_true] at h
      have e : (s.setState pid .ready).stateOf pid = some st := h
      rw [ProcessManager.stateOf_setState, if_pos rfl, ProcessManager.stateOf_of_ptable hp] at e
      cases e
      rfl

theorem wake_ready {pid : Pid} {st : State} (h : s.stateOf pid = some st) (hb : st.blocked = true) :
    (s.wake H pid).stateOf pid = some .ready := by
  obtain ⟨p, hp, rfl⟩ := Option.map_eq_some_iff.mp h
  unfold ProcessManager.wake
  simp only [hp, hb, if_true]
  show (s.setState pid .ready).stateOf pid = _
  rw [ProcessManager.stateOf_setState, if_pos rfl, h]
  rfl

theorem wakeLater_ready {pid : Pid} {st : State} (h : s.stateOf pid = some st) (hb : st.blocked = true) :
    (s.wakeLater H pid).stateOf pid = some .ready := by
  obtain ⟨p, hp, rfl⟩ := Option.map_eq_some_iff.mp h
  unfold ProcessManager.wakeLater
  simp only [hp, hb, if_true]
  show (s.setState pid .ready).stateOf pid = _
  rw [ProcessManager.stateOf_setState, if_pos rfl, h]
  rfl

theorem waiters_setEvent (event e : ProcessEvent) (pids : Option (List Pid)) :
    (s.setEvent e pids).waiters event = if event = e then pids.getD [] else s.waiters event := by
  show (Function.update s.eventQueue e pids event).getD [] = _
  by_cases h : event = e
  · subst h
    rw [Function.update_self, if_pos rfl]
  · rw [Function.update_of_ne h, if_neg h]
    rfl

theorem wakeLater_eventQueue (q : Pid) : (s.wakeLater H q).eventQueue = s.eventQueue := by
  rcases wakeLater_cases H s q with h | ⟨p, _, _, h⟩
  · rw [h]
  · rw [h]
    rfl

theorem wakeSleepers_eventQueue (pids : List Pid) : ∀ {s : ProcessManager},
    (s.wakeSleepers H pids).eventQueue = s.eventQueue := by
  induction pids with
  | nil => exact rfl
  | cons q pids ih =>
    intro s
    unfold ProcessManager.wakeSleepers
    rw [ih]
    split
    · exact wakeLater_eventQueue q
    · rfl

/-- only `event_signal` takes a process from the list of an event -/
theorem Act.mem_waiters_apply {a : Act} {event : ProcessEvent} {pid : Pid} (ha : a ≠ .takeEvent event)
    (h : pid ∈ s.waiters event) : pid ∈ (a.apply H s).waiters event := by
  have same : ∀ t : ProcessManager, t.eventQueue = s.eventQueue → pid ∈ t.waiters event := by
    intro t ht
    unfold ProcessManager.waiters
    rwa [ht]
  cases a with
  | semWait sid =>
    cases hx : s.stable sid with
    | none => rwa [semWait_none hx]
    | some x =>
      by_cases hc : x.take.count < 0
      · rw [semWait_block hx hc]
        exact same _ rfl
      · rw [semWait_pass hx hc]
        exact same _ rfl
  | semPost sid =>
    cases hx : s.stable sid with
    | none => rwa [semPost_none hx]
    | some x => rw [semPost_some hx]; exact same _ rfl
  | semPop sid =>
    cases hx : s.stable sid with
    | none => rwa [semPop_none hx]
    | some x => rw [semPop_some hx]; exact same _ rfl
  | semFree sid =>
    cases hx : s.stable sid with
    | none => rwa [semFree_none hx]
    | some x => rw [semFree_some hx]; exact same _ rfl
  | wake q =>
    show pid ∈ (s.wake H q).waiters event
    unfold ProcessManager.wake
    split
    · split
      · exact same _ rfl
      · exact h
    · exact h
  | wakeLater q => exact same _ (wakeLater_eventQueue q)
  | sleepers pids => exact same _ (wakeSleepers_eventQueue pids)
  | eventOn q e =>
    show pid ∈ ((s.setState q .eventWait).setEvent e (some (s.waiters e ++ [q]))).waiters event
    rw [waiters_setEvent]
    split
    · rename_i he
      exact List.mem_append_left _ (he ▸ h)
    · exact h
  | takeEvent e =>
    have he : event ≠ e := fun he => ha (he ▸ rfl)
    show pid ∈ (s.setEvent e none).waiters event
    rw [waiters_setEvent, if_neg he]
    exact h
  | _ => exact same _ rfl

/-! ## the acts of a call -/

/-- a state that a process has after some acts it had before, or one of them gave it -/
theorem applyAll_stateOf {pid : Pid} {st : State} (acts : List Act) : ∀ {s : ProcessManager},
    (applyAll H acts s).stateOf pid = some st →
    s.stateOf pid = some st ∨ ∃ a ∈ acts, ∃ t, a.Sets pid t st := by
  induction acts with
  | nil => exact fun h => .inl h
  | cons a acts ih =>
    intro s h
    rcases ih h with h | ⟨b, hb, t, hset⟩
    · rcases a.stateOf_apply (H := H) (s := s) pid with e | ⟨st', hset, e⟩
      · exact .inl (e ▸ h)
      · refine .inr ⟨a, List.mem_cons_self, s, ?_⟩
        rw [e] at h
        rwa [← Option.some.inj h]
    · exact .inr ⟨b, List.mem_cons_of_mem a hb, t, hset⟩

/-- a process that was woken on the way waits only if it was put to wait again -/
theorem applyAll_woken {pid : Pid} {st : State} {acts : List Act} (hw : .wakeLater pid ∈ acts)
    (hb : st.blocked = true) (h : (applyAll H acts s).stateOf pid = some st) :
    ∃ a ∈ acts, ∃ t, a.Sets pid t st := by
  obtain ⟨l, l', rfl⟩ := List.append_of_mem hw
  rw [applyAll_append, applyAll_cons] at h
  rcases applyAll_stateOf l' h with h | ⟨a, ha, t, hset⟩
  · exact absurd (wakeLater_not_blocked h) (by rw [hb]; simp)
  · exact ⟨a, List.mem_append_right l (List.mem_cons_of_mem _ ha), t, hset⟩

theorem applyAll_waiters {pid : Pid} {event : ProcessEvent} (acts : List Act) : ∀ {s : ProcessManager},
    (∀ a ∈ acts, a ≠ .takeEvent event) → pid ∈ s.waiters event → pid ∈ (applyAll H acts s).waiters event := by
  induction acts with
  | nil => exact fun _ h => h
  | cons a acts ih =>
    intro s ha h
    exact ih (fun b hb => ha b (List.mem_cons_of_mem a hb)) (Act.mem_waiters_apply (ha a List.mem_cons_self) h)

section
variable {mask : Bool} {op : Op} {p : Plan}

/-- only `event_wait` and `wait_exit` put a process to wait for an event -/
theorem Planned.eventOn (h : Planned H s mask op p) {pid : Pid} {event : ProcessEvent}
    (hm : Act.eventOn pid event ∈ p.acts) : op = .eventWait pid event ∨ op = .waitExit ∧ pid = s.running := by
  cases h with
  | create priority doSetup => cases doSetup <;> exact absurd hm (by simp [Plan.acts])
  | eventWait e hp =>
    simp only [Plan.acts, List.mem_singleton, Act.eventOn.injEq] at hm
    obtain ⟨rfl, rfl⟩ := hm
    exact .inl rfl
  | waitExit hp hn =>
    simp [Plan.acts, deferred] at hm
    exact .inr ⟨rfl, hm.choose_spec.2.1⟩
  | semDelete hx hk => simp [Plan.acts, Plan.after, deferred, freeAll] at hm
  | _ => exact absurd hm (by simp [Plan.acts, Plan.after, deferred])

/-- who takes the list of an event wakes all that are in it -/
theorem Planned.takeEvent (h : Planned H s mask op p) {event : ProcessEvent} (hm : Act.takeEvent event ∈ p.acts) :
    ∀ pid ∈ s.waiters event, .wakeLater pid ∈ p.acts := by
  intro pid hpid
  unfold ProcessManager.waiters at hpid
  cases h with
  | create priority doSetup => cases doSetup <;> exact absurd hm (by simp [Plan.acts])
  | kill hp he =>
    simp only [Plan.acts, List.mem_cons, reduceCtorEq, Act.takeEvent.injEq, List.not_mem_nil, or_false,
      false_or] at hm
    rw [hm, he] at hpid
    exact absurd hpid List.not_mem_nil
  | noEvent he =>
    simp only [Plan.acts, List.mem_cons, reduceCtorEq, Act.takeEvent.injEq, List.not_mem_nil, or_false,
      false_or] at hm
    rw [hm, he] at hpid
    exact absurd hpid List.not_mem_nil
  | killSignal hp he =>
    simp only [Plan.acts, Plan.after, deferred, List.cons_append, List.nil_append, List.mem_cons, List.mem_append,
      List.mem_map, reduceCtorEq, Act.takeEvent.injEq, List.not_mem_nil, or_false, false_or, and_false,
      exists_false] at hm
    rw [hm, he] at hpid
    simpa [Plan.acts, Plan.after, deferred] using hpid
  | eventSignal he =>
    simp only [Plan.acts, deferred, List.cons_append, List.mem_cons, List.mem_append, List.mem_map, reduceCtorEq,
      Act.takeEvent.injEq, List.not_mem_nil, or_false, false_or, and_false, exists_false] at hm
    rw [hm, he] at hpid
    simpa [Plan.acts, deferred] using hpid
  | semDelete hx hk => simp [Plan.acts, Plan.after, deferred, freeAll] at hm
  | waitExit hp hn => simp [Plan.acts, deferred] at hm
  | _ => exact absurd hm (by simp [Plan.acts, Plan.after, deferred])

end

/-! ## steps of the kernel -/

section
variable {may : Op → ProcessManager → Prop} {sie : Bool} {y y' : Sys ProcessManager ProcessError}

theorem not_runnable_of_blocked {pid : Pid} {st : State} (hb : st.blocked = true) (h : s.stateOf pid = some st) :
    ¬ s.Runnable pid := by
  rintro (hr | hr)
  · rw [h] at hr
    cases hr
    cases hb
  · rw [h] at hr
    cases hr
    cases hb

/-- scheduling does not touch who waits -/
theorem Tailed.stateOf_of_blocked {sch : Prop} {t : ProcessManager} (ht : Tailed sch s t) {pid : Pid} {st : State}
    (hb : st.blocked = true) (h : t.stateOf pid = some st) : s.stateOf pid = some st := by
  have hn := mt (ht.runnable pid).mpr (not_runnable_of_blocked hb h)
  rwa [← ht.stateOf_of_not_runnable hn]

theorem Op.entry_stateOf (op : Op) (s : ProcessManager) (pid : Pid) :
    (op.entry s).stateOf pid = s.stateOf pid ∧ (op.entry s).eventQueue = s.eventQueue ∧
      (op.entry s).running = s.running := by
  unfold Op.entry
  split <;> exact ⟨rfl, rfl, rfl⟩

/-- a process that waits for events after a step of somebody else did before; if it was in the list of an
event, it still is, and the event was not signalled -/
theorem Reachable.eventWait_step (hy : Reachable H may sie y) {l : Option Op}
    (h : y.step ProcessManager.running (Op.run H) l = some y') {pid : Pid} {event : ProcessEvent}
    (hwait : ∀ e, l ≠ some (.eventWait pid e)) (hexit : l = some .waitExit → pid ≠ y.st.running)
    (hst : y'.st.stateOf pid = some .eventWait) : y.st.stateOf pid = some .eventWait ∧
    (pid ∈ y.st.waiters event → pid ∈ y'.st.waiters event ∧ l ≠ some (.eventSignal event)) := by
  obtain ⟨rfl, -, ht⟩ | ⟨op, p, rfl, hp, ht⟩ := Reachable.step_cases hy h
  · refine ⟨ht.stateOf_of_blocked rfl hst, fun hm => ⟨?_, by simp⟩⟩
    unfold ProcessManager.waiters
    rwa [ht.eventQueue]
  · have hst := ht.stateOf_of_blocked rfl hst
    obtain ⟨hstate, hqueue, hrun⟩ := op.entry_stateOf y.st pid
    -- no act of this call puts the process to wait for an event
    have hno : ¬ ∃ a ∈ p.acts, ∃ t, a.Sets pid t .eventWait := by
      intro ⟨a, ha, t, hset⟩
      cases a with
      | eventOn q e =>
        obtain ⟨rfl, -⟩ := hset
        rcases hp.eventOn ha with rfl | ⟨rfl, e⟩
        · exact hwait _ rfl
        · exact hexit rfl (e.trans hrun)
      | _ => simp [Act.Sets] at hset
    refine ⟨hstate ▸ (applyAll_stateOf p.acts hst).resolve_right hno, fun hm => ?_⟩
    have hm' : pid ∈ (op.entry y.st).waiters event := by
      unfold ProcessManager.waiters
      rwa [hqueue]
    have htake : Act.takeEvent event ∉ p.acts := fun hmem =>
      hno (applyAll_woken (hp.takeEvent hmem pid hm') rfl hst)
    refine ⟨?_, ?_⟩
    · have := applyAll_waiters (H := H) p.acts (fun a ha e => htake (e ▸ ha)) hm'
      unfold ProcessManager.waiters at this ⊢
      rwa [ht.eventQueue]
    · rintro ⟨rfl⟩
      refine htake ?_
      cases hp with
      | fail h => exact h.elim
      | noEvent he => simp [Plan.acts]
      | eventSignal he => simp [Plan.acts, deferred]

/-- who waits for events after a call of `event_wait` for it is in the list of the event -/
theorem Reachable.listed_eventWait (hy : Reachable H may sie y) {pid : Pid} {event : ProcessEvent}
    (h : y.step ProcessManager.running (Op.run H) (some (.eventWait pid event)) = some y')
    (hst : y'.st.stateOf pid = some .eventWait) : pid ∈ y'.st.waiters event := by
  obtain ⟨e, -⟩ | ⟨op, p, e, hp, ht⟩ := Reachable.step_cases hy h
  · cases e
  · cases e
    have hst := ht.stateOf_of_blocked rfl hst
    unfold ProcessManager.waiters
    rw [ht.eventQueue]
    cases hp with
    | fail h =>
      have hnone : (Op.entry (.eventWait pid event) y.st).stateOf pid = none := by
        unfold ProcessManager.stateOf
        rw [h.1]
        rfl
      exact absurd (hnone.symm.trans hst) (by simp)
    | eventWait _ hp =>
      show pid ∈ ((y.st.masked.setState pid .eventWait).setEvent event
        (some (y.st.masked.waiters event ++ [pid]))).waiters event
      rw [waiters_setEvent, if_pos rfl]
      exact List.mem_append_right _ List.mem_cons_self

/-- `io_wait` blocks the process it names and changes nothing else -/
theorem ioWait_step {pid : Pid} (hpid : (y.st.ptable pid).isSome)
    (h : y.step ProcessManager.running (Op.run H) (some (.ioWait pid)) = some y') :
    y'.st.stateOf pid = some .ioWait ∧ ∀ q, q ≠ pid → y'.st.stateOf q = y.st.stateOf q := by
  obtain ⟨k, e, -⟩ | ⟨op, e, -, hset⟩ := Sys.step_cases h
  · cases e
  · cases e
    obtain ⟨p, hp⟩ := Option.isSome_iff_exists.mp hpid
    have hp' : y.st.masked.ptable pid = some p := hp
    have hrun : Op.run H (.ioWait pid) y.st
        = .ok () { y.st.masked.setState pid .ioWait with sie := (y.st.masked.setState pid .ioWait).sie || y.st.sie } := by
      simp only [Op.run, Citron.ioWait, Prog.bind_run, interruptDisable_run, Res.ok_bind,
        setProcessState_some .ioWait hp', interruptRestore_run]
    rw [hrun] at hset
    cases hset
    refine ⟨?_, fun q hq => ProcessManager.stateOf_setState_of_ne _ _ _ hq⟩
    show (y.st.masked.setState pid .ioWait).stateOf pid = _
    rw [ProcessManager.stateOf_setState, if_pos rfl, ProcessManager.stateOf_of_ptable hp']
    rfl

/-- `io_signal` makes the process it names ready, and of those that wait no other -/
theorem Reachable.ioSignal_step (hy : Reachable H may sie y) {pid : Pid}
    (h : y.step ProcessManager.running (Op.run H) (some (.ioSignal pid)) = some y') :
    (∀ st, y.st.stateOf pid = some st → st.blocked = true → y'.st.Runnable pid) ∧
      ∀ q st, q ≠ pid → y.st.stateOf q = some st → st.blocked = true → y'.st.stateOf q = some st := by
  obtain ⟨e, -⟩ | ⟨op, p, e, hp, ht⟩ := Reachable.step_cases hy h
  · cases e
  · cases e
    cases hp with
    | fail h =>
      have hnone : y.st.stateOf pid = none := by
        have : y.st.ptable pid = none := h.1
        unfold ProcessManager.stateOf
        rw [this]
        rfl
      refine ⟨fun st hst => absurd (hnone.symm.trans hst) (by simp), fun q st hq hst hb => ?_⟩
      have hst' : (Op.entry (.ioSignal pid) y.st).stateOf q = some st := hst
      exact (ht.stateOf_of_not_runnable (not_runnable_of_blocked hb hst')).trans hst'
    | ioSignal hp =>
      refine ⟨fun st hst hb => (ht.runnable pid).mpr (.inr ?_), fun q st hq hst hb => ?_⟩
      · exact wake_ready (s := y.st.masked) hst hb
      · have hst' : (y.st.masked.wake H pid).stateOf q = some st := by
          rcases wake_stateOf (H := H) (s := y.st.masked) pid q with h | ⟨e, -⟩
          · exact h.trans hst
          · exact absurd e hq
        exact (ht.stateOf_of_not_runnable (not_runnable_of_blocked hb hst')).trans hst'

end

end Citron
