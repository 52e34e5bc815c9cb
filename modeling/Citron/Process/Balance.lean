import Citron.Process.Return

/-!
# Deferrals are balanced, failures leave no trace

* `watch`, `Op.runWith_watch`   one that stops the machine when a deferral is ended that the call has not begun:
                        it never does;
* `Planned.count`       the acts of a call end as many deferrals as they begin;
* `scheduler_balanced`  so each call comes back with the deferrals of its beginning, gives the processor away only
                        outside of all, and fails only at once and without a change.
-/

set_option linter.unusedSectionVars false

namespace Citron
open Resumption

/-! ## watched calls -/

section
variable (H : Heap)

/-- `defer_schedule`, except that the machine stops where the count would go below `floor` -/
def watch (floor : Nat) : DeferCommand → PM Unit
  | .start => deferSchedule H .start
  | .stop => do
    if (← Prog.get).defer.count ≤ floor then Prog.panic else deferSchedule H .stop

theorem watch_stop {floor : Nat} {s : ProcessManager} (h : floor < s.defer.count) :
    watch H floor .stop s = deferSchedule H .stop s := by
  show (if s.defer.count ≤ floor then Prog.panic else deferSchedule H .stop) s = _
  rw [if_neg (by omega)]

end

/-! ## deferrals of the acts -/

/-- the act neither begins nor ends a deferral -/
def Act.plain : Act → Bool
  | .start => false
  | .stop => false
  | _ => true

section
variable {H : Heap} {s : ProcessManager}

theorem Act.count_apply {a : Act} (h : a.plain = true) : (a.apply H s).defer.count = s.defer.count := by
  cases a with
  | start => cases h
  | stop => cases h
  | semWait sid =>
    cases hx : s.stable sid with
    | none => rw [semWait_none hx]
    | some x =>
      by_cases hc : x.take.count < 0
      · rw [semWait_block hx hc]; rfl
      · rw [semWait_pass hx hc]; rfl
  | semPost sid =>
    cases hx : s.stable sid with
    | none => rw [semPost_none hx]
    | some x => rw [semPost_some hx]; rfl
  | semPop sid =>
    cases hx : s.stable sid with
    | none => rw [semPop_none hx]
    | some x => rw [semPop_some hx]; rfl
  | semFree sid =>
    cases hx : s.stable sid with
    | none => rw [semFree_none hx]
    | some x => rw [semFree_some hx]; rfl
  | wake q =>
    show (s.wake H q).defer.count = _
    unfold ProcessManager.wake
    split
    · split <;> rfl
    · rfl
  | wakeLater q => exact wakeLater_count H s q
  | sleepers pids =>
    show (s.wakeSleepers H pids).defer.count = _
    induction pids generalizing s with
    | nil => rfl
    | cons q pids ih =>
      unfold ProcessManager.wakeSleepers
      rw [ih rfl]
      split
      · exact wakeLater_count H s q
      · rfl
  | _ => rfl

theorem applyAll_count (acts : List Act) : ∀ {s : ProcessManager}, acts.all Act.plain = true →
    (applyAll H acts s).defer.count = s.defer.count := by
  induction acts with
  | nil => exact fun _ => rfl
  | cons a acts ih =>
    intro s h
    obtain ⟨ha, h⟩ := Bool.and_eq_true_iff.mp h
    exact (ih h).trans (Act.count_apply ha)

/-- acts between the beginning and the end of a deferral -/
theorem count_deferred (acts : List Act) (h : acts.all Act.plain = true) :
    (applyAll H (.start :: acts ++ [.stop]) s).defer.count = s.defer.count := by
  have hc := applyAll_count (H := H) acts (s := (Act.start).apply H s) h
  rw [List.cons_append, applyAll_cons, applyAll_append]
  show (if (applyAll H acts ((Act.start).apply H s)).defer.count = 0 then _ else
    (applyAll H acts ((Act.start).apply H s)).defer.count - 1) = _
  rw [hc]
  rfl

/-- **The acts of a call are balanced.** -/
theorem Planned.count {mask : Bool} {op : Op} {p : Plan} (h : Planned H s mask op p) (h1 : op ≠ .deferStart)
    (h2 : op ≠ .deferStop) : (applyAll H p.acts s).defer.count = s.defer.count := by
  cases h with
  | create priority doSetup =>
    refine count_deferred (.create priority :: if doSetup then [.setup s.currPid] else []) ?_
    cases doSetup <;> rfl
  | createKernel priority => exact count_deferred [.create priority] rfl
  | semDelete hx hk =>
    refine (count_deferred (s := (Act.semFree _).apply H s) _ ?_).trans (Act.count_apply rfl)
    simp [freeAll, Act.plain]
  | wakeup => exact (count_deferred (s := (Act.tick).apply H s) _ rfl).trans (Act.count_apply rfl)
  | @kill pid p hp he =>
    exact (count_deferred (s := (Act.kill pid).apply H s) [.takeEvent (.exit pid)] rfl).trans
      (Act.count_apply rfl)
  | killSignal hp he =>
    refine (count_deferred (s := (Act.kill _).apply H s) _ ?_).trans (Act.count_apply rfl)
    simp [Act.plain]
  | noEvent he => exact count_deferred [.takeEvent _] rfl
  | eventSignal he => exact count_deferred _ (by simp [Act.plain])
  | waitExit hp hn => exact count_deferred _ (by simp [Act.plain])
  | start => exact absurd rfl h1
  | stop => exact absurd rfl h2
  | _ => exact applyAll_count _ rfl

end

/-! ## the watch never strikes -/

section
variable {H : Heap} {s : ProcessManager} {floor : Nat}

theorem watch_start (t : ProcessManager) : watch H floor .start t = .ok () ((Act.start).apply H t) := rfl

theorem createProcess_watch (priority : Nat) (doSetup : Bool) (hf : floor ≤ s.defer.count) :
    createProcessWith (watch H floor) priority doSetup s = createProcessWith (deferSchedule H) priority doSetup s := by
  have hstop : ∀ {t : ProcessManager}, t.defer = ((Act.start).apply H s).defer →
      watch H floor .stop t = deferSchedule H .stop t := by
    intro t ht
    refine watch_stop H ?_
    rw [ht]
    exact Nat.lt_succ_of_le hf
  unfold createProcessWith
  cases doSetup with
  | false =>
    refine congrArg (fun r : Res ProcessManager ProcessError Unit => r.bind fun _ t => .ok s.currPid t)
      (hstop (t := (Act.create priority).apply H ((Act.start).apply H s)) rfl)
  | true =>
    have hc : ((Act.create priority).apply H ((Act.start).apply H s)).ptable s.currPid
        = some { Process.new s.currPid with priority, state := .suspend } := by
      simp [Act.apply, ProcessManager.insertProcess]
    show (setupProcess s.currPid ((Act.create priority).apply H ((Act.start).apply H s))).bind
        (fun _ t => (watch H floor .stop t).bind fun _ t => .ok s.currPid t)
      = (setupProcess s.currPid ((Act.create priority).apply H ((Act.start).apply H s))).bind
        (fun _ t => (deferSchedule H .stop t).bind fun _ t => .ok s.currPid t)
    simp only [setupProcess, Prog.bind_run, getProcess_some hc, Res.ok_bind, Prog.modify_run]
    rw [hstop]
    rfl

theorem eventSignal_watch (event : ProcessEvent) (hf : floor ≤ s.defer.count)
    (hp : ∀ pid ∈ s.waiters event, (s.ptable pid).isSome) :
    eventSignalWith H (schedule H) (watch H floor) event s = eventSignalWith H (schedule H) (deferSchedule H) event s := by
  have hstart : ∀ t, deferSchedule H .start t = .ok () ((Act.start).apply H t) := fun _ => rfl
  have hq : ((Act.start).apply H s.masked).eventQueue event = s.eventQueue event := rfl
  unfold eventSignalWith
  simp only [Prog.bind_run, interruptDisable_run, Res.ok_bind, hstart, watch_start, Prog.get_run, Prog.modify_run, hq]
  cases he : s.eventQueue event with
  | none =>
    simp only [Prog.bind_run]
    rw [watch_stop H (Nat.lt_succ_of_le hf)]
  | some pids =>
    have hw : s.waiters event = pids := by simp [ProcessManager.waiters, he]
    rw [hw] at hp
    have hr := readyAll_deferred H (schedule_defers H) pids (s := ((Act.start).apply H s.masked).setEvent event none)
      (Nat.succ_pos _) hp
    simp only [Prog.bind_run, hr, Res.ok_bind]
    rw [watch_stop H]
    rw [applyAll_count _ (by simp [Act.plain])]
    exact Nat.lt_succ_of_le hf

theorem createKernelProcess_watch (priority : Nat) (hf : floor ≤ s.defer.count) :
    createKernelProcessWith (watch H floor) priority s = createKernelProcessWith (deferSchedule H) priority s := by
  unfold createKernelProcessWith
  rw [Prog.bind_run, createProcess_watch priority false hf]
  rfl

theorem kill_watch (hs : Closed s) (pid : Pid) (hf : floor ≤ s.defer.count) :
    killWith H (schedule H) (watch H floor) pid s = killWith H (schedule H) (deferSchedule H) pid s := by
  unfold killWith
  simp only [Prog.bind_run, interruptDisable_run, Res.ok_bind]
  cases h : s.masked.ptable pid with
  | none => simp only [getProcess_none h, Res.err_bind]
  | some p =>
    simp only [getProcess_some h, Res.ok_bind]
    by_cases hfree : p.state = .free
    · simp only [hfree, ne_eq, not_true_eq_false, if_false, Prog.bind_run]
      rw [eventSignal_watch (s := s.masked) (.exit pid) hf (hs.event (.exit pid))]
    · simp only [hfree, ne_eq, not_false_eq_true, if_true, Prog.bind_run, setProcessState_some _ h, Res.ok_bind]
      rw [eventSignal_watch (s := s.masked.setState pid .free) (.exit pid) hf
        fun q hq => (isSome_setState ..).trans (hs.event (.exit pid) q hq)]

theorem waitExit_watch (hs : Closed s) (hf : floor ≤ s.defer.count) :
    waitExitWith (schedule H) (watch H floor) s = waitExitWith (schedule H) (deferSchedule H) s := by
  obtain ⟨p, h⟩ := Option.isSome_iff_exists.mp hs.running
  have h' : s.masked.ptable s.masked.running = some p := h
  have hchild : s.childrenOf s.running = p.children := by simp [ProcessManager.childrenOf, h]
  have hreap := reapChild_run H (s := s.masked) s.masked.running hs.running p.children
    (hchild ▸ hs.child s.running)
  have hstart : ∀ t, deferSchedule H .start t = .ok () ((Act.start).apply H t) := fun _ => rfl
  unfold waitExitWith
  simp only [Prog.bind_run, interruptDisable_run, Res.ok_bind, Prog.get_run, getProcess_some h', hreap]
  cases exited s.masked p.children with
  | some pid => rfl
  | none =>
    have hm := waitChildren_deferred H (schedule_defers H) p.children (s := (Act.start).apply H s.masked)
      (Nat.succ_pos _) hs.running rfl
    have hp : ((Act.start).apply H s.masked).ptable ((Act.start).apply H s.masked).running
        = some p := h
    simp only [Res.ok_bind, Bool.false_eq_true, if_false, Prog.bind_run, hstart, watch_start, Prog.get_run,
      getProcess_some hp, hm]
    rw [watch_stop H]
    rw [applyAll_count _ (by simp [Act.plain])]
    exact Nat.lt_succ_of_le hf

theorem wakeup_watch (hs : Closed s) (hf : floor ≤ s.defer.count) :
    wakeupWith H (schedule H) (watch H floor) s = wakeupWith H (schedule H) (deferSchedule H) s := by
  have hstart : ∀ t, deferSchedule H .start t = .ok () ((Act.start).apply H t) := fun _ => rfl
  unfold wakeupWith
  simp only [Prog.bind_run, interruptDisable_run, Res.ok_bind, Prog.get_run]
  cases hq : s.masked.sleepQueue with
  | nil => rfl
  | cons p rest =>
    have ht : s.ticked = p.tick :: rest := by
      unfold ProcessManager.ticked
      rw [show s.sleepQueue = p :: rest from hq]
    have hp := hs.sleepers
    rw [ht] at hp
    have hm := readySleepers_deferred H (schedule_defers H) _ (s := (Act.start).apply H
      { s.masked with sleepQueue := (p.tick :: rest).dropWhile (·.delay = 0) }) (Nat.succ_pos _) hp
    simp only [Prog.bind_run, Prog.modify_run, Res.ok_bind, hstart, watch_start, hm]
    rw [watch_stop H]
    show _ < ((Act.sleepers _).apply H _).defer.count
    rw [Act.count_apply rfl]
    exact Nat.lt_succ_of_le hf

theorem deleteSemaphore_watch (hs : Closed s) (sid : Sid) (hf : floor ≤ s.defer.count) :
    deleteSemaphoreWith H (schedule H) (watch H floor) sid s =
      deleteSemaphoreWith H (schedule H) (deferSchedule H) sid s := by
  have hstart : ∀ t, deferSchedule H .start t = .ok () ((Act.start).apply H t) := fun _ => rfl
  unfold deleteSemaphoreWith
  simp only [Prog.bind_run, interruptDisable_run, Res.ok_bind]
  cases hx : s.masked.stable sid with
  | none => simp only [updateSemaphore_none _ hx, Res.err_bind]
  | some x =>
    have hx' : ((Act.start).apply H (s.masked.setSemaphore sid { x with state := .free })).stable sid
        = some { x with state := .free } := by
      simp [Act.apply, ProcessManager.setSemaphore]
    have hloop := deleteLoop_deferred H (schedule_defers H) sid _ (Nat.succ_pos _) hx' rfl (hs.sem sid x hx)
    simp only [updateSemaphore_some _ hx, Res.ok_bind, hstart, watch_start, Prog.bind_run, getSemaphore_some hx', hloop]
    by_cases hk : (-x.count.toInt).toNat ≤ x.queue.length
    · simp only [hk, if_true, Res.ok_bind, Prog.bind_run]
      rw [watch_stop H]
      rw [applyAll_count _ (by simp [freeAll, Act.plain])]
      exact Nat.lt_succ_of_le hf
    · simp only [hk, if_false, Res.panic_bind]

/-- **No call ends a deferral that it has not begun**: the watch never strikes. -/
theorem Op.runWith_watch (hs : Closed s) (op : Op) (hop : op ≠ .deferStop) :
    op.runWith H (Citron.schedule H) (watch H s.defer.count) s = op.run H s := by
  have hf := Nat.le_refl s.defer.count
  rw [← op.runWith_schedule]
  cases op with
  | createProcess priority doSetup =>
    exact congrArg (Res.bind · fun _ t => .ok () t) (createProcess_watch priority doSetup hf)
  | createKernelProcess priority =>
    exact congrArg (Res.bind · fun _ t => .ok () t) (createKernelProcess_watch priority hf)
  | deleteSemaphore sid => exact deleteSemaphore_watch hs sid hf
  | wakeup => exact wakeup_watch hs hf
  | kill pid => exact kill_watch hs pid hf
  | eventSignal event => exact eventSignal_watch event hf (hs.event event)
  | waitExit => exact waitExit_watch hs hf
  | deferStop => exact absurd rfl hop
  | _ => rfl

/-! ## failures -/

/-- scheduling does not fail -/
theorem runTail_firm (l : List Tail) : ∀ {s : ProcessManager}, Inv s →
    (runTail (schedule H) l s).Firm (fun s => Inv s ∧ s.Settled) := by
  induction l with
  | nil => exact fun _ => trivial
  | cons x l ih =>
    intro s hs
    cases x with
    | restore mask => exact ih (hs.setSie (s.sie || mask))
    | sched =>
      have h := schedule_cases H hs.toClosed
      rw [runTail_sched]
      cases hr : schedule H s with
      | ok a t =>
        rw [hr] at h
        exact ih (hs.scheduled_ok H h).1.1
      | err e t =>
        rw [hr] at h
        cases h
      | panic => trivial
      | switch t k =>
        rw [hr] at h
        obtain ⟨-, rfl⟩ := hs.scheduled_switch H h
        exact fun s' hs' => ih (hs'.1.setSie _)

/-- a call that names nothing that is missing does not fail -/
theorem Op.run_firm (op : Op) (hs : Inv s) (hset : s.Settled) (h : ∀ e, ¬ op.Missing s e) :
    (op.run H s).Firm (fun s => Inv s ∧ s.Settled) := by
  obtain ⟨hi, -, -⟩ := op.inv_entry hs hset
  have hp := op.body_cases hi.toClosed (H := H) s.sie
  have hia := hi.applyAll (H := H) (hp.valid hi)
  rw [Op.run_eq_body H hs.toClosed]
  generalize op.body H (op.entry s) s.sie = p at *
  cases p with
  | panic => trivial
  | go acts tail => exact runTail_firm tail hia
  | fail e acts =>
    cases hp with
    | fail he => exact absurd (Op.missing_entry.mp he) (h e)

variable {may : Op → ProcessManager → Prop} {sie : Bool} {y z : Sys ProcessManager ProcessError}

/-- a call fails only if it names something that is missing, and then has changed nothing but the mask -/
theorem Op.During.fails {op : Op} {e : ProcessError} {t : ProcessManager} (h : op.During H may y z (.err e t))
    (hy : Reached H may sie y) (hop : may op y.st) (hcall : y.susp y.st.running = none) :
    op.Missing y.st e ∧ t = op.entry y.st := by
  obtain ⟨hs, hset⟩ := (Reached.held hy).inv
  by_cases hmiss : ∃ e, op.Missing y.st e
  · obtain ⟨e', he⟩ := hmiss
    have hrun : op.run H y.st = .err e' (op.entry y.st) := by
      rw [Op.run_eq_body H hs.toClosed, Op.body_missing _ (Op.missing_entry.mpr he)]
      rfl
    have hr := Sys.During.carry (P := (· = .err e' (op.entry y.st))) pledge_fits Reached.held h hy hop hcall hrun
      fun _ _ _ h => nomatch h
    cases hr
    exact ⟨he, rfl⟩
  · have hfirm := op.run_firm (H := H) hs hset fun e he => hmiss ⟨e, he⟩
    exact (Sys.During.carry (P := (·.Firm fun s => Inv s ∧ s.Settled)) pledge_fits Reached.held h hy hop hcall hfirm
      fun _ _ s' hk hs' => hk s' hs'.1).elim

end

/-- **Operations are balanced and fail without a trace.**  In every run in which `defer_schedule(Stop)` is called
only in a deferral: a call of any other operation never ends a deferral that it has not begun, comes back with the
deferrals of its beginning, gives the processor away only outside of all deferrals, and fails only if the process or
the semaphore that it names does not exist, with everything but the mask as it was. -/
theorem scheduler_balanced (H : Heap) (sie : Bool) (y : Sys ProcessManager ProcessError)
    (hy : Reached H Op.Balanced sie y) (hcall : y.susp y.st.running = none) (op : Op) (h1 : op ≠ .deferStart)
    (h2 : op ≠ .deferStop) :
    op.runWith H (schedule H) (watch H y.st.defer.count) y.st = op.run H y.st ∧
    ∀ z r, op.During H Op.Balanced y z r →
      (∀ t, r.returned = some t → t.defer.count = y.st.defer.count) ∧
      (∀ t k, r = .switch t k → t.defer.count = 0) ∧
      (∀ e t, r = .err e t → op.Missing y.st e ∧ t = { y.st with sie := t.sie }) := by
  obtain ⟨hs, hset⟩ := (Reached.held hy).inv
  have hmay : op.Balanced y.st := fun e => absurd e h2
  refine ⟨op.runWith_watch hs.toClosed h2, fun z r h => ⟨fun t ht => ?_, fun t k e => ?_, fun e t he => ?_⟩⟩
  · obtain ⟨G, hens⟩ := h.pledged hy hmay hcall
    have hplan := op.body_cases (op.inv_entry hs hset).1.toClosed (H := H) y.st.sie
    rw [(hens.returned ht).2.2, hplan.count h1 h2, op.entry_defer]
  · obtain ⟨G, hens⟩ := h.pledged hy hmay hcall
    rw [e] at hens
    exact hens.2.1.2.1
  · subst he
    obtain ⟨hmiss, rfl⟩ := h.fails hy hmay hcall
    refine ⟨hmiss, ?_⟩
    unfold Op.entry
    split <;> rfl

/-- The call `io_signal` gives the processor to process 1 outside of all deferrals; `sleep` of a process that does not
exist fails. -/
theorem scheduler_balanced_example : ∃ y, Reached (BinaryHeap.scan _) Op.Balanced true y ∧
    (∃ t k, (Op.ioSignal 1).run (BinaryHeap.scan _) y.st = .switch t k ∧ t.running = 1 ∧ t.defer.count = 0) ∧
    (∃ t, (Op.sleep 9 1).run (BinaryHeap.scan _) y.st = .err (.processNotFound 9) t ∧ t = { y.st with sie := t.sie }) := by
  let y₀ : Sys ProcessManager ProcessError := ⟨ProcessManager.booted (BinaryHeap.scan _) true, fun _ => none⟩
  let z₀ := y₀.step ProcessManager.running (Turn.run (BinaryHeap.scan _)) (some (.call (.createProcess 5 true)))
  have hrun : (z₀.map fun y => (((Op.ioSignal 1).run (BinaryHeap.scan _) y.st).returned.isNone,
      ((Op.ioSignal 1).run (BinaryHeap.scan _) y.st).first.map (·.running), (y.susp y.st.running).isNone,
      (y.st.ptable 9).isNone)) = some (true, some 1, true, true) := rfl
  obtain ⟨y, hy, hrun⟩ := Option.map_eq_some_iff.mp hrun
  simp only [Prod.mk.injEq, Option.isNone_iff_eq_none] at hrun
  obtain ⟨hret, hfirst, hnone, hmiss⟩ := hrun
  have hreach : Reached (BinaryHeap.scan _) Op.Balanced true y :=
    .step .init (fun op e => by cases e; exact fun e => nomatch e) hy
  have hsig := (scheduler_balanced _ _ y hreach hnone (.ioSignal 1) (by simp) (by simp)).2 y _ .call
  have hsleep := (scheduler_balanced _ _ y hreach hnone (.sleep 9 1) (by simp) (by simp)).2 y _ .call
  refine ⟨y, hreach, ?_, ?_⟩
  · cases hr : (Op.ioSignal 1).run (BinaryHeap.scan _) y.st with
    | switch t k =>
      rw [hr] at hfirst
      exact ⟨t, k, rfl, Option.some.inj hfirst, hsig.2.1 t k hr⟩
    | panic => rw [hr] at hfirst; cases hfirst
    | _ => rw [hr] at hret; cases hret
  · have herr : (Op.sleep 9 1).run (BinaryHeap.scan _) y.st = .err (.processNotFound 9) y.st.masked := by
      show Citron.sleep _ 9 1 y.st = _
      unfold Citron.sleep
      simp only [Prog.bind_run, interruptDisable_run, Res.ok_bind, setProcessState_none (s := y.st.masked) _ hmiss,
        Res.err_bind]
    exact ⟨_, herr, (hsleep.2.2 _ _ herr).2⟩

end Citron
