import Citron.Process.Plan

/-!
# The code does its plan

`Op.run_eq_body`: in a state in which every pid kept anywhere is in the process table, a call of an
operation is its acts followed by its tail.  Each function of the source gets one equation; the
loops run under a deferral, where `schedule` only notes the attempt.
-/

set_option linter.unusedSectionVars false

namespace Citron
open Resumption

/-- every pid kept anywhere is in the process table, and pids not given out are not -/
structure Closed (s : ProcessManager) : Prop where
  running : (s.ptable s.running).isSome
  desc : ∀ d ∈ s.pqueue, (s.ptable d.pid).isSome
  sleep : ∀ d ∈ s.sleepQueue, (s.ptable d.pid).isSome
  sem : ∀ sid x, s.stable sid = some x → ∀ pid ∈ x.queue, (s.ptable pid).isSome
  event : ∀ event, ∀ pid ∈ s.waiters event, (s.ptable pid).isSome
  child : ∀ pid, ∀ c ∈ s.childrenOf pid, (s.ptable c).isSome
  fresh : ∀ pid, s.currPid ≤ pid → s.ptable pid = none

/-- the processes themselves, the heap and the running pid may change, if no process comes or goes -/
theorem Closed.of_same {s t : ProcessManager} (hs : Closed s)
    (hp : ∀ q, (t.ptable q).isSome = (s.ptable q).isSome)
    (hc : ∀ q, ∀ c ∈ t.childrenOf q, c ∈ s.childrenOf q) (hr : (s.ptable t.running).isSome)
    (hd : ∀ d ∈ t.pqueue, (s.ptable d.pid).isSome) (h1 : t.sleepQueue = s.sleepQueue)
    (h2 : t.stable = s.stable) (h3 : t.eventQueue = s.eventQueue) (h4 : t.currPid = s.currPid) :
    Closed t where
  running := by rwa [hp]
  desc d h := by
    rw [hp]
    exact hd d h
  sleep d h := by
    rw [hp]
    exact hs.sleep d (h1 ▸ h)
  sem sid x hx pid h := by
    rw [hp]
    exact hs.sem sid x (h2 ▸ hx) pid h
  event event pid h := by
    rw [hp]
    refine hs.event event pid ?_
    unfold ProcessManager.waiters at h ⊢
    rwa [h3] at h
  child pid c h := by
    rw [hp]
    exact hs.child pid c (hc pid c h)
  fresh pid h := by
    rw [← Option.not_isSome_iff_eq_none, hp, hs.fresh pid (h4 ▸ h)]
    simp

/-! ## access -/

section
variable {s : ProcessManager} {pid : Pid} {p : Process} {sid : Sid} {x : Semaphore}

theorem getProcess_some (h : s.ptable pid = some p) : getProcess pid s = .ok p s := by
  simp [getProcess, h]

theorem getProcess_none (h : s.ptable pid = none) :
    getProcess pid s = .err (.processNotFound pid) s := by
  simp [getProcess, h]

theorem setProcessState_some (st : State) (h : s.ptable pid = some p) :
    setProcessState pid st s = .ok () (s.setState pid st) := by
  simp [setProcessState, getProcess_some h]

theorem setProcessState_none (st : State) (h : s.ptable pid = none) :
    setProcessState pid st s = .err (.processNotFound pid) s := by
  simp [setProcessState, getProcess_none h]

theorem getSemaphore_some (h : s.stable sid = some x) : getSemaphore sid s = .ok x s := by
  simp [getSemaphore, h]

theorem getSemaphore_none (h : s.stable sid = none) :
    getSemaphore sid s = .err (.semaphoreNotFound sid) s := by
  simp [getSemaphore, h]

theorem updateSemaphore_some (f : Semaphore → Semaphore) (h : s.stable sid = some x) :
    updateSemaphore sid f s = .ok () (s.setSemaphore sid (f x)) := by
  simp [updateSemaphore, getSemaphore_some h]

theorem updateSemaphore_none (f : Semaphore → Semaphore) (h : s.stable sid = none) :
    updateSemaphore sid f s = .err (.semaphoreNotFound sid) s := by
  simp [updateSemaphore, getSemaphore_none h]

@[simp] theorem interruptDisable_run (s : ProcessManager) :
    interruptDisable s = .ok s.sie s.masked := rfl

@[simp] theorem interruptRestore_run (mask : Bool) (s : ProcessManager) :
    interruptRestore mask s = .ok () { s with sie := s.sie || mask } := rfl

@[simp] theorem pushReady_run (H : Heap) (d : ProcessDesc) (s : ProcessManager) :
    pushReady H d s = .ok () (s.setQueue (H.push s.pqueue d)) := rfl

end

section
variable (H : Heap)

/-! ## what waking leaves alone -/

section
variable (s : ProcessManager) (pid : Pid)

theorem wakeLater_cases : s.wakeLater H pid = s ∨ ∃ p, s.ptable pid = some p ∧
    p.state.blocked = true ∧ s.wakeLater H pid = (s.makeReady H pid p).setAttempt := by
  unfold ProcessManager.wakeLater
  cases h : s.ptable pid with
  | none => exact .inl rfl
  | some p =>
    cases hb : p.state.blocked with
    | false => exact .inl (by simp [hb])
    | true => exact .inr ⟨p, rfl, hb, by simp [hb]⟩

@[simp] theorem isSome_updateProcess (f : Process → Process) (q : Pid) :
    ((s.updateProcess pid f).ptable q).isSome = (s.ptable q).isSome := by
  unfold ProcessManager.updateProcess
  by_cases h : q = pid
  · subst h; simp
  · simp [Function.update_of_ne h]

@[simp] theorem isSome_setState (st : State) (q : Pid) :
    ((s.setState pid st).ptable q).isSome = (s.ptable q).isSome :=
  isSome_updateProcess ..

@[simp] theorem isSome_wakeLater (q : Pid) :
    ((s.wakeLater H pid).ptable q).isSome = (s.ptable q).isSome := by
  rcases wakeLater_cases H s pid with h | ⟨p, _, _, h⟩
  · rw [h]
  · rw [h]
    exact isSome_setState ..

@[simp] theorem wakeLater_count : (s.wakeLater H pid).defer.count = s.defer.count := by
  rcases wakeLater_cases H s pid with h | ⟨p, _, _, h⟩
  · rw [h]
  · rw [h]; rfl

@[simp] theorem wakeLater_stable : (s.wakeLater H pid).stable = s.stable := by
  rcases wakeLater_cases H s pid with h | ⟨p, _, _, h⟩
  · rw [h]
  · rw [h]; rfl

theorem wakeLater_setSemaphore (sid : Sid) (x : Semaphore) :
    (s.setSemaphore sid x).wakeLater H pid = (s.wakeLater H pid).setSemaphore sid x := by
  have hp : (s.setSemaphore sid x).ptable pid = s.ptable pid := rfl
  unfold ProcessManager.wakeLater
  rw [hp]
  cases s.ptable pid with
  | none => rfl
  | some p =>
    cases hb : p.state.blocked with
    | false => simp [hb]
    | true => simp only [hb, if_true]; rfl

theorem setSemaphore_setSemaphore (sid : Sid) (x x' : Semaphore) :
    (s.setSemaphore sid x).setSemaphore sid x' = s.setSemaphore sid x' := by
  simp [ProcessManager.setSemaphore]

end

/-! ## under a deferral -/

/-- all that `schedule` does under a deferral is to note the attempt -/
def Defers (sched : PM Unit) : Prop := ∀ s, 0 < s.defer.count → sched s = .ok () s.setAttempt

theorem schedule_deferred {s : ProcessManager} (h : 0 < s.defer.count) :
    schedule H s = .ok () s.setAttempt := by
  simp [schedule, h, ProcessManager.setAttempt]

theorem schedule_defers : Defers (schedule H) := fun _ h => schedule_deferred H h

section
variable {sched : PM Unit}

theorem ready_some {s : ProcessManager} {pid : Pid} {p : Process} (h : s.ptable pid = some p) :
    readyWith H sched pid s = if p.state.blocked then sched (s.makeReady H pid p) else .ok () s := by
  unfold readyWith
  simp only [Prog.bind_run, getProcess_some h, Res.ok_bind, Prog.ite_run, Prog.pure_run]
  cases hb : p.state.blocked with
  | false => simp [(State.blocked_iff _).mp hb]
  | true =>
    have hn : ¬ (p.state = .free ∨ p.state = .running ∨ p.state = .ready) := by
      rw [← State.blocked_iff, hb]
      simp
    have hp : (s.setState pid .ready).ptable pid = some { p with state := .ready } := by
      simp [ProcessManager.setState, ProcessManager.updateProcess, h]
    simp only [hn, if_false, if_true, Prog.bind_run, setProcessState_some _ h, Res.ok_bind,
      getProcess_some hp, pushReady_run]
    rfl

theorem ready_none {s : ProcessManager} {pid : Pid} (h : s.ptable pid = none) :
    readyWith H sched pid s = .err (.processNotFound pid) s := by
  simp [readyWith, getProcess_none h]

theorem ready_deferred (hsched : Defers sched) {s : ProcessManager} {pid : Pid} (hd : 0 < s.defer.count)
    (h : (s.ptable pid).isSome) : readyWith H sched pid s = .ok () (s.wakeLater H pid) := by
  obtain ⟨p, hp⟩ := Option.isSome_iff_exists.mp h
  rw [ready_some H hp]
  unfold ProcessManager.wakeLater
  rw [hp]
  cases hb : p.state.blocked with
  | false => simp [hb]
  | true =>
    simp only [hb, if_true]
    exact hsched _ hd

theorem deferStop_run (s : ProcessManager) :
    deferScheduleWith sched .stop s = runTail sched (stopTail s) ((Act.stop).apply H s) := by
  have hc : ((Act.stop).apply H s).defer.count = 0 ↔ s.defer.count = 1 := by
    show (if s.defer.count = 0 then 2^64 - 1 else s.defer.count - 1) = 0 ↔ _
    split <;> omega
  show (if ((Act.stop).apply H s).defer.count = 0 ∧ s.defer.attempt = true
    then sched else pure ()) ((Act.stop).apply H s) = _
  unfold stopTail
  by_cases h : s.defer.count = 1 ∧ s.defer.attempt = true
  · rw [if_pos ⟨hc.mpr h.1, h.2⟩, if_pos h, runTail_single]
  · rw [if_neg (fun h' => h ⟨hc.mp h'.1, h'.2⟩), if_neg h]
    rfl

theorem readyAll_deferred (hsched : Defers sched) (pids : List Pid) : ∀ {s : ProcessManager}, 0 < s.defer.count →
    (∀ pid ∈ pids, (s.ptable pid).isSome) →
    readyAllWith H sched pids s = .ok () (applyAll H (pids.map .wakeLater) s) := by
  induction pids with
  | nil => intro s _ _; rfl
  | cons pid pids ih =>
    intro s hd hp
    unfold readyAllWith
    rw [Prog.bind_run, ready_deferred H hsched hd (hp pid (List.mem_cons_self ..)), Res.ok_bind]
    exact ih (by simpa using hd) (fun q hq => by simpa using hp q (List.mem_cons_of_mem _ hq))

theorem readySleepers_deferred (hsched : Defers sched) (pids : List Pid) : ∀ {s : ProcessManager}, 0 < s.defer.count →
    (∀ pid ∈ pids, (s.ptable pid).isSome) →
    readySleepersWith H sched pids s = .ok () (s.wakeSleepers H pids) := by
  induction pids with
  | nil => intro s _ _; rfl
  | cons pid pids ih =>
    intro s hd hp
    have hpid := hp pid (List.mem_cons_self ..)
    have hrest := fun q hq => hp q (List.mem_cons_of_mem _ hq)
    obtain ⟨p, h⟩ := Option.isSome_iff_exists.mp hpid
    have hst : s.stateOf pid = some p.state := by simp [ProcessManager.stateOf, h]
    unfold readySleepersWith ProcessManager.wakeSleepers
    simp only [Prog.bind_run, getProcess_some h, Res.ok_bind, hst, Option.some.injEq]
    by_cases hs : p.state = .sleep
    · simp only [hs, if_true, Prog.bind_run, ready_deferred H hsched hd hpid, Res.ok_bind]
      exact ih (by simpa using hd) (fun q hq => by simpa using hrest q hq)
    · simp only [hs, if_false]
      exact ih hd hrest

/-- the position that the first loop of `wait_exit` finds -/
theorem reapChild_run {s : ProcessManager} (running : Pid) (hr : (s.ptable running).isSome) (pids : List Pid)
    (hp : ∀ pid ∈ pids, (s.ptable pid).isSome) :
    reapChild running pids s = match exited s pids with
      | some pid => .ok true ((Act.reap running pid).apply H s)
      | none => .ok false s := by
  obtain ⟨r, hr⟩ := Option.isSome_iff_exists.mp hr
  induction pids with
  | nil => rfl
  | cons pid pids ih =>
    obtain ⟨p, h⟩ := Option.isSome_iff_exists.mp (hp pid (List.mem_cons_self ..))
    have hst : s.stateOf pid = some p.state := by simp [ProcessManager.stateOf, h]
    unfold reapChild exited
    simp only [Prog.bind_run, getProcess_some h, Res.ok_bind, Prog.ite_run, List.find?_cons, hst,
      Option.some.injEq]
    by_cases hf : p.state = .free
    · simp only [hf, if_true, decide_true, Prog.bind_run, getProcess_some hr, Res.ok_bind,
        Prog.modify_run, Prog.pure_run]
      rfl
    · simp only [hf, if_false, decide_false]
      exact ih (fun q hq => hp q (List.mem_cons_of_mem _ hq))

theorem eventWait_some {s : ProcessManager} {pid : Pid} {p : Process} (event : ProcessEvent)
    (h : s.ptable pid = some p) : eventWaitWith sched pid event s =
      runTail sched [.sched, .restore s.sie] ((Act.eventOn pid event).apply H s.masked) := by
  have h' : s.masked.ptable pid = some p := h
  simp only [eventWaitWith, Prog.bind_run, interruptDisable_run, Res.ok_bind,
    setProcessState_some _ h', Prog.modify_run]
  rfl

theorem waitChildren_deferred (hsched : Defers sched) (pids : List Pid) : ∀ {s : ProcessManager}, 0 < s.defer.count →
    (s.ptable s.running).isSome → s.sie = false →
    waitChildrenWith sched pids s =
      .ok () (applyAll H (pids.flatMap fun pid => [.eventOn s.running (.exit pid), .attempt]) s) := by
  induction pids with
  | nil => intro s _ _ _; rfl
  | cons pid pids ih =>
    intro s hd hr hs
    obtain ⟨p, h⟩ := Option.isSome_iff_exists.mp hr
    have hmask : s.masked = s := by
      unfold ProcessManager.masked
      rw [← hs]
    have hd' : 0 < ((Act.eventOn s.running (.exit pid)).apply H s).defer.count := hd
    unfold waitChildrenWith
    simp only [Prog.bind_run, Prog.get_run, Res.ok_bind, eventWait_some H _ h, hmask,
      runTail_sched, hsched _ hd', runTail_restore, runTail_nil, List.flatMap_cons,
      applyAll_append, hs, Bool.or_false]
    refine ih hd ?_ hs
    show (((s.setState s.running .eventWait).ptable s.running)).isSome = true
    rwa [isSome_setState]

/-- one turn of the loop of `delete_semaphore` -/
theorem deleteLoop_succ (hsched : Defers sched) {s : ProcessManager} {sid : Sid} {x : Semaphore} {pid : Pid}
    {rest : List Pid} (n : Nat) (hd : 0 < s.defer.count) (hx : s.stable sid = some x)
    (hc : x.count < 0) (hq : x.queue = pid :: rest) (hp : (s.ptable pid).isSome) :
    deleteLoopWith H sched sid (n + 1) s =
      deleteLoopWith H sched sid n (applyAll H [.semPop sid, .wakeLater pid] s) := by
  have hd' : 0 < (s.setSemaphore sid { x with queue := rest }).defer.count := hd
  have hp' : ((s.setSemaphore sid { x with queue := rest }).ptable pid).isSome := hp
  have hst : ((s.setSemaphore sid { x with queue := rest }).wakeLater H pid).stable sid
      = some { x with queue := rest } := by
    rw [wakeLater_stable]
    simp [ProcessManager.setSemaphore]
  have hpop : popWaiter sid s = .ok pid (s.setSemaphore sid { x with queue := rest }) := by
    simp [popWaiter, getSemaphore_some hx, hq]
  rw [deleteLoopWith]
  simp only [Prog.bind_run, getSemaphore_some hx, Res.ok_bind, hc, if_true, hpop,
    ready_deferred H hsched hd' hp', updateSemaphore_some _ hst, applyAll_cons, applyAll_nil, Act.apply, hx]
  rw [← wakeLater_setSemaphore, setSemaphore_setSemaphore, hq]
  rfl

theorem toInt_post {c : Int64} (h : c < 0) : (c + 1).toInt = c.toInt + 1 := by
  have h1 := Int64.le_toInt c
  rw [Int64.lt_iff_toInt_lt, Int64.toInt_zero] at h
  rw [Int64.toInt_add, Int64.toInt_one, Int.bmod_eq_of_le] <;> omega

/-- the loop of `delete_semaphore` takes the first `-count` waiters, if there are as many -/
theorem deleteLoop_deferred (hsched : Defers sched) (sid : Sid) (k : Nat) : ∀ {s : ProcessManager} {x : Semaphore},
    0 < s.defer.count → s.stable sid = some x → (-x.count.toInt).toNat = k →
    (∀ pid ∈ x.queue, (s.ptable pid).isSome) →
    deleteLoopWith H sched sid (k + 1) s = if k ≤ x.queue.length then
      .ok () (applyAll H (freeAll sid (x.queue.take k)) s)
      else .panic := by
  induction k with
  | zero =>
    intro s x hd hx hk _
    have hc : ¬ x.count < 0 := by
      rw [Int64.lt_iff_toInt_lt, Int64.toInt_zero]
      omega
    rw [deleteLoopWith]
    simp only [Prog.bind_run, getSemaphore_some hx, Res.ok_bind, hc, if_false, Nat.zero_le, if_true,
      List.take_zero]
    rfl
  | succ k ih =>
    intro s x hd hx hk hp
    have hc : x.count < 0 := by
      rw [Int64.lt_iff_toInt_lt, Int64.toInt_zero]
      omega
    cases hq : x.queue with
    | nil =>
      rw [deleteLoopWith]
      simp [getSemaphore_some hx, hc, popWaiter, hq]
    | cons pid rest =>
      rw [deleteLoop_succ H hsched _ hd hx hc hq (hp pid (by simp [hq]))]
      have hs' : (applyAll H [.semPop sid, .wakeLater pid] s).stable sid
          = some { x.post with queue := rest } := by
        simp [Act.apply, hx, hq, ProcessManager.setSemaphore]
      have hk' : (-({ x.post with queue := rest } : Semaphore).count.toInt).toNat = k := by
        show (-(x.count + 1).toInt).toNat = k
        rw [toInt_post hc]
        omega
      rw [ih (by simpa [Act.apply, hx] using hd) hs' hk' (fun q hq' => ?_)]
      · simp only [List.length_cons, Nat.add_le_add_iff_right, List.take_succ_cons, freeAll,
          List.flatMap_cons, applyAll_append]
      · have := hp q (by rw [hq]; exact List.mem_cons_of_mem _ hq')
        simpa [Act.apply, hx] using this

/-! ## the operations -/

theorem Plan.after_run (acts : List Act) (p : Plan) (s : ProcessManager) :
    (p.after acts).run H sched s = p.run H sched (applyAll H acts s) := by
  cases p with
  | fail e acts' => simp [Plan.after, Plan.run]
  | panic => rfl
  | go acts' tail => simp [Plan.after, Plan.run]

/-- a block between `defer_schedule(Start)` and `defer_schedule(Stop)` -/
theorem deferred_run {s : ProcessManager} {m : PM Unit} {acts : List Act} (tail : List Tail)
    (hm : m ((Act.start).apply H s) = .ok () (applyAll H acts ((Act.start).apply H s))) :
    (do deferScheduleWith sched .start; m; deferScheduleWith sched .stop; runTail sched tail : PM Unit) s
      = (deferred H acts tail s).run H sched s := by
  have hstart : deferScheduleWith sched .start s = .ok () ((Act.start).apply H s) := rfl
  simp only [Prog.bind_run, hstart, Res.ok_bind, hm, deferStop_run H]
  unfold deferred Plan.run
  simp only [List.cons_append, applyAll_cons, applyAll_append, applyAll_nil, runTail_append]

theorem readyPlan_run (pid : Pid) (rest : List Tail) (s : ProcessManager) :
    (do readyWith H sched pid; runTail sched rest : PM Unit) s = (readyPlan pid rest s).run H sched s := by
  unfold readyPlan
  cases h : s.ptable pid with
  | none => simp [ready_none H h, Plan.run]
  | some p =>
    have hw : s.wake H pid = if p.state.blocked then s.makeReady H pid p else s := by
      simp [ProcessManager.wake, h]
    simp only [Prog.bind_run, ready_some H h, Plan.run, applyAll_cons, applyAll_nil, Act.apply, hw]
    cases p.state.blocked with
    | false => rfl
    | true => rfl

/-- a deferral that wakes nobody schedules nothing at its end -/
theorem stopTail_start {s s' : ProcessManager} (h : s'.defer = ((Act.start).apply H s).defer) :
    stopTail s' = [] := by
  unfold stopTail
  rw [if_neg]
  rw [h]
  intro ⟨h1, h2⟩
  have h1 : s.defer.count + 1 = 1 := h1
  have h0 : s.defer.count = 0 := by omega
  have h2 : (if s.defer.count = 0 then false else s.defer.attempt) = true := h2
  rw [if_pos h0] at h2
  exact absurd h2 (by simp)

theorem eventSignal_run (hsched : Defers sched) (event : ProcessEvent) (rest : List Tail) {s : ProcessManager}
    (hp : ∀ pid ∈ s.waiters event, (s.ptable pid).isSome) :
    (do eventSignalWith H sched (deferScheduleWith sched) event; runTail sched rest : PM Unit) s
      = (signalPlan H event (.restore s.sie :: rest) s.masked).run H sched s.masked := by
  have hstart : ∀ t, deferScheduleWith sched .start t = .ok () ((Act.start).apply H t) := fun _ => rfl
  have hq : ((Act.start).apply H s.masked).eventQueue event = s.eventQueue event := rfl
  unfold signalPlan eventSignalWith
  simp only [Prog.bind_run, interruptDisable_run, Res.ok_bind, hstart, Prog.get_run,
    Prog.modify_run, ProcessManager.masked_eventQueue, hq]
  cases he : s.eventQueue event with
  | none =>
    simp only [Prog.bind_run, deferStop_run H]
    rw [stopTail_start H (s := s.masked) (by rfl)]
    rfl
  | some pids =>
    have hw : s.waiters event = pids := by simp [ProcessManager.waiters, he]
    rw [hw] at hp
    have hr := readyAll_deferred H hsched pids (s := ((Act.start).apply H s.masked).setEvent event none)
      (Nat.succ_pos _) hp
    simp only [Prog.bind_run, hr, Res.ok_bind, deferStop_run H]
    unfold deferred Plan.run
    simp only [List.cons_append, applyAll_cons, applyAll_append, applyAll_nil, runTail_append,
      Res.bind_assoc]
    congr 1
    funext _ t
    exact Res.bind_assoc ..

theorem setState_self {s : ProcessManager} {pid : Pid} {p : Process} (h : s.ptable pid = some p) :
    s.setState pid p.state = s := by
  unfold ProcessManager.setState ProcessManager.updateProcess
  rw [h]
  have e : Function.update s.ptable pid (some p) = s.ptable := by
    rw [← h, Function.update_eq_self]
  show ({ s with ptable := Function.update s.ptable pid (some p) } : ProcessManager) = s
  rw [e]

/-- the operations that put one existing process to wait -/
theorem blocking_run {s : ProcessManager} {m : PM Unit} {act : Act} {tail : List Tail} {pid : Pid} (st : State)
    (rest : Bool → PM Unit)
    (hm : m = do let mask ← interruptDisable; setProcessState pid st; rest mask)
    (hrest : rest s.sie (s.masked.setState pid st) = runTail sched tail (act.apply H s.masked)) :
    m s = (match s.masked.ptable pid with
      | none => Plan.fail (.processNotFound pid) []
      | some _ => Plan.go [act] tail).run H sched s.masked := by
  rw [hm]
  simp only [Prog.bind_run, interruptDisable_run, Res.ok_bind]
  cases h : s.masked.ptable pid with
  | none => simp [setProcessState_none _ h, Plan.run]
  | some p =>
    rw [setProcessState_some _ h, Res.ok_bind, hrest]
    rfl

section
variable {s : ProcessManager} (hs : Closed s)
include hs

theorem kill_run (hsched : Defers sched) (pid : Pid) :
    killWith H sched (deferScheduleWith sched) pid s = ((Op.kill pid).body H s.masked s.sie).run H sched s.masked := by
  cases h : s.masked.ptable pid with
  | none =>
    simp only [killWith, Op.body, h, Prog.bind_run, interruptDisable_run, Res.ok_bind,
      getProcess_none h]
    rfl
  | some p =>
    have hw : ∀ q ∈ ((Act.kill pid).apply H s.masked).waiters (.exit pid),
        (((Act.kill pid).apply H s.masked).ptable q).isSome := by
      intro q hq
      exact (isSome_setState ..).trans (hs.event (.exit pid) q hq)
    have hev := eventSignal_run H hsched (.exit pid) [.sched, .restore s.sie] hw
    simp only [Op.body, h, Plan.after_run]
    refine Eq.trans ?_ hev
    simp only [killWith, Prog.bind_run, interruptDisable_run, Res.ok_bind, getProcess_some h]
    -- whether or not the process was dead already, it is now
    by_cases hf : p.state = .free
    · have hself := setState_self h
      rw [hf] at hself
      simp only [hf, ne_eq, not_true_eq_false, if_false]
      nth_rewrite 1 [← hself]
      rfl
    · simp only [hf, ne_eq, not_false_eq_true, if_true, Prog.bind_run, setProcessState_some _ h]
      rfl

theorem waitExit_run (hsched : Defers sched) :
    waitExitWith sched (deferScheduleWith sched) s = ((Op.waitExit).body H s.masked s.sie).run H sched s.masked := by
  obtain ⟨p, h⟩ := Option.isSome_iff_exists.mp hs.running
  have h' : s.masked.ptable s.masked.running = some p := h
  have hchild : s.childrenOf s.running = p.children := by simp [ProcessManager.childrenOf, h]
  have hreap := reapChild_run H (s := s.masked) s.masked.running hs.running p.children
    (hchild ▸ hs.child s.running)
  simp only [Op.body, h', waitExitWith, Prog.bind_run, interruptDisable_run, Res.ok_bind, Prog.get_run,
    getProcess_some h', hreap]
  cases exited s.masked p.children with
  | some pid => rfl
  | none =>
    have hm := waitChildren_deferred H hsched p.children (s := (Act.start).apply H s.masked)
      (Nat.succ_pos _) hs.running rfl
    refine Eq.trans ?_ (deferred_run H [.sched, .restore s.sie] hm)
    have hp : ((Act.start).apply H s.masked).ptable ((Act.start).apply H s.masked).running
        = some p := h
    have hstart : deferScheduleWith sched .start s.masked = .ok () ((Act.start).apply H s.masked) := rfl
    simp only [Res.ok_bind, Bool.false_eq_true, if_false, Prog.bind_run, hstart, Prog.get_run,
      getProcess_some hp]
    rfl

/-- the processes whose time has come exist -/
theorem Closed.sleepers : ∀ pid ∈ (s.ticked.takeWhile (·.delay = 0)).map (·.pid), (s.ptable pid).isSome := by
  intro pid hpid
  obtain ⟨d, hd, rfl⟩ := List.mem_map.mp hpid
  have hd := (List.takeWhile_sublist _).mem hd
  unfold ProcessManager.ticked at hd
  cases hq : s.sleepQueue with
  | nil =>
    rw [hq] at hd
    exact absurd hd List.not_mem_nil
  | cons p rest =>
    rw [hq] at hd
    rcases List.mem_cons.mp hd with rfl | hd
    · have := hs.sleep p (by rw [hq]; exact List.mem_cons_self)
      unfold ProcessDelay.tick
      split <;> exact this
    · exact hs.sleep d (by rw [hq]; exact List.mem_cons_of_mem _ hd)

theorem wakeup_run (hsched : Defers sched) :
    wakeupWith H sched (deferScheduleWith sched) s = ((Op.wakeup).body H s.masked s.sie).run H sched s.masked := by
  cases hq : s.masked.sleepQueue with
  | nil =>
    simp only [wakeupWith, Op.body, Prog.bind_run, interruptDisable_run, Res.ok_bind, Prog.get_run, hq]
    rfl
  | cons p rest =>
    have ht : s.masked.ticked = p.tick :: rest := by
      unfold ProcessManager.ticked
      rw [hq]
    have hp : ∀ pid ∈ (((p.tick :: rest).takeWhile (·.delay = 0)).map (·.pid)),
        (s.ptable pid).isSome := by
      rw [← ht]
      exact hs.sleepers
    have hm : readySleepersWith H sched _ ((Act.start).apply H ((Act.tick).apply H s.masked))
        = .ok () (applyAll H [.sleepers _] ((Act.start).apply H ((Act.tick).apply H s.masked))) :=
      readySleepers_deferred H hsched _ (Nat.succ_pos _) hp
    simp only [Op.body, hq, Plan.after_run, ht]
    refine Eq.trans ?_ (deferred_run H [.sched, .restore s.sie] hm)
    simp only [wakeupWith, Prog.bind_run, interruptDisable_run, Res.ok_bind, Prog.get_run, hq,
      Prog.modify_run, Act.apply, ht]
    rfl

theorem deleteSemaphore_run (hsched : Defers sched) (sid : Sid) :
    deleteSemaphoreWith H sched (deferScheduleWith sched) sid s =
      ((Op.deleteSemaphore sid).body H s.masked s.sie).run H sched s.masked := by
  cases hx : s.masked.stable sid with
  | none =>
    simp only [deleteSemaphoreWith, Op.body, hx, Prog.bind_run, interruptDisable_run, Res.ok_bind,
      updateSemaphore_none _ hx]
    rfl
  | some x =>
    have hx' : ((Act.start).apply H ((Act.semFree sid).apply H s.masked)).stable sid
        = some { x with state := .free } := by
      simp [Act.apply, hx, ProcessManager.setSemaphore]
    have hp : ∀ pid ∈ x.queue,
        (((Act.start).apply H ((Act.semFree sid).apply H s.masked)).ptable pid).isSome := by
      intro pid hpid
      simpa [Act.apply, hx] using hs.sem sid x hx pid hpid
    have hloop := deleteLoop_deferred H hsched sid _ (Nat.succ_pos _) hx' rfl hp
    have hfree : updateSemaphore sid (fun x => { x with state := .free }) s.masked
        = .ok () ((Act.semFree sid).apply H s.masked) := by
      rw [updateSemaphore_some _ hx]
      simp [Act.apply, hx]
    have hstart : ∀ t, deferScheduleWith sched .start t = .ok () ((Act.start).apply H t) := fun _ => rfl
    simp only [Op.body, hx]
    by_cases hk : (-x.count.toInt).toNat ≤ x.queue.length
    · rw [if_pos hk] at hloop ⊢
      rw [Plan.after_run]
      refine Eq.trans ?_ (deferred_run H [.sched, .restore s.sie] hloop)
      simp only [deleteSemaphoreWith, Prog.bind_run, interruptDisable_run, Res.ok_bind, hfree, hstart,
        getSemaphore_some hx']
      rfl
    · rw [if_neg hk] at hloop ⊢
      simp only [deleteSemaphoreWith, Prog.bind_run, interruptDisable_run, Res.ok_bind, hfree, hstart,
        getSemaphore_some hx', hloop]
      rfl

theorem signalSemaphore_run (sid : Sid) : signalSemaphoreWith H sched sid s
    = ((Op.signalSemaphore sid).body H s.masked s.sie).run H sched s.masked := by
  cases hx : s.masked.stable sid with
  | none =>
    simp only [signalSemaphoreWith, Op.body, hx, Prog.bind_run, interruptDisable_run, Res.ok_bind,
      getSemaphore_none hx]
    rfl
  | some x =>
    simp only [signalSemaphoreWith, Op.body, hx, Prog.bind_run, interruptDisable_run, Res.ok_bind,
      getSemaphore_some hx]
    by_cases hc : x.count < 0
    · simp only [hc, if_true]
      cases hq : x.queue with
      | nil => simp [popWaiter, getSemaphore_some hx, hq, Plan.run]
      | cons pid rest =>
        have hpop : popWaiter sid s.masked
            = .ok pid (s.masked.setSemaphore sid { x with queue := rest }) := by
          simp [popWaiter, getSemaphore_some hx, hq]
        have hx' : (s.masked.setSemaphore sid { x with queue := rest }).stable sid
            = some { x with queue := rest } := by
          simp [ProcessManager.setSemaphore]
        have hact : (Act.semPop sid).apply H s.masked
            = s.masked.setSemaphore sid { x.post with queue := rest } := by
          simp [Act.apply, hx, hq]
        simp only [Plan.after_run, applyAll_cons, applyAll_nil, hact, Prog.bind_run, hpop,
          Res.ok_bind, updateSemaphore_some _ hx', setSemaphore_setSemaphore]
        exact readyPlan_run H pid [.restore s.sie]
          (s.masked.setSemaphore sid { x.post with queue := rest })
    · simp only [hc, if_false, Prog.bind_run, updateSemaphore_some _ hx, Res.ok_bind, Plan.run,
        applyAll_cons, applyAll_nil, Act.apply, hx]
      rfl

theorem waitSemaphore_run (sid : Sid) : waitSemaphoreWith sched sid s
    = ((Op.waitSemaphore sid).body H s.masked s.sie).run H sched s.masked := by
  obtain ⟨p, hp⟩ := Option.isSome_iff_exists.mp hs.running
  cases hx : s.masked.stable sid with
  | none =>
    simp only [waitSemaphoreWith, Op.body, hx, Prog.bind_run, interruptDisable_run, Res.ok_bind,
      Prog.get_run, updateSemaphore_none _ hx]
    rfl
  | some x =>
    have hx' : (s.masked.setSemaphore sid x.take).stable sid = some x.take := by
      simp [ProcessManager.setSemaphore]
    have hp' : (s.masked.setSemaphore sid x.take).ptable s.masked.running = some p := hp
    have htake : updateSemaphore sid (fun x => { x with count := x.count - 1 }) s.masked
        = .ok () (s.masked.setSemaphore sid x.take) := updateSemaphore_some _ hx
    simp only [waitSemaphoreWith, Op.body, hx, Prog.bind_run, interruptDisable_run, Res.ok_bind,
      Prog.get_run, htake, getSemaphore_some hx']
    by_cases hc : x.take.count < 0
    · have hq : ((s.masked.setSemaphore sid x.take).setState s.masked.running .semaWait).stable sid
          = some x.take := hx'
      have hcomm : (s.masked.setSemaphore sid x.take).setState s.masked.running .semaWait
          = (s.masked.setState s.masked.running .semaWait).setSemaphore sid x.take := rfl
      simp only [hc, if_true, Prog.bind_run, setProcessState_some _ hp', Res.ok_bind,
        updateSemaphore_some _ hq, Plan.run, applyAll_cons, applyAll_nil, Act.apply, hx]
      rw [hcomm, setSemaphore_setSemaphore]
      rfl
    · simp only [hc, if_false, Plan.run, applyAll_cons, applyAll_nil, Act.apply, hx]
      rfl

theorem createProcess_run (priority : Nat) (doSetup : Bool) :
    createProcessWith (deferScheduleWith sched) priority doSetup s = .ok s.currPid (applyAll H
      ([.start, .create priority] ++ (if doSetup then [.setup s.currPid] else []) ++ [.stop]) s) := by
  have hc : ((Act.create priority).apply H ((Act.start).apply H s)).ptable s.currPid
      = some { Process.new s.currPid with priority, state := .suspend } := by
    simp [Act.apply, ProcessManager.insertProcess]
  cases doSetup with
  | false =>
    show (deferScheduleWith sched .stop ((Act.create priority).apply H ((Act.start).apply H s))).bind
      (fun _ t => .ok s.currPid t) = _
    rw [deferStop_run H, stopTail_start H (s := s) (by rfl)]
    rfl
  | true =>
    show (setupProcess s.currPid ((Act.create priority).apply H ((Act.start).apply H s))).bind
      (fun _ t => (deferScheduleWith sched .stop t).bind fun _ t => .ok s.currPid t) = _
    simp only [setupProcess, Prog.bind_run, getProcess_some hc, Res.ok_bind, Prog.modify_run,
      deferStop_run H]
    rw [stopTail_start H (s := s) (by rfl)]
    rfl

theorem createKernelProcess_run (priority : Nat) :
    createKernelProcessWith (deferScheduleWith sched) priority s = .ok s.currPid
      (applyAll H [.start, .create priority, .stop, .setup s.currPid] s) := by
  have hc : (applyAll H [.start, .create priority, .stop] s).ptable s.currPid
      = some { Process.new s.currPid with priority, state := .suspend } := by
    simp [Act.apply, ProcessManager.insertProcess]
  have hp : createProcessWith (deferScheduleWith sched) priority false s = .ok s.currPid
      (applyAll H [.start, .create priority, .stop] s) := createProcess_run H hs priority false
  simp only [createKernelProcessWith, Prog.bind_run, hp, Res.ok_bind, setupProcess, getProcess_some hc,
    Prog.modify_run]
  rfl

end

/-- the code does its plan, whatever `schedule` does outside a deferral -/
theorem Op.runWith_eq_body (hsched : Defers sched) {s : ProcessManager} (hs : Closed s) (op : Op) :
    op.runWith H sched (deferScheduleWith sched) s = (op.body H (op.entry s) s.sie).run H sched (op.entry s) := by
  cases op with
  | createProcess priority doSetup =>
    simp only [Op.runWith, Prog.bind_run, createProcess_run H hs]
    rfl
  | createKernelProcess priority =>
    simp only [Op.runWith, Prog.bind_run, createKernelProcess_run H hs]
    rfl
  | createSemaphore count => rfl
  | waitSemaphore sid => exact waitSemaphore_run H hs sid
  | signalSemaphore sid => exact signalSemaphore_run H hs sid
  | deleteSemaphore sid => exact deleteSemaphore_run H hs hsched sid
  | schedule => exact (runTail_single sched s).symm
  | ready pid => exact (Res.bind_ok _).symm.trans (readyPlan_run H pid [] s)
  | wakeup => exact wakeup_run H hs hsched
  | sleep pid delay => exact blocking_run H .sleep _ rfl rfl
  | kill pid => exact kill_run H hs hsched pid
  | ioWait pid => exact blocking_run H .ioWait _ rfl rfl
  | ioSignal pid => exact readyPlan_run H pid [.restore s.sie] s.masked
  | eventWait pid event => exact blocking_run H .eventWait _ rfl rfl
  | eventSignal event =>
    exact (Res.bind_ok _).symm.trans (eventSignal_run H hsched event [] (hs.event event))
  | waitExit => exact waitExit_run H hs hsched
  | deferStart => rfl
  | deferStop => exact deferStop_run H s

end

/-- **The code does its plan.** -/
theorem Op.run_eq_body {s : ProcessManager} (hs : Closed s) (op : Op) :
    op.run H s = (op.body H (op.entry s) s.sie).run H (Citron.schedule H) (op.entry s) := by
  rw [← op.runWith_schedule]
  exact op.runWith_eq_body H (schedule_defers H) hs

end

end Citron
