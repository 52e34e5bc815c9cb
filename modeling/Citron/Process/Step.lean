import Citron.Process.Acts

/-!
# Calls and runs

* `Planned`, `Op.body_cases`  the plans of the operations, branch by branch;
* `Op.ensures`                what a call does, up to the points where it gives the processor away;
* `Reachable.kept`            `Inv` and `Settled` hold in every reachable state;
* `Reachable.step_cases`      what a step of a run does: it resumes a call, which only schedules, or
                              it does the acts of a plan and then only schedules.
-/

set_option linter.unusedSectionVars false

namespace Citron
open Resumption

section
variable (H : Heap)

/-- the operation names a process or a semaphore that does not exist, and says so -/
def Op.Missing (op : Op) (s : ProcessManager) (e : ProcessError) : Prop :=
  match op with
  | .waitSemaphore sid => s.stable sid = none ∧ e = .semaphoreNotFound sid
  | .signalSemaphore sid => s.stable sid = none ∧ e = .semaphoreNotFound sid
  | .deleteSemaphore sid => s.stable sid = none ∧ e = .semaphoreNotFound sid
  | .ready pid => s.ptable pid = none ∧ e = .processNotFound pid
  | .sleep pid _ => s.ptable pid = none ∧ e = .processNotFound pid
  | .kill pid => s.ptable pid = none ∧ e = .processNotFound pid
  | .ioWait pid => s.ptable pid = none ∧ e = .processNotFound pid
  | .ioSignal pid => s.ptable pid = none ∧ e = .processNotFound pid
  | .eventWait pid _ => s.ptable pid = none ∧ e = .processNotFound pid
  | _ => False

/-- the branches of the operations, with what decides between them -/
inductive Planned (s : ProcessManager) (mask : Bool) : Op → Plan → Prop where
  | create (priority : Nat) (doSetup : Bool) : Planned s mask (.createProcess priority doSetup)
      (.go ([.start, .create priority] ++ (if doSetup then [.setup s.currPid] else []) ++ [.stop]) [])
  | createKernel (priority : Nat) : Planned s mask (.createKernelProcess priority)
      (.go [.start, .create priority, .stop, .setup s.currPid] [])
  | newSem (count : Int64) : Planned s mask (.createSemaphore count)
      (.go [.newSem count] [.restore mask])
  | fail {op : Op} {e : ProcessError} (h : op.Missing s e) : Planned s mask op (.fail e [])
  | semWait {sid : Sid} {x : Semaphore} (hx : s.stable sid = some x) (hc : x.take.count < 0) :
      Planned s mask (.waitSemaphore sid) (.go [.semWait sid] [.sched, .restore mask])
  | semPass {sid : Sid} {x : Semaphore} (hx : s.stable sid = some x) (hc : ¬ x.take.count < 0) :
      Planned s mask (.waitSemaphore sid) (.go [.semWait sid] [.restore mask])
  | semPost {sid : Sid} {x : Semaphore} (hx : s.stable sid = some x) (hc : ¬ x.count < 0) :
      Planned s mask (.signalSemaphore sid) (.go [.semPost sid] [.restore mask])
  | semWake {sid : Sid} {x : Semaphore} {pid : Pid} {rest : List Pid} {p : Process}
      (hx : s.stable sid = some x) (hc : x.count < 0) (hq : x.queue = pid :: rest)
      (hp : s.ptable pid = some p) : Planned s mask (.signalSemaphore sid)
        (.go [.semPop sid, .wake pid]
          (if p.state.blocked then [.sched, .restore mask] else [.restore mask]))
  | semEmpty {sid : Sid} {x : Semaphore} (hx : s.stable sid = some x) (hc : x.count < 0)
      (hq : x.queue = []) : Planned s mask (.signalSemaphore sid) .panic
  | semDelete {sid : Sid} {x : Semaphore} (hx : s.stable sid = some x)
      (hk : (-x.count.toInt).toNat ≤ x.queue.length) : Planned s mask (.deleteSemaphore sid)
        ((deferred H (freeAll sid (x.queue.take (-x.count.toInt).toNat)) [.sched, .restore mask]
          ((Act.semFree sid).apply H s)).after [.semFree sid])
  | semShort {sid : Sid} {x : Semaphore} (hx : s.stable sid = some x)
      (hk : ¬ (-x.count.toInt).toNat ≤ x.queue.length) :
      Planned s mask (.deleteSemaphore sid) .panic
  | schedule : Planned s mask .schedule (.go [] [.sched])
  | ready {pid : Pid} {p : Process} (hp : s.ptable pid = some p) : Planned s mask (.ready pid)
      (.go [.wake pid] (if p.state.blocked then [.sched] else []))
  | ioSignal {pid : Pid} {p : Process} (hp : s.ptable pid = some p) : Planned s mask (.ioSignal pid)
      (.go [.wake pid] (if p.state.blocked then [.sched, .restore mask] else [.restore mask]))
  | noSleeper (h : s.sleepQueue = []) : Planned s mask .wakeup (.go [] [.restore mask])
  | wakeup : Planned s mask .wakeup
      ((deferred H [.sleepers ((s.ticked.takeWhile (·.delay = 0)).map (·.pid))]
        [.sched, .restore mask] ((Act.tick).apply H s)).after [.tick])
  | sleep {pid : Pid} {p : Process} (delay : UInt64) (hp : s.ptable pid = some p) :
      Planned s mask (.sleep pid delay) (.go [.sleepOn pid delay] [.sched, .restore mask])
  | ioWait {pid : Pid} {p : Process} (hp : s.ptable pid = some p) :
      Planned s mask (.ioWait pid) (.go [.ioOn pid] [.restore mask])
  | eventWait {pid : Pid} {p : Process} (event : ProcessEvent) (hp : s.ptable pid = some p) :
      Planned s mask (.eventWait pid event) (.go [.eventOn pid event] [.sched, .restore mask])
  | kill {pid : Pid} {p : Process} (hp : s.ptable pid = some p)
      (he : s.eventQueue (.exit pid) = none) : Planned s mask (.kill pid)
        (.go [.kill pid, .start, .takeEvent (.exit pid), .stop]
          [.restore false, .sched, .restore mask])
  | killSignal {pid : Pid} {p : Process} {pids : List Pid} (hp : s.ptable pid = some p)
      (he : s.eventQueue (.exit pid) = some pids) : Planned s mask (.kill pid)
        ((deferred H (.takeEvent (.exit pid) :: pids.map .wakeLater)
          [.sched, .restore false, .sched, .restore mask] ((Act.kill pid).apply H s)).after [.kill pid])
  | noEvent {event : ProcessEvent} (he : s.eventQueue event = none) :
      Planned s mask (.eventSignal event) (.go [.start, .takeEvent event, .stop] [.restore mask])
  | eventSignal {event : ProcessEvent} {pids : List Pid} (he : s.eventQueue event = some pids) :
      Planned s mask (.eventSignal event)
        (deferred H (.takeEvent event :: pids.map .wakeLater) [.sched, .restore mask] s)
  | reap (pid : Pid) : Planned s mask .waitExit (.go [.reap s.running pid] [])
  | waitExit {p : Process} (hp : s.ptable s.running = some p)
      (hn : exited s p.children = none) : Planned s mask .waitExit
        (deferred H (p.children.flatMap fun pid => [.eventOn s.running (.exit pid), .attempt])
          [.sched, .restore mask] s)
  | start : Planned s mask .deferStart (.go [.start] [])
  | stop : Planned s mask .deferStop (.go [.stop] (stopTail s))

variable {H} {s : ProcessManager}

/-- the plan of an operation is one of its branches -/
theorem Op.body_cases (hs : Closed s) (mask : Bool) (op : Op) :
    Planned H s mask op (op.body H s mask) := by
  cases op with
  | createProcess priority doSetup => exact .create ..
  | createKernelProcess priority => exact .createKernel ..
  | createSemaphore count => exact .newSem ..
  | waitSemaphore sid =>
    cases hx : s.stable sid with
    | none => simp only [Op.body, hx]; exact .fail ⟨hx, rfl⟩
    | some x =>
      by_cases hc : x.take.count < 0
      · simp only [Op.body, hx, hc, if_true]; exact .semWait hx hc
      · simp only [Op.body, hx, hc, if_false]; exact .semPass hx hc
  | signalSemaphore sid =>
    cases hx : s.stable sid with
    | none => simp only [Op.body, hx]; exact .fail ⟨hx, rfl⟩
    | some x =>
      by_cases hc : x.count < 0
      · cases hq : x.queue with
        | nil => simp only [Op.body, hx, hc, if_true, hq]; exact .semEmpty hx hc hq
        | cons pid rest =>
          obtain ⟨p, hp⟩ := Option.isSome_iff_exists.mp (hs.sem sid x hx pid (by simp [hq]))
          simp only [Op.body, hx, hc, if_true, hq, readyPlan, hp]
          exact .semWake hx hc hq hp
      · simp only [Op.body, hx, hc, if_false]; exact .semPost hx hc
  | deleteSemaphore sid =>
    cases hx : s.stable sid with
    | none => simp only [Op.body, hx]; exact .fail ⟨hx, rfl⟩
    | some x =>
      by_cases hk : (-x.count.toInt).toNat ≤ x.queue.length
      · simp only [Op.body, hx, hk, if_true]; exact .semDelete hx hk
      · simp only [Op.body, hx, hk, if_false]; exact .semShort hx hk
  | schedule => exact .schedule
  | ready pid =>
    cases hp : s.ptable pid with
    | none => simp only [Op.body, readyPlan, hp]; exact .fail ⟨hp, rfl⟩
    | some p => simp only [Op.body, readyPlan, hp]; exact .ready hp
  | wakeup =>
    cases hq : s.sleepQueue with
    | nil => simp only [Op.body, hq]; exact .noSleeper hq
    | cons d rest => simp only [Op.body, hq]; exact .wakeup
  | sleep pid delay =>
    cases hp : s.ptable pid with
    | none => simp only [Op.body, hp]; exact .fail ⟨hp, rfl⟩
    | some p => simp only [Op.body, hp]; exact .sleep delay hp
  | kill pid =>
    cases hp : s.ptable pid with
    | none => simp only [Op.body, hp]; exact .fail ⟨hp, rfl⟩
    | some p =>
      have he' : ((Act.kill pid).apply H s).eventQueue = s.eventQueue := rfl
      cases he : s.eventQueue (.exit pid) with
      | none => simp only [Op.body, hp, signalPlan, he', he]; exact .kill hp he
      | some pids => simp only [Op.body, hp, signalPlan, he', he]; exact .killSignal hp he
  | ioWait pid =>
    cases hp : s.ptable pid with
    | none => simp only [Op.body, hp]; exact .fail ⟨hp, rfl⟩
    | some p => simp only [Op.body, hp]; exact .ioWait hp
  | ioSignal pid =>
    cases hp : s.ptable pid with
    | none => simp only [Op.body, readyPlan, hp]; exact .fail ⟨hp, rfl⟩
    | some p => simp only [Op.body, readyPlan, hp]; exact .ioSignal hp
  | eventWait pid event =>
    cases hp : s.ptable pid with
    | none => simp only [Op.body, hp]; exact .fail ⟨hp, rfl⟩
    | some p => simp only [Op.body, hp]; exact .eventWait event hp
  | eventSignal event =>
    cases he : s.eventQueue event with
    | none => simp only [Op.body, signalPlan, he]; exact .noEvent he
    | some pids => simp only [Op.body, signalPlan, he]; exact .eventSignal he
  | waitExit =>
    obtain ⟨p, hp⟩ := Option.isSome_iff_exists.mp hs.running
    cases hn : exited s p.children with
    | none => simp only [Op.body, hp, hn]; exact .waitExit hp hn
    | some pid => simp only [Op.body, hp, hn]; exact .reap pid
  | deferStart => exact .start
  | deferStop => exact .stop

/-! ## the acts of a plan -/

/-- the processes that the acts of a call register somewhere exist -/
theorem Planned.valid {mask : Bool} {op : Op} {p : Plan} (h : Planned H s mask op p) (hs : Inv s) :
    ∀ a ∈ p.acts, a.Valid s := by
  intro a ha
  cases h with
  | create priority doSetup =>
    cases doSetup <;> simp [Plan.acts] at ha
    · rcases ha with rfl | rfl | rfl <;> trivial
    · rcases ha with rfl | rfl | rfl | rfl <;> trivial
  | createKernel priority =>
    simp [Plan.acts] at ha
    rcases ha with rfl | rfl | rfl | rfl <;> trivial
  | semWake hx hc hq hp =>
    simp [Plan.acts] at ha
    rcases ha with rfl | rfl <;> trivial
  | semDelete hx hk =>
    simp [Plan.acts, Plan.after, deferred, freeAll] at ha
    rcases ha with rfl | rfl | ⟨_, _, rfl | rfl⟩ | rfl <;> trivial
  | wakeup =>
    simp [Plan.acts, Plan.after, deferred] at ha
    rcases ha with rfl | rfl | rfl | rfl <;> trivial
  | sleep delay hp =>
    rw [List.mem_singleton.mp ha]
    exact Option.isSome_iff_exists.mpr ⟨_, hp⟩
  | eventWait event hp =>
    rw [List.mem_singleton.mp ha]
    exact Option.isSome_iff_exists.mpr ⟨_, hp⟩
  | kill hp he =>
    simp [Plan.acts] at ha
    rcases ha with rfl | rfl | rfl | rfl <;> trivial
  | killSignal hp he =>
    simp [Plan.acts, Plan.after, deferred] at ha
    rcases ha with rfl | rfl | rfl | ⟨_, _, rfl⟩ | rfl <;> trivial
  | noEvent he =>
    simp [Plan.acts] at ha
    rcases ha with rfl | rfl | rfl <;> trivial
  | eventSignal he =>
    simp [Plan.acts, deferred] at ha
    rcases ha with rfl | rfl | ⟨_, _, rfl⟩ | rfl <;> trivial
  | waitExit hp hn =>
    simp [Plan.acts, deferred] at ha
    rcases ha with rfl | ⟨_, _, rfl | rfl⟩ | rfl
    · trivial
    · exact hs.running
    · trivial
    · trivial
  | fail h => exact absurd ha (by simp [Plan.acts])
  | semEmpty hx hc hq => exact absurd ha (by simp [Plan.acts])
  | semShort hx hk => exact absurd ha (by simp [Plan.acts])
  | schedule => exact absurd ha (by simp [Plan.acts])
  | noSleeper h => exact absurd ha (by simp [Plan.acts])
  | _ =>
    rw [List.mem_singleton.mp ha]
    trivial

/-- a deferral in which nothing is noted ends without scheduling -/
theorem Act.still_stop {t : ProcessManager} (h : t.defer = ((Act.start).apply H s).defer) :
    (Act.stop).Still t := by
  have hc : t.defer.count = s.defer.count + 1 := by rw [h]; rfl
  have ha : t.defer.attempt = if s.defer.count = 0 then false else s.defer.attempt := by rw [h]; rfl
  intro hn
  rw [if_pos (by omega)] at ha
  rw [ha] at hn
  exact absurd hn.2 (by simp)

/-- an operation other than `io_wait` schedules, or makes nobody ready and nobody wait -/
theorem Planned.still {mask : Bool} {op : Op} {p : Plan} (h : Planned H s mask op p)
    (hio : ∀ pid, op ≠ .ioWait pid) :
    .sched ∈ p.tail ∨ Along H Act.Still s p.acts := by
  cases h with
  | create priority doSetup =>
    cases doSetup with
    | false => exact .inr ⟨trivial, trivial, Act.still_stop (H := H) rfl, trivial⟩
    | true => exact .inr ⟨trivial, trivial, trivial, Act.still_stop (H := H) rfl, trivial⟩
  | createKernel priority => exact .inr ⟨trivial, trivial, Act.still_stop (H := H) rfl, trivial, trivial⟩
  | newSem count => exact .inr ⟨trivial, trivial⟩
  | fail h => exact .inr trivial
  | semWait hx hc => exact .inl (by simp [Plan.tail])
  | @semPass sid x hx hc =>
    refine .inr ⟨fun x' hx' => ?_, trivial⟩
    rw [hx, Option.some.injEq] at hx'
    rwa [← hx']
  | semPost hx hc => exact .inr ⟨trivial, trivial⟩
  | @semWake sid x pid rest p hx hc hq hp =>
    cases hbl : p.state.blocked with
    | true => exact .inl (by simp [Plan.tail])
    | false =>
      refine .inr ⟨trivial, fun p' hp' => ?_, trivial⟩
      rw [semPop_some hx] at hp'
      have hp' : s.ptable pid = some p' := hp'
      rw [hp, Option.some.injEq] at hp'
      rwa [← hp']
  | semEmpty hx hc hq => exact .inr trivial
  | semDelete hx hk => exact .inl (by simp [Plan.tail, Plan.after, deferred])
  | semShort hx hk => exact .inr trivial
  | schedule => exact .inl (by simp [Plan.tail])
  | @ready pid p hp =>
    cases hbl : p.state.blocked with
    | true => exact .inl (by simp [Plan.tail])
    | false =>
      refine .inr ⟨fun p' hp' => ?_, trivial⟩
      rw [hp, Option.some.injEq] at hp'
      rwa [← hp']
  | @ioSignal pid p hp =>
    cases hbl : p.state.blocked with
    | true => exact .inl (by simp [Plan.tail])
    | false =>
      refine .inr ⟨fun p' hp' => ?_, trivial⟩
      rw [hp, Option.some.injEq] at hp'
      rwa [← hp']
  | noSleeper h => exact .inr trivial
  | wakeup => exact .inl (by simp [Plan.tail, Plan.after, deferred])
  | sleep delay hp => exact .inl (by simp [Plan.tail])
  | ioWait hp => exact absurd rfl (hio _)
  | eventWait event hp => exact .inl (by simp [Plan.tail])
  | kill hp he => exact .inl (by simp [Plan.tail])
  | killSignal hp he => exact .inl (by simp [Plan.tail, Plan.after, deferred])
  | noEvent he => exact .inr ⟨trivial, trivial, Act.still_stop (H := H) rfl, trivial⟩
  | eventSignal he => exact .inl (by simp [Plan.tail, deferred])
  | reap pid => exact .inr ⟨trivial, trivial⟩
  | waitExit hp hn => exact .inl (by simp [Plan.tail, deferred])
  | start => exact .inr ⟨trivial, trivial⟩
  | stop =>
    unfold stopTail
    by_cases h : s.defer.count = 1 ∧ s.defer.attempt = true
    · rw [if_pos h]
      exact .inl (by simp [Plan.tail])
    · exact .inr ⟨h, trivial⟩

theorem Planned.settled {mask : Bool} {op : Op} {p : Plan} (h : Planned H s mask op p)
    (hs : Inv s) (hset : s.Settled) :
    .sched ∈ p.tail ∨ (applyAll H p.acts s).Settled := by
  have hv := h.valid hs
  by_cases hio : ∃ pid, op = .ioWait pid
  · obtain ⟨pid, rfl⟩ := hio
    cases h with
    | fail h => exact .inr hset
    | ioWait hp =>
      refine .inr (hset.of_fewer hs rfl (fun q st hst h => ?_)
        (fun q _ => ProcessManager.prioOf_setState ..) id)
      have h : (s.setState pid .ioWait).stateOf q = some st := h
      rw [ProcessManager.stateOf_setState] at h
      by_cases e : q = pid
      · rw [if_pos e, Option.map_eq_some_iff] at h
        obtain ⟨_, _, rfl⟩ := h
        exact absurd hst (by simp)
      · rwa [if_neg e] at h
  · rcases h.still (fun pid e => hio ⟨pid, e⟩) with h | h
    · exact .inl h
    · exact .inr (hs.along (fun _ _ ht hset ha => (Act.Still.apply ht ha).settled ht hset) hv h hset).2

/-! ## calls -/

theorem Act.running_apply (a : Act) (s : ProcessManager) : (a.apply H s).running = s.running := by
  have hlater : ∀ (t : ProcessManager) pid, (t.wakeLater H pid).running = t.running := by
    intro t pid
    rcases wakeLater_cases H t pid with h | ⟨p, _, _, h⟩
    · rw [h]
    · rw [h]; rfl
  cases a with
  | semWait sid =>
    cases hx : s.stable sid with
    | none => rw [semWait_none hx]
    | some x =>
      by_cases hc : x.take.count < 0
      · rw [semWait_block hx hc]; rfl
      · rw [semWait_pass hx hc]; rfl
  | semPost sid =>
    cases hx : s.stable sid with
    | none => rw [semPost_none hx]
    | some x => rw [semPost_some hx]; rfl
  | semPop sid =>
    cases hx : s.stable sid with
    | none => rw [semPop_none hx]
    | some x => rw [semPop_some hx]; rfl
  | semFree sid =>
    cases hx : s.stable sid with
    | none => rw [semFree_none hx]
    | some x => rw [semFree_some hx]; rfl
  | wake pid =>
    show (s.wake H pid).running = s.running
    unfold ProcessManager.wake
    split
    · split <;> rfl
    · rfl
  | wakeLater pid => exact hlater s pid
  | sleepers pids =>
    show (s.wakeSleepers H pids).running = s.running
    induction pids generalizing s with
    | nil => rfl
    | cons pid pids ih =>
      unfold ProcessManager.wakeSleepers
      rw [ih]
      split
      · exact hlater s pid
      · rfl
  | _ => rfl

theorem applyAll_running (acts : List Act) (s : ProcessManager) :
    (applyAll H acts s).running = s.running := by
  induction acts generalizing s with
  | nil => rfl
  | cons a acts ih => exact (ih _).trans (a.running_apply s)

theorem Plan.ensures {p : Plan} (hs : Inv (applyAll H p.acts s))
    (hset : .sched ∈ p.tail ∨ (applyAll H p.acts s).Settled) :
    (p.run H (schedule H) s).Ensures (guard s.running) (p = .panic)
      (fun t => (Inv t ∧ t.Settled) ∧ Tailed (.sched ∈ p.tail) (applyAll H p.acts s) t) := by
  have hrun := applyAll_running (H := H) p.acts s
  cases p with
  | fail e acts =>
    exact ⟨⟨⟨hs, hset.resolve_left (by simp [Plan.tail])⟩,
      (Tailed.refl _).weaken (by simp [Plan.tail])⟩, hrun⟩
  | panic => exact rfl
  | go acts tail => exact (runTail_ensures H tail hs hset.symm hrun).mono False.elim fun _ h => h

theorem Op.inv_entry (op : Op) (hs : Inv s) (hset : s.Settled) :
    Inv (op.entry s) ∧ (op.entry s).Settled ∧ (op.entry s).running = s.running := by
  unfold Op.entry
  split
  · exact ⟨hs.setSie false, hset, rfl⟩
  · exact ⟨hs, hset, rfl⟩

/-- **What a call does.** -/
theorem Op.ensures (op : Op) (hs : Inv s) (hset : s.Settled) :
    ∃ p, Planned H (op.entry s) s.sie op p ∧ (op.run H s).Ensures (guard s.running) (p = .panic)
      (fun t => (Inv t ∧ t.Settled) ∧
        Tailed (.sched ∈ p.tail) (applyAll H p.acts (op.entry s)) t) := by
  obtain ⟨hi, hst, hrun⟩ := op.inv_entry hs hset
  have hp := op.body_cases hi.toClosed (H := H) s.sie
  refine ⟨_, hp, ?_⟩
  rw [Op.run_eq_body H hs.toClosed, ← hrun]
  exact Plan.ensures (hi.applyAll (hp.valid hi)) (hp.settled hi hst)

/-! ## runs -/

theorem booted_eq (H : Heap) (sie : Bool) : ProcessManager.booted H sie
    = { ((Act.create 0).apply H (ProcessManager.new sie)).saveStatus 0 |>.setState 0 .running with
        defer := ⟨0, false⟩ } := rfl

theorem booted_ptable (H : Heap) (sie : Bool) (pid : Pid) : (ProcessManager.booted H sie).ptable pid
    = if pid = 0 then some ⟨.running, 0, 0, [], sie⟩ else none := by
  by_cases h : pid = 0
  · subst h
    rfl
  · rw [if_neg h, booted_eq]
    simp [ProcessManager.setState, ProcessManager.saveStatus, ProcessManager.updateProcess,
      Act.apply, ProcessManager.insertProcess, ProcessManager.new, h]

theorem booted_stateOf (H : Heap) (sie : Bool) (pid : Pid) :
    (ProcessManager.booted H sie).stateOf pid = if pid = 0 then some .running else none := by
  unfold ProcessManager.stateOf
  rw [booted_ptable]
  split <;> rfl

theorem booted_inv (H : Heap) (sie : Bool) :
    Inv (ProcessManager.booted H sie) ∧ (ProcessManager.booted H sie).Settled := by
  have hready : ∀ pid, (ProcessManager.booted H sie).stateOf pid ≠ some .ready := by
    intro pid
    rw [booted_stateOf]
    split <;> simp
  refine ⟨⟨⟨rfl, fun d hd => absurd hd List.not_mem_nil, fun d hd => absurd hd List.not_mem_nil,
    fun sid x hx => absurd hx (by simp [booted_eq, ProcessManager.new, Act.apply,
      ProcessManager.insertProcess]), fun e pid hp => absurd hp List.not_mem_nil,
    fun pid c hc => ?_, fun pid hp => ?_⟩, fun pid hp => ?_, fun d hd => absurd hd List.not_mem_nil,
    fun pid hp => absurd hp (hready pid)⟩, fun _ _ pid a b hp => absurd hp (hready pid)⟩
  · unfold ProcessManager.childrenOf at hc
    rw [booted_ptable] at hc
    split at hc <;> exact absurd hc (by simp)
  · rw [booted_ptable, if_neg]
    exact Nat.ne_of_gt hp
  · rw [booted_stateOf] at hp
    split at hp
    next h => exact h
    next => exact absurd hp (by simp)

section
variable {may : Op → ProcessManager → Prop} {sie : Bool} {y y' : Sys ProcessManager ProcessError}

/-- **The invariant of the ready list** holds in every reachable state. -/
theorem Reachable.kept (hy : Reachable H may sie y) :
    y.Kept ProcessManager.running (fun s => Inv s ∧ s.Settled) ProcessManager.Busy
      (Tailed False) := by
  refine Reach.invariant (I := fun s => Inv s ∧ s.Settled) (booted_inv H sie) (fun op s hs _ => ?_) hy
  obtain ⟨p, _, h⟩ := op.ensures (H := H) hs.1 hs.2
  exact h.mono (fun _ => trivial) fun _ ht => ht.1

/-- what a step of a run does -/
theorem Reachable.step_cases (hy : Reachable H may sie y) {l : Option Op}
    (h : y.step ProcessManager.running (Op.run H) l = some y') :
    (l = none ∧ y.st.Busy ∧ Tailed False y.st y'.st) ∨
    ∃ op p, l = some op ∧ Planned H (op.entry y.st) y.st.sie op p ∧
      Tailed (.sched ∈ p.tail) (applyAll H p.acts (op.entry y.st)) y'.st := by
  have hk := Reachable.kept hy
  obtain ⟨k, rfl, hsusp, hset⟩ | ⟨op, rfl, _, hset⟩ := Sys.step_cases h
  · exact .inl ⟨rfl, hk.resumed k hsusp, (hk.resume hsusp hset).1.2⟩
  · obtain ⟨p, hp, he⟩ := op.ensures (H := H) hk.inv.1 hk.inv.2
    exact .inr ⟨op, p, rfl, hp, (hk.settle (fun _ h => h.1) he hset).1.2⟩

/-- the processor is given away only to a process that is `Running` -/
theorem Reachable.step_running (hy : Reachable H may sie y) {l : Option Op}
    (h : y.step ProcessManager.running (Op.run H) l = some y') :
    y'.st.running = y.st.running ∨ y'.st.Busy := by
  have hk := Reachable.kept hy
  obtain ⟨k, rfl, hsusp, hset⟩ | ⟨op, rfl, _, hset⟩ := Sys.step_cases h
  · exact Sys.settle_cur (hk.susp _ k hsusp _ hk.inv (hk.resumed k hsusp) rfl) hset
  · obtain ⟨p, hp, he⟩ := op.ensures (H := H) hk.inv.1 hk.inv.2
    exact Sys.settle_cur he hset

/-- **Invariants that scheduling cannot touch** need only be kept by the acts of the operations. -/
theorem Reachable.invariant {J : ProcessManager → Prop} (h0 : J (ProcessManager.booted H sie))
    (htail : ∀ s t, Tailed False s t → J s → J t)
    (hop : ∀ op s p, Inv s → J s → may op s → Planned H (op.entry s) s.sie op p →
      J (applyAll H p.acts (op.entry s))) (hy : Reachable H may sie y) : J y.st := by
  induction hy with
  | init => exact h0
  | step hy hl h ih =>
    obtain ⟨_, _, ht⟩ | ⟨op, p, e, hp, ht⟩ := Reachable.step_cases hy h
    · exact htail _ _ ht ih
    · exact htail _ _ (ht.weaken False.elim)
        (hop op _ p (Reachable.kept hy).inv.1 ih (hl op e) hp)

end

end

end Citron
