import Citron.Process.Sched

/-!
# The invariant of the ready list

* `Inv`                 every pid kept anywhere exists, only `running` is in state `Running`, and every
                        ready process has a descriptor with its own priority in the heap;
* `Settled`             no ready process exceeds the running one, except while a deferral has noted
                        an attempt to schedule;
* `Tailed`              what scheduling can change;
* `runTail_ensures`     scheduling keeps `Inv` and establishes `Settled`;
* `Act.inv_apply`       every act keeps `Inv`;
* `Reachable.invariant` both hold in every reachable state;
* `Reachable.step_cases` what a step of a run does: it resumes a call, which only schedules, or it
                        does the acts of a plan and then only schedules.
-/

set_option linter.unusedSectionVars false

namespace Citron
open Resumption

namespace ProcessManager

/-- the process that has the processor is in state `Running` -/
def Busy (s : ProcessManager) : Prop := s.stateOf s.running = some .running

def Runnable (s : ProcessManager) (pid : Pid) : Prop :=
  s.stateOf pid = some .running ∨ s.stateOf pid = some .ready

/-- no process is ready -/
def Idle (s : ProcessManager) : Prop := ∀ pid, s.stateOf pid ≠ some .ready

/-- no ready process has a greater priority than the running one -/
def Strict (s : ProcessManager) : Prop :=
  s.Busy → ∀ pid a b, s.stateOf pid = some .ready → s.prioOf pid = some a →
    s.prioOf s.running = some b → a ≤ b

def Settled (s : ProcessManager) : Prop :=
  s.defer.count = 0 ∨ s.defer.attempt = false → s.Strict

end ProcessManager

structure Inv (s : ProcessManager) : Prop extends Closed s where
  own : ∀ pid, s.stateOf pid = some .running → pid = s.running
  prio : ∀ d ∈ s.pqueue, s.prioOf d.pid = some d.priority
  listed : ∀ pid, s.stateOf pid = some .ready → ∃ d ∈ s.pqueue, d.pid = pid

/-! ## what scheduling changes -/

/-- from `s` to `t` only the scheduling has changed; if `sch`, it has been done at least once -/
structure Tailed (sch : Prop) (s t : ProcessManager) : Prop where
  states : ∀ pid, t.stateOf pid = s.stateOf pid ∨ s.Runnable pid ∧ t.Runnable pid
  prio : ∀ pid, t.prioOf pid = s.prioOf pid
  children : ∀ pid, t.childrenOf pid = s.childrenOf pid
  stable : t.stable = s.stable
  sleepQueue : t.sleepQueue = s.sleepQueue
  eventQueue : t.eventQueue = s.eventQueue
  currPid : t.currPid = s.currPid
  currSid : t.currSid = s.currSid
  count : t.defer.count = s.defer.count
  served : s.defer.count = 0 → sch ∨ s.Busy ∨ s.Idle → t.Busy ∨ t.Idle

namespace Tailed
variable {sch : Prop} {s t u : ProcessManager}

theorem refl (s : ProcessManager) : Tailed False s s :=
  ⟨fun _ => .inl rfl, fun _ => rfl, fun _ => rfl, rfl, rfl, rfl, rfl, rfl, rfl, fun _ h => h.resolve_left id⟩

theorem weaken {sch' : Prop} (h : Tailed sch s t) (hs : sch' → sch) : Tailed sch' s t :=
  { h with served := fun hc h' => h.served hc (h'.imp_left hs) }

theorem trans (h : Tailed sch s t) (h' : Tailed False t u) : Tailed sch s u where
  states pid := by
    rcases h.states pid with e | ⟨hs, ht⟩
    · rcases h'.states pid with e' | ⟨ht, hu⟩
      · exact .inl (e'.trans e)
      · exact .inr ⟨by unfold ProcessManager.Runnable at ht ⊢; rwa [e] at ht, hu⟩
    · rcases h'.states pid with e' | ⟨_, hu⟩
      · exact .inr ⟨hs, by unfold ProcessManager.Runnable at ht ⊢; rwa [e']⟩
      · exact .inr ⟨hs, hu⟩
  prio pid := (h'.prio pid).trans (h.prio pid)
  children pid := (h'.children pid).trans (h.children pid)
  stable := h'.stable.trans h.stable
  sleepQueue := h'.sleepQueue.trans h.sleepQueue
  eventQueue := h'.eventQueue.trans h.eventQueue
  currPid := h'.currPid.trans h.currPid
  currSid := h'.currSid.trans h.currSid
  count := h'.count.trans h.count
  served hc hs := h'.served (h.count.trans hc) (.inr (h.served hc hs))

theorem trans' (h : Tailed False s t) (h' : Tailed sch t u) : Tailed sch s u where
  __ := h.trans (h'.weaken False.elim)
  served hc hs := h'.served (h.count.trans hc)
    (hs.imp_right fun hs => h.served hc (.inr hs))

theorem isSome (h : Tailed sch s t) (pid : Pid) : (t.ptable pid).isSome = (s.ptable pid).isSome := by
  rw [← ProcessManager.isSome_prioOf, h.prio, ProcessManager.isSome_prioOf]

theorem runnable (h : Tailed sch s t) (pid : Pid) : t.Runnable pid ↔ s.Runnable pid := by
  rcases h.states pid with e | ⟨hs, ht⟩
  · unfold ProcessManager.Runnable
    rw [e]
  · exact iff_of_true ht hs

/-- a process that waits or is dead still does -/
theorem stateOf_of_not_runnable (h : Tailed sch s t) {pid : Pid} (hs : ¬ s.Runnable pid) :
    t.stateOf pid = s.stateOf pid := by
  rcases h.states pid with e | ⟨hs', _⟩
  · exact e
  · exact absurd hs' hs

/-- scheduling keeps the tables closed -/
theorem closed (h : Tailed sch s t) (hs : Closed s) (hr : (s.ptable t.running).isSome)
    (hd : ∀ d ∈ t.pqueue, (s.ptable d.pid).isSome) : Closed t :=
  hs.of_same h.isSome (fun q _ hc => h.children q ▸ hc) hr hd h.sleepQueue h.stable h.eventQueue
    h.currPid

end Tailed

/-! ## the outcomes of `schedule` -/

section
variable {s : ProcessManager}

/-- the descriptor that was popped carries the priority of its process -/
theorem Inv.popped_prio (hs : Inv s) {d : ProcessDesc} {q : List ProcessDesc} {p : Process}
    (hd : Popped s d q) (hp : s.ptable d.pid = some p) : d.priority = p.priority := by
  have h := hs.prio d hd.mem
  rw [ProcessManager.prioOf_of_ptable hp] at h
  exact (Option.some.inj h).symm

/-- a ready process does not exceed the one that was popped -/
theorem Inv.le_popped (hs : Inv s) {d : ProcessDesc} {q : List ProcessDesc} (hd : Popped s d q)
    {pid a : Nat} (hr : s.stateOf pid = some .ready) (ha : s.prioOf pid = some a) :
    a ≤ d.priority := by
  obtain ⟨d', hd', rfl⟩ := hs.listed pid hr
  rw [hs.prio d' hd', Option.some.injEq] at ha
  rw [← ha]
  exact hd.max d' hd' hr

theorem Inv.idle (hs : Inv s) (h : Stale s) : s.Idle := by
  intro pid hp
  obtain ⟨d, hd, rfl⟩ := hs.listed pid hp
  exact h d hd hp

/-- a change of the heap alone -/
theorem Tailed.setQueue (q : List ProcessDesc) (h : s.Busy ∨ s.Idle) :
    Tailed True s (s.setQueue q) :=
  ⟨fun _ => .inl rfl, fun _ => rfl, fun _ => rfl, rfl, rfl, rfl, rfl, rfl, rfl, fun _ _ => h⟩

theorem Inv.setQueue (hs : Inv s) {q : List ProcessDesc}
    (hp : ∀ d ∈ q, s.prioOf d.pid = some d.priority)
    (hl : ∀ pid, s.stateOf pid = some .ready → ∃ d ∈ q, d.pid = pid) : Inv (s.setQueue q) where
  running := hs.running
  desc d hd := by
    have h := hp d hd
    show (s.ptable d.pid).isSome
    rw [← ProcessManager.isSome_prioOf, h]
    rfl
  sleep := hs.sleep
  sem := hs.sem
  event := hs.event
  child := hs.child
  fresh := hs.fresh
  own := hs.own
  prio := hp
  listed := hl

variable (H : Heap)

/-- where control comes back from `schedule` without a switch -/
theorem Inv.scheduled_ok (hs : Inv s) {t : ProcessManager} (h : Scheduled H s (.ok () t)) :
    (Inv t ∧ t.Settled) ∧ Tailed True s t ∧ t.running = s.running := by
  cases h with
  | deferred hc =>
    refine ⟨⟨⟨⟨hs.running, hs.desc, hs.sleep, hs.sem, hs.event, hs.child, hs.fresh⟩, hs.own, hs.prio,
      hs.listed⟩, fun h => ?_⟩, ?_, rfl⟩
    · rcases h with h | h
      · exact absurd h (Nat.pos_iff_ne_zero.mp hc)
      · exact absurd h (by simp [ProcessManager.setAttempt])
    · exact ⟨fun _ => .inl rfl, fun _ => rfl, fun _ => rfl, rfl, rfl, rfl, rfl, rfl, rfl,
        fun h => absurd h (Nat.pos_iff_ne_zero.mp hc)⟩
  | idle hc h =>
    have hi := hs.idle h
    refine ⟨⟨hs.setQueue (fun d hd => absurd hd (by simp)) (fun pid hp => absurd hp (hi pid)),
      fun _ _ pid a b hp => absurd hp (hi pid)⟩, Tailed.setQueue _ (.inr hi), rfl⟩
  | @stay d q p r hc hd hp hr hrun hlt =>
    have hb : s.Busy := by
      unfold ProcessManager.Busy
      rw [ProcessManager.stateOf_of_ptable hr, hrun]
    have he : (⟨p.priority, d.pid⟩ : ProcessDesc) = d := by rw [← hs.popped_prio hd hp]
    rw [he]
    refine ⟨⟨hs.setQueue (fun d' hd' => ?_) (fun pid hpid => ?_), fun _ _ pid a b h1 h2 h3 => ?_⟩,
      Tailed.setQueue _ (.inl hb), rfl⟩
    · rcases (H.mem_push _ _ _).mp hd' with rfl | hd'
      · exact hs.prio _ hd.mem
      · exact hs.prio _ (hd.sub _ hd')
    · obtain ⟨d', hd', rfl⟩ := hs.listed pid hpid
      exact ⟨d', (H.mem_push _ _ _).mpr (hd.keep d' hd' hpid), rfl⟩
    · have h1 := hs.le_popped hd h1 h2
      have h3 : s.prioOf s.running = some b := h3
      rw [ProcessManager.prioOf_of_ptable hr, Option.some.injEq] at h3
      rw [hs.popped_prio hd hp] at h1
      omega

/-! ### the switch -/

section
variable (r : Process) (q : List ProcessDesc) (new : Pid)

@[simp] theorem dispatch_running : (s.dispatch H r q new).running = new := rfl

theorem dispatch_prioOf (pid : Pid) : (s.dispatch H r q new).prioOf pid = s.prioOf pid := by
  unfold ProcessManager.dispatch ProcessManager.takeOver ProcessManager.contextSwitch
  refine (ProcessManager.prioOf_saveStatus ..).trans ((ProcessManager.prioOf_setState ..).trans ?_)
  unfold ProcessManager.preempt
  split
  · exact ProcessManager.prioOf_setState ..
  · rfl

theorem dispatch_childrenOf (pid : Pid) :
    (s.dispatch H r q new).childrenOf pid = s.childrenOf pid := by
  unfold ProcessManager.dispatch ProcessManager.takeOver ProcessManager.contextSwitch
  refine (ProcessManager.childrenOf_saveStatus ..).trans
    ((ProcessManager.childrenOf_setState ..).trans ?_)
  unfold ProcessManager.preempt
  split
  · exact ProcessManager.childrenOf_setState ..
  · rfl

theorem dispatch_pqueue (d : ProcessDesc) : d ∈ (s.dispatch H r q new).pqueue ↔
    (r.state = .running ∧ d = ⟨r.priority, s.running⟩) ∨ d ∈ q := by
  show d ∈ ((s.masked.setQueue q).preempt H r).pqueue ↔ _
  unfold ProcessManager.preempt
  split
  next h =>
    simp only [h, true_and]
    exact H.mem_push q _ d
  next h =>
    simp only [h, false_and, false_or]
    rfl

theorem dispatch_rest : (s.dispatch H r q new).stable = s.stable ∧
    (s.dispatch H r q new).sleepQueue = s.sleepQueue ∧
    (s.dispatch H r q new).eventQueue = s.eventQueue ∧
    (s.dispatch H r q new).currPid = s.currPid ∧ (s.dispatch H r q new).currSid = s.currSid ∧
    (s.dispatch H r q new).defer = s.defer := by
  have h : ∀ t : ProcessManager, (t.preempt H r).stable = t.stable ∧
      (t.preempt H r).sleepQueue = t.sleepQueue ∧ (t.preempt H r).eventQueue = t.eventQueue ∧
      (t.preempt H r).currPid = t.currPid ∧ (t.preempt H r).currSid = t.currSid ∧
      (t.preempt H r).defer = t.defer := by
    intro t
    unfold ProcessManager.preempt
    split <;> exact ⟨rfl, rfl, rfl, rfl, rfl, rfl⟩
  exact h _

variable {r q new}

theorem dispatch_stateOf (hr : s.ptable s.running = some r) (pid : Pid) :
    (s.dispatch H r q new).stateOf pid = if pid = new then (s.stateOf new).map (fun _ => .running)
      else if pid = s.running ∧ r.state = .running then some .ready else s.stateOf pid := by
  have hpre : ((s.masked.setQueue q).preempt H r).stateOf pid
      = if pid = s.running ∧ r.state = .running then some .ready else s.stateOf pid := by
    unfold ProcessManager.preempt
    by_cases hst : r.state = .running
    · rw [if_pos hst]
      refine (ProcessManager.stateOf_setState ..).trans ?_
      by_cases e : pid = s.running
      · rw [if_pos (show pid = (s.masked.setQueue q).running from e), if_pos ⟨e, hst⟩]
        show (s.stateOf s.running).map _ = _
        rw [ProcessManager.stateOf_of_ptable hr]
        rfl
      · rw [if_neg (show ¬ pid = (s.masked.setQueue q).running from e), if_neg (fun h => e h.1)]
        rfl
    · rw [if_neg hst, if_neg (fun h => hst h.2)]
      rfl
  have hnew : (((s.masked.setQueue q).preempt H r).stateOf new).map (fun _ => State.running)
      = (s.stateOf new).map (fun _ => State.running) := by
    unfold ProcessManager.preempt
    split
    · refine (congrArg (Option.map _) (ProcessManager.stateOf_setState ..)).trans ?_
      split
      next e =>
        have e : new = s.running := e
        rw [e, Option.map_map]
        rfl
      next => rfl
    · rfl
  unfold ProcessManager.dispatch ProcessManager.takeOver ProcessManager.contextSwitch
  refine (ProcessManager.stateOf_saveStatus ..).trans
    ((ProcessManager.stateOf_setState ..).trans ?_)
  rw [hpre, hnew]

end

/-- where `schedule` gives the processor away -/
theorem Inv.scheduled_switch (hs : Inv s) {t : ProcessManager}
    {k : ProcessManager → Res ProcessManager ProcessError Unit}
    (h : Scheduled H s (.switch t k)) :
    ((Inv t ∧ t.Settled) ∧ Tailed True s t ∧ t.Busy) ∧
      k = fun s' => .ok () { s' with sie := s'.sie || s.sie } := by
  cases h with
  | @switch d q p r hc hd hp hr hle =>
    have hprio := hs.popped_prio hd hp
    have hnew : (s.dispatch H r q d.pid).stateOf d.pid = some .running := by
      rw [dispatch_stateOf H hr, if_pos rfl, hd.ready]
      rfl
    have hb : (s.dispatch H r q d.pid).Busy := hnew
    obtain ⟨e1, e2, e3, e4, e5, e6⟩ := dispatch_rest (s := s) H r q d.pid
    have ht : Tailed True s (s.dispatch H r q d.pid) :=
      { states := fun pid => by
          by_cases e : pid = d.pid
          · rw [e]
            exact .inr ⟨.inr hd.ready, .inl hnew⟩
          · have h : (s.dispatch H r q d.pid).stateOf pid = _ := dispatch_stateOf H hr pid
            rw [if_neg e] at h
            by_cases e' : pid = s.running ∧ r.state = .running
            · rw [if_pos e'] at h
              refine .inr ⟨.inl ?_, .inr h⟩
              rw [e'.1, ProcessManager.stateOf_of_ptable hr, e'.2]
            · rw [if_neg e'] at h
              exact .inl h
        prio := dispatch_prioOf H r q d.pid
        children := dispatch_childrenOf H r q d.pid
        stable := e1
        sleepQueue := e2
        eventQueue := e3
        currPid := e4
        currSid := e5
        count := by rw [e6]
        served := fun _ _ => .inl hb }
    -- the processes that are ready now: the preempted one and those that were
    have hready : ∀ pid, (s.dispatch H r q d.pid).stateOf pid = some .ready →
        pid ≠ d.pid ∧ ((pid = s.running ∧ r.state = .running) ∨ s.stateOf pid = some .ready) := by
      intro pid h
      rw [dispatch_stateOf H hr] at h
      by_cases e : pid = d.pid
      · rw [if_pos e, hd.ready] at h
        exact absurd h (by simp)
      · rw [if_neg e] at h
        by_cases e' : pid = s.running ∧ r.state = .running
        · exact ⟨e, .inl e'⟩
        · rw [if_neg e'] at h
          exact ⟨e, .inr h⟩
    have hdesc : ∀ d' ∈ (s.dispatch H r q d.pid).pqueue,
        (s.dispatch H r q d.pid).prioOf d'.pid = some d'.priority := by
      intro d' hd'
      rw [dispatch_prioOf]
      rcases (dispatch_pqueue H r q d.pid d').mp hd' with ⟨_, rfl⟩ | hd'
      · exact ProcessManager.prioOf_of_ptable hr
      · exact hs.prio d' (hd.sub d' hd')
    refine ⟨⟨⟨⟨ht.closed hs.toClosed ?_ ?_, ?_, hdesc, ?_⟩, fun _ _ pid a b h1 h2 h3 => ?_⟩, ht, hb⟩,
      rfl⟩
    · rw [dispatch_running, hp]
      rfl
    · intro d' hd'
      rw [← ht.isSome, ← ProcessManager.isSome_prioOf, hdesc d' hd']
      rfl
    · intro pid h
      rw [dispatch_stateOf H hr] at h
      by_cases e : pid = d.pid
      · exact e
      · rw [if_neg e] at h
        by_cases e' : pid = s.running ∧ r.state = .running
        · rw [if_pos e'] at h
          exact absurd h (by simp)
        · rw [if_neg e'] at h
          have e2 := hs.own pid h
          rw [e2, ProcessManager.stateOf_of_ptable hr, Option.some.injEq] at h
          exact absurd ⟨e2, h⟩ e'
    · intro pid h
      obtain ⟨e, ⟨rfl, hrun⟩ | hold⟩ := hready pid h
      · exact ⟨_, (dispatch_pqueue H r q d.pid _).mpr (.inl ⟨hrun, rfl⟩), rfl⟩
      · obtain ⟨d', hd', rfl⟩ := hs.listed pid hold
        rcases hd.keep d' hd' hold with rfl | hq
        · exact absurd rfl e
        · exact ⟨d', (dispatch_pqueue H r q d.pid _).mpr (.inr hq), rfl⟩
    · rw [dispatch_prioOf] at h2 h3
      rw [dispatch_running, ProcessManager.prioOf_of_ptable hp, Option.some.injEq] at h3
      obtain ⟨_, ⟨rfl, hrun⟩ | hold⟩ := hready pid h1
      · rw [ProcessManager.prioOf_of_ptable hr, Option.some.injEq] at h2
        have := hle hrun
        omega
      · have := hs.le_popped hd hold h2
        omega

/-! ## tails -/

/-- the contract of the calls of the process `me` -/
def guard (me : Pid) : Contract ProcessManager :=
  Contract.of ProcessManager.running (fun s => Inv s ∧ s.Settled) ProcessManager.Busy
    (Tailed False) me

theorem Inv.setSie (hs : Inv s) (b : Bool) : Inv { s with sie := b } :=
  ⟨⟨hs.running, hs.desc, hs.sleep, hs.sem, hs.event, hs.child, hs.fresh⟩, hs.own, hs.prio, hs.listed⟩

theorem Tailed.setSie (s : ProcessManager) (b : Bool) : Tailed False s { s with sie := b } :=
  ⟨fun _ => .inl rfl, fun _ => rfl, fun _ => rfl, rfl, rfl, rfl, rfl, rfl, rfl, fun _ h => h.resolve_left id⟩

/-- **Scheduling keeps the invariant**, and settles what an act has left unsettled. -/
theorem runTail_ensures {me : Pid} (l : List Tail) : ∀ {s : ProcessManager}, Inv s →
    (s.Settled ∨ .sched ∈ l) → s.running = me →
    (runTail (schedule H) l s).Ensures (guard me) False
      (fun t => (Inv t ∧ t.Settled) ∧ Tailed (.sched ∈ l) s t) := by
  induction l with
  | nil =>
    intro s hs hset hme
    exact ⟨⟨⟨hs, hset.resolve_right (by simp)⟩, (Tailed.refl s).weaken (by simp)⟩, hme⟩
  | cons x l ih =>
    intro s hs hset hme
    cases x with
    | restore mask =>
      have hset : s.Settled ∨ .sched ∈ l := hset.imp_right (by simp)
      refine (ih (hs.setSie (s.sie || mask)) hset hme).mono id ?_
      intro t ⟨ht, hl⟩
      exact ⟨ht, ((Tailed.setSie s _).trans' hl).weaken (by simp)⟩
    | sched =>
      have h := schedule_cases H hs.toClosed
      rw [runTail_sched]
      cases hr : schedule H s with
      | ok a t =>
        rw [hr] at h
        obtain ⟨⟨hi, hst⟩, hl, hrun⟩ := hs.scheduled_ok H h
        refine (ih hi (.inl hst) (hrun.trans hme)).mono id ?_
        intro u ⟨hu, hl'⟩
        exact ⟨hu, (hl.trans (hl'.weaken False.elim)).weaken (fun _ => trivial)⟩
      | err e t =>
        rw [hr] at h
        cases h
      | panic =>
        rw [hr] at h
        cases h
      | switch t k =>
        rw [hr] at h
        obtain ⟨⟨hi, hl, hb⟩, rfl⟩ := hs.scheduled_switch H h
        refine ⟨⟨hi, hl.weaken (fun _ => trivial)⟩, hb, ?_⟩
        -- resumed by its own process, the call goes on with the rest of the tail
        intro s' ⟨⟨hi', hset'⟩, _, hrun⟩
        refine (ih (hi'.setSie (s'.sie || s.sie)) (.inl hset') hrun).mono id ?_
        intro u ⟨hu, hl'⟩
        exact ⟨hu, (Tailed.setSie s' _).trans (hl'.weaken False.elim)⟩

end

end Citron
