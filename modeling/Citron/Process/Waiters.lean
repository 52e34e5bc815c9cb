import Citron.Process.Semaphore

/-!
# Semaphores: who is in the queue

`Parked`: whoever is in the queue of a semaphore waits for it or is dead, and is there once.  Waking
goes through `ready`, which does not ask what a process waits for, so this is kept only by calls
that leave the queued processes alone (`Op.Disturbs`).

* `semaphore_wait_ends_by_semaphore`  in a run without such calls, a wait ends only by a signal or the
                                      deletion of its semaphore;
* `io_signal_wakes_semaphore_waiter`  with them it does not.
-/

set_option linter.unusedSectionVars false

namespace Citron
open Resumption

namespace ProcessManager

/-- `pid` is in the queue of the semaphore `sid` -/
def QueuedOn (s : ProcessManager) (sid : Sid) (pid : Pid) : Prop :=
  ∃ x, s.stable sid = some x ∧ pid ∈ x.queue

def Queued (s : ProcessManager) (pid : Pid) : Prop := ∃ sid, s.QueuedOn sid pid

end ProcessManager

/-- the processes in the queues wait for their semaphore or are dead, and each is in one place -/
structure Parked (s : ProcessManager) : Prop where
  state : ∀ pid, s.Queued pid → s.stateOf pid = some .semaWait ∨ s.stateOf pid = some .free
  nodup : ∀ sid x, s.stable sid = some x → x.queue.Nodup
  once : ∀ sid sid' pid, s.QueuedOn sid pid → s.QueuedOn sid' pid → sid = sid'
  fresh : ∀ sid, s.currSid ≤ sid → s.stable sid = none

/-- the call makes `pid` ready, if it waits for a semaphore, although not by a semaphore -/
def Op.Wakes (op : Op) (s : ProcessManager) (pid : Pid) : Prop :=
  match op with
  | .ready q => q = pid
  | .ioSignal q => q = pid
  | .eventSignal event => pid ∈ s.waiters event
  | .kill q => q ≠ pid ∧ pid ∈ s.waiters (.exit q)
  | _ => False

/-- the call wakes a process that waits for a semaphore, or puts one that is in the queue of a
semaphore to wait for something else, or once more -/
def Op.Disturbs (op : Op) (s : ProcessManager) : Prop :=
  ∃ pid, s.Queued pid ∧
    (op.Wakes s pid ∧ s.stateOf pid = some .semaWait ∨ op.Blocks s pid ∧ op ≠ .kill pid)

/-- the acts that keep the queues -/
def Act.Parks (s : ProcessManager) : Act → Prop
  | .semWait sid => s.Queued s.running → ∀ x ∈ s.stable sid, ¬ x.take.count < 0
  | .wake pid => s.Queued pid → s.stateOf pid ≠ some .semaWait
  | .wakeLater pid => s.Queued pid → s.stateOf pid ≠ some .semaWait
  | .sleepOn pid _ => ¬ s.Queued pid
  | .ioOn pid => ¬ s.Queued pid
  | .eventOn pid _ => ¬ s.Queued pid
  | _ => True

section
variable {H : Heap} {s t : ProcessManager}

/-! ## the acts -/

theorem queued_of_stable (h : t.stable = s.stable) {pid : Pid} (hq : t.Queued pid) :
    s.Queued pid := by
  obtain ⟨sid, x, hx, hm⟩ := hq
  exact ⟨sid, x, h ▸ hx, hm⟩

/-- the semaphores stay, and the states of the processes in the queues -/
theorem Parked.of_same (hs : Parked s) (h1 : t.stable = s.stable) (h2 : t.currSid = s.currSid)
    (h3 : ∀ pid, s.Queued pid → t.stateOf pid = s.stateOf pid ∨ t.stateOf pid = some .free) :
    Parked t where
  state pid hq := by
    have hq := queued_of_stable h1 hq
    rcases h3 pid hq with e | e
    · rw [e]
      exact hs.state pid hq
    · exact .inr e
  nodup sid x hx := hs.nodup sid x (h1 ▸ hx)
  once sid sid' pid := by
    unfold ProcessManager.QueuedOn
    rw [h1]
    exact hs.once sid sid' pid
  fresh sid h := by
    rw [h1]
    exact hs.fresh sid (h2 ▸ h)

theorem queuedOn_setSemaphore {sid sid' : Sid} {x : Semaphore} {pid : Pid} :
    (s.setSemaphore sid x).QueuedOn sid' pid ↔
      if sid' = sid then pid ∈ x.queue else s.QueuedOn sid' pid := by
  unfold ProcessManager.QueuedOn ProcessManager.setSemaphore
  by_cases e : sid' = sid
  · subst e
    simp
  · simp [e]

/-- nobody joins a queue -/
theorem Parked.of_fewer (hs : Parked s) (hst : ∀ pid, t.stateOf pid = s.stateOf pid)
    (hon : ∀ sid pid, t.QueuedOn sid pid → s.QueuedOn sid pid)
    (hnd : ∀ sid x, t.stable sid = some x → x.queue.Nodup)
    (hf : ∀ sid, t.currSid ≤ sid → t.stable sid = none) : Parked t where
  state pid := by
    intro ⟨sid, h⟩
    rw [hst]
    exact hs.state pid ⟨sid, hon sid pid h⟩
  nodup := hnd
  once sid sid' pid h h' := hs.once sid sid' pid (hon _ _ h) (hon _ _ h')
  fresh := hf

/-- a queue gets shorter -/
theorem Parked.setSemaphore (hs : Parked s) {sid : Sid} {x x' : Semaphore}
    (hx : s.stable sid = some x) (hq : x'.queue.Sublist x.queue) :
    Parked (s.setSemaphore sid x') := by
  refine hs.of_fewer (fun _ => rfl) (fun sid' pid h => ?_) (fun sid' z hz => ?_) fun sid' h => ?_
  · rw [queuedOn_setSemaphore] at h
    by_cases e : sid' = sid
    · rw [if_pos e] at h
      exact ⟨x, e ▸ hx, hq.mem h⟩
    · rwa [if_neg e] at h
  · by_cases e : sid' = sid
    · subst e
      simp only [ProcessManager.setSemaphore, Function.update_self, Option.some.injEq] at hz
      rw [← hz]
      exact (hs.nodup sid' x hx).sublist hq
    · simp only [ProcessManager.setSemaphore, Function.update_of_ne e] at hz
      exact hs.nodup sid' z hz
  · have e : sid' ≠ sid := by
      rintro rfl
      exact absurd ((hs.fresh sid' h).symm.trans hx) (by simp)
    exact (Function.update_of_ne e ..).trans (hs.fresh sid' h)

/-- the running process joins a queue -/
theorem Parked.semWait (hs : Parked s) (hi : Inv s) {sid : Sid} {x : Semaphore}
    (hx : s.stable sid = some x) (hr : ¬ s.Queued s.running) :
    Parked ((s.setState s.running .semaWait).setSemaphore sid
      { x.take with queue := x.queue ++ [s.running] }) := by
  have hon : ∀ sid' pid, ((s.setState s.running .semaWait).setSemaphore sid
      { x.take with queue := x.queue ++ [s.running] }).QueuedOn sid' pid →
      s.QueuedOn sid' pid ∨ sid' = sid ∧ pid = s.running := by
    intro sid' pid h
    rw [queuedOn_setSemaphore] at h
    by_cases e : sid' = sid
    · rw [if_pos e] at h
      rcases List.mem_append.mp h with h | h
      · exact .inl ⟨x, e ▸ hx, h⟩
      · exact .inr ⟨e, List.mem_singleton.mp h⟩
    · rw [if_neg e] at h
      exact .inl h
  refine ⟨fun pid ⟨sid', h⟩ => ?_, fun sid' z hz => ?_, fun sid₁ sid₂ pid h1 h2 => ?_,
    fun sid' h => ?_⟩
  · show (s.setState s.running .semaWait).stateOf pid = _ ∨ _
    rcases hon sid' pid h with h | ⟨_, rfl⟩
    · have hne : pid ≠ s.running := by
        rintro rfl
        exact hr ⟨sid', h⟩
      have e := ProcessManager.stateOf_setState_of_ne s s.running .semaWait hne
      rcases hs.state pid ⟨sid', h⟩ with h | h
      · exact .inl (e.trans h)
      · exact .inr (e.trans h)
    · obtain ⟨p, hp⟩ := Option.isSome_iff_exists.mp hi.running
      left
      rw [ProcessManager.stateOf_setState, if_pos rfl, ProcessManager.stateOf_of_ptable hp]
      rfl
  · by_cases e : sid' = sid
    · subst e
      simp only [ProcessManager.setSemaphore, Function.update_self, Option.some.injEq] at hz
      rw [← hz]
      refine List.nodup_append.mpr ⟨hs.nodup sid' x hx, by simp, ?_⟩
      rintro q hq q' hq' rfl
      rw [List.mem_singleton.mp hq'] at hq
      exact hr ⟨sid', x, hx, hq⟩
    · simp only [ProcessManager.setSemaphore, Function.update_of_ne e] at hz
      exact hs.nodup sid' z hz
  · rcases hon _ _ h1 with h1 | ⟨e1, e1'⟩
    · rcases hon _ _ h2 with h2 | ⟨_, e2'⟩
      · exact hs.once _ _ pid h1 h2
      · exact absurd ⟨sid₁, e2' ▸ h1⟩ hr
    · rcases hon _ _ h2 with h2 | ⟨e2, _⟩
      · exact absurd ⟨sid₂, e1' ▸ h2⟩ hr
      · rw [e1, e2]
  · have e : sid' ≠ sid := by
      rintro rfl
      exact absurd ((hs.fresh sid' h).symm.trans hx) (by simp)
    exact (Function.update_of_ne e ..).trans (hs.fresh sid' h)

/-- a process that is in no queue is given another state -/
theorem Parked.setState (hs : Parked s) {pid : Pid} (hq : ¬ s.Queued pid) (st : State) :
    Parked (s.setState pid st) := by
  refine hs.of_same rfl rfl fun q h => .inl ?_
  refine ProcessManager.stateOf_setState_of_ne s pid st ?_
  rintro rfl
  exact hq h

/-- waking a process is harmless if it is not in a queue, or is dead -/
theorem Parked.wakeLater (hs : Parked s) {pid : Pid}
    (h : s.Queued pid → s.stateOf pid ≠ some .semaWait) : Parked (s.wakeLater H pid) := by
  rcases wakeLater_cases H s pid with e | ⟨p, hp, hb, e⟩
  · rwa [e]
  · rw [e]
    have hq : ¬ s.Queued pid := by
      intro hq
      have hfree := (hs.state pid hq).resolve_left (h hq)
      rw [ProcessManager.stateOf_of_ptable hp, Option.some.injEq] at hfree
      rw [hfree] at hb
      exact absurd hb (by simp [State.blocked])
    exact (hs.setState hq .ready).of_same rfl rfl fun _ _ => .inl rfl

theorem Parked.wake (hs : Parked s) {pid : Pid}
    (h : s.Queued pid → s.stateOf pid ≠ some .semaWait) : Parked (s.wake H pid) := by
  have hl := hs.wakeLater (H := H) h
  unfold ProcessManager.wake
  unfold ProcessManager.wakeLater at hl
  cases hp : s.ptable pid with
  | none => exact hs
  | some p =>
    rw [hp] at hl
    cases hb : p.state.blocked with
    | false =>
      simp only [hb, Bool.false_eq_true, if_false]
      exact hs
    | true =>
      simp only [hb, if_true] at hl ⊢
      exact hl.of_same rfl rfl fun _ _ => .inl rfl

/-- a sleeper is in no queue -/
theorem Parked.wakeSleepers (hs : Parked s) (pids : List Pid) :
    Parked (s.wakeSleepers H pids) := by
  induction pids generalizing s with
  | nil => exact hs
  | cons pid pids ih =>
    unfold ProcessManager.wakeSleepers
    split
    next h =>
      refine ih (hs.wakeLater fun _ => ?_)
      rw [h]
      simp
    next => exact ih hs

theorem Act.parked_apply {a : Act} (hi : Inv s) (hs : Parked s) (ha : a.Parks s) :
    Parked (a.apply H s) := by
  cases a with
  | create priority =>
    refine hs.of_same rfl rfl fun pid ⟨sid, x, hx, hm⟩ => .inl ?_
    unfold ProcessManager.stateOf
    rw [hi.create_ptable priority (hi.sem sid x hx pid hm)]
  | setup q => exact hs.of_same rfl rfl fun pid _ => .inl (ProcessManager.stateOf_saveStatus s q pid)
  | newSem count =>
    refine hs.of_fewer (fun _ => rfl) (fun sid pid h => ?_) (fun sid z hz => ?_) fun sid h => ?_
    · have h : (s.setSemaphore s.currSid (Semaphore.new count)).QueuedOn sid pid := h
      rw [queuedOn_setSemaphore] at h
      by_cases e : sid = s.currSid
      · rw [if_pos e] at h
        exact absurd h List.not_mem_nil
      · rwa [if_neg e] at h
    · by_cases e : sid = s.currSid
      · subst e
        simp only [Act.apply, ProcessManager.setSemaphore, Function.update_self,
          Option.some.injEq] at hz
        rw [← hz]
        exact List.nodup_nil
      · simp only [Act.apply, ProcessManager.setSemaphore, Function.update_of_ne e] at hz
        exact hs.nodup sid z hz
    · have e : sid ≠ s.currSid := Nat.ne_of_gt h
      exact (Function.update_of_ne e ..).trans (hs.fresh sid (Nat.le_of_succ_le h))
  | semWait sid =>
    cases hx : s.stable sid with
    | none => rwa [semWait_none hx]
    | some x =>
      by_cases hc : x.take.count < 0
      · rw [semWait_block hx hc]
        exact hs.semWait hi hx fun hq => ha hq x hx hc
      · rw [semWait_pass hx hc]
        exact hs.setSemaphore hx (List.Sublist.refl _)
  | semPost sid =>
    cases hx : s.stable sid with
    | none => rwa [semPost_none hx]
    | some x => rw [semPost_some hx]; exact hs.setSemaphore hx (List.Sublist.refl _)
  | semPop sid =>
    cases hx : s.stable sid with
    | none => rwa [semPop_none hx]
    | some x => rw [semPop_some hx]; exact hs.setSemaphore hx (List.tail_sublist _)
  | semFree sid =>
    cases hx : s.stable sid with
    | none => rwa [semFree_none hx]
    | some x => rw [semFree_some hx]; exact hs.setSemaphore hx (List.Sublist.refl _)
  | wake pid => exact hs.wake ha
  | wakeLater pid => exact hs.wakeLater ha
  | sleepOn pid delay => exact (hs.setState ha .sleep).of_same rfl rfl fun _ _ => .inl rfl
  | sleepers pids => exact hs.wakeSleepers pids
  | ioOn pid => exact hs.setState ha .ioWait
  | eventOn pid event => exact (hs.setState ha .eventWait).of_same rfl rfl fun _ _ => .inl rfl
  | kill pid =>
    refine hs.of_same rfl rfl fun q hq => ?_
    have h := ProcessManager.stateOf_setState s pid .free q
    by_cases e : q = pid
    · subst e
      rw [if_pos rfl] at h
      rcases hs.state q hq with hst | hst
      · rw [hst] at h
        exact .inr h
      · rw [hst] at h
        exact .inr h
    · rw [if_neg e] at h
      exact .inl h
  | reap q index =>
    exact hs.of_same rfl rfl fun pid _ => .inl (s.map_updateProcess q Process.state
      (fun p => { p with children := p.children.eraseIdx index }) (fun _ => rfl) pid)
  | _ => exact hs.of_same rfl rfl fun _ _ => .inl rfl

/-! ## the loops -/

theorem along_wakeLater (pids : List Pid) : ∀ {s : ProcessManager},
    (∀ pid ∈ pids, s.Queued pid → s.stateOf pid ≠ some .semaWait) →
    Along H Act.Parks s (pids.map .wakeLater) := by
  induction pids with
  | nil => intro s _; trivial
  | cons pid pids ih =>
    intro s h
    refine ⟨h pid (List.mem_cons_self ..), ih fun q hq hqd hst => ?_⟩
    have hqd : s.Queued q := queued_of_stable (wakeLater_stable H s pid) hqd
    refine h q (List.mem_cons_of_mem _ hq) hqd ?_
    have hst : (s.wakeLater H pid).stateOf q = some .semaWait := hst
    rcases wakeLater_cases H s pid with e | ⟨p, hp, _, e⟩
    · rwa [e] at hst
    · rw [e] at hst
      have hst := (ProcessManager.stateOf_setState s pid .ready q).symm.trans hst
      by_cases eq : q = pid
      · rw [if_pos eq, ProcessManager.stateOf_of_ptable hp] at hst
        exact absurd hst (by simp)
      · rwa [if_neg eq] at hst

theorem along_eventOn (r : Pid) (pids : List Pid) : ∀ {s : ProcessManager}, ¬ s.Queued r →
    Along H Act.Parks s (pids.flatMap fun pid => [.eventOn r (.exit pid), .attempt]) := by
  induction pids with
  | nil => intro s _; trivial
  | cons pid pids ih => intro s h; exact ⟨h, trivial, ih h⟩

/-- the process that leaves a queue is in none -/
theorem Parked.not_queued_pop (hs : Parked s) {sid : Sid} {x x' : Semaphore} {pid : Pid}
    {rest : List Pid} (hx : s.stable sid = some x) (hq : x.queue = pid :: rest)
    (hx' : x'.queue = rest) : ¬ (s.setSemaphore sid x').Queued pid := by
  intro ⟨sid', h⟩
  rw [queuedOn_setSemaphore] at h
  have hnd := hs.nodup sid x hx
  rw [hq, List.nodup_cons] at hnd
  by_cases e : sid' = sid
  · rw [if_pos e, hx'] at h
    exact hnd.1 h
  · rw [if_neg e] at h
    exact e (hs.once sid' sid pid h ⟨x, hx, by rw [hq]; exact List.mem_cons_self ..⟩)

theorem along_freeAll (sid : Sid) (pids : List Pid) : ∀ {s : ProcessManager} {x : Semaphore},
    Parked s → s.stable sid = some x → pids <+: x.queue →
    Along H Act.Parks s (freeAll sid pids) := by
  induction pids with
  | nil => intro s x _ _ _; trivial
  | cons pid pids ih =>
    intro s x hs hx hpre
    obtain ⟨rest, hrest⟩ := hpre
    have hq : x.queue = pid :: (pids ++ rest) := hrest.symm
    have hpop : (Act.semPop sid).apply H s
        = s.setSemaphore sid { x.post with queue := pids ++ rest } := by
      rw [semPop_some hx, hq]
      rfl
    have hs' : Parked (s.setSemaphore sid { x.post with queue := pids ++ rest }) :=
      hs.setSemaphore hx (by rw [hq]; exact List.sublist_cons_self ..)
    have hnq : ¬ (s.setSemaphore sid { x.post with queue := pids ++ rest }).Queued pid :=
      hs.not_queued_pop hx hq rfl
    refine ⟨trivial, ?_, ?_⟩
    · rw [hpop]
      exact fun h => absurd h hnq
    · rw [hpop]
      refine ih (x := { x.post with queue := pids ++ rest })
        (hs'.wakeLater fun h => absurd h hnq) ?_ (List.prefix_append ..)
      show ((s.setSemaphore sid _).wakeLater H pid).stable sid = _
      rw [wakeLater_stable]
      simp [ProcessManager.setSemaphore]

/-! ## runs -/

/-- the acts that keep the queues in any state -/
def Act.parkless : Act → Bool
  | .semWait _ => false
  | .wake _ => false
  | .wakeLater _ => false
  | .sleepOn _ _ => false
  | .ioOn _ => false
  | .eventOn _ _ => false
  | _ => true

theorem Act.parks_of_parkless {a : Act} (h : a.parkless = true) (s : ProcessManager) :
    a.Parks s := by
  cases a <;> trivial

/-- the acts of a call that disturbs nobody keep the queues -/
theorem Planned.parks {mask : Bool} {op : Op} {p : Plan} (h : Planned H s mask op p)
    (hs : Parked s) (hd : ¬ op.Disturbs s) : Along H Act.Parks s p.acts := by
  have safe : ∀ {acts : List Act} {t : ProcessManager}, acts.all Act.parkless = true →
      Along H Act.Parks t acts :=
    fun h => Along.of_forall (fun s a ha => Act.parks_of_parkless ha s) (List.all_eq_true.mp h)
  cases h with
  | create priority doSetup => cases doSetup <;> exact safe (by simp [Plan.acts, Act.parkless])
  | semWait hx hc =>
    exact ⟨fun hq x hx hc => hd ⟨s.running, hq, .inr ⟨⟨rfl, x, hx, hc⟩, by simp⟩⟩, trivial⟩
  | semPass hx hc =>
    exact ⟨fun hq x hx hc => hd ⟨s.running, hq, .inr ⟨⟨rfl, x, hx, hc⟩, by simp⟩⟩, trivial⟩
  | @semWake sid x pid rest p hx hc hq hp =>
    refine ⟨trivial, fun h => absurd h ?_, trivial⟩
    rw [semPop_some hx]
    exact hs.not_queued_pop hx hq (by rw [hq]; rfl)
  | @semDelete sid x hx hk =>
    refine ⟨trivial, trivial, along_append.mpr ⟨?_, trivial, trivial⟩⟩
    have hs' : Parked ((Act.start).apply H ((Act.semFree sid).apply H s)) := by
      rw [semFree_some hx]
      have h : Parked (s.setSemaphore sid { x with state := .free }) :=
        hs.setSemaphore hx (List.Sublist.refl _)
      exact h.of_same rfl rfl fun _ _ => .inl rfl
    exact along_freeAll sid _ hs' (stable_semFree hx) (List.take_prefix ..)
  | @ready pid p hp => exact ⟨fun hq hst => hd ⟨pid, hq, .inl ⟨rfl, hst⟩⟩, trivial⟩
  | @ioSignal pid p hp => exact ⟨fun hq hst => hd ⟨pid, hq, .inl ⟨rfl, hst⟩⟩, trivial⟩
  | @sleep pid p delay hp => exact ⟨fun hq => hd ⟨pid, hq, .inr ⟨rfl, by simp⟩⟩, trivial⟩
  | @ioWait pid p hp => exact ⟨fun hq => hd ⟨pid, hq, .inr ⟨rfl, by simp⟩⟩, trivial⟩
  | @eventWait pid p event hp => exact ⟨fun hq => hd ⟨pid, hq, .inr ⟨rfl, by simp⟩⟩, trivial⟩
  | @killSignal pid p pids hp he =>
    refine ⟨trivial, trivial, trivial, along_append.mpr ⟨?_, trivial, trivial⟩⟩
    refine along_wakeLater pids fun q hq hqd hst => ?_
    have hst := (ProcessManager.stateOf_setState s pid .free q).symm.trans hst
    by_cases e : q = pid
    · rw [if_pos e, ProcessManager.stateOf_of_ptable hp] at hst
      exact absurd hst (by simp)
    · rw [if_neg e] at hst
      refine hd ⟨q, hqd, .inl ⟨⟨Ne.symm e, ?_⟩, hst⟩⟩
      simpa [ProcessManager.waiters, he] using hq
  | @eventSignal event pids he =>
    refine ⟨trivial, trivial, along_append.mpr ⟨?_, trivial, trivial⟩⟩
    refine along_wakeLater pids fun q hq hqd hst => hd ⟨q, hqd, .inl ⟨?_, hst⟩⟩
    show q ∈ s.waiters event
    simpa [ProcessManager.waiters, he] using hq
  | @waitExit p hp hn =>
    refine ⟨trivial, along_append.mpr ⟨?_, trivial, trivial⟩⟩
    have hch : s.childrenOf s.running = p.children := by simp [ProcessManager.childrenOf, hp]
    cases hc : p.children with
    | nil => trivial
    | cons c cs =>
      rw [← hc]
      refine along_eventOn s.running p.children fun hq => hd ⟨s.running, hq, .inr ⟨⟨rfl, ?_⟩, by simp⟩⟩
      rw [hch]
      exact ⟨by simp [hc], hn⟩
  | _ => exact safe (by simp [Plan.acts, Plan.after, deferred, Act.parkless])

/-! ## leaving a queue -/

/-- only a signal takes a process from a queue -/
theorem Act.queuedOn_apply {a : Act} {sid : Sid} {pid : Pid} (hs : Parked s)
    (ha : a ≠ .semPop sid) (h : s.QueuedOn sid pid) : (a.apply H s).QueuedOn sid pid := by
  have same : ∀ t : ProcessManager, t.stable = s.stable → t.QueuedOn sid pid := by
    intro t ht
    unfold ProcessManager.QueuedOn
    rwa [ht]
  have set : ∀ (t : ProcessManager) (sid' : Sid) (x x' : Semaphore), t.stable = s.stable →
      s.stable sid' = some x → (∀ q ∈ x.queue, q ∈ x'.queue) →
      (t.setSemaphore sid' x').QueuedOn sid pid := by
    intro t sid' x x' ht hx hq
    rw [queuedOn_setSemaphore]
    by_cases e : sid = sid'
    · rw [if_pos e]
      obtain ⟨z, hz, hm⟩ := h
      rw [e, hx, Option.some.injEq] at hz
      exact hq pid (hz ▸ hm)
    · rw [if_neg e]
      exact same t ht
  cases a with
  | newSem count =>
    have hne : sid ≠ s.currSid := by
      rintro rfl
      obtain ⟨x, hx, _⟩ := h
      exact absurd ((hs.fresh _ (Nat.le_refl _)).symm.trans hx) (by simp)
    have hq : (s.setSemaphore s.currSid (Semaphore.new count)).QueuedOn sid pid := by
      rw [queuedOn_setSemaphore, if_neg hne]
      exact h
    exact hq
  | semWait sid' =>
    cases hx : s.stable sid' with
    | none => rwa [semWait_none hx]
    | some x =>
      by_cases hc : x.take.count < 0
      · rw [semWait_block hx hc]
        exact set _ sid' x _ rfl hx fun q hq => List.mem_append_left _ hq
      · rw [semWait_pass hx hc]
        exact set _ sid' x _ rfl hx fun _ hq => hq
  | semPost sid' =>
    cases hx : s.stable sid' with
    | none => rwa [semPost_none hx]
    | some x => rw [semPost_some hx]; exact set _ sid' x _ rfl hx fun _ hq => hq
  | semPop sid' =>
    cases hx : s.stable sid' with
    | none => rwa [semPop_none hx]
    | some x =>
      rw [semPop_some hx, queuedOn_setSemaphore, if_neg]
      · exact h
      · rintro rfl
        exact ha rfl
  | semFree sid' =>
    cases hx : s.stable sid' with
    | none => rwa [semFree_none hx]
    | some x => rw [semFree_some hx]; exact set _ sid' x _ rfl hx fun _ hq => hq
  | wake q => exact same _ (wake_stable q)
  | wakeLater q => exact same _ (wakeLater_stable ..)
  | sleepers pids => exact same _ (wakeSleepers_stable pids)
  | _ => exact same _ rfl

/-- only `signal_semaphore` and `delete_semaphore` do -/
theorem Planned.pops {mask : Bool} {op : Op} {p : Plan} (h : Planned H s mask op p) {sid : Sid}
    (hm : Act.semPop sid ∈ p.acts) : op = .signalSemaphore sid ∨ op = .deleteSemaphore sid := by
  cases h with
  | create priority doSetup => cases doSetup <;> exact absurd hm (by simp [Plan.acts])
  | semWake hx hc hq hp =>
    simp [Plan.acts] at hm
    exact .inl (by rw [hm])
  | semDelete hx hk =>
    simp [Plan.acts, Plan.after, deferred, freeAll] at hm
    exact .inr (by rw [hm.2])
  | _ => exact absurd hm (by simp [Plan.acts, Plan.after, deferred])

/-- a condition in every state, and one on the acts -/
theorem Along.and {ok : ProcessManager → Act → Prop} {Q : Act → Prop} {acts : List Act} :
    ∀ {s : ProcessManager}, Along H ok s acts → (∀ a ∈ acts, Q a) →
      Along H (fun s a => ok s a ∧ Q a) s acts := by
  induction acts with
  | nil => intro s _ _; trivial
  | cons a acts ih =>
    intro s h hQ
    exact ⟨⟨h.1, hQ a (List.mem_cons_self ..)⟩, ih h.2 fun b hb => hQ b (List.mem_cons_of_mem _ hb)⟩

/-- the calls of a run that leaves the processes in the queues alone -/
def Op.LeavesQueues (op : Op) (s : ProcessManager) : Prop := ¬ op.Disturbs s

section
variable {sie : Bool} {y y' : Sys ProcessManager ProcessError}

theorem Op.entry_parked {op : Op} (hi : Inv s) (hs : Parked s) (hm : op.LeavesQueues s) :
    Inv (op.entry s) ∧ Parked (op.entry s) ∧ ¬ op.Disturbs (op.entry s) := by
  unfold Op.entry
  split
  · refine ⟨hi.setSie false, hs.of_same rfl rfl fun _ _ => .inl rfl, ?_⟩
    cases op <;> exact hm
  · exact ⟨hi, hs, hm⟩

theorem Parked.not_runnable (hs : Parked s) {pid : Pid} (hq : s.Queued pid) : ¬ s.Runnable pid := by
  rintro (h | h) <;> rcases hs.state pid hq with h' | h' <;> rw [h'] at h <;>
    exact absurd h (by simp)

theorem Reachable.parked (hy : Reachable H Op.LeavesQueues sie y) : Parked y.st := by
  refine Reachable.invariant (J := Parked) ?_ ?_ ?_ hy
  · have hn : ∀ sid, (ProcessManager.booted H sie).stable sid = none := fun _ => rfl
    have hq : ∀ sid pid, ¬ (ProcessManager.booted H sie).QueuedOn sid pid := by
      intro sid pid ⟨x, hx, _⟩
      rw [hn] at hx
      exact absurd hx (by simp)
    exact ⟨fun pid ⟨sid, h⟩ => absurd h (hq sid pid), fun sid x hx => absurd hx (by rw [hn]; simp),
      fun sid _ pid h => absurd h (hq sid pid), fun sid _ => hn sid⟩
  · intro s t ht hs
    exact hs.of_same ht.stable ht.currSid fun pid hq =>
      .inl (ht.stateOf_of_not_runnable (hs.not_runnable hq))
  · intro op s p hi hs hm hp
    obtain ⟨hi, hs, hd⟩ := op.entry_parked hi hs hm
    exact (hi.along (fun _ _ ht hp ha => Act.parked_apply ht hp ha) (hp.valid hi) (hp.parks hs hd)
      hs).2

/-- a step other than a signal or the deletion of the semaphore leaves its queue -/
theorem Reachable.queuedOn_step (hy : Reachable H Op.LeavesQueues sie y) {l : Option Op}
    (hl : Legal Op.LeavesQueues l y.st)
    (h : y.step ProcessManager.running (Op.run H) l = some y') {sid : Sid} {pid : Pid}
    (hq : y.st.QueuedOn sid pid) (h1 : l ≠ some (.signalSemaphore sid))
    (h2 : l ≠ some (.deleteSemaphore sid)) : y'.st.QueuedOn sid pid := by
  obtain ⟨rfl, _, ht⟩ | ⟨op, p, rfl, hp, ht⟩ := Reachable.step_cases hy h
  · unfold ProcessManager.QueuedOn
    rwa [ht.stable]
  · obtain ⟨hi, hs, hd⟩ :=
      op.entry_parked (Reachable.kept hy).inv.1 (Reachable.parked hy) (hl op rfl)
    have hpop : ∀ a ∈ p.acts, a ≠ .semPop sid := by
      rintro a ha rfl
      rcases hp.pops ha with e | e
      · exact h1 (by rw [e])
      · exact h2 (by rw [e])
    have hq : (op.entry y.st).QueuedOn sid pid := by
      unfold ProcessManager.QueuedOn
      rwa [op.entry_stable]
    have := hi.along (J := fun s => Parked s ∧ s.QueuedOn sid pid)
      (fun _ _ ht hJ ha => ⟨Act.parked_apply ht hJ.1 ha.1, Act.queuedOn_apply hJ.1 ha.2 hJ.2⟩)
      (hp.valid hi) ((hp.parks hs hd).and hpop) ⟨hs, hq⟩
    unfold ProcessManager.QueuedOn
    rw [ht.stable]
    exact this.2.2

/-- **A semaphore wait ends only by that semaphore**, in a run whose calls leave the queued processes
alone: whoever is in a queue waits for the semaphore or is dead, and is there once; and it can run
again only by a signal or the deletion of the semaphore, which takes it from the queue. -/
theorem semaphore_wait_ends_by_semaphore (H : Heap) (sie : Bool)
    (y : Sys ProcessManager ProcessError) (hy : Reachable H Op.LeavesQueues sie y) :
    (∀ sid x pid, y.st.stable sid = some x → pid ∈ x.queue →
      y.st.stateOf pid = some .semaWait ∨ y.st.stateOf pid = some .free) ∧
    (∀ sid x, y.st.stable sid = some x → x.queue.Nodup) ∧
    (∀ sid sid' x x' pid, y.st.stable sid = some x → y.st.stable sid' = some x' →
      pid ∈ x.queue → pid ∈ x'.queue → sid = sid') ∧
    (∀ l y', Legal Op.LeavesQueues l y.st →
      y.step ProcessManager.running (Op.run H) l = some y' →
      ∀ sid x pid, y.st.stable sid = some x → pid ∈ x.queue →
        y'.st.stateOf pid = some .ready ∨ y'.st.stateOf pid = some .running →
        (l = some (.signalSemaphore sid) ∨ l = some (.deleteSemaphore sid)) ∧
          ∀ sid' x', y'.st.stable sid' = some x' → pid ∉ x'.queue) := by
  have hp := Reachable.parked hy
  refine ⟨fun sid x pid hx hq => hp.state pid ⟨sid, x, hx, hq⟩, hp.nodup,
    fun sid sid' x x' pid hx hx' hq hq' => hp.once sid sid' pid ⟨x, hx, hq⟩ ⟨x', hx', hq'⟩, ?_⟩
  intro l y' hl h sid x pid hx hq hrun
  have hnq : ¬ y'.st.Queued pid := fun hq' =>
    (Reachable.parked (.step hy hl h)).not_runnable hq' hrun.symm
  refine ⟨?_, fun sid' x' hx' hq' => hnq ⟨sid', x', hx', hq'⟩⟩
  by_contra hne
  rw [not_or] at hne
  exact hnq ⟨sid, Reachable.queuedOn_step hy hl h ⟨x, hx, hq⟩ hne.1 hne.2⟩

/-- A process waits for a semaphore, and the null process signals it: the process is out of the queue. -/
theorem semaphore_wait_ends_by_semaphore_example :
    ∃ y, Reachable (BinaryHeap.scan _) Op.LeavesQueues true y ∧
      y.st.stable 0 = some ⟨.free, -1, [1]⟩ ∧
      (y.st.stateOf 1 = some .semaWait ∨ y.st.stateOf 1 = some .free) ∧
      ∃ y', y.step ProcessManager.running (Op.run (BinaryHeap.scan _)) (some (.signalSemaphore 0))
          = some y' ∧ y'.st.stateOf 1 = some .running ∧
        ∀ sid' x', y'.st.stable sid' = some x' → 1 ∉ x'.queue := by
  let step (l : Option Op) (y : Sys ProcessManager ProcessError) :=
    y.step ProcessManager.running (Op.run (BinaryHeap.scan _)) l
  let y₀ : Sys ProcessManager ProcessError :=
    ⟨ProcessManager.booted (BinaryHeap.scan _) true, fun _ => none⟩
  let ls : List (Option Op) := [some (.createProcess 5 true), some (.createSemaphore 0)]
  have hrun : ((y₀.steps ProcessManager.running (Op.run (BinaryHeap.scan _)) ls).bind fun y₁ =>
      (step (some (.ready 1)) y₁).bind fun y₂ => (step (some (.waitSemaphore 0)) y₂).bind fun y₃ =>
      (step none y₃).bind fun y => (step (some (.signalSemaphore 0)) y).map fun y' =>
        (y₁.st.stateOf 1, y₂.st.running, y₂.st.stateOf 1, y.st.stable 0, y'.st.stateOf 1))
      = some (some .suspend, 1, some .running, some ⟨.free, -1, [1]⟩, some .running) := by
    decide
  obtain ⟨y₁, h₁, hrun⟩ := Option.bind_eq_some_iff.mp hrun
  obtain ⟨y₂, h₂, hrun⟩ := Option.bind_eq_some_iff.mp hrun
  obtain ⟨y₃, h₃, hrun⟩ := Option.bind_eq_some_iff.mp hrun
  obtain ⟨y, h, hrun⟩ := Option.bind_eq_some_iff.mp hrun
  obtain ⟨y', h', hrun⟩ := Option.map_eq_some_iff.mp hrun
  simp only [Prod.mk.injEq] at hrun
  obtain ⟨e1, e2, e3, e4, e5⟩ := hrun
  have r₁ : Reachable (BinaryHeap.scan _) Op.LeavesQueues true y₁ := Reach.steps .init
    (.of_forall (by simp [ls, Op.LeavesQueues, Op.Disturbs, Op.Wakes, Op.Blocks])) h₁
  have r₂ : Reachable (BinaryHeap.scan _) Op.LeavesQueues true y₂ := by
    refine .step r₁ (fun op e => ?_) h₂
    obtain rfl := Option.some.inj e
    rintro ⟨pid, _, ⟨rfl, hst⟩ | ⟨hb, _⟩⟩
    · rw [e1] at hst
      exact absurd hst (by simp)
    · exact hb
  have r₃ : Reachable (BinaryHeap.scan _) Op.LeavesQueues true y₃ := by
    refine .step r₂ (fun op e => ?_) h₃
    obtain rfl := Option.some.inj e
    rintro ⟨pid, hq, ⟨hw, _⟩ | ⟨⟨rfl, _⟩, _⟩⟩
    · exact hw
    · refine (Reachable.parked r₂).not_runnable hq (.inl ?_)
      rw [e2, e3]
  have r : Reachable (BinaryHeap.scan _) Op.LeavesQueues true y := .step r₃ (by simp [Legal]) h
  obtain ⟨c1, -, -, c2⟩ := semaphore_wait_ends_by_semaphore _ _ y r
  have hlegal : Legal Op.LeavesQueues (some (.signalSemaphore 0)) y.st := by
    intro op e
    obtain rfl := Option.some.inj e
    simp [Op.LeavesQueues, Op.Disturbs, Op.Wakes, Op.Blocks]
  exact ⟨y, r, e4, c1 0 _ 1 e4 (by simp), y', h', e5,
    (c2 _ y' hlegal h' 0 _ 1 e4 (by simp) (.inr e5)).2⟩

/-- A driver signals input for a process that waits for a semaphore: the process runs, and is still in
the queue. -/
theorem io_signal_wakes_semaphore_waiter :
    ¬ ∀ (H : Heap) (sie : Bool) (y : Sys ProcessManager ProcessError),
      Reachable H (fun _ _ => True) sie y → ∀ sid x pid, y.st.stable sid = some x → pid ∈ x.queue →
        y.st.stateOf pid = some .semaWait ∨ y.st.stateOf pid = some .free := by
  intro h
  let ls : List (Option Op) := [some (.createProcess 5 true), some (.createSemaphore 0),
    some (.ready 1), some (.waitSemaphore 0), none, some (.ioSignal 1)]
  let y₀ : Sys ProcessManager ProcessError :=
    ⟨ProcessManager.booted (BinaryHeap.scan _) true, fun _ => none⟩
  have hrun : ((y₀.steps ProcessManager.running (Op.run (BinaryHeap.scan _)) ls).map fun y =>
      (y.st.stable 0, y.st.stateOf 1)) = some (some ⟨.free, -1, [1]⟩, some .running) := by
    decide
  obtain ⟨y, hy, he⟩ := Option.map_eq_some_iff.mp hrun
  simp only [Prod.mk.injEq] at he
  have hreach : Reachable (BinaryHeap.scan _) (fun _ _ => True) true y :=
    Reach.steps .init (.of_forall fun _ _ _ _ _ => trivial) hy
  have := h _ _ y hreach 0 _ 1 he.1 (by simp)
  rw [he.2] at this
  exact absurd this (by simp)

end

end

end Citron
