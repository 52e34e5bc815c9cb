import Citron.Process.Step

/-!
# Who has the processor

* `no_lost_ready_process`  every ready process is in the heap under its own priority, and outside a
                           deferral none exceeds a running process that is `Running`;
* `watchSchedule`          a `schedule` that stops the machine where a call outside a deferral leaves the processor to
                           a process that is not `Running`;
* `cpu_ownership`          only the process `running` is ever `Running`; and if the null process is
                           never put to wait or killed, the watch never strikes.
-/

set_option linter.unusedSectionVars false

namespace Citron
open Resumption

/-- `defer_schedule(Stop)` only ends a deferral that has been started -/
def Op.Balanced (op : Op) (s : ProcessManager) : Prop := op = .deferStop → 0 < s.defer.count

/-- the call puts the process `pid` to wait or to sleep, or kills it -/
def Op.Blocks (op : Op) (s : ProcessManager) (pid : Pid) : Prop :=
  match op with
  | .sleep q _ => q = pid
  | .kill q => q = pid
  | .ioWait q => q = pid
  | .eventWait q _ => q = pid
  | .waitSemaphore sid => s.running = pid ∧ ∃ x ∈ s.stable sid, x.count - 1 < 0
  | .waitExit => s.running = pid ∧ s.childrenOf pid ≠ [] ∧ exited s (s.childrenOf pid) = none
  | _ => False

section
variable {H : Heap} {may : Op → ProcessManager → Prop} {sie : Bool}
  {y y' : Sys ProcessManager ProcessError}

/-! ## the ready list -/

/-- **No ready process is lost, and priorities are strict.** -/
theorem no_lost_ready_process (H : Heap) (sie : Bool) (y : Sys ProcessManager ProcessError)
    (hy : Reachable H Op.Balanced sie y) :
    (∀ pid p, y.st.ptable pid = some p → p.state = .ready →
      (⟨p.priority, pid⟩ : ProcessDesc) ∈ y.st.pqueue) ∧
    (y.st.defer.count = 0 → ∀ r, y.st.ptable y.st.running = some r → r.state = .running →
      ∀ pid p, y.st.ptable pid = some p → p.state = .ready → p.priority ≤ r.priority) := by
  obtain ⟨hs, hset⟩ := (Reachable.kept hy).inv
  have hst : ∀ {pid p}, y.st.ptable pid = some p → y.st.stateOf pid = some p.state :=
    fun h => ProcessManager.stateOf_of_ptable h
  refine ⟨fun pid p hp hr => ?_, fun hc r hrun hr pid p hp hready => ?_⟩
  · obtain ⟨d, hd, rfl⟩ := hs.listed pid (by rw [hst hp, hr])
    have hprio := hs.prio d hd
    rw [ProcessManager.prioOf_of_ptable hp, Option.some.injEq] at hprio
    rwa [hprio]
  · refine hset (.inl hc) ?_ pid _ _ ?_ (ProcessManager.prioOf_of_ptable hp)
      (ProcessManager.prioOf_of_ptable hrun)
    · unfold ProcessManager.Busy
      rw [hst hrun, hr]
    · rw [hst hp, hready]

/-- Two processes are created; the one of priority 5 takes the processor and makes the other ready,
which stays in the heap with the null process. -/
theorem no_lost_ready_process_example : ∃ y, Reachable (BinaryHeap.scan _) Op.Balanced true y ∧
    y.st.ptable y.st.running = some ⟨.running, 1, 5, [], true⟩ ∧
    y.st.ptable 2 = some ⟨.ready, 2, 3, [], true⟩ ∧ (⟨3, 2⟩ : ProcessDesc) ∈ y.st.pqueue ∧ 3 ≤ 5 := by
  let ls : List (Option Op) := [some (.createProcess 5 true), some (.createProcess 3 true),
    some (.ready 1), some (.ready 2)]
  let y₀ : Sys ProcessManager ProcessError :=
    ⟨ProcessManager.booted (BinaryHeap.scan _) true, fun _ => none⟩
  have hrun : ((y₀.steps ProcessManager.running (Op.run (BinaryHeap.scan _)) ls).map fun y =>
      (y.st.ptable y.st.running, y.st.ptable 2, y.st.defer.count))
      = some (some ⟨.running, 1, 5, [], true⟩, some ⟨.ready, 2, 3, [], true⟩, 0) := rfl
  obtain ⟨y, hy, he⟩ := Option.map_eq_some_iff.mp hrun
  simp only [Prod.mk.injEq] at he
  have hreach : Reachable (BinaryHeap.scan _) Op.Balanced true y :=
    Reach.steps .init (.of_forall (by simp [ls, Op.Balanced])) hy
  obtain ⟨h1, h2⟩ := no_lost_ready_process _ _ y hreach
  exact ⟨y, hreach, he.1, he.2.1, h1 2 _ he.2.1 rfl, h2 he.2.2 _ he.1 rfl 2 _ he.2.1 rfl⟩

/-! ## the null process -/

/-- the act puts `pid` to wait or kills it -/
def Act.Hits (pid : Pid) (s : ProcessManager) : Act → Prop
  | .semWait sid => s.running = pid ∧ ∃ x ∈ s.stable sid, x.take.count < 0
  | .sleepOn q _ => q = pid
  | .ioOn q => q = pid
  | .eventOn q _ => q = pid
  | .kill q => q = pid
  | _ => False

/-- the acts that put nobody to wait and kill nobody -/
def Act.harmless : Act → Bool
  | .semWait _ => false
  | .sleepOn _ _ => false
  | .ioOn _ => false
  | .eventOn _ _ => false
  | .kill _ => false
  | _ => true

theorem Act.not_hits_of_harmless {a : Act} (h : a.harmless = true) (pid : Pid)
    (s : ProcessManager) : ¬ a.Hits pid s := by
  cases a <;> first | exact id | exact absurd h (by simp [Act.harmless])

theorem wake_of_not_blocked {s : ProcessManager} {q pid : Pid} {st : State} (hst : st.blocked = false)
    (h : s.stateOf pid = some st) : (s.wake H q).stateOf pid = some st := by
  unfold ProcessManager.wake
  split
  · rename_i p hq
    split
    · rename_i hb
      refine (ProcessManager.stateOf_setState_of_ne s q .ready ?_).trans h
      rintro rfl
      rw [ProcessManager.stateOf_of_ptable hq] at h
      rw [Option.some.inj h, hst] at hb
      cases hb
    · exact h
  · exact h

theorem wakeLater_of_not_blocked {s : ProcessManager} {q pid : Pid} {st : State} (hst : st.blocked = false)
    (h : s.stateOf pid = some st) : (s.wakeLater H q).stateOf pid = some st := by
  rcases wakeLater_cases H s q with e | ⟨p, hq, hb, e⟩
  · rwa [e]
  · rw [e]
    refine (ProcessManager.stateOf_setState_of_ne s q .ready ?_).trans h
    rintro rfl
    rw [ProcessManager.stateOf_of_ptable hq] at h
    rw [Option.some.inj h, hst] at hb
    cases hb

theorem wakeSleepers_of_not_blocked {pid : Pid} {st : State} (hst : st.blocked = false) (pids : List Pid) :
    ∀ {s : ProcessManager}, s.stateOf pid = some st → (s.wakeSleepers H pids).stateOf pid = some st := by
  induction pids with
  | nil => exact fun h => h
  | cons q pids ih =>
    intro s h
    unfold ProcessManager.wakeSleepers
    split
    · exact ih (wakeLater_of_not_blocked hst h)
    · exact ih h

/-- a process that does not wait keeps its state, unless an act hits it -/
theorem Act.stateOf_of_not_hits {s : ProcessManager} {a : Act} {pid : Pid} {st : State} (hs : Inv s)
    (hst : st.blocked = false) (ha : ¬ a.Hits pid s) (h : s.stateOf pid = some st) :
    (a.apply H s).stateOf pid = some st := by
  have hset : ∀ q st', q ≠ pid → (s.setState q st').stateOf pid = some st := fun q st' hq =>
    (ProcessManager.stateOf_setState_of_ne s q st' (Ne.symm hq)).trans h
  have hsome : (s.ptable pid).isSome := by
    obtain ⟨p, hp, -⟩ := Option.map_eq_some_iff.mp h
    rw [hp]
    rfl
  cases a with
  | create priority =>
    unfold ProcessManager.stateOf
    rwa [hs.create_ptable priority hsome]
  | setup q => exact (ProcessManager.stateOf_saveStatus s q pid).trans h
  | semWait sid =>
    cases hx : s.stable sid with
    | none => rwa [semWait_none hx]
    | some x =>
      by_cases hc : x.take.count < 0
      · rw [semWait_block hx hc]
        exact hset s.running _ fun e => ha ⟨e, x, hx, hc⟩
      · rwa [semWait_pass hx hc]
  | semPost sid =>
    cases hx : s.stable sid with
    | none => rwa [semPost_none hx]
    | some x => rwa [semPost_some hx]
  | semPop sid =>
    cases hx : s.stable sid with
    | none => rwa [semPop_none hx]
    | some x => rwa [semPop_some hx]
  | semFree sid =>
    cases hx : s.stable sid with
    | none => rwa [semFree_none hx]
    | some x => rwa [semFree_some hx]
  | wake q => exact wake_of_not_blocked hst h
  | wakeLater q => exact wakeLater_of_not_blocked hst h
  | sleepOn q delay => exact hset q _ ha
  | sleepers pids => exact wakeSleepers_of_not_blocked hst pids h
  | ioOn q => exact hset q _ ha
  | eventOn q event => exact hset q _ ha
  | kill q => exact hset q _ ha
  | reap q index =>
    exact (s.map_updateProcess q Process.state (fun p => { p with children := p.children.eraseIdx index })
      (fun _ => rfl) pid).trans h
  | _ => exact h

/-- a process that can run still can, unless an act hits it -/
theorem Act.runnable_apply {s : ProcessManager} {a : Act} {pid : Pid} (hs : Inv s)
    (ha : ¬ a.Hits pid s) (h : s.Runnable pid) : (a.apply H s).Runnable pid :=
  h.imp (Act.stateOf_of_not_hits hs rfl ha) (Act.stateOf_of_not_hits hs rfl ha)

/-- the acts of a call that does not put `pid` to wait or kill it do not either -/
theorem Planned.not_hits {s : ProcessManager} {mask : Bool} {op : Op} {p : Plan} {pid : Pid}
    (h : Planned H s mask op p) (hb : ¬ op.Blocks s pid) :
    Along H (fun s a => ¬ a.Hits pid s) s p.acts := by
  have safe : ∀ {acts : List Act} {t : ProcessManager}, acts.all Act.harmless = true →
      Along H (fun s a => ¬ a.Hits pid s) t acts :=
    fun h => Along.of_forall (Q := fun a => a.harmless = true)
      (fun s a ha => Act.not_hits_of_harmless ha pid s) (List.all_eq_true.mp h)
  cases h with
  | create priority doSetup =>
    cases doSetup <;> exact safe (by simp [Plan.acts, Act.harmless])
  | semWait hx hc =>
    refine ⟨?_, trivial⟩
    rintro ⟨e, x, hx, hc⟩
    exact hb ⟨e, x, hx, hc⟩
  | semPass hx hc =>
    refine ⟨?_, trivial⟩
    rintro ⟨e, x, hx, hc⟩
    exact hb ⟨e, x, hx, hc⟩
  | sleep delay hp => exact ⟨hb, trivial⟩
  | ioWait hp => exact ⟨hb, trivial⟩
  | eventWait event hp => exact ⟨hb, trivial⟩
  | kill hp he => exact ⟨hb, safe (by simp [Act.harmless])⟩
  | killSignal hp he => exact ⟨hb, safe (by simp [Act.harmless])⟩
  | @waitExit p hp hn =>
    have hch : s.childrenOf s.running = p.children := by simp [ProcessManager.childrenOf, hp]
    refine Along.of_forall (Q := fun a => ∀ t, ¬ a.Hits pid t) (fun s a ha => ha s) fun a ha t => ?_
    simp only [Plan.acts, deferred, List.cons_append, List.mem_cons, List.mem_append,
      List.mem_flatMap, List.not_mem_nil, or_false] at ha
    rcases ha with rfl | ⟨c, hc, rfl | rfl⟩ | rfl
    · exact id
    · intro e
      have e : s.running = pid := e
      refine hb ⟨e, ?_⟩
      rw [← e, hch]
      exact ⟨List.ne_nil_of_mem hc, hn⟩
    · exact id
    · exact id
  | _ => exact safe (by simp [Plan.acts, Plan.after, deferred, freeAll, Act.harmless])

theorem Op.not_blocks_entry {op : Op} {s : ProcessManager} {pid : Pid} (h : ¬ op.Blocks s pid) :
    ¬ op.Blocks (op.entry s) pid := by
  unfold Op.entry
  split
  · cases op <;> exact h
  · exact h

/-- after the acts of a call that does not put `pid` to wait or kill it, `pid` can run if it could before -/
theorem Planned.runnable {s : ProcessManager} {mask : Bool} {op : Op} {p : Plan} {pid : Pid} (hs : Inv s)
    (h : Planned H (op.entry s) mask op p) (hb : ¬ op.Blocks s pid) (hpid : s.Runnable pid) :
    (applyAll H p.acts (op.entry s)).Runnable pid := by
  have hentry : Inv (op.entry s) ∧ (op.entry s).Runnable pid := by
    unfold Op.entry
    split
    · exact ⟨hs.setSie false, hpid⟩
    · exact ⟨hs, hpid⟩
  exact (hentry.1.along (fun _ _ ht hr ha => Act.runnable_apply ht ha hr) (h.valid hentry.1)
    (h.not_hits (op.not_blocks_entry hb)) hentry.2).2

/-- a process that no call puts to wait or kills can always run -/
theorem Reachable.runnable {pid : Pid} (hmay : ∀ op s, may op s → ¬ op.Blocks s pid)
    (h0 : (ProcessManager.booted H sie).Runnable pid) (hy : Reachable H may sie y) :
    y.st.Runnable pid :=
  Reachable.invariant (J := fun s => s.Runnable pid) h0 (fun s t ht => (ht.runnable pid).mpr)
    (fun op s _ hs hj hm hp => hp.runnable hs (hmay op s hm) hj) hy

theorem Inv.busy_of_served {s : ProcessManager} (hs : Inv s) (h0 : s.Runnable 0)
    (h : s.Busy ∨ s.Idle) : s.Busy := by
  rcases h with h | h
  · exact h
  · have h0 := h0.resolve_right (h 0)
    unfold ProcessManager.Busy
    rwa [← hs.own 0 h0]

/-- the null process is not put to wait or to sleep, nor killed -/
def Op.SparesNull (op : Op) (s : ProcessManager) : Prop := ¬ op.Blocks s 0

theorem Reachable.null_runnable (hy : Reachable H Op.SparesNull sie y) : y.st.Runnable 0 :=
  Reachable.runnable (fun _ _ h => h) (.inl (by rw [booted_stateOf]; rfl)) hy

/-- `schedule`, called outside a deferral, leaves the processor to a process that is `Running` -/
theorem schedule_busy {s : ProcessManager} (hs : Inv s) (h0 : s.Runnable 0)
    (hc : s.defer.count = 0) : ∃ t, (schedule H s).first = some t ∧ t.Busy := by
  have h := schedule_cases H hs.toClosed
  cases hr : schedule H s with
  | ok a t =>
    rw [hr] at h
    obtain ⟨⟨ht, _⟩, hl, _⟩ := hs.scheduled_ok H h
    exact ⟨t, rfl, ht.busy_of_served ((hl.runnable 0).mpr h0) (hl.served hc (.inl trivial))⟩
  | err e t =>
    rw [hr] at h
    cases h
  | panic =>
    rw [hr] at h
    cases h
  | switch t k =>
    rw [hr] at h
    exact ⟨t, rfl, (hs.scheduled_switch H h).1.2.2⟩

/-! ## watched scheduling -/

/-- the outcome of a call, except that the machine stops where control leaves the call, for the first time or after it
has been resumed, with a process on the processor that is not `Running` -/
def watchRunning : Res ProcessManager ProcessError Unit → Res ProcessManager ProcessError Unit
  | .ok a s => if s.stateOf s.running = some .running then .ok a s else .panic
  | .err e s => if s.stateOf s.running = some .running then .err e s else .panic
  | .panic => .panic
  | .switch s k => if s.stateOf s.running = some .running then .switch s fun s' => watchRunning (k s') else .panic

/-- `schedule`, watched in the calls that are made outside a deferral -/
def watchSchedule (H : Heap) : PM Unit := fun s =>
  if s.defer.count = 0 then watchRunning (schedule H s) else schedule H s

theorem watchRunning_ok {a : Unit} {s : ProcessManager} (h : s.Busy) : watchRunning (.ok a s) = .ok a s := if_pos h

theorem watchRunning_switch {s : ProcessManager} {k : ProcessManager → Res ProcessManager ProcessError Unit}
    (h : s.Busy) : watchRunning (.switch s k) = .switch s fun s' => watchRunning (k s') := if_pos h

theorem watchSchedule_zero {s : ProcessManager} (h : s.defer.count = 0) :
    watchSchedule H s = watchRunning (schedule H s) := if_pos h

theorem watchSchedule_pos {s : ProcessManager} (h : s.defer.count ≠ 0) : watchSchedule H s = schedule H s := if_neg h

theorem watchSchedule_defers : Defers (watchSchedule H) := fun _ h =>
  (watchSchedule_pos (Nat.ne_of_gt h)).trans (schedule_deferred H h)

/-- what a call relies on where it is resumed -/
def Resumed (s : ProcessManager) : Prop := Inv s ∧ s.Runnable 0 ∧ s.Busy

/-- **In the tail of a call the watch does not strike**, if the null process can run. -/
theorem runTail_watch (l : List Tail) : ∀ {s : ProcessManager}, Inv s → s.Runnable 0 →
    (runTail (schedule H) l s).Alike Resumed (runTail (watchSchedule H) l s) := by
  induction l with
  | nil => exact fun {s} _ _ => .ok () s
  | cons x l ih =>
    intro s hs h0
    cases x with
    | restore mask => exact ih (hs.setSie (s.sie || mask)) h0
    | sched =>
      have h := schedule_cases H hs.toClosed
      rw [runTail_sched, runTail_sched]
      cases hr : schedule H s with
      | ok a t =>
        rw [hr] at h
        obtain ⟨⟨ht, -⟩, hl, -⟩ := hs.scheduled_ok H h
        have ht0 := (hl.runnable 0).mpr h0
        by_cases hc : s.defer.count = 0
        · have hb : t.Busy := ht.busy_of_served ht0 (hl.served hc (.inl trivial))
          rw [watchSchedule_zero hc, hr, watchRunning_ok hb]
          exact ih ht ht0
        · rw [watchSchedule_pos hc, hr]
          exact ih ht ht0
      | err e t =>
        rw [hr] at h
        cases h
      | panic =>
        rw [hr] at h
        cases h
      | switch t k =>
        rw [hr] at h
        obtain ⟨⟨-, -, hb⟩, rfl⟩ := hs.scheduled_switch H h
        have hc : s.defer.count = 0 := by
          cases h with
          | switch hc hd hp hr h => exact hc
        rw [watchSchedule_zero hc, hr, watchRunning_switch hb]
        -- the process that is resumed is `Running` again when its `schedule` returns
        refine .switch fun s' hs' => ?_
        obtain ⟨hi, hr0, hb'⟩ := hs'
        have hb' : ({ s' with sie := s'.sie || s.sie } : ProcessManager).Busy := hb'
        dsimp only
        rw [watchRunning_ok hb']
        exact ih (hi.setSie _) hr0

/-- the same for a whole call that spares the null process -/
theorem Op.run_alike (op : Op) {s : ProcessManager} (hs : Inv s) (hset : s.Settled) (h0 : s.Runnable 0)
    (hop : op.SparesNull s) : (op.run H s).Alike Resumed
      (op.runWith H (watchSchedule H) (deferScheduleWith (watchSchedule H)) s) := by
  obtain ⟨hi, -, -⟩ := op.inv_entry hs hset
  have hp := op.body_cases hi.toClosed (H := H) s.sie
  have hia := hi.applyAll (H := H) (hp.valid hi)
  have h0 := hp.runnable hs hop h0
  rw [Op.run_eq_body H hs.toClosed, Op.runWith_eq_body H watchSchedule_defers hs.toClosed]
  generalize op.body H (op.entry s) s.sie = p at *
  cases p with
  | fail e acts => exact .err e _
  | panic => exact .panic
  | go acts tail => exact runTail_watch tail hia h0

/-- **The processor has one owner.**  Only `running` is ever in state `Running`.  And if the null process is spared, it
is so after every call of `schedule` outside a deferral, in whatever operation and in whatever state it is made: it
returns or gives the processor away where `running` is `Running`, and returns so where it is resumed; over a `schedule`
that is watched for this, every run comes to the same states. -/
theorem cpu_ownership (H : Heap) (sie : Bool) :
    (∀ y, Reachable H (fun _ _ => True) sie y →
      ∀ pid, y.st.stateOf pid = some .running → pid = y.st.running) ∧
    (∀ y, Reachable H Op.SparesNull sie y → y.st.defer.count = 0 →
      ∃ t, (schedule H y.st).first = some t ∧ t.stateOf t.running = some .running) ∧
    ∀ ls, Sys.LegalSteps ProcessManager.running (Op.run H) Op.SparesNull ls
        ⟨ProcessManager.booted H sie, fun _ => none⟩ →
      (Sys.steps ProcessManager.running (Op.runWith H (watchSchedule H) (deferScheduleWith (watchSchedule H))) ls
        ⟨ProcessManager.booted H sie, fun _ => none⟩).map Sys.st =
      (Sys.steps ProcessManager.running (Op.run H) ls ⟨ProcessManager.booted H sie, fun _ => none⟩).map Sys.st := by
  refine ⟨fun y hy => (Reachable.kept hy).inv.1.own, fun y hy hc => ?_, fun ls hl => ?_⟩
  · exact schedule_busy (Reachable.kept hy).inv.1 (Reachable.null_runnable hy) hc
  · refine Reach.alike_steps (W := Resumed) (fun hy op hop => ?_) (fun hy k hk => ?_) ls .init ⟨rfl, fun _ => .none⟩ hl
    · have hi := (Reachable.kept hy).inv
      exact op.run_alike hi.1 hi.2 (Reachable.null_runnable hy) hop
    · have hkept := Reachable.kept hy
      exact ⟨hkept.inv.1, Reachable.null_runnable hy, hkept.resumed k hk⟩

/-- A process is made ready by an interrupt before it has left the processor and is switched to itself; then it goes to
sleep under a deferral and leaves the processor where the deferral ends. -/
theorem cpu_ownership_example :
    let H := BinaryHeap.scan ProcessDesc.priority
    (Sys.steps ProcessManager.running (Op.runWith H (watchSchedule H) (deferScheduleWith (watchSchedule H)))
      [some (.createProcess 5 true), some (.ready 1), some (.ioWait 1), some (.ioSignal 1), none, some .deferStart,
        some (.sleep 1 7), some .deferStop] ⟨ProcessManager.booted H true, fun _ => none⟩).map
      (fun y => (y.st.running, y.st.stateOf 0, y.st.stateOf 1)) = some (0, some .running, some .sleep) := by
  intro H
  have h := (cpu_ownership H true).2.2 [some (.createProcess 5 true), some (.ready 1), some (.ioWait 1),
    some (.ioSignal 1), none, some .deferStart, some (.sleep 1 7), some .deferStop]
    (.of_forall (by simp [Op.SparesNull, Op.Blocks]))
  have h := congrArg (Option.map fun s => (s.running, s.stateOf 0, s.stateOf 1)) h
  rw [Option.map_map, Option.map_map] at h
  refine h.trans ?_
  decide +kernel

end

end Citron
