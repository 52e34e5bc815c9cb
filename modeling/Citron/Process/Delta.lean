import Citron.Process.Sleep
import Citron.Process.Ownership

/-!
# The delta queue as a list of absolute delays

`sleep` inserts behind all entries that are not due later, and its sums and differences stay within `usize`.  `wakeup`
takes its tick off the front entry only.  When that one has run out already (a process slept for 0 ticks) the tick is
lost on all the others.

* `sleep_inserts`         what `sleep` does to the queue;
* `wakeup_ticks_iff`      when `wakeup` is one tick for every sleeper.
-/

namespace Citron
open Resumption

/-! ## insertion -/

/-- `sleep`, up to its call of `schedule` -/
theorem sleep_some (H : Heap) {s : ProcessManager} {pid : Pid} {p : Process} (delay : UInt64) (hp : s.ptable pid = some p) :
    sleep H pid delay s = (schedule H ((Act.sleepOn pid delay).apply H s.masked)).bind
      fun _ => interruptRestore s.sie := by
  have hp' : s.masked.ptable pid = some p := hp
  simp only [sleep, Prog.bind_run, interruptDisable_run, Res.ok_bind, setProcessState_some .sleep hp', Prog.modify_run]
  rfl

theorem sleep_none (H : Heap) {s : ProcessManager} {pid : Pid} (delay : UInt64) (hp : s.ptable pid = none) :
    sleep H pid delay s = .err (.processNotFound pid) s.masked := by
  have hp' : s.masked.ptable pid = none := hp
  simp only [sleep, Prog.bind_run, interruptDisable_run, Res.ok_bind, setProcessState_none .sleep hp', Res.err_bind]

/-- **`sleep` inserts into the delta queue** behind every entry that is due no later and before every one that is due
later, and no other entry moves; the sums and differences on the way stay within `usize`.  A process that does not exist
is not put to sleep. -/
theorem sleep_inserts (H : Heap) (s : ProcessManager) (pid : Pid) (delay : UInt64)
    (hsum : ∀ e ∈ due 0 s.sleepQueue, e.2 < 2^64) :
    (s.ptable pid = none → sleep H pid delay s = .err (.processNotFound pid) s.masked) ∧
    ((s.ptable pid).isSome → ∃ t, sleep H pid delay s = (schedule H t).bind (fun _ => interruptRestore s.sie) ∧
      (∃ l l', due 0 s.sleepQueue = l ++ l' ∧ (∀ e ∈ l, e.2 ≤ delay.toNat) ∧ (∀ e ∈ l', delay.toNat < e.2) ∧
        due 0 t.sleepQueue = l ++ (pid, delay.toNat) :: l') ∧
      sleepInsertChecked pid delay 0 s.sleepQueue = some t.sleepQueue) := by
  refine ⟨sleep_none H delay, fun hp => ?_⟩
  obtain ⟨p, hp⟩ := Option.isSome_iff_exists.mp hp
  have hspan : UInt64.toNat 0 + span s.sleepQueue < 2^64 := by
    rw [UInt64.toNat_zero, Nat.zero_add]
    exact span_lt_of_due s.sleepQueue (Nat.two_pow_pos 64) hsum
  obtain ⟨hchecked, hput⟩ := sleepInsert_put pid delay s.sleepQueue 0 (Nat.zero_le _) hspan
  refine ⟨_, sleep_some H delay hp, ?_, hchecked⟩
  obtain ⟨l, l', hq, hl, hl', htimes⟩ := Delta.times_put pid delay.toNat (deltas s.sleepQueue) 0 (Nat.zero_le _)
  refine ⟨l, l', (due_eq_times ..).trans hq, hl, hl', ?_⟩
  rw [due_eq_times, ← htimes]
  exact congrArg _ hput

/-- Three processes sleep for 3, 5 and 9 ticks, and the null process is put to sleep for 5. -/
theorem sleep_inserts_example :
    let s := { ProcessManager.booted (BinaryHeap.scan _) true with sleepQueue := [⟨1, 3⟩, ⟨2, 2⟩, ⟨3, 4⟩] }
    (∀ e ∈ due 0 s.sleepQueue, e.2 < 2^64) ∧
    ∃ t, sleep (BinaryHeap.scan _) 0 5 s = (schedule (BinaryHeap.scan _) t).bind (fun _ => interruptRestore true) ∧
      (∃ l l', [(1, 3), (2, 5), (3, 9)] = l ++ l' ∧ (∀ e ∈ l, e.2 ≤ 5) ∧ (∀ e ∈ l', 5 < e.2) ∧
        due 0 t.sleepQueue = l ++ (0, 5) :: l') ∧
      sleepInsertChecked 0 5 0 [⟨1, 3⟩, ⟨2, 2⟩, ⟨3, 4⟩] = some t.sleepQueue := by
  intro s
  have hsum : ∀ e ∈ due 0 s.sleepQueue, e.2 < 2^64 := by decide
  exact ⟨hsum, (sleep_inserts (BinaryHeap.scan _) s 0 5 hsum).2 rfl⟩

/-! ## ticks -/

/-- the front entry has a tick left, or no entry has -/
def ProcessManager.OnBeat (s : ProcessManager) : Prop :=
  ∀ d ∈ s.sleepQueue.head?, d.delay = 0 → ∀ d ∈ s.sleepQueue, d.delay = 0

theorem onBeat_iff (s : ProcessManager) : s.OnBeat ↔ Delta.OnBeat (deltas s.sleepQueue) := by
  unfold ProcessManager.OnBeat Delta.OnBeat deltas
  simp [delay_eq_zero]

/-- an entry of the process is due at the next tick -/
def ProcessManager.Due (s : ProcessManager) (pid : Pid) : Prop := ∃ e ∈ due 0 s.sleepQueue, e.1 = pid ∧ e.2 ≤ 1

/-- One tick for every sleeper: the entries that are due go, the others come one tick nearer, and of the processes whose
entries go those that are asleep become ready. -/
structure Tick (s t : ProcessManager) : Prop where
  queue : due 0 t.sleepQueue = ((due 0 s.sleepQueue).filter (1 < ·.2)).map fun e => (e.1, e.2 - 1)
  woken : ∀ pid, s.stateOf pid = some .sleep → s.Due pid → t.stateOf pid = some .ready
  other : ∀ pid, ¬ (s.stateOf pid = some .sleep ∧ s.Due pid) → t.stateOf pid = s.stateOf pid

section
variable {H : Heap} {s : ProcessManager}

/-- the queue after a tick is that of the claim exactly on the beat -/
theorem tick_queue_iff (s : ProcessManager) : due 0 (s.ticked.dropWhile (·.delay = 0))
      = ((due 0 s.sleepQueue).filter (1 < ·.2)).map (fun e => (e.1, e.2 - 1)) ↔ s.OnBeat := by
  rw [onBeat_iff, ← Delta.expire_tick_iff, due_eq_times, due_eq_times, (deltas_split _).1, deltas_ticked]
  rfl

/-- on the beat, the processes that `wakeup` goes through are those with an entry that is due -/
theorem mem_ticked_iff (h : s.OnBeat) (pid : Pid) :
    pid ∈ (s.ticked.takeWhile (·.delay = 0)).map (·.pid) ↔ s.Due pid := by
  unfold ProcessManager.Due
  rw [(deltas_split _).2, deltas_ticked, due_eq_times]
  exact Delta.mem_expired_iff ((onBeat_iff s).mp h) pid

/-- a sleeper in the list is made ready -/
theorem wakeSleepers_ready (pids : List Pid) {pid : Pid} : ∀ {s : ProcessManager}, pid ∈ pids →
    s.stateOf pid = some .sleep → (s.wakeSleepers H pids).stateOf pid = some .ready := by
  induction pids with
  | nil => exact fun h => absurd h List.not_mem_nil
  | cons q pids ih =>
    intro s hm hst
    unfold ProcessManager.wakeSleepers
    by_cases hq : q = pid
    · subst hq
      rw [if_pos hst]
      exact wakeSleepers_of_not_blocked rfl pids (wakeLater_ready hst rfl)
    · have hm := (List.mem_cons.mp hm).resolve_left (Ne.symm hq)
      split
      · refine ih hm ?_
        rcases wakeLater_stateOf (H := H) (s := s) q pid with h | ⟨e, -⟩
        · exact h.trans hst
        · exact absurd e.symm hq
      · exact ih hm hst

/-- what `wakeup` does before it schedules -/
theorem tick_acts {p : Plan} {mask : Bool} (hp : Planned H s mask .wakeup p) :
    (applyAll H p.acts s).sleepQueue = s.ticked.dropWhile (·.delay = 0) ∧
      (s.OnBeat → Tick s (applyAll H p.acts s)) := by
  cases hp with
  | fail h => exact h.elim
  | noSleeper hq =>
    have hticked : s.ticked = [] := by
      unfold ProcessManager.ticked
      rw [hq]
    have hqueue : (applyAll H (Plan.go [] [.restore mask]).acts s).sleepQueue = s.ticked.dropWhile (·.delay = 0) := by
      rw [hticked]
      exact hq
    refine ⟨hqueue, fun h => ⟨hqueue ▸ (tick_queue_iff s).mpr h, fun pid _ hdue => ?_, fun _ _ => rfl⟩⟩
    obtain ⟨e, he, -⟩ := hdue
    rw [hq] at he
    exact absurd he List.not_mem_nil
  | wakeup =>
    -- the tick, then the loop over the processes whose entries it has removed
    let t := (Act.start).apply H ((Act.tick).apply H s)
    let pids := (s.ticked.takeWhile (·.delay = 0)).map (·.pid)
    have hacts : ((deferred H [.sleepers pids] [.sched, .restore mask] ((Act.tick).apply H s)).after [.tick]).acts
        = [.tick, .start, .sleepers pids, .stop] := rfl
    have hqueue : (applyAll H [.tick, .start, .sleepers pids, .stop] s).sleepQueue = s.ticked.dropWhile (·.delay = 0) :=
      wakeSleepers_sleepQueue pids (s := t)
    rw [hacts]
    refine ⟨hqueue, fun h => ⟨hqueue ▸ (tick_queue_iff s).mpr h, fun pid hst hdue => ?_, fun pid hno => ?_⟩⟩
    · exact wakeSleepers_ready pids (s := t) ((mem_ticked_iff h pid).mpr hdue) hst
    · rcases wakeSleepers_stateOf (H := H) pids pid (s := t) with e | ⟨hm, hst, -⟩
      · exact e
      · exact absurd ⟨hst, (mem_ticked_iff h pid).mp hm⟩ hno

end

/-- **`wakeup` is one tick for every sleeper** if and only if the front entry of the delta queue has a tick left, or no
entry has.  After the tick the call only schedules. -/
theorem wakeup_ticks_iff (H : Heap) (sie : Bool) (y : Sys ProcessManager ProcessError)
    (hy : Reachable H Op.Balanced sie y) (hs : y.susp y.st.running = none) :
    ∃ y', y.step ProcessManager.running (Op.run H) (some .wakeup) = some y' ∧
      ((∃ t, Tick y.st t ∧ Tailed False t y'.st) ↔ y.st.OnBeat) := by
  have hk := Reachable.kept hy
  have hpanic : Op.run H .wakeup y.st ≠ .panic := by
    obtain ⟨p, hp, he⟩ := Op.ensures (H := H) .wakeup hk.inv.1 hk.inv.2
    refine he.ne_panic ?_
    rintro rfl
    cases hp
  obtain ⟨y', hstep⟩ := Sys.step_of_ne_panic hs hpanic
  refine ⟨y', hstep, ?_⟩
  obtain ⟨e, -⟩ | ⟨op, p, e, hp, ht⟩ := Reachable.step_cases hy hstep
  · cases e
  · cases e
    obtain ⟨hqueue, htick⟩ := tick_acts hp
    constructor
    · intro ⟨t, htick, htail⟩
      rw [← tick_queue_iff, ← htick.queue, ← htail.sleepQueue, ht.sleepQueue, hqueue]
      rfl
    · intro h
      obtain ⟨h1, h2, h3⟩ := htick h
      exact ⟨_, ⟨h1, h2, h3⟩, ht.weaken False.elim⟩

/-- A process sleeps for two ticks: the next one brings it one tick nearer. -/
theorem wakeup_ticks_iff_example : ∃ y, Reachable (BinaryHeap.scan _) Op.Balanced true y ∧
    y.st.sleepQueue = [⟨1, 2⟩] ∧
    ∃ y', y.step ProcessManager.running (Op.run (BinaryHeap.scan _)) (some .wakeup) = some y' ∧
      ∃ t, Tick y.st t ∧ Tailed False t y'.st := by
  let ls : List (Option Op) := [some (.createProcess 5 true), some (.sleep 1 2)]
  let y₀ : Sys ProcessManager ProcessError := ⟨ProcessManager.booted (BinaryHeap.scan _) true, fun _ => none⟩
  have hrun : ((y₀.steps ProcessManager.running (Op.run (BinaryHeap.scan _)) ls).map fun y =>
      (y.st.sleepQueue, (y.susp y.st.running).isNone)) = some ([⟨1, 2⟩], true) := rfl
  obtain ⟨y, hy, he⟩ := Option.map_eq_some_iff.mp hrun
  simp only [Prod.mk.injEq, Option.isNone_iff_eq_none] at he
  have hreach : Reachable (BinaryHeap.scan _) Op.Balanced true y :=
    Reach.steps .init (.of_forall (by simp [ls, Op.Balanced])) hy
  obtain ⟨y', hstep, hiff⟩ := wakeup_ticks_iff _ true y hreach he.2
  refine ⟨y, hreach, he.1, y', hstep, hiff.mpr ?_⟩
  intro d hd hzero
  rw [he.1] at hd
  obtain rfl := Option.some.inj hd
  cases hzero

/-- Process 1 sleeps for five ticks and process 2 for none.  The next tick takes the entry of process 2, and process 1
has still five ticks to go. -/
theorem tick_lost : ¬ ∀ (H : Heap) (sie : Bool) (y : Sys ProcessManager ProcessError), Reachable H Op.Balanced sie y →
    y.susp y.st.running = none → ∃ y', y.step ProcessManager.running (Op.run H) (some .wakeup) = some y' ∧
      ∃ t, Tick y.st t ∧ Tailed False t y'.st := by
  intro hall
  let ls : List (Option Op) := [some (.createProcess 5 true), some (.createProcess 5 true), some (.ready 1),
    some (.sleep 1 5), none, some (.ready 2), some (.sleep 2 0), none]
  let y₀ : Sys ProcessManager ProcessError := ⟨ProcessManager.booted (BinaryHeap.scan _) true, fun _ => none⟩
  have hrun : ((y₀.steps ProcessManager.running (Op.run (BinaryHeap.scan _)) ls).map fun y =>
      (y.st.sleepQueue, (y.susp y.st.running).isNone, (y.step ProcessManager.running (Op.run (BinaryHeap.scan _))
        (some .wakeup)).map fun y' => y'.st.sleepQueue)) = some ([⟨2, 0⟩, ⟨1, 5⟩], true, some [⟨1, 5⟩]) := by
    decide +kernel
  obtain ⟨y, hy, he⟩ := Option.map_eq_some_iff.mp hrun
  simp only [Prod.mk.injEq, Option.isNone_iff_eq_none] at he
  obtain ⟨hq, hsusp, hq'⟩ := he
  have hreach : Reachable (BinaryHeap.scan _) Op.Balanced true y :=
    Reach.steps .init (.of_forall (by simp [ls, Op.Balanced])) hy
  obtain ⟨y', hstep, t, htick, htail⟩ := hall _ true y hreach hsusp
  rw [hstep, Option.map_some, Option.some.injEq] at hq'
  have h := htick.queue
  rw [← htail.sleepQueue, hq', hq] at h
  exact absurd h (by decide)

end Citron
