import Citron.Lib.Delta
import Citron.Process.States

/-!
# Sleeping

The delta queue holds, for each sleep, how many ticks it lies behind the one before it.  Its entries stay
when a process is made ready by somebody else; `wakeup` then takes an old entry for the present one.

* `due`            the entries of the queue with the ticks that are left to each;
* `deltas`         the queue in natural numbers, a delta list;
* `sleepInsertChecked`   the insertion with checked arithmetic;
* `sleepInsert_due`, `tick_due`, `due_split`   insertion and ticks in these terms;
* `napOf`          the last `sleep` of a process in a run, with the ticks since;
* `Op.OnTime`      `sleep` is called only when no older entry of the process is due before;
* `no_early_wake`  then nobody is woken early.
-/

namespace Citron
open Resumption

/-! ## the delta queue -/

/-- the entries behind `sum` ticks, with the ticks that are left to each -/
def due : Nat → List ProcessDelay → List (Pid × Nat)
  | _, [] => []
  | sum, d :: q => (d.pid, sum + d.delay.toNat) :: due (sum + d.delay.toNat) q

/-- the ticks from the front of the queue to its end -/
def span (q : List ProcessDelay) : Nat := (q.map fun d => d.delay.toNat).sum

theorem span_cons (d : ProcessDelay) (q : List ProcessDelay) : span (d :: q) = d.delay.toNat + span q := by
  unfold span
  rw [List.map_cons, List.sum_cons]

/-- the entries with their deltas -/
def deltas (q : List ProcessDelay) : List (Pid × Nat) := q.map fun d => (d.pid, d.delay.toNat)

theorem due_eq_times (q : List ProcessDelay) : ∀ sum, due sum q = Delta.times sum (deltas q) := by
  induction q with
  | nil => exact fun _ => rfl
  | cons d q ih =>
    intro sum
    show (d.pid, sum + d.delay.toNat) :: due _ q = (d.pid, sum + d.delay.toNat) :: Delta.times _ (deltas q)
    rw [ih]

theorem span_eq_total (q : List ProcessDelay) : span q = Delta.total (deltas q) := by
  unfold span Delta.total deltas
  rw [List.map_map]
  rfl

theorem span_lt_of_due {n : Nat} (q : List ProcessDelay) (hpos : 0 < n) (h : ∀ e ∈ due 0 q, e.2 < n) : span q < n := by
  rw [span_eq_total, ← Nat.zero_add (Delta.total _)]
  exact Delta.total_lt (deltas q) hpos fun e he => h e ((due_eq_times q 0).symm ▸ he)

/-! ## insertion -/

def checkedAdd (a b : UInt64) : Option UInt64 := if a.toNat + b.toNat < 2^64 then some (a + b) else none

def checkedSub (a b : UInt64) : Option UInt64 := if b ≤ a then some (a - b) else none

/-- the insertion of `sleep`; `none` where a sum or a difference leaves `usize` -/
def sleepInsertChecked (pid : Pid) (delay : UInt64) : UInt64 → List ProcessDelay → Option (List ProcessDelay)
  | sum, [] => (checkedSub delay sum).map fun relativeDelay => [⟨pid, relativeDelay⟩]
  | sum, node :: rest =>
    (checkedAdd sum node.delay).bind fun next =>
      if delay < next then
        (checkedSub delay sum).bind fun relativeDelay =>
          (checkedSub node.delay relativeDelay).map fun left =>
            ⟨pid, relativeDelay⟩ :: ⟨node.pid, left⟩ :: rest
      else (sleepInsertChecked pid delay next rest).map (node :: ·)

theorem checkedSub_of_le {a b : UInt64} (h : b.toNat ≤ a.toNat) :
    checkedSub a b = some (a - b) ∧ (a - b).toNat = a.toNat - b.toNat := by
  have hle : b ≤ a := UInt64.le_iff_toNat_le.mpr h
  exact ⟨if_pos hle, UInt64.toNat_sub_of_le _ _ hle⟩

theorem checkedAdd_of_lt {a b : UInt64} (h : a.toNat + b.toNat < 2^64) :
    checkedAdd a b = some (a + b) ∧ (a + b).toNat = a.toNat + b.toNat := by
  refine ⟨if_pos h, ?_⟩
  rw [UInt64.toNat_add]
  exact Nat.mod_eq_of_lt h

/-- the insertion on words is the one on numbers, and nothing overflows -/
theorem sleepInsert_put (pid : Pid) (delay : UInt64) (q : List ProcessDelay) : ∀ sum : UInt64,
    sum.toNat ≤ delay.toNat → sum.toNat + span q < 2^64 →
    sleepInsertChecked pid delay sum q = some (sleepInsert pid delay sum q) ∧
      deltas (sleepInsert pid delay sum q) = Delta.put pid delay.toNat sum.toNat (deltas q) := by
  induction q with
  | nil =>
    intro sum hle _
    obtain ⟨hsub, hval⟩ := checkedSub_of_le hle
    refine ⟨?_, ?_⟩
    · unfold sleepInsertChecked
      rw [hsub]
      rfl
    · show [(pid, (delay - sum).toNat)] = [(pid, delay.toNat - sum.toNat)]
      rw [hval]
  | cons node q ih =>
    intro sum hle hspan
    rw [span_cons] at hspan
    obtain ⟨hadd, hnext⟩ := checkedAdd_of_lt (a := sum) (b := node.delay) (by omega)
    show (sleepInsertChecked pid delay sum (node :: q) = _) ∧ _ = (if delay.toNat < sum.toNat + node.delay.toNat then
      (pid, delay.toNat - sum.toNat) :: (node.pid, node.delay.toNat - (delay.toNat - sum.toNat)) :: deltas q
      else (node.pid, node.delay.toNat) :: Delta.put pid delay.toNat (sum.toNat + node.delay.toNat) (deltas q))
    unfold sleepInsertChecked sleepInsert
    rw [hadd, Option.bind_some]
    by_cases hlt : delay < sum + node.delay
    · have hlt' : delay.toNat < sum.toNat + node.delay.toNat := hnext ▸ UInt64.lt_iff_toNat_lt.mp hlt
      obtain ⟨hsub, hval⟩ := checkedSub_of_le hle
      obtain ⟨hsub', hval'⟩ := checkedSub_of_le (a := node.delay) (b := delay - sum) (by omega)
      rw [if_pos hlt, if_pos hlt, if_pos hlt', hsub, Option.bind_some, hsub', Option.map_some]
      refine ⟨rfl, ?_⟩
      show (pid, (delay - sum).toNat) :: (node.pid, (node.delay - (delay - sum)).toNat) :: deltas q = _
      rw [hval', hval]
    · have hlt' : ¬ delay.toNat < sum.toNat + node.delay.toNat := fun h => hlt (UInt64.lt_iff_toNat_lt.mpr (hnext ▸ h))
      obtain ⟨hchecked, hput⟩ := ih (sum + node.delay) (by omega) (by omega)
      rw [if_neg hlt, if_neg hlt, if_neg hlt', hchecked, Option.map_some]
      refine ⟨rfl, ?_⟩
      show (node.pid, node.delay.toNat) :: deltas (sleepInsert pid delay (sum + node.delay) q) = _
      rw [hput, hnext]

/-- `sleep` adds an entry that is due after `delay` ticks, and leaves the others to their time -/
theorem sleepInsert_due (pid : Pid) (delay : UInt64) (q : List ProcessDelay) (hspan : span q < 2^64) :
    (∀ e ∈ due 0 (sleepInsert pid delay 0 q), e ∈ due 0 q ∨ e = (pid, delay.toNat)) ∧
      span (sleepInsert pid delay 0 q) < 2^64 := by
  obtain ⟨-, hput⟩ := sleepInsert_put pid delay q 0 (Nat.zero_le _) (by rwa [UInt64.toNat_zero, Nat.zero_add])
  obtain ⟨l, l', hq, -, -, htimes⟩ := Delta.times_put pid delay.toNat (deltas q) 0 (Nat.zero_le _)
  have hold : due 0 q = l ++ l' := (due_eq_times q 0).trans hq
  have hnew : due 0 (sleepInsert pid delay 0 q) = l ++ (pid, delay.toNat) :: l' :=
    (due_eq_times _ 0).trans ((congrArg _ hput).trans htimes)
  have hmem : ∀ e ∈ due 0 (sleepInsert pid delay 0 q), e ∈ due 0 q ∨ e = (pid, delay.toNat) := by
    intro e he
    rw [hnew] at he
    rw [hold, List.mem_append]
    rcases List.mem_append.mp he with h | h
    · exact .inl (.inl h)
    · exact (List.mem_cons.mp h).symm.imp .inr id
  refine ⟨hmem, span_lt_of_due _ (Nat.two_pow_pos 64) fun e he => ?_⟩
  rcases hmem e he with h | rfl
  · have hle := (Delta.le_of_mem_times (deltas q) (due_eq_times q 0 ▸ h)).2
    rw [Nat.zero_add, ← span_eq_total] at hle
    exact Nat.lt_of_le_of_lt hle hspan
  · exact delay.toNat_lt

/-! ## ticks -/

theorem deltas_tick (p : ProcessDelay) (q : List ProcessDelay) : deltas (p.tick :: q) = Delta.tick (deltas (p :: q)) := by
  show (p.tick.pid, p.tick.delay.toNat) :: deltas q = (p.pid, p.delay.toNat - 1) :: deltas q
  unfold ProcessDelay.tick
  split
  · rename_i h
    show (p.pid, (p.delay - 1).toNat) :: _ = _
    rw [UInt64.toNat_sub_of_le _ _ h]
    rfl
  · rename_i h
    have hle : ¬ 1 ≤ p.delay.toNat := fun hle => h (UInt64.le_iff_toNat_le.mpr hle)
    rw [show p.delay.toNat - 1 = p.delay.toNat by omega]

theorem deltas_ticked (s : ProcessManager) : deltas s.ticked = Delta.tick (deltas s.sleepQueue) := by
  unfold ProcessManager.ticked
  cases s.sleepQueue with
  | nil => rfl
  | cons p q => exact deltas_tick p q

theorem delay_eq_zero {d : ProcessDelay} : d.delay = 0 ↔ d.delay.toNat = 0 := UInt64.toNat_inj.symm

/-- what `wakeup` removes and what it leaves, in numbers -/
theorem deltas_split (q : List ProcessDelay) :
    deltas (q.dropWhile (·.delay = 0)) = (deltas q).dropWhile (·.2 = 0) ∧
      (q.takeWhile (·.delay = 0)).map (·.pid) = ((deltas q).takeWhile (·.2 = 0)).map (·.1) := by
  unfold deltas
  rw [List.dropWhile_map, List.takeWhile_map, List.map_map]
  have hp : (fun e : Pid × Nat => decide (e.2 = 0)) ∘ (fun d : ProcessDelay => (d.pid, d.delay.toNat))
      = fun d => decide (d.delay = 0) := by
    funext d
    exact decide_eq_decide.mpr delay_eq_zero.symm
  rw [hp]
  exact ⟨rfl, rfl⟩

/-- a tick brings an entry at most one tick nearer -/
theorem tick_due {s : ProcessManager} : ∀ e ∈ due 0 s.ticked,
    ∃ k, (e.1, k) ∈ due 0 s.sleepQueue ∧ k ≤ e.2 + 1 := by
  intro e he
  rw [due_eq_times, deltas_ticked] at he
  rw [due_eq_times]
  exact Delta.mem_times_tick (deltas s.sleepQueue) he

theorem span_ticked (s : ProcessManager) : span s.ticked ≤ span s.sleepQueue := by
  rw [span_eq_total, span_eq_total, deltas_ticked]
  exact Delta.total_tick_le _

/-- the entries that `wakeup` takes are due, and the others stay -/
theorem due_split (q : List ProcessDelay) :
    (∀ d ∈ q.takeWhile (·.delay = 0), (d.pid, 0) ∈ due 0 q) ∧
      (∀ e ∈ due 0 (q.dropWhile (·.delay = 0)), e ∈ due 0 q) ∧ span (q.dropWhile (·.delay = 0)) ≤ span q := by
  obtain ⟨hdrop, htake⟩ := deltas_split q
  rw [due_eq_times, due_eq_times, span_eq_total, span_eq_total, hdrop, Delta.times_dropWhile]
  refine ⟨fun d hd => ?_, fun e he => (List.mem_filter.mp he).1, Delta.total_dropWhile_le _ _⟩
  have hpid : d.pid ∈ (q.takeWhile (·.delay = 0)).map (·.pid) := List.mem_map_of_mem hd
  rw [htake, Delta.takeWhile_eq] at hpid
  obtain ⟨e, he, hfst⟩ := List.mem_map.mp hpid
  obtain ⟨he, hzero⟩ := List.mem_filter.mp he
  have hentry : (e.1, 0) = e := Prod.ext rfl (of_decide_eq_true hzero).symm
  rwa [← hfst, hentry]

/-! ## runs -/

/-- the last `sleep` of `pid` and the ticks since, after one more call -/
def nap (pid : Pid) (last : Option (UInt64 × Nat)) : Option Op → Option (UInt64 × Nat)
  | some (.sleep q delay) => if q = pid then some (delay, 0) else last
  | some .wakeup => last.map fun (delay, ticks) => (delay, ticks + 1)
  | _ => last

/-- the last `sleep` of `pid` in the calls of a run, and the ticks since -/
def napOf (pid : Pid) (ls : List (Option Op)) : Option (UInt64 × Nat) := ls.foldl (nap pid) none

/-- no entry that an earlier `sleep` of the process has left is due before the new one -/
def Op.OnTime (op : Op) (s : ProcessManager) : Prop :=
  match op with
  | .sleep pid delay => ∀ e ∈ due 0 s.sleepQueue, e.1 = pid → delay.toNat ≤ e.2
  | _ => True

/-- the entries of a sleeper are not due before its last `sleep` is over -/
structure Timed (naps : Pid → Option (UInt64 × Nat)) (s : ProcessManager) : Prop where
  span : span s.sleepQueue < 2^64
  entry : ∀ pid delay ticks, naps pid = some (delay, ticks) → s.stateOf pid = some .sleep →
    ∀ e ∈ due 0 s.sleepQueue, e.1 = pid → delay.toNat ≤ ticks + e.2

variable {H : Heap} {s : ProcessManager} {naps : Pid → Option (UInt64 × Nat)}

theorem wakeLater_sleepQueue (q : Pid) : (s.wakeLater H q).sleepQueue = s.sleepQueue := by
  rcases wakeLater_cases H s q with h | ⟨p, _, _, h⟩
  · rw [h]
  · rw [h]
    rfl

theorem wakeSleepers_sleepQueue (pids : List Pid) : ∀ {s : ProcessManager},
    (s.wakeSleepers H pids).sleepQueue = s.sleepQueue := by
  induction pids with
  | nil => exact rfl
  | cons q pids ih =>
    intro s
    unfold ProcessManager.wakeSleepers
    rw [ih]
    split
    · exact wakeLater_sleepQueue q
    · rfl

/-- the acts that touch neither the queue nor put anybody to sleep -/
def Act.offSleep : Act → Bool
  | .sleepOn _ _ => false
  | .tick => false
  | _ => true

theorem Act.sleepQueue_apply {a : Act} (h : a.offSleep = true) : (a.apply H s).sleepQueue = s.sleepQueue := by
  cases a with
  | semWait sid =>
    cases hx : s.stable sid with
    | none => rw [semWait_none hx]
    | some x =>
      by_cases hc : x.take.count < 0
      · rw [semWait_block hx hc]; rfl
      · rw [semWait_pass hx hc]; rfl
  | semPost sid =>
    cases hx : s.stable sid with
    | none => rw [semPost_none hx]
    | some x => rw [semPost_some hx]; rfl
  | semPop sid =>
    cases hx : s.stable sid with
    | none => rw [semPop_none hx]
    | some x => rw [semPop_some hx]; rfl
  | semFree sid =>
    cases hx : s.stable sid with
    | none => rw [semFree_none hx]
    | some x => rw [semFree_some hx]; rfl
  | wake q =>
    show (s.wake H q).sleepQueue = _
    unfold ProcessManager.wake
    split
    · split <;> rfl
    · rfl
  | wakeLater q => exact wakeLater_sleepQueue q
  | sleepers pids => exact wakeSleepers_sleepQueue pids
  | sleepOn q delay => cases h
  | tick => cases h
  | _ => rfl

/-- nobody falls asleep by such an act -/
theorem Act.sleep_apply {a : Act} (h : a.offSleep = true) {pid : Pid} (hst : (a.apply H s).stateOf pid = some .sleep) :
    s.stateOf pid = some .sleep := by
  rcases a.stateOf_apply (H := H) (s := s) pid with e | ⟨st, hset, e⟩
  · exact e.symm.trans hst
  · cases e.symm.trans hst
    cases a <;> simp_all [Act.Sets, Act.offSleep]

theorem applyAll_offSleep (acts : List Act) : ∀ {s : ProcessManager}, acts.all Act.offSleep = true →
    (applyAll H acts s).sleepQueue = s.sleepQueue ∧
      ∀ pid, (applyAll H acts s).stateOf pid = some .sleep → s.stateOf pid = some .sleep := by
  induction acts with
  | nil => exact fun _ => ⟨rfl, fun _ h => h⟩
  | cons a acts ih =>
    intro s h
    obtain ⟨ha, h⟩ := Bool.and_eq_true_iff.mp h
    obtain ⟨hq, hst⟩ := ih (s := a.apply H s) h
    exact ⟨hq.trans (Act.sleepQueue_apply ha), fun pid hp => Act.sleep_apply ha (hst pid hp)⟩

theorem Planned.offSleep {mask : Bool} {op : Op} {p : Plan} (h : Planned H s mask op p) (hw : op ≠ .wakeup)
    (hsl : ∀ pid delay, op ≠ .sleep pid delay) : p.acts.all Act.offSleep = true := by
  cases h with
  | create priority doSetup => cases doSetup <;> simp [Plan.acts, Act.offSleep]
  | noSleeper h => exact absurd rfl hw
  | wakeup => exact absurd rfl hw
  | sleep delay hp => exact absurd rfl (hsl _ _)
  | _ => simp [Plan.acts, Plan.after, deferred, freeAll, Act.offSleep]

theorem Op.entry_sleepQueue (op : Op) (s : ProcessManager) : (op.entry s).sleepQueue = s.sleepQueue := by
  unfold Op.entry
  split <;> rfl

/-! ## steps -/

/-- nobody has fallen asleep -/
theorem Timed.same {t : ProcessManager} (h : Timed naps s) (hq : t.sleepQueue = s.sleepQueue)
    (hst : ∀ pid, t.stateOf pid = some .sleep → s.stateOf pid = some .sleep) : Timed naps t where
  span := by rw [hq]; exact h.span
  entry pid delay ticks hn hp := by
    rw [hq]
    exact h.entry pid delay ticks hn (hst pid hp)

theorem Timed.tailed {sch : Prop} {t : ProcessManager} (h : Timed naps s) (ht : Tailed sch s t) : Timed naps t := by
  refine h.same ht.sleepQueue fun pid hp => ?_
  rcases ht.states pid with e | ⟨-, hr⟩
  · exact e.symm.trans hp
  · rcases hr with hr | hr <;> cases hp.symm.trans hr

theorem Timed.entered (h : Timed naps s) (op : Op) : Timed naps (op.entry s) :=
  h.same (op.entry_sleepQueue s) fun pid hp => (op.entry_stateOf s pid).1.symm.trans hp

/-- `sleep` begins a new nap of the process, whose entries are all due later -/
theorem Timed.sleepOn {q : Pid} {delay : UInt64} (h : Timed naps s) (hq : (Op.sleep q delay).OnTime s) :
    Timed (fun pid => nap pid (naps pid) (some (.sleep q delay))) ((Act.sleepOn q delay).apply H s) := by
  obtain ⟨hdue, hspan⟩ := sleepInsert_due q delay s.sleepQueue h.span
  refine ⟨hspan, fun pid d ticks hn hst e he hpid => ?_⟩
  rcases hdue e he with he | rfl
  · by_cases hp : q = pid
    · rw [show nap pid (naps pid) (some (.sleep q delay)) = some (delay, 0) from if_pos hp] at hn
      cases hn
      rw [Nat.zero_add]
      exact hq e he (hpid.trans hp.symm)
    · rw [show nap pid (naps pid) (some (.sleep q delay)) = naps pid from if_neg hp] at hn
      refine h.entry pid d ticks hn ?_ e he hpid
      exact (ProcessManager.stateOf_setState_of_ne s q .sleep (Ne.symm hp)).symm.trans hst
  · rw [show nap pid (naps pid) (some (.sleep q delay)) = some (delay, 0) from if_pos hpid] at hn
    cases hn
    exact Nat.le_add_left _ _

/-- a tick brings every nap one tick nearer to its end, and takes the entries that are due -/
theorem Timed.tick (h : Timed naps s) :
    Timed (fun pid => nap pid (naps pid) (some .wakeup)) ((Act.tick).apply H s) := by
  obtain ⟨-, hdrop, hle⟩ := due_split s.ticked
  refine ⟨Nat.lt_of_le_of_lt (Nat.le_trans hle (span_ticked s)) h.span, fun pid d ticks hn hst e he hpid => ?_⟩
  obtain ⟨⟨d', ticks'⟩, hn', e'⟩ := Option.map_eq_some_iff.mp hn
  cases e'
  obtain ⟨k, hk, hke⟩ := tick_due e (hdrop e he)
  have := h.entry pid d ticks' hn' hst (e.1, k) hk hpid
  show d.toNat ≤ ticks' + 1 + e.2
  have : d.toNat ≤ ticks' + k := this
  omega

/-- what the sleepers that a tick takes have slept -/
theorem Timed.woken (h : Timed naps s) {pid : Pid} {delay : UInt64} {ticks : Nat}
    (hn : naps pid = some (delay, ticks)) (hst : s.stateOf pid = some .sleep)
    (hm : pid ∈ (s.ticked.takeWhile (·.delay = 0)).map (·.pid)) : delay.toNat ≤ ticks + 1 := by
  obtain ⟨d, hd, rfl⟩ := List.mem_map.mp hm
  obtain ⟨k, hk, hke⟩ := tick_due _ ((due_split s.ticked).1 d hd)
  have := h.entry _ delay ticks hn hst _ hk rfl
  have : delay.toNat ≤ ticks + k := this
  have : k ≤ 0 + 1 := hke
  omega

/-- the acts of a call -/
theorem Planned.timed {mask : Bool} {op : Op} {p : Plan} (h : Planned H s mask op p) (hop : op.OnTime s)
    (ht : Timed naps s) : Timed (fun pid => nap pid (naps pid) (some op)) (applyAll H p.acts s) := by
  by_cases hw : op = .wakeup
  · subst hw
    cases h with
    | fail h => exact h.elim
    | noSleeper hq =>
      refine ⟨ht.span, fun pid d ticks _ _ e he => ?_⟩
      rw [show (applyAll H (Plan.go [] [.restore mask]).acts s).sleepQueue = [] from hq] at he
      exact absurd he List.not_mem_nil
    | wakeup =>
      obtain ⟨hq, hst⟩ := applyAll_offSleep (H := H) [.start,
        .sleepers ((s.ticked.takeWhile (·.delay = 0)).map (·.pid)), .stop] (s := (Act.tick).apply H s) rfl
      exact ht.tick.same hq hst
  · by_cases hsl : ∃ pid delay, op = .sleep pid delay
    · obtain ⟨q, delay, rfl⟩ := hsl
      cases h with
      | fail h =>
        refine ⟨ht.span, fun pid d ticks hn hst => ?_⟩
        have hp : q ≠ pid := by
          rintro rfl
          obtain ⟨_, hp, -⟩ := Option.map_eq_some_iff.mp hst
          cases h.1.symm.trans hp
        rw [show nap pid (naps pid) (some (.sleep q delay)) = naps pid from if_neg hp] at hn
        exact ht.entry pid d ticks hn hst
      | sleep delay hp => exact ht.sleepOn (H := H) hop
    · obtain ⟨hq, hst⟩ := applyAll_offSleep (H := H) p.acts (s := s)
        (h.offSleep hw fun pid delay e => hsl ⟨pid, delay, e⟩)
      have hnap : (fun pid => nap pid (naps pid) (some op)) = naps := by
        funext pid
        cases op with
        | wakeup => exact absurd rfl hw
        | sleep pid delay => exact absurd ⟨pid, delay, rfl⟩ hsl
        | _ => rfl
      rw [hnap]
      exact ht.same hq hst

section
variable {sie : Bool} {y y' : Sys ProcessManager ProcessError}

theorem Op.OnTime.entered {op : Op} (h : op.OnTime s) : op.OnTime (op.entry s) := by
  unfold Op.entry
  split
  · cases op <;> exact h
  · exact h

/-- one step -/
theorem Reachable.timed_step (hy : Reachable H Op.OnTime sie y) {l : Option Op} (hl : Legal Op.OnTime l y.st)
    (h : y.step ProcessManager.running (Op.run H) l = some y') (ht : Timed naps y.st) :
    Timed (fun pid => nap pid (naps pid) l) y'.st := by
  obtain ⟨rfl, -, htail⟩ | ⟨op, p, rfl, hp, htail⟩ := Reachable.step_cases hy h
  · exact ht.tailed htail
  · exact (hp.timed (hl op rfl).entered (ht.entered op)).tailed htail

/-- a run -/
theorem Reachable.timed_steps (ls : List (Option Op)) : ∀ {y : Sys ProcessManager ProcessError}
    {naps : Pid → Option (UInt64 × Nat)}, Reachable H Op.OnTime sie y →
    y.LegalSteps ProcessManager.running (Op.run H) Op.OnTime ls →
    y.steps ProcessManager.running (Op.run H) ls = some y' → Timed naps y.st →
    Timed (fun pid => ls.foldl (nap pid) (naps pid)) y'.st := by
  induction ls with
  | nil =>
    intro y naps _ _ h ht
    exact Option.some.inj h ▸ ht
  | cons l ls ih =>
    intro y naps hy hl h ht
    obtain ⟨z, hz, h⟩ := Option.bind_eq_some_iff.mp h
    have hlegal : Legal Op.OnTime l y.st := fun op e => hl.1 op e
    exact ih (.step hy hlegal hz) (hl.2 z hz) h (Reachable.timed_step hy hlegal hz ht)

/-- whom a tick wakes -/
theorem Reachable.wakeup_step (hy : Reachable H Op.OnTime sie y)
    (h : y.step ProcessManager.running (Op.run H) (some .wakeup) = some y') {pid : Pid}
    (hst : y.st.stateOf pid = some .sleep) (hst' : y'.st.stateOf pid ≠ some .sleep) :
    pid ∈ (y.st.ticked.takeWhile (·.delay = 0)).map (·.pid) := by
  obtain ⟨e, -⟩ | ⟨op, p, e, hp, ht⟩ := Reachable.step_cases hy h
  · cases e
  · cases e
    by_contra hm
    have hkeep : ∀ {t : ProcessManager}, t.stateOf pid = some .sleep → Tailed (.sched ∈ p.tail) t y'.st → False :=
      fun h ht => hst' ((ht.stateOf_of_not_runnable (not_runnable_of_blocked rfl h)).trans h)
    cases hp with
    | fail h => exact h.elim
    | noSleeper hq => exact hkeep (t := y.st.masked) hst ht
    | wakeup =>
      refine hkeep ?_ ht
      show (ProcessManager.wakeSleepers H _ _).stateOf pid = _
      rcases wakeSleepers_stateOf (H := H) ((y.st.ticked.takeWhile (·.delay = 0)).map (·.pid)) pid
        (s := (Act.start).apply H ((Act.tick).apply H y.st.masked)) with e | ⟨hm', -⟩
      · exact e.trans hst
      · exact absurd hm' hm

end

/-- **No sleeper is woken early**, in every run in which `sleep` is called only when no entry that an earlier
`sleep` of the process has left is due before. -/
theorem no_early_wake (H : Heap) (sie : Bool) (ls : List (Option Op)) (y y' : Sys ProcessManager ProcessError)
    (hl : Sys.LegalSteps ProcessManager.running (Op.run H) Op.OnTime ls
      ⟨ProcessManager.booted H sie, fun _ => none⟩)
    (h : Sys.steps ProcessManager.running (Op.run H) ls ⟨ProcessManager.booted H sie, fun _ => none⟩ = some y)
    (hw : y.step ProcessManager.running (Op.run H) (some .wakeup) = some y') (pid : Pid) (delay : UInt64)
    (ticks : Nat) (hn : napOf pid ls = some (delay, ticks)) (hst : y.st.stateOf pid = some .sleep)
    (hst' : y'.st.stateOf pid ≠ some .sleep) : delay.toNat ≤ ticks + 1 := by
  have h0 : Timed (fun _ => none) (ProcessManager.booted H sie) :=
    ⟨by show (0 : Nat) < 2^64; omega, fun pid d ticks hn => absurd hn (by simp)⟩
  have hy : Reachable H Op.OnTime sie y := Reach.steps .init hl h
  exact (Reachable.timed_steps ls .init hl h h0).woken hn hst (Reachable.wakeup_step hy hw hst hst')

/-- A process goes to sleep for two ticks and is woken by the second. -/
theorem no_early_wake_example : ∃ y y', Sys.steps ProcessManager.running (Op.run (BinaryHeap.scan _))
      [some (.createProcess 5 true), some (.sleep 1 2), some .wakeup]
      ⟨ProcessManager.booted (BinaryHeap.scan _) true, fun _ => none⟩ = some y ∧
    y.step ProcessManager.running (Op.run (BinaryHeap.scan _)) (some .wakeup) = some y' ∧
    y.st.stateOf 1 = some .sleep ∧ y'.st.stateOf 1 = some .running ∧ (2 : UInt64).toNat ≤ 1 + 1 := by
  let ls : List (Option Op) := [some (.createProcess 5 true), some (.sleep 1 2), some .wakeup]
  let y₀ : Sys ProcessManager ProcessError :=
    ⟨ProcessManager.booted (BinaryHeap.scan _) true, fun _ => none⟩
  have hrun : ((y₀.steps ProcessManager.running (Op.run (BinaryHeap.scan _)) ls).bind fun y =>
      (y.step ProcessManager.running (Op.run (BinaryHeap.scan _)) (some .wakeup)).map fun y' =>
      (y.st.stateOf 1, y'.st.stateOf 1)) = some (some .sleep, some .running) := rfl
  obtain ⟨y, hy, h⟩ := Option.bind_eq_some_iff.mp hrun
  obtain ⟨y', hy', he⟩ := Option.map_eq_some_iff.mp h
  simp only [Prod.mk.injEq] at he
  have hlegal : y₀.LegalSteps ProcessManager.running (Op.run (BinaryHeap.scan _)) Op.OnTime ls := by
    refine ⟨fun op hop => ?_, fun y₁ h₁ => ⟨fun op hop => ?_, fun y₂ _ => ⟨fun op hop => ?_, fun y₃ _ => trivial⟩⟩⟩
    · obtain rfl := Option.some.inj hop
      trivial
    · obtain rfl := Option.some.inj hop
      obtain rfl := Option.some.inj h₁
      exact fun e he => absurd he List.not_mem_nil
    · obtain rfl := Option.some.inj hop
      trivial
  exact ⟨y, y', hy, hy', he.1, he.2,
    no_early_wake _ true ls y y' hlegal hy hy' 1 2 1 rfl he.1 (by rw [he.2]; simp)⟩

/-- A process is woken from a sleep by a signal and goes to sleep again, for a hundred ticks; the entry of its
first sleep wakes it at the next one. -/
theorem early_wake : ¬ ∀ (H : Heap) (sie : Bool) (ls : List (Option Op)) (y y' : Sys ProcessManager ProcessError),
    Sys.steps ProcessManager.running (Op.run H) ls ⟨ProcessManager.booted H sie, fun _ => none⟩ = some y →
    y.step ProcessManager.running (Op.run H) (some .wakeup) = some y' → ∀ pid delay ticks,
    napOf pid ls = some (delay, ticks) → y.st.stateOf pid = some .sleep →
    y'.st.stateOf pid = some .ready ∨ y'.st.stateOf pid = some .running → delay.toNat ≤ ticks + 1 := by
  intro hall
  let ls : List (Option Op) := [some (.createProcess 5 true), some (.sleep 1 1), some (.ioSignal 1),
    some (.sleep 1 100), none]
  let y₀ : Sys ProcessManager ProcessError :=
    ⟨ProcessManager.booted (BinaryHeap.scan _) true, fun _ => none⟩
  have hrun : ((y₀.steps ProcessManager.running (Op.run (BinaryHeap.scan _)) ls).bind fun y =>
      (y.step ProcessManager.running (Op.run (BinaryHeap.scan _)) (some .wakeup)).map fun y' =>
      (y.st.stateOf 1, y'.st.stateOf 1)) = some (some .sleep, some .running) := by decide
  obtain ⟨y, hy, h⟩ := Option.bind_eq_some_iff.mp hrun
  obtain ⟨y', hy', he⟩ := Option.map_eq_some_iff.mp h
  simp only [Prod.mk.injEq] at he
  have hnap : napOf 1 ls = some (100, 0) := rfl
  have hle : 100 ≤ 0 + 1 := hall _ true ls y y' hy hy' 1 100 0 hnap he.1 (.inr he.2)
  omega

end Citron
