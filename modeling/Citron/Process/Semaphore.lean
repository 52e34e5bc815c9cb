import Citron.Process.Ownership

/-!
# Semaphores: the count and the queue

`Counted`: the queue of a semaphore is as long as its count is negative.  It is kept as long as no
count runs over the ends of `isize`, and then the two `unwrap`s never meet an empty queue.

* `semaphore_queue_length`  the invariant over runs, and what follows for `signal_semaphore` and
                            `delete_semaphore`;
* `semaphore_count_wraps`   without the proviso it fails.
-/

set_option linter.unusedSectionVars false

namespace Citron
open Resumption

/-- semaphores are created with a count that is not negative -/
def Op.NonNegative (op : Op) (_ : ProcessManager) : Prop := ∀ count, op = .createSemaphore count → 0 ≤ count

/-- the update of the count that the call makes stays within `isize` -/
def Op.NoOverflow (op : Op) (s : ProcessManager) : Prop :=
  match op with
  | .waitSemaphore sid => ∀ x ∈ s.stable sid, x.count ≠ Int64.minValue
  | .signalSemaphore sid => ∀ x ∈ s.stable sid, x.count ≠ Int64.maxValue
  | _ => True

/-- every queue is as long as the count is negative -/
def Counted (s : ProcessManager) : Prop :=
  ∀ sid x, s.stable sid = some x → (x.queue.length : Int) = max 0 (-x.count.toInt)

/-! ## counts -/

theorem toInt_take {c : Int64} (h : c ≠ Int64.minValue) : (c - 1).toInt = c.toInt - 1 := by
  have h1 := Int64.le_toInt c
  have h2 := Int64.toInt_lt c
  have h3 : c.toInt ≠ -2 ^ 63 := fun e => h (Int64.toInt_inj.mp e)
  rw [Int64.toInt_sub, Int64.toInt_one, Int.bmod_eq_of_le] <;> omega

theorem toInt_post_of_ne {c : Int64} (h : c ≠ Int64.maxValue) : (c + 1).toInt = c.toInt + 1 := by
  have h1 := Int64.le_toInt c
  have h2 := Int64.toInt_lt c
  have h3 : c.toInt ≠ 2 ^ 63 - 1 := fun e => h (Int64.toInt_inj.mp e)
  rw [Int64.toInt_add, Int64.toInt_one, Int.bmod_eq_of_le] <;> omega

theorem neg_iff_toInt {c : Int64} : c < 0 ↔ c.toInt < 0 := by
  rw [Int64.lt_iff_toInt_lt, Int64.toInt_zero]

section
variable {H : Heap} {s : ProcessManager}

theorem Counted.setSemaphore (hs : Counted s) (sid : Sid) {x : Semaphore}
    (hx : (x.queue.length : Int) = max 0 (-x.count.toInt)) : Counted (s.setSemaphore sid x) := by
  intro sid' x' h
  by_cases e : sid' = sid
  · subst e
    simp only [ProcessManager.setSemaphore, Function.update_self, Option.some.injEq] at h
    rwa [← h]
  · simp only [ProcessManager.setSemaphore, Function.update_of_ne e] at h
    exact hs sid' x' h

/-- the acts on semaphores that keep count and queue together -/
def Act.Counts (s : ProcessManager) : Act → Prop
  | .newSem count => 0 ≤ count
  | .semWait sid => ∀ x ∈ s.stable sid, x.count ≠ Int64.minValue
  | .semPost sid => ∀ x ∈ s.stable sid, ¬ x.count < 0 ∧ x.count ≠ Int64.maxValue
  | .semPop sid => ∀ x ∈ s.stable sid, x.count < 0
  | _ => True

/-- an act that is not about semaphores leaves them alone -/
theorem wakeSleepers_stable (pids : List Pid) : (s.wakeSleepers H pids).stable = s.stable := by
  induction pids generalizing s with
  | nil => rfl
  | cons pid pids ih =>
    unfold ProcessManager.wakeSleepers
    rw [ih]
    split
    · exact wakeLater_stable ..
    · rfl

theorem wake_stable (pid : Pid) : (s.wake H pid).stable = s.stable := by
  unfold ProcessManager.wake
  split
  · split <;> rfl
  · rfl

theorem Act.counted_apply {a : Act} (hs : Counted s) (ha : a.Counts s) : Counted (a.apply H s) := by
  have same : ∀ t : ProcessManager, t.stable = s.stable → Counted t := by
    intro t ht sid x hx
    exact hs sid x (ht ▸ hx)
  cases a with
  | newSem count =>
    refine (hs.setSemaphore s.currSid (x := Semaphore.new count) ?_ :)
    have h : 0 ≤ count.toInt := by
      rw [← Int64.toInt_zero]
      exact Int64.le_iff_toInt_le.mp ha
    show (0 : Int) = max 0 (-count.toInt)
    omega
  | semWait sid =>
    cases hx : s.stable sid with
    | none => rwa [semWait_none hx]
    | some x =>
      have hlen := hs sid x hx
      have hc := toInt_take (ha x hx)
      by_cases h : x.take.count < 0
      · rw [semWait_block hx h]
        have h : (x.count - 1).toInt < 0 := neg_iff_toInt.mp h
        refine Counted.setSemaphore (s := s.setState s.running .semaWait) hs sid ?_
        show ((x.queue ++ [s.running]).length : Int) = max 0 (-(x.count - 1).toInt)
        rw [List.length_append, List.length_singleton]
        omega
      · rw [semWait_pass hx h]
        have h : ¬ (x.count - 1).toInt < 0 := fun h' => h (neg_iff_toInt.mpr h')
        refine hs.setSemaphore sid ?_
        show (x.queue.length : Int) = max 0 (-(x.count - 1).toInt)
        omega
  | semPost sid =>
    cases hx : s.stable sid with
    | none => rwa [semPost_none hx]
    | some x =>
      rw [semPost_some hx]
      have hlen := hs sid x hx
      have hc := toInt_post_of_ne (ha x hx).2
      have h : ¬ x.count.toInt < 0 := fun h' => (ha x hx).1 (neg_iff_toInt.mpr h')
      refine hs.setSemaphore sid ?_
      show (x.queue.length : Int) = max 0 (-(x.count + 1).toInt)
      omega
  | semPop sid =>
    cases hx : s.stable sid with
    | none => rwa [semPop_none hx]
    | some x =>
      rw [semPop_some hx]
      have hlen := hs sid x hx
      have hc := toInt_post (ha x hx)
      have h := neg_iff_toInt.mp (ha x hx)
      refine hs.setSemaphore sid ?_
      show (x.queue.tail.length : Int) = max 0 (-(x.count + 1).toInt)
      rw [List.length_tail]
      omega
  | semFree sid =>
    cases hx : s.stable sid with
    | none => rwa [semFree_none hx]
    | some x =>
      rw [semFree_some hx]
      exact hs.setSemaphore sid (hs sid x hx)
  | wake pid => exact same _ (wake_stable pid)
  | wakeLater pid => exact same _ (wakeLater_stable ..)
  | sleepers pids => exact same _ (wakeSleepers_stable pids)
  | _ => exact same _ rfl

/-! ## the loop of `delete_semaphore` -/

/-- one turn of the loop -/
theorem freeAll_cons (sid : Sid) (pid : Pid) (pids : List Pid) {x : Semaphore}
    (hx : s.stable sid = some x) :
    applyAll H (freeAll sid (pid :: pids)) s
      = applyAll H (freeAll sid pids) ((s.setSemaphore sid
          { x.post with queue := x.queue.tail }).wakeLater H pid) := by
  show applyAll H (freeAll sid pids) (((Act.semPop sid).apply H s).wakeLater H pid) = _
  rw [semPop_some hx]

theorem freeAll_counts (sid : Sid) (pids : List Pid) : ∀ {s : ProcessManager} {x : Semaphore},
    s.stable sid = some x → pids.length ≤ (-x.count.toInt).toNat →
    Along H Act.Counts s (freeAll sid pids) ∧
      ∃ x', (applyAll H (freeAll sid pids) s).stable sid = some x' ∧
        x'.count.toInt = x.count.toInt + pids.length ∧ x'.queue = x.queue.drop pids.length := by
  induction pids with
  | nil =>
    intro s x hx _
    exact ⟨trivial, x, hx, by simp, rfl⟩
  | cons pid pids ih =>
    intro s x hx hk
    rw [List.length_cons] at hk
    have hneg : x.count < 0 := neg_iff_toInt.mpr (by omega)
    have hpost := toInt_post hneg
    have hx' : ((s.setSemaphore sid { x.post with queue := x.queue.tail }).wakeLater H pid).stable sid
        = some { x.post with queue := x.queue.tail } := by
      rw [wakeLater_stable]
      simp [ProcessManager.setSemaphore]
    have hk' : pids.length
        ≤ (-({ x.post with queue := x.queue.tail } : Semaphore).count.toInt).toNat := by
      show pids.length ≤ (-(x.count + 1).toInt).toNat
      omega
    obtain ⟨hal, x', hx'', hc, hq⟩ := ih hx' hk'
    refine ⟨⟨fun z hz => ?_, trivial, ?_⟩, x', ?_, ?_, ?_⟩
    · have hz : s.stable sid = some z := hz
      rw [hx, Option.some.injEq] at hz
      rwa [← hz]
    · rw [semPop_some hx]
      exact hal
    · rw [freeAll_cons sid pid pids hx]
      exact hx''
    · have hc : x'.count.toInt = (x.count + 1).toInt + pids.length := hc
      rw [List.length_cons]
      omega
    · rw [hq, List.length_cons, ← List.drop_tail]

/-! ## runs -/

/-- the acts that change neither a count nor a queue -/
def Act.offSem : Act → Bool
  | .newSem _ => false
  | .semWait _ => false
  | .semPost _ => false
  | .semPop _ => false
  | _ => true

theorem Act.counts_of_offSem {a : Act} (h : a.offSem = true) (s : ProcessManager) :
    a.Counts s := by
  cases a <;> trivial

theorem eq_of_stable {sid : Sid} {x z : Semaphore} (hx : s.stable sid = some x)
    (hz : z ∈ s.stable sid) : z = x := by
  have hz : s.stable sid = some z := hz
  rw [hx, Option.some.injEq] at hz
  exact hz.symm

/-- the semaphore that `delete_semaphore` is about to empty -/
theorem stable_semFree {sid : Sid} {x : Semaphore} (hx : s.stable sid = some x) :
    ((Act.start).apply H ((Act.semFree sid).apply H s)).stable sid = some { x with state := .free } := by
  rw [semFree_some hx]
  simp [Act.apply, ProcessManager.setSemaphore]

/-- the acts of a call keep count and queue together -/
theorem Planned.counts {mask : Bool} {op : Op} {p : Plan} (h : Planned H s mask op p)
    (hn : op.NonNegative s) (ho : op.NoOverflow s) : Along H Act.Counts s p.acts := by
  have safe : ∀ {acts : List Act} {t : ProcessManager}, acts.all Act.offSem = true →
      Along H Act.Counts t acts :=
    fun h => Along.of_forall (fun s a ha => Act.counts_of_offSem ha s) (List.all_eq_true.mp h)
  cases h with
  | create priority doSetup => cases doSetup <;> exact safe (by simp [Plan.acts, Act.offSem])
  | newSem count => exact ⟨hn count rfl, trivial⟩
  | semWait hx hc => exact ⟨ho, trivial⟩
  | semPass hx hc => exact ⟨ho, trivial⟩
  | semPost hx hc =>
    refine ⟨fun z hz => ⟨?_, ho z hz⟩, trivial⟩
    rwa [eq_of_stable hx hz]
  | semWake hx hc hq hp =>
    refine ⟨fun z hz => ?_, trivial, trivial⟩
    rwa [eq_of_stable hx hz]
  | semDelete hx hk =>
    refine ⟨trivial, trivial, along_append.mpr ⟨?_, trivial, trivial⟩⟩
    exact (freeAll_counts _ _ (stable_semFree hx) (List.length_take_le ..)).1
  | _ => exact safe (by simp [Plan.acts, Plan.after, deferred, Act.offSem])

/-- the calls of a run in which no count is created negative or runs over the ends of `isize` -/
def Op.KeepsCount (op : Op) (s : ProcessManager) : Prop := op.NonNegative s ∧ op.NoOverflow s

section
variable {sie : Bool} {y : Sys ProcessManager ProcessError}

theorem Op.entry_stable (op : Op) (s : ProcessManager) : (op.entry s).stable = s.stable := by
  unfold Op.entry
  split <;> rfl

theorem Op.KeepsCount.along {op : Op} {p : Plan} (hm : op.KeepsCount s) (hs : Counted s)
    (hp : Planned H (op.entry s) s.sie op p) : Counted (applyAll H p.acts (op.entry s)) := by
  have ho : op.NoOverflow (op.entry s) := by
    unfold Op.entry
    split
    · cases op <;> exact hm.2
    · exact hm.2
  have hal := hp.counts hm.1 ho
  have h0 : Counted (op.entry s) := by
    intro sid x hx
    exact hs sid x (op.entry_stable s ▸ hx)
  revert hal h0
  generalize op.entry s = t
  generalize p.acts = acts
  induction acts generalizing t with
  | nil => exact fun _ h => h
  | cons a acts ih => exact fun hal h => ih _ hal.2 (Act.counted_apply h hal.1)

theorem Reachable.counted (hy : Reachable H Op.KeepsCount sie y) : Counted y.st := by
  refine Reachable.invariant (J := Counted) ?_ ?_ ?_ hy
  · intro sid x hx
    exact absurd hx (by simp [booted_eq, ProcessManager.new, Act.apply,
      ProcessManager.insertProcess])
  · intro s t ht hs sid x hx
    exact hs sid x (ht.stable ▸ hx)
  · intro op s p _ hs hm hp
    exact hm.along hs hp

/-- **The queue of a semaphore is as long as its count is negative**, while no count overflows.  So no
call panics, and `delete_semaphore` leaves an empty queue behind. -/
theorem semaphore_queue_length (H : Heap) (sie : Bool) (y : Sys ProcessManager ProcessError)
    (hy : Reachable H Op.KeepsCount sie y) :
    (∀ sid x, y.st.stable sid = some x → (x.queue.length : Int) = max 0 (-x.count.toInt)) ∧
    (∀ op, Op.run H op y.st ≠ .panic) ∧
    (∀ k, y.susp y.st.running = some k → k y.st ≠ .panic) ∧
    (∀ sid t, (deleteSemaphore H sid y.st).first = some t →
      ∀ x, t.stable sid = some x → x.queue = []) := by
  have hc := Reachable.counted hy
  have hk := Reachable.kept hy
  refine ⟨hc, fun op => ?_, fun k hsusp => ?_, fun sid t ht x hx => ?_⟩
  · obtain ⟨p, hp, he⟩ := op.ensures (H := H) hk.inv.1 hk.inv.2
    refine he.ne_panic ?_
    rintro rfl
    cases hp with
    | @semEmpty sid x hx hneg hq =>
      have hlen := hc sid x hx
      have hneg := neg_iff_toInt.mp hneg
      rw [hq, List.length_nil] at hlen
      omega
    | @semShort sid x hx hn =>
      have hlen := hc sid x hx
      omega
  · exact (hk.susp _ k hsusp _ hk.inv (hk.resumed k hsusp) rfl).ne_panic id
  · obtain ⟨p, hp, he⟩ := Op.ensures (H := H) (.deleteSemaphore sid) hk.inv.1 hk.inv.2
    have htail := (he.first ht).2
    rw [htail.stable] at hx
    have hkeeps : (Op.deleteSemaphore sid).KeepsCount y.st :=
      ⟨fun _ e => absurd e (by simp), trivial⟩
    have hlen := hkeeps.along hc hp sid x hx
    cases hp with
    | fail h =>
      have h : y.st.stable sid = none := h.1
      exact absurd (h.symm.trans hx) (by simp)
    | semShort hz hn =>
      have hlen := hc sid _ hz
      omega
    | @semDelete _ z hz hkz =>
      obtain ⟨_, x', hx', hcount, -⟩ := freeAll_counts (H := H) sid
        (z.queue.take (-z.count.toInt).toNat) (stable_semFree (H := H) hz) (List.length_take_le ..)
      simp only [Plan.after, deferred, Plan.acts, List.cons_append, List.nil_append, applyAll_cons,
        applyAll_append, applyAll_nil] at hx
      have hx : (applyAll H (freeAll sid (z.queue.take (-z.count.toInt).toNat))
        ((Act.start).apply H ((Act.semFree sid).apply H
          ((Op.deleteSemaphore sid).entry y.st)))).stable sid = some x := hx
      have e : x' = x := Option.some.inj (hx'.symm.trans hx)
      rw [e, List.length_take, Nat.min_eq_left hkz] at hcount
      have hcount : x.count.toInt = z.count.toInt + ((-z.count.toInt).toNat : Int) := hcount
      exact List.length_eq_zero_iff.mp (by omega)

/-- A process waits, and is put into the queue. -/
theorem semaphore_queue_length_example :
    ∃ y, Reachable (BinaryHeap.scan _) Op.KeepsCount true y ∧
      y.st.stable 0 = some ⟨.free, -1, [1]⟩ ∧ ((1 : Nat) : Int) = max 0 (-(-1 : Int64).toInt) := by
  let ls : List (Option Op) :=
    [some (.createProcess 5 true), some (.createSemaphore 0), some (.ready 1)]
  let y₀ : Sys ProcessManager ProcessError :=
    ⟨ProcessManager.booted (BinaryHeap.scan _) true, fun _ => none⟩
  have hrun : ((y₀.steps ProcessManager.running (Op.run (BinaryHeap.scan _)) ls).bind fun y =>
      (y.step ProcessManager.running (Op.run (BinaryHeap.scan _)) (some (.waitSemaphore 0))).map
        fun y' => (y.st.stable 0, y'.st.stable 0))
      = some (some ⟨.free, 0, []⟩, some ⟨.free, -1, [1]⟩) := rfl
  obtain ⟨y, hy, h⟩ := Option.bind_eq_some_iff.mp hrun
  obtain ⟨y', hy', he⟩ := Option.map_eq_some_iff.mp h
  simp only [Prod.mk.injEq] at he
  have hreach : Reachable (BinaryHeap.scan _) Op.KeepsCount true y :=
    Reach.steps .init (.of_forall (by simp [ls, Op.KeepsCount, Op.NonNegative, Op.NoOverflow])) hy
  have hlegal : Legal Op.KeepsCount (some (.waitSemaphore 0)) y.st := by
    intro op e
    obtain rfl := Option.some.inj e
    refine ⟨fun _ e => absurd e (by simp), fun x hx => ?_⟩
    rw [eq_of_stable he.1 hx]
    decide
  have hreach' := Reach.step hreach hlegal hy'
  exact ⟨y', hreach', he.2, (semaphore_queue_length _ _ y' hreach').1 0 _ he.2⟩

/-- A count of `isize::MAX` is signalled: it wraps to `isize::MIN`, and nobody is in the queue. -/
theorem semaphore_count_wraps : ¬ ∀ (H : Heap) (sie : Bool) (y : Sys ProcessManager ProcessError),
    Reachable H Op.NonNegative sie y →
      ∀ sid x, y.st.stable sid = some x → (x.queue.length : Int) = max 0 (-x.count.toInt) := by
  intro h
  let ls : List (Option Op) := [some (.createSemaphore Int64.maxValue), some (.signalSemaphore 0)]
  let y₀ : Sys ProcessManager ProcessError :=
    ⟨ProcessManager.booted (BinaryHeap.scan _) true, fun _ => none⟩
  have hrun : ((y₀.steps ProcessManager.running (Op.run (BinaryHeap.scan _)) ls).map fun y =>
      y.st.stable 0) = some (some ⟨.free, Int64.minValue, []⟩) := rfl
  obtain ⟨y, hy, he⟩ := Option.map_eq_some_iff.mp hrun
  have hreach : Reachable (BinaryHeap.scan _) Op.NonNegative true y :=
    Reach.steps .init (.of_forall (by simp [ls, Op.NonNegative])) hy
  exact absurd (h _ _ y hreach 0 _ he) (by decide)

end

end

end Citron
