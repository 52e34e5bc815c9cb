import Citron.Process.Frame
import Citron.Process.Ownership

/-!
# Whom a signal reaches

`kill` leaves the dead in the queues, and `signal_semaphore` hands its token to whoever is first in the queue.

* `Act.names`            the acts that change the semaphore `sid`, the others leave it alone;
* `Passes`               `wait_semaphore` does not block;
* `Delivered`            a signal reaches the first process that still waits, or its token is kept;
* `signal_delivered_iff` it is, if and only if the first of the queue still waits.
-/

namespace Citron
open Resumption

variable {H : Heap} {s : ProcessManager} {sid : Sid}

/-! ## calls that do not name a semaphore -/

/-- the act may change the semaphore `sid` -/
def Act.names (sid : Sid) : Act → Bool
  | .newSem _ => true
  | .semWait t => t == sid
  | .semPost t => t == sid
  | .semPop t => t == sid
  | .semFree t => t == sid
  | _ => false

theorem stable_setSemaphore_of_ne {t : Sid} (x : Semaphore) (h : (t == sid) = false) :
    (s.setSemaphore t x).stable sid = s.stable sid :=
  Function.update_of_ne (Ne.symm (by simpa using h)) _ _

theorem Act.stable_of_not_names {a : Act} (h : a.names sid = false) : (a.apply H s).stable sid = s.stable sid := by
  cases a with
  | newSem count => cases h
  | semWait t =>
    cases hx : s.stable t with
    | none => rw [semWait_none hx]
    | some x =>
      by_cases hc : x.take.count < 0
      · rw [semWait_block hx hc]
        exact stable_setSemaphore_of_ne (s := s.setState s.running .semaWait) _ h
      · rw [semWait_pass hx hc]
        exact stable_setSemaphore_of_ne _ h
  | semPost t =>
    cases hx : s.stable t with
    | none => rw [semPost_none hx]
    | some x => rw [semPost_some hx]; exact stable_setSemaphore_of_ne _ h
  | semPop t =>
    cases hx : s.stable t with
    | none => rw [semPop_none hx]
    | some x => rw [semPop_some hx]; exact stable_setSemaphore_of_ne _ h
  | semFree t =>
    cases hx : s.stable t with
    | none => rw [semFree_none hx]
    | some x => rw [semFree_some hx]; exact stable_setSemaphore_of_ne _ h
  | _ => exact congrFun (Act.stable_apply rfl) sid

theorem applyAll_stable_of_not_names (acts : List Act) : ∀ {s : ProcessManager}, (∀ a ∈ acts, a.names sid = false) →
    (applyAll H acts s).stable sid = s.stable sid := by
  induction acts with
  | nil => exact fun _ => rfl
  | cons a acts ih =>
    intro s h
    exact (ih fun b hb => h b (List.mem_cons_of_mem a hb)).trans (Act.stable_of_not_names (h a List.mem_cons_self))

/-- the call waits for, signals or deletes the semaphore `sid` -/
def Op.Names (sid : Sid) (op : Op) : Prop :=
  op = .waitSemaphore sid ∨ op = .signalSemaphore sid ∨ op = .deleteSemaphore sid

/-- a call that does not name the semaphore leaves it alone -/
theorem Planned.stable_of_not_names {mask : Bool} {op : Op} {p : Plan} (h : Planned H s mask op p)
    (hop : ¬ op.Names sid) (hsid : ∀ count, op = .createSemaphore count → sid ≠ s.currSid) :
    (applyAll H p.acts s).stable sid = s.stable sid := by
  by_cases hs : op.semaphoric = false
  · exact h.stable hs hsid
  · refine applyAll_stable_of_not_names p.acts fun a ha => ?_
    cases h with
    | @semWait t x hx hc =>
      obtain rfl := List.mem_singleton.mp ha
      exact beq_eq_false_iff_ne.mpr fun e => hop (.inl (e ▸ rfl))
    | @semPass t x hx hc =>
      obtain rfl := List.mem_singleton.mp ha
      exact beq_eq_false_iff_ne.mpr fun e => hop (.inl (e ▸ rfl))
    | @semPost t x hx hc =>
      obtain rfl := List.mem_singleton.mp ha
      exact beq_eq_false_iff_ne.mpr fun e => hop (.inr (.inl (e ▸ rfl)))
    | @semWake t x pid rest q hx hc hq hp =>
      simp only [Plan.acts, List.mem_cons, List.not_mem_nil, or_false] at ha
      obtain rfl | rfl := ha
      · exact beq_eq_false_iff_ne.mpr fun e => hop (.inr (.inl (e ▸ rfl)))
      · rfl
    | @semDelete t x hx hk =>
      have hne : (t == sid) = false := beq_eq_false_iff_ne.mpr fun e => hop (.inr (.inr (e ▸ rfl)))
      simp only [Plan.acts, Plan.after, deferred, freeAll, List.cons_append, List.nil_append, List.mem_cons,
        List.mem_append, List.mem_flatMap, List.not_mem_nil, or_false] at ha
      obtain rfl | rfl | ⟨q, -, rfl | rfl⟩ | rfl := ha <;> first | exact hne | rfl
    | fail h => exact absurd ha List.not_mem_nil
    | semEmpty hx hc hq => exact absurd ha List.not_mem_nil
    | semShort hx hk => exact absurd ha List.not_mem_nil
    | _ => exact absurd rfl hs

section
variable {may : Op → ProcessManager → Prop} {sie : Bool} {y y' : Sys ProcessManager ProcessError}

/-- the semaphores that exist have been given out -/
def Issued (s : ProcessManager) : Prop := ∀ sid x, s.stable sid = some x → sid < s.currSid

theorem Issued.setSemaphore (hs : Issued s) {x : Semaphore} (hx : s.stable sid = some x) (x' : Semaphore) :
    Issued (s.setSemaphore sid x') := by
  intro t z hz
  by_cases e : t = sid
  · exact e ▸ hs sid x hx
  · exact hs t z ((Function.update_of_ne e _ _).symm.trans hz)

theorem Act.issued_apply (a : Act) (hs : Issued s) : Issued (a.apply H s) := by
  cases a with
  | newSem count =>
    intro t z hz
    by_cases e : t = s.currSid
    · exact e ▸ Nat.lt_succ_self _
    · exact Nat.lt_succ_of_lt (hs t z ((Function.update_of_ne e _ _).symm.trans hz))
  | semWait t =>
    cases hx : s.stable t with
    | none => rwa [semWait_none hx]
    | some x =>
      by_cases hc : x.take.count < 0
      · rw [semWait_block hx hc]
        exact Issued.setSemaphore (s := s.setState s.running .semaWait) hs hx _
      · rw [semWait_pass hx hc]
        exact hs.setSemaphore hx _
  | semPost t =>
    cases hx : s.stable t with
    | none => rwa [semPost_none hx]
    | some x => rw [semPost_some hx]; exact hs.setSemaphore hx _
  | semPop t =>
    cases hx : s.stable t with
    | none => rwa [semPop_none hx]
    | some x => rw [semPop_some hx]; exact hs.setSemaphore hx _
  | semFree t =>
    cases hx : s.stable t with
    | none => rwa [semFree_none hx]
    | some x => rw [semFree_some hx]; exact hs.setSemaphore hx _
  | _ =>
    intro t z hz
    exact Nat.lt_of_lt_of_le (hs t z ((congrFun (Act.stable_apply rfl) t).symm.trans hz)) (Act.currSid_apply _ s)

theorem Op.issued_entry (op : Op) (hs : Issued s) : Issued (op.entry s) := by
  unfold Op.entry
  split <;> exact hs

theorem Reachable.issued (hy : Reachable H may sie y) : Issued y.st := by
  refine Reachable.invariant (J := Issued) (fun sid x hx => ?_) (fun s t ht hs sid x hx => ?_) ?_ hy
  · exact absurd hx (by simp [booted_eq, ProcessManager.new, Act.apply, ProcessManager.insertProcess])
  · rw [ht.currSid]
    exact hs sid x (ht.stable ▸ hx)
  · intro op s p _ hs _ _
    have hacts : ∀ (acts : List Act) {t : ProcessManager}, Issued t → Issued (applyAll H acts t) := by
      intro acts
      induction acts with
      | nil => exact fun h => h
      | cons a acts ih => exact fun h => ih (a.issued_apply h)
    exact hacts p.acts (op.issued_entry hs)

theorem Reachable.stable_of_not_names (hy : Reachable H may sie y) {l : Option Op}
    (h : y.step ProcessManager.running (Op.run H) l = some y') (hl : ∀ op ∈ l, ¬ op.Names sid) {x : Semaphore}
    (hx : y.st.stable sid = some x) : y'.st.stable sid = some x := by
  obtain ⟨rfl, -, ht⟩ | ⟨op, p, rfl, hp, ht⟩ := Reachable.step_cases hy h
  · rw [ht.stable]
    exact hx
  · have hsid : sid ≠ (op.entry y.st).currSid := by
      unfold Op.entry
      split <;> exact Nat.ne_of_lt (Reachable.issued hy sid x hx)
    rw [ht.stable, hp.stable_of_not_names (hl op rfl) (fun _ _ => hsid), op.entry_stable]
    exact hx

/-- calls that do not name the semaphore leave it alone -/
theorem Reachable.steps_stable (ls : List (Option Op)) : ∀ {y : Sys ProcessManager ProcessError},
    Reachable H may sie y → y.LegalSteps ProcessManager.running (Op.run H) may ls →
    y.steps ProcessManager.running (Op.run H) ls = some y' → (∀ l ∈ ls, ∀ op ∈ l, ¬ op.Names sid) →
    ∀ {x : Semaphore}, y.st.stable sid = some x → y'.st.stable sid = some x := by
  induction ls with
  | nil =>
    intro y _ _ h _ x hx
    exact Option.some.inj h ▸ hx
  | cons l ls ih =>
    intro y hy hlegal h hl x hx
    obtain ⟨z, hz, h⟩ := Option.bind_eq_some_iff.mp h
    exact ih (.step hy (fun op e => hlegal.1 op e) hz) (hlegal.2 z hz) h (fun l hm => hl l (List.mem_cons_of_mem _ hm))
      (Reachable.stable_of_not_names hy hz (hl l List.mem_cons_self) hx)

end

/-! ## signals -/

/-- the first process of the queue that still waits -/
def ProcessManager.firstWaiter (s : ProcessManager) (x : Semaphore) : Option Pid :=
  x.queue.find? fun pid => s.stateOf pid = some .semaWait

/-- a call of `wait_semaphore` returns, and nobody has come into the queue -/
def Passes (H : Heap) (sid : Sid) (s : ProcessManager) : Prop :=
  ∃ t, waitSemaphore H sid s = .ok () t ∧ ∀ x ∈ s.stable sid, ∀ x' ∈ t.stable sid, x'.queue = x.queue

/-- A signal reaches the first process of the queue that still waits, and no other; without one, the token is kept:
the next call of `wait_semaphore` does not block. -/
def Delivered (H : Heap) (sid : Sid) (x : Semaphore) (y : Sys ProcessManager ProcessError) : Prop :=
  ∃ y', y.step ProcessManager.running (Op.run H) (some (.signalSemaphore sid)) = some y' ∧
    match y.st.firstWaiter x with
    | some pid => ∃ t, t.stateOf pid = some .ready ∧ (∀ q, q ≠ pid → t.stateOf q = y.st.stateOf q) ∧
        Tailed False t y'.st
    | none => ∀ ls z, y'.LegalSteps ProcessManager.running (Op.run H) Op.Balanced ls →
        y'.steps ProcessManager.running (Op.run H) ls = some z → (∀ l ∈ ls, ∀ op ∈ l, ¬ op.Names sid) →
        Passes H sid z.st

/-- Below zero the first of the queue still waits; from zero on nobody in the queue does. -/
def ProcessManager.Attended (s : ProcessManager) (x : Semaphore) : Prop :=
  if x.count < 0 then ∃ pid ∈ x.queue.head?, s.stateOf pid = some .semaWait
  else ∀ pid ∈ x.queue, s.stateOf pid ≠ some .semaWait

/-- `wait_semaphore` blocks where it brings the count below zero -/
theorem passes_iff (hi : Inv s) (hset : s.Settled) {x : Semaphore} (hx : s.stable sid = some x) :
    Passes H sid s ↔ ¬ x.take.count < 0 := by
  have hx' : s.masked.stable sid = some x := hx
  constructor
  · intro ⟨t, hrun, hqueue⟩ hc
    obtain ⟨p, hp, he⟩ := Op.ensures (H := H) (.waitSemaphore sid) hi hset
    have ht := (he.first (s := t) (by rw [show Op.run H (.waitSemaphore sid) s = _ from hrun]; rfl)).2
    cases hp with
    | fail h => exact absurd (h.1.symm.trans hx') (by simp)
    | semPass hz hn =>
      cases hz.symm.trans hx'
      exact hn hc
    | semWait hz _ =>
      have hstable : t.stable sid = some { x.take with queue := x.queue ++ [s.running] } := by
        rw [ht.stable]
        show ((Act.semWait sid).apply H s.masked).stable sid = _
        rw [semWait_block hx' hc]
        exact Function.update_self ..
      have := congrArg List.length (hqueue x hx _ hstable)
      simp at this
  · intro hc
    refine ⟨{ s.masked.setSemaphore sid x.take with sie := s.masked.sie || s.sie }, ?_, fun z hz z' hz' => ?_⟩
    · refine (Op.run_eq_body H hi.toClosed (.waitSemaphore sid)).trans ?_
      show ((Op.waitSemaphore sid).body H s.masked s.sie).run H (schedule H) s.masked = _
      simp only [Op.body, hx', hc, if_false, Plan.run, applyAll_cons, applyAll_nil, runTail_restore, runTail_nil]
      rw [semWait_pass hx' hc]
      rfl
    · have hz' : Function.update s.stable sid (some x.take) sid = some z' := hz'
      rw [Function.update_self] at hz'
      rw [← Option.some.inj hz', eq_of_stable hx hz]
      rfl

theorem take_post (x : Semaphore) : x.post.take.count = x.count := Int64.add_sub_cancel x.count 1

section
variable {may : Op → ProcessManager → Prop} {sie : Bool} {y y' : Sys ProcessManager ProcessError}

/-- the steps of a signal: below zero the first of the queue is woken, from zero on the count goes up -/
theorem Reachable.signal_cases (hy : Reachable H may sie y) (hs : y.susp y.st.running = none) {x : Semaphore}
    (hx : y.st.stable sid = some x) :
    (x.count < 0 ∧ x.queue = [] ∧ y.step ProcessManager.running (Op.run H) (some (.signalSemaphore sid)) = none) ∨
    (∃ pid rest y', x.count < 0 ∧ x.queue = pid :: rest ∧
      y.step ProcessManager.running (Op.run H) (some (.signalSemaphore sid)) = some y' ∧
      Tailed False ((y.st.masked.setSemaphore sid { x.post with queue := rest }).wake H pid) y'.st) ∨
    (∃ y', ¬ x.count < 0 ∧ y.step ProcessManager.running (Op.run H) (some (.signalSemaphore sid)) = some y' ∧
      Tailed False (y.st.masked.setSemaphore sid x.post) y'.st) := by
  have hk := Reachable.kept hy
  have hx' : y.st.masked.stable sid = some x := hx
  have hrun : Op.run H (.signalSemaphore sid) y.st
      = ((Op.signalSemaphore sid).body H y.st.masked y.st.sie).run H (schedule H) y.st.masked :=
    Op.run_eq_body H hk.inv.1.toClosed (.signalSemaphore sid)
  by_cases hpanic : x.count < 0 ∧ x.queue = []
  · refine .inl ⟨hpanic.1, hpanic.2, ?_⟩
    unfold Sys.step
    rw [hs]
    dsimp only
    rw [hrun]
    simp only [Op.body, hx', hpanic.1, hpanic.2, if_true]
    rfl
  · obtain ⟨p, hp, he⟩ := Op.ensures (H := H) (.signalSemaphore sid) hk.inv.1 hk.inv.2
    have hne : Op.run H (.signalSemaphore sid) y.st ≠ .panic := by
      refine he.ne_panic ?_
      rintro rfl
      cases hp with
      | semEmpty hz hc hq =>
        cases hz.symm.trans hx'
        exact hpanic ⟨hc, hq⟩
    obtain ⟨y', hstep⟩ := Sys.step_of_ne_panic hs hne
    refine .inr ?_
    obtain ⟨e, -⟩ | ⟨op, p, e, hp, ht⟩ := Reachable.step_cases hy hstep
    · cases e
    · cases e
      have ht := ht.weaken False.elim
      cases hp with
      | fail h => exact absurd (h.1.symm.trans hx') (by simp)
      | semPost hz hc =>
        cases hz.symm.trans hx'
        refine .inr ⟨y', hc, hstep, ?_⟩
        rw [← semPost_some (H := H) hx']
        exact ht
      | @semWake _ z pid rest p hz hc hq hp =>
        cases hz.symm.trans hx'
        have hpop := semPop_some (H := H) hx'
        rw [hq] at hpop
        have hact : applyAll H [.semPop sid, .wake pid] y.st.masked
            = (y.st.masked.setSemaphore sid { x.post with queue := rest }).wake H pid := by
          show ((Act.semPop sid).apply H y.st.masked).wake H pid = _
          rw [hpop]
          rfl
        exact .inl ⟨pid, rest, y', hc, hq, hstep, hact ▸ ht⟩
      | semEmpty hz hc hq =>
        cases hz.symm.trans hx'
        exact absurd ⟨hc, hq⟩ hpanic

/-- what a step leaves of a process that waits for a semaphore -/
theorem Tailed.semaWait {t u : ProcessManager} {pid : Pid} (ht : Tailed False t u) (hst : t.stateOf pid = some .semaWait) :
    u.stateOf pid = some .semaWait :=
  (ht.stateOf_of_not_runnable (not_runnable_of_blocked rfl hst)).trans hst

/-- and of one that it has made ready -/
theorem Tailed.not_semaWait {t u : ProcessManager} {pid : Pid} (ht : Tailed False t u)
    (hst : t.stateOf pid = some .ready) : u.stateOf pid ≠ some .semaWait :=
  fun h => not_runnable_of_blocked rfl h ((ht.runnable pid).mpr (.inr hst))

theorem firstWaiter_some {x : Semaphore} {pid : Pid} (h : s.firstWaiter x = some pid) :
    pid ∈ x.queue ∧ s.stateOf pid = some .semaWait := by
  have hst := List.find?_some (p := fun pid => decide (s.stateOf pid = some .semaWait)) h
  exact ⟨List.mem_of_find?_eq_some h, of_decide_eq_true hst⟩

theorem firstWaiter_head {x : Semaphore} {pid : Pid} {rest : List Pid} (hq : x.queue = pid :: rest)
    (hst : s.stateOf pid = some .semaWait) : s.firstWaiter x = some pid := by
  unfold ProcessManager.firstWaiter
  rw [hq]
  simp [hst]

/-- a signal that leaves every waiter where it is was not delivered to one -/
theorem not_delivered {x : Semaphore} {pid : Pid}
    (hstep : y.step ProcessManager.running (Op.run H) (some (.signalSemaphore sid)) = some y')
    (hw : y.st.firstWaiter x = some pid) (hst : y'.st.stateOf pid = some .semaWait) : ¬ Delivered H sid x y := by
  intro ⟨z, hz, h⟩
  rw [hw] at h
  obtain rfl := Option.some.inj (hstep.symm.trans hz)
  obtain ⟨t, hready, -, htail⟩ := h
  exact htail.not_semaWait hready hst

end

/-- **A signal reaches a live waiter**, or its token is kept, if and only if below zero the first of the queue still
waits and from zero on nobody in the queue does. -/
theorem signal_delivered_iff (H : Heap) (sie : Bool) (y : Sys ProcessManager ProcessError)
    (hy : Reachable H Op.Balanced sie y) (hs : y.susp y.st.running = none) (sid : Sid) (x : Semaphore)
    (hx : y.st.stable sid = some x) : Delivered H sid x y ↔ y.st.Attended x := by
  unfold ProcessManager.Attended
  obtain ⟨hc, hq, hstep⟩ | ⟨pid, rest, y', hc, hq, hstep, ht⟩ | ⟨y', hc, hstep, ht⟩ :=
    Reachable.signal_cases hy hs hx
  · -- the queue is empty, and the call panics
    rw [if_pos hc, hq]
    refine iff_of_false ?_ (by simp)
    intro ⟨y', hstep', _⟩
    cases hstep.symm.trans hstep'
  · have hother : ∀ q, q ≠ pid → ((y.st.masked.setSemaphore sid { x.post with queue := rest }).wake H pid).stateOf q
        = y.st.stateOf q := fun q hne =>
      (wake_stateOf pid q).elim (fun h => h) fun h => absurd h.1 hne
    rw [if_pos hc, hq, List.head?_cons]
    by_cases hst : y.st.stateOf pid = some .semaWait
    · refine iff_of_true ⟨y', hstep, ?_⟩ ⟨pid, rfl, hst⟩
      rw [firstWaiter_head hq hst]
      exact ⟨_, wake_ready (s := y.st.masked.setSemaphore sid { x.post with queue := rest }) hst rfl, hother, ht⟩
    · refine iff_of_false ?_ fun ⟨q, hq, h⟩ => hst (Option.some.inj hq ▸ h)
      cases hw : y.st.firstWaiter x with
      | some q =>
        -- somebody waits behind the first, and still does
        obtain ⟨-, hwait⟩ := firstWaiter_some hw
        have hne : q ≠ pid := fun e => hst (e ▸ hwait)
        exact not_delivered hstep hw (ht.semaWait ((hother q hne).trans hwait))
      | none =>
        -- the token has gone to the first, and the next wait blocks
        intro ⟨z, hz, h⟩
        rw [hw] at h
        obtain rfl := Option.some.inj (hstep.symm.trans hz)
        have hk := Reachable.kept (Reach.step hy (fun op e => by cases e; exact fun h => by cases h) hstep)
        have hx' : y'.st.stable sid = some { x.post with queue := rest } := by
          rw [ht.stable, wake_stable]
          exact Function.update_self ..
        have hpass := h [] y' trivial rfl (fun l hl => absurd hl List.not_mem_nil)
        refine (passes_iff hk.inv.1 hk.inv.2 hx').mp hpass ?_
        show x.post.take.count < 0
        rwa [take_post]
  · rw [if_neg hc]
    cases hw : y.st.firstWaiter x with
    | some q =>
      obtain ⟨hmem, hwait⟩ := firstWaiter_some hw
      exact iff_of_false (not_delivered hstep hw (ht.semaWait hwait)) fun h => h q hmem hwait
    | none =>
      refine iff_of_true ⟨y', hstep, ?_⟩ fun q hmem hwait => ?_
      · rw [hw]
        intro ls z hlegal hz hl
        have hy' : Reachable H Op.Balanced sie y' :=
          Reach.step hy (fun op e => by cases e; exact fun h => by cases h) hstep
        have hx' : y'.st.stable sid = some x.post := by
          rw [ht.stable]
          exact Function.update_self ..
        have hk := Reachable.kept (Reach.steps hy' hlegal hz)
        rw [passes_iff hk.inv.1 hk.inv.2 (Reachable.steps_stable ls hy' hlegal hz hl hx'), take_post]
        exact hc
      · exact List.find?_eq_none.mp hw q hmem (decide_eq_true hwait)

/-- A process waits for a semaphore: a signal reaches it. -/
theorem signal_delivered_iff_example : ∃ y, Reachable (BinaryHeap.scan _) Op.Balanced true y ∧
    y.st.stable 0 = some ⟨.free, -1, [1]⟩ ∧ y.st.firstWaiter ⟨.free, -1, [1]⟩ = some 1 ∧
    Delivered (BinaryHeap.scan _) 0 ⟨.free, -1, [1]⟩ y := by
  let ls : List (Option Op) := [some (.createProcess 5 true), some (.createSemaphore 0), some (.ready 1),
    some (.waitSemaphore 0), none]
  let y₀ : Sys ProcessManager ProcessError := ⟨ProcessManager.booted (BinaryHeap.scan _) true, fun _ => none⟩
  have hrun : ((y₀.steps ProcessManager.running (Op.run (BinaryHeap.scan _)) ls).map fun y =>
      (y.st.stable 0, y.st.stateOf 1, (y.susp y.st.running).isNone))
        = some (some ⟨.free, -1, [1]⟩, some .semaWait, true) := by
    decide
  obtain ⟨y, hy, he⟩ := Option.map_eq_some_iff.mp hrun
  simp only [Prod.mk.injEq, Option.isNone_iff_eq_none] at he
  obtain ⟨hx, hst, hsusp⟩ := he
  have hreach : Reachable (BinaryHeap.scan _) Op.Balanced true y :=
    Reach.steps .init (.of_forall (by simp [ls, Op.Balanced])) hy
  refine ⟨y, hreach, hx, firstWaiter_head rfl hst, (signal_delivered_iff _ true y hreach hsusp 0 _ hx).mpr ?_⟩
  unfold ProcessManager.Attended
  rw [if_pos (by decide)]
  exact ⟨1, rfl, hst⟩

/-- Processes 1 and 2 wait for a semaphore, and process 1 is killed.  The next signal goes to process 1. -/
theorem signal_to_the_dead : ¬ ∀ (H : Heap) (sie : Bool) (y : Sys ProcessManager ProcessError),
    Reachable H Op.Balanced sie y → y.susp y.st.running = none → ∀ sid x, y.st.stable sid = some x →
    Delivered H sid x y := by
  intro hall
  let ls : List (Option Op) := [some (.createProcess 5 true), some (.createProcess 5 true), some (.createSemaphore 0),
    some (.ready 1), some (.waitSemaphore 0), none, some (.ready 2), some (.waitSemaphore 0), none, some (.kill 1)]
  let y₀ : Sys ProcessManager ProcessError := ⟨ProcessManager.booted (BinaryHeap.scan _) true, fun _ => none⟩
  have hrun : ((y₀.steps ProcessManager.running (Op.run (BinaryHeap.scan _)) ls).map fun y =>
      (y.st.stable 0, y.st.stateOf 1, y.st.stateOf 2, (y.susp y.st.running).isNone,
        (y.step ProcessManager.running (Op.run (BinaryHeap.scan _)) (some (.signalSemaphore 0))).map fun y' =>
          y'.st.stateOf 2))
        = some (some ⟨.free, -2, [1, 2]⟩, some .free, some .semaWait, true, some (some .semaWait)) := by
    decide +kernel
  obtain ⟨y, hy, he⟩ := Option.map_eq_some_iff.mp hrun
  simp only [Prod.mk.injEq, Option.isNone_iff_eq_none] at he
  obtain ⟨hx, hst1, hst2, hsusp, hafter⟩ := he
  have hreach : Reachable (BinaryHeap.scan _) Op.Balanced true y :=
    Reach.steps .init (.of_forall (by simp [ls, Op.Balanced])) hy
  obtain ⟨y', hstep, hst'⟩ := Option.map_eq_some_iff.mp hafter
  have hw : y.st.firstWaiter ⟨.free, -2, [1, 2]⟩ = some 2 := by
    unfold ProcessManager.firstWaiter
    simp [hst1, hst2]
  exact not_delivered hstep hw hst' (hall _ true y hreach hsusp 0 _ hx)

end Citron
