import Citron.Process.Signal

/-!
# Broadcasts

`event_signal` and `delete_semaphore` wake everybody in a list, in a loop under a deferral, so that nobody else runs
before the last one is woken.

* `Reachable.registered`    who waits for events is in the list of one;
* `Reachable.event_step`    what `event_signal` does;
* `Tallied`                 count and queue, as long as the queues fit into memory;
* `Reachable.delete_step`   what `delete_semaphore` does;
* `broadcast_complete`      both leave nobody behind.
-/

namespace Citron
open Resumption

variable {H : Heap} {s : ProcessManager}

/-! ## the lists of the events -/

/-- the acts that leave the lists alone -/
def Act.offEvent : Act → Bool
  | .eventOn _ _ => false
  | .takeEvent _ => false
  | _ => true

theorem Act.eventQueue_apply {a : Act} (h : a.offEvent = true) : (a.apply H s).eventQueue = s.eventQueue := by
  cases a with
  | semWait sid =>
    cases hx : s.stable sid with
    | none => rw [semWait_none hx]
    | some x =>
      by_cases hc : x.take.count < 0
      · rw [semWait_block hx hc]; rfl
      · rw [semWait_pass hx hc]; rfl
  | semPost sid =>
    cases hx : s.stable sid with
    | none => rw [semPost_none hx]
    | some x => rw [semPost_some hx]; rfl
  | semPop sid =>
    cases hx : s.stable sid with
    | none => rw [semPop_none hx]
    | some x => rw [semPop_some hx]; rfl
  | semFree sid =>
    cases hx : s.stable sid with
    | none => rw [semFree_none hx]
    | some x => rw [semFree_some hx]; rfl
  | wake q =>
    show (s.wake H q).eventQueue = _
    unfold ProcessManager.wake
    split
    · split <;> rfl
    · rfl
  | wakeLater q => exact wakeLater_eventQueue q
  | sleepers pids => exact wakeSleepers_eventQueue pids
  | eventOn q e => cases h
  | takeEvent e => cases h
  | _ => rfl

theorem applyAll_eventQueue (acts : List Act) : ∀ {s : ProcessManager}, acts.all Act.offEvent = true →
    (applyAll H acts s).eventQueue = s.eventQueue := by
  induction acts with
  | nil => exact fun _ => rfl
  | cons a acts ih =>
    intro s h
    rw [List.all_cons, Bool.and_eq_true] at h
    exact (ih h.2).trans (Act.eventQueue_apply h.1)

/-- who is in a list after an act was in it before, or the act has put it there -/
theorem Act.waiters_apply {a : Act} {event : ProcessEvent} {pid : Pid} (h : pid ∈ (a.apply H s).waiters event) :
    pid ∈ s.waiters event ∨ a = .eventOn pid event := by
  cases ha : a.offEvent with
  | true =>
    unfold ProcessManager.waiters at h ⊢
    rw [Act.eventQueue_apply ha] at h
    exact .inl h
  | false =>
    cases a with
    | eventOn q e =>
      have h : pid ∈ ((s.setState q .eventWait).setEvent e (some (s.waiters e ++ [q]))).waiters event := h
      rw [waiters_setEvent] at h
      split at h
      · rename_i he
        subst he
        rcases List.mem_append.mp h with h | h
        · exact .inl h
        · exact .inr (by rw [List.mem_singleton.mp h])
      · exact .inl h
    | takeEvent e =>
      have h : pid ∈ (s.setEvent e none).waiters event := h
      rw [waiters_setEvent] at h
      split at h
      · exact absurd h List.not_mem_nil
      · exact .inl h
    | _ => cases ha

theorem mem_waiters_of_applyAll {event : ProcessEvent} {pid : Pid} (acts : List Act) : ∀ {s : ProcessManager},
    pid ∈ (applyAll H acts s).waiters event → pid ∈ s.waiters event ∨ .eventOn pid event ∈ acts := by
  induction acts with
  | nil => exact fun h => .inl h
  | cons a acts ih =>
    intro s h
    rcases ih h with h | h
    · rcases Act.waiters_apply h with h | rfl
      · exact .inl h
      · exact .inr List.mem_cons_self
    · exact .inr (List.mem_cons_of_mem a h)

/-- who is put into a list by an act is in it at the end, if nobody takes the list -/
theorem applyAll_listed {event : ProcessEvent} {pid : Pid} {acts : List Act} (hm : Act.eventOn pid event ∈ acts)
    (htake : ∀ a ∈ acts, a ≠ .takeEvent event) : pid ∈ (applyAll H acts s).waiters event := by
  obtain ⟨l, l', rfl⟩ := List.append_of_mem hm
  rw [applyAll_append, applyAll_cons]
  refine applyAll_waiters l' (fun a ha => htake a (List.mem_append_right l (List.mem_cons_of_mem _ ha))) ?_
  show pid ∈ (((applyAll H l s).setState pid .eventWait).setEvent event (some _)).waiters event
  rw [waiters_setEvent, if_pos rfl]
  exact List.mem_append_right _ List.mem_cons_self

/-- the call puts the process `pid` into the list of the event -/
def Op.Registers (op : Op) (s : ProcessManager) (pid : Pid) (event : ProcessEvent) : Prop :=
  op = .eventWait pid event ∨ op = .waitExit ∧ pid = s.running

section
variable {may : Op → ProcessManager → Prop} {sie : Bool} {y y' : Sys ProcessManager ProcessError}

theorem Reachable.waiters_step (hy : Reachable H may sie y) {l : Option Op}
    (h : y.step ProcessManager.running (Op.run H) l = some y') {pid : Pid} {event : ProcessEvent}
    (hm : pid ∈ y'.st.waiters event) :
    pid ∈ y.st.waiters event ∨ ∃ op, l = some op ∧ op.Registers y.st pid event := by
  obtain ⟨rfl, -, ht⟩ | ⟨op, p, rfl, hp, ht⟩ := Reachable.step_cases hy h
  · unfold ProcessManager.waiters at hm ⊢
    rw [ht.eventQueue] at hm
    exact .inl hm
  · obtain ⟨-, hqueue, hrun⟩ := op.entry_stateOf y.st pid
    have hm : pid ∈ (applyAll H p.acts (op.entry y.st)).waiters event := by
      unfold ProcessManager.waiters at hm ⊢
      rwa [ht.eventQueue] at hm
    rcases mem_waiters_of_applyAll p.acts hm with hm | hm
    · unfold ProcessManager.waiters at hm ⊢
      rw [hqueue] at hm
      exact .inl hm
    · refine .inr ⟨op, rfl, ?_⟩
      rcases hp.eventOn hm with e | ⟨e, e'⟩
      · exact .inl e
      · exact .inr ⟨e, e'.trans hrun⟩

/-- who is in the list of an event after some calls was there before, or a call has put it there -/
theorem Reachable.waiters_steps {z : Sys ProcessManager ProcessError} {pid : Pid} {event : ProcessEvent}
    (ls : List (Option Op)) : ∀ {y : Sys ProcessManager ProcessError}, Reachable H may sie y →
    y.LegalSteps ProcessManager.running (Op.run H) may ls → y.steps ProcessManager.running (Op.run H) ls = some z →
    pid ∈ z.st.waiters event → pid ∈ y.st.waiters event ∨
      ∃ l op l' u, ls = l ++ some op :: l' ∧ y.steps ProcessManager.running (Op.run H) l = some u ∧
        op.Registers u.st pid event := by
  induction ls with
  | nil =>
    intro y _ _ h hm
    exact .inl (Option.some.inj h ▸ hm)
  | cons l ls ih =>
    intro y hy hlegal h hm
    obtain ⟨x, hx, h⟩ := Option.bind_eq_some_iff.mp h
    rcases ih (.step hy (fun op e => hlegal.1 op e) hx) (hlegal.2 x hx) h hm with hm | ⟨l₀, op, l', u, rfl, hu, hreg⟩
    · rcases Reachable.waiters_step hy hx hm with hm | ⟨op, rfl, hreg⟩
      · exact .inl hm
      · exact .inr ⟨[], op, ls, y, rfl, rfl, hreg⟩
    · exact .inr ⟨l :: l₀, op, l', u, rfl, Option.bind_eq_some_iff.mpr ⟨x, hx, hu⟩, hreg⟩

/-- `wait_exit` leaves its caller in the state it was in, or in the list of an event -/
theorem Reachable.waitExit_step (hy : Reachable H may sie y)
    (h : y.step ProcessManager.running (Op.run H) (some .waitExit) = some y')
    (hst : y'.st.stateOf y.st.running = some .eventWait) :
    y.st.stateOf y.st.running = some .eventWait ∧ y'.st.eventQueue = y.st.eventQueue ∨
      ∃ event, y.st.running ∈ y'.st.waiters event := by
  obtain ⟨e, -⟩ | ⟨op, p, e, hp, ht⟩ := Reachable.step_cases hy h
  · cases e
  · cases e
    have hst := ht.stateOf_of_blocked rfl hst
    rw [ht.eventQueue]
    unfold ProcessManager.waiters
    rw [ht.eventQueue]
    cases hp with
    | fail h => exact h.elim
    | reap pid =>
      refine .inl ⟨?_, rfl⟩
      rcases (Act.reap y.st.running pid).stateOf_apply (H := H) (s := y.st.masked) y.st.running with h | ⟨st, hset, -⟩
      · exact h.symm.trans hst
      · exact hset.elim
    | @waitExit q hq hn =>
      cases hc : q.children with
      | nil =>
        rw [hc] at hst
        refine .inl ⟨hst, rfl⟩
      | cons c cs =>
        have hmem : Act.eventOn y.st.running (.exit c)
            ∈ (c :: cs).flatMap fun pid => [Act.eventOn y.st.running (.exit pid), .attempt] :=
          List.mem_flatMap.mpr ⟨c, List.mem_cons_self, List.mem_cons_self⟩
        refine .inr ⟨.exit c, applyAll_listed (s := y.st.masked)
          (List.mem_cons_of_mem _ (List.mem_append_left _ hmem)) ?_⟩
        rintro a ha rfl
        simp [Plan.acts, deferred] at ha

/-- **Who waits for events is in the list of one.** -/
theorem Reachable.registered (hy : Reachable H may sie y) : ∀ pid, y.st.stateOf pid = some .eventWait →
    ∃ event, pid ∈ y.st.waiters event := by
  induction hy with
  | init =>
    intro pid h
    rw [booted_stateOf] at h
    split at h <;> cases h
  | @step y y' l hy hl h ih =>
    intro pid hst
    by_cases hwait : ∃ e, l = some (.eventWait pid e)
    · obtain ⟨e, rfl⟩ := hwait
      exact ⟨e, Reachable.listed_eventWait hy h hst⟩
    · by_cases hexit : l = some .waitExit ∧ pid = y.st.running
      · obtain ⟨rfl, rfl⟩ := hexit
        rcases Reachable.waitExit_step hy h hst with ⟨hst, hqueue⟩ | hm
        · obtain ⟨e, hm⟩ := ih _ hst
          refine ⟨e, ?_⟩
          unfold ProcessManager.waiters
          rwa [hqueue]
        · exact hm
      · have hstep : ∀ event, y.st.stateOf pid = some .eventWait ∧
            (pid ∈ y.st.waiters event → pid ∈ y'.st.waiters event ∧ l ≠ some (.eventSignal event)) := fun event =>
          Reachable.eventWait_step hy h (fun e he => hwait ⟨e, he⟩) (fun he hp => hexit ⟨he, hp⟩) hst
        obtain ⟨e, hm⟩ := ih pid (hstep .mouseEvent).1
        exact ⟨e, ((hstep e).2 hm).1⟩

/-- processes stay in the table -/
theorem Reachable.isSome_step (hy : Reachable H may sie y) {l : Option Op}
    (h : y.step ProcessManager.running (Op.run H) l = some y') {pid : Pid} (hpid : (y.st.ptable pid).isSome) :
    (y'.st.ptable pid).isSome := by
  have hk := Reachable.kept hy
  obtain ⟨rfl, -, ht⟩ | ⟨op, p, rfl, hp, ht⟩ := Reachable.step_cases hy h
  · rwa [ht.isSome]
  · obtain ⟨hi, -, -⟩ := op.inv_entry hk.inv.1 hk.inv.2
    have hpid : ((op.entry y.st).ptable pid).isSome := by
      unfold Op.entry
      split <;> exact hpid
    have hal : Along H (fun _ _ => True) (op.entry y.st) p.acts :=
      Along.of_forall (Q := fun _ => True) (fun _ _ h => h) fun _ _ => trivial
    rw [ht.isSome]
    exact (hi.along (J := fun s => (s.ptable pid).isSome) (fun _ a hs h _ => a.isSome_apply hs h) (hp.valid hi) hal hpid).2

/-- whoever is woken by acts that put nobody to wait does not wait after them -/
theorem Tailed.woken {sch : Prop} {t : ProcessManager} {acts : List Act} {pid : Pid}
    (ht : Tailed sch (applyAll H acts s) t) (hw : .wakeLater pid ∈ acts)
    (hsets : ∀ a ∈ acts, ∀ u st, a.Sets pid u st → st.blocked = false) {st : State} (hst : t.stateOf pid = some st) :
    st.blocked = false := by
  by_contra hb
  have hb : st.blocked = true := by simpa using hb
  obtain ⟨a, ha, u, hset⟩ := applyAll_woken hw hb (ht.stateOf_of_blocked hb hst)
  exact absurd (hsets a ha u st hset) (by simp [hb])

/-- the state of a process that does not wait -/
theorem awake_of_not_blocked {pid : Pid} (hsome : (s.ptable pid).isSome)
    (h : ∀ st, s.stateOf pid = some st → st.blocked = false) :
    s.stateOf pid = some .ready ∨ s.stateOf pid = some .running ∨ s.stateOf pid = some .free := by
  obtain ⟨p, hp⟩ := Option.isSome_iff_exists.mp hsome
  have hst := ProcessManager.stateOf_of_ptable hp
  rw [hst]
  rcases (State.blocked_iff _).mp (h _ hst) with e | e | e
  · exact .inr (.inr (by rw [e]))
  · exact .inr (.inl (by rw [e]))
  · exact .inl (by rw [e])

/-- the list of the event is taken, and the other lists stay -/
theorem Planned.eventSignal_queue {mask : Bool} {event : ProcessEvent} {p : Plan}
    (h : Planned H s mask (.eventSignal event) p) :
    (applyAll H p.acts s).eventQueue = Function.update s.eventQueue event none ∧
      (∀ pid ∈ s.waiters event, .wakeLater pid ∈ p.acts) ∧
      ∀ pid, ∀ a ∈ p.acts, ∀ u st, a.Sets pid u st → st.blocked = false := by
  cases h with
  | fail h => exact h.elim
  | noEvent he =>
    refine ⟨rfl, fun pid hm => ?_, fun pid a ha u st hset => ?_⟩
    · unfold ProcessManager.waiters at hm
      rw [he] at hm
      exact absurd hm List.not_mem_nil
    · simp only [Plan.acts, List.mem_cons, List.not_mem_nil, or_false] at ha
      obtain rfl | rfl | rfl := ha <;> exact hset.elim
  | @eventSignal _ pids he =>
    have hacts : (deferred H (.takeEvent event :: pids.map .wakeLater) [.sched, .restore mask] s).acts
        = [.start, .takeEvent event] ++ (pids.map .wakeLater ++ [.stop]) := rfl
    rw [hacts]
    refine ⟨?_, fun pid hm => ?_, fun pid a ha u st hset => ?_⟩
    · rw [applyAll_append, applyAll_eventQueue _ (by simp [Act.offEvent])]
      rfl
    · unfold ProcessManager.waiters at hm
      rw [he] at hm
      exact List.mem_append_right _ (List.mem_append_left _ (List.mem_map_of_mem hm))
    · simp only [List.mem_append, List.mem_cons, List.mem_map, List.not_mem_nil, or_false] at ha
      obtain (rfl | rfl) | ⟨q, -, rfl⟩ | rfl := ha
      · exact hset.elim
      · exact hset.elim
      · rw [hset.2]
        rfl
      · exact hset.elim

/-- **What `event_signal` does**: nobody of the list waits any more, the list is empty, the others stay. -/
theorem Reachable.event_step (hy : Reachable H may sie y) {event : ProcessEvent}
    (h : y.step ProcessManager.running (Op.run H) (some (.eventSignal event)) = some y') :
    (∀ pid ∈ y.st.waiters event, y'.st.stateOf pid = some .ready ∨ y'.st.stateOf pid = some .running ∨
      y'.st.stateOf pid = some .free) ∧
    y'.st.eventQueue = Function.update y.st.eventQueue event none := by
  have hk := Reachable.kept hy
  obtain ⟨e, -⟩ | ⟨op, p, e, hp, ht⟩ := Reachable.step_cases hy h
  · cases e
  · cases e
    obtain ⟨hqueue, hwoken, hsets⟩ := hp.eventSignal_queue
    refine ⟨fun pid hm => ?_, ht.eventQueue.trans hqueue⟩
    refine awake_of_not_blocked (Reachable.isSome_step hy h (hk.inv.1.event event pid hm)) fun st hst => ?_
    exact ht.woken (hwoken pid hm) (hsets pid) hst

end

/-! ## counts and queues -/

/-- the queue is as long as the count is negative, or the count has run over its end with nobody in the queue -/
def Semaphore.Tallied (x : Semaphore) : Prop :=
  (x.queue.length : Int) = max 0 (-x.count.toInt) ∨ x.count = Int64.minValue ∧ x.queue = []

def Tallied (s : ProcessManager) : Prop := ∀ sid x, s.stable sid = some x → x.Tallied

/-- no queue gets more than `isize::MAX` entries, the most that a collection can hold -/
def Op.Fits (op : Op) (s : ProcessManager) : Prop :=
  match op with
  | .waitSemaphore sid => ∀ x ∈ s.stable sid, x.queue.length + 1 < 2^63
  | _ => True

theorem toInt_minValue : Int64.minValue.toInt = -2^63 := rfl

namespace Semaphore.Tallied
variable {x : Semaphore}

theorem length_eq (h : x.Tallied) (hk : (-x.count.toInt).toNat ≤ x.queue.length) :
    (x.queue.length : Int) = max 0 (-x.count.toInt) := by
  rcases h with h | ⟨hmin, hq⟩
  · exact h
  · rw [hmin, hq, toInt_minValue] at hk
    exact absurd hk (by decide)

theorem new {count : Int64} (h : 0 ≤ count) : (Semaphore.new count).Tallied := by
  have h : 0 ≤ count.toInt := by
    rw [← Int64.toInt_zero]
    exact Int64.le_iff_toInt_le.mp h
  refine .inl ?_
  show (0 : Int) = max 0 (-count.toInt)
  omega

theorem ne_minValue (h : x.Tallied) (hfit : x.queue.length + 1 < 2^63) (hne : ¬ (x.count = Int64.minValue ∧ x.queue = [])) :
    (x.queue.length : Int) = max 0 (-x.count.toInt) ∧ x.count ≠ Int64.minValue := by
  have hlen := h.resolve_right hne
  refine ⟨hlen, fun hmin => ?_⟩
  rw [hmin, toInt_minValue] at hlen
  omega

theorem block (h : x.Tallied) (hfit : x.queue.length + 1 < 2^63) (hc : x.take.count < 0) (pid : Pid) :
    ({ x.take with queue := x.queue ++ [pid] } : Semaphore).Tallied := by
  have hneg : (x.count - 1).toInt < 0 := neg_iff_toInt.mp hc
  have hne : ¬ (x.count = Int64.minValue ∧ x.queue = []) := by
    intro ⟨hmin, _⟩
    rw [hmin] at hneg
    exact absurd hneg (by decide)
  obtain ⟨hlen, hmin⟩ := h.ne_minValue hfit hne
  have hcount := toInt_take hmin
  refine .inl ?_
  show ((x.queue ++ [pid]).length : Int) = max 0 (-(x.count - 1).toInt)
  rw [List.length_append, List.length_singleton]
  omega

theorem pass (h : x.Tallied) (hfit : x.queue.length + 1 < 2^63) (hc : ¬ x.take.count < 0) : x.take.Tallied := by
  have hneg : ¬ (x.count - 1).toInt < 0 := fun h' => hc (neg_iff_toInt.mpr h')
  refine .inl ?_
  show (x.queue.length : Int) = max 0 (-(x.count - 1).toInt)
  by_cases hwrap : x.count = Int64.minValue ∧ x.queue = []
  · rw [hwrap.1, hwrap.2]
    rfl
  · obtain ⟨hlen, hmin⟩ := h.ne_minValue hfit hwrap
    have hcount := toInt_take hmin
    omega

theorem post (h : x.Tallied) (hc : ¬ x.count < 0) : x.post.Tallied := by
  have hneg : ¬ x.count.toInt < 0 := fun h' => hc (neg_iff_toInt.mpr h')
  have hlen : (x.queue.length : Int) = max 0 (-x.count.toInt) := by
    refine h.resolve_right ?_
    intro ⟨hmin, _⟩
    rw [hmin] at hc
    exact hc (by decide)
  by_cases hmax : x.count = Int64.maxValue
  · refine .inr ⟨?_, List.eq_nil_of_length_eq_zero (show x.queue.length = 0 by omega)⟩
    show x.count + 1 = _
    rw [hmax]
    rfl
  · have hcount := toInt_post_of_ne hmax
    refine .inl ?_
    show (x.queue.length : Int) = max 0 (-(x.count + 1).toInt)
    omega

theorem pop (h : x.Tallied) (hc : x.count < 0) (hq : x.queue ≠ []) :
    ({ x.post with queue := x.queue.tail } : Semaphore).Tallied := by
  have hneg := neg_iff_toInt.mp hc
  have hlen := h.resolve_right fun hwrap => hq hwrap.2
  have hcount := toInt_post hc
  refine .inl ?_
  show (x.queue.tail.length : Int) = max 0 (-(x.count + 1).toInt)
  rw [List.length_tail]
  omega

end Semaphore.Tallied

/-- what the loop of `delete_semaphore` leaves of the semaphore -/
theorem semDelete_stable {sid : Sid} {x : Semaphore} (mask : Bool) (hx : s.stable sid = some x) (hx' : x.Tallied)
    (hk : (-x.count.toInt).toNat ≤ x.queue.length) :
    x.queue.take (-x.count.toInt).toNat = x.queue ∧
    ∃ x', (applyAll H ((deferred H (freeAll sid (x.queue.take (-x.count.toInt).toNat)) [.sched, .restore mask]
        ((Act.semFree sid).apply H s)).after [.semFree sid]).acts s).stable sid = some x' ∧ x'.queue = [] ∧ x'.Tallied := by
  have hlen := hx'.length_eq hk
  have htake : x.queue.take (-x.count.toInt).toNat = x.queue := List.take_of_length_le (by omega)
  refine ⟨htake, ?_⟩
  obtain ⟨-, x', hstable, hcount, hqueue⟩ := freeAll_counts (H := H) sid (x.queue.take (-x.count.toInt).toNat)
    (stable_semFree (H := H) hx) (List.length_take_le ..)
  rw [htake] at hstable hcount hqueue ⊢
  have hnil : x'.queue = [] := by
    rw [hqueue]
    exact List.drop_of_length_le (Nat.le_refl _)
  have hcount : x'.count.toInt = x.count.toInt + x.queue.length := hcount
  refine ⟨x', ?_, hnil, .inl ?_⟩
  · simp only [Plan.after, deferred, Plan.acts, List.cons_append, List.nil_append, applyAll_cons, applyAll_append,
      applyAll_nil]
    exact hstable
  · rw [hnil, hcount]
    show (0 : Int) = _
    omega

/-- a call keeps counts and queues together -/
theorem Planned.tallied {mask : Bool} {op : Op} {p : Plan} (h : Planned H s mask op p) (ht : Tallied s)
    (hn : op.NonNegative s) (hf : op.Fits s) : Tallied (applyAll H p.acts s) := by
  intro sid z hz
  by_cases hnew : ∃ count, op = .createSemaphore count ∧ sid = s.currSid
  · obtain ⟨count, rfl, rfl⟩ := hnew
    cases h with
    | fail h => exact h.elim
    | newSem count =>
      have hz : Function.update s.stable s.currSid (some (Semaphore.new count)) s.currSid = some z := hz
      rw [Function.update_self] at hz
      rw [← Option.some.inj hz]
      exact .new (hn count rfl)
  · by_cases hop : op.Names sid
    · -- the semaphore itself, after the call
      have done : ∀ x' : Semaphore, (applyAll H p.acts s).stable sid = some x' → x'.Tallied → z.Tallied := by
        intro x' hx' h
        rwa [← Option.some.inj (hx'.symm.trans hz)]
      have set : ∀ (t : ProcessManager) (x' : Semaphore), (t.setSemaphore sid x').stable sid = some x' :=
        fun t x' => Function.update_self ..
      obtain rfl | rfl | rfl := hop
      · cases h with
        | fail h => exact ht sid z hz
        | @semWait _ x hx hc =>
          refine done { x.take with queue := x.queue ++ [s.running] } ?_ ((ht sid x hx).block (hf x hx) hc _)
          show ((Act.semWait sid).apply H s).stable sid = _
          rw [semWait_block hx hc]
          exact set _ _
        | @semPass _ x hx hc =>
          refine done x.take ?_ ((ht sid x hx).pass (hf x hx) hc)
          show ((Act.semWait sid).apply H s).stable sid = _
          rw [semWait_pass hx hc]
          exact set _ _
      · cases h with
        | fail h => exact ht sid z hz
        | @semPost _ x hx hc =>
          refine done x.post ?_ ((ht sid x hx).post hc)
          show ((Act.semPost sid).apply H s).stable sid = _
          rw [semPost_some hx]
          exact set _ _
        | @semWake _ x pid rest q hx hc hq hp =>
          refine done { x.post with queue := x.queue.tail } ?_ ((ht sid x hx).pop hc (by rw [hq]; simp))
          show (((Act.semPop sid).apply H s).wake H pid).stable sid = _
          rw [wake_stable, semPop_some hx]
          exact set _ _
        | semEmpty hx hc hq => exact ht sid z hz
      · cases h with
        | fail h => exact ht sid z hz
        | semShort hx hk => exact ht sid z hz
        | @semDelete _ x hx hk =>
          obtain ⟨-, x', hx', -, htallied⟩ := semDelete_stable (H := H) mask hx (ht sid x hx) hk
          exact done x' hx' htallied
    · rw [h.stable_of_not_names hop fun count e e' => hnew ⟨count, e, e'⟩] at hz
      exact ht sid z hz

/-- The calls of the kernel: deferrals end only after they have begun, semaphores begin with a count that is not
negative, and the queues fit into memory. -/
def Op.Orderly (op : Op) (s : ProcessManager) : Prop := op.Balanced s ∧ op.NonNegative s ∧ op.Fits s

section
variable {sie : Bool} {y y' : Sys ProcessManager ProcessError}

theorem Reachable.tallied (hy : Reachable H Op.Orderly sie y) : Tallied y.st := by
  refine Reachable.invariant (J := Tallied) (fun sid x hx => ?_) (fun s t ht hs sid x hx => ?_) ?_ hy
  · exact absurd hx (by simp [booted_eq, ProcessManager.new, Act.apply, ProcessManager.insertProcess])
  · exact hs sid x (ht.stable ▸ hx)
  · intro op s p _ hs hm hp
    have hs' : Tallied (op.entry s) := fun sid x hx => hs sid x (op.entry_stable s ▸ hx)
    have hf : op.Fits (op.entry s) := by
      unfold Op.entry
      split
      · cases op <;> exact hm.2.2
      · exact hm.2.2
    exact hp.tallied hs' hm.2.1 hf

/-- a call that panics is no step -/
theorem Reachable.step_panic {may : Op → ProcessManager → Prop} (hy : Reachable H may sie y) (op : Op)
    (h : op.body H (op.entry y.st) y.st.sie = .panic) : y.step ProcessManager.running (Op.run H) (some op) = none := by
  unfold Sys.step
  cases y.susp y.st.running with
  | some k => rfl
  | none =>
    dsimp only
    rw [Op.run_eq_body H (Reachable.kept hy).inv.1.toClosed, h]
    rfl

/-- **What `delete_semaphore` does**: the queue is empty, and nobody of it waits any more. -/
theorem Reachable.delete_step (hy : Reachable H Op.Orderly sie y) {sid : Sid} {x : Semaphore}
    (hx : y.st.stable sid = some x)
    (h : y.step ProcessManager.running (Op.run H) (some (.deleteSemaphore sid)) = some y') :
    (∃ x', y'.st.stable sid = some x' ∧ x'.queue = []) ∧
    ∀ pid ∈ x.queue, y'.st.stateOf pid = some .ready ∨ y'.st.stateOf pid = some .running ∨
      y'.st.stateOf pid = some .free := by
  have hk := Reachable.kept hy
  have hx' : y.st.masked.stable sid = some x := hx
  obtain ⟨e, -⟩ | ⟨op, p, e, hp, ht⟩ := Reachable.step_cases hy h
  · cases e
  · cases e
    cases hp with
    | fail h => exact absurd (h.1.symm.trans hx') (by simp)
    | semShort hz hle =>
      cases hz.symm.trans hx'
      have hbody : (Op.deleteSemaphore sid).body H y.st.masked y.st.sie = .panic := by
        simp only [Op.body, hx', hle, if_false]
      cases (Reachable.step_panic hy (.deleteSemaphore sid) hbody).symm.trans h
    | semDelete hz hle =>
      cases hz.symm.trans hx'
      obtain ⟨htake, x', hstable, hnil, -⟩ := semDelete_stable (H := H) y.st.sie hx'
        (Reachable.tallied hy sid x hx) hle
      refine ⟨⟨x', ht.stable ▸ hstable, hnil⟩, fun pid hm => ?_⟩
      refine awake_of_not_blocked (Reachable.isSome_step hy h (hk.inv.1.sem sid x hx pid hm)) fun st hst => ?_
      refine ht.woken ?_ ?_ hst
      · rw [htake]
        simp [Plan.after, Plan.acts, deferred, freeAll, hm]
      · intro a ha u st hset
        simp only [Plan.acts, Plan.after, deferred, freeAll, List.cons_append, List.nil_append, List.mem_cons,
          List.mem_append, List.mem_flatMap, List.not_mem_nil, or_false] at ha
        obtain rfl | rfl | ⟨q, -, rfl | rfl⟩ | rfl := ha
        · exact hset.elim
        · exact hset.elim
        · exact hset.elim
        · rw [hset.2]
          rfl
        · exact hset.elim

/-- it panics only if the count has run over its end -/
theorem Reachable.delete_total (hy : Reachable H Op.Orderly sie y) (hs : y.susp y.st.running = none) {sid : Sid}
    {x : Semaphore} (hx : y.st.stable sid = some x) (hmin : x.count ≠ Int64.minValue) :
    ∃ y', y.step ProcessManager.running (Op.run H) (some (.deleteSemaphore sid)) = some y' := by
  have hk := Reachable.kept hy
  obtain ⟨p, hp, he⟩ := Op.ensures (H := H) (.deleteSemaphore sid) hk.inv.1 hk.inv.2
  refine Sys.step_of_ne_panic hs (he.ne_panic ?_)
  rintro rfl
  cases hp with
  | semShort hz hle =>
    cases hz.symm.trans (show y.st.masked.stable sid = some x from hx)
    have hlen := (Reachable.tallied hy sid x hx).resolve_right fun h => hmin h.1
    omega

theorem Reachable.event_total {may : Op → ProcessManager → Prop} (hy : Reachable H may sie y)
    (hs : y.susp y.st.running = none) (event : ProcessEvent) :
    ∃ y', y.step ProcessManager.running (Op.run H) (some (.eventSignal event)) = some y' := by
  have hk := Reachable.kept hy
  obtain ⟨p, hp, he⟩ := Op.ensures (H := H) (.eventSignal event) hk.inv.1 hk.inv.2
  refine Sys.step_of_ne_panic hs (he.ne_panic ?_)
  rintro rfl
  cases hp

end

/-- **Broadcast wake-ups are complete.**  Who waits for events is in the list of one.  After `event_signal` nobody who
was in the list of the event waits any more, the list is empty, whoever comes into it later was put there by a later
call, and the other lists are as they were.  Where semaphores begin with a count that is not negative, after
`delete_semaphore` the queue is empty and nobody who was in it waits any more. -/
theorem broadcast_complete (H : Heap) (sie : Bool) (y : Sys ProcessManager ProcessError)
    (hy : Reachable H Op.Balanced sie y) :
    (∀ pid, y.st.stateOf pid = some .eventWait → ∃ event, pid ∈ y.st.waiters event) ∧
    (y.susp y.st.running = none → ∀ event,
      ∃ y', y.step ProcessManager.running (Op.run H) (some (.eventSignal event)) = some y' ∧
        (∀ pid ∈ y.st.waiters event, y'.st.stateOf pid = some .ready ∨ y'.st.stateOf pid = some .running ∨
          y'.st.stateOf pid = some .free) ∧
        y'.st.waiters event = [] ∧ (∀ e, e ≠ event → y'.st.waiters e = y.st.waiters e) ∧
        ∀ ls z, y'.LegalSteps ProcessManager.running (Op.run H) Op.Balanced ls →
          y'.steps ProcessManager.running (Op.run H) ls = some z → ∀ pid ∈ z.st.waiters event,
          ∃ l op l' u, ls = l ++ some op :: l' ∧ y'.steps ProcessManager.running (Op.run H) l = some u ∧
            op.Registers u.st pid event) ∧
    (Reachable H Op.Orderly sie y → y.susp y.st.running = none → ∀ sid x, y.st.stable sid = some x →
      (x.count ≠ Int64.minValue →
        ∃ y', y.step ProcessManager.running (Op.run H) (some (.deleteSemaphore sid)) = some y') ∧
      ∀ y', y.step ProcessManager.running (Op.run H) (some (.deleteSemaphore sid)) = some y' →
        (∃ x', y'.st.stable sid = some x' ∧ x'.queue = []) ∧
        ∀ pid ∈ x.queue, y'.st.stateOf pid = some .ready ∨ y'.st.stateOf pid = some .running ∨
          y'.st.stateOf pid = some .free) := by
  refine ⟨Reachable.registered hy, fun hs event => ?_, fun ho hs sid x hx =>
    ⟨Reachable.delete_total ho hs hx, fun y' h => Reachable.delete_step ho hx h⟩⟩
  obtain ⟨y', h⟩ := Reachable.event_total hy hs event
  obtain ⟨hawake, hqueue⟩ := Reachable.event_step hy h
  have hnil : y'.st.waiters event = [] := by
    unfold ProcessManager.waiters
    rw [hqueue, Function.update_self]
    rfl
  refine ⟨y', h, hawake, hnil, fun e he => ?_, fun ls z hlegal hz pid hm => ?_⟩
  · unfold ProcessManager.waiters
    rw [hqueue, Function.update_of_ne he]
  · have hop : (Op.eventSignal event).Balanced y.st := fun e => absurd e (by simp)
    have hy' : Reachable H Op.Balanced sie y' := .step hy (fun op e => Option.some.inj e ▸ hop) h
    refine (Reachable.waiters_steps ls hy' hlegal hz hm).resolve_left fun h => ?_
    rw [hnil] at h
    exact absurd h List.not_mem_nil

/-- Processes 1 and 2 wait for the mouse, and one signal wakes both; process 1 waits for a semaphore, and its deletion
wakes it. -/
theorem broadcast_complete_example :
    (∃ y, Reachable (BinaryHeap.scan _) Op.Balanced true y ∧ y.st.waiters .mouseEvent = [1, 2] ∧
      ∃ y', y.step ProcessManager.running (Op.run (BinaryHeap.scan _)) (some (.eventSignal .mouseEvent)) = some y' ∧
        (∀ pid ∈ [1, 2], y'.st.stateOf pid = some .ready ∨ y'.st.stateOf pid = some .running ∨
          y'.st.stateOf pid = some .free) ∧ y'.st.waiters .mouseEvent = []) ∧
    ∃ y, Reachable (BinaryHeap.scan _) Op.Orderly true y ∧ y.st.stable 0 = some ⟨.free, -1, [1]⟩ ∧
      ∃ y', y.step ProcessManager.running (Op.run (BinaryHeap.scan _)) (some (.deleteSemaphore 0)) = some y' ∧
        ∃ x', y'.st.stable 0 = some x' ∧ x'.queue = [] := by
  let y₀ : Sys ProcessManager ProcessError := ⟨ProcessManager.booted (BinaryHeap.scan _) true, fun _ => none⟩
  constructor
  · let ls : List (Option Op) := [some (.createProcess 5 true), some (.createProcess 5 true),
      some (.eventWait 1 .mouseEvent), some (.eventWait 2 .mouseEvent)]
    have hrun : ((y₀.steps ProcessManager.running (Op.run (BinaryHeap.scan _)) ls).map fun y =>
        (y.st.waiters .mouseEvent, (y.susp y.st.running).isNone)) = some ([1, 2], true) := rfl
    obtain ⟨y, hy, he⟩ := Option.map_eq_some_iff.mp hrun
    simp only [Prod.mk.injEq, Option.isNone_iff_eq_none] at he
    have hreach : Reachable (BinaryHeap.scan _) Op.Balanced true y :=
      Reach.steps .init (.of_forall (by simp [ls, Op.Balanced])) hy
    obtain ⟨y', hstep, hawake, hnil, -⟩ := (broadcast_complete _ true y hreach).2.1 he.2 .mouseEvent
    exact ⟨y, hreach, he.1, y', hstep, he.1 ▸ hawake, hnil⟩
  · let ls : List (Option Op) := [some (.createProcess 5 true), some (.createSemaphore 0), some (.ready 1)]
    have hrun : ((y₀.steps ProcessManager.running (Op.run (BinaryHeap.scan _)) ls).bind fun y₁ =>
        (y₁.step ProcessManager.running (Op.run (BinaryHeap.scan _)) (some (.waitSemaphore 0))).bind fun y₂ =>
        (y₂.step ProcessManager.running (Op.run (BinaryHeap.scan _)) none).map fun y =>
          (y₁.st.stable 0, y.st.stable 0, (y.susp y.st.running).isNone))
        = some (some ⟨.free, 0, []⟩, some ⟨.free, -1, [1]⟩, true) := by
      decide
    obtain ⟨y₁, h₁, hrun⟩ := Option.bind_eq_some_iff.mp hrun
    obtain ⟨y₂, h₂, hrun⟩ := Option.bind_eq_some_iff.mp hrun
    obtain ⟨y, h, hrun⟩ := Option.map_eq_some_iff.mp hrun
    simp only [Prod.mk.injEq, Option.isNone_iff_eq_none] at hrun
    obtain ⟨hx₁, hx, hs⟩ := hrun
    have steps : ∀ {may : Op → ProcessManager → Prop}, (∀ l ∈ ls, ∀ op ∈ l, ∀ s, may op s) →
        may (.waitSemaphore 0) y₁.st → Reachable (BinaryHeap.scan _) may true y := fun hls hw =>
      .step (.step (Reach.steps .init (.of_forall hls) h₁) (fun op e => Option.some.inj e ▸ hw) h₂) (by simp [Legal]) h
    have hwait : (Op.waitSemaphore 0).Orderly y₁.st :=
      ⟨fun e => absurd e (by simp), fun _ e => absurd e (by simp), fun x hm => by rw [eq_of_stable hx₁ hm]; decide⟩
    have hbal : Reachable (BinaryHeap.scan _) Op.Balanced true y := steps (by simp [ls, Op.Balanced]) hwait.1
    have hord : Reachable (BinaryHeap.scan _) Op.Orderly true y :=
      steps (by simp [ls, Op.Orderly, Op.Balanced, Op.NonNegative, Op.Fits]) hwait
    obtain ⟨htotal, hdelete⟩ := (broadcast_complete _ true y hbal).2.2 hord hs 0 _ hx
    obtain ⟨y', hstep⟩ := htotal (by decide)
    exact ⟨y, hord, hx, y', hstep, (hdelete y' hstep).1⟩

end Citron
