import Citron.Process.States
import Citron.Process.Waiters

/-!
# What a step leaves alone

* `Reachable.queued_step`      a process gets into a queue only by its own `wait_semaphore`;
* `Reachable.untouched_step`   a process that waits still does, if the call does not touch it;
* `Reachable.stable_step`      the count and the queue of a semaphore after a step.
-/

namespace Citron
open Resumption

variable {H : Heap} {s : ProcessManager}

/-! ## queues -/

/-- only a `wait_semaphore` of its own puts a process into a queue -/
theorem Act.mem_queue_apply {a : Act} {sid : Sid} {pid : Pid} (h : (a.apply H s).QueuedOn sid pid) :
    s.QueuedOn sid pid ∨ a = .semWait sid ∧ pid = s.running := by
  have same : ∀ t : ProcessManager, t.stable = s.stable → t.QueuedOn sid pid → s.QueuedOn sid pid := by
    intro t ht hq
    unfold ProcessManager.QueuedOn at hq ⊢
    rwa [ht] at hq
  have set : ∀ (t : ProcessManager) (sid' : Sid) (x : Semaphore), t.stable = s.stable →
      (sid = sid' → pid ∈ x.queue → s.QueuedOn sid pid) → (t.setSemaphore sid' x).QueuedOn sid pid →
      s.QueuedOn sid pid := by
    intro t sid' x ht hx hq
    rw [queuedOn_setSemaphore] at hq
    split at hq
    · rename_i e
      exact hx e hq
    · exact same t ht hq
  cases a with
  | newSem count =>
    have hq : (s.setSemaphore s.currSid (Semaphore.new count)).QueuedOn sid pid := h
    exact .inl (set s s.currSid (Semaphore.new count) rfl (fun _ h => absurd h List.not_mem_nil) hq)
  | semWait sid' =>
    cases hx : s.stable sid' with
    | none =>
      rw [semWait_none hx] at h
      exact .inl h
    | some x =>
      by_cases hc : x.take.count < 0
      · rw [semWait_block hx hc] at h
        by_cases e : sid = sid' ∧ pid = s.running
        · exact .inr ⟨by rw [e.1], e.2⟩
        · refine .inl (set _ sid' _ (by simp) (fun he hm => ⟨x, he ▸ hx, ?_⟩) h)
          exact (List.mem_append.mp hm).resolve_right fun hm => e ⟨he, List.mem_singleton.mp hm⟩
      · rw [semWait_pass hx hc] at h
        exact .inl (set _ sid' x.take rfl (fun he hm => ⟨x, he ▸ hx, hm⟩) h)
  | semPost sid' =>
    cases hx : s.stable sid' with
    | none => rw [semPost_none hx] at h; exact .inl h
    | some x =>
      rw [semPost_some hx] at h
      exact .inl (set _ sid' x.post rfl (fun he hm => ⟨x, he ▸ hx, hm⟩) h)
  | semPop sid' =>
    cases hx : s.stable sid' with
    | none => rw [semPop_none hx] at h; exact .inl h
    | some x =>
      rw [semPop_some hx] at h
      exact .inl (set _ sid' _ rfl (fun he hm => ⟨x, he ▸ hx, List.mem_of_mem_tail hm⟩) h)
  | semFree sid' =>
    cases hx : s.stable sid' with
    | none => rw [semFree_none hx] at h; exact .inl h
    | some x =>
      rw [semFree_some hx] at h
      exact .inl (set _ sid' { x with state := .free } rfl (fun he hm => ⟨x, he ▸ hx, hm⟩) h)
  | wake q => exact .inl (same _ (wake_stable q) h)
  | wakeLater q => exact .inl (same _ (wakeLater_stable ..) h)
  | sleepers pids => exact .inl (same _ (wakeSleepers_stable pids) h)
  | _ => exact .inl (same _ rfl h)

theorem applyAll_queuedOn {sid : Sid} {pid : Pid} (acts : List Act) : ∀ {s : ProcessManager},
    (applyAll H acts s).QueuedOn sid pid → s.QueuedOn sid pid ∨ .semWait sid ∈ acts ∧ pid = s.running := by
  induction acts with
  | nil => exact fun h => .inl h
  | cons a acts ih =>
    intro s h
    rcases ih h with h | ⟨hm, e⟩
    · rcases Act.mem_queue_apply h with h | ⟨rfl, e⟩
      · exact .inl h
      · exact .inr ⟨List.mem_cons_self, e⟩
    · exact .inr ⟨List.mem_cons_of_mem a hm, e.trans (a.running_apply s)⟩

theorem Planned.semWaits {mask : Bool} {op : Op} {p : Plan} (h : Planned H s mask op p) {sid : Sid}
    (hm : Act.semWait sid ∈ p.acts) : op = .waitSemaphore sid := by
  cases h with
  | create priority doSetup => cases doSetup <;> exact absurd hm (by simp [Plan.acts])
  | semWait hx hc =>
    simp [Plan.acts] at hm
    rw [hm]
  | semPass hx hc =>
    simp [Plan.acts] at hm
    rw [hm]
  | semDelete hx hk => simp [Plan.acts, Plan.after, deferred, freeAll] at hm
  | waitExit hp hn => simp [Plan.acts, deferred] at hm
  | _ => exact absurd hm (by simp [Plan.acts, Plan.after, deferred])

/-! ## who is not touched -/

/-- the call may change the state of `pid`, if it waits; all other calls are as if they did -/
def Op.Touches (op : Op) (s : ProcessManager) (pid : Pid) : Prop :=
  match op with
  | .createProcess _ _ => False
  | .createKernelProcess _ => False
  | .createSemaphore _ => False
  | .schedule => False
  | .waitSemaphore _ => pid = s.running
  | .signalSemaphore _ => s.Queued pid
  | .ready q => pid = q
  | .ioWait q => pid = q
  | .ioSignal q => pid = q
  | .sleep q _ => pid = q
  | .wakeup => s.stateOf pid = some .sleep
  | _ => True

theorem applyAll_frozen {pid : Pid} (acts : List Act) : ∀ {s : ProcessManager},
    Along H (fun s a => ∀ st, ¬ a.Sets pid s st) s acts → (applyAll H acts s).stateOf pid = s.stateOf pid := by
  induction acts with
  | nil => exact fun _ => rfl
  | cons a acts ih =>
    intro s h
    refine (ih h.2).trans ?_
    rcases a.stateOf_apply (H := H) (s := s) pid with e | ⟨st, hset, -⟩
    · exact e
    · exact absurd hset (h.1 st)

theorem Planned.frozen {mask : Bool} {op : Op} {p : Plan} (h : Planned H s mask op p) (hs : Closed s) {pid : Pid}
    (hpid : (s.ptable pid).isSome) (ht : ¬ op.Touches s pid) :
    Along H (fun s a => ∀ st, ¬ a.Sets pid s st) s p.acts := by
  have hne : pid ≠ s.currPid := by
    rintro rfl
    rw [hs.fresh s.currPid (Nat.le_refl _)] at hpid
    cases hpid
  cases h with
  | create priority doSetup =>
    cases doSetup <;> simp [Plan.acts, Along, Act.Sets, Act.apply, hne]
  | createKernel priority => simp [Plan.acts, Along, Act.Sets, Act.apply, hne]
  | fail h => exact trivial
  | semWait hx hc => exact ⟨fun st hset => ht hset.1, trivial⟩
  | semPass hx hc => exact ⟨fun st hset => ht hset.1, trivial⟩
  | semPost hx hc => simp [Plan.acts, Along, Act.Sets]
  | @semWake sid x q rest p hx hc hq hp =>
    refine ⟨fun st hset => hset, fun st hset => ht ⟨sid, x, hx, ?_⟩, trivial⟩
    rw [hset.1, hq]
    exact List.mem_cons_self
  | semEmpty hx hc hq => trivial
  | newSem count => simp [Plan.acts, Along, Act.Sets]
  | schedule => trivial
  | ready hp => exact ⟨fun st hset => ht hset.1, trivial⟩
  | ioSignal hp => exact ⟨fun st hset => ht hset.1, trivial⟩
  | ioWait hp => exact ⟨fun st hset => ht hset.1, trivial⟩
  | sleep delay hp => exact ⟨fun st hset => ht hset.1, trivial⟩
  | noSleeper h => trivial
  | wakeup => exact ⟨fun st hset => hset, fun st hset => hset, fun st hset => ht hset.2.1, fun st hset => hset, trivial⟩
  | _ => exact absurd trivial ht

/-! ## semaphores -/

/-- the acts that leave the table of semaphores alone -/
def Act.offTable : Act → Bool
  | .newSem _ => false
  | .semWait _ => false
  | .semPost _ => false
  | .semPop _ => false
  | .semFree _ => false
  | _ => true

theorem Act.stable_apply {a : Act} (h : a.offTable = true) : (a.apply H s).stable = s.stable := by
  cases a with
  | wake q => exact wake_stable q
  | wakeLater q => exact wakeLater_stable ..
  | sleepers pids => exact wakeSleepers_stable pids
  | newSem count => cases h
  | semWait sid => cases h
  | semPost sid => cases h
  | semPop sid => cases h
  | semFree sid => cases h
  | _ => rfl

theorem applyAll_stable (acts : List Act) : ∀ {s : ProcessManager}, acts.all Act.offTable = true →
    (applyAll H acts s).stable = s.stable := by
  induction acts with
  | nil => exact fun _ => rfl
  | cons a acts ih =>
    intro s h
    rw [List.all_cons, Bool.and_eq_true] at h
    exact (ih h.2).trans (Act.stable_apply h.1)

/-- the call is of a semaphore -/
def Op.semaphoric : Op → Bool
  | .waitSemaphore _ => true
  | .signalSemaphore _ => true
  | .deleteSemaphore _ => true
  | _ => false

/-- a call that is not of a semaphore leaves those that exist alone -/
theorem Planned.stable {mask : Bool} {op : Op} {p : Plan} (h : Planned H s mask op p) (ho : op.semaphoric = false)
    {sid : Sid} (hsid : ∀ count, op = .createSemaphore count → sid ≠ s.currSid) :
    (applyAll H p.acts s).stable sid = s.stable sid := by
  have safe : ∀ {acts : List Act}, acts.all Act.offTable = true → (applyAll H acts s).stable sid = s.stable sid :=
    fun h => congrFun (applyAll_stable _ h) sid
  cases h with
  | create priority doSetup => cases doSetup <;> exact safe rfl
  | newSem count =>
    show Function.update s.stable s.currSid _ sid = _
    exact Function.update_of_ne (hsid count rfl) _ _
  | fail h => rfl
  | killSignal hp he => exact safe (by simp [Plan.acts, Plan.after, deferred, Act.offTable])
  | eventSignal he => exact safe (by simp [Plan.acts, deferred, Act.offTable])
  | waitExit hp hn => exact safe (by simp [Plan.acts, deferred, Act.offTable])
  | semWait hx hc => cases ho
  | semPass hx hc => cases ho
  | semPost hx hc => cases ho
  | semWake hx hc hq hp => cases ho
  | semEmpty hx hc hq => cases ho
  | semDelete hx hk => cases ho
  | semShort hx hk => cases ho
  | _ => exact safe rfl

theorem Act.currSid_apply (a : Act) (s : ProcessManager) : s.currSid ≤ (a.apply H s).currSid := by
  have hlater : ∀ (t : ProcessManager) q, (t.wakeLater H q).currSid = t.currSid := by
    intro t q
    rcases wakeLater_cases H t q with h | ⟨p, _, _, h⟩
    · rw [h]
    · rw [h]
      rfl
  cases a with
  | newSem count => exact Nat.le_succ _
  | semWait sid =>
    cases hx : s.stable sid with
    | none => exact Nat.le_of_eq (by rw [semWait_none hx])
    | some x =>
      by_cases hc : x.take.count < 0
      · rw [semWait_block hx hc]
        exact Nat.le_refl _
      · rw [semWait_pass hx hc]
        exact Nat.le_refl _
  | semPost sid =>
    cases hx : s.stable sid with
    | none => exact Nat.le_of_eq (by rw [semPost_none hx])
    | some x => rw [semPost_some hx]; exact Nat.le_refl _
  | semPop sid =>
    cases hx : s.stable sid with
    | none => exact Nat.le_of_eq (by rw [semPop_none hx])
    | some x => rw [semPop_some hx]; exact Nat.le_refl _
  | semFree sid =>
    cases hx : s.stable sid with
    | none => exact Nat.le_of_eq (by rw [semFree_none hx])
    | some x => rw [semFree_some hx]; exact Nat.le_refl _
  | wake q =>
    show s.currSid ≤ (s.wake H q).currSid
    unfold ProcessManager.wake
    split
    · split <;> exact Nat.le_refl _
    · exact Nat.le_refl _
  | wakeLater q => exact Nat.le_of_eq (hlater s q).symm
  | sleepers pids =>
    show s.currSid ≤ (s.wakeSleepers H pids).currSid
    induction pids generalizing s with
    | nil => exact Nat.le_refl _
    | cons q pids ih =>
      unfold ProcessManager.wakeSleepers
      split
      · exact Nat.le_trans (Nat.le_of_eq (hlater s q).symm) (ih _)
      · exact ih s
  | _ => exact Nat.le_refl _

theorem applyAll_currSid (acts : List Act) : ∀ (s : ProcessManager), s.currSid ≤ (applyAll H acts s).currSid := by
  induction acts with
  | nil => exact fun _ => Nat.le_refl _
  | cons a acts ih => exact fun s => Nat.le_trans (a.currSid_apply s) (ih _)

section
variable {may : Op → ProcessManager → Prop} {sie : Bool} {y y' : Sys ProcessManager ProcessError}

theorem Reachable.queued_step (hy : Reachable H may sie y) {l : Option Op}
    (h : y.step ProcessManager.running (Op.run H) l = some y') {sid : Sid} {pid : Pid}
    (hq : y'.st.QueuedOn sid pid) :
    y.st.QueuedOn sid pid ∨ l = some (.waitSemaphore sid) ∧ pid = y.st.running := by
  have same : ∀ {t t' : ProcessManager}, t'.stable = t.stable → t'.QueuedOn sid pid → t.QueuedOn sid pid := by
    intro t t' ht hq
    unfold ProcessManager.QueuedOn at hq ⊢
    rwa [ht] at hq
  obtain ⟨rfl, -, ht⟩ | ⟨op, p, rfl, hp, ht⟩ := Reachable.step_cases hy h
  · exact .inl (same ht.stable hq)
  · rcases applyAll_queuedOn p.acts (same ht.stable hq) with hq | ⟨hm, e⟩
    · exact .inl (same (op.entry_stable y.st) hq)
    · refine .inr ⟨by rw [hp.semWaits hm], e.trans ?_⟩
      exact (op.entry_stateOf y.st pid).2.2

/-- a process that waits still does, if the call does not touch it -/
theorem Reachable.untouched_step (hy : Reachable H may sie y) {l : Option Op}
    (h : y.step ProcessManager.running (Op.run H) l = some y') {pid : Pid} {st : State} (hb : st.blocked = true)
    (hst : y.st.stateOf pid = some st) (ht : ∀ op, l = some op → ¬ op.Touches y.st pid) :
    y'.st.stateOf pid = some st := by
  obtain ⟨rfl, -, htail⟩ | ⟨op, p, rfl, hp, htail⟩ := Reachable.step_cases hy h
  · exact (htail.stateOf_of_not_runnable (not_runnable_of_blocked hb hst)).trans hst
  · have htouch : ¬ op.Touches (op.entry y.st) pid := by
      have := ht op rfl
      unfold Op.entry
      split
      · cases op <;> exact this
      · exact this
    obtain ⟨hi, -, -⟩ := op.inv_entry (Reachable.kept hy).inv.1 (Reachable.kept hy).inv.2
    have hst' : (op.entry y.st).stateOf pid = some st := (op.entry_stateOf y.st pid).1.trans hst
    have hsome : ((op.entry y.st).ptable pid).isSome := by
      obtain ⟨p, hp, -⟩ := Option.map_eq_some_iff.mp hst'
      rw [hp]
      rfl
    have hacts := (applyAll_frozen p.acts (hp.frozen hi.toClosed hsome htouch)).trans hst'
    exact (htail.stateOf_of_not_runnable (not_runnable_of_blocked hb hacts)).trans hacts

theorem Reachable.stable_step (hy : Reachable H may sie y) {l : Option Op}
    (h : y.step ProcessManager.running (Op.run H) l = some y') (hl : ∀ op, l = some op → op.semaphoric = false)
    {sid : Sid} (hsid : sid ≠ y.st.currSid) : y'.st.stable sid = y.st.stable sid := by
  obtain ⟨rfl, -, ht⟩ | ⟨op, p, rfl, hp, ht⟩ := Reachable.step_cases hy h
  · rw [ht.stable]
  · have hentry : (op.entry y.st).currSid = y.st.currSid := by
      unfold Op.entry
      split <;> rfl
    rw [ht.stable, hp.stable (hl op rfl) (fun _ _ => by rw [hentry]; exact hsid), op.entry_stable]

theorem Reachable.wait_step (hy : Reachable H may sie y) {sid : Sid} {x : Semaphore}
    (hx : y.st.stable sid = some x) (h : y.step ProcessManager.running (Op.run H) (some (.waitSemaphore sid)) = some y') :
    ∃ x', y'.st.stable sid = some x' ∧ x'.count = x.count - 1 := by
  obtain ⟨e, -⟩ | ⟨op, p, e, hp, ht⟩ := Reachable.step_cases hy h
  · cases e
  · cases e
    rw [ht.stable]
    have hx' : y.st.masked.stable sid = some x := hx
    cases hp with
    | fail h => exact absurd (h.1.symm.trans hx') (by simp)
    | semWait hz hc =>
      cases hz.symm.trans hx'
      refine ⟨{ x.take with queue := x.queue ++ [y.st.running] }, ?_, rfl⟩
      show ((Act.semWait sid).apply H y.st.masked).stable sid = _
      rw [semWait_block hx' hc]
      exact Function.update_self ..
    | semPass hz hc =>
      cases hz.symm.trans hx'
      refine ⟨x.take, ?_, rfl⟩
      show ((Act.semWait sid).apply H y.st.masked).stable sid = _
      rw [semWait_pass hx' hc]
      exact Function.update_self ..

theorem Reachable.signal_step (hy : Reachable H may sie y) {sid : Sid} {x : Semaphore}
    (hx : y.st.stable sid = some x)
    (h : y.step ProcessManager.running (Op.run H) (some (.signalSemaphore sid)) = some y') :
    ∃ x', y'.st.stable sid = some x' ∧ x'.count = x.count + 1 := by
  obtain ⟨e, -⟩ | ⟨op, p, e, hp, ht⟩ := Reachable.step_cases hy h
  · cases e
  · cases e
    rw [ht.stable]
    have hx' : y.st.masked.stable sid = some x := hx
    cases hp with
    | fail h => exact absurd (h.1.symm.trans hx') (by simp)
    | semPost hz hc =>
      cases hz.symm.trans hx'
      refine ⟨x.post, ?_, rfl⟩
      show ((Act.semPost sid).apply H y.st.masked).stable sid = _
      rw [semPost_some hx']
      exact Function.update_self ..
    | @semWake _ z q rest p hz hc hq hp =>
      cases hz.symm.trans hx'
      refine ⟨{ x.post with queue := x.queue.tail }, ?_, rfl⟩
      show (((Act.semPop sid).apply H y.st.masked).wake H q).stable sid = _
      rw [wake_stable, semPop_some hx']
      exact Function.update_self ..
    | semEmpty hz hc hq =>
      -- a call that panics is no step
      obtain ⟨k, e, -⟩ | ⟨op, e, -, hset⟩ := Sys.step_cases h
      · cases e
      · cases e
        cases hz.symm.trans hx'
        have hpanic : Op.run H (.signalSemaphore sid) y.st = .panic := by
          refine (Op.run_eq_body H (Reachable.kept hy).inv.1.toClosed (.signalSemaphore sid)).trans ?_
          show ((Op.signalSemaphore sid).body H y.st.masked y.st.sie).run H (schedule H) y.st.masked = _
          simp only [Op.body, hx', hc, if_true, hq]
          rfl
        rw [hpanic] at hset
        cases hset

theorem Reachable.currSid_step (hy : Reachable H may sie y) {l : Option Op}
    (h : y.step ProcessManager.running (Op.run H) l = some y') : y.st.currSid ≤ y'.st.currSid := by
  obtain ⟨rfl, -, ht⟩ | ⟨op, p, rfl, hp, ht⟩ := Reachable.step_cases hy h
  · exact Nat.le_of_eq ht.currSid.symm
  · have hentry : (op.entry y.st).currSid = y.st.currSid := by
      unfold Op.entry
      split <;> rfl
    rw [ht.currSid, ← hentry]
    exact applyAll_currSid p.acts _

/-- a semaphore that was just created -/
theorem Reachable.create_step (hy : Reachable H may sie y) {count : Int64}
    (h : y.step ProcessManager.running (Op.run H) (some (.createSemaphore count)) = some y') :
    y'.st.stable y.st.currSid = some (Semaphore.new count) ∧ y.st.currSid < y'.st.currSid := by
  obtain ⟨e, -⟩ | ⟨op, p, e, hp, ht⟩ := Reachable.step_cases hy h
  · cases e
  · cases e
    rw [ht.stable, ht.currSid]
    cases hp with
    | fail h => exact h.elim
    | newSem count => exact ⟨Function.update_self .., Nat.lt_succ_self _⟩

end

end Citron
