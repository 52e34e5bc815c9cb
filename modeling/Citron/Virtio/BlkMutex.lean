import Citron.Virtio.BlkRun
import Citron.Process.Frame

/-!
# The semaphore of the block driver

`block_op` waits for the semaphore once and signals it once, and `pending` signals it again.  So the count is
one, and one more for every signal of a `pending`, and one less for every process between its wait and its
signal.

* `Accounted`          the count, in every run;
* `Waiting`            the queue, while `io_wait` and `io_signal` spare the processes in it;
* `mutex_until_signal` what follows for the mutex;
* `mutex_broken`       two processes between their wait and their signal.
-/

namespace Citron.Virtio
open Resumption Trace

/-- after the call of `wait_semaphore` and before the first `signal_semaphore` -/
def BlkPc.inside : BlkPc → Bool
  | .entering _ => true
  | .taken _ => true
  | .built _ => true
  | _ => false

namespace BlkRun

/-- the semaphore of the driver -/
def semaphore (s : BlkRun) : Option Semaphore := s.sid.bind s.sys.st.stable

/-- `p` is in the queue of the semaphore -/
def queued (s : BlkRun) (p : Pid) : Bool := s.semaphore.any fun x => x.queue.contains p

/-- `p` is between the `wait_semaphore` and the first `signal_semaphore` -/
def between (s : BlkRun) (p : Pid) : Bool := (s.pc p).inside && !s.queued p

/-- the count stays within `isize` -/
def bounded (s : BlkRun) : BlkAction → Bool
  | .enter _ => s.semaphore.all fun x => x.count != Int64.minValue
  | .leave => s.semaphore.all fun x => x.count != Int64.maxValue
  | .signal => s.semaphore.all fun x => x.count != Int64.maxValue
  | _ => true

/-- no `pending` comes to its `signal_semaphore`, and no `io_wait` or `io_signal` hits a process that waits for
the semaphore -/
def unsignalled (s : BlkRun) : BlkAction → Bool
  | .signal => false
  | .ioWait => !s.queued s.blk.pid
  | .pending => !s.queued s.blk.pid
  | _ => true

variable {H : Heap} {sie : Bool} {s s' : BlkRun}

@[simp] theorem goto_pc (pc : BlkPc) (p : Pid) : (s.goto pc).pc p = if p = s.me then pc else s.pc p := by
  unfold goto
  exact Function.update_apply ..

/-! ## the count -/

structure Accounted (H : Heap) (sie : Bool) (s : BlkRun) : Prop where
  reach : Reachable H Op.KeepsCount sie s.sys
  nodup : s.holders.Nodup
  held : ∀ p, p ∈ s.holders ↔ (s.pc p).inside = true
  unborn : s.sid = none → s.holders = [] ∧ s.signals = 0
  count : ∀ sid, s.sid = some sid → sid < s.sys.st.currSid ∧
    ∃ x, s.sys.st.stable sid = some x ∧ x.count.toInt = 1 + s.signals - s.holders.length

theorem accounted_init (statusAddr : Nat) (headers : Nat → VirtioBlkRequest) :
    Accounted H sie (init H sie statusAddr headers) :=
  ⟨.init, List.nodup_nil, fun p => by simp [init, BlkPc.inside], fun _ => ⟨rfl, rfl⟩, nofun⟩

/-- a step that has nothing to do with the semaphore -/
theorem Accounted.keep (hs : Accounted H sie s) (hreach : Reachable H Op.KeepsCount sie s'.sys)
    (hsid : s'.sid = s.sid) (hh : s'.holders = s.holders) (hsig : s'.signals = s.signals)
    (hpc : ∀ p, (s'.pc p).inside = (s.pc p).inside)
    (hst : ∀ sid, sid < s.sys.st.currSid → sid < s'.sys.st.currSid ∧ s'.sys.st.stable sid = s.sys.st.stable sid) :
    Accounted H sie s' := by
  refine ⟨hreach, hh ▸ hs.nodup, fun p => ?_, fun e => ?_, fun sid e => ?_⟩
  · rw [hh, hpc]
    exact hs.held p
  · rw [hh, hsig]
    exact hs.unborn (hsid ▸ e)
  · obtain ⟨hlt, x, hx, hc⟩ := hs.count sid (hsid ▸ e)
    obtain ⟨hlt', hst⟩ := hst sid hlt
    refine ⟨hlt', x, hst.trans hx, ?_⟩
    rw [hh, hsig]
    exact hc

theorem inside_goto {pc : BlkPc} (h : pc.inside = s.here.inside) (p : Pid) :
    ((s.goto pc).pc p).inside = (s.pc p).inside := by
  rw [goto_pc]
  split
  · rename_i e
    rw [h, e]
    rfl
  · rfl

/-- a call that is not of a semaphore -/
theorem Accounted.off (hs : Accounted H sie s) {l : Option Op} {sys : Sys ProcessManager ProcessError}
    (h : s.call H l = some sys) (hl : ∀ op, l = some op → op.semaphoric = false) :
    ∀ sid, sid < s.sys.st.currSid → sid < sys.st.currSid ∧ sys.st.stable sid = s.sys.st.stable sid :=
  fun _ hlt => ⟨Nat.lt_of_lt_of_le hlt (Reachable.currSid_step hs.reach h),
    Reachable.stable_step hs.reach h hl (Nat.ne_of_lt hlt)⟩

theorem keepsCount_of_off {op : Op} {t : ProcessManager} (h : op.semaphoric = false)
    (hn : ∀ count, op = .createSemaphore count → 0 ≤ count) : op.KeepsCount t := by
  refine ⟨hn, ?_⟩
  cases op with
  | waitSemaphore sid => cases h
  | signalSemaphore sid => cases h
  | _ => exact trivial

theorem outside_off {l : Option Op} (h : s.outside l = true) (op : Op) (e : l = some op) :
    op.semaphoric = false ∧ ∀ count, op = .createSemaphore count → 0 ≤ count := by
  subst e
  cases op with
  | createSemaphore count =>
    refine ⟨rfl, fun c e => ?_⟩
    cases e
    exact of_decide_eq_true (Bool.and_eq_true_iff.mp h).2
  | waitSemaphore sid => cases h
  | signalSemaphore sid => cases h
  | deleteSemaphore sid => cases h
  | _ => exact ⟨rfl, nofun⟩

/-- a bound on the count of the driver's semaphore -/
theorem count_ne {v : Int64} {sid : Sid} {x : Semaphore} (hsid : s.sid = some sid)
    (hx : s.sys.st.stable sid = some x) (hok : (s.semaphore.all fun x => x.count != v) = true) : x.count ≠ v := by
  simp only [semaphore, hsid, Option.bind_some, hx] at hok
  exact bne_iff_ne.mp hok

/-- the calls of the driver keep the counts within `isize` -/
theorem Accounted.reach_step (hs : Accounted H sie s) {a : BlkAction} (hok : s.bounded a = true)
    (h : Stepped H s a s') : Reachable H Op.KeepsCount sie s'.sys := by
  refine h.reach hs.reach fun op e => ?_
  cases h with
  | new turn hsid h =>
    cases e
    exact keepsCount_of_off rfl fun count e => by cases e; decide
  | enter turn here hsid h =>
    simp only [label, hsid, Option.map_some, Option.some.injEq] at e
    subst e
    refine ⟨fun _ e => ?_, fun x hx => count_ne hsid hx hok⟩
    cases e
  | leave turn here hsid h =>
    simp only [label, hsid, Option.map_some, Option.some.injEq] at e
    subst e
    refine ⟨fun _ e => ?_, fun x hx => count_ne hsid hx hok⟩
    cases e
  | signal owed hsid h =>
    simp only [label, hsid, Option.map_some, Option.some.injEq] at e
    subst e
    refine ⟨fun _ e => ?_, fun x hx => count_ne hsid hx hok⟩
    cases e
  | ioWait turn here h =>
    cases e
    exact keepsCount_of_off rfl fun count e => by cases e
  | schedule turn here h =>
    cases e
    exact keepsCount_of_off rfl fun count e => by cases e
  | pending turn hsid hp h =>
    cases e
    exact keepsCount_of_off rfl fun count e => by cases e
  | kernel ok h =>
    simp only [label, Option.some.injEq] at e
    obtain ⟨hoff, hn⟩ := outside_off ok op e
    exact keepsCount_of_off hoff hn
  | _ => cases e

theorem Accounted.step (hs : Accounted H sie s) {a : BlkAction} (hok : s.bounded a = true)
    (h : Stepped H s a s') : Accounted H sie s' := by
  have hreach := hs.reach_step hok h
  have hin : s.me ∈ s.holders ↔ s.here.inside = true := hs.held s.me
  have stay : ∀ sid, sid < s.sys.st.currSid → sid < s.sys.st.currSid ∧ s.sys.st.stable sid = s.sys.st.stable sid :=
    fun _ hlt => ⟨hlt, rfl⟩
  cases h with
  | new turn hsid h =>
    obtain ⟨hh, hsig⟩ := hs.unborn hsid
    obtain ⟨hx, hlt⟩ := Reachable.create_step hs.reach h
    refine ⟨hreach, hs.nodup, hs.held, nofun, fun sid e => ?_⟩
    cases e
    refine ⟨hlt, _, hx, ?_⟩
    show (1 : Int64).toInt = 1 + (s.signals : Int) - s.holders.length
    rw [hh, hsig]
    rfl
  | @enter r sid sys turn here hsid h =>
    obtain ⟨hlt, x, hx, hc⟩ := hs.count sid hsid
    obtain ⟨x', hx', hc'⟩ := Reachable.wait_step hs.reach hx h
    have hne : x.count ≠ Int64.minValue := count_ne hsid hx hok
    refine ⟨hreach, List.nodup_cons.mpr ⟨fun hm => ?_, hs.nodup⟩, fun p => ?_, fun e => ?_, fun sid' e => ?_⟩
    · rw [hin, here] at hm
      cases hm
    · show p ∈ s.me :: s.holders ↔ ((s.goto (.entering r)).pc p).inside = true
      rw [goto_pc, List.mem_cons]
      split
      · rename_i e
        exact iff_of_true (.inl e) rfl
      · rename_i e
        exact (or_iff_right e).trans (hs.held p)
    · cases hsid.symm.trans e
    · cases hsid.symm.trans e
      refine ⟨Nat.lt_of_lt_of_le hlt (Reachable.currSid_step hs.reach h), x', hx', ?_⟩
      show x'.count.toInt = 1 + (s.signals : Int) - ((s.me :: s.holders).length : Nat)
      rw [hc', toInt_take hne, hc, List.length_cons]
      push_cast
      omega
  | take turn runs here => exact hs.keep hreach rfl rfl rfl (inside_goto (by rw [here]; rfl)) stay
  | build turn here h => exact hs.keep hreach rfl rfl rfl (inside_goto (by rw [here]; rfl)) stay
  | @leave indexes sid sys turn here hsid h =>
    obtain ⟨hlt, x, hx, hc⟩ := hs.count sid hsid
    obtain ⟨x', hx', hc'⟩ := Reachable.signal_step hs.reach hx h
    have hne : x.count ≠ Int64.maxValue := count_ne hsid hx hok
    have hme : s.me ∈ s.holders := hin.mpr (by rw [here]; rfl)
    refine ⟨hreach, hs.nodup.erase _, fun p => ?_, fun e => ?_, fun sid' e => ?_⟩
    · show p ∈ s.holders.erase s.me ↔ ((s.goto (.left indexes)).pc p).inside = true
      rw [goto_pc, hs.nodup.mem_erase_iff]
      split
      · rename_i e
        exact iff_of_false (fun h => h.1 e) Bool.false_ne_true
      · rename_i e
        exact (and_iff_right e).trans (hs.held p)
    · cases hsid.symm.trans e
    · cases hsid.symm.trans e
      refine ⟨Nat.lt_of_lt_of_le hlt (Reachable.currSid_step hs.reach h), x', hx', ?_⟩
      show x'.count.toInt = 1 + (s.signals : Int) - ((s.holders.erase s.me).length : Nat)
      have hpos := List.length_pos_of_mem hme
      rw [hc', toInt_post_of_ne hne, hc, List.length_erase_of_mem hme]
      omega
  | publish turn here => exact hs.keep hreach rfl rfl rfl (inside_goto (by rw [here]; rfl)) stay
  | save turn here => exact hs.keep hreach rfl rfl rfl (inside_goto (by rw [here]; rfl)) stay
  | ioWait turn here h =>
    exact hs.keep hreach rfl rfl rfl (inside_goto (by rw [here]; rfl)) (hs.off h (by rintro op ⟨⟩; rfl))
  | schedule turn here h =>
    exact hs.keep hreach rfl rfl rfl (inside_goto (by rw [here]; rfl)) (hs.off h (by rintro op ⟨⟩; rfl))
  | ret turn runs here => exact hs.keep hreach rfl rfl rfl (inside_goto (by rw [here]; rfl)) stay
  | device h => exact hs.keep hreach rfl rfl rfl (fun _ => rfl) stay
  | pending turn hsid hp h =>
    exact hs.keep hreach rfl rfl rfl (fun _ => rfl) (hs.off h (by rintro op ⟨⟩; rfl))
  | @signal sid sys owed hsid h =>
    obtain ⟨hlt, x, hx, hc⟩ := hs.count sid hsid
    obtain ⟨x', hx', hc'⟩ := Reachable.signal_step hs.reach hx h
    have hne : x.count ≠ Int64.maxValue := count_ne hsid hx hok
    refine ⟨hreach, hs.nodup, hs.held, fun e => ?_, fun sid' e => ?_⟩
    · cases hsid.symm.trans e
    · cases hsid.symm.trans e
      refine ⟨Nat.lt_of_lt_of_le hlt (Reachable.currSid_step hs.reach h), x', hx', ?_⟩
      show x'.count.toInt = 1 + ((s.signals + 1 : Nat) : Int) - s.holders.length
      rw [hc', toInt_post_of_ne hne, hc]
      push_cast
      omega
  | kernel ok h => exact hs.keep hreach rfl rfl rfl (fun _ => rfl) (hs.off h fun op e => (outside_off ok op e).1)

/-! ## the queue -/

structure Waiting (H : Heap) (sie : Bool) (s : BlkRun) : Prop where
  reach : Reachable H Op.LeavesQueues sie s.sys
  entered : ∀ sid p, s.sys.st.QueuedOn sid p → s.sid = some sid ∧ ∃ r, s.pc p = .entering r

theorem waiting_init (statusAddr : Nat) (headers : Nat → VirtioBlkRequest) :
    Waiting H sie (init H sie statusAddr headers) := by
  refine ⟨.init, fun sid p ⟨x, hx, _⟩ => ?_⟩
  have hnone : (ProcessManager.booted H sie).stable sid = none := rfl
  cases hnone.symm.trans hx

theorem Waiting.not_queued (hs : Waiting H sie s) {p : Pid} (hp : ∀ r, s.pc p ≠ .entering r) :
    ¬ s.sys.st.Queued p := by
  intro ⟨sid, hq⟩
  obtain ⟨-, r, e⟩ := hs.entered sid p hq
  exact hp r e

theorem Waiting.not_queued_of (hs : Waiting H sie s) {p : Pid} (hp : (!s.queued p) = true) :
    ¬ s.sys.st.Queued p := by
  intro ⟨sid, hq⟩
  obtain ⟨x, hx, hm⟩ := hq
  have hsid := (hs.entered sid p ⟨x, hx, hm⟩).1
  simp [queued, semaphore, hsid, hx, hm] at hp

/-- a call that wakes or blocks only processes that are in no queue -/
theorem leavesQueues_of {op : Op} {t : ProcessManager}
    (h : ∀ p, t.Queued p → (op.Wakes t p → t.stateOf p ≠ some .semaWait) ∧ ¬ op.Blocks t p) :
    op.LeavesQueues t := by
  rintro ⟨p, hq, ⟨hw, hst⟩ | ⟨hb, -⟩⟩
  · exact (h p hq).1 hw hst
  · exact (h p hq).2 hb

/-- `io_wait` and `io_signal` leave the processes in the queue alone -/
structure Spares (s : BlkRun) (a : BlkAction) : Prop where
  ioWait : a = .ioWait → ¬ s.sys.st.Queued s.blk.pid
  ioSignal : a = .pending → s.sys.st.Queued s.blk.pid → s.sys.st.stateOf s.blk.pid ≠ some .semaWait

/-- then all calls do -/
theorem Waiting.leaves (hs : Waiting H sie s) {a : BlkAction} (hok : s.Spares a) (h : Stepped H s a s') {op : Op}
    (e : s.label a = some (some op)) : op.LeavesQueues s.sys.st := by
  refine leavesQueues_of fun p hq => ?_
  have hne : ∀ {q : Pid}, ¬ s.sys.st.Queued q → q ≠ p := fun hn e => hn (e ▸ hq)
  cases h with
  | new turn hsid h =>
    cases e
    exact ⟨False.elim, id⟩
  | enter turn here hsid h =>
    simp only [label, hsid, Option.map_some, Option.some.injEq] at e
    subst e
    exact ⟨False.elim, fun hb => hne (hs.not_queued fun r e => by cases here.symm.trans e) hb.1⟩
  | leave turn here hsid h =>
    simp only [label, hsid, Option.map_some, Option.some.injEq] at e
    subst e
    exact ⟨False.elim, id⟩
  | signal owed hsid h =>
    simp only [label, hsid, Option.map_some, Option.some.injEq] at e
    subst e
    exact ⟨False.elim, id⟩
  | ioWait turn here h =>
    cases e
    exact ⟨False.elim, hne (hok.ioWait rfl)⟩
  | schedule turn here h =>
    cases e
    exact ⟨False.elim, id⟩
  | pending turn hsid hp h =>
    cases e
    refine ⟨?_, id⟩
    rintro rfl
    exact hok.ioSignal rfl hq
  | kernel ok h =>
    simp only [label, Option.some.injEq] at e
    subst e
    cases op with
    | ready q =>
      have hidle : s.pc q = .idle := beq_iff_eq.mp (Bool.and_eq_true_iff.mp ok).2
      exact ⟨fun e => absurd e (hne (hs.not_queued fun r e => by cases hidle.symm.trans e)), id⟩
    | sleep q delay =>
      have hidle : s.pc q = .idle := beq_iff_eq.mp (Bool.and_eq_true_iff.mp ok).2
      exact ⟨False.elim, hne (hs.not_queued fun r e => by cases hidle.symm.trans e)⟩
    | schedule => exact ⟨False.elim, id⟩
    | wakeup => exact ⟨False.elim, id⟩
    | createProcess priority doSetup => exact ⟨False.elim, id⟩
    | createKernelProcess priority => exact ⟨False.elim, id⟩
    | createSemaphore count => exact ⟨False.elim, id⟩
    | _ => cases ok
  | _ => cases e

/-- who was in the queue before the step, or has just called `wait_semaphore` -/
theorem Waiting.queued_before (hs : Waiting H sie s) {a : BlkAction} (h : Stepped H s a s') {sid : Sid} {p : Pid}
    (hq : s'.sys.st.QueuedOn sid p) :
    s.sys.st.QueuedOn sid p ∨ s.label a = some (some (.waitSemaphore sid)) ∧ p = s.me := by
  rcases h.sys_cases with ⟨-, e⟩ | ⟨l, hl, hcall⟩
  · exact .inl (e ▸ hq)
  · rcases Reachable.queued_step hs.reach hcall hq with hq | ⟨rfl, e⟩
    · exact .inl hq
    · exact .inr ⟨hl, e⟩

theorem Waiting.step (hs : Waiting H sie s) {a : BlkAction} (hok : s.Spares a) (h : Stepped H s a s') :
    Waiting H sie s' := by
  have hreach := h.reach hs.reach fun op e => hs.leaves hok h e
  have hbefore : ∀ sid p, s'.sys.st.QueuedOn sid p →
      s.sys.st.QueuedOn sid p ∨ s.label a = some (some (.waitSemaphore sid)) ∧ p = s.me :=
    fun _ _ hq => hs.queued_before h hq
  -- a step of somebody who is in no queue, after which the others are where they were
  have move : ∀ pc, (∀ r, s.here ≠ .entering r) → ∀ sid p, s.sys.st.QueuedOn sid p →
      s.sid = some sid ∧ ∃ r, (s.goto pc).pc p = .entering r := by
    intro pc hhere sid p hq
    obtain ⟨hsid, r, e⟩ := hs.entered sid p hq
    refine ⟨hsid, r, ?_⟩
    rw [goto_pc, if_neg]
    · exact e
    · rintro rfl
      exact hhere r e
  cases h with
  | new turn hsid h =>
    refine ⟨hreach, fun sid p hq => ?_⟩
    rcases hbefore sid p hq with hq | ⟨e, -⟩
    · cases hsid.symm.trans (hs.entered sid p hq).1
    · cases e
  | @enter r sid sys turn here hsid h =>
    refine ⟨hreach, fun sid' p hq => ?_⟩
    rcases hbefore sid' p hq with hq | ⟨e, rfl⟩
    · exact move _ (fun r e => by cases here.symm.trans e) sid' p hq
    · simp only [label, hsid, Option.map_some, Option.some.injEq, Op.waitSemaphore.injEq] at e
      refine ⟨e ▸ hsid, r, ?_⟩
      show (s.goto (.entering r)).pc s.me = _
      rw [goto_pc, if_pos rfl]
  | @take r turn runs here =>
    refine ⟨hreach, fun sid p hq => ?_⟩
    obtain ⟨hsid, r', e⟩ := hs.entered sid p hq
    refine ⟨hsid, r', ?_⟩
    show (s.goto (.taken r)).pc p = _
    rw [goto_pc, if_neg]
    · exact e
    · -- who goes on is `Running`, and those in the queue are not
      rintro rfl
      exact (Reachable.parked hs.reach).not_runnable ⟨sid, hq⟩ (.inl runs)
  | build turn here h => exact ⟨hreach, move _ fun r e => by cases here.symm.trans e⟩
  | leave turn here hsid h =>
    refine ⟨hreach, fun sid p hq => ?_⟩
    rcases hbefore sid p hq with hq | ⟨e, -⟩
    · exact move _ (fun r e => by cases here.symm.trans e) sid p hq
    · simp [label, hsid] at e
  | publish turn here => exact ⟨hreach, move _ fun r e => by cases here.symm.trans e⟩
  | save turn here => exact ⟨hreach, move _ fun r e => by cases here.symm.trans e⟩
  | ioWait turn here h =>
    refine ⟨hreach, fun sid p hq => ?_⟩
    rcases hbefore sid p hq with hq | ⟨e, -⟩
    · exact move _ (fun r e => by cases here.symm.trans e) sid p hq
    · cases e
  | schedule turn here h =>
    refine ⟨hreach, fun sid p hq => ?_⟩
    rcases hbefore sid p hq with hq | ⟨e, -⟩
    · exact move _ (fun r e => by cases here.symm.trans e) sid p hq
    · cases e
  | ret turn runs here => exact ⟨hreach, move _ fun r e => by cases here.symm.trans e⟩
  | device h => exact ⟨hreach, hs.entered⟩
  | pending turn hsid hp h =>
    refine ⟨hreach, fun sid p hq => ?_⟩
    rcases hbefore sid p hq with hq | ⟨e, -⟩
    · exact hs.entered sid p hq
    · cases e
  | signal owed hsid h =>
    refine ⟨hreach, fun sid p hq => ?_⟩
    rcases hbefore sid p hq with hq | ⟨e, -⟩
    · exact hs.entered sid p hq
    · simp [label, hsid] at e
  | kernel ok h =>
    refine ⟨hreach, fun sid p hq => ?_⟩
    rcases hbefore sid p hq with hq | ⟨e, -⟩
    · exact hs.entered sid p hq
    · simp only [label, Option.some.injEq] at e
      subst e
      cases ok

/-! ## no signal of a `pending` -/

structure Exclusive (H : Heap) (sie : Bool) (s : BlkRun) : Prop extends Waiting H sie s where
  silent : s.signals = 0

theorem Exclusive.step (hs : Exclusive H sie s) {a : BlkAction} (hok : s.unsignalled a = true)
    (h : Stepped H s a s') : Exclusive H sie s' := by
  have hspares : s.Spares a := by
    refine ⟨?_, ?_⟩
    · rintro rfl
      exact hs.not_queued_of hok
    · rintro rfl hq
      exact absurd hq (hs.not_queued_of hok)
  refine ⟨hs.toWaiting.step hspares h, ?_⟩
  cases h with
  | signal owed hsid h => cases hok
  | _ => exact hs.silent

/-! ## the mutex -/

/-- all but one of those that hold the semaphore are in its queue -/
theorem between_unique (ha : Accounted H sie s) (he : Exclusive H sie s) {p q : Pid} (hp : s.between p = true)
    (hq : s.between q = true) : p = q := by
  obtain ⟨hp, hp'⟩ := Bool.and_eq_true_iff.mp hp
  obtain ⟨hq, hq'⟩ := Bool.and_eq_true_iff.mp hq
  have hp := (ha.held p).mpr hp
  have hq := (ha.held q).mpr hq
  cases hsid : s.sid with
  | none =>
    rw [(ha.unborn hsid).1] at hp
    exact absurd hp List.not_mem_nil
  | some sid =>
    obtain ⟨-, x, hx, hc⟩ := ha.count sid hsid
    have hlen := Reachable.counted ha.reach sid x hx
    have hsub : x.queue ⊆ s.holders := by
      intro z hz
      obtain ⟨-, r, e⟩ := he.entered sid z ⟨x, hx, hz⟩
      exact (ha.held z).mpr (by rw [e]; rfl)
    have hnot : ∀ z, (!s.queued z) = true → z ∉ x.queue := by
      intro z hz hm
      exact he.not_queued_of hz ⟨sid, x, hx, hm⟩
    by_contra hne
    have hnd : (p :: q :: x.queue).Nodup := by
      refine List.nodup_cons.mpr ⟨?_, List.nodup_cons.mpr ⟨hnot q hq', (Reachable.parked he.reach).nodup sid x hx⟩⟩
      rw [List.mem_cons, not_or]
      exact ⟨hne, hnot p hp'⟩
    have hle := (List.subperm_of_subset hnd (List.cons_subset.mpr ⟨hp, List.cons_subset.mpr ⟨hq, hsub⟩⟩)).length_le
    rw [he.silent] at hc
    simp only [List.length_cons] at hle
    omega

theorem le_one_iff {c : Int64} : c ≤ 1 ↔ c.toInt ≤ 1 := by
  rw [Int64.le_iff_toInt_le, Int64.toInt_one]

theorem Accounted.semaphore (hs : Accounted H sie s) {x : Semaphore} (hx : s.semaphore = some x) :
    x.count.toInt = 1 + s.signals - s.holders.length := by
  obtain ⟨sid, hsid, hx⟩ := Option.bind_eq_some_iff.mp hx
  obtain ⟨-, x', hx', hc⟩ := hs.count sid hsid
  cases hx'.symm.trans hx
  exact hc

/-- **The semaphore is a mutex as long as no `pending` comes to its signal.**  Then the count is at most one and
at most one process is between its wait and its signal.  After a signal of a `pending` the count is above one as
soon as no process holds the semaphore. -/
theorem mutex_until_signal (H : Heap) (sie : Bool) (statusAddr : Nat) (headers : Nat → VirtioBlkRequest)
    (actions : List BlkAction) (s : BlkRun)
    (hok : Throughout (BlkRun.step H) (fun s a => s.bounded a = true) actions (init H sie statusAddr headers))
    (hrun : run (BlkRun.step H) actions (init H sie statusAddr headers) = some s) :
    (Throughout (BlkRun.step H) (fun s a => s.unsignalled a = true) actions (init H sie statusAddr headers) →
      (∀ x, s.semaphore = some x → x.count ≤ 1) ∧ ∀ p q, s.between p = true → s.between q = true → p = q) ∧
    ∀ x, s.semaphore = some x → s.holders = [] → (x.count ≤ 1 ↔ s.signals = 0) := by
  have ha := invariant _ (Accounted H sie) (fun _ _ _ hs hok h => hs.step hok (step_cases h)) actions
    (accounted_init statusAddr headers) hok hrun
  refine ⟨fun hun => ?_, fun x hx hh => ?_⟩
  · have he := invariant _ (Exclusive H sie) (fun _ _ _ hs hok h => hs.step hok (step_cases h)) actions
      ⟨waiting_init statusAddr headers, rfl⟩ hun hrun
    refine ⟨fun x hx => le_one_iff.mpr ?_, fun p q hp hq => between_unique ha he hp hq⟩
    have hc := ha.semaphore hx
    rw [he.silent] at hc
    omega
  · have hc := ha.semaphore hx
    rw [hh, List.length_nil] at hc
    rw [le_one_iff]
    omega

/-- a read of the first sector -/
def firstSector : Request := ⟨0x1000, 512, 0, false, 0x2000⟩

/-- one process has the driver and another one waits -/
def contended : List BlkAction :=
  [.kernel (some (.createKernelProcess 1)), .kernel (some (.createKernelProcess 2)), .kernel (some (.ready 1)), .new,
    .enter firstSector, .take, .kernel (some (.ready 2)), .enter firstSector]

theorem mutex_until_signal_example : ∃ s,
    run (BlkRun.step (BinaryHeap.scan _)) contended (init (BinaryHeap.scan _) true 0x3000 fun _ => ⟨0, 0⟩) = some s ∧
      s.between 1 = true ∧ s.queued 2 = true ∧ (∀ x, s.semaphore = some x → x.count ≤ 1) ∧
      ∀ p q, s.between p = true → s.between q = true → p = q := by
  have h : (run (BlkRun.step (BinaryHeap.scan _)) contended
      (init (BinaryHeap.scan _) true 0x3000 fun _ => ⟨0, 0⟩)).any (fun s => s.between 1 && s.queued 2) = true := by
    decide +kernel
  obtain ⟨s, hs, h⟩ := (Option.any_eq_true _ _).mp h
  obtain ⟨h1, h2⟩ := Bool.and_eq_true_iff.mp h
  exact ⟨s, hs, h1, h2, (mutex_until_signal _ true 0x3000 _ contended s (by decide +kernel) hs).1 (by decide +kernel)⟩

/-- one request, completed once, with one interrupt -/
def oneRequest : List BlkAction :=
  [.kernel (some (.createKernelProcess 1)), .kernel (some (.ready 1)), .new, .enter firstSector, .take, .build,
    .leave, .publish, .save, .ioWait, .schedule, .kernel none, .device 0 513, .pending, .kernel none, .ret,
    .kernel (some (.sleep 1 5)), .kernel none, .signal]

/-- then two more processes call `block_op` -/
def twoMore : List BlkAction :=
  [.kernel (some (.createKernelProcess 1)), .kernel (some (.createKernelProcess 2)), .kernel (some (.ready 2)),
    .enter firstSector, .take, .kernel (some (.ready 3)), .enter firstSector]

/-- The interrupt of one request leaves a count of two, and two processes get in. -/
theorem mutex_broken : ∃ s₀ s,
    run (BlkRun.step (BinaryHeap.scan _)) oneRequest (init (BinaryHeap.scan _) true 0x3000 fun _ => ⟨0, 0⟩) = some s₀ ∧
      (∃ x, s₀.semaphore = some x ∧ ¬ x.count ≤ 1) ∧
      run (BlkRun.step (BinaryHeap.scan _)) twoMore s₀ = some s ∧ s.between 2 = true ∧ s.between 3 = true := by
  have h : (run (BlkRun.step (BinaryHeap.scan _)) oneRequest
      (init (BinaryHeap.scan _) true 0x3000 fun _ => ⟨0, 0⟩)).any (fun s₀ =>
        s₀.semaphore.any (fun x => !decide (x.count ≤ 1)) &&
        (run (BlkRun.step (BinaryHeap.scan _)) twoMore s₀).any fun s => s.between 2 && s.between 3) = true := by
    decide +kernel
  obtain ⟨s₀, h₀, h⟩ := (Option.any_eq_true _ _).mp h
  obtain ⟨hx, h⟩ := Bool.and_eq_true_iff.mp h
  obtain ⟨x, hx, hc⟩ := (Option.any_eq_true _ _).mp hx
  obtain ⟨s, hs, h⟩ := (Option.any_eq_true _ _).mp h
  obtain ⟨h2, h3⟩ := Bool.and_eq_true_iff.mp h
  exact ⟨s₀, s, h₀, ⟨x, hx, by simpa using hc⟩, hs, h2, h3⟩

end BlkRun

end Citron.Virtio
