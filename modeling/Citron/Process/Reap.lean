import Citron.Process.Invariant
import Citron.Process.Return
import Mathlib.Data.List.Nodup

/-!
# Waiting for a child

`wait_exit` removes a child that has exited with `VecDeque::remove`, which takes a position, and gives it the pid of
the child.  Where no child has exited it registers the caller under all of them and schedules.

* `ReapsOne`            exactly one child is reaped, or the caller waits for all of them and leaves the processor;
* `eraseIdx_eq_erase`   a pid is removed as a position exactly when it is its own;
* `watchActs`           what the second loop of `wait_exit` does;
* `waitExit_reaps_iff`  when `wait_exit` does what is asked of it.
-/

namespace Citron
open Resumption

/-- the first child that has exited is removed, the others stay in order, and the caller goes on; where there is none
the caller waits for the exit of every child, and another process runs -/
def ReapsOne (H : Heap) (s : ProcessManager) : Prop :=
  match exited s (s.childrenOf s.running) with
  | some pid => ∃ t, waitExit H s = .ok () t ∧ t.childrenOf s.running = (s.childrenOf s.running).erase pid ∧
      t.running = s.running ∧ t.stateOf s.running = some .running
  | none => s.childrenOf s.running ≠ [] → ∃ t k, waitExit H s = .switch t k ∧ t.running ≠ s.running ∧
      t.stateOf s.running = some .eventWait ∧ ∀ pid ∈ s.childrenOf s.running, s.running ∈ t.waiters (.exit pid)

/-- a child that has exited is at the position that is its pid; or there are no children; or none has exited, and a
process is there that may take the processor now -/
def Reapable (s : ProcessManager) : Prop :=
  match exited s (s.childrenOf s.running) with
  | some pid => (s.childrenOf s.running)[pid]? = some pid
  | none => s.childrenOf s.running = [] ∨ s.defer.count = 0 ∧ ∃ d ∈ s.pqueue, s.stateOf d.pid = some .ready

/-! ## a pid as a position -/

theorem eraseIdx_eq_erase {l : List Pid} (hnd : l.Nodup) {pid : Pid} (hm : pid ∈ l) :
    l.eraseIdx pid = l.erase pid ↔ l[pid]? = some pid := by
  constructor
  · intro h
    cases ha : l[pid]? with
    | none =>
      rw [List.eraseIdx_of_length_le (List.getElem?_eq_none_iff.mp ha)] at h
      exact absurd (h ▸ hm) hnd.not_mem_erase
    | some a =>
      obtain ⟨hlt, hat⟩ := List.getElem?_eq_some_iff.mp ha
      by_contra hne
      have hne : a ≠ pid := fun e => hne (congrArg some e)
      have hin : a ∈ l.erase pid := (List.mem_erase_of_ne hne).mpr (hat ▸ List.getElem_mem hlt)
      rw [← h] at hin
      -- the element at the position is gone, and it was there only once
      obtain ⟨j, hj, hji, hja⟩ := List.mem_eraseIdx_iff_getElem.mp hin
      exact hji ((List.Nodup.getElem_inj_iff hnd).mp (hja.trans hat.symm))
  · intro h
    obtain ⟨hlt, hat⟩ := List.getElem?_eq_some_iff.mp h
    have hidx : l.idxOf pid = pid := by
      have hi := List.idxOf_lt_length_of_mem hm
      exact (List.Nodup.getElem_inj_iff hnd).mp ((List.getElem_idxOf hi).trans hat.symm)
    rw [List.erase_eq_eraseIdx_of_idxOf hidx]

/-! ## the second loop -/

section
variable {H : Heap} {s : ProcessManager}

/-- the acts of the loop -/
def watchActs (me : Pid) (pids : List Pid) : List Act := pids.flatMap fun pid => [.eventOn me (.exit pid), .attempt]

/-- what they leave: the caller `me` waits for the exit of all of `pids` -/
structure Watching (me : Pid) (pids : List Pid) (s t : ProcessManager) : Prop where
  pqueue : t.pqueue = s.pqueue
  running : t.running = s.running
  count : t.defer.count = s.defer.count
  attempt : pids ≠ [] ∨ s.defer.attempt = true → t.defer.attempt = true
  others : ∀ q ≠ me, t.stateOf q = s.stateOf q
  caller : pids ≠ [] ∨ s.stateOf me = some .eventWait → t.stateOf me = some .eventWait
  waits : ∀ pid ∈ pids, me ∈ t.waiters (.exit pid)
  closed : Closed s → Closed t

theorem Closed.eventOn (hs : Closed s) {me : Pid} (hme : (s.ptable me).isSome) (event : ProcessEvent) :
    Closed ((Act.eventOn me event).apply H s) := by
  have hsome : ∀ q, (((Act.eventOn me event).apply H s).ptable q).isSome = (s.ptable q).isSome :=
    fun q => isSome_setState s me .eventWait q
  refine ⟨?_, fun d hd => ?_, fun d hd => ?_, fun sid x hx q hq => ?_, fun e q hq => ?_, fun q c hc => ?_,
    fun q hq => ?_⟩
  · exact (hsome _).trans hs.running
  · exact (hsome _).trans (hs.desc d hd)
  · exact (hsome _).trans (hs.sleep d hd)
  · exact (hsome _).trans (hs.sem sid x hx q hq)
  · refine (hsome q).trans ?_
    have hq : q ∈ (ProcessManager.setEvent (s.setState me .eventWait) event
        (some (s.waiters event ++ [me]))).waiters e := hq
    rw [waiters_setEvent] at hq
    split at hq
    · rcases List.mem_append.mp hq with hq | hq
      · exact hs.event event q hq
      · rwa [List.mem_singleton.mp hq]
    · exact hs.event e q hq
  · have hc : c ∈ (s.setState me .eventWait).childrenOf q := hc
    rw [ProcessManager.childrenOf_setState] at hc
    exact (hsome c).trans (hs.child q c hc)
  · have hnone := hsome q
    rw [hs.fresh q hq] at hnone
    exact Option.not_isSome_iff_eq_none.mp (by simp [hnone])

theorem watchActs_cons (me pid : Pid) (pids : List Pid) :
    watchActs me (pid :: pids) = .eventOn me (.exit pid) :: .attempt :: watchActs me pids := rfl

theorem watching (me : Pid) (pids : List Pid) : ∀ {s : ProcessManager}, (s.ptable me).isSome →
    Watching me pids s (applyAll H (watchActs me pids) s) := by
  induction pids with
  | nil => exact fun {s} _ => ⟨rfl, rfl, rfl, fun h => h.resolve_left (absurd rfl), fun _ _ => rfl,
      fun h => h.resolve_left (absurd rfl), fun _ h => absurd h List.not_mem_nil, id⟩
  | cons pid pids ih =>
    intro s hme
    let u := (Act.attempt).apply H ((Act.eventOn me (.exit pid)).apply H s)
    have hstate : u.stateOf me = some .eventWait := by
      refine (ProcessManager.stateOf_setState ..).trans ?_
      obtain ⟨p, hp⟩ := Option.isSome_iff_exists.mp hme
      rw [if_pos rfl, ProcessManager.stateOf_of_ptable hp]
      rfl
    have hsome : (u.ptable me).isSome := (isSome_setState ..).trans hme
    have h := ih hsome
    rw [watchActs_cons, applyAll_cons, applyAll_cons]
    refine ⟨h.pqueue, h.running, h.count, fun _ => h.attempt (.inr rfl), fun q hq => ?_,
      fun _ => h.caller (.inr hstate), fun c hc => ?_, fun hs => h.closed ?_⟩
    · exact (h.others q hq).trans (ProcessManager.stateOf_setState_of_ne s me .eventWait hq)
    · rcases List.mem_cons.mp hc with rfl | hc
      · have hin : me ∈ u.waiters (.exit c) := by
          refine (congrArg (me ∈ ·) (waiters_setEvent ..)).mpr ?_
          rw [if_pos rfl]
          exact List.mem_append_right _ List.mem_cons_self
        refine applyAll_waiters _ (fun a ha => ?_) hin
        obtain ⟨q, -, hq⟩ := List.mem_flatMap.mp ha
        rintro rfl
        simp at hq
      · exact h.waits c hc
    · have hev : Closed ((Act.eventOn me (.exit pid)).apply H s) := hs.eventOn hme (.exit pid)
      exact ⟨hev.running, hev.desc, hev.sleep, hev.sem, hev.event, hev.child, hev.fresh⟩

/-! ## `wait_exit` -/

/-- the state in which the last deferral of `wait_exit` ends -/
def watched (H : Heap) (s : ProcessManager) : ProcessManager :=
  (Act.stop).apply H (applyAll H (watchActs s.running (s.childrenOf s.running)) ((Act.start).apply H s.masked))

/-- no child has exited: the caller waits for all of them, and what is left is scheduling -/
theorem waitExit_none (hs : Closed s) (hn : exited s (s.childrenOf s.running) = none)
    (hc : s.childrenOf s.running ≠ []) :
    Watching s.running (s.childrenOf s.running) s (watched H s) ∧ waitExit H s
      = runTail (schedule H) ((if s.defer.count = 0 then [.sched] else []) ++ [.sched, .restore s.sie]) (watched H s) := by
  obtain ⟨p, hp⟩ := Option.isSome_iff_exists.mp hs.running
  have hchild : s.childrenOf s.running = p.children := by simp [ProcessManager.childrenOf, hp]
  have hw : Watching s.running (s.childrenOf s.running) ((Act.start).apply H s.masked)
      (applyAll H (watchActs s.running (s.childrenOf s.running)) ((Act.start).apply H s.masked)) :=
    watching s.running _ hs.running
  have hstart : ((Act.start).apply H s.masked).defer.count = s.defer.count + 1 := rfl
  have hcount : (watched H s).defer.count = s.defer.count := by
    show (if _ = 0 then _ else _ - 1) = _
    rw [hw.count, hstart, if_neg (Nat.succ_ne_zero _)]
    exact Nat.add_sub_cancel ..
  have hbody : (Op.waitExit).body H s.masked s.sie
      = deferred H (watchActs s.running (s.childrenOf s.running)) [.sched, .restore s.sie] s.masked := by
    unfold Op.body
    dsimp only
    rw [show s.masked.ptable s.masked.running = some p from hp]
    dsimp only
    rw [show exited s.masked p.children = none from hchild ▸ hn, hchild]
    rfl
  have hstop : stopTail (applyAll H (.start :: watchActs s.running (s.childrenOf s.running)) s.masked)
      = if s.defer.count = 0 then [.sched] else [] := by
    unfold stopTail
    rw [applyAll_cons, hw.count, hw.attempt (.inl hc), hstart]
    exact if_congr (by simp) rfl rfl
  refine ⟨⟨hw.pqueue, hw.running, hcount, fun h => hw.attempt (.inl hc), hw.others, fun h => hw.caller (.inl hc),
    hw.waits, fun _ => ?_⟩, ?_⟩
  · have hm : Closed ((Act.start).apply H s.masked) :=
      ⟨hs.running, hs.desc, hs.sleep, hs.sem, hs.event, hs.child, hs.fresh⟩
    have hclosed := hw.closed hm
    exact ⟨hclosed.running, hclosed.desc, hclosed.sleep, hclosed.sem, hclosed.event, hclosed.child, hclosed.fresh⟩
  refine (Op.run_eq_body H hs .waitExit).trans ?_
  show ((Op.waitExit).body H s.masked s.sie).run H (schedule H) s.masked = _
  rw [hbody]
  unfold deferred Plan.run
  dsimp only
  rw [hstop, List.cons_append, applyAll_cons, applyAll_append]
  rfl

/-- a child has exited -/
theorem waitExit_some (hs : Closed s) {pid : Pid} (he : exited s (s.childrenOf s.running) = some pid) :
    waitExit H s = .ok () ((Act.reap s.running pid).apply H s.masked) := by
  obtain ⟨p, hp⟩ := Option.isSome_iff_exists.mp hs.running
  have hchild : s.childrenOf s.running = p.children := by simp [ProcessManager.childrenOf, hp]
  refine (Op.run_eq_body H hs .waitExit).trans ?_
  show ((Op.waitExit).body H s.masked s.sie).run H (schedule H) s.masked = _
  unfold Op.body
  dsimp only
  rw [show s.masked.ptable s.masked.running = some p from hp]
  dsimp only
  rw [show exited s.masked p.children = some pid from hchild ▸ he]
  rfl

theorem childrenOf_reap (s : ProcessManager) (pid : Pid) (index : Nat) :
    ((Act.reap pid index).apply H s).childrenOf pid = (s.childrenOf pid).eraseIdx index := by
  show ((Function.update s.ptable pid _ pid).map _).getD [] = _
  rw [Function.update_self]
  unfold ProcessManager.childrenOf
  cases s.ptable pid <;> rfl

/-- scheduling twice, where nobody is ready or a deferral is in force, comes back -/
theorem schedule_stays (hs : Closed s) (h : 0 < s.defer.count ∨ Stale s) : ∃ t, schedule H s = .ok () t ∧
    Closed t ∧ (0 < t.defer.count ∨ Stale t) := by
  have hcases := schedule_cases H hs
  cases hr : schedule H s with
  | ok a t =>
    refine ⟨t, rfl, ?_⟩
    rw [hr] at hcases
    cases hcases with
    | deferred hc => exact ⟨⟨hs.running, hs.desc, hs.sleep, hs.sem, hs.event, hs.child, hs.fresh⟩, .inl hc⟩
    | idle hc hst =>
      exact ⟨⟨hs.running, fun d hd => absurd hd List.not_mem_nil, hs.sleep, hs.sem, hs.event, hs.child, hs.fresh⟩,
        .inr fun d hd => absurd hd List.not_mem_nil⟩
    | stay hc hd hp hr hrun hlt =>
      rcases h with h | h
      · exact absurd hc (Nat.pos_iff_ne_zero.mp h)
      · exact absurd hd.ready (h _ hd.mem)
  | err e t =>
    rw [hr] at hcases
    cases hcases
  | panic =>
    rw [hr] at hcases
    cases hcases
  | switch t k =>
    rw [hr] at hcases
    cases hcases with
    | switch hc hd hp hr hle =>
      rcases h with h | h
      · exact absurd hc (Nat.pos_iff_ne_zero.mp h)
      · exact absurd hd.ready (h _ hd.mem)

theorem runTail_stays (l : List Tail) : ∀ {s : ProcessManager}, Closed s → (0 < s.defer.count ∨ Stale s) →
    ∃ t, runTail (schedule H) l s = .ok () t := by
  induction l with
  | nil => exact fun {s} _ _ => ⟨s, rfl⟩
  | cons a l ih =>
    intro s hs h
    cases a with
    | sched =>
      obtain ⟨t, ht, hct, hst⟩ := schedule_stays hs h
      rw [runTail_sched, ht]
      exact ih hct hst
    | restore mask =>
      rw [runTail_restore]
      exact ih ⟨hs.running, hs.desc, hs.sleep, hs.sem, hs.event, hs.child, hs.fresh⟩ h

/-- the caller does not run any more: whoever is ready takes the processor, and nothing else changes -/
theorem schedule_leaves (hs : Closed s) {me : Pid} (hme : s.running = me) (hw : s.stateOf me = some .eventWait)
    (hc : s.defer.count = 0) (hr : ∃ d ∈ s.pqueue, s.stateOf d.pid = some .ready) : ∃ t k, schedule H s = .switch t k ∧
      t.running ≠ me ∧ t.stateOf me = some .eventWait ∧ t.eventQueue = s.eventQueue := by
  have hnot : ∀ {r : Process}, s.ptable s.running = some r → r.state = .eventWait := by
    intro r hr
    have h := (ProcessManager.stateOf_of_ptable hr).symm.trans (hme ▸ hw)
    exact Option.some.inj h
  obtain ⟨d₀, hd₀, hready⟩ := hr
  have hcases := schedule_cases H hs
  cases hres : schedule H s with
  | ok a t =>
    rw [hres] at hcases
    cases hcases with
    | deferred hd => exact absurd hc (Nat.pos_iff_ne_zero.mp hd)
    | idle hc hst => exact absurd hready (hst d₀ hd₀)
    | stay hc hd hp hr hrun hlt => cases hrun.symm.trans (hnot hr)
  | err e t =>
    rw [hres] at hcases
    cases hcases
  | panic =>
    rw [hres] at hcases
    cases hcases
  | switch t k =>
    rw [hres] at hcases
    cases hcases with
    | @switch d q p r hc hd hp hr hle =>
      have hne : d.pid ≠ me := by
        intro he
        have h := hd.ready
        rw [he, hw] at h
        cases h
      obtain ⟨-, -, hevents, -⟩ := dispatch_rest (s := s) H r q d.pid
      refine ⟨_, _, rfl, hne, ?_, ?_⟩
      · rw [dispatch_stateOf H hr, if_neg (Ne.symm hne), if_neg (fun h => by cases h.2.symm.trans (hnot hr))]
        exact hw
      · exact hevents

theorem exited_mem {pids : List Pid} {pid : Pid} (h : exited s pids = some pid) : pid ∈ pids :=
  List.mem_of_find?_eq_some h

/-- a child that has exited is removed alone exactly if it stands at its position -/
theorem waitExit_removes_iff (hs : Closed s) (hb : s.Busy) (hnd : (s.childrenOf s.running).Nodup) {pid : Pid}
    (he : exited s (s.childrenOf s.running) = some pid) :
    (∃ t, waitExit H s = .ok () t ∧ t.childrenOf s.running = (s.childrenOf s.running).erase pid ∧
        t.running = s.running ∧ t.stateOf s.running = some .running) ↔
      (s.childrenOf s.running)[pid]? = some pid := by
  rw [waitExit_some hs he, ← eraseIdx_eq_erase hnd (exited_mem he)]
  constructor
  · intro ⟨t, ht, hc, _⟩
    cases ht
    exact (childrenOf_reap s.masked s.running pid).symm.trans hc
  · intro hc
    refine ⟨_, rfl, (childrenOf_reap s.masked s.running pid).trans hc, rfl, ?_⟩
    exact (ProcessManager.map_updateProcess s.masked s.running Process.state
      (fun p => { p with children := p.children.eraseIdx pid }) (fun _ => rfl) _).trans hb

/-- the caller is not ready when it waits, so who is ready is another process, and was ready before -/
theorem Watching.ready_iff {pids : List Pid} {t : ProcessManager} (hw : Watching s.running pids s t) (hb : s.Busy)
    (hne : pids ≠ []) (pid : Pid) : t.stateOf pid = some .ready ↔ s.stateOf pid = some .ready := by
  by_cases hpid : pid = s.running
  · rw [hpid, hw.caller (.inl hne), show s.stateOf s.running = _ from hb]
    simp
  · rw [hw.others _ hpid]

/-- where no child has exited the caller leaves the processor exactly if somebody may take it -/
theorem waitExit_waits_iff (hs : Closed s) (hb : s.Busy) (he : exited s (s.childrenOf s.running) = none)
    (hc : s.childrenOf s.running ≠ []) :
    (∃ t k, waitExit H s = .switch t k ∧ t.running ≠ s.running ∧ t.stateOf s.running = some .eventWait ∧
        ∀ pid ∈ s.childrenOf s.running, s.running ∈ t.waiters (.exit pid)) ↔
      s.defer.count = 0 ∧ ∃ d ∈ s.pqueue, s.stateOf d.pid = some .ready := by
  obtain ⟨hw, hrun⟩ := waitExit_none (H := H) hs he hc
  have hclosed := hw.closed hs
  have hready := hw.ready_iff hb hc
  rw [hrun]
  constructor
  · intro ⟨t, k, hswitch, _⟩
    by_contra hno
    have hstays : 0 < (watched H s).defer.count ∨ Stale (watched H s) := by
      by_cases h0 : s.defer.count = 0
      · exact .inr fun d hd hr => hno ⟨h0, d, hw.pqueue ▸ hd, (hready d.pid).mp hr⟩
      · exact .inl (hw.count ▸ Nat.pos_of_ne_zero h0)
    obtain ⟨t', ht'⟩ := runTail_stays (H := H)
      ((if s.defer.count = 0 then [.sched] else []) ++ [.sched, .restore s.sie]) hclosed hstays
    cases ht'.symm.trans hswitch
  · intro ⟨h0, d, hd, hr⟩
    obtain ⟨t, k, hswitch, hne, hstate, hevents⟩ := schedule_leaves (H := H) hclosed hw.running (hw.caller (.inl hc))
      (hw.count.trans h0) ⟨d, hw.pqueue ▸ hd, (hready d.pid).mpr hr⟩
    have hleave : runTail (schedule H) (.sched :: [.sched, .restore s.sie]) (watched H s)
        = .switch t (fun s' => (k s').bind fun _ => runTail (schedule H) [.sched, .restore s.sie]) := by
      rw [runTail_sched, hswitch]
      rfl
    rw [if_pos h0]
    refine ⟨t, _, hleave, hne, hstate, fun pid hpid => ?_⟩
    show s.running ∈ (t.eventQueue (.exit pid)).getD []
    rw [hevents]
    exact hw.waits pid hpid

/-- **`wait_exit` reaps one child** exactly where the first child that has exited stands at the position that is its
pid; where none has, it waits for all of them exactly where a process may take the processor now. -/
theorem waitExit_reaps_iff (H : Heap) (s : ProcessManager) (hs : Closed s) (hb : s.Busy)
    (hnd : (s.childrenOf s.running).Nodup) : ReapsOne H s ↔ Reapable s := by
  unfold ReapsOne Reapable
  cases he : exited s (s.childrenOf s.running) with
  | some pid => exact waitExit_removes_iff hs hb hnd he
  | none =>
    dsimp only
    by_cases hc : s.childrenOf s.running = []
    · exact iff_of_true (fun h => absurd hc h) (.inl hc)
    · rw [waitExit_waits_iff hs hb he hc]
      exact ⟨fun h => .inr (h hc), fun h _ => h.resolve_left hc⟩

end

/-- the process `0` runs and has the processes `2` and `1` as children, in this order; `1` has exited, and `2` is in
the state `st` -/
def family (st : State) : ProcessManager :=
  { ProcessManager.new true with
    ptable := fun
      | 0 => some ⟨.running, 0, 1, [2, 1], false⟩
      | 1 => some ⟨.free, 1, 1, [], false⟩
      | 2 => some ⟨st, 2, 1, [], false⟩
      | _ => none
    currPid := 3 }

theorem family_closed (st : State) : Closed (family st) := by
  refine ⟨rfl, nofun, nofun, nofun, nofun, fun pid c hc => ?_, fun pid hpid => ?_⟩
  · match pid with
    | 0 =>
      rcases List.mem_pair.mp hc with rfl | rfl
      · rfl
      · rfl
    | 1 => cases hc
    | 2 => cases hc
    | pid + 3 => cases hc
  · match pid with
    | pid + 3 => rfl

/-- only `1` has exited, which is the second child -/
theorem waitExit_reaps_second : Closed (family .ready) ∧ (family .ready).Busy ∧
    ((family .ready).childrenOf 0).Nodup ∧ ReapsOne (BinaryHeap.scan _) (family .ready) :=
  ⟨family_closed .ready, rfl, by decide, (waitExit_reaps_iff _ _ (family_closed .ready) rfl (by decide)).mpr rfl⟩

/-- both have exited: instead of `2`, the first child, nobody is removed, for there is no position `2` -/
theorem waitExit_keeps_first : Closed (family .free) ∧ (family .free).Busy ∧ ((family .free).childrenOf 0).Nodup ∧
    exited (family .free) ((family .free).childrenOf 0) = some 2 ∧ ¬ReapsOne (BinaryHeap.scan _) (family .free) := by
  refine ⟨family_closed .free, rfl, by decide, by decide, fun ⟨t, ht, hc, _⟩ => ?_⟩
  have hrun : waitExit (BinaryHeap.scan _) (family .free)
      = .ok () ((Act.reap 0 2).apply (BinaryHeap.scan _) (family .free).masked) :=
    waitExit_some (family_closed .free) (by decide)
  cases hrun.symm.trans ht
  have hkeeps : ((Act.reap 0 2).apply (BinaryHeap.scan _) (family .free).masked).childrenOf 0 = [2, 1] := rfl
  cases hkeeps.symm.trans hc

end Citron
