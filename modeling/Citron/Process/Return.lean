import Citron.Lib.Return
import Citron.Process.Frame

/-!
# Calls and the interrupt mask

An operation that begins with `interrupt_disable` ends with `interrupt_restore`, except where it fails and where
`wait_exit` has found a dead child.  In between it may give the processor away; it is resumed with interrupts off,
since `schedule` saves its context with interrupts off.

* `Turn`, `Reached`       runs in which interrupts are switched on and off between the calls as well;
* `Awaits`                what a process that is in the middle of a call relies on;
* `runTail_pledge`, `Op.pledge`   scheduling and calls, with the mask and the deferrals that they come back with;
* `mask_restored`         which operations bring the mask back.
-/

set_option linter.unusedSectionVars false

namespace Citron
open Resumption

/-! ## runs -/

/-- what the process that has the processor does: it calls an operation, or switches interrupts on or off -/
inductive Turn where
  | call (op : Op)
  | mask (sie : Bool)

def Turn.run (H : Heap) : Turn → PM Unit
  | .call op => op.run H
  | .mask sie => Prog.modify ({ · with sie := sie })

def Turn.May (may : Op → ProcessManager → Prop) : Turn → ProcessManager → Prop
  | .call op, s => may op s
  | .mask _, _ => True

abbrev Reached (H : Heap) (may : Op → ProcessManager → Prop) (sie : Bool) :
    Sys ProcessManager ProcessError → Prop :=
  Reach ProcessManager.running (Turn.run H) (Turn.May may) (ProcessManager.booted H sie)

/-- the call of `op` that begins in `y` is at `z`, where the caller does the segment `r` -/
abbrev Op.During (H : Heap) (may : Op → ProcessManager → Prop) (op : Op) (y : Sys ProcessManager ProcessError) :
    Sys ProcessManager ProcessError → Res ProcessManager ProcessError Unit → Prop :=
  Sys.During ProcessManager.running (Turn.run H) (Turn.May may) (.call op) y

/-! ## what a suspended call relies on -/

/-- the interrupt-enable bit in the saved context of the process `pid` -/
def ProcessManager.statusOf (s : ProcessManager) (pid : Pid) : Option Bool := (s.ptable pid).map Process.sstatus

/-- The process `pid` will find interrupts off and no deferral when it goes on with its call. -/
structure Awaits (pid : Pid) (s : ProcessManager) : Prop where
  here : s.running = pid → s.Busy ∧ s.sie = false ∧ s.defer.count = 0
  away : s.running ≠ pid → s.statusOf pid = some false

/-- the contract of the calls of the process `me`, which come back in `back` -/
def pledge (me : Pid) (back : ProcessManager → Prop) : Contract ProcessManager where
  back t := t.running = me ∧ back t
  leave t := t.Busy ∧ t.defer.count = 0 ∧ t.statusOf me = some false ∧ t.statusOf t.running = some t.sie
  resume s := (Inv s ∧ s.Settled) ∧ s.running = me ∧ s.Busy ∧ s.sie = false ∧ s.defer.count = 0
  after s t := (Inv t ∧ t.Settled) ∧ ∀ q, q ≠ me → Awaits q s → Awaits q t

theorem pledge_fits : Contract.Fits ProcessManager.running (fun s => Inv s ∧ s.Settled) Awaits
    (fun p => pledge p fun _ => True) where
  leave p t _ h := by
    obtain ⟨hb, hc, hme, hnew⟩ := h
    refine ⟨fun e => ⟨hb, ?_, hc⟩, fun _ => hme⟩
    rw [e, hme] at hnew
    exact (Option.some.inj hnew).symm
  resume p s hs h e := ⟨hs, e, h.here e⟩
  after p s t _ h := h

section
variable {s t : ProcessManager} {pid q : Pid}

theorem Awaits.same (h : Awaits q s) (hq : q ≠ s.running) (hrun : t.running = s.running)
    (hst : s.statusOf q = some false → t.statusOf q = some false) : Awaits q t where
  here e := absurd (e.symm.trans hrun) hq
  away _ := hst (h.away (Ne.symm hq))

@[simp] theorem statusOf_setState (st : State) : (s.setState pid st).statusOf q = s.statusOf q :=
  ProcessManager.map_updateProcess s pid Process.sstatus ({ · with state := st }) (fun _ => rfl) q

theorem statusOf_saveStatus : (s.saveStatus pid).statusOf q
    = if q = pid then (s.statusOf pid).map (fun _ => s.sie) else s.statusOf q := by
  unfold ProcessManager.saveStatus ProcessManager.updateProcess ProcessManager.statusOf
  by_cases hq : q = pid
  · subst hq
    simp [Function.comp_def]
  · simp [hq]

variable (H : Heap)

theorem dispatch_statusOf {r : Process} {l : List ProcessDesc} {new : Pid} :
    (s.dispatch H r l new).statusOf q
      = if q = s.running then (s.statusOf q).map (fun _ => false) else s.statusOf q := by
  have hpre : ∀ q, ((s.masked.setQueue l).preempt H r).statusOf q = s.statusOf q := by
    intro q
    unfold ProcessManager.preempt
    split
    · exact statusOf_setState ..
    · rfl
  have hrun : ((s.masked.setQueue l).preempt H r).running = s.running := by
    unfold ProcessManager.preempt
    split <;> rfl
  have hsie : ((s.masked.setQueue l).preempt H r).sie = false := by
    unfold ProcessManager.preempt
    split <;> rfl
  unfold ProcessManager.dispatch ProcessManager.takeOver ProcessManager.contextSwitch
  refine statusOf_saveStatus.trans ?_
  rw [hrun]
  by_cases hq : q = s.running
  · rw [if_pos hq, if_pos hq, ← hq]
    refine (congrArg (Option.map _) (statusOf_setState ..)).trans ?_
    rw [hpre]
    exact congrArg (Option.map · (s.statusOf q)) (funext fun _ => hsie)
  · rw [if_neg hq, if_neg hq]
    exact (statusOf_setState ..).trans (hpre q)

theorem dispatch_sie {r : Process} {l : List ProcessDesc} {new : Pid} (h : (s.ptable new).isSome) :
    (s.dispatch H r l new).statusOf new = some (s.dispatch H r l new).sie := by
  have hsome : ((s.dispatch H r l new).statusOf new).isSome := by
    rw [dispatch_statusOf]
    split <;> simpa [ProcessManager.statusOf] using h
  obtain ⟨b, hb⟩ := Option.isSome_iff_exists.mp hsome
  have hsie : (s.dispatch H r l new).sie = ((s.dispatch H r l new).statusOf new).getD
    (({ ((s.masked.setQueue l).preempt H r).setState new .running with running := new } : ProcessManager)).sie := rfl
  rw [hsie, hb]
  rfl

end

/-! ## scheduling -/

/-- the mask after a tail that begins with the mask `sie` -/
def tailSie : List Tail → Bool → Bool
  | [], sie => sie
  | .sched :: l, sie => tailSie l sie
  | .restore mask :: l, sie => tailSie l (sie || mask)

theorem tailSie_stop (s : ProcessManager) (l : List Tail) (sie : Bool) : tailSie (stopTail s ++ l) sie = tailSie l sie := by
  unfold stopTail
  split <;> rfl

section
variable {H : Heap} {s : ProcessManager}

theorem Scheduled.ok_same {t : ProcessManager} (h : Scheduled H s (.ok () t)) :
    t.running = s.running ∧ t.ptable = s.ptable ∧ t.sie = s.sie ∧ t.defer.count = s.defer.count := by
  cases h <;> exact ⟨rfl, rfl, rfl, rfl⟩

/-- the call is suspended with interrupts off, and everybody else finds what he relies on -/
theorem Scheduled.leaves (hs : Inv s) {t : ProcessManager} {k : ProcessManager → Res ProcessManager ProcessError Unit}
    (h : Scheduled H s (.switch t k)) (back : ProcessManager → Prop) : s.defer.count = 0 ∧
      (pledge s.running back).leave t ∧ ∀ q, q ≠ s.running → Awaits q s → Awaits q t := by
  have hbusy := (hs.scheduled_switch H h).1.2.2
  cases h with
  | @switch d l p r hc hd hp hr hle =>
    have hcount : (s.dispatch H r l d.pid).defer.count = 0 := by
      rw [(dispatch_rest H r l d.pid).2.2.2.2.2]
      exact hc
    have hold : (s.dispatch H r l d.pid).statusOf s.running = some false := by
      rw [dispatch_statusOf, if_pos rfl]
      unfold ProcessManager.statusOf
      rw [hr]
      rfl
    have hnew : (s.dispatch H r l d.pid).statusOf d.pid = some (s.dispatch H r l d.pid).sie :=
      dispatch_sie H (by rw [hp]; rfl)
    refine ⟨hc, ⟨hbusy, hcount, hold, hnew⟩, fun q hq hw => ?_⟩
    have hsaved : (s.dispatch H r l d.pid).statusOf q = some false := by
      rw [dispatch_statusOf, if_neg hq]
      exact hw.away (Ne.symm hq)
    refine ⟨fun e => ⟨hbusy, ?_, hcount⟩, fun _ => hsaved⟩
    obtain rfl : d.pid = q := e
    exact Option.some.inj (hnew.symm.trans hsaved)

/-- **Scheduling brings the mask back**, and the deferrals. -/
theorem runTail_pledge {me : Pid} (l : List Tail) : ∀ {s : ProcessManager}, Inv s →
    (s.Settled ∨ .sched ∈ l) → s.running = me →
    (runTail (schedule H) l s).Ensures (pledge me fun t => t.sie = tailSie l s.sie ∧ t.defer.count = s.defer.count) False
      (fun t => (Inv t ∧ t.Settled) ∧ ∀ q, q ≠ me → Awaits q s → Awaits q t) := by
  induction l with
  | nil =>
    intro s hs hset hme
    exact ⟨⟨⟨hs, hset.resolve_right (by simp)⟩, fun _ _ h => h⟩, hme, rfl, rfl⟩
  | cons x l ih =>
    intro s hs hset hme
    cases x with
    | restore mask =>
      refine (ih (hs.setSie (s.sie || mask)) (hset.imp_right (by simp)) hme).mono id ?_
      intro t ⟨ht, hw⟩
      exact ⟨ht, fun q hq h => hw q hq (h.same (hme ▸ hq) rfl id)⟩
    | sched =>
      have h := schedule_cases H hs.toClosed
      rw [runTail_sched]
      cases hr : schedule H s with
      | ok a t =>
        rw [hr] at h
        obtain ⟨⟨hi, hst⟩, -, hrun⟩ := hs.scheduled_ok H h
        obtain ⟨-, htab, hsie, hcount⟩ := h.ok_same
        rw [← hcount, ← hsie]
        refine (ih hi (.inl hst) (hrun.trans hme)).mono id ?_
        intro u ⟨hu, hw⟩
        refine ⟨hu, fun q hq h => hw q hq (h.same (hme ▸ hq) hrun fun h => ?_)⟩
        unfold ProcessManager.statusOf at h ⊢
        rwa [htab]
      | err e t =>
        rw [hr] at h
        cases h
      | panic =>
        rw [hr] at h
        cases h
      | switch t k =>
        rw [hr] at h
        obtain ⟨⟨hi, -, -⟩, rfl⟩ := hs.scheduled_switch H h
        obtain ⟨hc, hleave, hw⟩ := h.leaves hs (fun _ => True)
        rw [hme] at hleave hw
        refine ⟨⟨hi, hw⟩, hleave, ?_⟩
        -- resumed with interrupts off, the call goes on with the mask that it had
        intro s' ⟨⟨hi', hset'⟩, hrun, _, hoff, hc'⟩
        have hsie : (s'.sie || s.sie) = s.sie := by rw [hoff, Bool.false_or]
        rw [hc, ← hc']
        show (runTail (schedule H) l { s' with sie := s'.sie || s.sie }).Ensures _ _ _
        rw [hsie]
        refine (ih (hi'.setSie s.sie) (.inl hset') hrun).mono id ?_
        intro u ⟨hu, hw⟩
        exact ⟨hu, fun q hq h => hw q hq (h.same (hrun ▸ hq) rfl id)⟩

end

/-! ## calls -/

def Plan.sie : Plan → Bool → Bool
  | .fail _ _, sie => sie
  | .panic, sie => sie
  | .go _ tail, sie => tailSie tail sie

section
variable {H : Heap} {s : ProcessManager}

theorem wakeLater_sie (q : Pid) : (s.wakeLater H q).sie = s.sie := by
  rcases wakeLater_cases H s q with h | ⟨p, _, _, h⟩
  · rw [h]
  · rw [h]
    rfl

theorem wakeLater_statusOf (q pid : Pid) : (s.wakeLater H q).statusOf pid = s.statusOf pid := by
  rcases wakeLater_cases H s q with h | ⟨p, _, _, h⟩
  · rw [h]
  · rw [h]
    exact statusOf_setState ..

/-- no act switches interrupts, and only `setup` saves a context -/
theorem Act.status_apply (a : Act) (pid : Pid) : (a.apply H s).sie = s.sie ∧
    (Inv s → (s.ptable pid).isSome → a ≠ .setup pid → (a.apply H s).statusOf pid = s.statusOf pid) := by
  cases a with
  | create priority =>
    refine ⟨rfl, fun hs h _ => ?_⟩
    unfold ProcessManager.statusOf
    rw [hs.create_ptable priority h]
  | setup q =>
    refine ⟨rfl, fun _ _ hne => statusOf_saveStatus.trans (if_neg ?_)⟩
    rintro rfl
    exact hne rfl
  | semWait sid =>
    cases hx : s.stable sid with
    | none => rw [semWait_none hx]; exact ⟨rfl, fun _ _ _ => rfl⟩
    | some x =>
      by_cases hc : x.take.count < 0
      · rw [semWait_block hx hc]
        exact ⟨rfl, fun _ _ _ => statusOf_setState ..⟩
      · rw [semWait_pass hx hc]
        exact ⟨rfl, fun _ _ _ => rfl⟩
  | semPost sid =>
    cases hx : s.stable sid with
    | none => rw [semPost_none hx]; exact ⟨rfl, fun _ _ _ => rfl⟩
    | some x => rw [semPost_some hx]; exact ⟨rfl, fun _ _ _ => rfl⟩
  | semPop sid =>
    cases hx : s.stable sid with
    | none => rw [semPop_none hx]; exact ⟨rfl, fun _ _ _ => rfl⟩
    | some x => rw [semPop_some hx]; exact ⟨rfl, fun _ _ _ => rfl⟩
  | semFree sid =>
    cases hx : s.stable sid with
    | none => rw [semFree_none hx]; exact ⟨rfl, fun _ _ _ => rfl⟩
    | some x => rw [semFree_some hx]; exact ⟨rfl, fun _ _ _ => rfl⟩
  | wake q =>
    show (s.wake H q).sie = s.sie ∧ (_ → _ → _ → (s.wake H q).statusOf pid = _)
    unfold ProcessManager.wake
    split
    · split
      · exact ⟨rfl, fun _ _ _ => statusOf_setState ..⟩
      · exact ⟨rfl, fun _ _ _ => rfl⟩
    · exact ⟨rfl, fun _ _ _ => rfl⟩
  | wakeLater q => exact ⟨wakeLater_sie q, fun _ _ _ => wakeLater_statusOf q pid⟩
  | sleepers pids =>
    show (s.wakeSleepers H pids).sie = s.sie ∧ (_ → _ → _ → (s.wakeSleepers H pids).statusOf pid = _)
    have h : (s.wakeSleepers H pids).sie = s.sie ∧ (s.wakeSleepers H pids).statusOf pid = s.statusOf pid := by
      induction pids generalizing s with
      | nil => exact ⟨rfl, rfl⟩
      | cons q pids ih =>
        unfold ProcessManager.wakeSleepers
        split
        · exact ⟨ih.1.trans (wakeLater_sie q), ih.2.trans (wakeLater_statusOf q pid)⟩
        · exact ih
    exact ⟨h.1, fun _ _ _ => h.2⟩
  | sleepOn q delay => exact ⟨rfl, fun _ _ _ => statusOf_setState ..⟩
  | ioOn q => exact ⟨rfl, fun _ _ _ => statusOf_setState ..⟩
  | eventOn q event => exact ⟨rfl, fun _ _ _ => statusOf_setState ..⟩
  | kill q => exact ⟨rfl, fun _ _ _ => statusOf_setState ..⟩
  | reap q index =>
    exact ⟨rfl, fun _ _ _ => s.map_updateProcess q Process.sstatus
      (fun p => { p with children := p.children.eraseIdx index }) (fun _ => rfl) pid⟩
  | _ => exact ⟨rfl, fun _ _ _ => rfl⟩

theorem applyAll_sie (acts : List Act) : ∀ {s : ProcessManager}, (applyAll H acts s).sie = s.sie := by
  induction acts with
  | nil => exact rfl
  | cons a acts ih => exact ih.trans (a.status_apply 0).1

/-- a call sets up only the process that it has just created -/
theorem Planned.setup {mask : Bool} {op : Op} {p : Plan} (h : Planned H s mask op p) {pid : Pid}
    (hm : Act.setup pid ∈ p.acts) : pid = s.currPid := by
  cases h with
  | create priority doSetup => cases doSetup <;> simp_all [Plan.acts]
  | _ => simp_all [Plan.acts, Plan.after, deferred, freeAll]

/-- the acts of a call leave the contexts of the others alone -/
theorem Planned.statusOf {mask : Bool} {op : Op} {p : Plan} (h : Planned H s mask op p) (hs : Inv s) {q : Pid}
    (hq : s.statusOf q = some false) : (applyAll H p.acts s).statusOf q = some false := by
  have hsome : ∀ {t : ProcessManager}, t.statusOf q = some false → (t.ptable q).isSome := by
    intro t ht
    obtain ⟨p, hp, -⟩ := Option.map_eq_some_iff.mp ht
    rw [hp]
    rfl
  have hne : ∀ a ∈ p.acts, a ≠ .setup q := by
    rintro a ha rfl
    have := hsome hq
    rw [hs.fresh q (Nat.le_of_eq (h.setup ha).symm)] at this
    cases this
  refine (hs.along (J := fun t => t.statusOf q = some false)
    (fun t a ht hst (ha : a ≠ .setup q) => ?_) (h.valid hs) (Along.of_forall (Q := (· ≠ .setup q)) (fun _ _ h => h) hne) hq).2
  exact ((a.status_apply q).2 ht (hsome hst) ha).trans hst

theorem Op.entry_defer (op : Op) (s : ProcessManager) : (op.entry s).defer = s.defer := by
  unfold Op.entry
  split <;> rfl

theorem Op.entry_ptable (op : Op) (s : ProcessManager) : (op.entry s).ptable = s.ptable := by
  unfold Op.entry
  split <;> rfl

/-- the contract of a call of `op` that begins in `s`: it comes back with the mask and the deferrals of its plan -/
def Op.pledge (H : Heap) (op : Op) (s : ProcessManager) : Contract ProcessManager :=
  Citron.pledge s.running fun t => t.sie = (op.body H (op.entry s) s.sie).sie (op.entry s).sie ∧
    t.defer.count = (applyAll H (op.body H (op.entry s) s.sie).acts (op.entry s)).defer.count

/-- **What a call comes back with.** -/
theorem Op.ensures_pledge (op : Op) (hs : Inv s) (hset : s.Settled) : (op.run H s).Ensures (op.pledge H s) True
    (fun t => (Inv t ∧ t.Settled) ∧ ∀ q, q ≠ s.running → Awaits q s → Awaits q t) := by
  obtain ⟨hi, hst, hrun⟩ := op.inv_entry hs hset
  have hp := op.body_cases hi.toClosed (H := H) s.sie
  have hia := hi.applyAll (H := H) (hp.valid hi)
  have hseta := hp.settled hi hst
  have hruna := (applyAll_running (H := H) (op.body H (op.entry s) s.sie).acts (op.entry s)).trans hrun
  have hw : ∀ q, q ≠ s.running → Awaits q s → Awaits q (applyAll H (op.body H (op.entry s) s.sie).acts (op.entry s)) := by
    intro q hq h
    refine h.same hq hruna fun hq => hp.statusOf hi ?_
    unfold ProcessManager.statusOf
    rwa [op.entry_ptable]
  unfold Op.pledge
  rw [Op.run_eq_body H hs.toClosed]
  generalize op.body H (op.entry s) s.sie = p at *
  cases p with
  | fail e acts =>
    exact ⟨⟨⟨hia, hseta.resolve_left (by simp [Plan.tail])⟩, hw⟩, hruna, applyAll_sie acts, rfl⟩
  | panic => trivial
  | go acts tail =>
    have h := runTail_pledge (H := H) tail hia hseta.symm hruna
    rw [applyAll_sie] at h
    exact h.mono False.elim fun t ht => ⟨ht.1, fun q hq h => ht.2 q hq (hw q hq h)⟩

variable {may : Op → ProcessManager → Prop} {sie : Bool} {y z : Sys ProcessManager ProcessError}

/-- in every state that is reached, the processes that are in the middle of a call find what they rely on -/
theorem Reached.held (hy : Reached H may sie y) :
    y.Held (fun s => Inv s ∧ s.Settled) Awaits (fun p => Citron.pledge p fun _ => True) := by
  refine Reach.held (I := fun s => Inv s ∧ s.Settled) (booted_inv H sie) pledge_fits (fun turn s hs _ => ?_) hy
  cases turn with
  | call op => exact (op.ensures_pledge (H := H) hs.1 hs.2).weaken fun t ht => ⟨ht.1, trivial⟩
  | mask b => exact ⟨⟨⟨hs.1.setSie b, hs.2⟩, fun q hq h => h.same hq rfl id⟩, rfl, trivial⟩

/-- what each segment of a call comes back with -/
theorem Op.During.pledged {op : Op} {r : Res ProcessManager ProcessError Unit} (h : op.During H may y z r)
    (hy : Reached H may sie y) (hop : may op y.st) (hcall : y.susp y.st.running = none) : 
    ∃ G, r.Ensures (op.pledge H y.st) True G := by
  have hheld := Reached.held hy
  have hfirst := op.ensures_pledge (H := H) hheld.inv.1 hheld.inv.2
  refine Sys.During.carry (P := fun r => ∃ G, r.Ensures (op.pledge H y.st) True G) pledge_fits Reached.held h hy hop
    hcall ⟨_, hfirst⟩ ?_
  intro s k s' ⟨G, _, _, hk⟩ hs'
  exact ⟨_, (hk s' hs').mono False.elim fun _ h => h⟩

end

/-! ## the mask -/

/-- the exits of the source without `interrupt_restore`: the `?` on a process or a semaphore that does not exist,
and the early return of `wait_exit` -/
def Op.Slips (op : Op) (s : ProcessManager) : Prop :=
  (∃ e, op.Missing s e) ∨ op = .waitExit ∧ ∃ pid ∈ s.childrenOf s.running, s.stateOf pid = some .free

section
variable {H : Heap} {s : ProcessManager}

theorem Op.missing_entry {op : Op} {e : ProcessError} : op.Missing (op.entry s) e ↔ op.Missing s e := by
  unfold Op.entry
  split
  · cases op <;> exact Iff.rfl
  · exact Iff.rfl

theorem Op.body_missing {op : Op} {e : ProcessError} (mask : Bool) (h : op.Missing s e) :
    op.body H s mask = .fail e [] := by
  cases op with
  | waitSemaphore sid => simp [Op.body, h.1, h.2]
  | signalSemaphore sid => simp [Op.body, h.1, h.2]
  | deleteSemaphore sid => simp [Op.body, h.1, h.2]
  | ready pid => simp [Op.body, readyPlan, h.1, h.2]
  | sleep pid delay => simp [Op.body, h.1, h.2]
  | kill pid => simp [Op.body, h.1, h.2]
  | ioWait pid => simp [Op.body, h.1, h.2]
  | ioSignal pid => simp [Op.body, readyPlan, h.1, h.2]
  | eventWait pid event => simp [Op.body, h.1, h.2]
  | _ => exact h.elim

theorem exited_eq_none {pids : List Pid} : exited s pids = none ↔ ¬ ∃ pid ∈ pids, s.stateOf pid = some .free := by
  unfold exited
  simp

/-- every branch but those two restores the mask, or panics -/
theorem Planned.restores {mask : Bool} {op : Op} {p : Plan} (h : Planned H s mask op p) (hm : op.masks = true) :
    p.sie false = mask ∨ p.sie false = false ∧
      (p = .panic ∨ (∃ e, op.Missing s e) ∨ ∃ pid, p = .go [.reap s.running pid] []) := by
  cases h with
  | fail h => exact .inr ⟨rfl, .inr (.inl ⟨_, h⟩)⟩
  | semEmpty hx hc hq => exact .inr ⟨rfl, .inl rfl⟩
  | semShort hx hk => exact .inr ⟨rfl, .inl rfl⟩
  | reap pid => exact .inr ⟨rfl, .inr (.inr ⟨pid, rfl⟩)⟩
  | @semWake sid x pid rest p hx hc hq hp => cases p.state.blocked <;> exact .inl (by simp [Plan.sie, tailSie])
  | @ioSignal pid p hp => cases p.state.blocked <;> exact .inl (by simp [Plan.sie, tailSie])
  | create priority doSetup => cases hm
  | createKernel priority => cases hm
  | schedule => cases hm
  | ready hp => cases hm
  | start => cases hm
  | stop => cases hm
  | _ => exact .inl (by simp [Plan.sie, Plan.after, deferred, tailSie, tailSie_stop])

/-- `wait_exit` takes its early return only if a child is dead -/
theorem waitExit_body (hs : Closed s) (mask : Bool) (h : ¬ ∃ pid ∈ s.childrenOf s.running, s.stateOf pid = some .free)
    (pid : Pid) : (Op.waitExit).body H s mask ≠ .go [.reap s.running pid] [] := by
  obtain ⟨p, hp⟩ := Option.isSome_iff_exists.mp hs.running
  have hch : s.childrenOf s.running = p.children := by simp [ProcessManager.childrenOf, hp]
  rw [hch] at h
  simp only [Op.body, hp, exited_eq_none.mpr h, deferred]
  intro e
  cases (Plan.go.inj e).1

/-- the plan of a masking call brings the mask back, if it was clear or the call takes neither exit -/
theorem Op.body_restores (op : Op) (hs : Closed s) (hm : op.masks = true) (hslip : s.sie = true → ¬ op.Slips s) :
    (op.body H (op.entry s) s.sie).sie (op.entry s).sie = s.sie ∨ op.body H (op.entry s) s.sie = .panic := by
  rw [show op.entry s = s.masked from if_pos hm]
  have hclosed : Closed s.masked := ⟨hs.running, hs.desc, hs.sleep, hs.sem, hs.event, hs.child, hs.fresh⟩
  have hplan := op.body_cases hclosed (H := H) s.sie
  rcases hplan.restores hm with h | ⟨h, hexit⟩
  · exact .inl h
  · cases hsie : s.sie with
    | false =>
      rw [hsie] at h
      exact .inl h
    | true =>
      rw [hsie] at h hexit hplan
      obtain hp | ⟨e, he⟩ | ⟨pid, hp⟩ := hexit
      · exact .inr hp
      · refine absurd (.inl ⟨e, ?_⟩) (hslip hsie)
        cases op <;> exact he
      · rw [hp] at hplan
        cases hplan
        exact absurd hp (waitExit_body hclosed true (fun h => hslip hsie (.inr ⟨rfl, h⟩)) pid)

variable {may : Op → ProcessManager → Prop} {sie : Bool} {y z : Sys ProcessManager ProcessError}

/-- a call that panics does not come back -/
theorem Op.During.panics {op : Op} {r : Res ProcessManager ProcessError Unit} (h : op.During H may y z r)
    (hy : Reached H may sie y) (hop : may op y.st) (hcall : y.susp y.st.running = none)
    (hp : op.run H y.st = .panic) : r = .panic :=
  Sys.During.carry (P := (· = .panic)) pledge_fits Reached.held h hy hop hcall hp fun _ _ _ h => nomatch h

end

/-- **The interrupt mask is restored**: whatever happens between its segments, an operation that begins with
`interrupt_disable` comes back to its caller with the mask of its call, exactly when it was called with interrupts
off or takes none of the two exits. -/
theorem mask_restored (H : Heap) (sie : Bool) (y : Sys ProcessManager ProcessError)
    (hy : Reached H (fun _ _ => True) sie y) (hcall : y.susp y.st.running = none) (op : Op)
    (hop : op.masks = true ∨ op = .schedule) :
    (∀ z r t, op.During H (fun _ _ => True) y z r → r.returned = some t → t.sie = y.st.sie) ↔
      (y.st.sie = true → ¬ op.Slips y.st) := by
  have hs := (Reached.held hy).inv.1.toClosed
  constructor
  · intro hall hsie hslip
    -- both exits are taken before the call gives the processor away
    have hexit : ∃ t, (op.run H y.st).returned = some t ∧ t.sie = false := by
      rw [Op.run_eq_body H hs]
      obtain ⟨e, he⟩ | ⟨rfl, pid, hmem, hfree⟩ := hslip
      · have hm : op.masks = true := by
          rcases hop with hm | rfl
          · exact hm
          · exact he.elim
        rw [Op.body_missing _ (Op.missing_entry.mpr he), show op.entry y.st = y.st.masked from if_pos hm]
        exact ⟨y.st.masked, rfl, rfl⟩
      · obtain ⟨p, hp⟩ := Option.isSome_iff_exists.mp hs.running
        have hch : p.children = y.st.childrenOf y.st.running := by simp [ProcessManager.childrenOf, hp]
        have hn : ¬ exited y.st.masked p.children = none := by
          rw [hch]
          exact fun h => exited_eq_none.mp h ⟨pid, hmem, hfree⟩
        obtain ⟨c, hc⟩ := Option.ne_none_iff_exists'.mp hn
        have hp' : y.st.masked.ptable y.st.masked.running = some p := hp
        refine ⟨(Act.reap y.st.running c).apply H y.st.masked, ?_, rfl⟩
        show (Plan.run H (schedule H) ((Op.waitExit).body H y.st.masked y.st.sie) y.st.masked).returned = _
        simp only [Op.body, hp', hc]
        rfl
    obtain ⟨t, ht, hoff⟩ := hexit
    cases (hoff.symm.trans (hall y _ t .call ht)).trans hsie
  · intro hcond z r t h ht
    obtain ⟨G, hens⟩ := h.pledged hy trivial hcall
    have hback := (hens.returned ht).2.1
    rcases hop with hm | rfl
    · rcases op.body_restores (H := H) hs hm hcond with hb | hb
      · exact hback.trans hb
      · have hrun : op.run H y.st = .panic := by
          rw [Op.run_eq_body H hs, hb]
          rfl
        rw [h.panics hy trivial hcall hrun] at ht
        cases ht
    · exact hback

/-- `io_signal` gives the processor to process 1, which goes to sleep: the call comes back with interrupts on. -/
theorem mask_restored_example : ∃ y z r t, Reached (BinaryHeap.scan _) (fun _ _ => True) true y ∧
    y.st.sie = true ∧ (Op.ioSignal 1).During (BinaryHeap.scan _) (fun _ _ => True) y z r ∧ z.st.sie = false ∧
    r.returned = some t ∧ t.sie = true := by
  let y₀ : Sys ProcessManager ProcessError := ⟨ProcessManager.booted (BinaryHeap.scan _) true, fun _ => none⟩
  let step (op : Op) (y : Sys ProcessManager ProcessError) : Option (Sys ProcessManager ProcessError) :=
    y.step ProcessManager.running (Turn.run (BinaryHeap.scan _)) (some (.call op))
  have hrun : ((step (.createProcess 5 true) y₀).bind fun y => (step (.ioSignal 1) y).bind fun z₁ =>
      (step (.sleep 1 7) z₁).bind fun z => (z₁.susp 0).bind fun k => (k z.st).returned.map fun _ =>
        ((y.susp 0).isNone && y.st.sie && !z.st.sie && (y.st.ptable 1).isSome,
          y.st.running, z₁.st.running, z.st.running)) = some (true, 0, 1, 0) := rfl
  obtain ⟨y, hy, hrun⟩ := Option.bind_eq_some_iff.mp hrun
  obtain ⟨z₁, hz₁, hrun⟩ := Option.bind_eq_some_iff.mp hrun
  obtain ⟨z, hz, hrun⟩ := Option.bind_eq_some_iff.mp hrun
  obtain ⟨k, hk, hrun⟩ := Option.bind_eq_some_iff.mp hrun
  obtain ⟨t, ht, hrun⟩ := Option.map_eq_some_iff.mp hrun
  simp only [Prod.mk.injEq, Bool.and_eq_true, Bool.not_eq_true', Option.isNone_iff_eq_none] at hrun
  obtain ⟨⟨⟨⟨hnone, hsie⟩, hzsie⟩, hsome⟩, h0, h1, hz0⟩ := hrun
  have hreach : Reached (BinaryHeap.scan _) (fun _ _ => True) true y :=
    .step .init (fun op e => by cases e; trivial) hy
  have hduring : (Op.ioSignal 1).During (BinaryHeap.scan _) (fun _ _ => True) y z (k z.st) := by
    refine .resumed hz₁ (by rw [h0]; exact hk) (.step .refl ?_ (fun op e => by cases e; trivial) hz) (hz0.trans h0.symm)
    rw [h1, h0]
    decide
  have hslip : ¬ (Op.ioSignal 1).Slips y.st := by
    rintro (⟨e, h, -⟩ | ⟨h, -⟩)
    · rw [h] at hsome
      cases hsome
    · cases h
  have hmask := (mask_restored _ _ y hreach (by rw [h0]; exact hnone) (.ioSignal 1) (.inl rfl)).mpr (fun _ => hslip)
    z _ t hduring ht
  exact ⟨y, z, k z.st, t, hreach, hsie, hduring, hzsie, ht, hmask.trans hsie⟩

/-- `io_wait` of a process that does not exist leaves interrupts off. -/
theorem mask_lost : ¬ ∀ (H : Heap) (sie : Bool) (y : Sys ProcessManager ProcessError),
    Reached H (fun _ _ => True) sie y → y.susp y.st.running = none → ∀ op : Op,
    op.masks = true ∨ op = .schedule → ∀ z r t, op.During H (fun _ _ => True) y z r → r.returned = some t →
    t.sie = y.st.sie := by
  intro hall
  have h := hall (BinaryHeap.scan _) true ⟨ProcessManager.booted (BinaryHeap.scan _) true, fun _ => none⟩ .init rfl
    (.ioWait 7) (.inl rfl) _ _ (ProcessManager.booted (BinaryHeap.scan _) true).masked .call
    rfl
  cases h

end Citron
