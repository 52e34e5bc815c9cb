import Citron.Process.Invariant

/-!
# Acts

* `Along`                a condition on every act of a list, each in the state where it is done;
* `Act.inv_apply`        every act keeps `Inv`;
* `Inv.along`            so does a list of acts, with whatever else each of them keeps;
* `Act.Still`            the acts that make nobody ready and nobody wait.
-/

set_option linter.unusedSectionVars false

namespace Citron
open Resumption

section
variable (H : Heap)

/-- every act is `ok` in the state where it is done -/
def Along (ok : ProcessManager → Act → Prop) : ProcessManager → List Act → Prop
  | _, [] => True
  | s, a :: acts => ok s a ∧ Along ok (a.apply H s) acts

variable {H} {ok : ProcessManager → Act → Prop}

theorem along_append {acts acts' : List Act} : ∀ {s : ProcessManager},
    Along H ok s (acts ++ acts') ↔ Along H ok s acts ∧ Along H ok (applyAll H acts s) acts' := by
  induction acts with
  | nil => intro s; simp [Along]
  | cons a acts ih => intro s; simp only [List.cons_append, Along, ih, applyAll_cons, and_assoc]

/-- a condition on the acts alone -/
theorem Along.of_forall {Q : Act → Prop} (hQ : ∀ s a, Q a → ok s a) {acts : List Act} :
    ∀ {s : ProcessManager}, (∀ a ∈ acts, Q a) → Along H ok s acts := by
  induction acts with
  | nil => intro s _; trivial
  | cons a acts ih =>
    intro s h
    exact ⟨hQ s a (h a (List.mem_cons_self ..)), ih fun b hb => h b (List.mem_cons_of_mem _ hb)⟩

theorem Along.imp {ok' : ProcessManager → Act → Prop} (h : ∀ s a, ok s a → ok' s a) {acts : List Act} :
    ∀ {s : ProcessManager}, Along H ok s acts → Along H ok' s acts := by
  induction acts with
  | nil => exact fun _ => trivial
  | cons a acts ih => exact fun ha => ⟨h _ a ha.1, ih ha.2⟩

/-! ## every act keeps `Inv` -/

namespace Inv
variable {s : ProcessManager} (hs : Inv s)
include hs

theorem setDefer (d : DeferScheduler) : Inv { s with defer := d } :=
  ⟨⟨hs.running, hs.desc, hs.sleep, hs.sem, hs.event, hs.child, hs.fresh⟩, hs.own, hs.prio, hs.listed⟩

theorem setSleep (q : List ProcessDelay) (h : ∀ d ∈ q, (s.ptable d.pid).isSome) :
    Inv { s with sleepQueue := q } :=
  ⟨⟨hs.running, hs.desc, h, hs.sem, hs.event, hs.child, hs.fresh⟩, hs.own, hs.prio, hs.listed⟩

theorem setSid (n : Sid) : Inv { s with currSid := n } :=
  ⟨⟨hs.running, hs.desc, hs.sleep, hs.sem, hs.event, hs.child, hs.fresh⟩, hs.own, hs.prio, hs.listed⟩

theorem setSemaphore (sid : Sid) (x : Semaphore) (h : ∀ pid ∈ x.queue, (s.ptable pid).isSome) :
    Inv (s.setSemaphore sid x) := by
  refine ⟨⟨hs.running, hs.desc, hs.sleep, fun sid' x' hx => ?_, hs.event, hs.child, hs.fresh⟩,
    hs.own, hs.prio, hs.listed⟩
  by_cases e : sid' = sid
  · subst e
    simp only [ProcessManager.setSemaphore, Function.update_self, Option.some.injEq] at hx
    subst hx
    exact h
  · simp only [ProcessManager.setSemaphore, Function.update_of_ne e] at hx
    exact hs.sem sid' x' hx

theorem setEvent (event : ProcessEvent) (pids : Option (List Pid))
    (h : ∀ pid ∈ pids.getD [], (s.ptable pid).isSome) : Inv (s.setEvent event pids) := by
  refine ⟨⟨hs.running, hs.desc, hs.sleep, hs.sem, fun event' => ?_, hs.child, hs.fresh⟩,
    hs.own, hs.prio, hs.listed⟩
  unfold ProcessManager.waiters ProcessManager.setEvent
  by_cases e : event' = event
  · subst e
    simpa using h
  · simpa [Function.update_of_ne e, ProcessManager.waiters] using hs.event event'

/-- an update of a process that leaves its state and its priority alone -/
theorem updateProcess (pid : Pid) (f : Process → Process) (h1 : ∀ p, (f p).state = p.state)
    (h2 : ∀ p, (f p).priority = p.priority)
    (h3 : ∀ p, ∀ c ∈ (f p).children, c ∈ p.children) : Inv (s.updateProcess pid f) := by
  have hst : ∀ q, (s.updateProcess pid f).stateOf q = s.stateOf q :=
    s.map_updateProcess pid Process.state f h1
  have hpr : ∀ q, (s.updateProcess pid f).prioOf q = s.prioOf q :=
    s.map_updateProcess pid Process.priority f h2
  have hch : ∀ q, ∀ c ∈ (s.updateProcess pid f).childrenOf q, c ∈ s.childrenOf q := by
    intro q c hc
    unfold ProcessManager.childrenOf ProcessManager.updateProcess at *
    by_cases e : q = pid
    · subst e
      cases hp : s.ptable q with
      | none => simp [hp] at hc
      | some p => simpa [hp] using h3 p c (by simpa [hp] using hc)
    · simpa [Function.update_of_ne e] using hc
  refine ⟨hs.toClosed.of_same (isSome_updateProcess s pid f) hch hs.running hs.desc rfl rfl rfl rfl,
    fun q hq => ?_, fun d hd => ?_, fun q hq => ?_⟩
  · exact hs.own q (hst q ▸ hq)
  · rw [hpr]
    exact hs.prio d hd
  · exact hs.listed q (hst q ▸ hq)

/-- a process is put to wait, or dies -/
theorem setState (pid : Pid) {st : State} (hr : st ≠ .running) (hd : st ≠ .ready) :
    Inv (s.setState pid st) := by
  have hst : ∀ q st', st' ≠ st → (s.setState pid st).stateOf q = some st' →
      s.stateOf q = some st' := by
    intro q st' hne h
    rw [ProcessManager.stateOf_setState] at h
    by_cases e : q = pid
    · rw [if_pos e, Option.map_eq_some_iff] at h
      obtain ⟨_, _, rfl⟩ := h
      exact absurd rfl hne
    · rwa [if_neg e] at h
  refine ⟨hs.toClosed.of_same (isSome_setState s pid st)
    (fun q c hc => ProcessManager.childrenOf_setState s pid st q ▸ hc) hs.running hs.desc
    rfl rfl rfl rfl, fun q hq => ?_, fun d hd => ?_, fun q hq => ?_⟩
  · exact hs.own q (hst q _ hr.symm hq)
  · rw [ProcessManager.prioOf_setState]
    exact hs.prio d hd
  · exact hs.listed q (hst q _ hd.symm hq)

theorem makeReady {pid : Pid} {p : Process} (hp : s.ptable pid = some p) :
    Inv (s.makeReady H pid p) := by
  have hst : ∀ q, (s.makeReady H pid p).stateOf q
      = if q = pid then some .ready else s.stateOf q := by
    intro q
    refine (ProcessManager.stateOf_setState ..).trans ?_
    rw [ProcessManager.stateOf_of_ptable hp]
    rfl
  have hpr : ∀ q, (s.makeReady H pid p).prioOf q = s.prioOf q :=
    fun q => ProcessManager.prioOf_setState ..
  refine ⟨hs.toClosed.of_same (isSome_setState s pid .ready)
    (fun q c hc => ProcessManager.childrenOf_setState s pid .ready q ▸ hc) hs.running
    (fun d hd => ?_) rfl rfl rfl rfl, fun q hq => ?_, fun d hd => ?_, fun q hq => ?_⟩
  · rcases (H.mem_push _ _ _).mp hd with rfl | hd
    · rw [hp]
      rfl
    · exact hs.desc d hd
  · rw [hst] at hq
    by_cases e : q = pid
    · rw [if_pos e] at hq
      exact absurd hq (by simp)
    · rw [if_neg e] at hq
      exact hs.own q hq
  · rw [hpr]
    rcases (H.mem_push _ _ _).mp hd with rfl | hd
    · exact ProcessManager.prioOf_of_ptable hp
    · exact hs.prio d hd
  · by_cases e : q = pid
    · exact ⟨⟨p.priority, pid⟩, (H.mem_push _ _ _).mpr (.inl rfl), e.symm⟩
    · rw [hst, if_neg e] at hq
      obtain ⟨d, hd, rfl⟩ := hs.listed q hq
      exact ⟨d, (H.mem_push _ _ _).mpr (.inr hd), rfl⟩

theorem wakeLater (pid : Pid) : Inv (s.wakeLater H pid) := by
  rcases wakeLater_cases H s pid with h | ⟨p, hp, _, h⟩
  · rwa [h]
  · rw [h]
    exact (hs.makeReady hp).setDefer _

theorem wake (pid : Pid) : Inv (s.wake H pid) := by
  unfold ProcessManager.wake
  cases hp : s.ptable pid with
  | none => exact hs
  | some p =>
    show Inv (if _ then _ else _)
    split
    · exact hs.makeReady hp
    · exact hs

theorem wakeSleepers (pids : List Pid) : Inv (s.wakeSleepers H pids) := by
  induction pids generalizing s with
  | nil => exact hs
  | cons pid pids ih =>
    unfold ProcessManager.wakeSleepers
    split
    · exact ih (hs.wakeLater pid)
    · exact ih hs

/-- the process that `create_process` adds -/
theorem create_ptable (priority : Nat) {q : Pid} (h : (s.ptable q).isSome) :
    ((Act.create priority).apply H s).ptable q = s.ptable q := by
  have hq : q ≠ s.currPid := by
    rintro rfl
    rw [hs.fresh _ (Nat.le_refl _)] at h
    exact absurd h (by simp)
  exact Function.update_of_ne hq ..

theorem create_stateOf (priority : Nat) (q : Pid) :
    ((Act.create priority).apply H s).stateOf q
      = if q = s.currPid then some .suspend else s.stateOf q := by
  unfold ProcessManager.stateOf
  by_cases e : q = s.currPid
  · subst e
    simp [Act.apply, ProcessManager.insertProcess]
  · simp [Act.apply, ProcessManager.insertProcess, e]

theorem create (priority : Nat) : Inv ((Act.create priority).apply H s) := by
  have hkeep : ∀ q, (s.ptable q).isSome →
      (((Act.create priority).apply H s).ptable q).isSome := by
    intro q h
    rwa [hs.create_ptable priority h]
  have hst : ∀ q st, st ≠ .suspend → ((Act.create priority).apply H s).stateOf q = some st →
      s.stateOf q = some st := by
    intro q st hne h
    rw [hs.create_stateOf] at h
    by_cases e : q = s.currPid
    · rw [if_pos e] at h
      exact absurd (Option.some.inj h).symm hne
    · rwa [if_neg e] at h
  refine ⟨⟨hkeep _ hs.running, fun d hd => hkeep _ (hs.desc d hd), fun d hd => hkeep _ (hs.sleep d hd),
    fun sid x hx q hq => hkeep q (hs.sem sid x hx q hq), fun e q hq => hkeep q (hs.event e q hq),
    fun q c hc => hkeep c (hs.child q c ?_), fun q hq => ?_⟩,
    fun q hq => hs.own q (hst q _ (by simp) hq), fun d hd => ?_,
    fun q hq => hs.listed q (hst q _ (by simp) hq)⟩
  · -- the new process has no children
    unfold ProcessManager.childrenOf at hc ⊢
    by_cases e : q = s.currPid
    · subst e
      simp [Act.apply, ProcessManager.insertProcess, Process.new] at hc
    · simpa [Act.apply, ProcessManager.insertProcess, e] using hc
  · have e : q ≠ s.currPid := Nat.ne_of_gt hq
    exact (Function.update_of_ne e ..).trans (hs.fresh q (Nat.le_of_succ_le hq))
  · unfold ProcessManager.prioOf
    rw [hs.create_ptable priority (hs.desc d hd)]
    exact hs.prio d hd

end Inv

/-- the process that an act registers somewhere exists -/
def Act.Valid (s : ProcessManager) : Act → Prop
  | .sleepOn pid _ => (s.ptable pid).isSome
  | .eventOn pid _ => (s.ptable pid).isSome
  | _ => True

theorem mem_sleepInsert {pid : Pid} {delay : UInt64} {d : ProcessDelay} (q : List ProcessDelay) :
    ∀ {sum : UInt64}, d ∈ sleepInsert pid delay sum q →
      d.pid = pid ∨ ∃ d' ∈ q, d'.pid = d.pid := by
  induction q with
  | nil =>
    intro sum h
    simp only [sleepInsert, List.mem_singleton] at h
    exact .inl (by rw [h])
  | cons node rest ih =>
    intro sum h
    unfold sleepInsert at h
    split at h
    · rcases List.mem_cons.mp h with rfl | h
      · exact .inl rfl
      · rcases List.mem_cons.mp h with rfl | h
        · exact .inr ⟨node, List.mem_cons_self .., rfl⟩
        · exact .inr ⟨d, List.mem_cons_of_mem _ h, rfl⟩
    · rcases List.mem_cons.mp h with rfl | h
      · exact .inr ⟨d, List.mem_cons_self .., rfl⟩
      · rcases ih h with h | ⟨d', hd', e⟩
        · exact .inl h
        · exact .inr ⟨d', List.mem_cons_of_mem _ hd', e⟩

/-- **Every act keeps the invariant.** -/
theorem Act.inv_apply {s : ProcessManager} {a : Act} (hs : Inv s) (ha : a.Valid s) :
    Inv (a.apply H s) := by
  cases a with
  | start => exact hs.setDefer _
  | stop => exact hs.setDefer _
  | attempt => exact hs.setDefer _
  | create priority => exact hs.create priority
  | setup pid =>
    exact hs.updateProcess pid ({ · with sstatus := s.sie }) (fun _ => rfl) (fun _ => rfl)
      (fun _ _ h => h)
  | newSem count =>
    exact (hs.setSemaphore s.currSid (Semaphore.new count) (by simp [Semaphore.new])).setSid _
  | semWait sid =>
    cases hx : s.stable sid with
    | none => rwa [semWait_none hx]
    | some x =>
      have hq := hs.sem sid x hx
      by_cases hc : x.take.count < 0
      · rw [semWait_block hx hc]
        refine (hs.setState s.running (by simp) (by simp)).setSemaphore sid _ fun q h => ?_
        rw [isSome_setState]
        rcases List.mem_append.mp h with h | h
        · exact hq q h
        · rw [List.mem_singleton.mp h]
          exact hs.running
      · rw [semWait_pass hx hc]
        exact hs.setSemaphore sid _ hq
  | semPost sid =>
    cases hx : s.stable sid with
    | none => rwa [semPost_none hx]
    | some x =>
      rw [semPost_some hx]
      exact hs.setSemaphore sid _ (hs.sem sid x hx)
  | semPop sid =>
    cases hx : s.stable sid with
    | none => rwa [semPop_none hx]
    | some x =>
      rw [semPop_some hx]
      exact hs.setSemaphore sid _ fun q h => hs.sem sid x hx q (List.mem_of_mem_tail h)
  | semFree sid =>
    cases hx : s.stable sid with
    | none => rwa [semFree_none hx]
    | some x =>
      rw [semFree_some hx]
      exact hs.setSemaphore sid _ (hs.sem sid x hx)
  | wake pid => exact hs.wake pid
  | wakeLater pid => exact hs.wakeLater pid
  | sleepOn pid delay =>
    refine (hs.setState pid (by simp) (by simp)).setSleep _ fun d hd => ?_
    rw [isSome_setState]
    rcases mem_sleepInsert _ hd with e | ⟨d', hd', e⟩
    · rw [e]
      exact ha
    · rw [← e]
      exact hs.sleep d' hd'
  | tick =>
    refine hs.setSleep _ fun d hd => ?_
    have hd := (List.dropWhile_sublist _).mem hd
    unfold ProcessManager.ticked at hd
    cases hq : s.sleepQueue with
    | nil =>
      rw [hq] at hd
      exact absurd hd (by simp)
    | cons p rest =>
      rw [hq] at hd
      rcases List.mem_cons.mp hd with rfl | hd
      · have hp := hs.sleep p (by rw [hq]; simp)
        unfold ProcessDelay.tick
        split <;> exact hp
      · exact hs.sleep d (by rw [hq]; exact List.mem_cons_of_mem _ hd)
  | sleepers pids => exact hs.wakeSleepers pids
  | ioOn pid => exact hs.setState pid (by simp) (by simp)
  | eventOn pid event =>
    refine (hs.setState pid (by simp) (by simp)).setEvent event _ fun q hq => ?_
    rw [isSome_setState]
    rcases List.mem_append.mp hq with h | h
    · exact hs.event event q h
    · rw [List.mem_singleton.mp h]
      exact ha
  | takeEvent event => exact hs.setEvent event none (by simp)
  | kill pid => exact hs.setState pid (by simp) (by simp)
  | reap pid index =>
    exact hs.updateProcess pid (fun p => { p with children := p.children.eraseIdx index })
      (fun _ => rfl) (fun _ => rfl) (fun _ _ h => List.mem_of_mem_eraseIdx h)

/-- an act loses no process -/
theorem Act.isSome_apply {s : ProcessManager} (hs : Inv s) (a : Act) {pid : Pid}
    (h : (s.ptable pid).isSome) : ((a.apply H s).ptable pid).isSome := by
  have hsleep : ∀ (pids : List Pid) (t : ProcessManager), (t.ptable pid).isSome →
      ((t.wakeSleepers H pids).ptable pid).isSome := by
    intro pids
    induction pids with
    | nil => intro t ht; exact ht
    | cons q pids ih =>
      intro t ht
      unfold ProcessManager.wakeSleepers
      split
      · exact ih _ (by simpa using ht)
      · exact ih _ ht
  cases a with
  | create priority => rwa [hs.create_ptable priority h]
  | setup q => exact (isSome_updateProcess ..).trans h
  | semWait sid =>
    cases hx : s.stable sid with
    | none => rwa [semWait_none hx]
    | some x =>
      by_cases hc : x.take.count < 0
      · rw [semWait_block hx hc]
        exact (isSome_setState ..).trans h
      · rwa [semWait_pass hx hc]
  | semPost sid =>
    cases hx : s.stable sid with
    | none => rwa [semPost_none hx]
    | some x => rwa [semPost_some hx]
  | semPop sid =>
    cases hx : s.stable sid with
    | none => rwa [semPop_none hx]
    | some x => rwa [semPop_some hx]
  | semFree sid =>
    cases hx : s.stable sid with
    | none => rwa [semFree_none hx]
    | some x => rwa [semFree_some hx]
  | wake q =>
    show ((s.wake H q).ptable pid).isSome
    unfold ProcessManager.wake
    split
    · split
      · exact (isSome_setState ..).trans h
      · exact h
    · exact h
  | wakeLater q => exact (isSome_wakeLater ..).trans h
  | sleepOn q delay => exact (isSome_setState ..).trans h
  | sleepers pids => exact hsleep pids s h
  | ioOn q => exact (isSome_setState ..).trans h
  | eventOn q event => exact (isSome_setState ..).trans h
  | kill q => exact (isSome_setState ..).trans h
  | reap q index => exact (isSome_updateProcess ..).trans h
  | _ => exact h

/-- a list of valid acts keeps the invariant, and `J` with it, if each act does where it is done -/
theorem Inv.along {J : ProcessManager → Prop}
    (hJ : ∀ (s : ProcessManager) (a : Act), Inv s → J s → ok s a → J (a.apply H s))
    {acts : List Act} : ∀ {s : ProcessManager}, Inv s → (∀ a ∈ acts, a.Valid s) →
      Along H ok s acts → J s → Inv (applyAll H acts s) ∧ J (applyAll H acts s) := by
  induction acts with
  | nil => intro s hs _ _ h0; exact ⟨hs, h0⟩
  | cons a acts ih =>
    intro s hs hv ha h0
    have hs' := Act.inv_apply (H := H) hs (hv a (List.mem_cons_self ..))
    refine ih hs' (fun b hb => ?_) ha.2 (hJ s a hs h0 ha.1)
    have hb := hv b (List.mem_cons_of_mem _ hb)
    cases b with
    | sleepOn pid delay => exact Act.isSome_apply hs a hb
    | eventOn pid event => exact Act.isSome_apply hs a hb
    | _ => trivial

theorem Inv.applyAll {s : ProcessManager} {acts : List Act} (hs : Inv s)
    (hv : ∀ a ∈ acts, a.Valid s) : Inv (applyAll H acts s) :=
  have h : Along H (fun _ _ => True) s acts :=
    Along.of_forall (Q := fun _ => True) (fun _ _ h => h) fun _ _ => trivial
  (hs.along (J := fun _ => True) (fun _ _ _ _ _ => trivial) hv h trivial).1

/-! ## acts that make nobody ready and nobody wait -/

def Act.Still (s : ProcessManager) : Act → Prop
  | .stop => ¬ (s.defer.count = 1 ∧ s.defer.attempt = true)
  | .semWait sid => ∀ x, s.stable sid = some x → ¬ x.take.count < 0
  | .wake pid => ∀ p, s.ptable pid = some p → p.state.blocked = false
  | .attempt => False
  | .wakeLater _ => False
  | .sleepOn _ _ => False
  | .sleepers _ => False
  | .ioOn _ => False
  | .eventOn _ _ => False
  | .kill _ => False
  | _ => True

/-- from `s` to `t` nobody has been made ready or put to wait -/
structure Stilled (s t : ProcessManager) : Prop where
  running : t.running = s.running
  states : ∀ pid, t.stateOf pid = s.stateOf pid ∨ s.ptable pid = none ∧ t.stateOf pid = some .suspend
  prio : ∀ pid, (s.ptable pid).isSome → t.prioOf pid = s.prioOf pid
  defer : t.defer.count = 0 ∨ t.defer.attempt = false → s.defer.count = 0 ∨ s.defer.attempt = false

theorem Stilled.of_same {s t : ProcessManager} (h1 : t.running = s.running)
    (h2 : ∀ pid, t.stateOf pid = s.stateOf pid) (h3 : ∀ pid, t.prioOf pid = s.prioOf pid)
    (h4 : t.defer = s.defer) : Stilled s t :=
  ⟨h1, fun pid => .inl (h2 pid), fun pid _ => h3 pid, by rw [h4]; exact id⟩

theorem Stilled.refl (s : ProcessManager) : Stilled s s :=
  .of_same rfl (fun _ => rfl) (fun _ => rfl) rfl

theorem Act.Still.apply {s : ProcessManager} {a : Act} (hs : Inv s) (ha : a.Still s) :
    Stilled s (a.apply H s) := by
  cases a with
  | start =>
    refine ⟨rfl, fun _ => .inl rfl, fun _ _ => rfl, fun h => ?_⟩
    have h : s.defer.count + 1 = 0 ∨ (if s.defer.count = 0 then false else s.defer.attempt) = false :=
      h
    by_cases hc : s.defer.count = 0
    · exact .inl hc
    · rw [if_neg hc] at h
      exact .inr (h.resolve_left (by omega))
  | stop =>
    refine ⟨rfl, fun _ => .inl rfl, fun _ _ => rfl, fun h => ?_⟩
    have h : (if s.defer.count = 0 then 2 ^ 64 - 1 else s.defer.count - 1) = 0 ∨
      s.defer.attempt = false := h
    by_cases hc : s.defer.count = 0
    · exact .inl hc
    · rw [if_neg hc] at h
      refine .inr (h.elim (fun h => ?_) id)
      by_contra hne
      exact ha ⟨by omega, by simpa using hne⟩
  | create priority =>
    refine ⟨rfl, fun pid => ?_, fun pid h => ?_, id⟩
    · rw [hs.create_stateOf]
      by_cases e : pid = s.currPid
      · rw [if_pos e, e]
        exact .inr ⟨hs.fresh _ (Nat.le_refl _), rfl⟩
      · rw [if_neg e]
        exact .inl rfl
    · unfold ProcessManager.prioOf
      rw [hs.create_ptable priority h]
  | setup pid =>
    exact .of_same rfl (ProcessManager.stateOf_saveStatus s pid)
      (ProcessManager.prioOf_saveStatus s pid) rfl
  | newSem count => exact .of_same rfl (fun _ => rfl) (fun _ => rfl) rfl
  | semWait sid =>
    cases hx : s.stable sid with
    | none => rw [semWait_none hx]; exact .refl s
    | some x =>
      rw [semWait_pass hx (ha x hx)]
      exact .of_same rfl (fun _ => rfl) (fun _ => rfl) rfl
  | semPost sid =>
    cases hx : s.stable sid with
    | none => rw [semPost_none hx]; exact .refl s
    | some x => rw [semPost_some hx]; exact .of_same rfl (fun _ => rfl) (fun _ => rfl) rfl
  | semPop sid =>
    cases hx : s.stable sid with
    | none => rw [semPop_none hx]; exact .refl s
    | some x => rw [semPop_some hx]; exact .of_same rfl (fun _ => rfl) (fun _ => rfl) rfl
  | semFree sid =>
    cases hx : s.stable sid with
    | none => rw [semFree_none hx]; exact .refl s
    | some x => rw [semFree_some hx]; exact .of_same rfl (fun _ => rfl) (fun _ => rfl) rfl
  | wake pid =>
    have h : s.wake H pid = s := by
      unfold ProcessManager.wake
      cases hp : s.ptable pid with
      | none => rfl
      | some p => simp [ha p hp]
    show Stilled s (s.wake H pid)
    rw [h]
    exact .refl s
  | tick => exact .of_same rfl (fun _ => rfl) (fun _ => rfl) rfl
  | takeEvent event => exact .of_same rfl (fun _ => rfl) (fun _ => rfl) rfl
  | reap pid index =>
    exact .of_same rfl
      (s.map_updateProcess pid Process.state
        (fun p => { p with children := p.children.eraseIdx index }) (fun _ => rfl))
      (s.map_updateProcess pid Process.priority
        (fun p => { p with children := p.children.eraseIdx index }) (fun _ => rfl)) rfl
  | attempt => exact ha.elim
  | wakeLater pid => exact ha.elim
  | sleepOn pid delay => exact ha.elim
  | sleepers pids => exact ha.elim
  | ioOn pid => exact ha.elim
  | eventOn pid event => exact ha.elim
  | kill pid => exact ha.elim

/-- fewer processes are ready or running -/
theorem ProcessManager.Settled.of_fewer {s t : ProcessManager} (hs : Inv s) (hset : s.Settled)
    (hrun : t.running = s.running)
    (hst : ∀ pid st, st = .ready ∨ st = .running → t.stateOf pid = some st →
      s.stateOf pid = some st)
    (hpr : ∀ pid, (s.ptable pid).isSome → t.prioOf pid = s.prioOf pid)
    (hd : t.defer.count = 0 ∨ t.defer.attempt = false →
      s.defer.count = 0 ∨ s.defer.attempt = false) : t.Settled := by
  intro h hb pid a b h1 h2 h3
  have h1 := hst pid _ (.inl rfl) h1
  have hb : s.Busy := by
    unfold ProcessManager.Busy
    rw [← hrun]
    exact hst _ _ (.inr rfl) hb
  have hsome : (s.ptable pid).isSome := by
    unfold ProcessManager.stateOf at h1
    cases hp : s.ptable pid with
    | none => rw [hp] at h1; exact absurd h1 (by simp)
    | some p => rfl
  rw [hpr pid hsome] at h2
  rw [hrun, hpr s.running hs.running] at h3
  exact hset (hd h) hb pid a b h1 h2 h3

theorem Stilled.settled {s t : ProcessManager} (h : Stilled s t) (hs : Inv s) (hset : s.Settled) :
    t.Settled := by
  refine hset.of_fewer hs h.running (fun pid st hst ht => ?_) h.prio h.defer
  rcases h.states pid with e | ⟨_, e⟩
  · rwa [e] at ht
  · rw [e] at ht
    rcases hst with rfl | rfl <;> exact absurd ht (by simp)

theorem Stilled.busy {s t : ProcessManager} (h : Stilled s t) (hb : s.Busy) : t.Busy := by
  unfold ProcessManager.Busy at hb ⊢
  rw [h.running]
  rcases h.states s.running with e | ⟨e, _⟩
  · rwa [e]
  · unfold ProcessManager.stateOf at hb
    rw [e] at hb
    exact absurd hb (by simp)

/-! ## plans -/

def Plan.acts : Plan → List Act
  | .fail _ acts => acts
  | .panic => []
  | .go acts _ => acts

def Plan.tail : Plan → List Tail
  | .fail _ _ => []
  | .panic => []
  | .go _ tail => tail

end

end Citron
