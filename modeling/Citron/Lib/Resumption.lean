import Mathlib.Logic.Function.Basic

/-!
# Resumptions: calls that may give the processor away in the middle

A call runs on a state `σ` and either returns (`ok`), returns an error (`err`), stops the machine
(`panic`), or gives the processor to somebody else (`switch s k`): `s` is the state it leaves behind
and `k` is the rest of the call, which runs later, on whatever state it is resumed with.

* `Prog σ ε α`       such calls, as a monad;
* `Res.Ensures`      every state in which control leaves the call is good, as long as every state
                     it is resumed with is (`Contract`);
* `Sys`, `Sys.step`  one processor shared by numbered threads; `cur s` is the thread that runs in
                     the state `s`, and a thread that is switched to finishes its suspended call
                     before it starts another one;
* `Reach.invariant`  what every call keeps holds in every reachable state;
* `Reach.alike_steps`  calls that agree wherever they can be resumed make the same runs.
-/

namespace Resumption

/-- the outcome of a call -/
inductive Res (σ ε α : Type) : Type where
  | ok (a : α) (s : σ)
  | err (e : ε) (s : σ)
  | panic
  | switch (s : σ) (k : σ → Res σ ε α)

def Res.bind {σ ε α β : Type} : Res σ ε α → (α → σ → Res σ ε β) → Res σ ε β
  | .ok a s, f => f a s
  | .err e s, _ => .err e s
  | .panic, _ => .panic
  | .switch s k, f => .switch s (fun s' => (k s').bind f)

/-- calls on the state `σ` with errors `ε` -/
abbrev Prog (σ ε α : Type) : Type := σ → Res σ ε α

namespace Prog
variable {σ ε α β : Type}

instance : Monad (Prog σ ε) where
  pure a := fun s => .ok a s
  bind m f := fun s => (m s).bind f

def get : Prog σ ε σ := fun s => .ok s s
def modify (f : σ → σ) : Prog σ ε Unit := fun s => .ok () (f s)
def throw (e : ε) : Prog σ ε α := fun s => .err e s
def panic : Prog σ ε α := fun _ => .panic

/-- leave the state `f s` behind and wait to be resumed -/
def suspend (f : σ → σ) : Prog σ ε Unit := fun s => .switch (f s) (fun s' => .ok () s')

@[simp] theorem pure_run (a : α) (s : σ) : (pure a : Prog σ ε α) s = .ok a s := rfl
@[simp] theorem bind_run (m : Prog σ ε α) (f : α → Prog σ ε β) (s : σ) :
    (m >>= f) s = (m s).bind f := rfl
@[simp] theorem get_run (s : σ) : (get : Prog σ ε σ) s = .ok s s := rfl
@[simp] theorem modify_run (f : σ → σ) (s : σ) : (modify f : Prog σ ε Unit) s = .ok () (f s) := rfl
@[simp] theorem throw_run (e : ε) (s : σ) : (throw e : Prog σ ε α) s = .err e s := rfl
@[simp] theorem panic_run (s : σ) : (panic : Prog σ ε α) s = .panic := rfl
@[simp] theorem suspend_run (f : σ → σ) (s : σ) :
    (suspend f : Prog σ ε Unit) s = .switch (f s) (fun s' => .ok () s') := rfl
@[simp] theorem ite_run (c : Prop) [Decidable c] (m m' : Prog σ ε α) (s : σ) :
    (if c then m else m') s = if c then m s else m' s := by
  split <;> rfl

end Prog

/-- What is asked of a call besides the states it leaves behind: `back` holds where it returns and
`leave` where it gives the processor away; it may rely on `resume` where it is resumed, and resumed
in `s` it comes to states `t` with `after s t`. -/
structure Contract (σ : Type) where
  back : σ → Prop
  leave : σ → Prop
  resume : σ → Prop
  after : σ → σ → Prop

namespace Res
variable {σ ε α β : Type}

@[simp] theorem ok_bind (a : α) (s : σ) (f : α → σ → Res σ ε β) : (ok a s).bind f = f a s := rfl
@[simp] theorem err_bind (e : ε) (s : σ) (f : α → σ → Res σ ε β) :
    (err e s : Res σ ε α).bind f = err e s := rfl
@[simp] theorem panic_bind (f : α → σ → Res σ ε β) : (panic : Res σ ε α).bind f = panic := rfl
@[simp] theorem switch_bind (s : σ) (k : σ → Res σ ε α) (f : α → σ → Res σ ε β) :
    (switch s k).bind f = switch s (fun s' => (k s').bind f) := rfl

theorem bind_assoc {γ : Type} (r : Res σ ε α) (f : α → σ → Res σ ε β) (g : β → σ → Res σ ε γ) :
    (r.bind f).bind g = r.bind (fun a s => (f a s).bind g) := by
  induction r with
  | ok a s => rfl
  | err e s => rfl
  | panic => rfl
  | switch s k ih =>
    simp only [switch_bind]
    congr 1
    funext s'
    exact ih s'

theorem bind_ok (r : Res σ ε Unit) : r.bind (fun _ s => ok () s) = r := by
  induction r with
  | ok a s => rfl
  | err e s => rfl
  | panic => rfl
  | switch s k ih =>
    rw [switch_bind]
    congr 1
    funext s'
    exact ih s'

/-- the state in which control leaves the call for the first time -/
def first : Res σ ε α → Option σ
  | .ok _ s => some s
  | .err _ s => some s
  | .panic => none
  | .switch s _ => some s

/-- Every state in which control leaves the call for the first time satisfies `G`, and the rest of
the call keeps the contract.  `pn` says whether the call may panic; once it has given the processor
away it may not. -/
def Ensures (c : Contract σ) (pn : Prop) : Res σ ε α → (σ → Prop) → Prop
  | .ok _ s, G => G s ∧ c.back s
  | .err _ s, G => G s ∧ c.back s
  | .panic, _ => pn
  | .switch s k, G => G s ∧ c.leave s ∧ ∀ s', c.resume s' → (k s').Ensures c False (c.after s')

theorem Ensures.mono {c : Contract σ} {pn pn' : Prop} {G G' : σ → Prop} {r : Res σ ε α}
    (h : r.Ensures c pn G) (hpn : pn → pn') (hG : ∀ s, G s → G' s) : r.Ensures c pn' G' := by
  cases r with
  | ok a s => exact ⟨hG s h.1, h.2⟩
  | err e s => exact ⟨hG s h.1, h.2⟩
  | panic => exact hpn h
  | switch s k => exact ⟨hG s h.1, h.2⟩

theorem Ensures.first {c : Contract σ} {pn : Prop} {G : σ → Prop} {r : Res σ ε α}
    (h : r.Ensures c pn G) {s : σ} (hs : r.first = some s) : G s := by
  cases r with
  | ok a t => exact Option.some.inj hs ▸ h.1
  | err e t => exact Option.some.inj hs ▸ h.1
  | panic => exact absurd hs (by simp [Res.first])
  | switch t k => exact Option.some.inj hs ▸ h.1

theorem Ensures.ne_panic {c : Contract σ} {pn : Prop} {G : σ → Prop} {r : Res σ ε α}
    (h : r.Ensures c pn G) (hpn : ¬ pn) : r ≠ .panic := by
  rintro rfl
  exact hpn h

end Res

/-! ## one processor, many threads -/

/-- the state and the calls that wait to be resumed, by thread -/
structure Sys (σ ε : Type) where
  st : σ
  susp : Nat → Option (σ → Res σ ε Unit)

section
variable {σ ε Op : Type} (cur : σ → Nat) (run : Op → Prog σ ε Unit)

/-- what is left of the call of the thread `me` -/
def Sys.settle (y : Sys σ ε) (me : Nat) : Res σ ε Unit → Option (Sys σ ε)
  | .ok _ s => some ⟨s, Function.update y.susp me none⟩
  | .err _ s => some ⟨s, Function.update y.susp me none⟩
  | .panic => none
  | .switch s k => some ⟨s, Function.update y.susp me (some k)⟩

/-- One step of the thread that has the processor: it resumes its suspended call (`none`), or, if
it has none, calls an operation. -/
def Sys.step (l : Option Op) (y : Sys σ ε) : Option (Sys σ ε) :=
  match l, y.susp (cur y.st) with
  | none, some k => y.settle (cur y.st) (k y.st)
  | some op, none => y.settle (cur y.st) (run op y.st)
  | _, _ => none

/-- a step is legal if the operation it calls may be called in this state -/
def Legal (may : Op → σ → Prop) (l : Option Op) (s : σ) : Prop := ∀ op, l = some op → may op s

/-- the states of the runs from `s₀` in which operations are called only where they may be -/
inductive Reach (may : Op → σ → Prop) (s₀ : σ) : Sys σ ε → Prop where
  | init : Reach may s₀ ⟨s₀, fun _ => none⟩
  | step {y y' : Sys σ ε} {l : Option Op} (hy : Reach may s₀ y) (hl : Legal may l y.st)
      (h : y.step cur run l = some y') : Reach may s₀ y'

/-- The contract of the calls of the thread `me`: `I` holds whenever control leaves a call, `W`
when a thread is given the processor, and a resumed call comes from `s` to `t` only if `Γ s t`. -/
def Contract.of (I W : σ → Prop) (Γ : σ → σ → Prop) (me : Nat) : Contract σ where
  back s := cur s = me
  leave := W
  resume s := I s ∧ W s ∧ cur s = me
  after s t := I t ∧ Γ s t

/-- `I` holds, `W` does if the running thread has a call to resume, and every suspended call keeps
the contract of its thread -/
structure Sys.Kept (I W : σ → Prop) (Γ : σ → σ → Prop) (y : Sys σ ε) : Prop where
  inv : I y.st
  resumed : ∀ k, y.susp (cur y.st) = some k → W y.st
  susp : ∀ p k, y.susp p = some k → ∀ s, I s → W s → cur s = p →
    (k s).Ensures (Contract.of cur I W Γ p) False (fun t => I t ∧ Γ s t)

variable {cur run}

/-- what is left of a call that keeps the contract -/
theorem Sys.Kept.settle {pn : Prop} {I W G : σ → Prop} {Γ : σ → σ → Prop} {y y' : Sys σ ε}
    {me : Nat} {r : Res σ ε Unit} (hy : y.Kept cur I W Γ) (hG : ∀ s, G s → I s)
    (hr : r.Ensures (Contract.of cur I W Γ me) pn G) (h : y.settle me r = some y') :
    G y'.st ∧ y'.Kept cur I W Γ := by
  have clear : ∀ s : σ, G s → cur s = me →
      (⟨s, Function.update y.susp me none⟩ : Sys σ ε) = y' → G y'.st ∧ y'.Kept cur I W Γ := by
    rintro s hs rfl rfl
    refine ⟨hs, hG s hs, fun k hk => ?_, fun p k hk => ?_⟩
    · simp only [Function.update_self] at hk
      exact absurd hk (by simp)
    · by_cases hp : p = cur s
      · subst hp
        simp only [Function.update_self] at hk
        exact absurd hk (by simp)
      · exact hy.susp p k (by simpa [Function.update_of_ne hp] using hk)
  cases r with
  | ok a s => exact clear s hr.1 hr.2 (Option.some.inj h)
  | err e s => exact clear s hr.1 hr.2 (Option.some.inj h)
  | panic => exact absurd h (by simp [Sys.settle])
  | switch s k =>
    have e := Option.some.inj h
    subst e
    refine ⟨hr.1, hG s hr.1, fun _ _ => hr.2.1, fun p k' hk => ?_⟩
    by_cases hp : p = me
    · subst hp
      simp only [Function.update_self, Option.some.injEq] at hk
      subst hk
      exact fun s' hs' hw hc => hr.2.2 s' ⟨hs', hw, hc⟩
    · exact hy.susp p k' (by simpa [Function.update_of_ne hp] using hk)

/-- a call comes back to its own thread, or gives the processor away in `W` -/
theorem Sys.settle_cur {pn : Prop} {I W G : σ → Prop} {Γ : σ → σ → Prop} {y y' : Sys σ ε} {me : Nat}
    {r : Res σ ε Unit} (hr : r.Ensures (Contract.of cur I W Γ me) pn G) (h : y.settle me r = some y') :
    cur y'.st = me ∨ W y'.st := by
  cases r with
  | ok a s => exact .inl (Option.some.inj h ▸ hr.2)
  | err e s => exact .inl (Option.some.inj h ▸ hr.2)
  | panic => exact absurd h (by simp [Sys.settle])
  | switch s k => exact .inr (Option.some.inj h ▸ hr.2.1)

/-- a step resumes the suspended call of the running thread, or calls an operation -/
theorem Sys.step_cases {y y' : Sys σ ε} {l : Option Op} (h : y.step cur run l = some y') :
    (∃ k, l = none ∧ y.susp (cur y.st) = some k ∧ y.settle (cur y.st) (k y.st) = some y') ∨
    (∃ op, l = some op ∧ y.susp (cur y.st) = none ∧
      y.settle (cur y.st) (run op y.st) = some y') := by
  unfold Sys.step at h
  cases l with
  | none =>
    cases hk : y.susp (cur y.st) with
    | none => rw [hk] at h; exact absurd h (by simp)
    | some k => rw [hk] at h; exact .inl ⟨k, rfl, rfl, h⟩
  | some op =>
    cases hk : y.susp (cur y.st) with
    | none => rw [hk] at h; exact .inr ⟨op, rfl, rfl, h⟩
    | some k => rw [hk] at h; exact absurd h (by simp)

/-- a thread with no call to resume can call whatever does not panic -/
theorem Sys.step_of_ne_panic {y : Sys σ ε} {op : Op} (hs : y.susp (cur y.st) = none) (h : run op y.st ≠ .panic) :
    ∃ y', y.step cur run (some op) = some y' := by
  unfold Sys.step
  rw [hs]
  dsimp only
  cases hr : run op y.st with
  | ok a s => exact ⟨_, rfl⟩
  | err e s => exact ⟨_, rfl⟩
  | panic => exact absurd hr h
  | switch s k => exact ⟨_, rfl⟩

/-- a resumed call keeps its contract -/
theorem Sys.Kept.resume {I W : σ → Prop} {Γ : σ → σ → Prop} {y y' : Sys σ ε}
    {k : σ → Res σ ε Unit} (hy : y.Kept cur I W Γ) (hk : y.susp (cur y.st) = some k)
    (h : y.settle (cur y.st) (k y.st) = some y') :
    (I y'.st ∧ Γ y.st y'.st) ∧ y'.Kept cur I W Γ :=
  hy.settle (fun _ hs => hs.1) (hy.susp _ k hk _ hy.inv (hy.resumed k hk) rfl) h

/-- **Invariants of runs.**  What every legal call keeps, at each point where it gives the
processor away and when it returns, holds in every reachable state. -/
theorem Reach.invariant {may : Op → σ → Prop} {s₀ : σ} {I W : σ → Prop}
    {Γ : σ → σ → Prop} (h0 : I s₀)
    (hop : ∀ op s, I s → may op s → (run op s).Ensures (Contract.of cur I W Γ (cur s)) True I)
    {y : Sys σ ε} (hy : Reach cur run may s₀ y) : y.Kept cur I W Γ := by
  induction hy with
  | init => exact ⟨h0, fun k hk => absurd hk (by simp), fun p k hk => absurd hk (by simp)⟩
  | step _ hl hs ih =>
    obtain ⟨k, _, hk, hset⟩ | ⟨op, e, _, hset⟩ := Sys.step_cases hs
    · exact (ih.resume hk hset).2
    · exact (ih.settle (fun _ h => h) (hop op _ ih.inv (hl op e)) hset).2

/-- the steps of a run -/
def Sys.steps (cur : σ → Nat) (run : Op → Prog σ ε Unit) : List (Option Op) → Sys σ ε →
    Option (Sys σ ε)
  | [], y => some y
  | l :: ls, y => (y.step cur run l).bind (Sys.steps cur run ls)

/-- every operation of the run may be called where it is -/
def Sys.LegalSteps (cur : σ → Nat) (run : Op → Prog σ ε Unit) (may : Op → σ → Prop) :
    List (Option Op) → Sys σ ε → Prop
  | [], _ => True
  | l :: ls, y => (∀ op ∈ l, may op y.st) ∧
    ∀ y' ∈ y.step cur run l, Sys.LegalSteps cur run may ls y'

theorem Sys.LegalSteps.of_forall {may : Op → σ → Prop} {ls : List (Option Op)}
    (h : ∀ l ∈ ls, ∀ op ∈ l, ∀ s, may op s) : ∀ {y : Sys σ ε}, y.LegalSteps cur run may ls := by
  induction ls with
  | nil => intro y; trivial
  | cons l ls ih =>
    intro y
    exact ⟨fun op hop => h l (List.mem_cons_self ..) op hop y.st,
      fun y' _ => ih (fun l' hl' => h l' (List.mem_cons_of_mem _ hl'))⟩

theorem Reach.steps {may : Op → σ → Prop} {s₀ : σ} {ls : List (Option Op)} : ∀ {y y' : Sys σ ε},
    Reach cur run may s₀ y → y.LegalSteps cur run may ls → y.steps cur run ls = some y' →
    Reach cur run may s₀ y' := by
  induction ls with
  | nil =>
    intro y y' hy _ h
    exact Option.some.inj h ▸ hy
  | cons l ls ih =>
    intro y y' hy hl h
    obtain ⟨z, hz, h⟩ := Option.bind_eq_some_iff.mp h
    exact ih (.step hy (fun op e => hl.1 op e) hz) (hl.2 z hz) h

end

/-! ## calls that agree -/

/-- two outcomes that are the same, as long as the call is resumed only in states of `W` -/
inductive Res.Alike {σ ε α : Type} (W : σ → Prop) : Res σ ε α → Res σ ε α → Prop where
  | ok (a : α) (s : σ) : Alike W (.ok a s) (.ok a s)
  | err (e : ε) (s : σ) : Alike W (.err e s) (.err e s)
  | panic : Alike W .panic .panic
  | switch {s : σ} {k k' : σ → Res σ ε α} (h : ∀ s', W s' → Alike W (k s') (k' s')) :
      Alike W (.switch s k) (.switch s k')

/-- two systems in the same state, whose suspended calls are alike -/
structure Sys.Alike {σ ε : Type} (W : σ → Prop) (y y' : Sys σ ε) : Prop where
  st : y'.st = y.st
  susp : ∀ p, Option.Rel (fun k k' => ∀ s, W s → (k s).Alike W (k' s)) (y.susp p) (y'.susp p)

section
variable {σ ε Op : Type} {cur : σ → Nat} {run run' : Op → Prog σ ε Unit} {W : σ → Prop} {y y' : Sys σ ε}

theorem Sys.Alike.settle (hy : y.Alike W y') {r r' : Res σ ε Unit} (hr : r.Alike W r') (me : Nat) :
    Option.Rel (Sys.Alike W) (y.settle me r) (y'.settle me r') := by
  have clear : ∀ s, Option.Rel (Sys.Alike W) (some ⟨s, Function.update y.susp me none⟩)
      (some (⟨s, Function.update y'.susp me none⟩ : Sys σ ε)) := by
    refine fun s => .some ⟨rfl, fun p => ?_⟩
    by_cases hp : p = me
    · subst hp
      simp only [Function.update_self]
      exact .none
    · simpa only [Function.update_of_ne hp] using hy.susp p
  cases hr with
  | ok a s => exact clear s
  | err e s => exact clear s
  | panic => exact .none
  | @switch s k k' h =>
    refine .some ⟨rfl, fun p => ?_⟩
    by_cases hp : p = me
    · subst hp
      simp only [Function.update_self]
      exact .some h
    · simpa only [Function.update_of_ne hp] using hy.susp p

/-- one step of two systems that are alike -/
theorem Sys.Alike.step (hy : y.Alike W y') {l : Option Op}
    (hop : ∀ op ∈ l, (run op y.st).Alike W (run' op y.st)) (hW : ∀ k, y.susp (cur y.st) = some k → W y.st) :
    Option.Rel (Sys.Alike W) (y.step cur run l) (y'.step cur run' l) := by
  have hs := hy.susp (cur y.st)
  unfold Sys.step
  rw [hy.st]
  generalize y.susp (cur y.st) = o, y'.susp (cur y.st) = o' at hs hW
  cases hs with
  | none =>
    cases l with
    | none => exact .none
    | some op => exact hy.settle (hop op rfl) _
  | some h =>
    cases l with
    | none => exact hy.settle (h _ (hW _ rfl)) _
    | some op => exact .none

/-- **Calls that agree wherever they can be resumed make the same runs.** -/
theorem Reach.alike_steps {may : Op → σ → Prop} {s₀ : σ}
    (hop : ∀ {y : Sys σ ε}, Reach cur run may s₀ y → ∀ op, may op y.st → (run op y.st).Alike W (run' op y.st))
    (hW : ∀ {y : Sys σ ε}, Reach cur run may s₀ y → ∀ k, y.susp (cur y.st) = some k → W y.st)
    (ls : List (Option Op)) : ∀ {y y' : Sys σ ε}, Reach cur run may s₀ y → y.Alike W y' →
      y.LegalSteps cur run may ls → (y'.steps cur run' ls).map Sys.st = (y.steps cur run ls).map Sys.st := by
  induction ls with
  | nil =>
    intro y y' _ ha _
    exact congrArg some ha.st
  | cons l ls ih =>
    intro y y' hy ha hl
    have hs := ha.step (l := l) (fun op h => hop hy op (hl.1 op h)) (hW hy)
    have hz : ∀ z ∈ y.step cur run l, Reach cur run may s₀ z ∧ z.LegalSteps cur run may ls :=
      fun z h => ⟨.step hy (fun op e => hl.1 op e) h, hl.2 z h⟩
    unfold Sys.steps
    generalize y.step cur run l = o, y'.step cur run' l = o' at hs hz
    cases hs with
    | none => rfl
    | some h => exact ih (hz _ rfl).1 h (hz _ rfl).2

end

end Resumption
