import Citron.Lib.Resumption

/-!
# Calls until they return

A call that has given the processor away relies on something that the other threads leave alone.

* `Sys.Held`        every suspended call finds what it relies on, and keeps the contract of its thread;
* `Reach.held`      so it is in every reachable state, if no segment of a call touches what the others rely on;
* `Sys.During`      the segments of one call, with the steps of the other threads in between;
* `During.carry`    what every segment hands on to the next holds of each;
* `Res.Firm`        a call that does not fail any more.
-/

namespace Resumption

namespace Res
variable {σ ε α β : Type}

/-- the state in which the call comes back, with a value or with an error -/
def returned : Res σ ε α → Option σ
  | .ok _ s => some s
  | .err _ s => some s
  | _ => none

theorem Ensures.returned {c : Contract σ} {pn : Prop} {G : σ → Prop} {r : Res σ ε α} (h : r.Ensures c pn G) {t : σ}
    (hr : r.returned = some t) : c.back t := by
  cases r with
  | ok a s => exact Option.some.inj hr ▸ h.2
  | err e s => exact Option.some.inj hr ▸ h.2
  | panic => cases hr
  | switch s k => cases hr

/-- a contract that asks less where the call comes back -/
theorem Ensures.weaken {c : Contract σ} {back : σ → Prop} (hb : ∀ t, c.back t → back t) {r : Res σ ε α} :
    ∀ {pn : Prop} {G : σ → Prop}, r.Ensures c pn G → r.Ensures { c with back := back } pn G := by
  induction r with
  | ok a s => exact fun h => ⟨h.1, hb s h.2⟩
  | err e s => exact fun h => ⟨h.1, hb s h.2⟩
  | panic => exact fun h => h
  | switch s k ih => exact fun h => ⟨h.1, h.2.1, fun s' hs' => ih s' (h.2.2 s' hs')⟩

/-- the call does not fail, as long as the states it is resumed with satisfy `R` -/
def Firm (R : σ → Prop) : Res σ ε α → Prop
  | .ok _ _ => True
  | .err _ _ => False
  | .panic => True
  | .switch _ k => ∀ s, R s → (k s).Firm R

end Res

section
variable {σ ε Op : Type}

/-- Every suspended call of a thread `p` finds what it relies on, `D p`, and keeps the contract `c p`. -/
structure Sys.Held (I : σ → Prop) (D : Nat → σ → Prop) (c : Nat → Contract σ) (y : Sys σ ε) : Prop where
  inv : I y.st
  susp : ∀ p k, y.susp p = some k → D p y.st ∧
    ∀ s, (c p).resume s → (k s).Ensures (c p) False ((c p).after s)

variable (cur : σ → Nat) (run : Op → Prog σ ε Unit) (may : Op → σ → Prop)

/-- a thread that gives the processor away leaves what it relies on, which lets it be resumed later; and no
resumed thread touches what the others rely on -/
structure Contract.Fits (I : σ → Prop) (D : Nat → σ → Prop) (c : Nat → Contract σ) : Prop where
  leave : ∀ p t, I t → (c p).leave t → D p t
  resume : ∀ p s, I s → D p s → cur s = p → (c p).resume s
  after : ∀ p s t, (c p).resume s → (c p).after s t → I t ∧ ∀ q, q ≠ p → D q s → D q t

/-- steps of threads other than `me` -/
inductive Sys.Others (me : Nat) (y : Sys σ ε) : Sys σ ε → Prop where
  | refl : Others me y y
  | step {z z' : Sys σ ε} {l : Option Op} (h : Others me y z) (hne : cur z.st ≠ me) (hl : Legal may l z.st)
      (hs : z.step cur run l = some z') : Others me y z'

/-- The call of `op` that begins in `y` is at `z`, where its thread does the segment `r`. -/
inductive Sys.During (op : Op) (y : Sys σ ε) : Sys σ ε → Res σ ε Unit → Prop where
  | call : During op y y (run op y.st)
  | resume {z z' : Sys σ ε} {s : σ} {k : σ → Res σ ε Unit} (h : During op y z (.switch s k))
      (ho : Sys.Others cur run may (cur y.st) ⟨s, Function.update z.susp (cur y.st) (some k)⟩ z')
      (hcur : cur z'.st = cur y.st) : During op y z' (k z'.st)

variable {cur run may} {I : σ → Prop} {D : Nat → σ → Prop} {c : Nat → Contract σ}

/-- what is left of a call -/
theorem Sys.Held.settle {pn : Prop} {G : σ → Prop} {y y' : Sys σ ε} {me : Nat} {r : Res σ ε Unit}
    (hy : y.Held I D c) (hr : r.Ensures (c me) pn G)
    (hG : ∀ t, G t → I t ∧ ∀ q, q ≠ me → D q y.st → D q t) (hleave : ∀ t, I t → (c me).leave t → D me t)
    (h : y.settle me r = some y') : y'.Held I D c := by
  have clear : ∀ t : σ, G t → (⟨t, Function.update y.susp me none⟩ : Sys σ ε) = y' → y'.Held I D c := by
    rintro t ht rfl
    refine ⟨(hG t ht).1, fun p k hk => ?_⟩
    by_cases hp : p = me
    · subst hp
      simp only [Function.update_self] at hk
      cases hk
    · obtain ⟨hD, hens⟩ := hy.susp p k (by simpa [Function.update_of_ne hp] using hk)
      exact ⟨(hG t ht).2 p hp hD, hens⟩
  cases r with
  | ok a t => exact clear t hr.1 (Option.some.inj h)
  | err e t => exact clear t hr.1 (Option.some.inj h)
  | panic => cases h
  | switch t k =>
    obtain rfl := Option.some.inj h
    obtain ⟨hI, hD⟩ := hG t hr.1
    refine ⟨hI, fun p k' hk => ?_⟩
    by_cases hp : p = me
    · subst hp
      simp only [Function.update_self, Option.some.injEq] at hk
      subst hk
      exact ⟨hleave t hI hr.2.1, hr.2.2⟩
    · obtain ⟨hD', hens⟩ := hy.susp p k' (by simpa [Function.update_of_ne hp] using hk)
      exact ⟨hD p hp hD', hens⟩

/-- **Suspended calls find what they rely on**, in every reachable state. -/
theorem Reach.held {s₀ : σ} (h0 : I s₀) (hc : Contract.Fits cur I D c)
    (hop : ∀ op s, I s → may op s →
      (run op s).Ensures (c (cur s)) True (fun t => I t ∧ ∀ q, q ≠ cur s → D q s → D q t))
    {y : Sys σ ε} (hy : Reach cur run may s₀ y) : y.Held I D c := by
  induction hy with
  | init => exact ⟨h0, fun p k hk => absurd hk (by simp)⟩
  | step _ hl hs ih =>
    obtain ⟨k, _, hk, hset⟩ | ⟨op, e, _, hset⟩ := Sys.step_cases hs
    · obtain ⟨hD, hens⟩ := ih.susp _ k hk
      have hres := hc.resume _ _ ih.inv hD rfl
      exact ih.settle (hens _ hres) (fun t ht => hc.after _ _ t hres ht) (hc.leave _) hset
    · exact ih.settle (hop op _ ih.inv (hl op e)) (fun _ h => h) (hc.leave _) hset

/-! ## one call -/

theorem Sys.Others.reach {s₀ : σ} {me : Nat} {y z : Sys σ ε} (h : Sys.Others cur run may me y z)
    (hy : Reach cur run may s₀ y) : Reach cur run may s₀ z := by
  induction h with
  | refl => exact hy
  | step _ _ hl hs ih => exact .step ih hl hs

theorem Sys.settle_susp {y y' : Sys σ ε} {me p : Nat} {r : Res σ ε Unit} (h : y.settle me r = some y') (hp : p ≠ me) :
    y'.susp p = y.susp p := by
  cases r with
  | panic => cases h
  | _ =>
    obtain rfl := Option.some.inj h
    exact Function.update_of_ne hp ..

/-- the other threads do not touch the suspended call of `me` -/
theorem Sys.Others.susp {me : Nat} {y z : Sys σ ε} (h : Sys.Others cur run may me y z) : z.susp me = y.susp me := by
  induction h with
  | refl => rfl
  | step _ hne _ hs ih =>
    obtain ⟨k, _, _, hset⟩ | ⟨op, _, _, hset⟩ := Sys.step_cases hs
    · exact (Sys.settle_susp hset (Ne.symm hne)).trans ih
    · exact (Sys.settle_susp hset (Ne.symm hne)).trans ih

/-- a call that was suspended and is resumed -/
theorem Sys.During.resumed {op : Op} {y z z' : Sys σ ε} {k : σ → Res σ ε Unit} (h : y.step cur run (some op) = some z)
    (hk : z.susp (cur y.st) = some k) (ho : Sys.Others cur run may (cur y.st) z z') (hcur : cur z'.st = cur y.st) :
    Sys.During cur run may op y z' (k z'.st) := by
  obtain ⟨_, e, -⟩ | ⟨op', e, -, hset⟩ := Sys.step_cases h
  · cases e
  · cases e
    have hcall : Sys.During cur run may op y y (run op y.st) := .call
    cases hr : run op y.st with
    | panic => rw [hr] at hset; cases hset
    | switch s k' =>
      rw [hr] at hset hcall
      obtain rfl := Option.some.inj hset
      simp only [Function.update_self, Option.some.injEq] at hk
      subst hk
      exact .resume hcall ho hcur
    | _ =>
      rw [hr] at hset
      obtain rfl := Option.some.inj hset
      simp only [Function.update_self] at hk
      cases hk

/-- each segment of a call is a step of its thread -/
theorem Sys.During.step {s₀ : σ} {op : Op} {y z : Sys σ ε} {r : Res σ ε Unit}
    (h : Sys.During cur run may op y z r) (hy : Reach cur run may s₀ y) (hop : may op y.st)
    (hcall : y.susp (cur y.st) = none) : Reach cur run may s₀ z ∧ cur z.st = cur y.st ∧
      ∃ l, Legal may l z.st ∧ z.step cur run l = z.settle (cur y.st) r := by
  induction h with
  | call =>
    refine ⟨hy, rfl, some op, fun op' e => Option.some.inj e ▸ hop, ?_⟩
    unfold Sys.step
    rw [hcall]
  | @resume z z' s k h ho hcur ih =>
    obtain ⟨hz, -, l, hl, hs⟩ := ih
    have hz' := ho.reach (.step hz hl hs)
    have hk : z'.susp (cur z'.st) = some k := by
      rw [hcur, ho.susp]
      exact Function.update_self ..
    refine ⟨hz', hcur, none, fun _ e => absurd e (by simp), ?_⟩
    unfold Sys.step
    rw [hk, ← hcur]

/-- **Along a call**: what its first segment has, and each segment hands on to the next, holds of each. -/
theorem Sys.During.carry {s₀ : σ} {op : Op} {y z : Sys σ ε} {r : Res σ ε Unit} {P : Res σ ε Unit → Prop}
    (hc : Contract.Fits cur I D c) (hheld : ∀ {z : Sys σ ε}, Reach cur run may s₀ z → z.Held I D c)
    (h : Sys.During cur run may op y z r) (hy : Reach cur run may s₀ y) (hop : may op y.st)
    (hcall : y.susp (cur y.st) = none) (h0 : P (run op y.st))
    (hP : ∀ s k s', P (.switch s k) → (c (cur y.st)).resume s' → P (k s')) : P r := by
  induction h with
  | call => exact h0
  | @resume z z' s k h ho hcur ih =>
    obtain ⟨hz, -, l, hl, hs⟩ := h.step hy hop hcall
    have hz' := ho.reach (.step hz hl hs)
    have hk : z'.susp (cur y.st) = some k := by
      rw [ho.susp]
      exact Function.update_self ..
    have hD := ((hheld hz').susp _ k hk).1
    exact hP s k z'.st ih (hc.resume _ _ (hheld hz').inv hD hcur)

end

end Resumption
