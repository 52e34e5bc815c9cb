import Mathlib.Data.Option.Basic

/-!
# Runs of a machine

`step a s` is the state after the action `a` in the state `s`, `none` where the action cannot be taken.

* `run`             the actions of a list one after the other;
* `Throughout ok`   every action of a run is `ok` in the state in which it is taken;
* `invariant`       what every ok step keeps holds at the end of a run of ok steps;
* `run_total`       where every ok step can be taken, so can a run of them;
* `Throughout.imp`  under such an invariant, a run of ok steps is a run of `ok'` steps;
* `logged`          a loop over a list, with a log.
-/

namespace Trace
variable {σ α : Type} (step : α → σ → Option σ)

def run : List α → σ → Option σ
  | [], s => some s
  | a :: l, s => (step a s).bind (run l)

def Throughout (ok : σ → α → Prop) : List α → σ → Prop
  | [], _ => True
  | a :: l, s => ok s a ∧ ∀ s', step a s = some s' → Throughout ok l s'

variable {step}

/-- **Invariants of runs.** -/
theorem invariant (ok : σ → α → Prop) (I : σ → Prop)
    (hstep : ∀ s a s', I s → ok s a → step a s = some s' → I s') (l : List α) : ∀ {s s' : σ}, I s →
    Throughout step ok l s → run step l s = some s' → I s' := by
  induction l with
  | nil =>
    intro s s' hs _ h
    cases h
    exact hs
  | cons a l ih =>
    intro s s' hs hok h
    obtain ⟨t, ht, h⟩ := Option.bind_eq_some_iff.mp h
    exact ih (hstep s a t hs hok.1 ht) (hok.2 t ht) h

/-- one run after another -/
theorem run_append {l l' : List α} : ∀ {s t t' : σ}, run step l s = some t → run step l' t = some t' →
    run step (l ++ l') s = some t' := by
  induction l with
  | nil =>
    intro s t t' h h'
    cases h
    exact h'
  | cons b l ih =>
    intro s t t' h h'
    obtain ⟨r, hr, h⟩ := Option.bind_eq_some_iff.mp h
    exact Option.bind_eq_some_iff.mpr ⟨r, hr, ih h h'⟩

/-- under an invariant that lets every ok step be taken, every run of ok steps ends -/
theorem run_total (ok : σ → α → Prop) (I : σ → Prop) (hstep : ∀ s a, I s → ok s a → ∃ s', step a s = some s' ∧ I s')
    (l : List α) : ∀ {s : σ}, I s → Throughout step ok l s → ∃ s', run step l s = some s' ∧ I s' := by
  induction l with
  | nil => exact fun {s} hs _ => ⟨s, rfl, hs⟩
  | cons a l ih =>
    intro s hs hok
    obtain ⟨t, ht, hI⟩ := hstep s a hs hok.1
    obtain ⟨s', hrun, hI'⟩ := ih hI (hok.2 t ht)
    exact ⟨s', Option.bind_eq_some_iff.mpr ⟨t, ht, hrun⟩, hI'⟩

theorem throughout_of_forall {ok : σ → α → Prop} (l : List α) (h : ∀ a ∈ l, ∀ s, ok s a) :
    ∀ s, Throughout step ok l s := by
  induction l with
  | nil => exact fun _ => trivial
  | cons a l ih =>
    intro s
    exact ⟨h a List.mem_cons_self s, fun s' _ => ih (fun b hb => h b (List.mem_cons_of_mem a hb)) s'⟩

theorem Throughout.and {ok ok' : σ → α → Prop} (l : List α) : ∀ {s : σ}, Throughout step ok l s →
    Throughout step ok' l s → Throughout step (fun s a => ok s a ∧ ok' s a) l s := by
  induction l with
  | nil => exact fun _ _ => trivial
  | cons a l ih =>
    intro s h h'
    exact ⟨⟨h.1, h'.1⟩, fun s' hs' => ih (h.2 s' hs') (h'.2 s' hs')⟩

/-- under an invariant one condition on the steps gives another -/
theorem Throughout.imp {ok ok' : σ → α → Prop} (I : σ → Prop)
    (hstep : ∀ s a s', I s → ok s a → step a s = some s' → I s') (himp : ∀ s a, I s → ok s a → ok' s a)
    (l : List α) : ∀ {s : σ}, I s → Throughout step ok l s → Throughout step ok' l s := by
  induction l with
  | nil => exact fun _ _ => trivial
  | cons a l ih =>
    intro s hs h
    exact ⟨himp s a hs h.1, fun s' hs' => ih (hstep s a s' hs h.1 hs') (h.2 s' hs')⟩

/-- the last step of a run -/
theorem Throughout.last {ok : σ → α → Prop} {a : α} {l : List α} : ∀ {s s' : σ}, Throughout step ok (l ++ [a]) s →
    run step l s = some s' → ok s' a := by
  induction l with
  | nil =>
    intro s s' h hrun
    cases hrun
    exact h.1
  | cons b l ih =>
    intro s s' h hrun
    obtain ⟨t, ht, hrun⟩ := Option.bind_eq_some_iff.mp hrun
    exact ih (h.2 t ht) hrun

instance decidableThroughout {ok : σ → α → Prop} [∀ s a, Decidable (ok s a)] :
    ∀ (l : List α) (s : σ), Decidable (Throughout step ok l s)
  | [], _ => isTrue trivial
  | a :: l, s =>
    match h : step a s with
    | none => decidable_of_iff (ok s a) ⟨fun hok => ⟨hok, fun _ h' => by rw [h] at h'; cases h'⟩, And.left⟩
    | some s' =>
      haveI : Decidable (Throughout step ok l s') := decidableThroughout l s'
      decidable_of_iff (ok s a ∧ Throughout step ok l s')
        ⟨fun hok => ⟨hok.1, fun t ht => by rw [h] at ht; cases ht; exact hok.2⟩, fun hok => ⟨hok.1, hok.2 s' h⟩⟩

/-! ## loops with a log -/

section log
variable {β : Type} (log : α → σ → List β) (f : σ → α → σ)

/-- the loop of `f` over a list, with what each turn notes of the state that it finds -/
def logged : List α → σ → List β × σ
  | [], s => ([], s)
  | a :: l, s => (log a s ++ (logged l (f s a)).1, (logged l (f s a)).2)

variable {log f}

theorem logged_snd (l : List α) : ∀ s : σ, (logged log f l s).2 = l.foldl f s := by
  induction l with
  | nil => exact fun _ => rfl
  | cons a l ih => exact fun s => ih (f s a)

/-- what every turn keeps, and what every note has under it -/
theorem logged_forall {I : σ → Prop} {P : β → Prop} (l : List α) :
    (∀ a ∈ l, ∀ s, I s → I (f s a) ∧ ∀ b ∈ log a s, P b) →
    ∀ s : σ, I s → I (logged log f l s).2 ∧ ∀ b ∈ (logged log f l s).1, P b := by
  induction l with
  | nil => exact fun _ s hs => ⟨hs, fun _ hb => absurd hb List.not_mem_nil⟩
  | cons a l ih =>
    intro h s hs
    obtain ⟨ha, h⟩ := List.forall_mem_cons.mp h
    obtain ⟨hs', hb'⟩ := ih h (f s a) (ha s hs).1
    refine ⟨hs', fun b hb => ?_⟩
    rcases List.mem_append.mp hb with hb | hb
    · exact (ha s hs).2 b hb
    · exact hb' b hb

/-- what a turn notes in any state is in the log -/
theorem mem_logged {a : α} {b : β} {l : List α} (ha : a ∈ l) (h : ∀ s, b ∈ log a s) :
    ∀ s : σ, b ∈ (logged log f l s).1 := by
  induction l with
  | nil => exact absurd ha List.not_mem_nil
  | cons c l ih =>
    intro s
    rcases List.mem_cons.mp ha with rfl | ha
    · exact List.mem_append_left _ (h s)
    · exact List.mem_append_right _ (ih ha (f s c))

end log

end Trace
