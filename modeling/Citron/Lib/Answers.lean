import Mathlib.Data.Option.Basic

/-!
# Machines that answer calls

A machine takes calls and answers each of them.  One that may get stuck, and needs fuel for its loops, is compared
with one that always answers.

* `run`, `runTotal`    the answers to a list of calls;
* `Throughout ok`      every call of a run is `ok` in the state in which it is made;
* `Simulates`          the one answers every ok call as the other does, with enough fuel;
* `Simulates.run`      and so it does for whole runs.
-/

namespace Answers
variable {κ α σ τ : Type}

/-- the answers of a machine that may get stuck -/
def run (step : κ → σ → Option (α × σ)) : List κ → σ → Option (List α × σ)
  | [], s => some ([], s)
  | k :: ks, s => (step k s).bind fun x => (run step ks x.2).map fun y => (x.1 :: y.1, y.2)

section total
variable (spec : κ → τ → α × τ)

/-- the answers of a machine that never does -/
def runTotal : List κ → τ → List α × τ
  | [], t => ([], t)
  | k :: ks, t => ((spec k t).1 :: (runTotal ks (spec k t).2).1, (runTotal ks (spec k t).2).2)

def Throughout (ok : τ → κ → Prop) : List κ → τ → Prop
  | [], _ => True
  | k :: ks, t => ok t k ∧ Throughout ok ks (spec k t).2

end total

/-- `impl` with enough fuel answers every call that is ok as `spec` does, and the states stay related -/
def Simulates (impl : Nat → κ → σ → Option (α × σ)) (spec : κ → τ → α × τ) (R : σ → τ → Prop) (ok : τ → κ → Prop) :
    Prop :=
  ∀ k t, ok t k → ∃ n₀, ∀ n, n₀ ≤ n → ∀ s, R s t → ∃ s', impl n k s = some ((spec k t).1, s') ∧ R s' (spec k t).2

section
variable {impl : Nat → κ → σ → Option (α × σ)} {spec : κ → τ → α × τ} {R : σ → τ → Prop} {ok : τ → κ → Prop}

/-- **Simulation of runs.** -/
theorem Simulates.run (h : Simulates impl spec R ok) (ks : List κ) : ∀ t, Throughout spec ok ks t →
    ∃ n₀, ∀ n, n₀ ≤ n → ∀ s, R s t →
      ∃ s', run (impl n) ks s = some ((runTotal spec ks t).1, s') ∧ R s' (runTotal spec ks t).2 := by
  induction ks with
  | nil => exact fun t _ => ⟨0, fun n _ s hs => ⟨s, rfl, hs⟩⟩
  | cons k ks ih =>
    intro t hok
    obtain ⟨n₁, h₁⟩ := h k t hok.1
    obtain ⟨n₂, h₂⟩ := ih (spec k t).2 hok.2
    refine ⟨max n₁ n₂, fun n hn s hs => ?_⟩
    obtain ⟨s₁, hstep, hs₁⟩ := h₁ n (by omega) s hs
    obtain ⟨s₂, hrun, hs₂⟩ := h₂ n (by omega) s₁ hs₁
    refine ⟨s₂, ?_, hs₂⟩
    show (impl n k s).bind _ = _
    rw [hstep, Option.bind_some]
    dsimp only
    rw [hrun]
    rfl

end

end Answers
