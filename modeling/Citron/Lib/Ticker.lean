import Citron.Lib.Trace
import Mathlib.Data.List.Basic
import Mathlib.Tactic.Ring

/-!
# A periodic deadline, posted through a flag

Time passes; once the deadline is over a tick moves it on by one period and sets a flag, and a reader
takes the flag when it gets to it.

* `run_deadline`     the deadline counts the ticks;
* `run_balance`      a tick is taken, or still in the flag, or it met one that nobody had taken yet;
* `ticks_mul_le`, `ticks_eq_div`   the ticks against the time that has passed;
* `takes_mul_lt`     a reader does not run ahead of the clock.
-/

structure Ticker where
  now : Nat
  deadline : Nat
  flag : Bool
deriving DecidableEq, Repr

namespace Ticker

inductive Event where
  | pass (d : Nat)
  | tick
  | take
deriving DecidableEq, Repr

def step (period : Nat) : Event → Ticker → Option Ticker
  | .pass d, t => some { t with now := t.now + d }
  | .tick, t => if t.deadline ≤ t.now then some { t with deadline := t.deadline + period, flag := true } else none
  | .take, t => if t.flag then some { t with flag := false } else none

def ticks (l : List Event) : Nat := l.count .tick

def takes (l : List Event) : Nat := l.count .take

/-- the ticks that find the flag set -/
def merged (period : Nat) : List Event → Ticker → Nat
  | [], _ => 0
  | e :: l, t => (if e = .tick then t.flag.toNat else 0) + ((step period e t).map (merged period l)).getD 0

/-- the deadline is no more than a period ahead -/
def Armed (period : Nat) (t : Ticker) : Prop := t.deadline ≤ t.now + period

section run
variable {period : Nat} {t t' : Ticker}

theorem step_cases {e : Event} (h : step period e t = some t') :
    (∃ d, e = .pass d ∧ t' = { t with now := t.now + d }) ∨
    (e = .tick ∧ t.deadline ≤ t.now ∧ t' = { t with deadline := t.deadline + period, flag := true }) ∨
    (e = .take ∧ t.flag = true ∧ t' = { t with flag := false }) := by
  cases e with
  | pass d => exact .inl ⟨d, rfl, (Option.some.inj h).symm⟩
  | tick =>
    obtain ⟨hdue, h⟩ := Option.ite_none_right_eq_some.mp h
    exact .inr (.inl ⟨rfl, hdue, (Option.some.inj h).symm⟩)
  | take =>
    obtain ⟨hflag, h⟩ := Option.ite_none_right_eq_some.mp h
    exact .inr (.inr ⟨rfl, hflag, (Option.some.inj h).symm⟩)

theorem run_deadline (l : List Event) : ∀ {t : Ticker}, Trace.run (step period) l t = some t' →
    t'.deadline = t.deadline + ticks l * period := by
  induction l with
  | nil =>
    intro t h
    cases h
    rw [ticks, List.count_nil, Nat.zero_mul, Nat.add_zero]
  | cons e l ih =>
    intro t h
    obtain ⟨u, hu, h⟩ := Option.bind_eq_some_iff.mp h
    rw [ih h]
    unfold ticks
    obtain ⟨d, rfl, rfl⟩ | ⟨rfl, -, rfl⟩ | ⟨rfl, -, rfl⟩ := step_cases hu
    · rw [List.count_cons_of_ne (by simp)]
    · rw [List.count_cons_self]
      ring
    · rw [List.count_cons_of_ne (by simp)]

theorem run_now_le (l : List Event) : ∀ {t : Ticker}, Trace.run (step period) l t = some t' → t.now ≤ t'.now := by
  induction l with
  | nil =>
    intro t h
    cases h
    exact le_rfl
  | cons e l ih =>
    intro t h
    obtain ⟨u, hu, h⟩ := Option.bind_eq_some_iff.mp h
    refine le_trans ?_ (ih h)
    obtain ⟨d, rfl, rfl⟩ | ⟨rfl, -, rfl⟩ | ⟨rfl, -, rfl⟩ := step_cases hu
    · exact Nat.le_add_right _ _
    · exact le_rfl
    · exact le_rfl

theorem Armed.step {e : Event} (ha : Armed period t) (h : Ticker.step period e t = some t') : Armed period t' := by
  unfold Armed at ha ⊢
  obtain ⟨d, rfl, rfl⟩ | ⟨rfl, hdue, rfl⟩ | ⟨rfl, -, rfl⟩ := step_cases h
  · dsimp only
    omega
  · exact Nat.add_le_add_right hdue period
  · exact ha

theorem Armed.run {l : List Event} (ha : Armed period t) (h : Trace.run (Ticker.step period) l t = some t') :
    Armed period t' :=
  Trace.invariant (fun _ _ => True) (Armed period) (fun _ _ _ ha _ h => ha.step h) l ha
    (Trace.throughout_of_forall l (fun _ _ _ => trivial) t) h

/-- **No tick gets lost without a trace.** -/
theorem run_balance (l : List Event) : ∀ {t : Ticker}, Trace.run (step period) l t = some t' →
    takes l + merged period l t + t'.flag.toNat = ticks l + t.flag.toNat := by
  induction l with
  | nil =>
    intro t h
    cases h
    rfl
  | cons e l ih =>
    intro t h
    obtain ⟨u, hu, h⟩ := Option.bind_eq_some_iff.mp h
    have hrest := ih h
    unfold merged
    rw [hu, Option.map_some, Option.getD_some]
    unfold takes ticks at hrest ⊢
    obtain ⟨d, rfl, rfl⟩ | ⟨rfl, -, rfl⟩ | ⟨rfl, hflag, rfl⟩ := step_cases hu
    · rw [if_neg (by simp), List.count_cons_of_ne (by simp), List.count_cons_of_ne (by simp)]
      dsimp only at hrest
      omega
    · rw [if_pos rfl, List.count_cons_self, List.count_cons_of_ne (by simp)]
      rw [Bool.toNat_true] at hrest
      omega
    · rw [if_neg (by simp), List.count_cons_self, List.count_cons_of_ne (by simp), hflag, Bool.toNat_true]
      rw [Bool.toNat_false] at hrest
      omega

theorem takes_le {l : List Event} (h : Trace.run (step period) l t = some t') :
    takes l + t'.flag.toNat ≤ ticks l + t.flag.toNat := by
  have := run_balance l h
  omega

/-- **No tick before its time.** -/
theorem ticks_mul_le {l : List Event} (ha : Armed period t) (h : Trace.run (step period) l t = some t') :
    t.deadline + ticks l * period ≤ t'.now + period := by
  rw [← run_deadline l h]
  exact ha.run h

/-- **No tick is left out**: with no deadline over, the ticks are the whole periods that have passed. -/
theorem ticks_eq_div {l : List Event} (hstart : t.deadline = t.now + period)
    (h : Trace.run (step period) l t = some t') (hend : t'.now < t'.deadline) :
    ticks l = (t'.now - t.now) / period := by
  have hle := ticks_mul_le hstart.le h
  rw [run_deadline l h] at hend
  refine (Nat.div_eq_of_lt_le ?_ ?_).symm
  · omega
  · rw [Nat.succ_mul]
    omega

/-- **A reader does not run ahead**: what it takes, with what the flag holds for it, in a stretch of time that starts
with no deadline over. -/
theorem takes_mul_lt {l : List Event} (ha : Armed period t) (hstart : t.now < t.deadline)
    (h : Trace.run (step period) l t = some t') :
    (takes l + t'.flag.toNat) * period < t'.now - t.now + period + t.flag.toNat * period := by
  have hle := ticks_mul_le ha h
  have htakes : (takes l + t'.flag.toNat) * period ≤ ticks l * period + t.flag.toNat * period := by
    rw [← Nat.add_mul]
    exact Nat.mul_le_mul_right period (takes_le h)
  have hnow := run_now_le l h
  omega

end run

end Ticker
