import Mathlib.Order.Basic

/-!
# Loops with a counter that wraps

A loop has `p` pieces of work before it.  It counts its turns modulo `m`, and in the turns in which the counter is below
`k` it does nothing else: it passes over `k` things before the work.  When the counter comes back to 0 while there is
work, it passes over `k` things again.

* `turns`           the number of turns; `turns_step` says that every turn is one of them;
* `plain_step`      without a wrap it is `k + p`;
* `turns_le_iff`    when the counter may as well be a number without bound.
-/

namespace Counter

/-- the pieces that are left after a turn with the counter at `c` -/
def work (k c p : Nat) : Nat := if c < k then p else p - 1

/-- the turns with the counter at `c` -/
def turns (m k c p : Nat) : Nat := if p = 0 then 0 else (k - c) + p + k * ((max c k - k + (p - 1)) / (m - k))

section
variable {m k c p : Nat}

theorem turns_pass (hk : k < m) (h : c < k) (hp : 0 < p) : turns m k c p = turns m k ((c + 1) % m) p + 1 := by
  have hp : ¬ p = 0 := Nat.pos_iff_ne_zero.mp hp
  unfold turns
  rw [if_neg hp, if_neg hp, Nat.mod_eq_of_lt (by omega), Nat.max_eq_right (Nat.le_of_lt h), Nat.max_eq_right h]
  omega

/-- the counter stays above `k`, or comes back to 0 -/
theorem turns_work (h : k ≤ c) (hc : c < m) : turns m k c (p + 1) = turns m k ((c + 1) % m) p + 1 := by
  unfold turns
  rw [if_neg (Nat.succ_ne_zero p), Nat.max_eq_left h, Nat.sub_eq_zero_of_le h, Nat.add_sub_cancel]
  obtain _ | d := p
  · rw [if_pos rfl, Nat.add_zero, Nat.div_eq_of_lt (by omega), Nat.mul_zero]
  rw [if_neg (Nat.succ_ne_zero d), Nat.add_sub_cancel]
  by_cases hwrap : c + 1 = m
  · have hdiv : (c - k + (d + 1)) / (m - k) = d / (m - k) + 1 := by
      rw [show c - k + (d + 1) = d + (m - k) by omega, Nat.add_div_right _ (by omega)]
    rw [hdiv, hwrap, Nat.mod_self, Nat.max_eq_right (Nat.zero_le k), Nat.sub_self, Nat.zero_add d, Nat.sub_zero,
      Nat.mul_succ]
    omega
  · rw [Nat.mod_eq_of_lt (by omega), Nat.max_eq_left (Nat.le_succ_of_le h),
      show c + 1 - k + d = c - k + (d + 1) by omega, Nat.sub_eq_zero_of_le (Nat.le_succ_of_le h)]
    omega

/-- **A turn is one turn less.** -/
theorem turns_step (hk : k < m) (hc : c < m) (hp : 0 < p) :
    turns m k c p = turns m k ((c + 1) % m) (work k c p) + 1 := by
  unfold work
  by_cases h : c < k
  · rw [if_pos h]
    exact turns_pass hk h hp
  · obtain ⟨q, rfl⟩ : ∃ q, p = q + 1 := ⟨p - 1, by omega⟩
    rw [if_neg h]
    exact turns_work (Nat.not_lt.mp h) hc

theorem turns_pos (hp : 0 < p) : 0 < turns m k c p := by
  unfold turns
  rw [if_neg (Nat.pos_iff_ne_zero.mp hp)]
  omega

@[simp] theorem turns_done : turns m k c 0 = 0 := rfl

/-- as long as the counter does not wrap -/
theorem plain_step (hc : c < m) (hp : 0 < p) :
    k - c + p = k - (c + 1) % m + work k c p + 1 ∨ c + 1 = m := by
  unfold work
  by_cases hwrap : c + 1 = m
  · exact .inr hwrap
  · refine .inl ?_
    rw [Nat.mod_eq_of_lt (by omega)]
    split
    · omega
    · omega

/-- Without a wrap there are `k + p` turns; one more is allowed if `n` is `p`. -/
theorem turns_le_iff (hk : k < m) {n : Nat} (hp : p ≤ n + 1) (hn : n ≤ p) :
    turns m k 0 p ≤ k + n + 1 ↔ k = 0 ∨ p + k ≤ m ∨ k = 1 ∧ p = n ∧ p ≤ 2 * (m - 1) := by
  obtain _ | d := p
  · exact iff_of_true (Nat.zero_le _) (.inr (.inl (by omega)))
  have hzero : turns m k 0 (d + 1) = k + (d + 1) + k * (d / (m - k)) := by
    unfold turns
    rw [if_neg (Nat.succ_ne_zero d), Nat.max_eq_right (Nat.zero_le k), Nat.sub_self, Nat.zero_add, Nat.sub_zero,
      Nat.add_sub_cancel]
  rw [hzero]
  by_cases hlt : d + k < m
  · rw [Nat.div_eq_of_lt (by omega), Nat.mul_zero]
    exact iff_of_true (by omega) (.inr (.inl (by omega)))
  have hone : 1 ≤ d / (m - k) := (Nat.one_le_div_iff (by omega)).mpr (by omega)
  match k, hk, hlt, hone with
  | 0, _, _, _ => exact iff_of_true (by omega) (.inl rfl)
  | 1, hk, hlt, hone =>
    have htwo : d < 2 * (m - 1) ↔ d / (m - 1) < 2 := (Nat.div_lt_iff_lt_mul (by omega)).symm
    omega
  | k + 2, hk, hlt, hone =>
    have hmul : k + 2 ≤ (k + 2) * (d / (m - (k + 2))) := Nat.le_mul_of_pos_right _ hone
    omega

end

end Counter
