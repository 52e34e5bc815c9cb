import Mathlib.Data.Nat.Bitwise
import Mathlib.Tactic.Ring

/-!
# 64-bit words: low masks

`lowMask k` is the word whose `k` low bits are set.  Alignment, page offsets and table indices are all
an `and` with such a mask or with its complement; here these are turned into bits and into `%`, `/`.
-/

abbrev Word := BitVec 64

/-- the value of a natural number as a `u32` -/
def u32 (n : Nat) : Nat := n % 2^32

namespace Word

/-- `(1 << k) - 1` -/
def lowMask (k : Nat) : Word := (1#64 <<< k) - 1#64

theorem toNat_lowMask {k : Nat} (hk : k < 64) : (lowMask k).toNat = 2^k - 1 := by
  have h : 2^k < 2^64 := Nat.pow_lt_pow_right (by norm_num) hk
  have h1 : 1 ≤ 2^k := Nat.one_le_two_pow
  unfold lowMask
  rw [BitVec.toNat_sub, BitVec.toNat_shiftLeft, BitVec.toNat_ofNat, Nat.shiftLeft_eq]
  omega

theorem getLsbD_lowMask {k : Nat} (hk : k < 64) (i : Nat) :
    (lowMask k).getLsbD i = decide (i < k) := by
  rw [BitVec.getLsbD, toNat_lowMask hk, Nat.testBit_two_pow_sub_one]

theorem toNat_and_lowMask {k : Nat} (hk : k < 64) (x : Word) :
    (x &&& lowMask k).toNat = x.toNat % 2^k := by
  rw [BitVec.toNat_and, toNat_lowMask hk, Nat.and_two_pow_sub_one_eq_mod]

theorem getLsbD_not_lowMask {k : Nat} (hk : k < 64) (i : Nat) :
    (~~~ lowMask k).getLsbD i = (decide (i < 64) && !decide (i < k)) := by
  rw [BitVec.getLsbD_not, getLsbD_lowMask hk]

theorem toNat_and_not_lowMask {k : Nat} (hk : k < 64) (x : Word) :
    (x &&& ~~~ lowMask k).toNat = 2^k * (x.toNat / 2^k) := by
  apply Nat.eq_of_testBit_eq
  intro i
  have hb : (x &&& ~~~ lowMask k).toNat.testBit i
      = (x.getLsbD i && (decide (i < 64) && !decide (i < k))) := by
    rw [← getLsbD_not_lowMask hk, ← BitVec.getLsbD_and]
    rfl
  have h2 : x.getLsbD i = x.toNat.testBit i := rfl
  rw [hb, h2, Nat.testBit_two_pow_mul, Nat.testBit_div_two_pow]
  by_cases hi : i < k
  · have h1 : ¬ i ≥ k := by omega
    simp [hi, h1]
  · have h1 : i - k + k = i := by omega
    rw [h1]
    by_cases h64 : i < 64
    · simp [hi, h64, Nat.le_of_not_lt hi]
    · have h3 : x.toNat.testBit i = false := BitVec.getLsbD_of_ge x i (by omega)
      rw [h3, Bool.false_and, Bool.and_false]

/-- the high bits of one word with the low bits of another -/
theorem toNat_or_lowMask {k : Nat} (hk : k < 64) (x y : Word) :
    ((x &&& ~~~ lowMask k) ||| (y &&& lowMask k)).toNat = 2^k * (x.toNat / 2^k) + y.toNat % 2^k := by
  rw [BitVec.toNat_or, toNat_and_not_lowMask hk, toNat_and_lowMask hk]
  exact (Nat.two_pow_add_eq_or_of_lt (Nat.mod_lt _ (Nat.two_pow_pos k)) _).symm

/-- a bit beyond the size of the number is off -/
theorem getLsbD_of_lt {x : Word} {k i : Nat} (hx : x.toNat < 2^k) (hi : k ≤ i) :
    x.getLsbD i = false :=
  Nat.testBit_lt_two_pow (lt_of_lt_of_le hx (Nat.pow_le_pow_right (by norm_num) hi))

end Word
