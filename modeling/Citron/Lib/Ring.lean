import Mathlib.Logic.Function.Basic
import Mathlib.Data.Nat.ModEq

/-!
# Rings with free-running counters

A ring of `n` slots is written at the slot of a counter that only goes up.  Of everything that was ever
written (`hist`), the last `n` values are still there.

* `Holds`        the slots and the history;
* `Holds.push`   a value more;
* `slot_eq`      a counter that wraps at a multiple of `n` names the same slot.
-/

namespace Ring
variable {α : Type}

def Holds (n : Nat) (ring : Nat → α) (hist : List α) : Prop :=
  ∀ k a, hist[k]? = some a → hist.length ≤ k + n → ring (k % n) = a

/-- fewer than `n` counts apart, the slots differ -/
theorem mod_ne {k m n : Nat} (hlt : k < m) (hn : m < k + n) : k % n ≠ m % n := by
  intro h
  obtain ⟨c, hc⟩ := (Nat.modEq_iff_dvd' hlt.le).mp h
  have hpos : 0 < c := Nat.pos_of_ne_zero fun h0 => by
    rw [h0, Nat.mul_zero] at hc
    omega
  have : n ≤ n * c := Nat.le_mul_of_pos_right n hpos
  omega

theorem Holds.push {n : Nat} {ring : Nat → α} {hist : List α} (h : Holds n ring hist) (a : α) :
    Holds n (Function.update ring (hist.length % n) a) (hist ++ [a]) := by
  intro k b hk hlen
  rw [List.length_append, List.length_singleton] at hlen
  by_cases hlt : k < hist.length
  · rw [List.getElem?_append_left hlt] at hk
    rw [Function.update_of_ne (mod_ne hlt (by omega))]
    exact h k b hk (by omega)
  · have hkb : k < (hist ++ [a]).length := (List.getElem?_eq_some_iff.mp hk).1
    rw [List.length_append, List.length_singleton] at hkb
    obtain rfl : k = hist.length := by omega
    rw [List.getElem?_concat_length] at hk
    rw [Function.update_self]
    exact Option.some.inj hk

/-- a history given by a function of the count -/
theorem Holds.get {n m : Nat} {ring : Nat → α} {g : Nat → α} (h : Holds n ring ((List.range m).map g)) {k : Nat}
    (hk : k < m) (hm : m ≤ k + n) : ring (k % n) = g k := by
  refine h k (g k) ?_ ?_
  · rw [List.getElem?_map, List.getElem?_range hk]
    rfl
  · rwa [List.length_map, List.length_range]

theorem Holds.push_range {n m : Nat} {ring : Nat → α} {g : Nat → α}
    (h : Holds n ring ((List.range m).map g)) :
    Holds n (Function.update ring (m % n) (g m)) ((List.range (m + 1)).map g) := by
  have hp := h.push (g m)
  rwa [List.length_map, List.length_range, ← List.map_singleton, ← List.map_append, ← List.range_succ] at hp

theorem slot_eq {n m : Nat} (hdvd : n ∣ m) (c : Nat) : c % m % n = c % n := Nat.mod_mod_of_dvd c hdvd

end Ring
