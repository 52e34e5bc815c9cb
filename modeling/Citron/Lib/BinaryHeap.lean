import Mathlib.Data.List.Perm.Basic

/-!
# Priority heaps, by their specification

A heap is the list of its elements in whatever order the implementation keeps them.  Nothing is
assumed but that `push` adds one element, and that `pop` removes an element no other one exceeds
(which of several equal ones is not said).

* `BinaryHeap α key`    an implementation with its specification;
* `BinaryHeap.scan`     the implementation that scans for the first largest element.
-/

structure BinaryHeap (α : Type) (key : α → Nat) where
  push : List α → α → List α
  pop : List α → Option (α × List α)
  push_perm : ∀ l a, (push l a).Perm (a :: l)
  pop_none : ∀ l, pop l = none → l = []
  pop_perm : ∀ l a l', pop l = some (a, l') → l.Perm (a :: l')
  pop_max : ∀ l a l', pop l = some (a, l') → ∀ b ∈ l, key b ≤ key a

namespace BinaryHeap
variable {α : Type} {key : α → Nat} (H : BinaryHeap α key)

@[simp] theorem mem_push (l : List α) (a b : α) : b ∈ H.push l a ↔ b = a ∨ b ∈ l := by
  rw [(H.push_perm l a).mem_iff, List.mem_cons]

theorem mem_of_pop {l l' : List α} {a : α} (h : H.pop l = some (a, l')) (b : α) :
    b ∈ l ↔ b = a ∨ b ∈ l' := by
  rw [(H.pop_perm _ _ _ h).mem_iff, List.mem_cons]

theorem length_of_pop {l l' : List α} {a : α} (h : H.pop l = some (a, l')) :
    l.length = l'.length + 1 := by
  rw [(H.pop_perm _ _ _ h).length_eq, List.length_cons]

/-! ## an implementation -/

/-- the first largest element and the others -/
def takeMax (key : α → Nat) : List α → Option (α × List α)
  | [] => none
  | a :: l =>
    match takeMax key l with
    | none => some (a, l)
    | some (b, l') => if key b ≤ key a then some (a, l) else some (b, a :: l')

theorem takeMax_spec (key : α → Nat) (l : List α) :
    (takeMax key l = none → l = []) ∧
    ∀ a l', takeMax key l = some (a, l') → l.Perm (a :: l') ∧ ∀ b ∈ l, key b ≤ key a := by
  induction l with
  | nil => exact ⟨fun _ => rfl, fun a l' h => absurd h (by simp [takeMax])⟩
  | cons x l ih =>
    obtain ⟨ihn, ihs⟩ := ih
    unfold takeMax
    cases h : takeMax key l with
    | none =>
      refine ⟨fun h' => absurd h' (by simp), fun a l' h' => ?_⟩
      obtain ⟨rfl, rfl⟩ : x = a ∧ l = l' := by simpa using h'
      exact ⟨List.Perm.refl _, by simp [ihn h]⟩
    | some q =>
      obtain ⟨b, m⟩ := q
      obtain ⟨hp, hm⟩ := ihs b m h
      by_cases hle : key b ≤ key x
      · simp only [hle, if_true]
        refine ⟨fun h' => absurd h' (by simp), fun a l' h' => ?_⟩
        obtain ⟨rfl, rfl⟩ : x = a ∧ l = l' := by simpa using h'
        refine ⟨List.Perm.refl _, fun c hc => ?_⟩
        rcases List.mem_cons.mp hc with rfl | hc
        · exact Nat.le_refl _
        · exact Nat.le_trans (hm c hc) hle
      · simp only [hle, if_false]
        refine ⟨fun h' => absurd h' (by simp), fun a l' h' => ?_⟩
        obtain ⟨rfl, rfl⟩ : b = a ∧ x :: m = l' := by simpa using h'
        refine ⟨(hp.cons x).trans (List.Perm.swap ..), fun c hc => ?_⟩
        rcases List.mem_cons.mp hc with rfl | hc
        · omega
        · exact hm c hc

/-- the implementation that scans for the first largest element -/
def scan (key : α → Nat) : BinaryHeap α key where
  push l a := a :: l
  pop := takeMax key
  push_perm _ _ := List.Perm.refl _
  pop_none l := (takeMax_spec key l).1
  pop_perm l a l' h := ((takeMax_spec key l).2 a l' h).1
  pop_max l a l' h := ((takeMax_spec key l).2 a l' h).2

end BinaryHeap
