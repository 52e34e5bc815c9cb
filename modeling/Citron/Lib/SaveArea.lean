import Citron.Lib.Memory

/-!
# Saving registers to memory and loading them back

A list of registers with offsets says where each register goes in an area of memory.

* `save`, `load`     what a run of stores does to the memory, and a run of loads to the registers;
* `Spaced`           the offsets leave room for a word each;
* `readWord_save`, `load_of_mem`   what is stored where, and which word a register gets.
-/

namespace SaveArea
variable {ρ : Type}

/-! ## stores -/

/-- the registers of the list stored in the area at `base` -/
def save (base : Nat) (x : ρ → Word) : List (ρ × Nat) → Mem → Mem
  | [], m => m
  | (r, o) :: l, m => save base x l (m.writeWord (base + o) (x r))

/-- the words at the two offsets do not overlap -/
def Clear (o o' : Nat) : Prop := o + 8 ≤ o' ∨ o' + 8 ≤ o

instance (o o' : Nat) : Decidable (Clear o o') := inferInstanceAs (Decidable (_ ∨ _))

def Spaced (l : List (ρ × Nat)) : Prop := l.Pairwise fun p q => Clear p.2 q.2

instance (l : List (ρ × Nat)) : Decidable (Spaced l) := inferInstanceAs (Decidable (l.Pairwise _))

theorem readWord_writeWord_clear {m : Mem} {base o o' : Nat} {w : Word} (h : Clear o o') :
    (m.writeWord (base + o) w).readWord (base + o') = m.readWord (base + o') := by
  refine Mem.readWord_congr (Mem.writeWord_eqOn (Mem.disjoint_range ?_))
  unfold Clear at h
  omega

/-- a word that no register of the list goes to -/
theorem readWord_save_clear {base o : Nat} {x : ρ → Word} (l : List (ρ × Nat)) : ∀ m : Mem,
    (∀ p ∈ l, Clear p.2 o) → (save base x l m).readWord (base + o) = m.readWord (base + o) := by
  induction l with
  | nil => exact fun _ _ => rfl
  | cons p l ih =>
    intro m h
    obtain ⟨hp, h⟩ := List.forall_mem_cons.mp h
    exact (ih _ h).trans (readWord_writeWord_clear hp)

/-- a word that a register of the list goes to -/
theorem readWord_save {base o : Nat} {x : ρ → Word} {r : ρ} (l : List (ρ × Nat)) : ∀ m : Mem, Spaced l → (r, o) ∈ l →
    (save base x l m).readWord (base + o) = x r := by
  induction l with
  | nil => exact fun _ _ h => absurd h List.not_mem_nil
  | cons p l ih =>
    intro m hs h
    obtain ⟨hp, hs⟩ := List.pairwise_cons.mp hs
    rcases List.mem_cons.mp h with rfl | h
    · rw [save, readWord_save_clear l _ fun q hq => Or.symm (hp q hq), Mem.readWord_writeWord]
    · exact ih _ hs h

/-- nothing else is written -/
theorem save_eqOn {base n : Nat} {x : ρ → Word} (l : List (ρ × Nat)) : ∀ m : Mem, (∀ p ∈ l, p.2 + 8 ≤ n) →
    Set.EqOn (save base x l m) m (Mem.range base n)ᶜ := by
  induction l with
  | nil => exact fun _ _ _ _ => rfl
  | cons p l ih =>
    intro m h
    obtain ⟨hp, h⟩ := List.forall_mem_cons.mp h
    refine (ih _ h).trans (Mem.writeWord_eqOn ?_)
    rw [Set.disjoint_compl_right_iff_subset]
    exact Mem.range_mono (Nat.le_add_right _ _) (by omega)

/-! ## loads -/

variable [DecidableEq ρ]

/-- the registers of the list loaded from the area at `base` -/
def load (base : Nat) (m : Mem) : List (ρ × Nat) → (ρ → Word) → ρ → Word
  | [], x => x
  | (r, o) :: l, x => load base m l (Function.update x r (m.readWord (base + o)))

theorem load_of_notMem {base : Nat} {m : Mem} {r : ρ} (l : List (ρ × Nat)) : ∀ x : ρ → Word, r ∉ l.map Prod.fst →
    load base m l x r = x r := by
  induction l with
  | nil => exact fun _ _ => rfl
  | cons p l ih =>
    intro x h
    rw [List.map_cons, List.mem_cons, not_or] at h
    obtain ⟨hp, h⟩ := h
    exact (ih _ h).trans (Function.update_of_ne hp _ _)

theorem load_of_mem {base o : Nat} {m : Mem} {r : ρ} (l : List (ρ × Nat)) : ∀ x : ρ → Word, (l.map Prod.fst).Nodup →
    (r, o) ∈ l → load base m l x r = m.readWord (base + o) := by
  induction l with
  | nil => exact fun _ _ h => absurd h List.not_mem_nil
  | cons p l ih =>
    intro x hn h
    obtain ⟨hp, hn⟩ := List.nodup_cons.mp hn
    rcases List.mem_cons.mp h with rfl | h
    · rw [load, load_of_notMem l _ hp, Function.update_self]
    · exact ih _ hn h

end SaveArea
