import Citron.Lib.Memory
import Mathlib.Data.List.Perm.Subperm

/-!
# Memory that is given back

Blocks of a heap that are deallocated one after the other, on the account of an owner.  A block that is
deallocated although it is not live (it never was, or it was given back before) goes to a list of its own.

* `Tidy`              live blocks do not overlap;
* `Deallocator`       what deallocating writes to the memory: nothing in the blocks that stay;
* `Account`           the heap, the blocks that an owner holds, and the ones that were not live;
* `deallocAll_spec`   blocks that are live, each as often as it is given back, go and no other block does.
-/

/-- an address and a size -/
abbrev Block := Nat × Nat

namespace Heap

def Tidy (bs : List Block) : Prop := bs.Pairwise fun b c => b.1 + b.2 ≤ c.1 ∨ c.1 + c.2 ≤ b.1

/-- two blocks of a tidy heap, also when they are listed twice -/
theorem Tidy.disjoint {bs : List Block} (h : Tidy bs) {b c : Block}
    (hcount : ∀ x, [b, c].count x ≤ bs.count x) : Disjoint (Mem.range b.1 b.2) (Mem.range c.1 c.2) := by
  obtain ⟨l, hperm, hl⟩ := List.subperm_ext_iff.mpr fun x _ => hcount x
  have hp := (List.Pairwise.sublist hl h).perm hperm fun hbc => hbc.symm
  exact Mem.disjoint_range ((List.pairwise_cons.mp hp).1 c List.mem_cons_self)

theorem Tidy.count_le_one {bs : List Block} (h : Tidy bs) {b : Block} (hpos : 0 < b.2) : bs.count b ≤ 1 := by
  by_contra hgt
  have hd : Disjoint (Mem.range b.1 b.2) (Mem.range b.1 b.2) := by
    refine h.disjoint fun x => ?_
    by_cases hx : b = x
    · subst hx
      simp only [List.count_cons_self, List.count_nil]
      omega
    · rw [List.count_eq_zero_of_not_mem (by simpa using Ne.symm hx)]
      exact Nat.zero_le _
  have hmem : b.1 ∈ Mem.range b.1 b.2 := Mem.mem_range.mpr (by omega)
  exact Set.disjoint_left.mp hd hmem hmem

structure Deallocator where
  memory : Heap → Block → Mem
  spares : ∀ s b, ∀ c ∈ s.blocks.erase b, Set.EqOn (memory s b) s.mem (Mem.range c.1 c.2)

/-- `owned` is what an owner has not given back, `stray` what was given back without being live -/
structure Account where
  heap : Heap
  stray : List Block
  owned : List Block

namespace Account

def dealloc (D : Deallocator) (a : Account) (b : Block) : Account :=
  if b ∈ a.heap.blocks then ⟨⟨D.memory a.heap b, a.heap.blocks.erase b⟩, a.stray, a.owned.erase b⟩
  else ⟨a.heap, b :: a.stray, a.owned.erase b⟩

def deallocAll (D : Deallocator) (a : Account) (l : List Block) : Account := l.foldl (dealloc D) a

section
variable {D : Deallocator}

theorem deallocAll_append (a : Account) (l l' : List Block) :
    a.deallocAll D (l ++ l') = (a.deallocAll D l).deallocAll D l' := List.foldl_append

theorem dealloc_owned (a : Account) (b : Block) : (a.dealloc D b).owned = a.owned.erase b := by
  unfold dealloc
  split <;> rfl

theorem deallocAll_owned (l : List Block) : ∀ a : Account, (a.deallocAll D l).owned = a.owned.diff l := by
  induction l with
  | nil => exact fun _ => rfl
  | cons b l ih =>
    intro a
    rw [List.diff_cons, ← dealloc_owned (D := D)]
    exact ih _

theorem diff_self (l : List Block) : l.diff l = [] := by
  induction l with
  | nil => rfl
  | cons b l ih =>
    rw [List.diff_cons, List.erase_cons_head]
    exact ih

/-- what is not live is noted for good -/
theorem stray_suffix (l : List Block) : ∀ a : Account, a.stray <:+ (a.deallocAll D l).stray := by
  induction l with
  | nil => exact fun a => List.suffix_refl _
  | cons b l ih =>
    intro a
    refine List.IsSuffix.trans ?_ (ih (a.dealloc D b))
    unfold dealloc
    split
    · exact List.suffix_refl _
    · exact List.suffix_cons _ _

/-- the heap after the blocks of `l` were given back -/
structure Given (l : List Block) (a a' : Account) : Prop where
  stray : a'.stray = a.stray
  count : ∀ b, a'.heap.blocks.count b + l.count b = a.heap.blocks.count b
  sublist : a'.heap.blocks.Sublist a.heap.blocks
  mem : ∀ c, l.count c < a.heap.blocks.count c → Set.EqOn a'.heap.mem a.heap.mem (Mem.range c.1 c.2)

theorem deallocAll_spec (l : List Block) : ∀ a : Account, (∀ b, l.count b ≤ a.heap.blocks.count b) →
    Given l a (a.deallocAll D l) := by
  induction l with
  | nil => exact fun a _ => ⟨rfl, fun _ => rfl, List.Sublist.refl _, fun _ _ _ _ => rfl⟩
  | cons b l ih =>
    intro a h
    have hlive : b ∈ a.heap.blocks := by
      have := h b
      rw [List.count_cons_self] at this
      exact List.count_pos_iff.mp (by omega)
    obtain ⟨a₁, ha₁⟩ : ∃ t : Account,
        t = ⟨⟨D.memory a.heap b, a.heap.blocks.erase b⟩, a.stray, a.owned.erase b⟩ := ⟨_, rfl⟩
    have hstep : a.dealloc D b = a₁ := by
      unfold dealloc
      rw [if_pos hlive, ha₁]
    have hcount : ∀ c, a₁.heap.blocks.count c + (if b == c then 1 else 0) = a.heap.blocks.count c := by
      intro c
      have hpos := List.count_pos_iff.mpr hlive
      rw [ha₁]
      show (a.heap.blocks.erase b).count c + _ = _
      rw [List.count_erase]
      split
      · next hbc =>
        rw [beq_iff_eq] at hbc
        subst hbc
        omega
      · rfl
    have hle : ∀ c, l.count c ≤ a₁.heap.blocks.count c := by
      intro c
      have h₁ := h c
      have h₂ := hcount c
      rw [List.count_cons] at h₁
      omega
    obtain ⟨hs, hc, hsub, hm⟩ := ih a₁ hle
    show Given (b :: l) a ((a.dealloc D b).deallocAll D l)
    rw [hstep]
    refine ⟨hs.trans (by rw [ha₁]), fun c => ?_, hsub.trans (by rw [ha₁]; exact List.erase_sublist), fun c hlt => ?_⟩
    · have h₁ := hc c
      have h₂ := hcount c
      rw [List.count_cons]
      omega
    · have h₂ := hcount c
      rw [List.count_cons] at hlt
      have hc₁ : c ∈ a.heap.blocks.erase b := by
        refine List.count_pos_iff.mp ?_
        rw [ha₁] at h₂
        dsimp only at h₂
        omega
      refine (hm c (by omega)).trans ?_
      rw [ha₁]
      exact D.spares a.heap b c hc₁

end

end Account

end Heap
