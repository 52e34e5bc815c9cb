import Citron.Loader.Load
import Citron.Paging.Shield

/-!
# The page table of a new process

What `setup_pagetable` leaves: tables in good order, and mappings that lead to memory of the kernel or to
the user stack, which loading a program does not touch (`setup_spec`).
-/

namespace Citron.Loader
open Paging

/-- the page of a physical address -/
def frame (w : Word) : Set Nat := Mem.range (4096 * (w.toNat / 4096)) 4096

/-- the pages of the kernel that every process has mapped are not handed out -/
structure Fixed.Reserved (f : Fixed) (s : Heap) : Prop where
  lt : ∀ w ∈ [f.trampoline, f.trapFrame, f.killme], w.toNat < 2^56
  held : ∀ w ∈ [f.trampoline, f.trapFrame, f.killme], ∃ b ∈ s.blocks, frame w ⊆ Mem.range b.1 b.2

/-- a page table on the way, with `k` pages left for it -/
structure Ready (A : PageAllocator) (root : Nat) (frames : List Word) (k : Nat) (s : Heap) : Prop where
  paged : Paged s root
  backed : Backed s root
  lt : ∀ w ∈ frames, w.toNat < 2^56
  safe : ∀ w ∈ frames, Safe s root (frame w)
  serves : Heap.Serves A [4096] k s.blocks

theorem Ready.map {A : PageAllocator} {root k : Nat} {frames : List Word} {s : Heap} {bits : Word}
    (h : Ready A root frames (k + 2) s) {w : Word} (hw : w ∈ frames) (vaddr : Word)
    (hbits : bits.toNat < 2^10) (hleaf : bits &&& 0xe#64 ≠ 0#64) :
    ∃ s', map A root vaddr w bits 0 s = some s' ∧ Ready A root frames k s' := by
  obtain ⟨s', ps, hm, hE, hl, hb⟩ := backed_map_page hbits hleaf vaddr h.paged h.backed (h.lt w hw)
    (h.safe w hw) (h.serves.mono (List.Subset.refl _) (by omega))
  refine ⟨s', hm, hE.paged, hb, h.lt, fun v hv => ((hE.keeps h.paged).safe _ (h.safe v hv)).1, ?_⟩
  rw [hE.blocks]
  exact hE.fresh.serves (List.mem_singleton.mpr rfl) (h.serves.mono (List.Subset.refl _) (by omega))

/-- the zeroed root -/
theorem ready_root {A : PageAllocator} {f : Fixed} {s : Heap} {root k : Nat} (hf : f.Reserved s)
    (hnext : A.next s.blocks 4096 = some root)
    (hserve : Heap.Serves A [4096] k ((root, 4096) :: s.blocks)) :
    Ready A root [f.trampoline, f.trapFrame, f.killme] k
      ⟨s.mem.zero root 4096, (root, 4096) :: s.blocks⟩ := by
  have hal : 4096 ∣ root := A.aligned _ _ _ hnext
  have hz := zeroedRoot_of_next hnext
  have hw := hz.paged
  refine ⟨hw, fun va a ⟨w, hv, _⟩ => ?_, hf.lt, fun w hm => ?_, hserve⟩
  · -- an empty table maps nothing
    rw [virtToPhys_eq hw.wellFormed.fits hw.wellFormed.sound, hz.tree] at hv
    cases hv
  · obtain ⟨b, hb, hsub⟩ := hf.held w hm
    have hsh : Shielded s.blocks (frame w) := shielded_block hb hsub
    refine ⟨hsh.mono fun c => List.mem_cons_of_mem _, ?_⟩
    rw [hz.tree, Set.disjoint_right]
    rintro a ⟨p, rfl | ⟨_, hp⟩, ha⟩ haw
    · exact Set.disjoint_left.mp (hsh p 4096 hal (A.fresh _ _ _ hnext)) ha haw
    · exact absurd hp id

theorem setup_spec {A : PageAllocator} {f : Fixed} {s : Heap} (hf : f.Reserved s)
    (hserve : Heap.Serves A [4096] 10 s.blocks) :
    ∃ root s', setupPagetable A f s = some (root, s') ∧ Paged s' root ∧ Backed s' root := by
  obtain ⟨root, hnext, hserve⟩ := hserve 4096 (List.mem_singleton.mpr rfl)
  have h₀ := ready_root hf hnext hserve
  obtain ⟨s₁, hm₁, h₁⟩ := h₀.map (w := f.trampoline) (by simp) trampoline
    (show (EntryBits.R.val ||| EntryBits.X.val).toNat < 2^10 by decide) (by decide)
  obtain ⟨s₂, hm₂, h₂⟩ := h₁.map (w := f.trapFrame) (by simp) trapframe
    (show (EntryBits.R.val ||| EntryBits.W.val).toNat < 2^10 by decide) (by decide)
  obtain ⟨s₃, hm₃, h₃⟩ := h₂.map (w := f.killme) (by simp) killme
    (show (EntryBits.R.val ||| EntryBits.X.val ||| EntryBits.U.val).toNat < 2^10 by decide) (by decide)
  -- the user stack
  obtain ⟨stack, hnext₄, hserve₄⟩ := h₃.serves 4096 (List.mem_singleton.mpr rfl)
  have hbd : stack + 4096 ≤ 2^56 := A.bounded _ _ _ hnext₄
  have hal : 4096 ∣ stack := A.aligned _ _ _ hnext₄
  have hk₄ := keeps_push h₃.paged (stack, 4096)
  have hstack : (BitVec.ofNat 64 stack).toNat = stack := by
    rw [BitVec.toNat_ofNat]
    omega
  have hframe : frame (BitVec.ofNat 64 stack) = Mem.range stack (4096 * pageCount 4096) := by
    have hone : 4096 * pageCount 4096 = 4096 := by decide
    unfold frame
    rw [hstack, Nat.mul_div_cancel' hal, hone]
  have h₄ : Ready A root [BitVec.ofNat 64 stack] 2 ⟨s₃.mem, (stack, 4096) :: s₃.blocks⟩ := by
    refine ⟨hk₄.paged, fun va a ha => (hk₄.safe _ (h₃.backed va a ha)).1, ?_, ?_, hserve₄⟩
    · intro w hw
      rw [List.mem_singleton.mp hw, hstack]
      omega
    · intro w hw
      rw [List.mem_singleton.mp hw, hframe]
      exact safe_pages h₃.paged hnext₄ (List.mem_cons_self ..) rfl
  obtain ⟨s₅, hm₅, h₅⟩ := h₄.map (List.mem_singleton.mpr rfl) (userStackStart - userStackSize)
    (show (EntryBits.R.val ||| EntryBits.W.val ||| EntryBits.U.val).toNat < 2^10 by decide) (by decide)
  refine ⟨root, s₅, ?_, h₅.paged, h₅.backed⟩
  have hroot : root ≠ 0 := Nat.pos_iff_ne_zero.mp (A.pos _ _ _ hnext)
  have hsize : userStackSize.toNat = 4096 := by decide
  unfold setupPagetable
  rw [Heap.allocZeroed_of_next hnext]
  dsimp only
  rw [if_neg hroot, hm₁, Option.bind_some, hm₂, Option.bind_some, hm₃, Option.bind_some, hsize,
    Heap.alloc_of_next hnext₄]
  dsimp only
  rw [hm₅, Option.map_some]

end Citron.Loader
