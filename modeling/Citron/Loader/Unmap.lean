import Citron.Loader.Release
import Citron.Paging.Exact

/-!
# What `unmap` deallocates

`unmap` on a table built by calls of `map` at level 0, with the tables that it reads and deallocates in order
(`unmapVisits`).  A table is deallocated behind everything below it, and what the allocator writes there is not seen.

* `visitsBelow_eq`      the visits are those of the radix tree;
* `unmapVisits_tables`  what is deallocated from tables in good order;
* `unmap_frees_tables`  it is what the calls of `map` have allocated.
-/

namespace Citron.Loader
open Paging Heap

/-- the pages that are deallocated, in order -/
def freed (vs : List (Radix.Visit Nat)) : List Nat := vs.filterMap Radix.Visit.freed

/-- tables that are no deeper than the levels are looked through to the end -/
theorem visitsBelow_eq {m : Mem} (i : Nat) : ∀ e : Entry, (tree m i e).Fits i →
    visitsBelow m i e = (tree m i e).visits (List.finRange 512) := by
  induction i with
  | zero =>
    intro e hf
    unfold visitsBelow
    by_cases hb : (e.isValid && !e.isLeaf) = true
    · -- a branch of level 0 does not fit
      obtain ⟨h0, h1⟩ := (isBranch_iff e).mp hb
      rw [show tree m 0 e = .node e.target fun _ => .empty from (if_neg h0).trans (if_neg h1)] at hf
      exact absurd hf id
    · rw [if_neg hb]
      by_cases h0 : e.isInvalid = true
      · rw [tree_invalid h0]
        rfl
      · have h1 : e.isLeaf = true := by
          by_contra h1
          exact hb ((isBranch_iff e).mpr ⟨h0, h1⟩)
        rw [show tree m 0 e = .leaf e from (if_neg h0).trans (if_pos h1)]
        rfl
  | succ i ih =>
    intro e hf
    unfold visitsBelow
    by_cases hb : (e.isValid && !e.isLeaf) = true
    · obtain ⟨h0, h1⟩ := (isBranch_iff e).mp hb
      rw [tree_branch h0 h1, tableTree] at hf ⊢
      rw [if_pos hb, Radix.visits]
      simp only [fun j => ih _ (hf j)]
    · rw [if_neg hb]
      by_cases h0 : e.isInvalid = true
      · rw [tree_invalid h0]
        rfl
      · have h1 : e.isLeaf = true := by
          by_contra h1
          exact hb ((isBranch_iff e).mpr ⟨h0, h1⟩)
        rw [show tree m (i+1) e = .leaf e from (if_neg h0).trans (if_pos h1)]
        rfl

/-- `unmap` on tables in good order: every page but the root is deallocated, and none is read afterwards -/
theorem unmapVisits_tables (D : Deallocator) {s : Heap} {root : Nat} (hw : Paged s root) (stray owned : List Block) :
    ∃ vs a, unmapVisits D root ⟨s, stray, owned⟩ = some (vs, a) ∧ freed vs ++ [root] = tablePages s.mem root ∧
      Radix.Ordered vs := by
  have hstand : Standing s.mem (tablePages s.mem root ++ []) ⟨s, stray, owned⟩ := by
    rw [List.append_nil]
    exact ⟨nodup_tablePages hw, fun p hp => ⟨(hw.wellFormed.live p (mem_tablePages.mp hp)).2, fun _ _ => rfl⟩⟩
  obtain ⟨⟨vs, a⟩, hrun, he⟩ := Option.map_eq_some_iff.mp
    (unmapVisits_eq (readable_standing D s.mem) hw.wellFormed.sound hstand)
  obtain ⟨hvs, ha⟩ := Prod.mk.inj he
  -- the root itself is left to the caller
  have hall : vs ++ [.free root] = (tableTree s.mem 2 root).visits (List.finRange 512) := by
    have hbelow : ∀ j, visitsBelow s.mem 2 (entryAt s.mem (slot root j))
        = (tree s.mem 2 (entryAt s.mem (slot root j))).visits (List.finRange 512) :=
      fun j => visitsBelow_eq 2 _ (hw.wellFormed.fits j)
    rw [tableTree, Radix.visits, hvs]
    simp only [hbelow]
  refine ⟨vs, a, hrun, ?_, ?_⟩
  · unfold tablePages freed
    rw [← Radix.freed_visits, ← hall, List.filterMap_append]
    rfl
  · have hord := Radix.ordered_visits (List.nodup_finRange 512) _ hw.wellFormed.separate
    rw [← hall] at hord
    exact (List.pairwise_append.mp hord).1

/-- **What `unmap` deallocates**: the pages that the calls of `map` have allocated, each once. -/
theorem unmap_frees_tables (A : PageAllocator) (D : Deallocator) (root : Nat) (s₀ s : Heap) (h0 : ZeroedRoot s₀ root)
    (hs : Mapped A root s₀ s) (stray owned : List Block) :
    ∃ ps vs a, s.blocks = grown s₀.blocks ps ∧ unmap D root ⟨s, stray, owned⟩ = some a ∧
      unmapVisits D root ⟨s, stray, owned⟩ = some (vs, a) ∧
      -- each once
      (freed vs).Nodup ∧ (freed vs).Perm ps ∧
      -- no page for the sake of a leaf, and not the root
      (∀ va e, leafOf s.mem root va = some e → e.target ∉ ps → e.target ∉ freed vs) ∧ root ∉ freed vs ∧
      Radix.Ordered vs := by
  obtain ⟨ps, hE, hhas⟩ := hs.tables h0
  obtain ⟨vs, a, hrun, hfreed, hord⟩ := unmapVisits_tables D hE.paged stray owned
  have hunmap : unmap D root ⟨s, stray, owned⟩ = some a := by
    rw [← unmapVisits_snd, hrun]
    rfl
  obtain ⟨hnd, -, hroot⟩ := List.nodup_append.mp (hfreed ▸ nodup_tablePages hE.paged)
  have hout : root ∉ freed vs := fun h => hroot root h root (List.mem_singleton.mpr rfl) rfl
  have hnew : root ∉ ps := fun h => hE.fresh.notMem h h0.live
  have hmem : ∀ p, p ∈ freed vs ↔ p ∈ ps := by
    intro p
    have htable : p ∈ freed vs ++ [root] ↔ p = root ∨ p ∈ ps := by rw [hfreed, mem_tablePages, hhas]
    rw [List.mem_append, List.mem_singleton] at htable
    constructor
    · intro h
      exact (htable.mp (.inl h)).resolve_left fun he => hout (he ▸ h)
    · intro h
      exact (htable.mpr (.inr h)).resolve_right fun he => hnew (he ▸ h)
  have hperm : (freed vs).Perm ps := (List.perm_ext_iff_of_nodup hnd hE.fresh.nodup).mpr hmem
  exact ⟨ps, vs, a, hE.blocks, hunmap, hrun, hnd, hperm, fun va e _ hne h => hne ((hmem _).mp h), hout, hord⟩

/-- the two tables of one mapping -/
theorem unmap_frees_tables_example : ∃ s vs a, map bumpPages 0x1000 0#64 0x80000000#64 0x6#64 0 bareHeap = some s ∧
    unmapVisits quiet 0x1000 ⟨s, [], []⟩ = some (vs, a) ∧ (freed vs).Perm [0x3000, 0x5000] := by
  have hrun : (map bumpPages 0x1000 0#64 0x80000000#64 0x6#64 0 bareHeap).map Heap.blocks
      = some (grown bareHeap.blocks [0x3000, 0x5000]) := by
    decide
  obtain ⟨s, hm, hblocks⟩ := Option.map_eq_some_iff.mp hrun
  obtain ⟨ps, vs, a, hgrown, -, hvisits, -, hperm, -⟩ :=
    unmap_frees_tables bumpPages quiet 0x1000 bareHeap s bareHeap_zeroed (mapped_once hm) [] []
  obtain rfl := grown_injective (hgrown.symm.trans hblocks)
  exact ⟨s, vs, a, hm, hvisits, hperm⟩

/-- A mapping to the page of its own first table: the page of a leaf is deallocated. -/
theorem unmap_frees_leaf_page : ∃ s vs a e, map bumpPages 0x1000 0#64 0x3000#64 0x6#64 0 bareHeap = some s ∧
    unmapVisits quiet 0x1000 ⟨s, [], []⟩ = some (vs, a) ∧ leafOf s.mem 0x1000 0#64 = some e ∧ e.target ∈ freed vs := by
  have hrun : ((map bumpPages 0x1000 0#64 0x3000#64 0x6#64 0 bareHeap).bind fun s =>
      (leafOf s.mem 0x1000 0#64).map fun e => (s.blocks, e.target))
        = some (grown bareHeap.blocks [0x3000, 0x5000], 0x3000) := by
    decide
  obtain ⟨s, hm, hrun⟩ := Option.bind_eq_some_iff.mp hrun
  obtain ⟨e, hleaf, he⟩ := Option.map_eq_some_iff.mp hrun
  obtain ⟨hblocks, htarget⟩ := Prod.mk.inj he
  obtain ⟨ps, hE, hhas⟩ := (mapped_once hm).tables bareHeap_zeroed
  obtain rfl := grown_injective (hE.blocks.symm.trans hblocks)
  obtain ⟨vs, a, hvisits, hfreed, -⟩ := unmapVisits_tables quiet hE.paged [] []
  have htable : e.target ∈ freed vs ++ [0x1000] := by
    rw [hfreed, mem_tablePages, hhas, htarget]
    decide
  refine ⟨s, vs, a, e, hm, hvisits, hleaf, ?_⟩
  refine (List.mem_append.mp htable).resolve_right fun h => ?_
  rw [htarget] at h
  revert h
  decide

end Citron.Loader
