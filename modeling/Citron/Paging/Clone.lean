import Citron.Paging.Exact

/-!
# `clone` is a deep copy

`Table::clone` of `src/arch/riscv64/paging.rs`: a recursion over the entries that makes a new table for every branch
and keeps its flags; a leaf is stored as it is.  `none` is a panic, or `clone` out of fuel.

* `Copied`       the loop so far: the new table is in good order on new pages, and has the entries done;
* `clone_copied` the copy of tables in good order, with three turns of fuel for three levels;
* `Twins`        two tables in good order that share no page, which calls of `map` on either keep apart;
* `clone_deep`   the copy translates as the original, and later calls on one leave the other alone.
-/

namespace Citron.Paging
open Word

/-! ## the function of the source -/

/-- one turn of the loop of `clone`, at entry `j` of `table` -/
def cloneEntry (rec : Nat → Heap → Option (Nat × Heap)) (table newTable : Nat) (s : Heap) (j : Fin 512) : Option Heap :=
  let entry := entryAt s.mem (slot table j)
  if entry.isInvalid then some s
  else if !entry.isLeaf then
    let flags := entry.getFlags
    let oldTable := entry.target
    if oldTable = 0 then none
    else (rec oldTable s).bind fun (table, s) =>
      if newTable = 0 then none
      else some (s.write (slot newTable j) ((BitVec.ofNat 64 table >>> 2) ||| flags))
  else if newTable = 0 then none
  else some (s.write (slot newTable j) entry)

def clone (A : PageAllocator) : Nat → Nat → Heap → Option (Nat × Heap)
  | 0, _, _ => none
  | fuel+1, table, s =>
    let (newTable, s) := s.allocZeroed A pageSize
    ((List.finRange 512).foldlM (cloneEntry (clone A fuel) table newTable) s).map fun s => (newTable, s)

section mono
variable {rec rec' : Nat → Heap → Option (Nat × Heap)} (hrec : ∀ t s r, rec t s = some r → rec' t s = some r)
include hrec

theorem cloneEntry_mono {table newTable : Nat} {s s' : Heap} {j : Fin 512}
    (h : cloneEntry rec table newTable s j = some s') : cloneEntry rec' table newTable s j = some s' := by
  unfold cloneEntry at h ⊢
  dsimp only at h ⊢
  split at h
  · rename_i h0
    rwa [if_pos h0]
  · rename_i h0
    rw [if_neg h0]
    split at h
    · rename_i h1
      rw [if_pos h1]
      split at h
      · cases h
      · rename_i hnull
        obtain ⟨r, hr, h⟩ := Option.bind_eq_some_iff.mp h
        rw [if_neg hnull, hrec _ _ _ hr]
        exact h
    · rename_i h1
      rwa [if_neg h1]

theorem cloneLoop_mono {table newTable : Nat} (js : List (Fin 512)) : ∀ {s s' : Heap},
    js.foldlM (cloneEntry rec table newTable) s = some s' → js.foldlM (cloneEntry rec' table newTable) s = some s' := by
  induction js with
  | nil => exact fun h => h
  | cons j js ih =>
    intro s s' h
    rw [List.foldlM_cons] at h ⊢
    obtain ⟨s₁, hj, h⟩ := Option.bind_eq_some_iff.mp h
    rw [cloneEntry_mono hrec hj]
    exact ih h

end mono

/-- more fuel gives the same copy -/
theorem clone_mono (A : PageAllocator) (fuel : Nat) : ∀ (t : Nat) (s : Heap) (r : Nat × Heap),
    clone A fuel t s = some r → clone A (fuel+1) t s = some r := by
  induction fuel with
  | zero => exact fun _ _ _ h => by cases h
  | succ fuel ih =>
    intro t s r h
    rw [clone] at h ⊢
    obtain ⟨s', hloop, h⟩ := Option.map_eq_some_iff.mp h
    exact Option.map_eq_some_iff.mpr ⟨s', cloneLoop_mono ih _ hloop, h⟩

/-! ## the loop -/

/-- the tables below the entries `js`, in the order in which `unmap` would give them back -/
def tablesBelow (m : Mem) (i table : Nat) (js : List (Fin 512)) : List Nat :=
  js.flatMap fun j => (below m i table j).nodes (List.finRange 512)

/-- **The loop of `clone`** between two turns: of `table` in the heap `s`, the entries `js` are copied to `newTable`
in the heap `s'`, on the pages `ps` taken since. -/
structure Copied (A : PageAllocator) (i table newTable : Nat) (s s' : Heap) (ps : List Nat) (js : List (Fin 512)) :
    Prop where
  fresh : Fresh A s.blocks ps
  blocks : s'.blocks = grown s.blocks ps
  frame : Set.EqOn s'.mem s.mem (pageArea ps)ᶜ
  wellFormed : WellFormed s' i newTable
  own : ∀ p, (tableTree s'.mem i newTable).Has p → p ∈ ps
  alike : ∀ j ∈ js, (below s.mem i table j).Alike (below s'.mem i newTable j)
  rest : ∀ j, j ∉ js → entryAt s'.mem (slot newTable j) = 0#64
  count : ps.length = (tablesBelow s.mem i table js).length + 1

section copied
variable {A : PageAllocator} {i table newTable : Nat} {s s' : Heap} {ps : List Nat} {js : List (Fin 512)}

theorem copied_new {q : Nat} (hq : A.next s.blocks 4096 = some q) (i table : Nat) :
    Copied A i table q s ⟨s.mem.zero q 4096, (q, 4096) :: s.blocks⟩ [q] [] := by
  have hz := zeroedRoot_of_next hq
  refine ⟨.cons hq (.nil _), rfl, ?_, hz.wellFormed, ?_, fun _ h => absurd h List.not_mem_nil, fun j _ => ?_, rfl⟩
  · refine Mem.zero_eqOn (Set.disjoint_compl_right_iff_subset.mpr fun a ha => ?_)
    exact ⟨q, List.mem_singleton.mpr rfl, ha⟩
  · rw [hz.tree]
    rintro p (rfl | ⟨_, hp⟩)
    · exact List.mem_singleton.mpr rfl
    · exact absurd hp id
  · exact Mem.readWord_of_zero fun a ha => hz.zero a (slot_subset q j ha)

variable (h : Copied A i table newTable s s' ps js)
include h

theorem Copied.new_mem : newTable ∈ ps := h.own newTable (.inl rfl)

theorem Copied.live {b : Nat × Nat} (hb : b ∈ s.blocks) : b ∈ s'.blocks := by
  rw [h.blocks]
  exact mem_grown.mpr (.inl hb)

/-- tables that were there are as they were -/
theorem Copied.eqOn {k t : Nat} (hw : WellFormed s k t) : Set.EqOn s'.mem s.mem (area (tableTree s.mem k t)) :=
  h.frame.mono (Set.subset_compl_iff_disjoint_left.mpr (h.fresh.disjoint_area fun p hp => (hw.live p hp).2))

theorem Copied.kept {k t : Nat} (hw : WellFormed s k t) : WellFormed s' k t :=
  hw.congr (fun _ => h.live) (h.eqOn hw)

theorem Copied.source (hw : WellFormed s i table) (j : Fin 512) :
    entryAt s'.mem (slot table j) = entryAt s.mem (slot table j) :=
  Mem.readWord_congr ((h.eqOn hw).mono ((slot_subset table j).trans (page_subset_tableTree s.mem i table)))

/-- an invalid entry: nothing to do -/
theorem Copied.skip {j : Fin 512} (hj : j ∉ js) (h0 : (entryAt s.mem (slot table j)).isInvalid = true) :
    Copied A i table newTable s s' ps (js ++ [j]) := by
  have hbelow : below s.mem i table j = .empty := tree_invalid h0 i
  refine ⟨h.fresh, h.blocks, h.frame, h.wellFormed, h.own, fun k hk => ?_, fun k hk => ?_, ?_⟩
  · rcases List.mem_append.mp hk with hk | hk
    · exact h.alike k hk
    · obtain rfl := List.mem_singleton.mp hk
      have hnew : below s'.mem i newTable k = .empty := by
        show tree s'.mem i (entryAt s'.mem (slot newTable k)) = _
        rw [h.rest k hj]
        exact tree_invalid rfl i
      rw [hbelow, hnew]
      trivial
  · exact h.rest k fun hm => hk (List.mem_append_left _ hm)
  · have hnone : tablesBelow s.mem i table [j] = [] := by
      unfold tablesBelow
      rw [List.flatMap_singleton, hbelow]
      rfl
    rw [h.count]
    unfold tablesBelow at hnone ⊢
    rw [List.flatMap_append, hnone, List.append_nil]

/-- what is put in the place of entry `j`: the same tree, on the pages `qs` taken for it -/
structure Put (A : PageAllocator) (i table newTable : Nat) (s s' s₁ : Heap) (j : Fin 512) (e : Entry) (qs : List Nat) :
    Prop where
  fresh : Fresh A s'.blocks qs
  blocks : s₁.blocks = grown s'.blocks qs
  frame : Set.EqOn s₁.mem s'.mem (pageArea qs)ᶜ
  fits : (tree (s₁.write (slot newTable j) e).mem i e).Fits i
  separate : (tree (s₁.write (slot newTable j) e).mem i e).Separate
  own : ∀ p, (tree (s₁.write (slot newTable j) e).mem i e).Has p → p ∈ qs
  alike : (below s.mem i table j).Alike (tree (s₁.write (slot newTable j) e).mem i e)
  count : qs.length = ((below s.mem i table j).nodes (List.finRange 512)).length

section put
variable {s₁ : Heap} {j : Fin 512} {e : Entry} {qs : List Nat} (hp : Put A i table newTable s s' s₁ j e qs)
include hp

theorem Put.disjoint : Disjoint (pageArea qs) (area (tableTree s'.mem i newTable)) :=
  hp.fresh.disjoint_area fun p hh => (h.wellFormed.live p hh).2

omit h in
theorem Put.eqOn :
    Set.EqOn (s₁.write (slot newTable j) e).mem s'.mem (Mem.range (slot newTable j) 8 ∪ pageArea qs)ᶜ := by
  have hwrite : Set.EqOn (s₁.mem.writeWord (slot newTable j) e) s₁.mem (Mem.range (slot newTable j) 8)ᶜ :=
    Mem.writeWord_eqOn disjoint_compl_right
  exact (hwrite.mono (Set.compl_subset_compl.mpr Set.subset_union_left)).trans
    (hp.frame.mono (Set.compl_subset_compl.mpr Set.subset_union_right))

theorem Put.tree : tableTree (s₁.write (slot newTable j) e).mem i newTable
    = .node newTable (Function.update (fun k => below s'.mem i newTable k) j
        (Paging.tree (s₁.write (slot newTable j) e).mem i e)) := by
  have hbelow : below (s₁.write (slot newTable j) e).mem i newTable j
      = Paging.tree (s₁.write (slot newTable j) e).mem i e := by
    show Paging.tree _ i (Mem.readWord (s₁.mem.writeWord _ _) _) = _
    rw [Mem.readWord_writeWord]
  rw [← hbelow]
  exact tableTree_update h.wellFormed.aligned h.wellFormed.separate (hp.disjoint h)
    (hp.eqOn.mono (Set.compl_subset_compl.mpr (Set.union_subset_union_left _ Set.subset_union_left)))

/-- the entries done so far, and the one of this turn -/
theorem Put.below (k : Fin 512) : below (s₁.write (slot newTable j) e).mem i newTable k
    = Function.update (fun k => Paging.below s'.mem i newTable k) j
        (Paging.tree (s₁.write (slot newTable j) e).mem i e) k :=
  congrFun (Radix.node.inj (hp.tree h)).2 k

theorem Put.has {p : Nat} (hh : (tableTree (s₁.write (slot newTable j) e).mem i newTable).Has p) :
    (tableTree s'.mem i newTable).Has p ∨ p ∈ qs := by
  rw [hp.tree h] at hh
  rcases hh with rfl | ⟨k, hk⟩
  · exact .inl (.inl rfl)
  · by_cases he : k = j
    · subst he
      rw [Function.update_self] at hk
      exact .inr (hp.own p hk)
    · rw [Function.update_of_ne he] at hk
      exact .inl (.inr ⟨k, hk⟩)

theorem Put.wellFormed : WellFormed (s₁.write (slot newTable j) e) i newTable := by
  have hw := h.wellFormed
  refine ⟨hw.aligned, ?_, ?_, fun p hh => ?_⟩
  · rw [hp.tree h]
    intro k
    by_cases he : k = j
    · subst he
      rw [Function.update_self]
      exact hp.fits
    · rw [Function.update_of_ne he]
      exact hw.fits k
  · rw [hp.tree h]
    refine Radix.Separate.update hw.separate hp.separate fun q hq => .inr ?_
    have hnew : ¬ (tableTree s'.mem i newTable).Has q := fun hh => hp.fresh.notMem (hp.own q hq) (hw.live q hh).2
    exact ⟨fun he => hnew (.inl he), fun k hk => hnew (.inr ⟨k, hk⟩)⟩
  · show _ ∧ (p, 4096) ∈ s₁.blocks
    rw [hp.blocks]
    rcases hp.has h hh with hh | hm
    · exact ⟨(hw.live p hh).1, mem_grown.mpr (.inl (hw.live p hh).2)⟩
    · exact ⟨hp.fresh.pos p hm, mem_grown.mpr (.inr ⟨p, hm, rfl⟩)⟩

theorem Copied.put (hj : j ∉ js) :
    Copied A i table newTable s (s₁.write (slot newTable j) e) (ps ++ qs) (js ++ [j]) := by
  refine ⟨h.fresh.append (h.blocks ▸ hp.fresh), ?_, ?_, hp.wellFormed h, ?_, ?_, ?_, ?_⟩
  · show s₁.blocks = _
    rw [hp.blocks, h.blocks, grown_append]
  · -- the entry lies on the new table's page
    have hslot : Mem.range (slot newTable j) 8 ⊆ pageArea ps :=
      (slot_subset newTable j).trans fun a ha => ⟨newTable, h.new_mem, ha⟩
    rw [pageArea_append]
    exact (hp.eqOn.mono (Set.compl_subset_compl.mpr (Set.union_subset_union_left _ hslot))).trans
      (h.frame.mono (Set.compl_subset_compl.mpr Set.subset_union_left))
  · intro p hh
    exact List.mem_append.mpr ((hp.has h hh).imp (h.own p) id)
  · intro k hk
    rw [hp.below h]
    rcases List.mem_append.mp hk with hk | hk
    · have he : k ≠ j := fun he => hj (he ▸ hk)
      rw [Function.update_of_ne he]
      exact h.alike k hk
    · obtain rfl := List.mem_singleton.mp hk
      rw [Function.update_self]
      exact hp.alike
  · intro k hk
    rw [List.mem_append, List.mem_singleton, not_or] at hk
    rw [← h.rest k hk.1]
    refine Mem.readWord_congr (hp.eqOn.mono (Set.subset_compl_iff_disjoint_left.mpr ?_))
    refine Set.disjoint_union_left.mpr ⟨slot_disjoint newTable (Ne.symm hk.2), (hp.disjoint h).mono_right ?_⟩
    exact (slot_subset newTable k).trans (page_subset_tableTree s'.mem i newTable)
  · rw [List.length_append, h.count, hp.count]
    unfold tablesBelow
    rw [List.flatMap_append, List.length_append, List.flatMap_singleton]
    omega

end put

/-- a leaf is stored as it is -/
theorem Copied.leaf {j : Fin 512} (hj : j ∉ js) (he : IsMapping (entryAt s.mem (slot table j))) :
    Copied A i table newTable s (s'.write (slot newTable j) (entryAt s.mem (slot table j))) ps (js ++ [j]) := by
  have hold : below s.mem i table j = .leaf (entryAt s.mem (slot table j)) := tree_leaf he i
  have hput : Put A i table newTable s s' s' j (entryAt s.mem (slot table j)) [] := by
    have htree := tree_leaf (m := (s'.write (slot newTable j) (entryAt s.mem (slot table j))).mem) he i
    refine ⟨.nil _, rfl, fun _ _ => rfl, ?_, ?_, ?_, ?_, ?_⟩
    · rw [htree]
      cases i <;> trivial
    · rw [htree]
      trivial
    · rw [htree]
      exact fun _ hp => absurd hp id
    · rw [htree, hold]
      rfl
    · rw [hold]
      rfl
  have hnew := h.put hput hj
  rwa [List.append_nil] at hnew

end copied

theorem Copied.shape {A : PageAllocator} {i table newTable : Nat} {s s' : Heap} {ps : List Nat}
    (h : Copied A i table newTable s s' ps (List.finRange 512)) :
    (tableTree s.mem i table).Alike (tableTree s'.mem i newTable) :=
  fun j => h.alike j (List.mem_finRange j)

/-- a branch leads to the copy of the table below -/
theorem Copied.branch {A : PageAllocator} {i table newTable t : Nat} {s s' s₁ : Heap} {ps qs : List Nat}
    {js : List (Fin 512)} {j : Fin 512} (h : Copied A (i+1) table newTable s s' ps js) (hw : WellFormed s (i+1) table)
    (hj : j ∉ js) (h0 : (entryAt s.mem (slot table j)).isInvalid ≠ true)
    (h1 : (entryAt s.mem (slot table j)).isLeaf ≠ true)
    (hc : Copied A i (entryAt s.mem (slot table j)).target t s' s₁ qs (List.finRange 512)) :
    Copied A (i+1) table newTable s
      (s₁.write (slot newTable j) ((BitVec.ofNat 64 t >>> 2) ||| (entryAt s.mem (slot table j)).getFlags))
      (ps ++ qs) (js ++ [j]) := by
  have hwt := hw.branch h0 h1
  have hold : below s.mem (i+1) table j = tableTree s.mem i (entryAt s.mem (slot table j)).target :=
    tree_branch h0 h1 i
  -- the new entry is a branch to the copy
  have ha : 4096 ∣ t := hc.wellFormed.aligned
  have hb : t < 2^56 := hc.fresh.lt t hc.new_mem
  have hnew : ∀ m : Mem, tree m (i+1) ((BitVec.ofNat 64 t >>> 2) ||| (entryAt s.mem (slot table j)).getFlags)
      = tableTree m i t := by
    intro m
    rw [tree_branch ?_ ?_, target_branch ha hb (getFlags_lt _)]
    · unfold Entry.isInvalid at h0 ⊢
      rwa [isValid_branch ha hb, isValid_getFlags]
    · rwa [isLeaf_branch ha hb, isLeaf_getFlags]
  -- which the entry does not lie in
  have hout : Disjoint (Mem.range (slot newTable j) 8) (area (tableTree s₁.mem i t)) := by
    have hpage : (newTable, 4096) ∈ s'.blocks := (h.wellFormed.live newTable (.inl rfl)).2
    refine ((hc.fresh.disjoint hpage).symm.mono_left (slot_subset newTable j)).mono_right ?_
    rintro a ⟨p, hp, ha⟩
    exact ⟨p, hc.own p hp, ha⟩
  have htree : tableTree (s₁.write (slot newTable j)
      ((BitVec.ofNat 64 t >>> 2) ||| (entryAt s.mem (slot table j)).getFlags)).mem i t = tableTree s₁.mem i t :=
    tableTree_congr (Mem.writeWord_eqOn hout)
  refine h.put ⟨hc.fresh, hc.blocks, hc.frame, ?_, ?_, ?_, ?_, ?_⟩ hj
  · rw [hnew, htree]
    exact hc.wellFormed.fits
  · rw [hnew, htree]
    exact hc.wellFormed.separate
  · rw [hnew, htree]
    exact hc.own
  · rw [hnew, htree, hold, ← tableTree_congr (h.eqOn hwt)]
    exact hc.shape
  · rw [hc.count, hold, ← tableTree_congr (h.eqOn hwt)]
    unfold tableTree tablesBelow
    rw [Radix.nodes, List.length_append]
    rfl

/-! ## the recursion -/

/-- `rec` copies tables of level `i`, when the allocator has a page for each -/
def Copies (A : PageAllocator) (i : Nat) (rec : Nat → Heap → Option (Nat × Heap)) : Prop :=
  ∀ (s : Heap) (table n : Nat), WellFormed s i table →
    ((tableTree s.mem i table).nodes (List.finRange 512)).length ≤ n → Heap.Serves A [4096] n s.blocks →
    ∃ t s' ps, rec table s = some (t, s') ∧ Copied A i table t s s' ps (List.finRange 512)

section recursion
variable {A : PageAllocator} {i table newTable n : Nat} {s s' : Heap} {ps : List Nat} {js : List (Fin 512)}
  {rec : Nat → Heap → Option (Nat × Heap)} (hrec : ∀ k, i = k + 1 → Copies A k rec) (hw : WellFormed s i table)
include hrec hw

theorem Copied.step {j : Fin 512} (h : Copied A i table newTable s s' ps js) (hj : j ∉ js)
    (hn : ((below s.mem i table j).nodes (List.finRange 512)).length ≤ n) (hserve : Heap.Serves A [4096] n s'.blocks) :
    ∃ s₁ ps₁, cloneEntry rec table newTable s' j = some s₁ ∧ Copied A i table newTable s s₁ ps₁ (js ++ [j]) := by
  have hpos : newTable ≠ 0 := (h.wellFormed.live newTable (.inl rfl)).1.ne'
  unfold cloneEntry
  rw [h.source hw j]
  by_cases h0 : (entryAt s.mem (slot table j)).isInvalid = true
  · exact ⟨s', ps, if_pos h0, h.skip hj h0⟩
  · by_cases h1 : (entryAt s.mem (slot table j)).isLeaf = true
    · refine ⟨_, ps, ?_, h.leaf hj ⟨by simpa [Entry.isInvalid] using h0, h1⟩⟩
      simp only [h0, h1, hpos, Bool.not_true, Bool.false_eq_true, if_false]
    · cases i with
      | zero =>
        -- a branch of level 0 does not fit
        have hf : (below s.mem 0 table j).Fits 0 := hw.fits j
        rw [show below s.mem 0 table j = _ from (if_neg h0).trans (if_neg h1)] at hf
        exact absurd hf id
      | succ k =>
        have hwt := hw.branch h0 h1
        have hnull : (entryAt s.mem (slot table j)).target ≠ 0 := (hwt.live _ (.inl rfl)).1.ne'
        have hold : below s.mem (k+1) table j = tableTree s'.mem k (entryAt s.mem (slot table j)).target :=
          (tree_branch h0 h1 k).trans (tableTree_congr (h.eqOn hwt)).symm
        rw [hold] at hn
        obtain ⟨t, s₁, qs, hrun, hc⟩ := hrec k rfl s' _ n (h.kept hwt) hn hserve
        refine ⟨_, _, ?_, h.branch hw hj h0 h1 hc⟩
        simp only [h0, h1, hnull, hpos, Bool.not_false, Bool.false_eq_true, if_true, if_false, hrun, Option.bind_some]

theorem Copied.loop (ks : List (Fin 512)) : ∀ {s' : Heap} {ps : List Nat} {js : List (Fin 512)},
    Copied A i table newTable s s' ps js → (js ++ ks).Nodup → (tablesBelow s.mem i table (js ++ ks)).length + 1 ≤ n →
    Heap.Serves A [4096] n s.blocks →
    ∃ s₁ ps₁, ks.foldlM (cloneEntry rec table newTable) s' = some s₁ ∧
      Copied A i table newTable s s₁ ps₁ (js ++ ks) := by
  induction ks with
  | nil =>
    intro s' ps js h _ _ _
    exact ⟨s', ps, rfl, by rwa [List.append_nil]⟩
  | cons k ks ih =>
    intro s' ps js h hnd hn hserve
    rw [List.append_cons] at hnd hn ⊢
    have hk : k ∉ js := fun hm =>
      List.disjoint_of_nodup_append hnd.of_append_left hm (List.mem_singleton.mpr rfl)
    have hcount : (tablesBelow s.mem i table (js ++ [k] ++ ks)).length
        = (ps.length - 1) + ((below s.mem i table k).nodes (List.finRange 512)).length
          + (tablesBelow s.mem i table ks).length := by
      rw [h.count]
      unfold tablesBelow
      rw [List.flatMap_append, List.flatMap_append, List.length_append, List.length_append, List.flatMap_singleton]
      rfl
    have hpos := List.length_pos_of_mem h.new_mem
    have hleft : Heap.Serves A [4096] (n - ps.length) s'.blocks := by
      rw [h.blocks]
      exact h.fresh.serves (List.mem_singleton.mpr rfl) (hserve.mono (List.Subset.refl _) (by omega))
    obtain ⟨s₁, ps₁, hrun, h₁⟩ := Copied.step hrec hw h hk (by omega) hleft
    obtain ⟨s₂, ps₂, hloop, h₂⟩ := ih h₁ hnd hn hserve
    refine ⟨s₂, ps₂, ?_, h₂⟩
    rw [List.foldlM_cons, hrun]
    exact hloop

end recursion

/-- **The copy of tables in good order**, with as much fuel as there are levels. -/
theorem clone_copied (A : PageAllocator) (fuel : Nat) : ∀ i, i < fuel → Copies A i (clone A fuel) := by
  induction fuel with
  | zero => exact fun i h => absurd h (Nat.not_lt_zero i)
  | succ fuel ih =>
    intro i hi s table n hw hn hserve
    have hnodes : ((tableTree s.mem i table).nodes (List.finRange 512)).length
        = (tablesBelow s.mem i table (List.finRange 512)).length + 1 := by
      unfold tableTree tablesBelow
      rw [Radix.nodes, List.length_append]
      rfl
    rw [hnodes] at hn
    obtain ⟨k, rfl⟩ : ∃ k, n = k + 1 := ⟨n - 1, by omega⟩
    obtain ⟨q, hq, -⟩ := hserve 4096 (List.mem_singleton.mpr rfl)
    obtain ⟨s', ps, hloop, hc⟩ := Copied.loop (fun l hl => ih l (by omega)) hw (List.finRange 512)
      (copied_new hq i table) (by rw [List.nil_append]; exact List.nodup_finRange 512) (by rwa [List.nil_append]) hserve
    rw [List.nil_append] at hc
    refine ⟨q, s', ps, ?_, hc⟩
    unfold clone
    rw [show pageSize = 4096 from rfl, Heap.allocZeroed_of_next hq]
    show Option.map _ (List.foldlM _ _ _) = _
    rw [hloop]
    rfl

/-! ## one table in another's place -/

/-- the table in `m'` translates every address as the table in `m`, through the same leaf -/
def Agrees (m : Mem) (table : Nat) (m' : Mem) (table' : Nat) : Prop :=
  ∀ va, virtToPhys m' table' va = virtToPhys m table va ∧ leafOf m' table' va = leafOf m table va

theorem agrees_of_lookup {s s' : Heap} {table table' : Nat} (hw : WellFormed s 2 table) (hw' : WellFormed s' 2 table')
    (h : ∀ js, (tableTree s'.mem 2 table').lookup js = (tableTree s.mem 2 table).lookup js) :
    Agrees s.mem table s'.mem table' := by
  intro va
  constructor
  · rw [virtToPhys_eq hw.fits hw.sound, virtToPhys_eq hw'.fits hw'.sound, h]
  · unfold leafOf
    rw [h]

/-! ## two tables -/

/-- two tables in good order that share no page -/
structure Twins (s : Heap) (root root' : Nat) : Prop where
  left : WellFormed s 2 root
  right : WellFormed s 2 root'
  apart : ∀ p, (tableTree s.mem 2 root).Has p → ¬ (tableTree s.mem 2 root').Has p

theorem Twins.symm {s : Heap} {root root' : Nat} (h : Twins s root root') : Twins s root' root :=
  ⟨h.right, h.left, fun p hp hq => h.apart p hq hp⟩

theorem Twins.disjoint {s : Heap} {root root' p q : Nat} (h : Twins s root root') (hp : (tableTree s.mem 2 root).Has p)
    (hq : (tableTree s.mem 2 root').Has q) : Disjoint (Mem.range p 4096) (Mem.range q 4096) := by
  refine page_disjoint (aligned_tableTree h.left.aligned hp) (aligned_tableTree h.right.aligned hq) ?_
  rintro rfl
  exact h.apart p hp hq

theorem Copied.twins {A : PageAllocator} {table newTable : Nat} {s s' : Heap} {ps : List Nat} {js : List (Fin 512)}
    (h : Copied A 2 table newTable s s' ps js) (hw : WellFormed s 2 table) : Twins s' table newTable := by
  refine ⟨h.kept hw, h.wellFormed, fun p hp hq => ?_⟩
  rw [tableTree_congr (h.eqOn hw)] at hp
  exact h.fresh.notMem (h.own p hq) (hw.live p hp).2

/-- an insertion in one of them does not reach the other -/
theorem Twins.inserted {A : PageAllocator} {s s' : Heap} {root root' : Nat} {js : List (Fin 512)} {e : Entry}
    {ps : List Nat} (h : Twins s root root') (hI : Inserted A s 2 root js e s' ps) (hj : js.length ≤ 3) :
    Twins s' root root' ∧ tableTree s'.mem 2 root' = tableTree s.mem 2 root' := by
  have hlive : ∀ b ∈ s.blocks, b ∈ s'.blocks := by
    intro b hb
    rw [hI.blocks]
    exact mem_grown.mpr (.inl hb)
  have hout : Set.EqOn s'.mem s.mem (area (tableTree s.mem 2 root')) := by
    refine hI.frame.mono (Set.subset_compl_iff_disjoint_left.mpr (Set.disjoint_union_left.mpr ⟨?_, ?_⟩))
    · rw [Set.disjoint_left]
      intro a ⟨p, hp, ha⟩ ⟨q, hq, ha'⟩
      exact Set.disjoint_left.mp (h.disjoint hp hq) ha ha'
    · exact hI.fresh.disjoint_area fun p hp => (h.right.live p hp).2
  have htree := tableTree_congr hout
  refine ⟨⟨hI.wellFormed h.left hj, h.right.congr hlive hout, fun p hp hq => ?_⟩, htree⟩
  rw [htree] at hq
  rcases hI.ins.has hp with hp | hp
  · exact h.apart p hp hq
  · exact hI.fresh.notMem hp (h.right.live p hq).2

/-- beyond the root there is no level -/
theorem map_top (A : PageAllocator) (root : Nat) (vaddr paddr bits : Word) {level : Nat} (hl : 2 ≤ level) (s : Heap) :
    map A root vaddr paddr bits level s = map A root vaddr paddr bits 2 s := by
  have hnone : levels - 1 - level = 0 := by
    show 3 - 1 - level = 0
    omega
  unfold map
  rw [hnone]
  rfl

/-- one call at any level -/
theorem map_inserts_any {A : PageAllocator} {root : Nat} {s : Heap} {vaddr bits : Word} {level : Nat} (paddr : Word)
    (hw : WellFormed s 2 root) (hbits : bits &&& 0xe#64 ≠ 0#64) (hopen : NoLeafAbove s.mem root vaddr level)
    (hserve : Heap.Serves A [4096] ((tableTree s.mem 2 root).missing (pathTo vaddr level 3)) s.blocks) :
    ∃ s' ps js, map A root vaddr paddr bits level s = some s' ∧
      Inserted A s 2 root js (leafEntry paddr bits) s' ps ∧ js.length ≤ 3 ∧ (level = 0 → js.length = 3) := by
  by_cases hl : level ≤ 2
  · obtain ⟨s', ps, hm, hI⟩ := map_inserts paddr hw hl hbits ((noLeafAbove_iff _ _ _ hl).mp hopen) hserve
    refine ⟨s', ps, _, hm, hI, ?_, ?_⟩
    · rw [length_pathTo]
      omega
    · rintro rfl
      exact length_pathTo vaddr 0 3
  · -- the entry of the root is there
    have hmiss : (tableTree s.mem 2 root).missing (pathTo vaddr 2 3) = 0 :=
      Nat.le_zero.mp (Radix.missing_le (below s.mem 2 root (vpn vaddr 2)) [])
    obtain ⟨s', ps, hm, hI⟩ := map_inserts (A := A) paddr hw (Nat.le_refl 2) hbits
      ((noLeafAbove_iff s.mem root vaddr (Nat.le_refl 2)).mp rfl) (by rw [hmiss]; trivial)
    exact ⟨s', ps, _, (map_top A root vaddr paddr bits (by omega) s).trans hm, hI, by simp [length_pathTo], by omega⟩

/-- the heaps that calls of `map` on the one table or the other lead to from `s₀`, with the levels of the calls, latest
first -/
inductive Later (A : PageAllocator) (root root' : Nat) (s₀ : Heap) : List Nat → Heap → Prop
  | base : Later A root root' s₀ [] s₀
  | map {ls : List Nat} {s s' : Heap} {table : Nat} {vaddr paddr bits : Word} {level : Nat}
      (h : Later A root root' s₀ ls s) (ht : table = root ∨ table = root')
      (hopen : NoLeafAbove s.mem table vaddr level)
      (hserve : Heap.Serves A [4096] ((tableTree s.mem 2 table).missing (pathTo vaddr level 3)) s.blocks)
      (hm : Paging.map A table vaddr paddr bits level s = some s') : Later A root root' s₀ (level :: ls) s'

/-- two tables apart, with leaves at level 0 only when there were no other calls -/
structure LaterInv (root root' : Nat) (s : Heap) (ls : List Nat) : Prop where
  twins : Twins s root root'
  deep : (∀ l ∈ ls, l = 0) → (tableTree s.mem 2 root).Deep 3 ∧ (tableTree s.mem 2 root').Deep 3

theorem LaterInv.symm {root root' : Nat} {s : Heap} {ls : List Nat} (h : LaterInv root root' s ls) :
    LaterInv root' root s ls :=
  ⟨h.twins.symm, fun hl => (h.deep hl).symm⟩

theorem LaterInv.map {A : PageAllocator} {root root' : Nat} {s s' : Heap} {ls : List Nat} {vaddr paddr bits : Word}
    {level : Nat} (h : LaterInv root root' s ls) (hopen : NoLeafAbove s.mem root vaddr level)
    (hserve : Heap.Serves A [4096] ((tableTree s.mem 2 root).missing (pathTo vaddr level 3)) s.blocks)
    (hm : Paging.map A root vaddr paddr bits level s = some s') : LaterInv root root' s' (level :: ls) := by
  obtain ⟨s₁, ps, js, hm₁, hI, hlen, hzero⟩ := map_inserts_any paddr h.twins.left (leaf_of_map hm) hopen hserve
  obtain rfl : s' = s₁ := Option.some.inj (hm.symm.trans hm₁)
  obtain ⟨htwins, htree⟩ := h.twins.inserted hI hlen
  refine ⟨htwins, fun hl => ?_⟩
  obtain ⟨h0, hl⟩ := List.forall_mem_cons.mp hl
  obtain ⟨hd, hd'⟩ := h.deep hl
  rw [htree]
  exact ⟨hI.ins.deep (hzero h0) hd, hd'⟩

theorem Later.inv {A : PageAllocator} {root root' : Nat} {s₀ s : Heap} {ls : List Nat} (h0 : LaterInv root root' s₀ [])
    (h : Later A root root' s₀ ls s) : LaterInv root root' s ls := by
  induction h with
  | base => exact h0
  | map _ ht hopen hserve hm ih =>
    rcases ht with rfl | rfl
    · exact ih.map hopen hserve hm
    · exact (ih.symm.map hopen hserve hm).symm

theorem noLeafAbove_of_deep {m : Mem} {root : Nat} (h : (tableTree m 2 root).Deep 3) (vaddr : Word) (level : Nat) :
    NoLeafAbove m root vaddr level := by
  by_cases hl : level ≤ 2
  · rw [noLeafAbove_iff m root vaddr hl]
    exact h.open (by rw [length_pathTo]; omega)
  · unfold NoLeafAbove noLeafFrom
    rw [if_neg (show ¬ level ≤ 1 by omega)]

theorem LaterInv.call {A : PageAllocator} {root root' : Nat} {s : Heap} {ls : List Nat} (h : LaterInv root root' s ls)
    (vaddr paddr : Word) {bits : Word} {level : Nat} (hbits : bits &&& 0xe#64 ≠ 0#64)
    (hopen : NoLeafAbove s.mem root vaddr level)
    (hserve : Heap.Serves A [4096] ((tableTree s.mem 2 root).missing (pathTo vaddr level 3)) s.blocks) :
    ∃ s', Paging.map A root vaddr paddr bits level s = some s' ∧ Agrees s.mem root' s'.mem root' := by
  obtain ⟨s', ps, js, hm, hI, hlen, -⟩ := map_inserts_any paddr h.twins.left hbits hopen hserve
  obtain ⟨htwins, htree⟩ := h.twins.inserted hI hlen
  exact ⟨s', hm, agrees_of_lookup h.twins.right htwins.right fun js => by rw [htree]⟩

/-- **`clone` is a deep copy.** -/
theorem clone_deep (A : PageAllocator) (root : Nat) (s₀ s : Heap) (h0 : ZeroedRoot s₀ root) (hs : Mapped A root s₀ s)
    (n : Nat) (hn : ((tableTree s.mem 2 root).nodes (List.finRange 512)).length ≤ n)
    (hserve : Heap.Serves A [4096] n s.blocks) :
    ∃ root' s',
      -- it returns
      (∀ fuel, 3 ≤ fuel → clone A fuel root s = some (root', s')) ∧
      -- the copy translates as the original does, and the original as before
      Agrees s.mem root s'.mem root' ∧ Agrees s.mem root s'.mem root ∧
      (∀ p q, (tableTree s'.mem 2 root).Has p → (tableTree s'.mem 2 root').Has q →
        Disjoint (Mem.range p 4096) (Mem.range q 4096)) ∧
      -- whatever calls come later, on the one or the other, the next one leaves the other alone
      ∀ ls s₁, Later A root root' s' ls s₁ →
        ∀ table other, (table = root ∧ other = root' ∨ table = root' ∧ other = root) →
        (∀ (vaddr paddr bits : Word) (level : Nat), bits &&& 0xe#64 ≠ 0#64 → NoLeafAbove s₁.mem table vaddr level →
          Heap.Serves A [4096] ((tableTree s₁.mem 2 table).missing (pathTo vaddr level 3)) s₁.blocks →
          ∃ s₂, map A table vaddr paddr bits level s₁ = some s₂ ∧ Agrees s₁.mem other s₂.mem other) ∧
        -- the proviso is free when these calls were at level 0
        ((∀ l ∈ ls, l = 0) → ∀ vaddr level, NoLeafAbove s₁.mem table vaddr level) := by
  have hw := hs.paged h0
  obtain ⟨root', s', ps, hrun, hc⟩ := clone_copied A 3 2 (by omega) s root n hw.wellFormed hn hserve
  have hfuel : ∀ fuel, 3 ≤ fuel → clone A fuel root s = some (root', s') := by
    intro fuel hf
    induction fuel, hf using Nat.le_induction with
    | base => exact hrun
    | succ fuel _ ih => exact clone_mono A fuel root s _ ih
  have hkept := tableTree_congr (hc.eqOn hw.wellFormed)
  have htwins := hc.twins hw.wellFormed
  have hinv : LaterInv root root' s' [] := by
    refine ⟨htwins, fun _ => ⟨?_, ?_⟩⟩
    · rw [hkept]
      exact hw.deep
    · exact hc.shape.deep hw.deep
  refine ⟨root', s', hfuel, agrees_of_lookup hw.wellFormed hc.wellFormed hc.shape.lookup, ?_,
    fun p q => htwins.disjoint, fun ls s₁ hl table other ht => ?_⟩
  · exact agrees_of_lookup hw.wellFormed htwins.left fun js => by rw [hkept]
  · have hl := hl.inv hinv
    have hside : LaterInv table other s₁ ls := by
      rcases ht with ⟨rfl, rfl⟩ | ⟨rfl, rfl⟩
      · exact hl
      · exact hl.symm
    exact ⟨fun vaddr paddr bits level hbits hopen hserve => hside.call vaddr paddr hbits hopen hserve,
      fun hz vaddr level => noLeafAbove_of_deep (hside.deep hz).1 vaddr level⟩

/-- the tables of one mapping, copied -/
theorem clone_deep_example : ∃ s root' s', map bumpPages 0x1000 0#64 0x80000000#64 0x6#64 0 bareHeap = some s ∧
    clone bumpPages 3 0x1000 s = some (root', s') ∧ virtToPhys s'.mem root' 0x123#64 = some (some 0x80000123#64) := by
  have hrun : ((map bumpPages 0x1000 0#64 0x80000000#64 0x6#64 0 bareHeap).map fun s =>
      (s.blocks, virtToPhys s.mem 0x1000 0x123#64))
        = some (grown bareHeap.blocks [0x3000, 0x5000], some (some 0x80000123#64)) := by
    decide
  obtain ⟨s, hm, hs⟩ := Option.map_eq_some_iff.mp hrun
  obtain ⟨hblocks, hphys⟩ := Prod.mk.inj hs
  have hmapped := mapped_once hm
  -- the root and the two tables made for it
  have hcount : ((tableTree s.mem 2 0x1000).nodes (List.finRange 512)).length ≤ 3 := by
    obtain ⟨ps, hE, hhas⟩ := hmapped.tables bareHeap_zeroed
    obtain rfl := grown_injective (hE.blocks.symm.trans hblocks)
    have hsub : (tableTree s.mem 2 0x1000).nodes (List.finRange 512) ⊆ [0x1000, 0x3000, 0x5000] := by
      intro p hp
      exact List.mem_cons.mpr ((hhas p).mp ((Radix.mem_nodes List.mem_finRange _).mp hp))
    exact (List.subperm_of_subset (Radix.nodup_nodes List.mem_finRange (List.nodup_finRange 512) _
      hE.paged.wellFormed.separate) hsub).length_le
  obtain ⟨root', s', hclone, hagree, -⟩ := clone_deep bumpPages 0x1000 bareHeap s bareHeap_zeroed hmapped 3 hcount
    (by rw [hblocks]; exact Heap.serves_bump (n := 4096) (by decide) _ (by decide))
  refine ⟨s, root', s', hm, hclone 3 (Nat.le_refl 3), ?_⟩
  rw [(hagree 0x123#64).1, hphys]

end Citron.Paging
