import Citron.Paging.Table

/-!
# `map` is an insertion

The loop of `map` allocates on its way down.  `descend_refines` says that it performs one `Radix.Ins` on
the tree of the tables, and that it writes to no byte outside the tables and the pages it allocates.

* `WellFormed`        a table whose tree is no deeper than its level, shares no page and is live;
* `tree_congr`        the tree depends on its own pages only;
* `tableTree_update`  changing the tree below one entry changes nothing else of the table;
* `map_refines`       the refinement.
-/

namespace Citron.Paging
open Word

/-! ## the bytes of a tree -/

/-- the bytes of the tables of `t` -/
def area (t : Tree) : Set Nat := {a | ∃ p, t.Has p ∧ a ∈ Mem.range p 4096}

/-- the bytes of the pages `ps` -/
def pageArea (ps : List Nat) : Set Nat := {a | ∃ p ∈ ps, a ∈ Mem.range p 4096}

theorem slot_subset (p : Nat) (j : Fin 512) : Mem.range (slot p j) 8 ⊆ Mem.range p 4096 := by
  have := j.isLt
  unfold slot
  exact Mem.range_mono (by omega) (by omega)

theorem slot_disjoint (p : Nat) {j k : Fin 512} (h : j ≠ k) :
    Disjoint (Mem.range (slot p j) 8) (Mem.range (slot p k) 8) := by
  have hv : j.val ≠ k.val := fun he => h (Fin.ext he)
  unfold slot
  exact Mem.disjoint_range (by omega)

theorem page_disjoint {p q : Nat} (hp : 4096 ∣ p) (hq : 4096 ∣ q) (h : p ≠ q) :
    Disjoint (Mem.range p 4096) (Mem.range q 4096) := by
  obtain ⟨a, rfl⟩ := hp
  obtain ⟨b, rfl⟩ := hq
  exact Mem.disjoint_range (by omega)

theorem page_subset_area {t : Tree} {p : Nat} (h : t.Has p) : Mem.range p 4096 ⊆ area t :=
  fun _ ha => ⟨p, h, ha⟩

/-- the tree below entry `j` -/
abbrev below (m : Mem) (i page : Nat) (j : Fin 512) : Tree := tree m i (entryAt m (slot page j))

theorem page_subset_tableTree (m : Mem) (i page : Nat) :
    Mem.range page 4096 ⊆ area (tableTree m i page) :=
  page_subset_area (Or.inl rfl)

theorem area_below (m : Mem) (i page : Nat) (j : Fin 512) :
    area (below m i page j) ⊆ area (tableTree m i page) :=
  fun _ ⟨q, hq, ha⟩ => ⟨q, Or.inr ⟨j, hq⟩, ha⟩

theorem aligned_tree {m : Mem} (i : Nat) : ∀ (e : Entry) (p : Nat), (tree m i e).Has p → 4096 ∣ p := by
  induction i with
  | zero =>
    intro e p h
    unfold tree at h
    split at h
    · exact absurd h id
    · split at h
      · exact absurd h id
      · rcases h with rfl | ⟨_, h⟩
        · exact dvd_target e
        · exact absurd h id
  | succ i ih =>
    intro e p h
    unfold tree at h
    split at h
    · exact absurd h id
    · split at h
      · exact absurd h id
      · rcases h with rfl | ⟨_, h⟩
        · exact dvd_target e
        · exact ih _ _ h

/-- **Frame.**  Memories that agree on the pages of a tree have the same tree. -/
theorem tree_congr {m m' : Mem} (i : Nat) : ∀ e : Entry, Set.EqOn m' m (area (tree m i e)) →
    tree m' i e = tree m i e := by
  induction i with
  | zero => intro e _; rfl
  | succ i ih =>
    intro e h
    by_cases h0 : e.isInvalid = true
    · rw [tree_invalid h0, tree_invalid h0]
    · by_cases h1 : e.isLeaf = true
      · have hm : IsMapping e := ⟨by simpa [Entry.isInvalid] using h0, h1⟩
        rw [tree_leaf hm, tree_leaf hm]
      · rw [tree_branch h0 h1] at h ⊢
        rw [tree_branch h0 h1]
        unfold tableTree
        congr 1
        funext j
        have hj : entryAt m' (slot e.target j) = entryAt m (slot e.target j) :=
          Mem.readWord_congr
            (h.mono ((slot_subset _ _).trans (page_subset_tableTree m i e.target)))
        rw [hj]
        exact ih _ (h.mono (area_below m i e.target j))

/-! ## tables in good order -/

structure WellFormed (s : Heap) (i page : Nat) : Prop where
  aligned : 4096 ∣ page
  fits : (tableTree s.mem i page).Fits (i+1)
  separate : (tableTree s.mem i page).Separate
  live : ∀ p, (tableTree s.mem i page).Has p → 0 < p ∧ (p, 4096) ∈ s.blocks

theorem WellFormed.sound {s : Heap} {i page : Nat} (h : WellFormed s i page) :
    Sound (tableTree s.mem i page) := fun p hp => (h.live p hp).1

/-- an empty table -/
theorem WellFormed.bare {s : Heap} {i page : Nat} (ha : 4096 ∣ page) (hpos : 0 < page) (hlive : (page, 4096) ∈ s.blocks)
    (h : tableTree s.mem i page = .node page fun _ => .empty) : WellFormed s i page := by
  refine ⟨ha, ?_, ?_, ?_⟩
  · rw [h]
    exact fun _ => by cases i <;> trivial
  · rw [h]
    exact ⟨fun _ => id, fun _ _ _ _ h => absurd h id, fun _ => trivial⟩
  · rw [h]
    rintro p (rfl | ⟨_, hp⟩)
    · exact ⟨hpos, hlive⟩
    · exact absurd hp id

/-- a page of zeroes -/
theorem tableTree_zero {m : Mem} {page : Nat} (h : ∀ a ∈ Mem.range page 4096, m a = 0) (i : Nat) :
    tableTree m i page = .node page fun _ => .empty := by
  unfold tableTree
  congr 1
  funext k
  have hz : entryAt m (slot page k) = 0#64 := Mem.readWord_of_zero fun a ha => h a (slot_subset page k ha)
  rw [hz]
  exact tree_invalid rfl i

/-- a change outside the tables does not change them -/
theorem tableTree_congr {m m' : Mem} {i page : Nat}
    (h : Set.EqOn m' m (area (tableTree m i page))) : tableTree m' i page = tableTree m i page := by
  unfold tableTree
  congr 1
  funext j
  have hj : entryAt m' (slot page j) = entryAt m (slot page j) :=
    Mem.readWord_congr (h.mono ((slot_subset page j).trans (page_subset_tableTree m i page)))
  rw [hj]
  exact tree_congr i _ (h.mono (area_below m i page j))

/-- and more live blocks do not bring them out of order -/
theorem WellFormed.congr {s s' : Heap} {i page : Nat} (hw : WellFormed s i page) (hb : ∀ b ∈ s.blocks, b ∈ s'.blocks)
    (h : Set.EqOn s'.mem s.mem (area (tableTree s.mem i page))) : WellFormed s' i page := by
  have ht := tableTree_congr h
  refine ⟨hw.aligned, ?_, ?_, fun p hp => ?_⟩
  · rw [ht]
    exact hw.fits
  · rw [ht]
    exact hw.separate
  · rw [ht] at hp
    exact ⟨(hw.live p hp).1, hb _ (hw.live p hp).2⟩

/-- the bytes that a change below entry `j` may touch besides new ones -/
abbrev scope (m : Mem) (i page : Nat) (j : Fin 512) : Set Nat :=
  Mem.range (slot page j) 8 ∪ area (below m i page j)

theorem scope_subset (m : Mem) (i page : Nat) (j : Fin 512) :
    scope m i page j ⊆ area (tableTree m i page) :=
  Set.union_subset ((slot_subset page j).trans (page_subset_tableTree m i page))
    (area_below m i page j)

section update
variable {m m' : Mem} {i page : Nat} {j : Fin 512} {F : Set Nat}
  (ha : 4096 ∣ page) (hs : (tableTree m i page).Separate)
  (hF : Disjoint F (area (tableTree m i page)))
  (heq : Set.EqOn m' m (scope m i page j ∪ F)ᶜ)
include ha hs

/-- the other entries and their trees are out of the scope -/
theorem scope_disjoint {k : Fin 512} (hk : k ≠ j) :
    Disjoint (scope m i page j) (scope m i page k) := by
  obtain ⟨hp, hx, -⟩ := hs
  -- a tree below the table does not meet the table's own page
  have hown : ∀ l l' : Fin 512, Disjoint (Mem.range (slot page l) 8) (area (below m i page l')) := by
    intro l l'
    rw [Set.disjoint_left]
    intro a h1 ⟨q, hq, h2⟩
    have hne : page ≠ q := by
      rintro rfl
      exact hp l' hq
    exact Set.disjoint_left.mp (page_disjoint ha (aligned_tree i _ q hq) hne) (slot_subset page l h1) h2
  have harea : Disjoint (area (below m i page j)) (area (below m i page k)) := by
    rw [Set.disjoint_left]
    intro a ⟨q, hq, h1⟩ ⟨r, hr, h2⟩
    have hne : q ≠ r := by
      rintro rfl
      exact hx j k (Ne.symm hk) q hq hr
    exact Set.disjoint_left.mp
      (page_disjoint (aligned_tree i _ q hq) (aligned_tree i _ r hr) hne) h1 h2
  rw [Set.disjoint_union_left, Set.disjoint_union_right, Set.disjoint_union_right]
  exact ⟨⟨slot_disjoint page (Ne.symm hk), hown j k⟩, (hown k j).symm, harea⟩

include hF heq

theorem tableTree_update :
    tableTree m' i page
      = .node page (Function.update (fun k => below m i page k) j (below m' i page j)) := by
  unfold tableTree
  congr 1
  funext k
  by_cases hk : k = j
  · subst hk
    rw [Function.update_self]
  · rw [Function.update_of_ne hk]
    have hout : Set.EqOn m' m (scope m i page k) := by
      intro a hak
      refine heq fun h => ?_
      rcases h with h | h
      · exact Set.disjoint_left.mp (scope_disjoint ha hs hk) h hak
      · exact Set.disjoint_left.mp hF h (scope_subset m i page k hak)
    have he : entryAt m' (slot page k) = entryAt m (slot page k) :=
      Mem.readWord_congr (hout.mono Set.subset_union_left)
    show tree m' i (entryAt m' (slot page k)) = _
    rw [he]
    exact tree_congr i _ (hout.mono Set.subset_union_right)

end update

/-! ## new pages -/

/-- the live blocks after the pages `ps` were handed out one after the other -/
def grown : List (Nat × Nat) → List Nat → List (Nat × Nat)
  | bs, [] => bs
  | bs, p :: ps => grown ((p, 4096) :: bs) ps

theorem mem_grown {ps : List Nat} : ∀ {bs : List (Nat × Nat)} {b : Nat × Nat},
    b ∈ grown bs ps ↔ b ∈ bs ∨ ∃ p ∈ ps, b = (p, 4096) := by
  induction ps with
  | nil => intro bs b; simp [grown]
  | cons p ps ih =>
    intro bs b
    show b ∈ grown ((p, 4096) :: bs) ps ↔ _
    rw [ih, List.mem_cons, List.exists_mem_cons_iff]
    tauto

/-- the pages `ps` are what the allocator answers from the blocks `bs` on -/
inductive Fresh (A : PageAllocator) : List (Nat × Nat) → List Nat → Prop
  | nil (bs : List (Nat × Nat)) : Fresh A bs []
  | cons {bs : List (Nat × Nat)} {q : Nat} {ps : List Nat} (hq : A.next bs 4096 = some q)
      (h : Fresh A ((q, 4096) :: bs) ps) : Fresh A bs (q :: ps)

section fresh
variable {A : PageAllocator} {bs : List (Nat × Nat)} {ps : List Nat}

theorem Fresh.pos (h : Fresh A bs ps) : ∀ p ∈ ps, 0 < p := by
  induction h with
  | nil bs => simp
  | cons hq h ih => exact List.forall_mem_cons.mpr ⟨A.pos _ _ _ hq, ih⟩

theorem Fresh.lt (h : Fresh A bs ps) : ∀ p ∈ ps, p < 2^56 := by
  induction h with
  | nil bs => simp
  | cons hq h ih =>
    refine List.forall_mem_cons.mpr ⟨?_, ih⟩
    have := A.bounded _ _ _ hq
    omega

theorem Fresh.apart (h : Fresh A bs ps) :
    ∀ p ∈ ps, ∀ b ∈ bs, p + 4096 ≤ b.1 ∨ b.1 + b.2 ≤ p := by
  induction h with
  | nil bs => simp
  | cons hq h ih =>
    refine List.forall_mem_cons.mpr ⟨A.fresh _ _ _ hq, fun p hp b hb => ?_⟩
    exact ih p hp b (List.mem_cons_of_mem _ hb)

theorem Fresh.notMem (h : Fresh A bs ps) {p : Nat} (hp : p ∈ ps) : (p, 4096) ∉ bs := by
  intro hb
  have := h.apart p hp _ hb
  simp only at this
  omega

theorem Fresh.nodup (h : Fresh A bs ps) : ps.Nodup := by
  induction h with
  | nil bs => exact List.nodup_nil
  | cons hq h ih => exact List.nodup_cons.mpr ⟨fun hm => h.notMem hm (List.mem_cons_self ..), ih⟩

theorem Fresh.serves (h : Fresh A bs ps) {sizes : List Nat} (h4 : 4096 ∈ sizes) {k : Nat}
    (hs : Heap.Serves A sizes (k + ps.length) bs) : Heap.Serves A sizes k (grown bs ps) := by
  induction h with
  | nil bs => exact hs
  | @cons bs q ps hq h ih =>
    obtain ⟨p, hp, hs⟩ := hs 4096 h4
    obtain rfl : q = p := Option.some.inj (hq.symm.trans hp)
    exact ih hs

theorem Fresh.append {qs : List Nat} (h : Fresh A bs ps) (h' : Fresh A (grown bs ps) qs) :
    Fresh A bs (ps ++ qs) := by
  induction h with
  | nil bs => exact h'
  | cons hq h ih => exact .cons hq (ih h')

theorem Fresh.disjoint (h : Fresh A bs ps) {b : Nat × Nat} (hb : b ∈ bs) :
    Disjoint (pageArea ps) (Mem.range b.1 b.2) := by
  rw [Set.disjoint_left]
  intro a ⟨p, hp, ha⟩ hab
  exact Set.disjoint_left.mp (Mem.disjoint_range (h.apart p hp b hb)) ha hab

theorem Fresh.disjoint_area (h : Fresh A bs ps) {t : Tree} (hl : ∀ p, t.Has p → (p, 4096) ∈ bs) :
    Disjoint (pageArea ps) (area t) := by
  rw [Set.disjoint_right]
  intro a ⟨q, hq, ha⟩ hp
  exact Set.disjoint_left.mp (h.disjoint (hl q hq)) hp ha

end fresh

theorem pageArea_cons (q : Nat) (ps : List Nat) :
    pageArea (q :: ps) = Mem.range q 4096 ∪ pageArea ps := by
  ext a
  show (∃ p ∈ q :: ps, _) ↔ _ ∨ ∃ p ∈ ps, _
  rw [List.exists_mem_cons_iff]

/-! ## the refinement -/

/-- **One insertion in memory**: below the table at `page`, the heap `s'` is `s` with `e` put at the end
of the path `js`, `ps` being the pages allocated for it. -/
structure Inserted (A : PageAllocator) (s : Heap) (i page : Nat) (js : List (Fin 512)) (e : Entry)
    (s' : Heap) (ps : List Nat) : Prop where
  ins : Radix.Ins e ps (tableTree s.mem i page) js (tableTree s'.mem i page)
  blocks : s'.blocks = grown s.blocks ps
  fresh : Fresh A s.blocks ps
  frame : Set.EqOn s'.mem s.mem (area (tableTree s.mem i page) ∪ pageArea ps)ᶜ

theorem Inserted.wellFormed {A : PageAllocator} {s s' : Heap} {i page : Nat} {js : List (Fin 512)} {e : Entry}
    {ps : List Nat} (h : Inserted A s i page js e s' ps) (hw : WellFormed s i page)
    (hj : js.length ≤ i+1) : WellFormed s' i page := by
  refine ⟨hw.aligned, h.ins.fits hj hw.fits, ?_, ?_⟩
  · refine h.ins.separate hw.separate h.fresh.nodup fun p hp hh => ?_
    exact h.fresh.notMem hp (hw.live p hh).2
  · intro p hp
    rw [h.blocks]
    rcases h.ins.has hp with ht | hm
    · exact ⟨(hw.live p ht).1, mem_grown.mpr (.inl (hw.live p ht).2)⟩
    · exact ⟨h.fresh.pos p hm, mem_grown.mpr (.inr ⟨p, hm, rfl⟩)⟩

/-- the entry itself is written -/
theorem inserted_here {A : PageAllocator} {s : Heap} {i page : Nat} (hw : WellFormed s i page) {e : Entry}
    (he : IsMapping e) (j : Fin 512) : Inserted A s i page [j] e (s.write (slot page j) e) [] := by
  have heq : Set.EqOn (s.mem.writeWord (slot page j) e) s.mem (scope s.mem i page j ∪ ∅)ᶜ :=
    Mem.writeWord_eqOn (Set.disjoint_compl_right_iff_subset.mpr
      (Set.subset_union_left.trans Set.subset_union_left))
  refine ⟨?_, rfl, Fresh.nil _, ?_⟩
  · have hu := tableTree_update hw.aligned hw.separate (Set.empty_disjoint _) heq
    have hb : below (s.mem.writeWord (slot page j) e) i page j = .leaf e := by
      show tree _ i (Mem.readWord _ _) = _
      rw [Mem.readWord_writeWord, tree_leaf he]
    show Radix.Ins e [] _ _ (tableTree (s.mem.writeWord (slot page j) e) i page)
    rw [hu, hb]
    exact .down (.done _)
  · refine heq.mono (Set.compl_subset_compl.mpr (Set.union_subset ?_ (Set.empty_subset _)))
    exact (scope_subset s.mem i page j).trans Set.subset_union_left

section step
variable {A : PageAllocator} {s s' : Heap} {i page q : Nat} {j : Fin 512} {js : List (Fin 512)} {e : Entry}
  {ps : List Nat} (hw : WellFormed s (i+1) page)
include hw

/-- the entry is a branch: the insertion is one in the table it points to -/
theorem Inserted.down (h0 : (entryAt s.mem (slot page j)).isInvalid ≠ true)
    (h1 : (entryAt s.mem (slot page j)).isLeaf ≠ true)
    (h : Inserted A s i (entryAt s.mem (slot page j)).target js e s' ps) :
    Inserted A s (i+1) page (j :: js) e s' ps := by
  have hbelow : below s.mem (i+1) page j = tableTree s.mem i (entryAt s.mem (slot page j)).target :=
    tree_branch h0 h1 i
  have hF : Disjoint (pageArea ps) (area (tableTree s.mem (i+1) page)) :=
    h.fresh.disjoint_area fun p hp => (hw.live p hp).2
  have hframe : Set.EqOn s'.mem s.mem (area (below s.mem (i+1) page j) ∪ pageArea ps)ᶜ := by
    rw [hbelow]
    exact h.frame
  have heq : Set.EqOn s'.mem s.mem (scope s.mem (i+1) page j ∪ pageArea ps)ᶜ :=
    hframe.mono (Set.compl_subset_compl.mpr (Set.union_subset_union_left _ Set.subset_union_right))
  -- the insertion below leaves the entry alone
  have hentry : entryAt s'.mem (slot page j) = entryAt s.mem (slot page j) := by
    refine Mem.readWord_congr (hframe.mono ?_)
    rw [Set.subset_compl_iff_disjoint_right, Set.disjoint_union_right]
    refine ⟨?_, ?_⟩
    · rw [Set.disjoint_right]
      intro a ⟨r, hr, ha⟩ hs
      have hne : page ≠ r := by
        rintro rfl
        exact hw.separate.1 j hr
      exact Set.disjoint_left.mp (page_disjoint hw.aligned (aligned_tree _ _ r hr) hne)
        (slot_subset page j hs) ha
    · exact (hF.mono_right ((slot_subset page j).trans (page_subset_tableTree _ _ _))).symm
  refine ⟨?_, h.blocks, h.fresh, ?_⟩
  · rw [tableTree_update hw.aligned hw.separate hF heq]
    refine .down ?_
    show Radix.Ins e ps (below s.mem (i+1) page j) js (tree s'.mem (i+1) (entryAt s'.mem (slot page j)))
    rw [hbelow, hentry, tree_branch h0 h1]
    exact h.ins
  · refine hframe.mono (Set.compl_subset_compl.mpr (Set.union_subset_union_left _ ?_))
    exact area_below s.mem (i+1) page j

end step

section grow
variable {A : PageAllocator} {s : Heap} {v q : Nat} (h0 : (entryAt s.mem v).isInvalid = true)
  (hq : A.next s.blocks 4096 = some q)
include h0 hq

theorem extend_eq : extend A v s
    = ⟨(s.mem.zero q 4096).writeWord v (tableEntry q), (q, 4096) :: s.blocks⟩ := by
  unfold extend
  rw [if_pos h0, Heap.allocZeroed_of_next hq]
  rfl

theorem entryAt_extend : entryAt (extend A v s).mem v = tableEntry q := by
  rw [extend_eq h0 hq]
  exact Mem.readWord_writeWord _ _ _

/-- a table just made is empty -/
theorem tableTree_extend (hv : Disjoint (Mem.range v 8) (Mem.range q 4096)) (i : Nat) :
    tableTree (extend A v s).mem i q = .node q fun _ => .empty := by
  refine tableTree_zero (fun p hp => ?_) i
  rw [extend_eq h0 hq]
  show Mem.writeWord _ v _ p = 0
  rw [Mem.writeWord_of_notMem fun h => Set.disjoint_left.mp hv h hp, Mem.zero_of_mem hp]

theorem extend_eqOn : Set.EqOn (extend A v s).mem s.mem (Mem.range v 8 ∪ Mem.range q 4096)ᶜ := by
  intro a ha
  rw [Set.mem_compl_iff, Set.mem_union, not_or] at ha
  rw [extend_eq h0 hq]
  show Mem.writeWord _ v _ a = _
  rw [Mem.writeWord_of_notMem ha.1, Mem.zero_of_notMem ha.2]

end grow

/-- the entry is invalid: the insertion is one in the empty table made for it -/
theorem Inserted.grow {A : PageAllocator} {s s' : Heap} {i page q : Nat} {j j' : Fin 512}
    {js : List (Fin 512)} {e : Entry} {ps : List Nat} (hw : WellFormed s (i+1) page)
    (h0 : (entryAt s.mem (slot page j)).isInvalid = true) (hq : A.next s.blocks 4096 = some q)
    (hempty : tableTree (extend A (slot page j) s).mem i q = .node q fun _ => .empty)
    (h : Inserted A (extend A (slot page j) s) i q (j' :: js) e s' ps) :
    Inserted A s (i+1) page (j :: j' :: js) e s' (q :: ps) := by
  have hblocks : (extend A (slot page j) s).blocks = (q, 4096) :: s.blocks := by
    rw [extend_eq h0 hq]
  have hfresh : Fresh A s.blocks (q :: ps) := .cons hq (hblocks ▸ h.fresh)
  have hF : Disjoint (pageArea (q :: ps)) (area (tableTree s.mem (i+1) page)) :=
    hfresh.disjoint_area fun p hp => (hw.live p hp).2
  have hslot : Disjoint (Mem.range (slot page j) 8) (pageArea (q :: ps)) :=
    (hF.mono_right ((slot_subset page j).trans (page_subset_tableTree _ _ _))).symm
  -- the insertion below writes to the new pages only
  have hframe : Set.EqOn s'.mem (extend A (slot page j) s).mem (pageArea (q :: ps))ᶜ := by
    refine h.frame.mono (Set.compl_subset_compl.mpr ?_)
    rw [hempty, pageArea_cons]
    refine Set.union_subset_union_left _ ?_
    rintro a ⟨p, rfl | ⟨_, hp⟩, ha⟩
    · exact ha
    · exact absurd hp id
  have hentry : entryAt s'.mem (slot page j) = tableEntry q := by
    rw [← entryAt_extend h0 hq]
    exact Mem.readWord_congr (hframe.mono (Set.subset_compl_iff_disjoint_right.mpr hslot))
  have heq : Set.EqOn s'.mem s.mem (Mem.range (slot page j) 8 ∪ pageArea (q :: ps))ᶜ := by
    refine (hframe.mono ?_).trans ((extend_eqOn h0 hq).mono ?_)
    · exact Set.compl_subset_compl.mpr Set.subset_union_right
    · refine Set.compl_subset_compl.mpr (Set.union_subset_union_right _ ?_)
      rw [pageArea_cons]
      exact Set.subset_union_left
  have hscope : Set.EqOn s'.mem s.mem (scope s.mem (i+1) page j ∪ pageArea (q :: ps))ᶜ :=
    heq.mono (Set.compl_subset_compl.mpr (Set.union_subset_union_left _ Set.subset_union_left))
  have ha : 4096 ∣ q := A.aligned _ _ _ hq
  have hb : q < 2^56 := by have := A.bounded _ _ _ hq; omega
  refine ⟨?_, ?_, hfresh, ?_⟩
  · have hbranch : tree s'.mem (i+1) (tableEntry q) = tableTree s'.mem i q := by
      rw [tree_branch (by simp [Entry.isInvalid, isValid_tableEntry ha hb])
        (by simp [isLeaf_tableEntry ha hb]), target_tableEntry ha hb]
    rw [tableTree_update hw.aligned hw.separate hF hscope]
    refine .down ?_
    show Radix.Ins e (q :: ps) (below s.mem (i+1) page j) _ (tree _ (i+1) (entryAt s'.mem (slot page j)))
    have hbelow : below s.mem (i+1) page j = .empty := tree_invalid h0 (i+1)
    rw [hbelow, hentry, hbranch]
    have hins := h.ins
    rw [hempty] at hins
    generalize tableTree s'.mem i q = t at hins ⊢
    cases hins with
    | down hd => exact .grow hd
  · rw [h.blocks, hblocks]
    rfl
  · refine hscope.mono (Set.compl_subset_compl.mpr (Set.union_subset_union_left _ ?_))
    exact scope_subset s.mem (i+1) page j

/-- the table that a branch entry points to -/
theorem WellFormed.branch {s : Heap} {i page : Nat} (hw : WellFormed s (i+1) page) {j : Fin 512}
    (h0 : (entryAt s.mem (slot page j)).isInvalid ≠ true)
    (h1 : (entryAt s.mem (slot page j)).isLeaf ≠ true) :
    WellFormed s i (entryAt s.mem (slot page j)).target := by
  have hbelow : below s.mem (i+1) page j = tableTree s.mem i (entryAt s.mem (slot page j)).target :=
    tree_branch h0 h1 i
  refine ⟨dvd_target _, ?_, ?_, fun p hp => hw.live p (Or.inr ⟨j, ?_⟩)⟩
  · rw [← hbelow]
    exact hw.fits j
  · rw [← hbelow]
    exact hw.separate.2.2 j
  · show Radix.Has p (below s.mem (i+1) page j)
    rw [hbelow]
    exact hp

theorem descend_cons (A : PageAllocator) (j : Fin 512) (js : List (Fin 512)) (v : Nat) (s : Heap) :
    descend A (j :: js) v s
      = if slot (entryAt (extend A v s).mem v).target j = 0 then none
        else descend A js (slot (entryAt (extend A v s).mem v).target j) (extend A v s) := rfl

/-- **The loop of `map`**, from entry `j` of a table in good order. -/
theorem descend_refines {A : PageAllocator} {e : Entry} (he : IsMapping e) (js : List (Fin 512)) :
    ∀ (s : Heap) (i page : Nat) (j : Fin 512), WellFormed s i page → js.length ≤ i →
      (tableTree s.mem i page).Open (j :: js) →
      Heap.Serves A [4096] ((tableTree s.mem i page).missing (j :: js)) s.blocks →
      ∃ v s₁ ps, descend A js (slot page j) s = some (v, s₁) ∧
        Inserted A s i page (j :: js) e (s₁.write v e) ps := by
  induction js with
  | nil =>
    intro s i page j hw _ _ _
    exact ⟨_, _, _, rfl, inserted_here hw he j⟩
  | cons j' js ih =>
    intro s i page j hw hi ho hserve
    obtain ⟨i, rfl⟩ : ∃ k, i = k + 1 := ⟨i - 1, by rw [List.length_cons] at hi; omega⟩
    rw [descend_cons]
    change Heap.Serves A [4096] ((below s.mem (i+1) page j).missing (j' :: js)) s.blocks at hserve
    by_cases h0 : (entryAt s.mem (slot page j)).isInvalid = true
    · rw [show below s.mem (i+1) page j = .empty from tree_invalid h0 (i+1)] at hserve
      obtain ⟨q, hq, hserve⟩ := hserve 4096 (List.mem_singleton.mpr rfl)
      have ha : 4096 ∣ q := A.aligned _ _ _ hq
      have hb : q < 2^56 := by have := A.bounded _ _ _ hq; omega
      have hpage : (page, 4096) ∈ s.blocks := (hw.live page (.inl rfl)).2
      have hdis : Disjoint (Mem.range (slot page j) 8) (Mem.range q 4096) :=
        ((Mem.disjoint_range (A.fresh _ _ _ hq _ hpage)).mono_right (slot_subset page j)).symm
      have hempty := tableTree_extend h0 hq hdis i
      have hblocks : (extend A (slot page j) s).blocks = (q, 4096) :: s.blocks := by
        rw [extend_eq h0 hq]
      have hwq : WellFormed (extend A (slot page j) s) i q :=
        .bare ha (A.pos _ _ _ hq) (by rw [hblocks]; exact List.mem_cons_self ..) hempty
      obtain ⟨v, s₁, ps, hd, hI⟩ := ih (extend A (slot page j) s) i q j' hwq
        (Nat.le_of_succ_le_succ hi) (by rw [hempty]; exact Radix.open_empty js)
        (hblocks ▸ hserve.mono (List.Subset.refl _) (by rw [hempty]; exact Radix.missing_le _ js))
      refine ⟨v, s₁, q :: ps, ?_, hI.grow hw h0 hq hempty⟩
      rw [entryAt_extend h0 hq, target_tableEntry ha hb, if_neg (slot_ne_zero (A.pos _ _ _ hq) j')]
      exact hd
    · have hext : extend A (slot page j) s = s := if_neg h0
      have h1 : (entryAt s.mem (slot page j)).isLeaf ≠ true := by
        intro h1
        have hl : below s.mem (i+1) page j = .leaf (entryAt s.mem (slot page j)) :=
          tree_leaf ⟨by simpa [Entry.isInvalid] using h0, h1⟩ (i+1)
        change (below s.mem (i+1) page j).Open (j' :: js) at ho
        rw [hl] at ho
        exact ho
      have hbelow : below s.mem (i+1) page j = tableTree s.mem i (entryAt s.mem (slot page j)).target :=
        tree_branch h0 h1 i
      have hwq := hw.branch h0 h1
      obtain ⟨v, s₁, ps, hd, hI⟩ := ih s i _ j' hwq (Nat.le_of_succ_le_succ hi)
        (by rw [← hbelow]; exact ho) (by rw [← hbelow]; exact hserve)
      refine ⟨v, s₁, ps, ?_, hI.down hw h0 h1⟩
      rw [hext, if_neg (slot_ne_zero (hwq.live _ (.inl rfl)).1 j')]
      exact hd

end Citron.Paging
