import Citron.Paging.Refine

/-!
# The update law of page tables

Page tables built from a zeroed root by calls of `map`.  A call changes the translation of the addresses
that share the indices of `vaddr` down to its level, and of no other address (`page_table_update`).

`NoLeafAbove` is the proviso of `map`: a leaf above the level of the call would be taken for a table.
-/

namespace Citron.Paging
open Word

/-! ## paths -/

/-- the indices of `vaddr` from below level `i` down to `level` -/
def pathTo (vaddr : Word) (level : Nat) : Nat → List (Fin 512)
  | 0 => []
  | i+1 => if level ≤ i then vpn vaddr i :: pathTo vaddr level i else []

theorem length_pathTo (vaddr : Word) (level i : Nat) : (pathTo vaddr level i).length = i - level := by
  induction i with
  | zero => simp [pathTo]
  | succ i ih =>
    unfold pathTo
    by_cases h : level ≤ i
    · rw [if_pos h, List.length_cons, ih]
      omega
    · rw [if_neg h, List.length_nil]
      omega

theorem pathTo_append (vaddr : Word) {level i : Nat} (h : level ≤ i) :
    pathTo vaddr level i ++ path vaddr level = path vaddr i := by
  induction i with
  | zero =>
    obtain rfl : level = 0 := by omega
    rfl
  | succ i ih =>
    unfold pathTo
    by_cases hl : level ≤ i
    · rw [if_pos hl, List.cons_append, ih hl]
      rfl
    · obtain rfl : level = i + 1 := by omega
      rw [if_neg hl, List.nil_append]

/-- the addresses agree on the bits from `12 + 9 * level` to `38` -/
def Agree (level : Nat) (va va' : Word) : Prop :=
  ∀ b, 12 + 9 * level ≤ b → b < 39 → va'.getLsbD b = va.getLsbD b

theorem vpn_eq_iff (va va' : Word) (i : Nat) :
    vpn va' i = vpn va i ↔ ∀ b, b < 9 → va'.getLsbD (12 + 9 * i + b) = va.getLsbD (12 + 9 * i + b) := by
  have hbit : ∀ (v : Word) (b : Nat), b < 9 →
      ((v >>> (12 + 9 * i)) &&& lowMask 9).getLsbD b = v.getLsbD (12 + 9 * i + b) := by
    intro v b hb
    rw [BitVec.getLsbD_and, getLsbD_lowMask (by omega), BitVec.getLsbD_ushiftRight]
    simp [hb]
  constructor
  · intro h b hb
    have hn : (vpn va' i).val = (vpn va i).val := by rw [h]
    have he : (va' >>> (12 + 9 * i)) &&& lowMask 9 = (va >>> (12 + 9 * i)) &&& lowMask 9 :=
      BitVec.eq_of_toNat_eq hn
    rw [← hbit va' b hb, he, hbit va b hb]
  · intro h
    apply Fin.ext
    show ((va' >>> (12 + 9 * i)) &&& lowMask 9).toNat = ((va >>> (12 + 9 * i)) &&& lowMask 9).toNat
    congr 1
    apply BitVec.eq_of_getLsbD_eq
    intro b _
    by_cases hb : b < 9
    · rw [hbit va' b hb, hbit va b hb, h b hb]
    · rw [BitVec.getLsbD_and, BitVec.getLsbD_and, getLsbD_lowMask (by omega)]
      simp [hb]

theorem pathTo_prefix_iff (va va' : Word) (level i : Nat) :
    pathTo va level i <+: path va' i ↔ ∀ k, level ≤ k → k < i → vpn va' k = vpn va k := by
  induction i with
  | zero => exact ⟨fun _ k _ hk => absurd hk (Nat.not_lt_zero k), fun _ => List.nil_prefix⟩
  | succ i ih =>
    unfold pathTo
    by_cases hl : level ≤ i
    · rw [if_pos hl, path, List.cons_prefix_cons, ih]
      constructor
      · rintro ⟨h0, h⟩ k hk hi
        rcases Nat.lt_succ_iff_lt_or_eq.mp hi with hi | rfl
        · exact h k hk hi
        · exact h0.symm
      · exact fun h => ⟨(h i hl (Nat.lt_succ_self i)).symm, fun k hk hi => h k hk (Nat.lt_succ_of_lt hi)⟩
    · rw [if_neg hl]
      exact ⟨fun _ k hk hi => by omega, fun _ => List.nil_prefix⟩

/-- the addresses of which `map` at this level changes the translation -/
theorem agree_iff (va va' : Word) (level : Nat) :
    Agree level va va' ↔ pathTo va level 3 <+: path va' 3 := by
  rw [pathTo_prefix_iff]
  constructor
  · intro h k hk h3
    rw [vpn_eq_iff]
    exact fun b hb => h _ (by omega) (by omega)
  · intro h b hb h39
    have hk := (vpn_eq_iff va va' ((b - 12) / 9)).mp (h _ (by omega) (by omega)) ((b - 12) % 9) (by omega)
    rw [show 12 + 9 * ((b - 12) / 9) + (b - 12) % 9 = b by omega] at hk
    exact hk

/-! ## the proviso -/

/-- no valid leaf on the walk of `vaddr` from the entry `v` of level `i`, above `level` -/
def noLeafFrom (m : Mem) (vaddr : Word) (level : Nat) : Nat → Nat → Bool
  | 0, _ => true
  | i+1, v =>
    if level ≤ i then
      let e := entryAt m v
      if e.isInvalid then true
      else if e.isLeaf then false
      else noLeafFrom m vaddr level i (slot e.target (vpn vaddr i))
    else true

/-- no entry strictly above `level` on the walk of `vaddr` is a valid leaf -/
def NoLeafAbove (m : Mem) (root : Nat) (vaddr : Word) (level : Nat) : Prop :=
  noLeafFrom m vaddr level 2 (slot root (vpn vaddr 2)) = true

instance (m : Mem) (root : Nat) (vaddr : Word) (level : Nat) :
    Decidable (NoLeafAbove m root vaddr level) := inferInstanceAs (Decidable (_ = true))

theorem noLeafFrom_iff (m : Mem) (vaddr : Word) (level i : Nat) : ∀ v : Nat,
    noLeafFrom m vaddr level i v = true ↔ (tree m i (entryAt m v)).Open (pathTo vaddr level i) := by
  induction i with
  | zero => intro v; exact ⟨fun _ => by cases tree m 0 (entryAt m v) <;> trivial, fun _ => rfl⟩
  | succ i ih =>
    intro v
    unfold noLeafFrom pathTo
    by_cases hl : level ≤ i
    · rw [if_pos hl, if_pos hl]
      by_cases h0 : (entryAt m v).isInvalid = true
      · rw [tree_invalid h0]
        simp only [h0, if_true, true_iff]
        exact Radix.open_empty _
      · by_cases h1 : (entryAt m v).isLeaf = true
        · rw [tree_leaf ⟨by simpa [Entry.isInvalid] using h0, h1⟩]
          simp only [h0, h1, if_true]
          exact ⟨fun h => absurd h (by decide), fun h => absurd h id⟩
        · rw [tree_branch h0 h1]
          simp only [h0, h1]
          exact ih _
    · rw [if_neg hl, if_neg hl]
      exact ⟨fun _ => by cases tree m (i+1) (entryAt m v) <;> trivial, fun _ => rfl⟩

theorem noLeafAbove_iff (m : Mem) (root : Nat) (vaddr : Word) {level : Nat} (hl : level ≤ 2) :
    NoLeafAbove m root vaddr level ↔ (tableTree m 2 root).Open (pathTo vaddr level 3) := by
  unfold pathTo
  rw [if_pos hl]
  exact noLeafFrom_iff m vaddr level 2 _

/-! ## one call -/

/-- the arguments of a call of `map` that the update law is about -/
structure Allowed (A : PageAllocator) (root : Nat) (s : Heap) (vaddr paddr bits : Word) (level : Nat) :
    Prop where
  level_le : level ≤ 2
  paddr_lt : paddr.toNat < 2^56
  bits_lt : bits.toNat < 2^10
  bits_leaf : bits &&& 0xe#64 ≠ 0#64
  noLeafAbove : NoLeafAbove s.mem root vaddr level
  served : Heap.Serves A [0x1000] (2 - level) s.blocks

theorem map_path (vaddr : Word) {level : Nat} (hl : level ≤ 2) :
    pathTo vaddr level 3
      = vpn vaddr 2 :: (List.range' level (levels - 1 - level)).reverse.map (vpn vaddr) := by
  obtain rfl | rfl | rfl : level = 0 ∨ level = 1 ∨ level = 2 := by omega
  · rfl
  · rfl
  · rfl

theorem map_inserts {A : PageAllocator} {root : Nat} {s : Heap} {vaddr bits : Word} {level : Nat} (paddr : Word)
    (hw : WellFormed s 2 root) (hl : level ≤ 2) (hbits : bits &&& 0xe#64 ≠ 0#64)
    (hopen : (tableTree s.mem 2 root).Open (pathTo vaddr level 3))
    (hserve : Heap.Serves A [0x1000] ((tableTree s.mem 2 root).missing (pathTo vaddr level 3)) s.blocks) :
    ∃ s' ps, map A root vaddr paddr bits level s = some s' ∧
      Inserted A s 2 root (pathTo vaddr level 3) (leafEntry paddr bits) s' ps := by
  have hlen := length_pathTo vaddr level 3
  rw [map_path vaddr hl] at hopen hlen hserve ⊢
  rw [List.length_cons] at hlen
  obtain ⟨v, s₁, ps, hd, hI⟩ := descend_refines (isMapping_leafEntry hbits)
    ((List.range' level (levels - 1 - level)).reverse.map (vpn vaddr)) s 2 root (vpn vaddr 2) hw
    (by omega) hopen hserve
  refine ⟨_, ps, ?_, hI⟩
  unfold map
  rw [if_pos hbits]
  show Option.map _ (descend A _ (slot root (vpn vaddr 2)) s) = _
  rw [hd]
  rfl

theorem map_refines {A : PageAllocator} {root : Nat} {s : Heap} {vaddr paddr bits : Word} {level : Nat}
    (hw : WellFormed s 2 root) (ha : Allowed A root s vaddr paddr bits level) :
    ∃ s' ps, map A root vaddr paddr bits level s = some s' ∧
      Inserted A s 2 root (pathTo vaddr level 3) (leafEntry paddr bits) s' ps := by
  refine map_inserts paddr hw ha.level_le ha.bits_leaf
    ((noLeafAbove_iff s.mem root vaddr ha.level_le).mp ha.noLeafAbove) (ha.served.mono (List.Subset.refl _) ?_)
  -- the root is a node
  have hlen := length_pathTo vaddr level 3
  have hl := ha.level_le
  obtain ⟨j, js, hjs⟩ := List.exists_cons_of_length_pos (show 0 < (pathTo vaddr level 3).length by omega)
  rw [hjs, List.length_cons] at hlen
  rw [hjs]
  exact (Radix.missing_le (below s.mem 2 root j) js).trans (by omega)

theorem wellFormed_map {A : PageAllocator} {root : Nat} {s s' : Heap} {vaddr : Word} {level : Nat}
    {e : Entry} {ps : List Nat}
    (hw : WellFormed s 2 root) (hI : Inserted A s 2 root (pathTo vaddr level 3) e s' ps) :
    WellFormed s' 2 root :=
  hI.wellFormed hw (by rw [length_pathTo]; omega)

section call
variable {A : PageAllocator} {root : Nat} {s s' : Heap} {vaddr paddr bits : Word} {level : Nat}
  {ps : List Nat} (hw : WellFormed s 2 root)
  (hI : Inserted A s 2 root (pathTo vaddr level 3) (leafEntry paddr bits) s' ps)
include hw hI

/-- an address through the new entry -/
theorem virtToPhys_agree (ha : Allowed A root s vaddr paddr bits level) {va : Word}
    (h : Agree level vaddr va) :
    virtToPhys s'.mem root va
      = some (some ((paddr &&& ~~~ lowMask (12 + 9 * level)) ||| (va &&& lowMask (12 + 9 * level)))) := by
  have hw' := wellFormed_map hw hI
  have hpath : path va 3 = pathTo vaddr level 3 ++ path va level := by
    have h1 := (agree_iff vaddr va level).mp h
    have h2 := pathTo_append va (show level ≤ 3 by have := ha.level_le; omega)
    have h3 : pathTo vaddr level 3 = pathTo va level 3 := by
      refine List.IsPrefix.eq_of_length (List.prefix_of_prefix_length_le h1 ?_ ?_) ?_
      · rw [← h2]
        exact List.prefix_append _ _
      · rw [length_pathTo, length_pathTo]
      · rw [length_pathTo, length_pathTo]
    rw [h3, h2]
  rw [virtToPhys_eq hw'.fits hw'.sound, hpath, hI.ins.lookup_through]
  show some (some ((leafEntry paddr bits).phys (path va level).length va)) = _
  have hl : level < 3 := Nat.lt_succ_of_le ha.level_le
  rw [length_path, phys_leafEntry ha.paddr_lt ha.bits_lt hl]

/-- an address aside of it -/
theorem virtToPhys_aside {va : Word} (h : ¬ Agree level vaddr va) :
    virtToPhys s'.mem root va = virtToPhys s.mem root va := by
  have hw' := wellFormed_map hw hI
  rw [agree_iff] at h
  rw [virtToPhys_eq hw'.fits hw'.sound, virtToPhys_eq hw.fits hw.sound, hI.ins.lookup_aside _ h]

end call

/-! ## tables built by calls -/

/-- a page of zeroes for the root -/
structure ZeroedRoot (s : Heap) (root : Nat) : Prop where
  aligned : 4096 ∣ root
  pos : 0 < root
  live : (root, 4096) ∈ s.blocks
  zero : ∀ a ∈ Mem.range root 4096, s.mem a = 0

/-- the heaps that calls of `map` lead to from `s₀`, with the levels of the calls, latest first -/
inductive Built (A : PageAllocator) (root : Nat) (s₀ : Heap) : List Nat → Heap → Prop
  | base : Built A root s₀ [] s₀
  | map {ls : List Nat} {s s' : Heap} {vaddr paddr bits : Word} {level : Nat}
      (h : Built A root s₀ ls s) (ha : Allowed A root s vaddr paddr bits level)
      (hm : map A root vaddr paddr bits level s = some s') : Built A root s₀ (level :: ls) s'

theorem ZeroedRoot.tree {s : Heap} {root : Nat} (h : ZeroedRoot s root) {i : Nat} :
    tableTree s.mem i root = .node root fun _ => .empty :=
  tableTree_zero h.zero i

theorem ZeroedRoot.wellFormed {s : Heap} {root : Nat} (h : ZeroedRoot s root) {i : Nat} : WellFormed s i root :=
  .bare h.aligned h.pos h.live h.tree

/-- what holds of every table built -/
structure BuiltInv (root : Nat) (s₀ s : Heap) (ls : List Nat) : Prop where
  wellFormed : WellFormed s 2 root
  kept : ∀ b ∈ s₀.blocks, b ∈ s.blocks
  own : ∀ p, (tableTree s.mem 2 root).Has p → p = root ∨ (p, 4096) ∉ s₀.blocks
  deep : (∀ l ∈ ls, l = 0) → (tableTree s.mem 2 root).Deep 3

theorem BuiltInv.map {A : PageAllocator} {root : Nat} {s₀ s s' : Heap} {ls : List Nat}
    {vaddr paddr bits : Word} {level : Nat} {ps : List Nat} (h : BuiltInv root s₀ s ls)
    (hI : Inserted A s 2 root (pathTo vaddr level 3) (leafEntry paddr bits) s' ps) :
    BuiltInv root s₀ s' (level :: ls) := by
  refine ⟨wellFormed_map h.wellFormed hI, fun b hb => ?_, fun p hp => ?_, fun hl => ?_⟩
  · rw [hI.blocks]
    exact mem_grown.mpr (.inl (h.kept b hb))
  · rcases hI.ins.has hp with ht | hm
    · exact h.own p ht
    · exact .inr fun hb => hI.fresh.notMem hm (h.kept _ hb)
  · obtain ⟨rfl, hls⟩ := List.forall_mem_cons.mp hl
    exact hI.ins.deep (length_pathTo vaddr 0 3) (h.deep hls)

theorem Built.inv {A : PageAllocator} {root : Nat} {s₀ s : Heap} {ls : List Nat}
    (h0 : ZeroedRoot s₀ root) (hs : Built A root s₀ ls s) : BuiltInv root s₀ s ls := by
  induction hs with
  | base =>
    refine ⟨h0.wellFormed, fun _ => id, ?_, fun _ => ?_⟩
    · rw [h0.tree]
      rintro p (rfl | ⟨_, hp⟩)
      · exact .inl rfl
      · exact absurd hp id
    · rw [h0.tree]
      exact fun _ => trivial
  | map h ha hm ih =>
    obtain ⟨s₁, ps, hm₁, hI⟩ := map_refines ih.wellFormed ha
    obtain rfl : _ = s₁ := Option.some.inj (hm.symm.trans hm₁)
    exact ih.map hI

/-- **Page-table update law.** -/
theorem page_table_update (A : PageAllocator) (root : Nat) (s₀ s : Heap) (ls : List Nat)
    (h0 : ZeroedRoot s₀ root) (hs : Built A root s₀ ls s) :
    -- the walk never panics: no index below level 0, no null table
    (∀ va, virtToPhys s.mem root va ≠ none) ∧
    -- the proviso of a call at level 0 is free when all calls so far were at level 0
    ((∀ l ∈ ls, l = 0) → ∀ vaddr, NoLeafAbove s.mem root vaddr 0) ∧
    ∀ (level : Nat) (vaddr paddr bits : Word), level ≤ 2 → paddr.toNat < 2^56 → bits.toNat < 2^10 →
      bits &&& 0xe#64 ≠ 0#64 → NoLeafAbove s.mem root vaddr level →
      Heap.Serves A [0x1000] (2 - level) s.blocks →
      ∃ s', map A root vaddr paddr bits level s = some s' ∧
        (∀ va', Agree level vaddr va' → virtToPhys s'.mem root va'
          = some (some ((paddr &&& ~~~ lowMask (12 + 9 * level)) ||| (va' &&& lowMask (12 + 9 * level))))) ∧
        (∀ va', ¬ Agree level vaddr va' → virtToPhys s'.mem root va' = virtToPhys s.mem root va') ∧
        -- `map` writes to the root and to pages handed out to `map`
        ∀ a, s'.mem a ≠ s.mem a → a ∈ Mem.range root 4096 ∨
          ∃ p, (p, 4096) ∈ s'.blocks ∧ (p, 4096) ∉ s₀.blocks ∧ a ∈ Mem.range p 4096 := by
  have hinv := hs.inv h0
  have hw := hinv.wellFormed
  refine ⟨fun va => ?_, fun hl vaddr => ?_, ?_⟩
  · rw [virtToPhys_eq hw.fits hw.sound]
    exact Option.some_ne_none _
  · rw [noLeafAbove_iff _ _ _ (by omega)]
    exact (hinv.deep hl).open (by rw [length_pathTo])
  · intro level vaddr paddr bits hl hp hb hbl hn hserve
    have ha : Allowed A root s vaddr paddr bits level := ⟨hl, hp, hb, hbl, hn, hserve⟩
    obtain ⟨s', ps, hm, hI⟩ := map_refines hw ha
    refine ⟨s', hm, fun va => virtToPhys_agree hw hI ha, fun va => virtToPhys_aside hw hI, ?_⟩
    intro a hne
    -- a byte outside the tables and the new pages is not written
    have hin : a ∈ area (tableTree s.mem 2 root) ∪ pageArea ps := by
      by_contra hout
      exact hne (hI.frame hout)
    rcases hin with ⟨p, hp, hap⟩ | ⟨p, hp, hap⟩
    · rcases hinv.own p hp with rfl | hown
      · exact .inl hap
      · refine .inr ⟨p, ?_, hown, hap⟩
        rw [hI.blocks]
        exact mem_grown.mpr (.inl (hw.live p hp).2)
    · refine .inr ⟨p, ?_, fun hb => ?_, hap⟩
      · rw [hI.blocks]
        exact mem_grown.mpr (.inr ⟨p, hp, rfl⟩)
      · exact hI.fresh.notMem hp (hinv.kept _ hb)

/-- a zeroed root, then one mapping of two megabytes -/
theorem page_table_update_example :
    ∃ s', map (Allocator.bump 0x1000 (2^56) (by decide)) 0x1000 0x80000000#64 0x80200000#64 0x6#64 1
        ⟨fun _ => 0, [(0x1000, 0x1000)]⟩ = some s' ∧
      virtToPhys s'.mem 0x1000 0x80123456#64 = some (some 0x80323456#64) := by
  have h0 : ZeroedRoot ⟨fun _ => 0, [(0x1000, 0x1000)]⟩ 0x1000 :=
    ⟨by decide, by decide, List.mem_singleton.mpr rfl, fun _ _ => rfl⟩
  obtain ⟨s', hm, hva, -⟩ := (page_table_update (Allocator.bump 0x1000 (2^56) (by decide)) 0x1000 _ _ []
    h0 .base).2.2 1 0x80000000#64 0x80200000#64 0x6#64 (by decide) (by decide) (by decide) (by decide)
    (by decide) fun n hn => by rw [List.mem_singleton.mp hn]; exact ⟨_, rfl, trivial⟩
  refine ⟨s', hm, ?_⟩
  rw [hva 0x80123456#64 ((agree_iff _ _ 1).mpr (by decide))]
  rfl

end Citron.Paging
