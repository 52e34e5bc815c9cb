import Citron.Paging.Shield

/-!
# The leaves of a page table

What a table of level-0 leaves says about an address is the leaf at the end of its walk, with the frame and
the permissions.

* `leafOf`             that leaf;
* `tables`             how many tables a run of pages can need: two for the first page, then one for each
                       border of 2 MiB and one for each border of 1 GiB that it crosses;
* `mapPages_leaf`      the leaves after a run of pages is mapped.
-/

namespace Citron.Paging
open Word

/-! ## leaves -/

/-- the leaf at the end of the walk of `va` -/
def leafOf (m : Mem) (root : Nat) (va : Word) : Option Entry :=
  ((tableTree m 2 root).lookup (path va 3)).map Prod.fst

/-- R, W, X and U of a leaf -/
def Entry.permissions (e : Entry) : Word := e &&& 0x1e#64

theorem permissions_leafEntry (paddr bits : Word) : (leafEntry paddr bits).permissions = bits &&& 0x1e#64 := by
  have hmask : ∀ i, i < 64 → (0x1e#64).getLsbD i = true → 1 ≤ i ∧ i < 5 := by decide
  apply BitVec.eq_of_getLsbD_eq
  intro i hi
  unfold Entry.permissions
  rw [BitVec.getLsbD_and, BitVec.getLsbD_and]
  cases hx : (0x1e#64).getLsbD i with
  | false => rw [Bool.and_false, Bool.and_false]
  | true =>
    -- the frame number starts at bit 10, and V is bit 0
    obtain ⟨h1, h5⟩ := hmask i hi hx
    unfold leafEntry
    simp only [BitVec.getLsbD_or, BitVec.getLsbD_shiftLeft, getLsbD_V]
    simp [show i < 28 by omega, show i < 19 by omega, show i < 10 by omega, show i ≠ 0 by omega]

section paged
variable {s : Heap} {root : Nat} (hw : Paged s root)
include hw

theorem virtToPhys_of_leaf {va : Word} {e : Entry} (h : leafOf s.mem root va = some e) :
    virtToPhys s.mem root va = some (some (e.phys 0 va)) := by
  obtain ⟨⟨a, rest⟩, hlook, rfl⟩ := Option.map_eq_some_iff.mp h
  obtain rfl : rest = [] := hw.deep.lookup (length_path va 3) hlook
  rw [virtToPhys_eq hw.wellFormed.fits hw.wellFormed.sound, hlook]
  rfl

theorem virtToPhys_of_no_leaf {va : Word} (h : leafOf s.mem root va = none) :
    virtToPhys s.mem root va = some none := by
  rw [virtToPhys_eq hw.wellFormed.fits hw.wellFormed.sound, Option.map_eq_none_iff.mp h]
  rfl

/-- `virt_to_phys` of `va` is `pa`, through a leaf with these permissions and no others -/
def Translates (m : Mem) (root : Nat) (va pa bits : Word) : Prop :=
  virtToPhys m root va = some (some pa) ∧ ∃ e, leafOf m root va = some e ∧ e.permissions = bits

theorem translates_leafEntry {va pa bits : Word} (hpa : pa.toNat < 2^56) (hbits : bits &&& 0x1e#64 = bits)
    (h : leafOf s.mem root va = some (leafEntry pa bits)) :
    Translates s.mem root va ((pa &&& ~~~ lowMask 12) ||| (va &&& lowMask 12)) bits := by
  have hlt : bits.toNat < 2^10 := by
    rw [← hbits, BitVec.toNat_and]
    exact Nat.lt_of_le_of_lt Nat.and_le_right (by decide)
  refine ⟨?_, _, h, (permissions_leafEntry pa bits).trans hbits⟩
  rw [virtToPhys_of_leaf hw h, phys_leafEntry hpa hlt (by omega)]

end paged

/-! ## page numbers and paths -/

theorem val_vpn_pageNo (va : Word) {k : Nat} (hk : k < 3) : (vpn va k).val = pageNo va / 2^(9 * k) % 2^9 := by
  rw [val_vpn]
  unfold pageNo
  obtain rfl | rfl | rfl : k = 0 ∨ k = 1 ∨ k = 2 := by omega
  · omega
  · omega
  · omega

theorem path_eq_iff (va va' : Word) : path va 3 <+: path va' 3 ↔ pageNo va' = pageNo va := by
  rw [← agree_zero_iff, agree_iff]
  rfl

/-- the tables that `va` needs, when the page before it is mapped -/
theorem missing_next {t : Tree} {prev va : Word} (h : t.Paved (path prev 3))
    (hnext : pageNo va = (pageNo prev + 1) % 2^27) :
    t.missing (path va 3) ≤ (if pageNo va % 2^9 = 0 then 1 else 0) + (if pageNo va % 2^18 = 0 then 1 else 0) := by
  have hvpn : ∀ k, k < 3 → pageNo va / 2^(9 * k) % 2^9 = pageNo prev / 2^(9 * k) % 2^9 → vpn va k = vpn prev k := by
    intro k hk he
    apply Fin.ext
    rw [val_vpn_pageNo va hk, val_vpn_pageNo prev hk, he]
  have hlt : pageNo prev < 2^27 := Nat.mod_lt _ (by norm_num)
  have hpath : ∀ v : Word, path v 3 = [vpn v 2, vpn v 1, vpn v 0] := fun _ => rfl
  rw [hpath] at h ⊢
  by_cases h9 : pageNo va % 2^9 = 0
  · by_cases h18 : pageNo va % 2^18 = 0
    · rw [if_pos h9, if_pos h18]
      exact Radix.Paved.missing_le [vpn va 2] [vpn va 1, vpn va 0] (Radix.Paved.last [] (Radix.Paved.front [_] _ h))
    · have h2 : vpn va 2 = vpn prev 2 := hvpn 2 (by omega) (by omega)
      rw [if_pos h9, if_neg h18, h2]
      exact Radix.Paved.missing_le [vpn prev 2, vpn va 1] [vpn va 0]
        (Radix.Paved.last [vpn prev 2] (Radix.Paved.front [_, _] _ h))
  · have h2 : vpn va 2 = vpn prev 2 := hvpn 2 (by omega) (by omega)
    have h1 : vpn va 1 = vpn prev 1 := hvpn 1 (by omega) (by omega)
    rw [if_neg h9, h2, h1]
    exact (Radix.Paved.missing_le [vpn prev 2, vpn prev 1, vpn va 0] []
      (Radix.Paved.last [vpn prev 2, vpn prev 1] h)).trans (Nat.zero_le _)

/-! ## runs of pages -/

/-- the tables that `n` pages from page `pn` on can need -/
def tables (pn : Nat) : Nat → Nat
  | 0 => 0
  | n+1 => 2 + (pn % 2^9 + n) / 2^9 + (pn % 2^18 + n) / 2^18

/-- the leaves after `n` pages from `vaddr` on were mapped to the frames from `paddr` on; of those with the same number
the last one counts -/
structure Remapped (root : Nat) (bits : Word) (n : Nat) (vaddr paddr : Word) (m m' : Mem) : Prop where
  aside : ∀ va, (∀ q, q < n → pageNo va ≠ (pageNo vaddr + q) % 2^27) → leafOf m' root va = leafOf m root va
  inside : ∀ va q, q < n → n ≤ q + 2^27 → pageNo va = (pageNo vaddr + q) % 2^27 →
    leafOf m' root va = some (leafEntry (paddr + BitVec.ofNat 64 (4096 * q)) bits)

/-- one page, then the others -/
theorem Remapped.cons {root n : Nat} {bits : Word} {vaddr paddr : Word} {m m₁ m₂ : Mem}
    (h : Remapped root bits n (vaddr + 4096#64) (paddr + 4096#64) m₁ m₂)
    (hin : ∀ va, pageNo va = pageNo vaddr → leafOf m₁ root va = some (leafEntry paddr bits))
    (hout : ∀ va, pageNo va ≠ pageNo vaddr → leafOf m₁ root va = leafOf m root va) :
    Remapped root bits (n+1) vaddr paddr m m₂ := by
  have hvaddr : pageNo (vaddr + 4096#64) = (pageNo vaddr + 1) % 2^27 := pageNo_add vaddr 1
  have hlt : pageNo vaddr < 2^27 := Nat.mod_lt _ (by norm_num)
  refine ⟨fun va hva => ?_, fun va q hq hn hva => ?_⟩
  · have h₂ : leafOf m₂ root va = leafOf m₁ root va := by
      refine h.aside va fun q hq => ?_
      have := hva (q+1) (by omega)
      rw [hvaddr]
      omega
    have := hva 0 (by omega)
    exact h₂.trans (hout va (by omega))
  · cases q with
    | zero =>
      -- mapped first, and out of reach of the other pages
      have h₂ : leafOf m₂ root va = leafOf m₁ root va := by
        refine h.aside va fun q' hq' => ?_
        rw [hvaddr]
        omega
      rw [h₂, hin va (by omega)]
      simp
    | succ q =>
      rw [h.inside va q (by omega) (by omega) (by rw [hvaddr]; omega)]
      rw [show 4096 * (q + 1) = 4096 + 4096 * q by omega, BitVec.ofNat_add, ← BitVec.add_assoc]

section run
variable {A : PageAllocator} {root : Nat} {bits : Word} (hleaf : bits &&& 0xe#64 ≠ 0#64)
include hleaf

theorem map_leaf {s : Heap} (vaddr paddr : Word) (hw : Paged s root)
    (hserve : Heap.Serves A [4096] ((tableTree s.mem 2 root).missing (path vaddr 3)) s.blocks) :
    ∃ s' ps, map A root vaddr paddr bits 0 s = some s' ∧ Extended A root s s' ps ∧
      ps.length = (tableTree s.mem 2 root).missing (path vaddr 3) ∧
      (tableTree s'.mem 2 root).Paved (path vaddr 3) ∧
      (∀ va, pageNo va = pageNo vaddr → leafOf s'.mem root va = some (leafEntry paddr bits)) ∧
      ∀ va, pageNo va ≠ pageNo vaddr → leafOf s'.mem root va = leafOf s.mem root va := by
  have hpath : pathTo vaddr 0 3 = path vaddr 3 := rfl
  have hopen := (noLeafAbove_iff s.mem root vaddr (Nat.zero_le 2)).mp (hw.noLeafAbove vaddr)
  obtain ⟨s', ps, hm, hI⟩ := map_inserts paddr hw.wellFormed (Nat.zero_le 2) hleaf hopen hserve
  have hins := hI.ins
  rw [hpath] at hins
  refine ⟨s', ps, hm, hI.extended hw, hins.length_eq, hins.paved, fun va hva => ?_, fun va hva => ?_⟩
  · have heq : path va 3 = path vaddr 3 ++ [] := by
      rw [List.append_nil]
      refine (((path_eq_iff vaddr va).mpr hva).eq_of_length ?_).symm
      rw [length_path, length_path]
    unfold leafOf
    rw [heq, hins.lookup_through]
    rfl
  · unfold leafOf
    rw [hins.lookup_aside _ fun h => hva ((path_eq_iff vaddr va).mp h)]

/-- one page, with two tables at hand -/
theorem map_served {s : Heap} {k : Nat} (vaddr paddr : Word) (hw : Paged s root)
    (hserve : Heap.Serves A [4096] (k + 2) s.blocks) :
    ∃ s' ts, map A root vaddr paddr bits 0 s = some s' ∧ Grows root s s' ts [] ∧ Heap.Serves A [4096] k s'.blocks ∧
      (∀ va, pageNo va = pageNo vaddr → leafOf s'.mem root va = some (leafEntry paddr bits)) ∧
      ∀ va, pageNo va ≠ pageNo vaddr → leafOf s'.mem root va = leafOf s.mem root va := by
  have hmiss : (tableTree s.mem 2 root).missing (path vaddr 3) ≤ 2 :=
    Radix.missing_le (below s.mem 2 root (vpn vaddr 2)) (path vaddr 2)
  obtain ⟨s', ps, hm, hE, hl, -, hin, hout⟩ := map_leaf hleaf vaddr paddr hw
    (hserve.mono (List.Subset.refl _) (by omega))
  refine ⟨s', _, hm, hE.grows hw, ?_, hin, hout⟩
  rw [hE.blocks]
  exact hE.fresh.serves (List.mem_singleton.mpr rfl) (hserve.mono (List.Subset.refl _) (by omega))

/-- the pages behind one that is mapped -/
theorem mapPages_behind (n : Nat) : ∀ (s : Heap) (prev vaddr paddr : Word), Paged s root →
    (tableTree s.mem 2 root).Paved (path prev 3) → pageNo vaddr = (pageNo prev + 1) % 2^27 →
    Heap.Serves A [4096] ((pageNo prev % 2^9 + n) / 2^9 + (pageNo prev % 2^18 + n) / 2^18) s.blocks →
    ∃ s' ps, mapPages A root bits n vaddr paddr s = some s' ∧ Extended A root s s' ps ∧
      ps.length ≤ (pageNo prev % 2^9 + n) / 2^9 + (pageNo prev % 2^18 + n) / 2^18 ∧
      Remapped root bits n vaddr paddr s.mem s'.mem := by
  induction n with
  | zero =>
    intro s prev vaddr paddr hw _ _ _
    exact ⟨s, [], rfl, Extended.refl hw, Nat.zero_le _, fun _ _ => rfl, fun _ q hq => absurd hq (Nat.not_lt_zero q)⟩
  | succ n ih =>
    intro s prev vaddr paddr hw hpaved hnext hserve
    have hmiss := missing_next hpaved hnext
    have hlt : pageNo prev < 2^27 := Nat.mod_lt _ (by norm_num)
    have hsum : (if pageNo vaddr % 2^9 = 0 then 1 else 0) + (if pageNo vaddr % 2^18 = 0 then 1 else 0)
        + ((pageNo vaddr % 2^9 + n) / 2^9 + (pageNo vaddr % 2^18 + n) / 2^18)
        = (pageNo prev % 2^9 + (n+1)) / 2^9 + (pageNo prev % 2^18 + (n+1)) / 2^18 := by
      split <;> split <;> omega
    obtain ⟨s₁, ps, hm, hE, hl, hp, hin, hout⟩ := map_leaf hleaf vaddr paddr hw
      (hserve.mono (List.Subset.refl _) (by omega))
    have hserve₁ : Heap.Serves A [4096] ((pageNo vaddr % 2^9 + n) / 2^9 + (pageNo vaddr % 2^18 + n) / 2^18)
        s₁.blocks := by
      rw [hE.blocks]
      exact hE.fresh.serves (List.mem_singleton.mpr rfl) (hserve.mono (List.Subset.refl _) (by omega))
    obtain ⟨s₂, qs, hm₂, hE₂, hl₂, hr⟩ := ih s₁ vaddr (vaddr + 4096#64) (paddr + 4096#64) hE.paged hp
      (pageNo_add vaddr 1) hserve₁
    refine ⟨s₂, ps ++ qs, ?_, hE.trans hE₂, ?_, hr.cons hin hout⟩
    · show (map A root vaddr paddr bits 0 s).bind _ = _
      rw [hm]
      exact hm₂
    · rw [List.length_append]
      omega

theorem mapPages_leaf (n : Nat) {s : Heap} (vaddr paddr : Word) (hw : Paged s root)
    (hserve : Heap.Serves A [4096] (tables (pageNo vaddr) n) s.blocks) :
    ∃ s' ps, mapPages A root bits n vaddr paddr s = some s' ∧ Extended A root s s' ps ∧
      ps.length ≤ tables (pageNo vaddr) n ∧ Remapped root bits n vaddr paddr s.mem s'.mem := by
  cases n with
  | zero =>
    exact ⟨s, [], rfl, Extended.refl hw, Nat.zero_le _, fun _ _ => rfl, fun _ q hq => absurd hq (Nat.not_lt_zero q)⟩
  | succ n =>
    have hmiss : (tableTree s.mem 2 root).missing (path vaddr 3) ≤ 2 :=
      Radix.missing_le (below s.mem 2 root (vpn vaddr 2)) (path vaddr 2)
    rw [show tables (pageNo vaddr) (n+1) = 2 + (pageNo vaddr % 2^9 + n) / 2^9 + (pageNo vaddr % 2^18 + n) / 2^18
      from rfl] at hserve ⊢
    obtain ⟨s₁, ps, hm, hE, hl, hp, hin, hout⟩ := map_leaf hleaf vaddr paddr hw
      (hserve.mono (List.Subset.refl _) (by omega))
    have hserve₁ : Heap.Serves A [4096] ((pageNo vaddr % 2^9 + n) / 2^9 + (pageNo vaddr % 2^18 + n) / 2^18)
        s₁.blocks := by
      rw [hE.blocks]
      exact hE.fresh.serves (List.mem_singleton.mpr rfl) (hserve.mono (List.Subset.refl _) (by omega))
    obtain ⟨s₂, qs, hm₂, hE₂, hl₂, hr⟩ := mapPages_behind hleaf n s₁ vaddr (vaddr + 4096#64) (paddr + 4096#64)
      hE.paged hp (pageNo_add vaddr 1) hserve₁
    refine ⟨s₂, ps ++ qs, ?_, hE.trans hE₂, ?_, hr.cons hin hout⟩
    · show (map A root vaddr paddr bits 0 s).bind _ = _
      rw [hm]
      exact hm₂
    · rw [List.length_append]
      omega

end run

/-! ## tables built page by page -/

/-- the heaps that calls of `map` at level 0 lead to from `s₀`, where the tables that a call has to make are at hand -/
inductive Mapped (A : PageAllocator) (root : Nat) (s₀ : Heap) : Heap → Prop
  | base : Mapped A root s₀ s₀
  | map {s s' : Heap} {vaddr paddr bits : Word} (h : Mapped A root s₀ s)
      (hserve : Heap.Serves A [4096] ((tableTree s.mem 2 root).missing (path vaddr 3)) s.blocks)
      (hm : Paging.map A root vaddr paddr bits 0 s = some s') : Mapped A root s₀ s'

/-- without R, W or X there is no call -/
theorem leaf_of_map {A : PageAllocator} {root level : Nat} {vaddr paddr bits : Word} {s s' : Heap}
    (hm : map A root vaddr paddr bits level s = some s') : bits &&& 0xe#64 ≠ 0#64 := by
  intro h
  unfold map at hm
  rw [if_neg (not_not_intro h)] at hm
  cases hm

/-- a call makes the tables that are missing, and loses none -/
theorem map_tables {A : PageAllocator} {root : Nat} {s s' : Heap} {vaddr paddr bits : Word} (hw : Paged s root)
    (hserve : Heap.Serves A [4096] ((tableTree s.mem 2 root).missing (path vaddr 3)) s.blocks)
    (hm : map A root vaddr paddr bits 0 s = some s') :
    ∃ ps, Extended A root s s' ps ∧
      ∀ p, (tableTree s'.mem 2 root).Has p ↔ (tableTree s.mem 2 root).Has p ∨ p ∈ ps := by
  obtain ⟨s₁, ps, hm₁, hI⟩ := map_inserts paddr hw.wellFormed (Nat.zero_le 2) (leaf_of_map hm)
    ((noLeafAbove_iff s.mem root vaddr (Nat.zero_le 2)).mp (hw.noLeafAbove vaddr)) hserve
  obtain rfl : s' = s₁ := Option.some.inj (hm.symm.trans hm₁)
  exact ⟨ps, hI.extended hw, fun p => ⟨hI.ins.has, hI.ins.has_of hw.deep⟩⟩

/-- the tables built are the root and the pages that the calls took -/
theorem Mapped.tables {A : PageAllocator} {root : Nat} {s₀ s : Heap} (h0 : ZeroedRoot s₀ root)
    (hs : Mapped A root s₀ s) : ∃ ps, Extended A root s₀ s ps ∧
      ∀ p, (tableTree s.mem 2 root).Has p ↔ p = root ∨ p ∈ ps := by
  induction hs with
  | base =>
    refine ⟨[], Extended.refl h0.paged, fun p => ?_⟩
    rw [h0.tree]
    constructor
    · rintro (h | ⟨_, h⟩)
      · exact .inl h
      · exact absurd h id
    · rintro (h | h)
      · exact .inl h
      · exact absurd h List.not_mem_nil
  | map _ hserve hm ih =>
    obtain ⟨ps, hE, hhas⟩ := ih
    obtain ⟨qs, hE', hhas'⟩ := map_tables hE.paged hserve hm
    refine ⟨ps ++ qs, hE.trans hE', fun p => ?_⟩
    rw [hhas', hhas, List.mem_append, or_assoc]

theorem Mapped.paged {A : PageAllocator} {root : Nat} {s₀ s : Heap} (h0 : ZeroedRoot s₀ root)
    (hs : Mapped A root s₀ s) : Paged s root := by
  obtain ⟨ps, hE, -⟩ := hs.tables h0
  exact hE.paged

end Citron.Paging
