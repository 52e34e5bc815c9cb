import Citron.Paging.Init

/-!
# What a range is mapped to

`id_map_range` and `map_range` on any table of level-0 leaves, for ranges of any place and length.  A frame number has
44 bits, so a physical address counts modulo 2^56; a walk sees 39 bits of an address, so of the pages of a longer range
with the same number the last one counts.

* `leafEntry_congr`      the leaf of a physical address has its frame modulo 2^56;
* `Moved`                the addresses from one place on lead to those from another on;
* `range_mapping_exact`  both functions.
-/

namespace Citron.Paging
open Word

/-! ## frames -/

/-- the frame number is made of the bits from 12 to 55 -/
theorem leafEntry_congr {paddr paddr' : Word} (h : paddr.toNat % 2^56 = paddr'.toNat % 2^56) (bits : Word) :
    leafEntry paddr bits = leafEntry paddr' bits := by
  have hbit : ∀ i, i < 56 → paddr.getLsbD i = paddr'.getLsbD i := by
    intro i hi
    have htest := congrArg (Nat.testBit · i) h
    rw [Nat.testBit_mod_two_pow, Nat.testBit_mod_two_pow, decide_eq_true hi, Bool.true_and, Bool.true_and] at htest
    exact htest
  have hfield : ∀ k n, k + n ≤ 56 → (paddr >>> k) &&& lowMask n = (paddr' >>> k) &&& lowMask n := by
    intro k n hkn
    apply BitVec.eq_of_getLsbD_eq
    intro i hi
    rw [BitVec.getLsbD_and, BitVec.getLsbD_and, BitVec.getLsbD_ushiftRight, BitVec.getLsbD_ushiftRight,
      getLsbD_lowMask (by omega)]
    by_cases hin : i < n
    · rw [hbit (k + i) (by omega)]
    · simp [hin]
  unfold leafEntry
  rw [show 0x1ff#64 = lowMask 9 from rfl, show 0x3ffffff#64 = lowMask 26 from rfl, hfield 12 9 (by omega),
    hfield 21 9 (by omega), hfield 30 26 (by omega)]

theorem toNat_phys_leafEntry {paddr bits : Word} (hbits : bits.toNat < 2^10) (va : Word) :
    ((leafEntry paddr bits).phys 0 va).toNat = 4096 * (paddr.toNat % 2^56 / 4096) + va.toNat % 4096 := by
  have hlow : (BitVec.ofNat 64 (paddr.toNat % 2^56)).toNat = paddr.toNat % 2^56 := by
    rw [BitVec.toNat_ofNat]
    omega
  have hleaf : leafEntry paddr bits = leafEntry (BitVec.ofNat 64 (paddr.toNat % 2^56)) bits :=
    leafEntry_congr (by rw [hlow, Nat.mod_mod]) bits
  rw [hleaf, phys_leafEntry (by rw [hlow]; omega) hbits (by omega), toNat_or_lowMask (by omega), hlow]
  rfl

/-- the leaf of an address decides its translation -/
theorem virtToPhys_of_leafOf {s s' : Heap} {root : Nat} (hw : Paged s root) (hw' : Paged s' root) {va : Word}
    (h : leafOf s'.mem root va = leafOf s.mem root va) : virtToPhys s'.mem root va = virtToPhys s.mem root va := by
  cases hl : leafOf s.mem root va with
  | none => rw [virtToPhys_of_no_leaf hw hl, virtToPhys_of_no_leaf hw' (h.trans hl)]
  | some e => rw [virtToPhys_of_leaf hw hl, virtToPhys_of_leaf hw' (h.trans hl)]

/-! ## runs of pages -/

/-- From `m` to `m'` the `size` addresses from `start` on have come to lead to those from `target` on, the later ones
where two are the same modulo 2^39; every other address translates as before. -/
structure Moved (root start target size : Nat) (m m' : Mem) : Prop where
  inside : ∀ i, i < size → size ≤ i + 2^39 → ∀ va : Word, va.toNat % 2^39 = (start + i) % 2^39 →
    MapsTo m' root va ((target + i) % 2^56)
  aside : ∀ va : Word, (∀ i, i < size → va.toNat % 2^39 ≠ (start + i) % 2^39) →
    virtToPhys m' root va = virtToPhys m root va

/-- the addresses in the range translate to themselves, or to the same place of the target -/
theorem Moved.apply {root start target size : Nat} {m m' : Mem} (h : Moved root start target size m m')
    (hsize : size ≤ 2^39) {i : Nat} (hi : i < size) (hlt : target + i < 2^56) {va : Word} (hva : va.toNat = start + i) :
    MapsTo m' root va (target + i) := by
  have hto := h.inside i hi (by omega) va (by rw [hva])
  rwa [Nat.mod_eq_of_lt hlt] at hto

theorem Remapped.moved {root n : Nat} {bits vaddr paddr : Word} {s s' : Heap}
    (h : Remapped root bits n vaddr paddr s.mem s'.mem) (hbits : bits.toNat < 2^10) (hw : Paged s root)
    (hw' : Paged s' root) (hv : 4096 ∣ vaddr.toNat) (hp : 4096 ∣ paddr.toNat) :
    Moved root vaddr.toNat paddr.toNat (4096 * n) s.mem s'.mem := by
  have hno : ∀ (va : Word) (i : Nat), va.toNat % 2^39 = (vaddr.toNat + i) % 2^39 →
      pageNo va = (pageNo vaddr + i / 4096) % 2^27 ∧ va.toNat % 4096 = i % 4096 := by
    intro va i hva
    unfold pageNo
    omega
  refine ⟨fun i hi hlast va hva => ?_, fun va hva => ?_⟩
  · obtain ⟨hpage, hoff⟩ := hno va i hva
    have hleaf := h.inside va (i / 4096) (by omega) (by omega) hpage
    refine ⟨_, virtToPhys_of_leaf hw' hleaf, ?_⟩
    rw [toNat_phys_leafEntry hbits, hoff, BitVec.toNat_add, BitVec.toNat_ofNat]
    omega
  · refine virtToPhys_of_leafOf hw hw' (h.aside va fun q hq hpage => ?_)
    refine hva (4096 * q + va.toNat % 4096) (by omega) ?_
    unfold pageNo at hpage
    omega

/-! ## the number of pages -/

theorem toNat_floor (w : Word) : (w &&& ~~~ lowMask 12).toNat = 4096 * (w.toNat / 4096) :=
  toNat_and_not_lowMask (by omega) w

theorem floor_eq {w : Word} (h : 4096 ∣ w.toNat) : w &&& ~~~ lowMask 12 = w := by
  apply BitVec.eq_of_toNat_eq
  rw [toNat_floor, Nat.mul_div_cancel' h]

/-- the turns of the loop of `id_map_range`: the pages of the range, rounded outwards -/
theorem idMapRange_pages (A : PageAllocator) (root : Nat) {start stop : Word} (bits : Word)
    (hle : start.toNat ≤ stop.toNat) (hstop : stop.toNat + 4095 < 2^64) (s : Heap) :
    idMapRange A root start stop bits s = mapPages A root bits (pageCount stop.toNat - start.toNat / 4096)
      (start &&& ~~~ lowMask 12) (start &&& ~~~ lowMask 12) s := by
  have hcount : ((alignVal stop 12 - (start &&& ~~~ lowMask 12)) / 4096#64).toNat
      = pageCount stop.toNat - start.toNat / 4096 := by
    rw [BitVec.toNat_udiv, BitVec.toNat_sub, toNat_alignVal hstop, toNat_floor]
    show _ / 4096 = _
    unfold pageCount
    omega
  show mapPages A root bits ((alignVal stop 12 - (start &&& ~~~ lowMask 12)) / 4096#64).toNat _ _ s = _
  rw [hcount]
  rfl

/-- the turns of the loop of `map_range`, also where the physical addresses run over -/
theorem mapRange_pages (A : PageAllocator) (root : Nat) {vaddr paddr size : Word} (bits : Word)
    (hv : 4096 ∣ vaddr.toNat) (hp : 4096 ∣ paddr.toNat) (hsize : size.toNat + 4095 < 2^64) (s : Heap) :
    mapRange A root vaddr paddr size bits s = mapPages A root bits (pageCount size.toNat) vaddr paddr s := by
  have hcount : ((alignVal (paddr + size) 12 - paddr) / 4096#64).toNat = pageCount size.toNat := by
    have hsum : (alignVal (paddr + size) 12).toNat = 4096 * ((paddr.toNat + size.toNat + 4095) % 2^64 / 4096) := by
      show ((paddr + size + lowMask 12) &&& ~~~ lowMask 12).toNat = _
      rw [toNat_floor, BitVec.toNat_add, BitVec.toNat_add, toNat_lowMask (by omega)]
      omega
    obtain ⟨p, hp⟩ := hp
    have hlt := paddr.isLt
    rw [BitVec.toNat_udiv, BitVec.toNat_sub, hsum]
    show _ / 4096 = _
    unfold pageCount
    omega
  show mapPages A root bits ((alignVal ((paddr &&& ~~~ lowMask 12) + size) 12
    - (paddr &&& ~~~ lowMask 12)) / 4096#64).toNat (vaddr &&& ~~~ lowMask 12) (paddr &&& ~~~ lowMask 12) s = _
  rw [floor_eq hp, floor_eq hv, hcount]

/-! ## both functions -/

theorem mapPages_moved {A : PageAllocator} {root n : Nat} {bits vaddr paddr : Word} {s : Heap} (hw : Paged s root)
    (hbits : bits.toNat < 2^10) (hleaf : bits &&& 0xe#64 ≠ 0#64) (hv : 4096 ∣ vaddr.toNat) (hp : 4096 ∣ paddr.toNat)
    (hserve : Heap.Serves A [4096] (tables (pageNo vaddr) n) s.blocks) :
    ∃ s', mapPages A root bits n vaddr paddr s = some s' ∧
      Moved root vaddr.toNat paddr.toNat (4096 * n) s.mem s'.mem := by
  obtain ⟨s', ps, hm, hE, -, hr⟩ := mapPages_leaf hleaf n vaddr paddr hw hserve
  exact ⟨s', hm, hr.moved hbits hw hE.paged hv hp⟩

/-- **What a range is mapped to**, by as many calls of `map` as it has pages. -/
theorem range_mapping_exact (A : PageAllocator) (root : Nat) (s₀ s : Heap) (h0 : ZeroedRoot s₀ root)
    (hs : Mapped A root s₀ s) (bits : Word) (hbits : bits.toNat < 2^10) (hleaf : bits &&& 0xe#64 ≠ 0#64) :
    (∀ start stop : Word, start.toNat ≤ stop.toNat → stop.toNat + 4095 < 2^64 →
      Heap.Serves A [4096] (tables (pageNo start) (pageCount stop.toNat - start.toNat / 4096)) s.blocks →
      idMapRange A root start stop bits s = mapPages A root bits (pageCount stop.toNat - start.toNat / 4096)
        (start &&& ~~~ lowMask 12) (start &&& ~~~ lowMask 12) s ∧
      ∃ s', idMapRange A root start stop bits s = some s' ∧
        Moved root (4096 * (start.toNat / 4096)) (4096 * (start.toNat / 4096))
          (4096 * (pageCount stop.toNat - start.toNat / 4096)) s.mem s'.mem) ∧
    ∀ vaddr paddr size : Word, 4096 ∣ vaddr.toNat → 4096 ∣ paddr.toNat → size.toNat + 4095 < 2^64 →
      Heap.Serves A [4096] (tables (pageNo vaddr) (pageCount size.toNat)) s.blocks →
      mapRange A root vaddr paddr size bits s = mapPages A root bits (pageCount size.toNat) vaddr paddr s ∧
      ∃ s', mapRange A root vaddr paddr size bits s = some s' ∧
        Moved root vaddr.toNat paddr.toNat (4096 * pageCount size.toNat) s.mem s'.mem := by
  have hw := hs.paged h0
  refine ⟨fun start stop hle hstop hserve => ?_, fun vaddr paddr size hv hp hsize hserve => ?_⟩
  · have heq := idMapRange_pages A root bits hle hstop s
    have hd : 4096 ∣ (start &&& ~~~ lowMask 12).toNat := by
      rw [toNat_floor]
      exact Nat.dvd_mul_right _ _
    obtain ⟨s', hm, hmoved⟩ := mapPages_moved hw hbits hleaf hd hd (by rw [pageNo_floor]; exact hserve)
    rw [toNat_floor] at hmoved
    exact ⟨heq, s', heq.trans hm, hmoved⟩
  · have heq := mapRange_pages A root bits hv hp hsize s
    obtain ⟨s', hm, hmoved⟩ := mapPages_moved hw hbits hleaf hv hp hserve
    exact ⟨heq, s', heq.trans hm, hmoved⟩

/-! ## two ranges -/

def bumpPages : PageAllocator := Allocator.bump 0x1000 (2^56) pageSize_pos

/-- a zeroed page for the root -/
def bareHeap : Heap := ⟨fun _ => 0, [(0x1000, 0x1000)]⟩

theorem bareHeap_zeroed : ZeroedRoot bareHeap 0x1000 :=
  ⟨by decide, by decide, List.mem_singleton.mpr rfl, fun _ _ => rfl⟩

/-- a table with one address mapped to a frame -/
theorem mapped_once {frame : Word} {s : Heap} (h : map bumpPages 0x1000 0#64 frame 0x6#64 0 bareHeap = some s) :
    Mapped bumpPages 0x1000 bareHeap s := by
  have htree := bareHeap_zeroed.tree (i := 2)
  refine .map .base ?_ h
  rw [htree]
  exact Heap.serves_bump (n := 4096) (by decide) _ (by decide)

/-- three bytes on either side of a border, mapped to themselves with their two pages -/
theorem range_mapping_exact_example : ∃ s', idMapRange bumpPages 0x1000 0x801fffff#64 0x80200002#64 0x6#64 bareHeap
      = some s' ∧ MapsTo s'.mem 0x1000 0x80200fff#64 0x80200fff := by
  obtain ⟨-, s', hm, hmoved⟩ := (range_mapping_exact bumpPages 0x1000 bareHeap bareHeap bareHeap_zeroed .base 0x6#64
    (by decide) (by decide)).1 0x801fffff#64 0x80200002#64 (by decide) (by decide)
    (Heap.serves_bump (n := 4096) (by decide) _ (by decide))
  exact ⟨s', hm, hmoved.apply (i := 0x1fff) (by decide) (by decide) (by decide) (by decide)⟩

/-- The page at 2^56 is mapped to the frame 0. -/
theorem range_mapping_wraps : ∃ s',
    idMapRange bumpPages 0x1000 0x100000000000000#64 0x100000000001000#64 0x6#64 bareHeap = some s' ∧
      ¬ MapsTo s'.mem 0x1000 0x100000000000000#64 0x100000000000000 := by
  have hrun : ((idMapRange bumpPages 0x1000 0x100000000000000#64 0x100000000001000#64 0x6#64 bareHeap).bind fun s' =>
      virtToPhys s'.mem 0x1000 0x100000000000000#64) = some (some 0) := by
    decide +kernel
  obtain ⟨s', hm, hphys⟩ := Option.bind_eq_some_iff.mp hrun
  refine ⟨s', hm, fun ⟨w, hw, ha⟩ => ?_⟩
  obtain rfl : w = 0 := Option.some.inj (Option.some.inj (hw.symm.trans hphys))
  exact absurd ha (by decide)

end Citron.Paging
