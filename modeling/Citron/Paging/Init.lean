import Citron.Paging.Leaf

/-!
# The address space of the kernel

`src/arch/riscv64/paging.rs`: `id_map_range` and `init`, with the section and device addresses that the
linker script gives (`src/arch/riscv64/layout.rs`).  The ranges are mapped one after the other into one
table; `init` writes the table's address to `satp`.

* `Region.Has`          the addresses of a range, rounded outwards to pages;
* `idMapRange_leaf`     the leaves after one range;
* `mapRegions_leaf`     the leaves after all of them, when no two share a page;
* `kernel_space`        what the kernel has mapped after `init`, and with which permissions.
-/

namespace Citron.Paging
open Word

/-! ## the functions of the source -/

-- the loop is the one of `map_range`, with the physical address for the virtual one
def idMapRange (A : PageAllocator) (root : Nat) (start stop bits : Word) (s : Heap) : Option Heap :=
  let memaddr := start &&& ~~~ (4096#64 - 1#64)
  let numKbPages := (alignVal stop 12 - memaddr) / 4096#64
  mapPages A root bits numKbPages.toNat memaddr memaddr s

/-- the addresses of the linker script -/
structure Layout where
  textStart : Word
  textEnd : Word
  rodataStart : Word
  rodataEnd : Word
  dataStart : Word
  dataEnd : Word
  bssStart : Word
  bssEnd : Word
  stackStart : Word
  stackEnd : Word
  heapStart : Word
  heapEnd : Word
  clintStart : Word
  clintEnd : Word
  plicStart : Word
  plicEnd : Word
  uart0Start : Word
  uart0End : Word
  virtioStart : Word
  virtioEnd : Word
  fwCfgStart : Word
  fwCfgEnd : Word
  /-- the symbol `trampoline`, where its code is -/
  trampoline : Word

def qemuVirtTest : Word := 0x100000#64

/-- a call of `id_map_range` -/
structure Region where
  start : Word
  stop : Word
  bits : Word

/-- the calls of `init`, in its order -/
def Layout.regions (l : Layout) : List Region :=
  [⟨l.textStart, l.textEnd, EntryBits.R.val ||| EntryBits.X.val⟩,
    ⟨l.rodataStart, l.rodataEnd, EntryBits.R.val⟩,
    ⟨l.dataStart, l.dataEnd, EntryBits.R.val ||| EntryBits.W.val⟩,
    ⟨l.bssStart, l.bssEnd, EntryBits.R.val ||| EntryBits.W.val⟩,
    ⟨l.stackStart, l.stackEnd, EntryBits.R.val ||| EntryBits.W.val⟩,
    ⟨l.heapStart, l.heapEnd, EntryBits.R.val ||| EntryBits.W.val⟩,
    ⟨l.clintStart, l.clintEnd, EntryBits.R.val ||| EntryBits.W.val⟩,
    ⟨l.plicStart, l.plicEnd, EntryBits.R.val ||| EntryBits.W.val⟩,
    ⟨l.uart0Start, l.uart0End, EntryBits.R.val ||| EntryBits.W.val⟩,
    ⟨l.virtioStart, l.virtioEnd, EntryBits.R.val ||| EntryBits.W.val⟩,
    ⟨l.fwCfgStart, l.fwCfgEnd, EntryBits.R.val ||| EntryBits.W.val⟩,
    ⟨qemuVirtTest, qemuVirtTest + 0x1000#64, EntryBits.R.val ||| EntryBits.W.val⟩]

def mapRegions (A : PageAllocator) (root : Nat) : List Region → Heap → Option Heap
  | [], s => some s
  | r :: rs, s => (idMapRange A root r.start r.stop r.bits s).bind (mapRegions A root rs)

/-- the root, what goes to `satp`, and the memory -/
def init (A : PageAllocator) (l : Layout) (s : Heap) : Option (Nat × Word × Heap) :=
  let (root, s) := s.allocZeroed A 0x1000
  if root = 0 then none
  else
    (mapRegions A root l.regions s).bind fun s =>
    (map A root trampoline l.trampoline (EntryBits.R.val ||| EntryBits.X.val) 0 s).map fun s =>
      (root, (8#64 <<< 60) ||| (BitVec.ofNat 64 root >>> 12), s)

/-! ## ranges of pages -/

namespace Region

/-- the number of the first page -/
def first (r : Region) : Nat := r.start.toNat / 4096

/-- the number of the page behind the last one -/
def last (r : Region) : Nat := pageCount r.stop.toNat

/-- the address is in the range, rounded outwards -/
def Has (r : Region) (va : Word) : Prop := r.first ≤ va.toNat / 4096 ∧ va.toNat / 4096 < r.last

/-- a range, below the page of the trampoline -/
structure Below (r : Region) : Prop where
  le : r.start.toNat ≤ r.stop.toNat
  lt : r.stop.toNat ≤ trampoline.toNat

/-- no page in common -/
def Apart (r r' : Region) : Prop := ∀ p, r.first ≤ p → p < r.last → r'.first ≤ p → p < r'.last → False

theorem has_of_mem {r : Region} {va : Word} (h₁ : r.start.toNat ≤ va.toNat) (h₂ : va.toNat < r.stop.toNat) :
    r.Has va := by
  unfold Has first last pageCount
  omega

theorem Below.last_le {r : Region} (h : r.Below) : r.last ≤ pageNo trampoline := by
  have hlt := h.lt
  rw [show trampoline.toNat = 0x3ffffff000 by decide] at hlt
  rw [show pageNo trampoline = 0x3ffffff by decide]
  unfold last pageCount
  omega

end Region

/-- below 2^39 the walk sees the whole page number -/
theorem pageNo_of_lt {va : Word} (h : va.toNat < 2^39) : pageNo va = va.toNat / 4096 := by
  unfold pageNo
  omega

theorem Region.Has.lt {r : Region} {va : Word} (h : r.Has va) (hb : r.Below) : va.toNat < 2^39 := by
  have hlast := hb.last_le
  rw [show pageNo trampoline = 0x3ffffff by decide] at hlast
  have := h.2
  omega

/-! ## one range -/

section range
variable {A : PageAllocator} {root : Nat} {r : Region} (hb : r.Below)
include hb

theorem idMapRange_eq (s : Heap) : idMapRange A root r.start r.stop r.bits s
    = mapPages A root r.bits (r.last - r.first) (r.start &&& ~~~ lowMask 12) (r.start &&& ~~~ lowMask 12) s := by
  have hlt := hb.lt
  rw [show trampoline.toNat = 0x3ffffff000 by decide] at hlt
  have hle := hb.le
  have hal := toNat_alignVal (x := r.stop) (by omega)
  have hcount : ((alignVal r.stop 12 - (r.start &&& ~~~ lowMask 12)) / 4096#64).toNat = r.last - r.first := by
    rw [BitVec.toNat_udiv, BitVec.toNat_sub, hal, toNat_and_not_lowMask (by omega)]
    show _ / 4096 = _
    unfold Region.last Region.first pageCount
    omega
  show mapPages A root r.bits ((alignVal r.stop 12 - (r.start &&& ~~~ lowMask 12)) / 4096#64).toNat _ _ s = _
  rw [hcount]
  rfl

theorem idMapRange_leaf {s : Heap} {k : Nat} (hleaf : r.bits &&& 0xe#64 ≠ 0#64) (hw : Paged s root)
    (hserve : Heap.Serves A [4096] (tables r.first (r.last - r.first) + k) s.blocks) :
    ∃ s', idMapRange A root r.start r.stop r.bits s = some s' ∧ Paged s' root ∧ Heap.Serves A [4096] k s'.blocks ∧
      (∀ va, r.Has va → leafOf s'.mem root va = some (leafEntry (va &&& ~~~ lowMask 12) r.bits)) ∧
      ∀ va, va.toNat < 2^39 → ¬ r.Has va → leafOf s'.mem root va = leafOf s.mem root va := by
  have hlast := hb.last_le
  have hlt := hb.lt
  rw [show trampoline.toNat = 0x3ffffff000 by decide] at hlt
  rw [show pageNo trampoline = 0x3ffffff by decide] at hlast
  have hle := hb.le
  have hfirst : pageNo (r.start &&& ~~~ lowMask 12) = r.first := by
    rw [pageNo_floor, pageNo_of_lt (by omega)]
    rfl
  obtain ⟨s', ps, hm, hE, hl, hr⟩ := mapPages_leaf hleaf (r.last - r.first) (r.start &&& ~~~ lowMask 12)
    (r.start &&& ~~~ lowMask 12) hw (by rw [hfirst]; exact hserve.mono (List.Subset.refl _) (by omega))
  rw [hfirst] at hl
  refine ⟨s', (idMapRange_eq hb s).trans hm, hE.paged, ?_, fun va hva => ?_, fun va hva hout => ?_⟩
  · rw [hE.blocks]
    exact hE.fresh.serves (List.mem_singleton.mpr rfl) (hserve.mono (List.Subset.refl _) (by omega))
  · have h1 := hva.1
    have h2 := hva.2
    have hpage : pageNo va = va.toNat / 4096 := pageNo_of_lt (hva.lt hb)
    -- the page of `va` is the `q`-th of the range
    rw [hr.inside va (va.toNat / 4096 - r.first) (by omega) (by omega) (by rw [hfirst, hpage]; omega)]
    congr 2
    apply BitVec.eq_of_toNat_eq
    have hlow : r.start.toNat / 2^12 = r.first := rfl
    rw [BitVec.toNat_add, toNat_and_not_lowMask (by omega), toNat_and_not_lowMask (by omega), BitVec.toNat_ofNat, hlow]
    omega
  · refine hr.aside va fun q hq => ?_
    rw [hfirst, pageNo_of_lt hva]
    unfold Region.Has at hout
    omega

end range

/-! ## all ranges -/

/-- the tables that the ranges can need -/
def regionTables : List Region → Nat
  | [] => 0
  | r :: rs => tables r.first (r.last - r.first) + regionTables rs

theorem mapRegions_leaf {A : PageAllocator} {root k : Nat} (rs : List Region) : ∀ s : Heap, Paged s root →
    (∀ r ∈ rs, r.Below) → (∀ r ∈ rs, r.bits &&& 0xe#64 ≠ 0#64) → rs.Pairwise Region.Apart →
    Heap.Serves A [4096] (regionTables rs + k) s.blocks →
    ∃ s', mapRegions A root rs s = some s' ∧ Paged s' root ∧ Heap.Serves A [4096] k s'.blocks ∧
      (∀ r ∈ rs, ∀ va, r.Has va → leafOf s'.mem root va = some (leafEntry (va &&& ~~~ lowMask 12) r.bits)) ∧
      ∀ va, va.toNat < 2^39 → (∀ r ∈ rs, ¬ r.Has va) → leafOf s'.mem root va = leafOf s.mem root va := by
  induction rs with
  | nil =>
    intro s hw _ _ _ hserve
    refine ⟨s, rfl, hw, ?_, fun _ h => absurd h List.not_mem_nil, fun _ _ _ => rfl⟩
    exact hserve.mono (List.Subset.refl _) (Nat.le_add_left _ _)
  | cons r rs ih =>
    intro s hw hb hl hd hserve
    obtain ⟨hbr, hb⟩ := List.forall_mem_cons.mp hb
    obtain ⟨hlr, hl⟩ := List.forall_mem_cons.mp hl
    obtain ⟨hapart, hd⟩ := List.pairwise_cons.mp hd
    obtain ⟨s₁, hm₁, hw₁, hserve₁, hin₁, hout₁⟩ := idMapRange_leaf hbr hlr hw
      (k := regionTables rs + k) (by rw [← Nat.add_assoc]; exact hserve)
    obtain ⟨s', hm, hw', hserve', hin, hout⟩ := ih s₁ hw₁ hb hl hd hserve₁
    refine ⟨s', ?_, hw', hserve', fun r' hr' va hva => ?_, fun va hlt hva => ?_⟩
    · show (idMapRange A root r.start r.stop r.bits s).bind _ = _
      rw [hm₁]
      exact hm
    · rcases List.mem_cons.mp hr' with rfl | hr'
      · -- the later ranges have no page of this one
        rw [hout va (hva.lt hbr) fun r'' hr'' h => hapart r'' hr'' _ hva.1 hva.2 h.1 h.2]
        exact hin₁ va hva
      · exact hin r' hr' va hva
    · obtain ⟨hva₁, hva⟩ := List.forall_mem_cons.mp hva
      rw [hout va hlt hva, hout₁ va hlt hva₁]

/-! ## the whole table -/

/-- an address with the given indices -/
def addressOf (a b c : Fin 512) : Word := BitVec.ofNat 64 (((a.val * 512 + b.val) * 512 + c.val) * 4096)

theorem path_addressOf (a b c : Fin 512) : path (addressOf a b c) 3 = [a, b, c] := by
  have hlt : (addressOf a b c).toNat = ((a.val * 512 + b.val) * 512 + c.val) * 4096 := by
    show _ % 2^64 = _
    omega
  show [vpn _ 2, vpn _ 1, vpn _ 0] = _
  have hvpn : ∀ k (j : Fin 512), ((a.val * 512 + b.val) * 512 + c.val) * 4096 / 2^(12 + 9 * k) % 2^9 = j.val →
      vpn (addressOf a b c) k = j := by
    intro k j h
    apply Fin.ext
    rw [val_vpn, hlt, h]
  rw [hvpn 2 a (by omega), hvpn 1 b (by omega), hvpn 0 c (by omega)]

/-- every leaf of the table is the leaf of an address below 2^39 -/
theorem Paged.leaf {s : Heap} {root : Nat} (hw : Paged s root) {js rest : List (Fin 512)} {e : Entry}
    (h : (tableTree s.mem 2 root).lookup js = some (e, rest)) :
    ∃ va, va.toNat < 2^39 ∧ leafOf s.mem root va = some e := by
  obtain ⟨is, hlen, -, hlook⟩ := hw.deep.lookup_front h
  obtain ⟨a, b, c, rfl⟩ := List.length_eq_three.mp hlen
  refine ⟨addressOf a b c, ?_, ?_⟩
  · show _ % 2^64 < _
    omega
  · unfold leafOf
    rw [path_addressOf, hlook]
    rfl

/-- the table that the hardware walks -/
def satpTable (satp : Word) : Nat := 4096 * (satp.toNat % 2^44)

theorem satpTable_init {root : Nat} (hal : 4096 ∣ root) (hlt : root < 2^56) :
    satpTable ((8#64 <<< 60) ||| (BitVec.ofNat 64 root >>> 12)) = root := by
  have hroot : (BitVec.ofNat 64 root >>> 12).toNat = root / 4096 := by
    rw [BitVec.toNat_ushiftRight, BitVec.toNat_ofNat, Nat.shiftRight_eq_div_pow]
    omega
  unfold satpTable
  rw [BitVec.toNat_or, Nat.or_mod_two_pow, hroot, show (8#64 <<< 60).toNat % 2^44 = 0 by decide, Nat.zero_or]
  omega

/-- **The address space of the kernel.** -/
structure KernelSpace (l : Layout) (root : Nat) (m : Mem) : Prop where
  regions : ∀ r ∈ l.regions, ∀ va : Word, r.start.toNat ≤ va.toNat → va.toNat < r.stop.toNat →
    Translates m root va va r.bits
  trampolinePage : Translates m root trampoline (l.trampoline &&& ~~~ lowMask 12) (EntryBits.R.val ||| EntryBits.X.val)
  nothingElse : ∀ va : Word, va.toNat < 2^39 → (∀ r ∈ l.regions, ¬ r.Has va) →
    va.toNat / 4096 ≠ trampoline.toNat / 4096 → virtToPhys m root va = some none
  noWX : ∀ js e rest, (tableTree m 2 root).lookup js = some (e, rest) →
    ¬ (e &&& EntryBits.W.val ≠ 0#64 ∧ e &&& EntryBits.X.val ≠ 0#64)

/-- what a mapping allows is what it was made with -/
theorem leafEntry_and (pa : Word) {bits flag : Word} (hflag : 0x1e#64 &&& flag = flag) :
    leafEntry pa bits &&& flag = bits &&& flag := by
  calc leafEntry pa bits &&& flag = (leafEntry pa bits).permissions &&& flag := by
        rw [Entry.permissions, BitVec.and_assoc, hflag]
    _ = bits &&& flag := by rw [permissions_leafEntry, BitVec.and_assoc, hflag]

theorem Layout.bits {l : Layout} {r : Region} (h : r ∈ l.regions) :
    r.bits &&& 0xe#64 ≠ 0#64 ∧ r.bits &&& 0x1e#64 = r.bits ∧
      ¬ (r.bits &&& EntryBits.W.val ≠ 0#64 ∧ r.bits &&& EntryBits.X.val ≠ 0#64) := by
  have hbits : r.bits ∈ [EntryBits.R.val ||| EntryBits.X.val, EntryBits.R.val, EntryBits.R.val ||| EntryBits.W.val] := by
    simp only [Layout.regions, List.mem_cons, List.not_mem_nil, or_false] at h
    rcases h with rfl | rfl | rfl | rfl | rfl | rfl | rfl | rfl | rfl | rfl | rfl | rfl <;> simp
  simp only [List.mem_cons, List.not_mem_nil, or_false] at hbits
  rcases hbits with h | h | h
  · rw [h]
    decide
  · rw [h]
    decide
  · rw [h]
    decide

theorem floor_or (va : Word) : (va &&& ~~~ lowMask 12 &&& ~~~ lowMask 12) ||| (va &&& lowMask 12) = va := by
  apply BitVec.eq_of_toNat_eq
  rw [toNat_or_lowMask (by omega), toNat_and_not_lowMask (by omega)]
  omega

/-- **The address space of the kernel after `init`.** -/
theorem kernel_space (A : PageAllocator) (l : Layout) (s : Heap) (hb : ∀ r ∈ l.regions, r.Below)
    (hd : l.regions.Pairwise Region.Apart) (ht : l.trampoline.toNat < 2^56)
    (hserve : Heap.Serves A [4096] (regionTables l.regions + 2 + 1) s.blocks) :
    ∃ root satp s', init A l s = some (root, satp, s') ∧ satpTable satp = root ∧ KernelSpace l root s'.mem := by
  obtain ⟨root, hnext, hserve⟩ := hserve 4096 (List.mem_singleton.mpr rfl)
  have hz := zeroedRoot_of_next hnext
  obtain ⟨s₁, hm₁, hw₁, hserve₁, hin₁, hout₁⟩ := mapRegions_leaf l.regions _ hz.paged hb (fun r hr => (l.bits hr).1) hd
    hserve
  obtain ⟨s₂, _, hm₂, hg₂, -, hin₂, hout₂⟩ := map_served
    (show (EntryBits.R.val ||| EntryBits.X.val) &&& 0xe#64 ≠ 0#64 by decide) trampoline l.trampoline hw₁ (k := 0) hserve₁
  have hempty : ∀ va, leafOf (s.mem.zero root 4096) root va = none := by
    intro va
    unfold leafOf
    rw [show tableTree (s.mem.zero root 4096) 2 root = _ from hz.tree]
    rfl
  have htramp : trampoline.toNat < 2^39 := by decide
  -- the leaf of an address of a range
  have hregion : ∀ r ∈ l.regions, ∀ va, r.Has va →
      leafOf s₂.mem root va = some (leafEntry (va &&& ~~~ lowMask 12) r.bits) := by
    intro r hr va hva
    have hne : pageNo va ≠ pageNo trampoline := by
      rw [pageNo_of_lt (hva.lt (hb r hr))]
      exact Nat.ne_of_lt (Nat.lt_of_lt_of_le hva.2 (hb r hr).last_le)
    rw [hout₂ va hne]
    exact hin₁ r hr va hva
  -- the leaf of an address of none
  have hnone : ∀ va : Word, va.toNat < 2^39 → (∀ r ∈ l.regions, ¬ r.Has va) → pageNo va ≠ pageNo trampoline →
      leafOf s₂.mem root va = none := by
    intro va hva hr hne
    rw [hout₂ va hne, hout₁ va hva hr]
    exact hempty va
  have hroot : root ≠ 0 := Nat.pos_iff_ne_zero.mp (A.pos _ _ _ hnext)
  have hbd : root + 4096 ≤ 2^56 := A.bounded _ _ _ hnext
  refine ⟨root, _, s₂, ?_, satpTable_init (A.aligned _ _ _ hnext) (by omega), ?_, ?_, ?_, ?_⟩
  · unfold init
    rw [Heap.allocZeroed_of_next hnext]
    dsimp only
    rw [if_neg hroot, hm₁, Option.bind_some, hm₂, Option.map_some]
  · intro r hr va h₁ h₂
    have hva := r.has_of_mem h₁ h₂
    have hlt : (va &&& ~~~ lowMask 12).toNat < 2^56 := by
      rw [toNat_and_not_lowMask (by omega)]
      have := hva.lt (hb r hr)
      omega
    have h := translates_leafEntry hg₂.keeps.paged hlt (l.bits hr).2.1 (hregion r hr va hva)
    rwa [floor_or] at h
  · have h := translates_leafEntry hg₂.keeps.paged ht (by decide) (hin₂ trampoline rfl)
    rwa [show trampoline &&& lowMask 12 = 0#64 by decide, BitVec.or_zero] at h
  · intro va hva hr hne
    exact virtToPhys_of_no_leaf hg₂.keeps.paged (hnone va hva hr (by rwa [pageNo_of_lt hva, pageNo_of_lt htramp]))
  · intro js e rest hlook
    obtain ⟨va, hva, hleaf⟩ := hg₂.keeps.paged.leaf hlook
    by_cases hpage : pageNo va = pageNo trampoline
    · rw [hin₂ va hpage] at hleaf
      cases hleaf
      rw [leafEntry_and _ (by decide), leafEntry_and _ (by decide)]
      decide
    · by_cases hr : ∃ r ∈ l.regions, r.Has va
      · obtain ⟨r, hr, hhas⟩ := hr
        rw [hregion r hr va hhas] at hleaf
        cases hleaf
        rw [leafEntry_and _ (by decide), leafEntry_and _ (by decide)]
        exact (l.bits hr).2.2
      · push Not at hr
        rw [hnone va hva hr hpage] at hleaf
        cases hleaf

/-! ## the machine `virt` -/

/-- the addresses of `src/linker/virt.ld`, for sections of a few pages -/
def virt : Layout where
  textStart := 0x80000000
  textEnd := 0x80060000
  trampoline := 0x80060000
  rodataStart := 0x80062000
  rodataEnd := 0x80080000
  dataStart := 0x80080000
  dataEnd := 0x80082000
  bssStart := 0x80082000
  bssEnd := 0x80090000
  stackStart := 0x80090000
  stackEnd := 0x800d0000
  heapStart := 0x800d0000
  heapEnd := 0x90000000
  clintStart := 0x2000000
  clintEnd := 0x2010000
  plicStart := 0xc000000
  plicEnd := 0x10000000
  uart0Start := 0x10000000
  uart0End := 0x10000100
  virtioStart := 0x10001000
  virtioEnd := 0x10009000
  fwCfgStart := 0x10100000
  fwCfgEnd := 0x10100018

theorem Region.apart_of_le {r r' : Region} (h : r.last ≤ r'.first ∨ r'.last ≤ r.first) : r.Apart r' := by
  intro p h₁ h₂ h₃ h₄
  omega

instance (r : Region) : Decidable r.Below :=
  decidable_of_iff (r.start.toNat ≤ r.stop.toNat ∧ r.stop.toNat ≤ trampoline.toNat)
    ⟨fun h => ⟨h.1, h.2⟩, fun h => ⟨h.le, h.lt⟩⟩

theorem kernel_space_example : ∃ root satp s',
    init (Allocator.bump 0x1000 (2^56) (by decide)) virt ⟨fun _ => 0, [(0x80000000, 0xd0000)]⟩ = some (root, satp, s') ∧
    satpTable satp = root ∧ KernelSpace virt root s'.mem := by
  refine kernel_space _ virt _ (by decide) (List.Pairwise.imp Region.apart_of_le (by decide)) (by decide) ?_
  exact Heap.serves_bump (n := 4096) (by decide) _ (by decide)

end Citron.Paging
