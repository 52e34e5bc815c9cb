import Citron.Loader.Setup
import Mathlib.Data.List.Pairwise

/-!
# The image of a program after loading

`load_exe` puts the file range of a segment at the start of its buffer and maps the buffer from the page
of `p_vaddr` on.  When `p_vaddr` is not on a page boundary, every byte is found too early by the page
offset of `p_vaddr`, and the last byte behind the buffer.

* `segment_step`, `loadSegments_spec`   what the loop over the headers does, in any memory;
* `load_exe_image`   the image is right, whatever the rest of the memory holds, if and only if every
                     segment starts on a page boundary.
-/

namespace Citron.Loader
open Paging Fs Word

/-! ## one segment -/

namespace ProgramHeader

abbrev vaddr (ph : ProgramHeader) : Nat := ph.pVaddr.toNat
abbrev memsz (ph : ProgramHeader) : Nat := ph.pMemsz.toNat
abbrev offset (ph : ProgramHeader) : Nat := ph.pOffset.toNat
abbrev filesz (ph : ProgramHeader) : Nat := ph.pFilesz.toNat

/-- the ranges are ranges, the file range lies in the file of `n` bytes and in the memory range -/
structure Valid (ph : ProgramHeader) (n : Nat) : Prop where
  vm : ph.vaddr + ph.memsz < 2^64
  file : ph.offset + ph.filesz ≤ n
  filesz_le : ph.filesz ≤ ph.memsz

/-- byte `i` of the segment -/
def byte (ph : ProgramHeader) (file : List UInt8) (i : Nat) : UInt8 :=
  if i < ph.filesz then file.getD (ph.offset + i) 0 else 0

/-- the pages of the buffer -/
abbrev buffered (ph : ProgramHeader) : Nat := pageCount ph.memsz

/-- the pages that the memory range meets -/
def pages (ph : ProgramHeader) : Nat := if ph.memsz = 0 then 0 else pageCount (ph.vaddr % 4096 + ph.memsz)

theorem buffered_le_pages (ph : ProgramHeader) : ph.buffered ≤ ph.pages := by
  unfold pages
  split
  · next h =>
    show pageCount ph.pMemsz.toNat ≤ 0
    rw [show ph.pMemsz.toNat = 0 from h]
    exact Nat.le_refl _
  · unfold buffered pageCount
    omega

/-- the page of `va` is page `q` from the one of `p_vaddr` on -/
def Covers (ph : ProgramHeader) (va : Word) (q : Nat) : Prop := pageNo va = (pageNo ph.pVaddr + q) % 2^27

theorem len_vmRange {ph : ProgramHeader} {n : Nat} (h : ph.Valid n) : ph.vmRange.len = ph.pMemsz := by
  have hvm := h.vm
  have hstop : (ph.pVaddr + ph.pMemsz).toNat = ph.vaddr + ph.memsz := by
    rw [BitVec.toNat_add]
    exact Nat.mod_eq_of_lt hvm
  show (if ph.pVaddr.toNat ≤ (ph.pVaddr + ph.pMemsz).toNat then _ else _) = _
  rw [if_pos (by rw [hstop]; exact Nat.le_add_right _ _)]
  show ph.pVaddr + ph.pMemsz - ph.pVaddr = ph.pMemsz
  rw [BitVec.add_comm, BitVec.add_sub_cancel]

theorem fileRange_stop {ph : ProgramHeader} {n : Nat} (h : ph.Valid n) (hn : n < 2^64) :
    ph.fileRange.stop.toNat = ph.offset + ph.filesz := by
  show (ph.pOffset + ph.pFilesz).toNat = _
  rw [BitVec.toNat_add]
  exact Nat.mod_eq_of_lt (Nat.lt_of_le_of_lt h.file hn)

theorem len_fileRange {ph : ProgramHeader} {n : Nat} (h : ph.Valid n) (hn : n < 2^64) :
    ph.fileRange.len = ph.pFilesz := by
  have hstop := fileRange_stop h hn
  show (if ph.pOffset.toNat ≤ ph.fileRange.stop.toNat then _ else _) = _
  rw [if_pos (by rw [hstop]; exact Nat.le_add_right _ _)]
  show ph.pOffset + ph.pFilesz - ph.pOffset = ph.pFilesz
  rw [BitVec.add_comm, BitVec.add_sub_cancel]

end ProgramHeader

/-- a segment in memory: `s` is the heap before it was loaded, `s'` one after it was -/
structure Placed (file : List UInt8) (root : Nat) (s s' : Heap) (ph : ProgramHeader) (buf : Nat) :
    Prop where
  aligned : 4096 ∣ buf
  apart : Apart buf ph.memsz s.blocks
  safe : Safe s' root (Mem.range buf (4096 * ph.buffered))
  bytes : ∀ j, j < ph.memsz → s'.mem (buf + j) = ph.byte file j
  slack : ∀ j, ph.memsz ≤ j → j < 4096 * ph.buffered → s'.mem (buf + j) = s.mem (buf + j)
  maps : ∀ va q, q < ph.buffered → ph.Covers va q →
    MapsTo s'.mem root va (buf + 4096 * q + va.toNat % 4096)

/-- one turn of the loop, as the source computes it -/
theorem loadSegments_cons {A : PageAllocator} {root bin n buf : Nat} {s s₂ : Heap} {ph : ProgramHeader}
    (hv : ph.Valid n) (hn : n < 2^64) (hnext : A.next s.blocks ph.memsz = some buf)
    (hmap : mapPages A root segmentFlags ph.buffered (ph.pVaddr &&& ~~~ lowMask 12) (BitVec.ofNat 64 buf)
      ⟨s.mem.zero buf ph.memsz, (buf, ph.memsz) :: s.blocks⟩ = some s₂) (phs : List ProgramHeader) :
    loadSegments A root bin n (ph :: phs) s
      = (loadSegments A root bin n phs
          (s₂.blit buf (s₂.mem.bytes (bin + ph.offset) ph.filesz))).map fun (segments, s) =>
            (⟨buf, ph.memsz, ph.vmRange, segmentFlags⟩ :: segments, s) := by
  have hal : 4096 ∣ buf := A.aligned _ _ _ hnext
  have hbd : buf + ph.memsz ≤ 2^56 := A.bounded _ _ _ hnext
  have hbuf : (BitVec.ofNat 64 buf).toNat = buf := by
    rw [BitVec.toNat_ofNat]
    omega
  have hfits : layoutFits ph.memsz = true := decide_eq_true (by omega)
  have hrange : mapRange A root ph.vmRange.start (BitVec.ofNat 64 buf) ph.pMemsz segmentFlags
      ⟨s.mem.zero buf ph.memsz, (buf, ph.memsz) :: s.blocks⟩ = some s₂ := by
    rw [mapRange_eq A root _ (by rw [hbuf]; exact hal) (by rw [hbuf]; exact hbd)]
    exact hmap
  have hslice : ph.fileRange.start.toNat ≤ ph.fileRange.stop.toNat ∧ ph.fileRange.stop.toNat ≤ n := by
    rw [ph.fileRange_stop hv hn]
    exact ⟨Nat.le_add_right _ _, hv.file⟩
  conv_lhs => unfold loadSegments
  simp only [ph.len_vmRange hv, ph.len_fileRange hv hn]
  rw [if_pos hfits, Heap.allocZeroed_of_next hnext]
  simp only [hrange, Option.bind_some]
  rw [if_pos hslice]
  rfl

section segment
variable {A : PageAllocator} {root bin : Nat} {file : List UInt8} {s : Heap} {ph : ProgramHeader}
  {sizes : List Nat} {k : Nat}
  (hw : Paged s root) (hv : ph.Valid file.length) (hlen : file.length < 2^64) (hpages : ph.pages ≤ 2^27)
  (hbin : Safe s root (Mem.range bin file.length))
  (hfile : ∀ i, i < file.length → s.mem (bin + i) = file.getD i 0)
  (h4 : 4096 ∈ sizes) (hm : ph.memsz ∈ sizes)
  (hserve : Heap.Serves A sizes (1 + 2 * ph.buffered + k) s.blocks)
include hw hv hlen hpages hbin hfile h4 hm hserve

/-- one turn of the loop -/
theorem segment_step : ∃ buf s',
    (∀ phs, loadSegments A root bin file.length (ph :: phs) s
      = (loadSegments A root bin file.length phs s').map fun (segments, s) =>
          (⟨buf, ph.memsz, ph.vmRange, segmentFlags⟩ :: segments, s)) ∧
    Keeps root s s' ∧ Placed file root s s' ph buf ∧
    (∀ va, (∀ q, q < ph.buffered → ¬ ph.Covers va q) →
      virtToPhys s'.mem root va = virtToPhys s.mem root va) ∧
    Heap.Serves A sizes k s'.blocks := by
  -- the buffer
  rw [show 1 + 2 * ph.buffered + k = (k + 2 * ph.buffered) + 1 by omega] at hserve
  obtain ⟨buf, hnext, hserve⟩ := hserve ph.memsz hm
  have hal : 4096 ∣ buf := A.aligned _ _ _ hnext
  have hbd : buf + ph.memsz ≤ 2^56 := A.bounded _ _ _ hnext
  obtain ⟨s₁, hs₁⟩ : ∃ t : Heap, t = ⟨s.mem.zero buf ph.memsz, (buf, ph.memsz) :: s.blocks⟩ := ⟨_, rfl⟩
  have hblk₁ : (buf, ph.memsz) ∈ s₁.blocks := by rw [hs₁]; exact List.mem_cons_self ..
  obtain ⟨hk₁, ht₁⟩ : Keeps root s s₁ ∧ tableTree s₁.mem 2 root = tableTree s.mem 2 root := by
    rw [hs₁]
    exact keeps_allocZeroed hw hnext
  have hsafe₁ : Safe s₁ root (Mem.range buf (4096 * ph.buffered)) := safe_pages hw hnext hblk₁ ht₁
  -- its pages
  have hbuf : (BitVec.ofNat 64 buf).toNat = buf := by
    rw [BitVec.toNat_ofNat]
    omega
  have hcount : 4096 * ph.buffered ≤ ph.memsz + 4095 := by
    unfold ProgramHeader.buffered pageCount
    omega
  obtain ⟨s₂, ps, hmap, hE, hps, hto, hout⟩ := mapPages_spec (show segmentFlags.toNat < 2^10 by decide)
    (by decide) ph.buffered s₁ (ph.pVaddr &&& ~~~ lowMask 12) (BitVec.ofNat 64 buf) hk₁.paged
    (ph.buffered_le_pages.trans hpages) (by rw [hbuf]; exact hal) (by rw [hbuf]; omega)
    (by rw [hs₁]; exact hserve.mono (List.cons_subset.mpr ⟨h4, List.nil_subset _⟩) (by omega))
  rw [pageNo_floor, hbuf] at hto
  rw [pageNo_floor] at hout
  have hk₂ := hE.keeps hk₁.paged
  obtain ⟨hsafe₂, hbuf₂⟩ := hk₂.safe _ hsafe₁
  obtain ⟨-, hbin₂⟩ := (hk₁.trans hk₂).safe _ hbin
  -- the copy
  have hin : Mem.range buf ph.memsz ⊆ Mem.range buf (4096 * ph.buffered) := by
    refine Mem.range_mono (Nat.le_refl _) ?_
    unfold ProgramHeader.buffered pageCount
    omega
  obtain ⟨s₃, hs₃⟩ : ∃ t : Heap, t = s₂.blit buf (s₂.mem.bytes (bin + ph.offset) ph.filesz) := ⟨_, rfl⟩
  have hmem₃ : s₃.mem = s₂.mem.blit buf (s₂.mem.bytes (bin + ph.offset) ph.filesz) := by rw [hs₃]; rfl
  have hblk₃ : s₃.blocks = s₂.blocks := by rw [hs₃]; rfl
  have hcopy : Set.EqOn s₃.mem s₂.mem (Mem.range buf ph.memsz)ᶜ := by
    rw [hmem₃]
    refine Mem.blit_eqOn (Set.disjoint_compl_right_iff_subset.mpr ?_)
    rw [Mem.length_bytes]
    exact Mem.range_mono (Nat.le_refl _) (Nat.add_le_add_left hv.filesz_le _)
  obtain ⟨hk₃, ht₃⟩ := (hk₁.trans hk₂).write hal (A.fresh _ _ _ hnext) (hk₂.blocks _ hblk₁)
    (hsafe₂.apart.mono_left hin) hblk₃ hcopy
  have hvp : ∀ va, virtToPhys s₃.mem root va = virtToPhys s₂.mem root va :=
    virtToPhys_congr hE.paged hk₃.paged ht₃
  refine ⟨buf, s₃, fun phs => ?_, hk₃, ⟨hal, A.fresh _ _ _ hnext, ?_, fun j hj => ?_, fun j hj hj' => ?_,
    fun va q hq hva => ?_⟩, fun va hva => ?_, ?_⟩
  · rw [hs₃]
    exact loadSegments_cons hv hlen hnext (hs₁ ▸ hmap) phs
  · refine ⟨?_, ?_⟩
    · rw [hblk₃]
      exact hsafe₂.shielded
    · rw [ht₃]
      exact hsafe₂.apart
  · have hfz := hv.filesz_le
    rw [hmem₃]
    unfold ProgramHeader.byte
    by_cases hjf : j < ph.filesz
    · rw [if_pos hjf, Mem.blit_add (by rw [Mem.length_bytes]; exact hjf), Mem.bytes_getD hjf]
      have hf := hv.file
      rw [Nat.add_assoc, hbin₂ (Mem.mem_range.mpr (by omega)), hfile _ (by omega)]
    · have hj₂ : buf + j ∈ Mem.range buf (4096 * ph.buffered) := hin (Mem.mem_range.mpr (by omega))
      rw [if_neg hjf, Mem.blit_of_notMem, hbuf₂ hj₂, hs₁]
      · exact Mem.zero_of_mem (Mem.mem_range.mpr (by omega))
      · rw [Mem.length_bytes, Mem.mem_range]
        omega
  · have hj₂ : buf + j ∈ Mem.range buf (4096 * ph.buffered) := Mem.mem_range.mpr (by omega)
    have hj₃ : buf + j ∉ Mem.range buf ph.memsz := by rw [Mem.mem_range]; omega
    rw [hcopy hj₃, hbuf₂ hj₂, hs₁]
    exact Mem.zero_of_notMem hj₃
  · obtain ⟨w, hw₂, hwa⟩ := hto va q hq hva
    exact ⟨w, (hvp va).trans hw₂, hwa⟩
  · rw [hvp, hout va hva]
    exact virtToPhys_congr hw hk₁.paged ht₁ va
  · rw [hblk₃, hE.blocks, hs₁]
    rw [hs₁] at hE
    exact hE.fresh.serves h4 (hserve.mono (List.Subset.refl _) (by omega))

end segment

/-! ## all segments -/

/-- the bytes behind the end of a new block, on its last page, have not been written before -/
theorem slack_unchanged {root : Nat} {s s₁ : Heap} (h : Keeps root s s₁) {buf n j : Nat} (hal : 4096 ∣ buf)
    (hap : Apart buf n s₁.blocks) (hj : n ≤ j) (hj' : j < 4096 * pageCount n) :
    s₁.mem (buf + j) = s.mem (buf + j) := by
  by_contra hne
  obtain ⟨b, hb, hd, hin⟩ := h.changed _ hne
  have := hap b hb
  rw [Mem.mem_range] at hin
  unfold pageCount at hj'
  omega

section placed
variable {file : List UInt8} {root : Nat} {s s₁ s' : Heap} {ph : ProgramHeader} {buf : Nat}

/-- a segment stays when what follows leaves its addresses alone -/
theorem Placed.later (h : Placed file root s s₁ ph buf) (hk : Keeps root s₁ s')
    (hv : ∀ va q, q < ph.buffered → ph.Covers va q →
      virtToPhys s'.mem root va = virtToPhys s₁.mem root va) : Placed file root s s' ph buf := by
  obtain ⟨hsafe, heq⟩ := hk.safe _ h.safe
  refine ⟨h.aligned, h.apart, hsafe, fun j hj => ?_, fun j hj hj' => ?_, fun va q hq hva => ?_⟩
  · rw [heq, h.bytes j hj]
    rw [Mem.mem_range]
    unfold ProgramHeader.buffered pageCount
    omega
  · rw [heq (Mem.mem_range.mpr (by omega)), h.slack j hj hj']
  · obtain ⟨w, hw, hwa⟩ := h.maps va q hq hva
    exact ⟨w, (hv va q hq hva).trans hw, hwa⟩

/-- a segment, seen from an earlier heap -/
theorem Placed.earlier (hk : Keeps root s s₁) (h : Placed file root s₁ s' ph buf) :
    Placed file root s s' ph buf := by
  refine ⟨h.aligned, fun b hb => h.apart b (hk.blocks b hb), h.safe, h.bytes, fun j hj hj' => ?_, h.maps⟩
  rw [h.slack j hj hj']
  exact slack_unchanged hk h.aligned h.apart hj hj'

end placed

/-- the requests that the loop makes at most -/
def requests : List ProgramHeader → Nat
  | [] => 0
  | ph :: phs => 1 + 2 * ph.buffered + requests phs

/-- no page of one memory range has the page number of a page of the other -/
def Unaliased (ph ph' : ProgramHeader) : Prop := ∀ q q', q < ph.pages → q' < ph'.pages →
  (pageNo ph.pVaddr + q) % 2^27 ≠ (pageNo ph'.pVaddr + q') % 2^27

instance : Std.Symm Unaliased := ⟨fun _ _ h q q' hq hq' e => h q' q hq' hq e.symm⟩

/-- all pages of the memory ranges have their own page number for the walk, which ignores the bits from
39 on -/
structure NoAlias (phs : List ProgramHeader) : Prop where
  own : ∀ ph ∈ phs, ph.pages ≤ 2^27
  pair : phs.Pairwise Unaliased

theorem loadSegments_spec {A : PageAllocator} {root bin : Nat} {file : List UInt8} {sizes : List Nat}
    (hlen : file.length < 2^64) (h4 : 4096 ∈ sizes) (phs : List ProgramHeader) : ∀ s : Heap,
    Paged s root → (∀ ph ∈ phs, ph.Valid file.length) → NoAlias phs →
    Safe s root (Mem.range bin file.length) →
    (∀ i, i < file.length → s.mem (bin + i) = file.getD i 0) →
    (∀ ph ∈ phs, ph.memsz ∈ sizes) → Heap.Serves A sizes (requests phs) s.blocks →
    ∃ segments s', loadSegments A root bin file.length phs s = some (segments, s') ∧ Keeps root s s' ∧
      (∀ ph ∈ phs, ∃ buf, Placed file root s s' ph buf) ∧
      ∀ va, (∀ ph ∈ phs, ∀ q, q < ph.buffered → ¬ ph.Covers va q) →
        virtToPhys s'.mem root va = virtToPhys s.mem root va := by
  induction phs with
  | nil =>
    intro s hw _ _ _ _ _ _
    exact ⟨[], s, rfl, Keeps.refl hw, fun _ h => absurd h (List.not_mem_nil), fun _ _ => rfl⟩
  | cons ph phs ih =>
    intro s hw hv hn hbin hfile hsizes hserve
    obtain ⟨hpair, hrest⟩ := List.pairwise_cons.mp hn.pair
    obtain ⟨buf, s₁, hload, hk₁, hp₁, hout₁, hserve₁⟩ := segment_step hw (hv ph (List.mem_cons_self ..)) hlen
      (hn.own ph (List.mem_cons_self ..)) hbin hfile h4 (hsizes ph (List.mem_cons_self ..)) hserve
    obtain ⟨hbin₁, heq⟩ := hk₁.safe _ hbin
    obtain ⟨segments, s', hload', hk', hp', hout'⟩ := ih s₁ hk₁.paged
      (fun p hp => hv p (List.mem_cons_of_mem _ hp))
      ⟨fun p hp => hn.own p (List.mem_cons_of_mem _ hp), hrest⟩ hbin₁
      (fun i hi => (heq (Mem.mem_range.mpr (by omega))).trans (hfile i hi))
      (fun p hp => hsizes p (List.mem_cons_of_mem _ hp)) hserve₁
    refine ⟨_, s', by rw [hload, hload']; rfl, hk₁.trans hk', fun p hp => ?_, fun va hva => ?_⟩
    · rcases List.mem_cons.mp hp with rfl | hp
      · -- the pages of the later segments are others
        refine ⟨buf, hp₁.later hk' fun va q hq hva => hout' va fun p' hp' q' hq' hva' => ?_⟩
        exact hpair p' hp' q q' (lt_of_lt_of_le hq p.buffered_le_pages)
          (lt_of_lt_of_le hq' p'.buffered_le_pages) (hva.symm.trans hva')
      · obtain ⟨b, hb⟩ := hp' p hp
        exact ⟨b, hb.earlier hk₁⟩
    · rw [hout' va fun p hp => hva p (List.mem_cons_of_mem _ hp)]
      exact hout₁ va (hva ph (List.mem_cons_self ..))

/-! ## the whole program -/

variable {σ : Type}

/-- the file system has the file at the path, and reads it whole -/
def Stored (B : BackingFileSystem σ) (fs : FileSystem σ) (path : String) (file : List UInt8) : Prop :=
  ∃ fd fs₁ size fs₂, fs.openFile B path = some (.ok fd, fs₁) ∧ fs₁.getFileSize fd = .ok size ∧
    size.toNat = file.length ∧ fs₁.read B fd file.length = some (.ok file, fs₂)

/-- the sizes of the blocks that loading asks for -/
def blockSizes (file : List UInt8) (phs : List ProgramHeader) : List Nat :=
  4096 :: file.length :: phs.map ProgramHeader.memsz

section program
variable {A : PageAllocator} {B : BackingFileSystem σ} {parse : List UInt8 → Option Object}
  {path : String} {file : List UInt8} {elf : Elf} {fs : FileSystem σ} {root : Nat} {s : Heap}
  (hstored : Stored B fs path file) (hparse : parse file = some (.elf elf))
  (hvalid : ∀ ph ∈ elf.programHeaders, ph.Valid file.length) (halias : NoAlias elf.programHeaders)
  (hserve : Heap.Serves A (blockSizes file elf.programHeaders) (1 + requests elf.programHeaders) s.blocks)
  (hw : Paged s root)
include hstored hparse hvalid halias hserve hw

theorem loadExe_spec : ∃ info s' fs', loadExe A B parse path root s fs = some (.ok info, s', fs') ∧
    Keeps root s s' ∧
    (∀ ph ∈ elf.programHeaders, ∃ buf, Placed file root s s' ph buf) ∧
    ∀ va, (∀ ph ∈ elf.programHeaders, ∀ q, q < ph.buffered → ¬ ph.Covers va q) →
      virtToPhys s'.mem root va = virtToPhys s.mem root va := by
  obtain ⟨fd, fs₁, size, fs₂, hopen, hsize, hlen, hread⟩ := hstored
  have hlt : file.length < 2^64 := hlen ▸ size.isLt
  rw [Nat.add_comm] at hserve
  obtain ⟨bin, hnext, hserve⟩ := hserve file.length (by simp [blockSizes])
  have hbd : bin + file.length ≤ 2^56 := A.bounded _ _ _ hnext
  -- the file in memory
  obtain ⟨hk₀, ht₀⟩ := keeps_allocZeroed hw hnext
  obtain ⟨s₁, hs₁⟩ : ∃ t : Heap, t = Heap.blit ⟨s.mem.zero bin file.length, (bin, file.length) :: s.blocks⟩
    bin file := ⟨_, rfl⟩
  have hmem₁ : s₁.mem = (s.mem.zero bin file.length).blit bin file := by rw [hs₁]; rfl
  have hblk₁ : s₁.blocks = (bin, file.length) :: s.blocks := by rw [hs₁]; rfl
  have hT : Disjoint (Mem.range bin file.length) (area (tableTree s.mem 2 root)) :=
    hw.shielded bin file.length (A.aligned _ _ _ hnext) (A.fresh _ _ _ hnext)
  obtain ⟨hk₁, ht₁⟩ := hk₀.write (A.aligned _ _ _ hnext) (A.fresh _ _ _ hnext) (List.mem_cons_self ..)
    (ht₀.symm ▸ hT) hblk₁ (by rw [hmem₁]; exact Mem.blit_eqOn disjoint_compl_right)
  have hsafe : Safe s₁ root (Mem.range bin file.length) := by
    refine ⟨shielded_block (b := (bin, file.length)) (by rw [hblk₁]; exact List.mem_cons_self ..)
      (fun _ => id), ?_⟩
    rw [ht₁, ht₀]
    exact hT
  obtain ⟨segments, s', hload, hk', hplaced, hout⟩ := loadSegments_spec hlt
    (List.mem_cons_self .. : 4096 ∈ blockSizes file elf.programHeaders) elf.programHeaders s₁ hk₁.paged hvalid
    halias hsafe (fun i hi => by rw [hmem₁]; exact Mem.blit_add hi)
    (fun ph hph => List.mem_cons_of_mem _ (List.mem_cons_of_mem _ (List.mem_map_of_mem hph)))
    (hblk₁ ▸ hserve)
  refine ⟨⟨elf.eEntry, segments⟩, s', fs₂, ?_, hk₁.trans hk', fun ph hph => ?_, fun va hva => ?_⟩
  · have hfits : layoutFits file.length = true := decide_eq_true (by omega)
    have hbytes : s₁.mem.bytes bin file.length = file := by
      rw [hmem₁]
      exact Mem.bytes_blit _ _ _
    unfold loadExe
    rw [hopen, Option.bind_some]
    dsimp only
    rw [hsize]
    dsimp only
    rw [hlen, if_pos hfits, Heap.allocZeroed_of_next hnext, hread]
    dsimp only [Option.bind_some]
    rw [← hs₁, hbytes, hparse]
    dsimp only
    rw [hload]
    rfl
  · obtain ⟨buf, hp⟩ := hplaced ph hph
    exact ⟨buf, hp.earlier hk₁⟩
  · rw [hout va hva]
    exact virtToPhys_congr hw hk₁.paged (ht₁.trans ht₀) va

end program

/-- the bytes of the segments, where `virt_to_phys` finds them -/
def Image (m : Mem) (root : Nat) (file : List UInt8) (phs : List ProgramHeader) : Prop :=
  ∀ ph ∈ phs, ∀ i, i < ph.memsz →
    ∃ a, MapsTo m root (ph.pVaddr + BitVec.ofNat 64 i) a ∧ m a = ph.byte file i

section address
variable {ph : ProgramHeader} {n i : Nat} (hv : ph.Valid n) (hi : i < ph.memsz)
include hv hi

theorem toNat_add_vaddr : (ph.pVaddr + BitVec.ofNat 64 i).toNat = ph.vaddr + i := by
  have := hv.vm
  rw [BitVec.toNat_add, BitVec.toNat_ofNat]
  show (ph.vaddr + _) % 2^64 = _
  omega

theorem covers_add : ph.Covers (ph.pVaddr + BitVec.ofNat 64 i) ((ph.vaddr % 4096 + i) / 4096) := by
  unfold ProgramHeader.Covers pageNo
  rw [toNat_add_vaddr hv hi]
  show _ = (ph.vaddr / 4096 % 2^27 + _) % 2^27
  omega

/-- from a page boundary on, every byte is where it should be -/
theorem Placed.image {file : List UInt8} {root buf : Nat} {s s' : Heap}
    (h : Placed file root s s' ph buf) (hal : 4096 ∣ ph.vaddr) :
    ∃ a, MapsTo s'.mem root (ph.pVaddr + BitVec.ofNat 64 i) a ∧ s'.mem a = ph.byte file i := by
  refine ⟨buf + i, ?_, h.bytes i hi⟩
  have hq : (ph.vaddr % 4096 + i) / 4096 < ph.buffered := by
    unfold ProgramHeader.buffered pageCount
    omega
  have hmap := h.maps _ _ hq (covers_add hv hi)
  rw [toNat_add_vaddr hv hi] at hmap
  have hoff : buf + 4096 * ((ph.vaddr % 4096 + i) / 4096) + (ph.vaddr + i) % 4096 = buf + i := by omega
  exact hoff ▸ hmap

end address

/-- a page of a memory range that its buffer does not reach is not mapped by any segment -/
theorem uncovered {phs : List ProgramHeader} (hn : NoAlias phs) {ph : ProgramHeader} (hp : ph ∈ phs)
    {va : Word} {q : Nat} (hq : q < ph.pages) (hb : ph.buffered ≤ q) (hva : ph.Covers va q) :
    ∀ ph' ∈ phs, ∀ q', q' < ph'.buffered → ¬ ph'.Covers va q' := by
  intro ph' hp' q' hq' hva'
  have hlt := lt_of_lt_of_le hq' ph'.buffered_le_pages
  have he : (pageNo ph.pVaddr + q) % 2^27 = (pageNo ph'.pVaddr + q') % 2^27 := hva.symm.trans hva'
  by_cases hne : ph = ph'
  · subst hne
    have := hn.own ph hp
    omega
  · exact hn.pair.forall hp hp' hne q q' hq hlt he

theorem uint8_succ_ne (x : UInt8) : x + 1 ≠ x := by
  intro h
  have hn : (x.toNat + 1) % 256 = x.toNat := congrArg UInt8.toNat h
  have := x.toNat_lt
  omega

section misaligned
variable {file : List UInt8} {root : Nat} {s s' : Heap} {phs : List ProgramHeader} {ph : ProgramHeader}
  (hw : Paged s root) (hb : Backed s root) (hk : Keeps root s s')
  (hplaced : ∀ p ∈ phs, ∃ buf, Placed file root s s' p buf)
  (hout : ∀ va, (∀ p ∈ phs, ∀ q, q < p.buffered → ¬ p.Covers va q) →
    virtToPhys s'.mem root va = virtToPhys s.mem root va)
  (halias : NoAlias phs) (hph : ph ∈ phs) (hv : ph.Valid file.length) (hmem : ph.memsz ≠ 0)
  (hal : ¬ 4096 ∣ ph.vaddr)
include hw hb hk hplaced hout halias hph hv hmem hal

/-- when no byte besides the tables is the last byte of a segment off a page boundary, that byte is not
found: the walk leads behind the end of the buffer, or to a page that the loader has not mapped -/
theorem not_image_of_misaligned
    (hfree : ∀ a, a ∉ area (tableTree s.mem 2 root) → s.mem a ≠ ph.byte file (ph.memsz - 1)) :
    ¬ Image s'.mem root file phs := by
  intro himg
  have hlast : ph.memsz - 1 < ph.memsz := by omega
  obtain ⟨a, hmap, hbyte⟩ := himg ph hph _ hlast
  have hcov := covers_add hv hlast
  by_cases hq : (ph.vaddr % 4096 + (ph.memsz - 1)) / 4096 < ph.buffered
  · obtain ⟨buf, hp⟩ := hplaced ph hph
    have ha := hmap.unique (hp.maps _ _ hq hcov)
    rw [toNat_add_vaddr hv hlast] at ha
    have hj : a = buf + (ph.vaddr % 4096 + ph.memsz - 1) := by omega
    have hslack : ph.vaddr % 4096 + ph.memsz - 1 < 4096 * ph.buffered := by omega
    rw [hj, hp.slack _ (by omega) hslack] at hbyte
    exact hfree _ (Set.disjoint_left.mp (hw.disjoint_pages hp.aligned hp.apart)
      ⟨Nat.le_add_right _ _, Nat.add_lt_add_left hslack _⟩) hbyte
  · have hpages : (ph.vaddr % 4096 + (ph.memsz - 1)) / 4096 < ph.pages := by
      unfold ProgramHeader.pages pageCount
      rw [if_neg hmem]
      omega
    obtain ⟨w, hv₁, hwa⟩ := hmap
    rw [hout _ (uncovered halias hph hpages (Nat.le_of_not_lt hq) hcov)] at hv₁
    have hsafe := hb _ a ⟨w, hv₁, hwa⟩
    rw [(hk.safe _ hsafe).2 (Set.mem_singleton a)] at hbyte
    exact hfree a (Set.disjoint_left.mp hsafe.apart (Set.mem_singleton a)) hbyte

end misaligned

/-- **Program image after loading.**  With the rest of the memory unknown, the image is right if and only
if every segment with a byte starts on a page boundary. -/
theorem load_exe_image (A : PageAllocator) (B : BackingFileSystem σ)
    (parse : List UInt8 → Option Object) (path : String) (file : List UInt8) (elf : Elf)
    (fs : FileSystem σ) (f : Fixed) (s₀ s : Heap) (root : Nat)
    (hstored : Stored B fs path file) (hparse : parse file = some (.elf elf))
    (hvalid : ∀ ph ∈ elf.programHeaders, ph.Valid file.length)
    (halias : NoAlias elf.programHeaders)
    (hf : f.Reserved s₀) (hserve₀ : Heap.Serves A [4096] 10 s₀.blocks)
    (hsetup : setupPagetable A f s₀ = some (root, s))
    (hserve : Heap.Serves A (blockSizes file elf.programHeaders) (1 + requests elf.programHeaders)
      s.blocks) :
    (∀ m : Mem, Set.EqOn m s.mem (area (tableTree s.mem 2 root)) →
      ∃ info s' fs', loadExe A B parse path root ⟨m, s.blocks⟩ fs = some (.ok info, s', fs') ∧
        Image s'.mem root file elf.programHeaders) ↔
    ∀ ph ∈ elf.programHeaders, ph.memsz ≠ 0 → 4096 ∣ ph.vaddr := by
  obtain ⟨hw, hb⟩ : Paged s root ∧ Backed s root := by
    obtain ⟨root', s', hrun, h⟩ := setup_spec hf hserve₀
    cases Option.some.inj (hrun.symm.trans hsetup)
    exact h
  constructor
  · intro h ph hph hmem
    by_contra hal
    -- a memory in which every byte besides the tables differs from the last byte of the segment
    classical
    obtain ⟨m, hm, hfree⟩ : ∃ m : Mem, Set.EqOn m s.mem (area (tableTree s.mem 2 root)) ∧
        ∀ a, a ∉ area (tableTree s.mem 2 root) → m a ≠ ph.byte file (ph.memsz - 1) := by
      refine ⟨fun a => if a ∈ area (tableTree s.mem 2 root) then s.mem a
        else ph.byte file (ph.memsz - 1) + 1, fun a ha => if_pos ha, fun a ha => ?_⟩
      simp only [if_neg ha]
      exact uint8_succ_ne _
    obtain ⟨info, s₁, fs₁, hload, himg⟩ := h m hm
    obtain ⟨info', s₂, fs₂, hload', hk, hplaced, hout⟩ :=
      loadExe_spec (s := ⟨m, s.blocks⟩) hstored hparse hvalid halias hserve (hw.congr hm)
    cases Option.some.inj (hload.symm.trans hload')
    refine not_image_of_misaligned (hw.congr hm) (hb.congr hw hm) hk hplaced hout halias hph
      (hvalid ph hph) hmem hal ?_ himg
    rw [tableTree_congr hm]
    exact hfree
  · intro hal m hm
    obtain ⟨info, s₁, fs₁, hload, -, hplaced, -⟩ :=
      loadExe_spec (s := ⟨m, s.blocks⟩) hstored hparse hvalid halias hserve (hw.congr hm)
    refine ⟨info, s₁, fs₁, hload, fun ph hph i hi => ?_⟩
    obtain ⟨buf, hp⟩ := hplaced ph hph
    exact hp.image (hvalid ph hph) hi (hal ph hph (by omega))

/-! ## two files -/

/-- a file system that has one file at every path -/
def oneFile (file : List UInt8) : BackingFileSystem Unit :=
  ⟨fun len _ offset b => some (.ok ((file.drop offset.toNat).take len), b),
    fun _ b => some (.ok (BitVec.ofNat 64 file.length), b)⟩

/-- a little-endian field of a file -/
def field (file : List UInt8) (start len : Nat) : Word :=
  BitVec.ofNat 64 (((file.drop start).take len).foldr (fun b n => b.toNat + 256 * n) 0)

/-- the program headers of an ELF64 file, as the ELF specification lays them out -/
def parseElf (file : List UInt8) : Option Object :=
  if file.take 5 = [0x7f, 0x45, 0x4c, 0x46, 2] then
    some (.elf ⟨field file 24 8, (List.range (field file 56 2).toNat).map fun k =>
      let ph := (field file 32 8).toNat + k * (field file 54 2).toNat
      ⟨field file (ph + 16) 8, field file (ph + 40) 8, field file (ph + 8) 8, field file (ph + 32) 8⟩⟩)
  else some .other

/-- an executable of one segment: the 16 bytes from byte 16 of the file on, at `0x10000 + vaddr` -/
def program (vaddr : UInt8) : List UInt8 :=
  [0x7f, 0x45, 0x4c, 0x46, 2, 1, 1, 0, 0, 0, 0, 0, 0, 0, 0, 0,
    2, 0, 0xf3, 0, 1, 0, 0, 0, vaddr, 0, 1, 0, 0, 0, 0, 0,
    64, 0, 0, 0, 0, 0, 0, 0, 0, 0, 0, 0, 0, 0, 0, 0,
    0, 0, 0, 0, 64, 0, 56, 0, 1, 0, 0, 0, 0, 0, 0, 0,
    1, 0, 0, 0, 7, 0, 0, 0, 16, 0, 0, 0, 0, 0, 0, 0,
    vaddr, 0, 1, 0, 0, 0, 0, 0, vaddr, 0, 1, 0, 0, 0, 0, 0,
    16, 0, 0, 0, 0, 0, 0, 0, 16, 0, 0, 0, 0, 0, 0, 0,
    0, 16, 0, 0, 0, 0, 0, 0]

def programHeader (vaddr : Word) : ProgramHeader := ⟨0x10000#64 + vaddr, 16, 16, 16⟩

def pages : PageAllocator := Allocator.bump 0x1000 (2^56) pageSize_pos

def kernelPages : Fixed := ⟨0x80001000#64, 0x80100000#64, 0x80001080#64⟩

/-- zero memory behind two megabytes of kernel -/
def freshHeap : Heap := ⟨fun _ => 0, [(0x80000000, 0x200000)]⟩

/-- the first byte of the segment at `0x10010`, after loading, is a byte behind its buffer -/
theorem load_exe_misaligned : ∃ root s info s' fs',
    setupPagetable pages kernelPages freshHeap = some (root, s) ∧
    loadExe pages (oneFile (program 0x10)) parseElf "/bin/main" root s (FileSystem.new ())
      = some (.ok info, s', fs') ∧
    ¬ Image s'.mem root (program 0x10) [programHeader 0x10] := by
  have hrun : ((setupPagetable pages kernelPages freshHeap).bind fun r =>
      (loadExe pages (oneFile (program 0x10)) parseElf "/bin/main" r.1 r.2 (FileSystem.new ())).bind
        fun x => (virtToPhys x.2.1.mem r.1 0x10010#64).bind fun pa => pa.map fun w =>
          (x.1.isOk, x.2.1.mem w.toNat)) = some (true, 0) := by
    decide +kernel
  obtain ⟨⟨root, s⟩, hsetup, hrun⟩ := Option.bind_eq_some_iff.mp hrun
  obtain ⟨⟨res, s', fs'⟩, hload, hrun⟩ := Option.bind_eq_some_iff.mp hrun
  obtain ⟨pa, hpa, hrun⟩ := Option.bind_eq_some_iff.mp hrun
  obtain ⟨w, rfl, hres⟩ := Option.map_eq_some_iff.mp hrun
  cases res with
  | error e => cases hres
  | ok info =>
    refine ⟨root, s, info, s', fs', hsetup, hload, fun h => ?_⟩
    obtain ⟨a, hmap, hbyte⟩ := h _ (List.mem_singleton.mpr rfl) 0 (by decide)
    have ha := hmap.unique ⟨w, hpa, rfl⟩
    have hzero : s'.mem w.toNat = 0 := congrArg Prod.snd hres
    rw [ha, hzero] at hbyte
    exact absurd hbyte (by decide)

theorem stored_oneFile {file : List UInt8} (h : file.length < 2^64) (path : String) :
    Stored (oneFile file) (FileSystem.new ()) path file := by
  have hlen : (BitVec.ofNat 64 file.length).toNat = file.length := by
    rw [BitVec.toNat_ofNat]
    exact Nat.mod_eq_of_lt h
  have hread : (oneFile file).readAt file.length path 0 () = some (.ok file, ()) := by
    show some (Except.ok ((file.drop 0).take file.length), ()) = _
    rw [List.drop_zero, List.take_length]
  exact ⟨3, _, BitVec.ofNat 64 file.length, _, rfl, rfl, hlen, FileSystem.read_ok rfl hread⟩

theorem kernelPages_reserved : kernelPages.Reserved freshHeap := by
  have hin : ∀ w ∈ [kernelPages.trampoline, kernelPages.trapFrame, kernelPages.killme],
      0x80000000 ≤ 4096 * (w.toNat / 4096) ∧ 4096 * (w.toNat / 4096) + 4096 ≤ 0x80000000 + 0x200000 := by
    simp [kernelPages]
  refine ⟨fun w hw => ?_, fun w hw => ?_⟩
  · have := hin w hw
    omega
  · exact ⟨(0x80000000, 0x200000), List.mem_singleton.mpr rfl, Mem.range_mono (hin w hw).1 (hin w hw).2⟩

/-- the same segment at `0x10000` is loaded right -/
theorem load_exe_image_example : ∃ root s,
    setupPagetable pages kernelPages freshHeap = some (root, s) ∧
    ∀ m : Mem, Set.EqOn m s.mem (area (tableTree s.mem 2 root)) →
      ∃ info s' fs', loadExe pages (oneFile (program 0)) parseElf "/bin/main" root ⟨m, s.blocks⟩
          (FileSystem.new ()) = some (.ok info, s', fs') ∧
        Image s'.mem root (program 0) [programHeader 0] := by
  have hserve₀ : Heap.Serves pages [4096] 10 freshHeap.blocks :=
    Heap.serves_bump (n := 4096) (by decide) 10 (by decide)
  obtain ⟨root, s, hsetup, -⟩ := setup_spec kernelPages_reserved hserve₀
  refine ⟨root, s, hsetup, ?_⟩
  have htop : ((setupPagetable pages kernelPages freshHeap).map fun r => Allocator.top r.2.blocks)
      = some 0x8020c000 := by
    decide
  rw [hsetup] at htop
  have htop : Allocator.top s.blocks = 0x8020c000 := Option.some.inj htop
  have hserve : Heap.Serves pages (blockSizes (program 0) [programHeader 0])
      (1 + requests [programHeader 0]) s.blocks := by
    refine Heap.serves_bump (n := 4096) (by decide +kernel) _ ?_
    rw [htop]
    decide
  refine (load_exe_image pages (oneFile (program 0)) parseElf "/bin/main" (program 0)
    ⟨0x10000#64, [programHeader 0]⟩ (FileSystem.new ()) kernelPages freshHeap s root
    (stored_oneFile (by decide) _) (by decide) ?_ ⟨?_, List.pairwise_singleton ..⟩
    kernelPages_reserved hserve₀ hsetup hserve).mpr ?_
  · intro ph hph
    rw [List.mem_singleton.mp hph]
    exact ⟨by decide, by decide, by decide⟩
  · decide
  · decide

end Citron.Loader
