import Citron.Lib.Trace
import Citron.Loader.Image
import Citron.Paging.Leaf

/-!
# The kernel's pages of a process

`setup_pagetable` maps the trampoline and the trap frame for the kernel only.  Afterwards a program file and
the program itself choose addresses to be mapped: `load_exe` maps every segment at its `p_vaddr`, and
`sys_map_window` of `src/arch/riscv64/syscall.rs` maps the frame of a window at an argument of the call.
Neither looks at where the kernel's pages are.

* `sysMapWindow`         the system call;
* `Request`              the two requests, and what else the kernel does between them;
* `Request.Spares`       a request whose pages are not the kernel's, and that the allocator can serve;
* `kernel_pages_kept`    requests that spare the kernel's pages leave them as `setup_pagetable` has mapped them.
-/

namespace Citron.Loader
open Paging Fs Word

/-! ## `sys_map_window` -/

structure WindowFrame where
  buffer : Word
  width : BitVec 32
  height : BitVec 32
deriving DecidableEq, Repr

/-- `width * 4 * height`, in 32 bits -/
def WindowFrame.size (f : WindowFrame) : Word := (f.width * 4#32 * f.height).setWidth 64

/-- the objects of the arena -/
inductive ArenaObject where
  | mouse
  | window (frame : WindowFrame)
  | desktop
deriving DecidableEq, Repr

def windowFlags : Word := EntryBits.R.val ||| EntryBits.W.val ||| EntryBits.U.val

def sysMapWindow (A : PageAllocator) (arena : Word → Option ArenaObject) (pageTable : Nat) (windowId vaddr : Word)
    (s : Heap) : Option (Word × Heap) :=
  match arena windowId with
  | none => some (1, s)
  | some (.window frame) =>
    (mapRange A pageTable vaddr frame.buffer frame.size windowFlags s).map fun s => (0, s)
  -- the downcast to a window fails
  | some _ => none

/-! ## requests -/

/-- what is read fits the slice that it is read into -/
def Bounded {σ : Type} (B : BackingFileSystem σ) : Prop := ∀ len path offset b bs b',
  B.readAt len path offset b = some (.ok bs, b') → bs.length ≤ len

inductive Request (σ : Type) where
  | loadExe (B : BackingFileSystem σ) (hB : Bounded B) (parse : List UInt8 → Option Object) (path : String)
      (fs : FileSystem σ)
  | mapWindow (arena : Word → Option ArenaObject) (windowId vaddr : Word)
  /-- everything else that happens to the memory -/
  | other (s' : Heap)

variable {σ : Type}

/-- the memory after a request on the page table at `root` -/
def Request.step (A : PageAllocator) (root : Nat) : Request σ → Heap → Option Heap
  | .loadExe B _ parse path fs, s => (Loader.loadExe A B parse path root s fs).map fun (_, s, _) => s
  | .mapWindow arena windowId vaddr, s => (sysMapWindow A arena root windowId vaddr s).map Prod.snd
  | .other s', _ => some s'

/-- the turns of the loop of `map_range` -/
def rangePages (paddr size : Word) : Nat :=
  let memaddr := paddr &&& ~~~ (4096#64 - 1#64)
  ((alignVal (memaddr + size) 12 - memaddr) / 4096#64).toNat

/-- none of `n` pages from the one of `vaddr` on is, for the walk, the page of the trampoline or the trap frame -/
def Clear (vaddr : Word) (n : Nat) : Prop := ∀ q, q < n →
  (pageNo vaddr + q) % 2^27 ≠ pageNo trampoline ∧ (pageNo vaddr + q) % 2^27 ≠ pageNo trapframe

/-- the bytes that `load_exe` has parsed: what it reads of the file, and zeroes up to its size -/
def fileBytes (B : BackingFileSystem σ) (path : String) (fs : FileSystem σ) : Option (List UInt8) :=
  match fs.openFile B path with
  | some (.ok fd, fs) =>
    match fs.getFileSize fd with
    | .ok size =>
      match fs.read B fd size.toNat with
      | some (.ok bs, _) => some (bs ++ List.replicate (size.toNat - bs.length) 0)
      | _ => none
    | .error _ => none
  | _ => none

/-- the headers that `load_exe` goes through -/
def headers (parse : List UInt8 → Option Object) (bytes : List UInt8) : List ProgramHeader :=
  match parse bytes with
  | some (.elf elf) => elf.programHeaders
  | _ => []

/-- the pages that `load_exe` maps for a header -/
def ProgramHeader.mapped (ph : ProgramHeader) : Nat := pageCount ph.vmRange.len.toNat

/-- the blocks and tables that the headers can need -/
def demand : List ProgramHeader → Nat
  | [] => 0
  | ph :: phs => 1 + tables (pageNo ph.pVaddr) ph.mapped + demand phs

/-- the sizes of the blocks asked for -/
def demandSizes (bytes : List UInt8) (phs : List ProgramHeader) : List Nat :=
  4096 :: bytes.length :: phs.map fun ph => ph.vmRange.len.toNat

/-- **A request that spares the kernel's pages**, in the memory `s`. -/
def Request.Spares (A : PageAllocator) (root : Nat) (s : Heap) : Request σ → Prop
  | .loadExe B _ parse path fs => ∀ bytes, fileBytes B path fs = some bytes →
    (∀ ph ∈ headers parse bytes, Clear ph.pVaddr ph.mapped ∧ ph.fileRange.len.toNat ≤ ph.vmRange.len.toNat) ∧
    Heap.Serves A (demandSizes bytes (headers parse bytes)) (1 + demand (headers parse bytes)) s.blocks
  | .mapWindow arena windowId vaddr => ∀ frame, arena windowId = some (.window frame) →
    Clear vaddr (rangePages frame.buffer frame.size) ∧
    Heap.Serves A [4096] (tables (pageNo vaddr) (rangePages frame.buffer frame.size)) s.blocks
  -- the tables are the kernel's own memory
  | .other s' => Set.EqOn s'.mem s.mem (area (tableTree s.mem 2 root)) ∧
    ∀ p, (tableTree s.mem 2 root).Has p → (p, 4096) ∈ s'.blocks

/-! ## what a request leaves alone -/

theorem leafOf_congr {root : Nat} {m m' : Mem} (h : tableTree m' 2 root = tableTree m 2 root) (va : Word) :
    leafOf m' root va = leafOf m root va := by
  unfold leafOf
  rw [h]

/-- the buffer of a segment -/
def Segment.block (seg : Segment) : Block := (seg.ptr, seg.layout)

section segments
variable {A : PageAllocator} {root bin size : Nat} {sizes : List Nat} (h4 : 4096 ∈ sizes)
include h4

/-- one turn of the loop over the headers up to the copy, and what a copy that fits the buffer leaves -/
theorem segment_mapped {s : Heap} {ph : ProgramHeader} {k : Nat} (hw : Paged s root)
    (hm : ph.vmRange.len.toNat ∈ sizes)
    (hserve : Heap.Serves A sizes (1 + tables (pageNo ph.pVaddr) ph.mapped + k) s.blocks) :
    ∃ buf s₁ s₂ ts, s.allocZeroed A ph.vmRange.len.toNat = (buf, s₁) ∧ buf + ph.vmRange.len.toNat ≤ 2^56 ∧
      mapRange A root ph.vmRange.start (BitVec.ofNat 64 buf) ph.vmRange.len segmentFlags s₁ = some s₂ ∧
      ∀ bs : List UInt8, bs.length ≤ ph.vmRange.len.toNat →
        Grows root s (s₂.blit buf bs) ts [(buf, ph.vmRange.len.toNat)] ∧
        (∀ va, (∀ q, q < ph.mapped → pageNo va ≠ (pageNo ph.pVaddr + q) % 2^27) →
          leafOf (s₂.blit buf bs).mem root va = leafOf s.mem root va) ∧
        Heap.Serves A sizes k (s₂.blit buf bs).blocks := by
  -- the buffer
  rw [show 1 + tables (pageNo ph.pVaddr) ph.mapped + k = k + tables (pageNo ph.pVaddr) ph.mapped + 1 by omega] at hserve
  obtain ⟨buf, hnext, hserve⟩ := hserve _ hm
  have hal : 4096 ∣ buf := A.aligned _ _ _ hnext
  have hbd : buf + ph.vmRange.len.toNat ≤ 2^56 := A.bounded _ _ _ hnext
  obtain ⟨s₁, hs₁⟩ : ∃ t : Heap, t = ⟨s.mem.zero buf ph.vmRange.len.toNat, (buf, ph.vmRange.len.toNat) :: s.blocks⟩ :=
    ⟨_, rfl⟩
  have hblk₁ : (buf, ph.vmRange.len.toNat) ∈ s₁.blocks := by rw [hs₁]; exact List.mem_cons_self ..
  obtain ⟨hk₁, ht₁⟩ : Keeps root s s₁ ∧ tableTree s₁.mem 2 root = tableTree s.mem 2 root := by
    rw [hs₁]
    exact keeps_allocZeroed hw hnext
  have hsafe₁ : Safe s₁ root (Mem.range buf (4096 * ph.mapped)) := safe_pages hw hnext hblk₁ ht₁
  -- its pages
  have hbuf : (BitVec.ofNat 64 buf).toNat = buf := by
    rw [BitVec.toNat_ofNat]
    omega
  have hserve₁ : Heap.Serves A sizes (k + tables (pageNo ph.pVaddr) ph.mapped) s₁.blocks := by
    rw [hs₁]
    exact hserve
  obtain ⟨s₂, ps, hmap, hE, hps, hr⟩ := mapPages_leaf (show segmentFlags &&& 0xe#64 ≠ 0#64 by decide) ph.mapped
    (ph.pVaddr &&& ~~~ lowMask 12) (BitVec.ofNat 64 buf) hk₁.paged (by
      rw [pageNo_floor]
      exact hserve₁.mono (List.cons_subset.mpr ⟨h4, List.nil_subset _⟩) (by omega))
  rw [pageNo_floor] at hps
  have hrange : mapRange A root ph.vmRange.start (BitVec.ofNat 64 buf) ph.vmRange.len segmentFlags s₁ = some s₂ := by
    rw [mapRange_eq A root _ (by rw [hbuf]; exact hal) (by rw [hbuf]; exact hbd)]
    exact hmap
  have hk₂ := hE.keeps hk₁.paged
  have hg := (hk₁.grows (by rw [hs₁]) (A.fresh _ _ _ hnext) ht₁).trans (hE.grows hk₁.paged)
  rw [List.append_nil, List.nil_append] at hg
  obtain ⟨hsafe₂, -⟩ := hk₂.safe _ hsafe₁
  refine ⟨buf, s₁, s₂, ps, hs₁ ▸ Heap.allocZeroed_of_next hnext, hbd, hrange, fun bs hbs => ?_⟩
  -- the copy
  have hin : Mem.range buf ph.vmRange.len.toNat ⊆ Mem.range buf (4096 * ph.mapped) := by
    refine Mem.range_mono (Nat.le_refl _) ?_
    unfold ProgramHeader.mapped pageCount
    omega
  have hcopy : Set.EqOn (s₂.blit buf bs).mem s₂.mem (Mem.range buf ph.vmRange.len.toNat)ᶜ := by
    refine Mem.blit_eqOn (Set.disjoint_compl_right_iff_subset.mpr ?_)
    exact Mem.range_mono (Nat.le_refl _) (Nat.add_le_add_left hbs _)
  have hblk₃ : (s₂.blit buf bs).blocks = s₂.blocks := rfl
  obtain ⟨hk₃, ht₃⟩ := (hk₁.trans hk₂).write hal (A.fresh _ _ _ hnext) (hk₂.blocks _ hblk₁)
    (hsafe₂.apart.mono_left hin) hblk₃ hcopy
  refine ⟨⟨hk₃, hg.count, hg.tidy, fun p hp => ?_⟩, fun va hva => ?_, ?_⟩
  · rw [ht₃] at hp
    exact hg.pages p hp
  · rw [leafOf_congr ht₃, hr.aside va (by rw [pageNo_floor]; exact hva), leafOf_congr ht₁]
  · show Heap.Serves A sizes k s₂.blocks
    rw [hE.blocks]
    exact hE.fresh.serves h4 (hserve₁.mono (List.Subset.refl _) (by omega))

/-- one turn of the loop over the headers, for any header whose file range fits its buffer -/
theorem segment_leaf {s : Heap} {ph : ProgramHeader} {k : Nat} (hw : Paged s root)
    (hfile : ph.fileRange.len.toNat ≤ ph.vmRange.len.toNat) (hm : ph.vmRange.len.toNat ∈ sizes)
    (hserve : Heap.Serves A sizes (1 + tables (pageNo ph.pVaddr) ph.mapped + k) s.blocks) {phs : List ProgramHeader}
    {r : List Segment × Heap} (hload : loadSegments A root bin size (ph :: phs) s = some r) :
    ∃ s' seg segments ts, loadSegments A root bin size phs s' = some (segments, r.2) ∧ r.1 = seg :: segments ∧
      Grows root s s' ts [seg.block] ∧
      (∀ va, (∀ q, q < ph.mapped → pageNo va ≠ (pageNo ph.pVaddr + q) % 2^27) →
        leafOf s'.mem root va = leafOf s.mem root va) ∧
      Heap.Serves A sizes k s'.blocks := by
  obtain ⟨buf, s₁, s₂, ts, halloc, -, hmap, hcopy⟩ := segment_mapped h4 hw hm hserve
  unfold loadSegments at hload
  simp only at hload
  split at hload
  · rw [halloc] at hload
    dsimp only at hload
    rw [hmap, Option.bind_some] at hload
    split at hload
    · obtain ⟨⟨segments, s'⟩, hrest, rfl⟩ := Option.map_eq_some_iff.mp hload
      obtain ⟨hg, hleaf, hserve⟩ := hcopy (s₂.mem.bytes (bin + ph.fileRange.start.toNat) ph.fileRange.len.toNat)
        (by rw [Mem.length_bytes]; exact hfile)
      exact ⟨_, _, segments, ts, hrest, rfl, hg, hleaf, hserve⟩
    · cases hload
  · cases hload

/-- the loop -/
theorem loadSegments_leaf (phs : List ProgramHeader) : ∀ (s : Heap) (r : List Segment × Heap), Paged s root →
    (∀ ph ∈ phs, ph.fileRange.len.toNat ≤ ph.vmRange.len.toNat) → (∀ ph ∈ phs, ph.vmRange.len.toNat ∈ sizes) →
    Heap.Serves A sizes (demand phs) s.blocks → loadSegments A root bin size phs s = some r →
    (∃ ts, Grows root s r.2 ts (r.1.map Segment.block).reverse) ∧
      ∀ va, (∀ ph ∈ phs, ∀ q, q < ph.mapped → pageNo va ≠ (pageNo ph.pVaddr + q) % 2^27) →
      leafOf r.2.mem root va = leafOf s.mem root va := by
  induction phs with
  | nil =>
    intro s r hw _ _ _ h
    cases h
    exact ⟨⟨[], Grows.refl hw⟩, fun _ _ => rfl⟩
  | cons ph phs ih =>
    intro s r hw hfile hsizes hserve h
    obtain ⟨hf, hfile⟩ := List.forall_mem_cons.mp hfile
    obtain ⟨hm, hsizes⟩ := List.forall_mem_cons.mp hsizes
    obtain ⟨s₁, seg, segments, ts₁, hrest, hr, hg₁, hleaf₁, hserve₁⟩ := segment_leaf h4 hw hf hm hserve h
    obtain ⟨⟨ts, hg⟩, hleaf'⟩ := ih s₁ _ hg₁.keeps.paged hfile hsizes hserve₁ hrest
    refine ⟨⟨ts ++ ts₁, ?_⟩, fun va hva => ?_⟩
    · rw [hr, List.map_cons, List.reverse_cons]
      exact hg₁.trans hg
    · obtain ⟨hv, hva⟩ := List.forall_mem_cons.mp hva
      rw [hleaf' va hva, hleaf₁ va hv]

end segments

/-- the kernel's two pages as `setup_pagetable` maps them -/
structure Pinned (f : Fixed) (root : Nat) (s : Heap) : Prop where
  paged : Paged s root
  trampolineLeaf : leafOf s.mem root trampoline = some (leafEntry f.trampoline (EntryBits.R.val ||| EntryBits.X.val))
  trapframeLeaf : leafOf s.mem root trapframe = some (leafEntry f.trapFrame (EntryBits.R.val ||| EntryBits.W.val))

/-- tables in good order, with the leaves of the two pages as they were -/
theorem Pinned.leaves {f : Fixed} {root : Nat} {s s' : Heap} (h : Pinned f root s) (hw : Paged s' root)
    (hleaf : ∀ va, va = trampoline ∨ va = trapframe → leafOf s'.mem root va = leafOf s.mem root va) :
    Pinned f root s' :=
  ⟨hw, (hleaf _ (.inl rfl)).trans h.trampolineLeaf, (hleaf _ (.inr rfl)).trans h.trapframeLeaf⟩

theorem Clear.notMem {vaddr va : Word} {n : Nat} (h : Clear vaddr n) (hva : va = trampoline ∨ va = trapframe) :
    ∀ q, q < n → pageNo va ≠ (pageNo vaddr + q) % 2^27 := by
  intro q hq he
  rcases hva with rfl | rfl
  · exact (h q hq).1 he.symm
  · exact (h q hq).2 he.symm

/-- what the parser is given -/
theorem bytes_blit_zero {m : Mem} {bin n : Nat} {bs : List UInt8} (h : bs.length ≤ n) :
    ((m.zero bin n).blit bin bs).bytes bin n = bs ++ List.replicate (n - bs.length) 0 := by
  apply List.ext_getElem
  · rw [Mem.length_bytes, List.length_append, List.length_replicate]
    omega
  · intro i h₁ h₂
    have hi : i < n := by rwa [Mem.length_bytes] at h₁
    rw [← List.getD_eq_getElem _ 0 h₁, Mem.bytes_getD hi]
    by_cases hb : i < bs.length
    · rw [Mem.blit_add hb, List.getElem_append_left hb, List.getD_eq_getElem _ _ hb]
    · rw [Mem.blit_of_notMem (by rw [Mem.mem_range]; omega), Mem.zero_of_mem (Mem.mem_range.mpr (by omega)),
        List.getElem_append_right (by omega), List.getElem_replicate]

theorem Bounded.read {B : BackingFileSystem σ} (hB : Bounded B) {fs fs' : FileSystem σ} {fd : Word} {len : Nat}
    {bs : List UInt8} (h : fs.read B fd len = some (.ok bs, fs')) : bs.length ≤ len := by
  unfold FileSystem.read at h
  split at h
  · cases h
  · obtain ⟨⟨r, b⟩, hread, he⟩ := Option.map_eq_some_iff.mp h
    cases r with
    | error e => cases he
    | ok bs' =>
      cases he
      exact hB _ _ _ _ _ _ hread

/-- what `load_exe` may have to allocate for a file, with buffers that its headers fit -/
def Loadable (A : PageAllocator) (parse : List UInt8 → Option Object) (bytes : List UInt8) (s : Heap) : Prop :=
  (∀ ph ∈ headers parse bytes, ph.fileRange.len.toNat ≤ ph.vmRange.len.toNat) ∧
  Heap.Serves A (demandSizes bytes (headers parse bytes)) (1 + demand (headers parse bytes)) s.blocks

/-- the tables and blocks after `load_exe`, with the leaves that no header is mapped to as they were -/
def Grown (parse : List UInt8 → Option Object) (root : Nat) (s s' : Heap) (res : Except Error ExecutableInfo)
    (bytes : List UInt8 → Prop) : Prop :=
  (∃ ts bs, Grows root s s' ts bs ∧
    ∀ info, res = .ok info → ∀ b, (info.segmentBuffers.map Segment.block).count b ≤ bs.count b) ∧
  ∀ va, (∀ l, bytes l → ∀ ph ∈ headers parse l, ∀ q, q < ph.mapped → pageNo va ≠ (pageNo ph.pVaddr + q) % 2^27) →
    leafOf s'.mem root va = leafOf s.mem root va

/-- nothing is loaded -/
theorem grown_error {parse : List UInt8 → Option Object} {root : Nat} {s s' : Heap} {ts : List Nat} {bs : List Block}
    {bytes : List UInt8 → Prop} (hg : Grows root s s' ts bs) (ht : tableTree s'.mem 2 root = tableTree s.mem 2 root)
    (e : Error) : Grown parse root s s' (.error e) bytes :=
  ⟨⟨ts, bs, hg, nofun⟩, fun va _ => leafOf_congr ht va⟩

/-- a block of zeroes, when there is one -/
theorem grows_allocZeroed {root : Nat} {s : Heap} (hw : Paged s root) (A : PageAllocator) (n : Nat) :
    (∃ bs, Grows root s (s.allocZeroed A n).2 [] bs) ∧
      tableTree (s.allocZeroed A n).2.mem 2 root = tableTree s.mem 2 root := by
  cases hnext : A.next s.blocks n with
  | none =>
    unfold Heap.allocZeroed
    rw [hnext]
    exact ⟨⟨[], Grows.refl hw⟩, rfl⟩
  | some p =>
    rw [Heap.allocZeroed_of_next hnext]
    obtain ⟨hk, ht⟩ := keeps_allocZeroed hw hnext
    exact ⟨⟨[(p, n)], hk.grows rfl (A.fresh _ _ _ hnext) ht⟩, ht⟩

/-- the file in a block of its size -/
theorem grows_file {root n bin : Nat} {s : Heap} {A : PageAllocator} {bs : List UInt8} (hw : Paged s root)
    (hlen : bs.length ≤ n) (hnext : A.next s.blocks n = some bin) {s₁ : Heap}
    (hs₁ : s₁ = Heap.blit ⟨s.mem.zero bin n, (bin, n) :: s.blocks⟩ bin bs) :
    Grows root s s₁ [] [(bin, n)] ∧ tableTree s₁.mem 2 root = tableTree s.mem 2 root ∧
      s₁.mem.bytes bin n = bs ++ List.replicate (n - bs.length) 0 := by
  obtain ⟨hk₀, ht₀⟩ := keeps_allocZeroed hw hnext
  have hT : Disjoint (Mem.range bin n) (area (tableTree s.mem 2 root)) :=
    hw.shielded bin n (A.aligned _ _ _ hnext) (A.fresh _ _ _ hnext)
  have hcopy : Set.EqOn s₁.mem (s.mem.zero bin n) (Mem.range bin n)ᶜ := by
    rw [hs₁]
    refine Mem.blit_eqOn (Set.disjoint_compl_right_iff_subset.mpr ?_)
    exact Mem.range_mono (Nat.le_refl _) (Nat.add_le_add_left hlen _)
  obtain ⟨hk₁, ht₁⟩ := hk₀.write (A.aligned _ _ _ hnext) (A.fresh _ _ _ hnext) (List.mem_cons_self ..)
    (ht₀.symm ▸ hT) (by rw [hs₁]; rfl) hcopy
  refine ⟨hk₁.grows (by rw [hs₁]; rfl) (A.fresh _ _ _ hnext) (ht₁.trans ht₀), ht₁.trans ht₀, ?_⟩
  rw [hs₁]
  exact bytes_blit_zero hlen

section load
variable {A : PageAllocator} {root : Nat} {s : Heap} {parse : List UInt8 → Option Object} {path : String}

/-- `load_exe` once it has read the file -/
theorem loadParsed_grows {bs : List UInt8} {size : Word} {fs : FileSystem σ}
    {r : Except Error ExecutableInfo × Heap × FileSystem σ} {bytes : List UInt8 → Prop} (hw : Paged s root)
    (hlen : bs.length ≤ size.toNat) (hbytes : bytes (bs ++ List.replicate (size.toNat - bs.length) 0))
    (hok : Loadable A parse (bs ++ List.replicate (size.toNat - bs.length) 0) s)
    (h : (let s₁ := (s.allocZeroed A size.toNat).2.blit (s.allocZeroed A size.toNat).1 bs
      match parse (s₁.mem.bytes (s.allocZeroed A size.toNat).1 size.toNat) with
      | none => none
      | some .other => some (.error (.msg (path ++ " is not an elf file")), s₁, fs)
      | some (.elf elf) =>
        (loadSegments A root (s.allocZeroed A size.toNat).1 size.toNat elf.programHeaders s₁).map
          fun (segments, s) => (.ok ⟨elf.eEntry, segments⟩, s, fs)) = some r) :
    Grown parse root s r.2.1 r.1 bytes := by
  obtain ⟨l, hl⟩ : ∃ l, l = bs ++ List.replicate (size.toNat - bs.length) 0 := ⟨_, rfl⟩
  rw [← hl] at hok hbytes
  obtain ⟨hph, hserve⟩ := hok
  have hsize : l.length = size.toNat := by
    rw [hl, List.length_append, List.length_replicate]
    omega
  -- the file in memory
  obtain ⟨bin, hnext, hserve⟩ := (Nat.add_comm 1 _ ▸ hserve) l.length (by simp [demandSizes])
  rw [hsize] at hnext hserve
  rw [Heap.allocZeroed_of_next hnext] at h
  obtain ⟨s₁, hs₁⟩ : ∃ t : Heap, t = Heap.blit ⟨s.mem.zero bin size.toNat, (bin, size.toNat) :: s.blocks⟩ bin bs :=
    ⟨_, rfl⟩
  obtain ⟨hg₁, ht₁, hparse⟩ := grows_file hw hlen hnext hs₁
  rw [← hl] at hparse
  dsimp only at h
  rw [← hs₁, hparse] at h
  cases hp : parse l with
  | none =>
    rw [hp] at h
    cases h
  | some obj =>
    rw [hp] at h
    cases obj with
    | other =>
      cases h
      exact grown_error hg₁ ht₁ _
    | elf elf =>
      have hheaders : headers parse l = elf.programHeaders := by
        unfold headers
        rw [hp]
      rw [hheaders] at hph hserve
      obtain ⟨⟨segments, s₂⟩, hload, rfl⟩ := Option.map_eq_some_iff.mp h
      have hsizes : ∀ ph ∈ elf.programHeaders, ph.vmRange.len.toNat ∈ demandSizes l elf.programHeaders :=
        fun ph hm => List.mem_cons_of_mem _ (List.mem_cons_of_mem _
          (List.mem_map_of_mem (f := fun ph : ProgramHeader => ph.vmRange.len.toNat) hm))
      obtain ⟨⟨ts, hg⟩, hleaf⟩ := loadSegments_leaf (List.mem_cons_self : 4096 ∈ demandSizes l elf.programHeaders)
        elf.programHeaders s₁ _ hg₁.keeps.paged hph hsizes (by rw [hs₁]; exact hserve) hload
      refine ⟨⟨_, _, hg₁.trans hg, fun info hi b => ?_⟩, fun va hva => ?_⟩
      · cases hi
        rw [List.count_append, List.count_reverse]
        exact Nat.le_add_right _ _
      · rw [hleaf va (hheaders ▸ hva l hbytes), leafOf_congr ht₁]

theorem loadExe_grows {B : BackingFileSystem σ} (hB : Bounded B) {fs : FileSystem σ}
    {r : Except Error ExecutableInfo × Heap × FileSystem σ} (hw : Paged s root)
    (hok : ∀ bytes, fileBytes B path fs = some bytes → Loadable A parse bytes s)
    (hload : Loader.loadExe A B parse path root s fs = some r) :
    Grown parse root s r.2.1 r.1 (fun bytes => fileBytes B path fs = some bytes) := by
  unfold Loader.loadExe at hload
  obtain ⟨⟨ro, fs₂⟩, hopen, hload⟩ := Option.bind_eq_some_iff.mp hload
  cases ro with
  | error e =>
    cases hload
    exact grown_error (Grows.refl hw) rfl e
  | ok fd =>
    dsimp only at hload
    cases hsize : fs₂.getFileSize fd with
    | error e =>
      rw [hsize] at hload
      cases hload
      exact grown_error (Grows.refl hw) rfl e
    | ok size =>
      rw [hsize] at hload
      dsimp only at hload
      split at hload
      · obtain ⟨⟨rr, fs₃⟩, hread, hload⟩ := Option.bind_eq_some_iff.mp hload
        cases rr with
        | error e =>
          cases hload
          obtain ⟨⟨bs, hg⟩, ht⟩ := grows_allocZeroed hw A size.toNat
          exact grown_error hg ht e
        | ok bs =>
          have hlen : bs.length ≤ size.toNat := hB.read hread
          have hbytes : fileBytes B path fs = some (bs ++ List.replicate (size.toNat - bs.length) 0) := by
            unfold fileBytes
            rw [hopen]
            dsimp only
            rw [hsize]
            dsimp only
            rw [hread]
          exact loadParsed_grows hw hlen hbytes (hok _ hbytes) hload
      · cases hload

end load

/-- tables that nothing is written to, in live blocks -/
theorem Pinned.untouched {f : Fixed} {root : Nat} {s s' : Heap} (h : Pinned f root s)
    (hmem : Set.EqOn s'.mem s.mem (area (tableTree s.mem 2 root)))
    (hlive : ∀ p, (tableTree s.mem 2 root).Has p → (p, 4096) ∈ s'.blocks) : Pinned f root s' := by
  have ht := tableTree_congr hmem
  have hw := h.paged.congr hmem
  refine h.leaves ⟨⟨hw.wellFormed.aligned, hw.wellFormed.fits, hw.wellFormed.separate, fun p hp => ?_⟩, hw.deep⟩
    fun va _ => leafOf_congr ht va
  refine ⟨(hw.wellFormed.live p hp).1, hlive p ?_⟩
  rw [← ht]
  exact hp

section request
variable {A : PageAllocator} {f : Fixed} {root : Nat} {s s' : Heap} (hs : Pinned f root s)
include hs

theorem Pinned.loadExe {B : BackingFileSystem σ} {hB : Bounded B} {parse : List UInt8 → Option Object} {path : String}
    {fs : FileSystem σ} (hok : (Request.loadExe B hB parse path fs).Spares A root s)
    (h : (Request.loadExe B hB parse path fs).step A root s = some s') : Pinned f root s' := by
  obtain ⟨r, hload, rfl⟩ := Option.map_eq_some_iff.mp h
  obtain ⟨⟨ts, bs, hg, -⟩, hleaf⟩ := loadExe_grows hB hs.paged
    (fun bytes hb => ⟨fun ph hph => ((hok bytes hb).1 ph hph).2, (hok bytes hb).2⟩) hload
  refine hs.leaves hg.keeps.paged fun va hva => hleaf va fun bytes hb ph hph => ?_
  exact ((hok bytes hb).1 ph hph).1.notMem hva

theorem Pinned.mapWindow {arena : Word → Option ArenaObject} {windowId vaddr : Word}
    (hok : (Request.mapWindow arena windowId vaddr : Request σ).Spares A root s)
    (h : (Request.mapWindow arena windowId vaddr : Request σ).step A root s = some s') : Pinned f root s' := by
  obtain ⟨⟨ret, s₁⟩, hcall, rfl⟩ := Option.map_eq_some_iff.mp h
  unfold sysMapWindow at hcall
  split at hcall
  · cases hcall
    exact hs
  · next frame hwin =>
    obtain ⟨hclear, hserve⟩ := hok frame hwin
    obtain ⟨s₂, hmap, he⟩ := Option.map_eq_some_iff.mp hcall
    cases he
    obtain ⟨s₃, ps, hmap', hE, -, hr⟩ := mapPages_leaf (show windowFlags &&& 0xe#64 ≠ 0#64 by decide)
      (rangePages frame.buffer frame.size) (vaddr &&& ~~~ lowMask 12) (frame.buffer &&& ~~~ lowMask 12) hs.paged
      (by rw [pageNo_floor]; exact hserve)
    cases Option.some.inj (hmap.symm.trans hmap')
    refine hs.leaves hE.paged fun va hva => hr.aside va ?_
    rw [pageNo_floor]
    exact hclear.notMem hva
  · cases hcall

theorem Pinned.step {r : Request σ} (hok : r.Spares A root s) (h : r.step A root s = some s') : Pinned f root s' := by
  cases r with
  | loadExe B hB parse path fs => exact hs.loadExe hok h
  | mapWindow arena windowId vaddr => exact hs.mapWindow hok h
  | other t =>
    cases h
    exact hs.untouched hok.1 hok.2

end request

/-! ## whole runs -/

/-- the address of the page -/
def page (w : Word) : Word := w &&& ~~~ lowMask 12

theorem Pinned.translates {f : Fixed} {root : Nat} {s : Heap} (h : Pinned f root s) (hf : f.trampoline.toNat < 2^56)
    (hf' : f.trapFrame.toNat < 2^56) :
    Translates s.mem root trampoline (page f.trampoline) (EntryBits.R.val ||| EntryBits.X.val) ∧
    Translates s.mem root trapframe (page f.trapFrame) (EntryBits.R.val ||| EntryBits.W.val) := by
  have h₁ := translates_leafEntry h.paged hf (by decide) h.trampolineLeaf
  have h₂ := translates_leafEntry h.paged hf' (by decide) h.trapframeLeaf
  -- both addresses are on a page border
  rw [show trampoline &&& lowMask 12 = 0#64 by decide, BitVec.or_zero] at h₁
  rw [show trapframe &&& lowMask 12 = 0#64 by decide, BitVec.or_zero] at h₂
  exact ⟨h₁, h₂⟩

/-- `setup_pagetable`, with the user stack -/
def setupUser (A : PageAllocator) (f : Fixed) (s : Heap) : Option (Nat × Nat × Heap) :=
  let (root, s) := s.allocZeroed A 0x1000
  if root = 0 then none
  else
    (map A root trampoline f.trampoline (EntryBits.R.val ||| EntryBits.X.val) 0 s).bind fun s =>
    (map A root trapframe f.trapFrame (EntryBits.R.val ||| EntryBits.W.val) 0 s).bind fun s =>
    (map A root killme f.killme (EntryBits.R.val ||| EntryBits.X.val ||| EntryBits.U.val) 0 s).bind fun s =>
      let (userStack, s) := s.alloc A userStackSize.toNat
      (map A root (userStackStart - userStackSize) (BitVec.ofNat 64 userStack)
        (EntryBits.R.val ||| EntryBits.W.val ||| EntryBits.U.val) 0 s).map fun s => (root, userStack, s)

theorem setupPagetable_eq (A : PageAllocator) (f : Fixed) (s : Heap) :
    setupPagetable A f s = (setupUser A f s).map fun (root, _, s) => (root, s) := by
  unfold setupPagetable setupUser
  dsimp only
  split
  · rfl
  · simp only [Option.map_bind, Option.map_map, Function.comp_def]

/-- what `setup_pagetable` leaves: the pages of the kernel mapped, and blocks of its own for the tables and the user
stack -/
structure SetUp (f : Fixed) (root stack : Nat) (s s' : Heap) (ts : List Nat) : Prop where
  pinned : Pinned f root s'
  count : ∀ b, s'.blocks.count b = (ts.map (·, 4096)).count b + [(stack, 4096)].count b + s.blocks.count b
  tidy : Heap.Tidy s.blocks → Heap.Tidy s'.blocks
  pages : ∀ p, (tableTree s'.mem 2 root).Has p → p ∈ ts
  kept : ∀ K, Shielded s.blocks K → Safe s' root K ∧ Set.EqOn s'.mem s.mem K

theorem setupUser_spec {A : PageAllocator} (f : Fixed) {s : Heap} (hserve : Heap.Serves A [4096] 10 s.blocks) :
    ∃ root stack s' ts, setupUser A f s = some (root, stack, s') ∧ SetUp f root stack s s' ts := by
  obtain ⟨root, hnext, hserve⟩ := hserve 4096 (List.mem_singleton.mpr rfl)
  have hz := zeroedRoot_of_next hnext
  obtain ⟨s₁, ts₁, hm₁, hg₁, hserve, htramp, -⟩ := map_served
    (show (EntryBits.R.val ||| EntryBits.X.val) &&& 0xe#64 ≠ 0#64 by decide) trampoline f.trampoline hz.paged hserve
  obtain ⟨s₂, ts₂, hm₂, hg₂, hserve, hframe, hout₂⟩ := map_served
    (show (EntryBits.R.val ||| EntryBits.W.val) &&& 0xe#64 ≠ 0#64 by decide) trapframe f.trapFrame hg₁.keeps.paged hserve
  have h₂ : Pinned f root s₂ :=
    ⟨hg₂.keeps.paged, (hout₂ _ (by decide)).trans (htramp _ rfl), hframe _ rfl⟩
  -- the page of `killme` and the user stack are others
  obtain ⟨s₃, ts₃, hm₃, hg₃, hserve, -, hout₃⟩ := map_served
    (show (EntryBits.R.val ||| EntryBits.X.val ||| EntryBits.U.val) &&& 0xe#64 ≠ 0#64 by decide) killme f.killme
    h₂.paged hserve
  have h₃ : Pinned f root s₃ := h₂.leaves hg₃.keeps.paged fun va hva => hout₃ va (by rcases hva with rfl | rfl <;> decide)
  obtain ⟨stack, hnext₄, hserve⟩ := hserve 4096 (List.mem_singleton.mpr rfl)
  obtain ⟨s₄, hs₄⟩ : ∃ t : Heap, t = ⟨s₃.mem, (stack, 4096) :: s₃.blocks⟩ := ⟨_, rfl⟩
  have hg₄ : Grows root s₃ s₄ [] [(stack, 4096)] := by
    rw [hs₄]
    exact (keeps_push h₃.paged (stack, 4096)).grows rfl (A.fresh _ _ _ hnext₄) rfl
  obtain ⟨s₅, ts₅, hm₅, hg₅, -, -, hout₅⟩ := map_served
    (show (EntryBits.R.val ||| EntryBits.W.val ||| EntryBits.U.val) &&& 0xe#64 ≠ 0#64 by decide)
    (userStackStart - userStackSize) (BitVec.ofNat 64 stack) hg₄.keeps.paged (by rw [hs₄]; exact hserve)
  have h₅ : Pinned f root s₅ := by
    refine h₃.leaves hg₅.keeps.paged fun va hva => (hout₅ va (by rcases hva with rfl | rfl <;> decide)).trans ?_
    rw [hs₄]
  have hg := (((hg₁.trans hg₂).trans hg₃).trans hg₄).trans hg₅
  have hroot : root ≠ 0 := Nat.pos_iff_ne_zero.mp (A.pos _ _ _ hnext)
  have hsize : userStackSize.toNat = 4096 := by decide
  refine ⟨root, stack, s₅, (ts₅ ++ ([] ++ (ts₃ ++ (ts₂ ++ ts₁)))) ++ [root], ?_, h₅, fun b => ?_, fun ht => ?_,
    fun p hp => ?_, fun K hK => ?_⟩
  · unfold setupUser
    rw [Heap.allocZeroed_of_next hnext]
    dsimp only
    rw [if_neg hroot, hm₁, Option.bind_some, hm₂, Option.bind_some, hm₃, Option.bind_some, hsize,
      Heap.alloc_of_next hnext₄]
    dsimp only
    rw [← hs₄, hm₅, Option.map_some]
  · have hc : s₅.blocks.count b = _ + [(stack, 4096)].count b + ((root, 4096) :: s.blocks).count b := hg.count b
    have hroots : (((ts₅ ++ ([] ++ (ts₃ ++ (ts₂ ++ ts₁)))) ++ [root]).map (·, 4096)).count b
        = ((ts₅ ++ ([] ++ (ts₃ ++ (ts₂ ++ ts₁)))).map (·, 4096)).count b + [(root, 4096)].count b := by
      rw [List.map_append, List.count_append]
      rfl
    have hcons : ([(root, 4096)] ++ s.blocks).count b = [(root, 4096)].count b + s.blocks.count b := List.count_append
    rw [List.singleton_append] at hcons
    omega
  · exact hg.tidy (List.pairwise_cons.mpr ⟨A.fresh _ _ _ hnext, ht⟩)
  · rcases hg.pages p hp with hp | hp
    · rw [hz.tree] at hp
      rcases hp with rfl | ⟨_, hp⟩
      · exact List.mem_append_right _ List.mem_cons_self
      · exact absurd hp id
    · exact List.mem_append_left _ hp
  · -- the root is zeroed first
    have hapart := hK root 4096 (A.aligned _ _ _ hnext) (A.fresh _ _ _ hnext)
    have hsafe : Safe ⟨s.mem.zero root 4096, (root, 4096) :: s.blocks⟩ root K := by
      refine ⟨hK.mono fun c => List.mem_cons_of_mem _, ?_⟩
      rw [hz.tree, Set.disjoint_right]
      rintro a ⟨p, rfl | ⟨_, hp⟩, ha⟩ hak
      · exact Set.disjoint_left.mp hapart ha hak
      · exact absurd hp id
    obtain ⟨hs, he⟩ := hg.keeps.safe K hsafe
    exact ⟨hs, he.trans (Mem.zero_eqOn hapart)⟩

/-- a block of before is a block still -/
theorem SetUp.live {f : Fixed} {root stack : Nat} {s s' : Heap} {ts : List Nat} (h : SetUp f root stack s s' ts)
    {b : Block} (hb : b ∈ s.blocks) : b ∈ s'.blocks := by
  have hpos := List.count_pos_iff.mpr hb
  have := h.count b
  exact List.count_pos_iff.mp (by omega)

/-- the pages of a process survive the setup of another -/
theorem Pinned.setUp {f f' : Fixed} {root root' stack : Nat} {s s' : Heap} {ts : List Nat}
    (h : Pinned f root s) (hs : SetUp f' root' stack s s' ts) :
    Pinned f root s' ∧ tableTree s'.mem 2 root = tableTree s.mem 2 root := by
  obtain ⟨-, hmem⟩ := hs.kept _ h.paged.shielded
  exact ⟨h.untouched hmem fun p hp => hs.live (h.paged.wellFormed.live p hp).2, tableTree_congr hmem⟩

theorem setup_pinned {A : PageAllocator} {f : Fixed} {root : Nat} {s s' : Heap}
    (hserve : Heap.Serves A [4096] 10 s.blocks) (h : setupPagetable A f s = some (root, s')) : Pinned f root s' := by
  obtain ⟨root₁, stack, s₁, new, hsetup, hs⟩ := setupUser_spec f hserve
  rw [setupPagetable_eq, hsetup] at h
  cases h
  exact hs.pinned

/-- **The kernel's pages survive every run of requests that spare them.** -/
theorem kernel_pages_kept (A : PageAllocator) (f : Fixed) (hf : f.trampoline.toNat < 2^56)
    (hf' : f.trapFrame.toNat < 2^56) (s₀ s : Heap) (root : Nat) (hserve : Heap.Serves A [4096] 10 s₀.blocks)
    (hsetup : setupPagetable A f s₀ = some (root, s)) (rs : List (Request σ))
    (hrs : Trace.Throughout (Request.step A root) (Request.Spares A root) rs s) (s' : Heap)
    (hrun : Trace.run (Request.step A root) rs s = some s') :
    Translates s'.mem root trampoline (page f.trampoline) (EntryBits.R.val ||| EntryBits.X.val) ∧
    Translates s'.mem root trapframe (page f.trapFrame) (EntryBits.R.val ||| EntryBits.W.val) := by
  have h : Pinned f root s' := Trace.invariant (Request.Spares A root) (Pinned f root)
    (fun _ _ _ hs hok hstep => hs.step hok hstep) rs (setup_pinned hserve hsetup) hrs hrun
  exact h.translates hf hf'

/-! ## two runs -/

/-- an arena with one window, of one pixel -/
def oneWindow (id : Word) : Option ArenaObject := if id = 3 then some (.window ⟨0x80400000, 1, 1⟩) else none

/-- a window mapped over the trampoline takes its place -/
theorem window_over_trampoline : ∃ root s s', setupPagetable pages kernelPages freshHeap = some (root, s) ∧
    Trace.run (Request.step pages root) [(.mapWindow oneWindow 3 trampoline : Request Unit)] s = some s' ∧
    ¬ Translates s'.mem root trampoline (page kernelPages.trampoline) (EntryBits.R.val ||| EntryBits.X.val) := by
  have hrun : ((setupPagetable pages kernelPages freshHeap).bind fun (root, s) =>
      (Trace.run (Request.step pages root) [(.mapWindow oneWindow 3 trampoline : Request Unit)] s).bind fun s' =>
        virtToPhys s'.mem root trampoline) = some (some 0x80400000#64) := by
    decide
  obtain ⟨⟨root, s⟩, hsetup, hrun⟩ := Option.bind_eq_some_iff.mp hrun
  obtain ⟨s', hwindow, hphys⟩ := Option.bind_eq_some_iff.mp hrun
  refine ⟨root, s, s', hsetup, hwindow, fun h => ?_⟩
  exact absurd (hphys.symm.trans h.1) (by decide)

theorem bounded_oneFile (file : List UInt8) : Bounded (oneFile file) := by
  intro len path offset b bs b' h
  cases h
  exact List.length_take_le ..

/-- a window at `0x20000` and a program at `0x10000` -/
def elsewhere : List (Request Unit) :=
  [.mapWindow oneWindow 3 0x20000#64,
    .loadExe (oneFile (program 0)) (bounded_oneFile (program 0)) parseElf "/bin/main" (FileSystem.new ())]

instance (vaddr : Word) (n : Nat) : Decidable (Clear vaddr n) := inferInstanceAs (Decidable (∀ q, q < n → _))

theorem kernel_pages_kept_example : ∃ root s s', setupPagetable pages kernelPages freshHeap = some (root, s) ∧
    Trace.run (Request.step pages root) elsewhere s = some s' ∧
    Translates s'.mem root trampoline (page kernelPages.trampoline) (EntryBits.R.val ||| EntryBits.X.val) ∧
    Translates s'.mem root trapframe (page kernelPages.trapFrame) (EntryBits.R.val ||| EntryBits.W.val) := by
  have hserve : Heap.Serves pages [4096] 10 freshHeap.blocks :=
    Heap.serves_bump (n := 4096) (by decide) 10 (by decide)
  have htops : ((setupPagetable pages kernelPages freshHeap).bind fun (root, s) =>
      (Trace.run (Request.step pages root) (elsewhere.take 1) s).bind fun s₁ =>
        (Trace.run (Request.step pages root) elsewhere s).map fun _ =>
          (Allocator.top s.blocks, Allocator.top s₁.blocks)) = some (0x8020c000, 0x80210000) := by
    decide +kernel
  obtain ⟨⟨root, s⟩, hsetup, htops⟩ := Option.bind_eq_some_iff.mp htops
  obtain ⟨s₁, hone, htops⟩ := Option.bind_eq_some_iff.mp htops
  obtain ⟨s', hrun, htops⟩ := Option.map_eq_some_iff.mp htops
  obtain ⟨htop, htop₁⟩ := Prod.mk.inj htops
  refine ⟨root, s, s', hsetup, hrun, kernel_pages_kept pages kernelPages (by decide) (by decide) freshHeap s root hserve
    hsetup elsewhere ⟨fun frame hframe => ?_, fun t ht => ⟨fun bytes hbytes => ?_, fun _ _ => trivial⟩⟩ s' hrun⟩
  · cases (show some (ArenaObject.window ⟨0x80400000, 1, 1⟩) = some (.window frame) from hframe)
    refine ⟨by decide, Heap.serves_bump (n := 4096) (by decide) _ ?_⟩
    rw [htop]
    decide
  · obtain rfl : t = s₁ := by
      rw [show elsewhere.take 1 = [.mapWindow oneWindow 3 0x20000#64] from rfl] at hone
      obtain ⟨t', ht', he⟩ := Option.bind_eq_some_iff.mp hone
      cases he
      exact Option.some.inj (ht.symm.trans ht')
    obtain rfl : bytes = program 0 := Option.some.inj (hbytes.symm.trans (by decide +kernel))
    have hheaders : headers parseElf (program 0) = [programHeader 0] := by decide
    rw [hheaders]
    refine ⟨fun ph hph => ?_, Heap.serves_bump (n := 4096) (by decide) _ ?_⟩
    · rw [List.mem_singleton.mp hph]
      exact ⟨by decide, by decide⟩
    · rw [htop₁]
      decide

end Citron.Loader
