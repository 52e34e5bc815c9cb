import Citron.Loader.Pinned

/-!
# Copies into segment buffers

`load_exe` with the copies that it makes.  The buffer of a segment has the memory size of its header, the copy into it
the file size, and neither is compared with the other.  A file range that is not in the file ends in a panic.

* `copyLoop`                   the loop over the program headers, with its copies;
* `openExe`                    what comes before it, with `loadExe_eq` for the whole of `load_exe`;
* `load_exe_stays_inside_iff`  the headers with which every copy fits and nothing panics.
-/

namespace Citron.Loader
open Paging Fs

/-- the size of a segment buffer, and the number of bytes copied into it -/
structure Copy where
  buffer : Nat
  copied : Nat
deriving DecidableEq, Repr

def ProgramHeader.copy (ph : ProgramHeader) : Copy := ⟨ph.vmRange.len.toNat, ph.fileRange.len.toNat⟩

/-- the loop of `load_exe` with the copies that it makes, also where it panics afterwards -/
def copyLoop (A : PageAllocator) (pageTable bin size : Nat) :
    List ProgramHeader → Heap → List Copy × Option (List Segment × Heap)
  | [], s => ([], some ([], s))
  | ph :: phs, s =>
    let vm := ph.vmRange
    if layoutFits vm.len.toNat then
      let (buffer, s) := s.allocZeroed A vm.len.toNat
      match mapRange A pageTable vm.start (BitVec.ofNat 64 buffer) vm.len segmentFlags s with
      | none => ([], none)
      | some s =>
        let range := ph.fileRange
        if range.start.toNat ≤ range.stop.toNat ∧ range.stop.toNat ≤ size then
          let s := s.blit buffer (s.mem.bytes (bin + range.start.toNat) range.len.toNat)
          let (copies, res) := copyLoop A pageTable bin size phs s
          (ph.copy :: copies, res.map fun (segments, s) =>
            (⟨buffer, vm.len.toNat, vm, segmentFlags⟩ :: segments, s))
        else ([], none)
    else ([], none)

variable {σ : Type}

/-- `load_exe` up to the loop: the parsed file, where it is, and its size -/
def openExe (A : PageAllocator) (B : BackingFileSystem σ) (parse : List UInt8 → Option Object) (path : String)
    (s : Heap) (fs : FileSystem σ) : Option (Except Error (Elf × Nat × Nat) × Heap × FileSystem σ) :=
  (fs.openFile B path).bind fun (res, fs) =>
    match res with
    | .error e => some (.error e, s, fs)
    | .ok fd =>
      match fs.getFileSize fd with
      | .error e => some (.error e, s, fs)
      | .ok size =>
        if layoutFits size.toNat then
          let (bin, s) := s.allocZeroed A size.toNat
          (fs.read B fd size.toNat).bind fun (res, fs) =>
            match res with
            | .error e => some (.error e, s, fs)
            | .ok bs =>
              let s := s.blit bin bs
              match parse (s.mem.bytes bin size.toNat) with
              | none => none
              | some .other => some (.error (.msg (path ++ " is not an elf file")), s, fs)
              | some (.elf elf) => some (.ok (elf, bin, size.toNat), s, fs)
        else none

/-- the copies of `load_exe` -/
def loadExeCopies (A : PageAllocator) (B : BackingFileSystem σ) (parse : List UInt8 → Option Object) (path : String)
    (pageTable : Nat) (s : Heap) (fs : FileSystem σ) : List Copy :=
  match openExe A B parse path s fs with
  | some (.ok (elf, bin, size), s, _) => (copyLoop A pageTable bin size elf.programHeaders s).1
  | _ => []

/-- it is the loop -/
theorem copyLoop_snd (A : PageAllocator) (root bin size : Nat) (phs : List ProgramHeader) : ∀ s : Heap,
    (copyLoop A root bin size phs s).2 = loadSegments A root bin size phs s := by
  induction phs with
  | nil => exact fun _ => rfl
  | cons ph phs ih =>
    intro s
    unfold copyLoop loadSegments
    dsimp only
    by_cases hfit : layoutFits ph.vmRange.len.toNat = true
    · rw [if_pos hfit, if_pos hfit]
      cases mapRange A root ph.vmRange.start (BitVec.ofNat 64 (s.allocZeroed A ph.vmRange.len.toNat).1) ph.vmRange.len
          segmentFlags (s.allocZeroed A ph.vmRange.len.toNat).2 with
      | none => rfl
      | some s₁ =>
        rw [Option.bind_some]
        dsimp only
        by_cases hin : ph.fileRange.start.toNat ≤ ph.fileRange.stop.toNat ∧ ph.fileRange.stop.toNat ≤ size
        · rw [if_pos hin, if_pos hin]
          dsimp only
          rw [ih]
        · rw [if_neg hin, if_neg hin]
    · rw [if_neg hfit, if_neg hfit]

theorem loadExe_eq (A : PageAllocator) (B : BackingFileSystem σ) (parse : List UInt8 → Option Object) (path : String)
    (root : Nat) (s : Heap) (fs : FileSystem σ) :
    loadExe A B parse path root s fs = (openExe A B parse path s fs).bind fun
      | (.error e, s, fs) => some (.error e, s, fs)
      | (.ok (elf, bin, size), s, fs) => (loadSegments A root bin size elf.programHeaders s).map
          fun (segments, s) => (.ok ⟨elf.eEntry, segments⟩, s, fs) := by
  unfold loadExe openExe
  cases fs.openFile B path with
  | none => rfl
  | some x =>
    obtain ⟨res, fs₁⟩ := x
    cases res with
    | error e => rfl
    | ok fd =>
      rw [Option.bind_some, Option.bind_some]
      dsimp only
      cases fs₁.getFileSize fd with
      | error e => rfl
      | ok size =>
        dsimp only
        by_cases hfit : layoutFits size.toNat = true
        · rw [if_pos hfit, if_pos hfit]
          cases fs₁.read B fd size.toNat with
          | none => rfl
          | some y =>
            obtain ⟨res, fs₂⟩ := y
            cases res with
            | error e => rfl
            | ok bs =>
              rw [Option.bind_some, Option.bind_some]
              dsimp only
              cases parse ((Heap.blit (s.allocZeroed A size.toNat).2 (s.allocZeroed A size.toNat).1 bs).mem.bytes
                  (s.allocZeroed A size.toNat).1 size.toNat) with
              | none => rfl
              | some obj =>
                cases obj with
                | elf elf => rfl
                | other => rfl
        · rw [if_neg hfit, if_neg hfit]
          rfl

/-! ## ranges -/

/-- the length of `start..start + n`: a sum that wraps makes it empty -/
theorem toNat_len (start n : Word) :
    (Range.len ⟨start, start + n⟩).toNat = if start.toNat + n.toNat < 2^64 then n.toNat else 0 := by
  have hstart := start.isLt
  have hn := n.isLt
  have hstop : (start + n).toNat = (start.toNat + n.toNat) % 2^64 := BitVec.toNat_add start n
  show BitVec.toNat (if start.toNat ≤ (start + n).toNat then start + n - start else 0) = _
  by_cases h : start.toNat + n.toNat < 2^64
  · rw [if_pos h, if_pos (by rw [hstop, Nat.mod_eq_of_lt h]; exact Nat.le_add_right _ _), BitVec.add_comm,
      BitVec.add_sub_cancel]
  · rw [if_neg h, if_neg (by rw [hstop]; omega)]
    rfl

namespace ProgramHeader

/-- the file range is in a file of `n` bytes -/
def InFile (ph : ProgramHeader) (n : Nat) : Prop := ph.offset + ph.filesz ≤ n

/-- the memory range has room for the file range -/
def Covered (ph : ProgramHeader) : Prop := ph.filesz ≤ ph.memsz ∧ (ph.filesz = 0 ∨ ph.vaddr + ph.memsz < 2^64)

instance (ph : ProgramHeader) (n : Nat) : Decidable (ph.InFile n) := inferInstanceAs (Decidable (_ ≤ _))
instance (ph : ProgramHeader) : Decidable ph.Covered := inferInstanceAs (Decidable (_ ∧ _))

variable {ph : ProgramHeader} {n : Nat}

/-- the slice of the file is taken exactly for a range in it -/
theorem inFile_iff (hn : n < 2^64) :
    (ph.fileRange.start.toNat ≤ ph.fileRange.stop.toNat ∧ ph.fileRange.stop.toNat ≤ n) ↔ ph.InFile n := by
  have hoff := ph.pOffset.isLt
  have hsz := ph.pFilesz.isLt
  have hstop : (ph.pOffset + ph.pFilesz).toNat = (ph.pOffset.toNat + ph.pFilesz.toNat) % 2^64 :=
    BitVec.toNat_add _ _
  show (ph.pOffset.toNat ≤ (ph.pOffset + ph.pFilesz).toNat ∧ (ph.pOffset + ph.pFilesz).toNat ≤ n) ↔
    ph.pOffset.toNat + ph.pFilesz.toNat ≤ n
  rw [hstop]
  omega

theorem copy_le_iff (hn : n < 2^64) (h : ph.InFile n) : ph.copy.copied ≤ ph.copy.buffer ↔ ph.Covered := by
  have hfile : ph.copy.copied = ph.pFilesz.toNat :=
    (toNat_len ph.pOffset ph.pFilesz).trans (if_pos (Nat.lt_of_le_of_lt h hn))
  have hmem : ph.copy.buffer = if ph.pVaddr.toNat + ph.pMemsz.toNat < 2^64 then ph.pMemsz.toNat else 0 :=
    toNat_len ph.pVaddr ph.pMemsz
  rw [hfile, hmem]
  show _ ↔ ph.pFilesz.toNat ≤ ph.pMemsz.toNat ∧ (ph.pFilesz.toNat = 0 ∨ ph.pVaddr.toNat + ph.pMemsz.toNat < 2^64)
  by_cases hv : ph.pVaddr.toNat + ph.pMemsz.toNat < 2^64
  · rw [if_pos hv]
    exact ⟨fun h => ⟨h, .inr hv⟩, fun h => h.1⟩
  · rw [if_neg hv]
    omega

end ProgramHeader

/-- the headers before the first one whose memory size is no layout -/
def allocatable (phs : List ProgramHeader) : List ProgramHeader :=
  phs.takeWhile fun ph => layoutFits ph.vmRange.len.toNat

/-! ## the loop -/

section loop
variable {A : PageAllocator} {root bin size : Nat}

/-- every copy is the one of a header in the file -/
theorem mem_copyLoop {phs : List ProgramHeader} : ∀ {s : Heap}, ∀ c ∈ (copyLoop A root bin size phs s).1,
    ∃ ph ∈ allocatable phs, c = ph.copy := by
  induction phs with
  | nil => exact fun c hc => absurd hc List.not_mem_nil
  | cons ph phs ih =>
    intro s c hc
    unfold copyLoop at hc
    dsimp only at hc
    split at hc
    next hfit =>
      have hhead : allocatable (ph :: phs) = ph :: allocatable phs := List.takeWhile_cons_of_pos hfit
      rw [hhead]
      split at hc
      next => exact absurd hc List.not_mem_nil
      next =>
        split at hc
        next =>
          rcases List.mem_cons.mp hc with rfl | hc
          · exact ⟨ph, List.mem_cons_self, rfl⟩
          · obtain ⟨q, hq, he⟩ := ih c hc
            exact ⟨q, List.mem_cons_of_mem _ hq, he⟩
        next => exact absurd hc List.not_mem_nil
    next => exact absurd hc List.not_mem_nil

/-- one header that is not in the file, and the loop does not come to its end -/
theorem loadSegments_outside {phs : List ProgramHeader} (hsize : size < 2^64) (h : ∃ ph ∈ phs, ¬ ph.InFile size) :
    ∀ s : Heap, loadSegments A root bin size phs s = none := by
  induction phs with
  | nil => exact absurd h (by simp)
  | cons ph phs ih =>
    intro s
    cases hload : loadSegments A root bin size (ph :: phs) s with
    | none => rfl
    | some r =>
      unfold loadSegments at hload
      dsimp only at hload
      split at hload
      next =>
        obtain ⟨s₁, -, hload⟩ := Option.bind_eq_some_iff.mp hload
        split at hload
        next hin =>
          obtain ⟨r', hrest, -⟩ := Option.map_eq_some_iff.mp hload
          have hlater : ∃ q ∈ phs, ¬ q.InFile size := by
            obtain ⟨q, hq, hout⟩ := h
            rcases List.mem_cons.mp hq with rfl | hq
            · exact absurd ((ProgramHeader.inFile_iff hsize).mp hin) hout
            · exact ⟨q, hq, hout⟩
          rw [ih hlater] at hrest
          cases hrest
        next => cases hload
      next => cases hload

/-- With every header in the file, as long as the copies fit, the loop comes to every header that can be allocated. -/
theorem copy_mem_copyLoop {sizes : List Nat} (h4 : 4096 ∈ sizes) (hsize : size < 2^64) (phs : List ProgramHeader) :
    ∀ s : Heap, Paged s root → (∀ ph ∈ phs, ph.InFile size) →
    (∀ ph ∈ allocatable phs, ph.vmRange.len.toNat ∈ sizes) → Heap.Serves A sizes (demand (allocatable phs)) s.blocks →
    (∀ c ∈ (copyLoop A root bin size phs s).1, c.copied ≤ c.buffer) →
    ∀ ph ∈ allocatable phs, ph.copy ∈ (copyLoop A root bin size phs s).1 := by
  induction phs with
  | nil => exact fun _ _ _ _ _ _ ph h => absurd h List.not_mem_nil
  | cons ph phs ih =>
    intro s hw hfile hsizes hserve hfits
    by_cases hfit : layoutFits ph.vmRange.len.toNat = true
    · have hhead : allocatable (ph :: phs) = ph :: allocatable phs := List.takeWhile_cons_of_pos hfit
      rw [hhead] at hsizes hserve ⊢
      obtain ⟨hin, hfile⟩ := List.forall_mem_cons.mp hfile
      obtain ⟨hm, hsizes⟩ := List.forall_mem_cons.mp hsizes
      obtain ⟨buf, s₁, s₂, ts, halloc, -, hmap, hcopy⟩ := segment_mapped h4 hw hm hserve
      obtain ⟨s₃, hs₃⟩ : ∃ t : Heap, t = s₂.blit buf (s₂.mem.bytes (bin + ph.fileRange.start.toNat)
        ph.fileRange.len.toNat) := ⟨_, rfl⟩
      have hturn : (copyLoop A root bin size (ph :: phs) s).1 = ph.copy :: (copyLoop A root bin size phs s₃).1 := by
        rw [copyLoop]
        dsimp only
        rw [if_pos hfit, halloc]
        dsimp only
        rw [hmap]
        dsimp only
        rw [if_pos ((ProgramHeader.inFile_iff hsize).mpr hin), ← hs₃]
      rw [hturn] at hfits ⊢
      obtain ⟨hle, hfits⟩ := List.forall_mem_cons.mp hfits
      -- the copy stays in its buffer, so the tables are as they were
      obtain ⟨hg, -, hserve⟩ := hcopy (s₂.mem.bytes (bin + ph.fileRange.start.toNat) ph.fileRange.len.toNat)
        (by rw [Mem.length_bytes]; exact hle)
      rw [← hs₃] at hg hserve
      intro q hq
      rcases List.mem_cons.mp hq with rfl | hq
      · exact List.mem_cons_self
      · exact List.mem_cons_of_mem _ (ih s₃ hg.keeps.paged hfile hsizes hserve hfits q hq)
    · have hnone : allocatable (ph :: phs) = [] := List.takeWhile_cons_of_neg hfit
      rw [hnone]
      exact fun q h => absurd h List.not_mem_nil

end loop

/-! ## the whole of `load_exe` -/

/-- no copy goes past the end of its buffer, and with a header whose file range is not in the file of `n` bytes the
result is an error -/
structure StaysInside (A : PageAllocator) (B : BackingFileSystem σ) (parse : List UInt8 → Option Object) (path : String)
    (root : Nat) (s : Heap) (fs : FileSystem σ) (phs : List ProgramHeader) (n : Nat) : Prop where
  copies : ∀ c ∈ loadExeCopies A B parse path root s fs, c.copied ≤ c.buffer
  outside : (∃ ph ∈ phs, ¬ ph.InFile n) → ∃ e s' fs', loadExe A B parse path root s fs = some (.error e, s', fs')

section load
variable {A : PageAllocator} {B : BackingFileSystem σ} {parse : List UInt8 → Option Object} {path : String}
  {root : Nat} {s : Heap} {fs : FileSystem σ} {bytes : List UInt8} {elf : Elf}

/-- a file that is read and parsed comes to the loop -/
theorem openExe_spec (hB : Bounded B) (hw : Paged s root) (hbytes : fileBytes B path fs = some bytes)
    (hparse : parse bytes = some (.elf elf)) {sizes : List Nat} {k : Nat} (hm : bytes.length ∈ sizes)
    (hserve : Heap.Serves A sizes (1 + k) s.blocks) :
    ∃ bin s' fs', openExe A B parse path s fs = some (.ok (elf, bin, bytes.length), s', fs') ∧ bytes.length < 2^64 ∧
      Paged s' root ∧ Heap.Serves A sizes k s'.blocks := by
  unfold fileBytes at hbytes
  unfold openExe
  split at hbytes
  next fd fs₁ hopen =>
    rw [hopen, Option.bind_some]
    dsimp only
    split at hbytes
    next size hsize =>
      rw [hsize]
      dsimp only
      split at hbytes
      next bs fs₂ hread =>
        have hlen : bs.length ≤ size.toNat := hB.read hread
        have hlength : bytes.length = size.toNat := by
          cases hbytes
          rw [List.length_append, List.length_replicate]
          omega
        obtain ⟨bin, hnext, hserve⟩ := (Nat.add_comm 1 k ▸ hserve) bytes.length hm
        have hbd : bin + bytes.length ≤ 2^56 := A.bounded _ _ _ hnext
        have hfit : layoutFits size.toNat = true := decide_eq_true (by omega)
        rw [hlength] at hnext
        obtain ⟨s₁, hs₁⟩ : ∃ t : Heap,
          t = Heap.blit ⟨s.mem.zero bin size.toNat, (bin, size.toNat) :: s.blocks⟩ bin bs := ⟨_, rfl⟩
        obtain ⟨hg, -, hread₁⟩ := grows_file hw hlen hnext hs₁
        rw [Option.some.inj hbytes] at hread₁
        rw [if_pos hfit, Heap.allocZeroed_of_next hnext, hread, Option.bind_some]
        dsimp only
        rw [← hs₁, hread₁, hparse, hlength]
        refine ⟨bin, s₁, fs₂, rfl, by omega, hg.keeps.paged, ?_⟩
        rw [hs₁, ← hlength]
        exact hserve
      next => cases hbytes
    next => cases hbytes
  next => cases hbytes

/-- no header that is outside the file makes an error -/
theorem loadExe_outside (hB : Bounded B) (hw : Paged s root) (hbytes : fileBytes B path fs = some bytes)
    (hparse : parse bytes = some (.elf elf)) {sizes : List Nat} {k : Nat} (hm : bytes.length ∈ sizes)
    (hserve : Heap.Serves A sizes (1 + k) s.blocks) (hout : ∃ ph ∈ elf.programHeaders, ¬ ph.InFile bytes.length) :
    loadExe A B parse path root s fs = none := by
  obtain ⟨bin, s', fs', hopen, hlt, -, -⟩ := openExe_spec hB hw hbytes hparse hm hserve
  rw [loadExe_eq, hopen, Option.bind_some]
  dsimp only
  rw [loadSegments_outside hlt hout]
  rfl

end load

/-- **When `load_exe` stays inside its buffers**: exactly when every file range is in the file and, up to the first
header whose memory size is no layout, in the memory range. -/
theorem load_exe_stays_inside_iff (A : PageAllocator) (B : BackingFileSystem σ) (hB : Bounded B)
    (parse : List UInt8 → Option Object) (path : String) (root : Nat) (s : Heap) (fs : FileSystem σ)
    (hw : Paged s root) (bytes : List UInt8) (hbytes : fileBytes B path fs = some bytes) (elf : Elf)
    (hparse : parse bytes = some (.elf elf))
    (hserve : Heap.Serves A (demandSizes bytes (allocatable elf.programHeaders))
      (1 + demand (allocatable elf.programHeaders)) s.blocks) :
    StaysInside A B parse path root s fs elf.programHeaders bytes.length ↔
      (∀ ph ∈ elf.programHeaders, ph.InFile bytes.length) ∧ ∀ ph ∈ allocatable elf.programHeaders, ph.Covered := by
  have hm : bytes.length ∈ demandSizes bytes (allocatable elf.programHeaders) := by simp [demandSizes]
  obtain ⟨bin, s', fs', hopen, hlt, hw', hserve'⟩ := openExe_spec hB hw hbytes hparse hm hserve
  have hcopies : loadExeCopies A B parse path root s fs
      = (copyLoop A root bin bytes.length elf.programHeaders s').1 := by
    unfold loadExeCopies
    rw [hopen]
  have hsub : ∀ ph ∈ allocatable elf.programHeaders, ph ∈ elf.programHeaders :=
    fun ph hp => (List.takeWhile_sublist _).subset hp
  constructor
  · intro h
    have hfile : ∀ ph ∈ elf.programHeaders, ph.InFile bytes.length := by
      by_contra hout
      push Not at hout
      obtain ⟨e, t, g, herror⟩ := h.outside hout
      rw [loadExe_outside hB hw hbytes hparse hm hserve hout] at herror
      cases herror
    refine ⟨hfile, fun ph hp => ?_⟩
    have hfits := h.copies
    rw [hcopies] at hfits
    have hmem := copy_mem_copyLoop (List.mem_cons_self ..) hlt elf.programHeaders s' hw' hfile
      (fun q hq => List.mem_cons_of_mem _ (List.mem_cons_of_mem _
        (List.mem_map_of_mem (f := fun ph : ProgramHeader => ph.vmRange.len.toNat) hq))) hserve' hfits ph hp
    exact (ProgramHeader.copy_le_iff hlt (hfile ph (hsub ph hp))).mp (hfits _ hmem)
  · rintro ⟨hfile, hcover⟩
    refine ⟨fun c hc => ?_, fun hout => ?_⟩
    · rw [hcopies] at hc
      obtain ⟨ph, hp, rfl⟩ := mem_copyLoop c hc
      exact (ProgramHeader.copy_le_iff hlt (hfile ph (hsub ph hp))).mpr (hcover ph hp)
    · obtain ⟨ph, hp, hout⟩ := hout
      exact absurd (hfile ph hp) hout

/-- the program of one segment is loaded inside its buffers -/
theorem load_exe_stays_inside_example : ∃ root s, setupPagetable pages kernelPages freshHeap = some (root, s) ∧
    StaysInside pages (oneFile (program 0)) parseElf "/bin/main" root s (FileSystem.new ()) [programHeader 0] 120 := by
  have hserve : Heap.Serves pages [4096] 10 freshHeap.blocks :=
    Heap.serves_bump (n := 4096) (by decide) 10 (by decide)
  obtain ⟨root, s, hsetup, hw, -⟩ := setup_spec kernelPages_reserved hserve
  have htop : ((setupPagetable pages kernelPages freshHeap).map fun r => Allocator.top r.2.blocks)
      = some 0x8020c000 := by
    decide
  rw [hsetup] at htop
  have htop : Allocator.top s.blocks = 0x8020c000 := Option.some.inj htop
  refine ⟨root, s, hsetup, (load_exe_stays_inside_iff pages (oneFile (program 0)) (bounded_oneFile _) parseElf
    "/bin/main" root s (FileSystem.new ()) hw (program 0) (by decide +kernel) ⟨0x10000#64, [programHeader 0]⟩
    (by decide) ?_).mpr ⟨by decide, by decide⟩⟩
  refine Heap.serves_bump (n := 4096) (by decide +kernel) _ ?_
  rw [htop]
  decide

/-- an executable whose only header is a note: one byte in the file, none in memory -/
def note : List UInt8 :=
  (program 0).take 64 ++ [4, 0, 0, 0, 4, 0, 0, 0] ++ ((program 0).take 96).drop 72 ++
    [1, 0, 0, 0, 0, 0, 0, 0, 0, 0, 0, 0, 0, 0, 0, 0] ++ (program 0).drop 112

def noteHeader : ProgramHeader := ⟨0x10000#64, 0, 16, 1⟩

/-- The byte of the note is copied into a buffer of no bytes. -/
theorem note_overflows : ∃ root s, setupPagetable pages kernelPages freshHeap = some (root, s) ∧
    parseElf note = some (.elf ⟨0x10000#64, [noteHeader]⟩) ∧
    ¬ StaysInside pages (oneFile note) parseElf "/bin/main" root s (FileSystem.new ()) [noteHeader] 120 := by
  have hrun : ((setupPagetable pages kernelPages freshHeap).map fun (root, s) =>
      loadExeCopies pages (oneFile note) parseElf "/bin/main" root s (FileSystem.new ())) = some [⟨0, 1⟩] := by
    decide +kernel
  obtain ⟨⟨root, s⟩, hsetup, hcopies⟩ := Option.map_eq_some_iff.mp hrun
  refine ⟨root, s, hsetup, by decide, fun h => ?_⟩
  have hfits := h.copies ⟨0, 1⟩
  rw [show loadExeCopies pages (oneFile note) parseElf "/bin/main" root s (FileSystem.new ()) = [⟨0, 1⟩] from hcopies]
    at hfits
  exact absurd (hfits (List.mem_singleton.mpr rfl)) (by decide)

end Citron.Loader
