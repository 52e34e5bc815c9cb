import Citron.Fs.FileSystem
import Citron.Paging.Table

/-!
# Loading a program

`src/arch/riscv64/loader.rs`: `load_exe`, and `setup_pagetable` of `src/arch/riscv64/process.rs`, which
makes the page table that it fills.  The ELF parser (goblin) is a parameter; of a program header only the
two ranges are kept.  A layout is its size, its alignment is always `0x1000`.
-/

namespace Citron.Loader
open Paging Fs

/-! ## what the parser answers -/

structure ProgramHeader where
  pVaddr : Word
  pMemsz : Word
  pOffset : Word
  pFilesz : Word
deriving DecidableEq, Repr

/-- a `Range<usize>` -/
structure Range where
  start : Word
  stop : Word
deriving DecidableEq, Repr

def Range.len (r : Range) : Word := if r.start.toNat ≤ r.stop.toNat then r.stop - r.start else 0

def ProgramHeader.vmRange (ph : ProgramHeader) : Range := ⟨ph.pVaddr, ph.pVaddr + ph.pMemsz⟩

def ProgramHeader.fileRange (ph : ProgramHeader) : Range := ⟨ph.pOffset, ph.pOffset + ph.pFilesz⟩

structure Elf where
  eEntry : Word
  programHeaders : List ProgramHeader
deriving DecidableEq, Repr

inductive Object where
  | elf (e : Elf)
  | other
deriving DecidableEq, Repr

/-! ## `load_exe` -/

structure Segment where
  ptr : Nat
  layout : Nat
  vmRange : Range
  flags : Word
deriving DecidableEq, Repr

structure ExecutableInfo where
  entry : Word
  segmentBuffers : List Segment
deriving DecidableEq, Repr

/-- `Layout::from_size_align(size, 0x1000)` is not an error -/
def layoutFits (size : Nat) : Bool := size ≤ 2^63 - 0x1000

def segmentFlags : Word :=
  EntryBits.R.val ||| EntryBits.W.val ||| EntryBits.X.val ||| EntryBits.U.val

/-- the loop over the program headers, with the file at `bin` -/
def loadSegments (A : PageAllocator) (pageTable bin size : Nat) :
    List ProgramHeader → Heap → Option (List Segment × Heap)
  | [], s => some ([], s)
  | ph :: phs, s =>
    let vm := ph.vmRange
    if layoutFits vm.len.toNat then
      let (buffer, s) := s.allocZeroed A vm.len.toNat
      (mapRange A pageTable vm.start (BitVec.ofNat 64 buffer) vm.len segmentFlags s).bind fun s =>
        let range := ph.fileRange
        -- `bin_slice[range.start..range.end]`
        if range.start.toNat ≤ range.stop.toNat ∧ range.stop.toNat ≤ size then
          let s := s.blit buffer (s.mem.bytes (bin + range.start.toNat) range.len.toNat)
          (loadSegments A pageTable bin size phs s).map fun (segments, s) =>
            (⟨buffer, vm.len.toNat, vm, segmentFlags⟩ :: segments, s)
        else none
    else none

variable {σ : Type}

def loadExe (A : PageAllocator) (B : BackingFileSystem σ) (parse : List UInt8 → Option Object)
    (path : String) (pageTable : Nat) (s : Heap) (fs : FileSystem σ) :
    Option (Except Error ExecutableInfo × Heap × FileSystem σ) :=
  (fs.openFile B path).bind fun (res, fs) =>
    match res with
    | .error e => some (.error e, s, fs)
    | .ok fd =>
      match fs.getFileSize fd with
      | .error e => some (.error e, s, fs)
      | .ok size =>
        if layoutFits size.toNat then
          let (bin, s) := s.allocZeroed A size.toNat
          (fs.read B fd size.toNat).bind fun (res, fs) =>
            match res with
            | .error e => some (.error e, s, fs)
            | .ok bs =>
              let s := s.blit bin bs
              match parse (s.mem.bytes bin size.toNat) with
              | none => none
              | some .other => some (.error (.msg (path ++ " is not an elf file")), s, fs)
              | some (.elf elf) =>
                (loadSegments A pageTable bin size.toNat elf.programHeaders s).map fun (segments, s) =>
                  (.ok ⟨elf.eEntry, segments⟩, s, fs)
        else none

/-! ## `setup_pagetable` -/

def userStackStart : Word := 0xfffffffffffff000#64

def userStackSize : Word := 0x1000#64

/-- the physical addresses that every process has mapped -/
structure Fixed where
  trampoline : Word
  trapFrame : Word
  killme : Word

def setupPagetable (A : PageAllocator) (f : Fixed) (s : Heap) : Option (Nat × Heap) :=
  let (root, s) := s.allocZeroed A 0x1000
  if root = 0 then none
  else
    (map A root trampoline f.trampoline (EntryBits.R.val ||| EntryBits.X.val) 0 s).bind fun s =>
    (map A root trapframe f.trapFrame (EntryBits.R.val ||| EntryBits.W.val) 0 s).bind fun s =>
    (map A root killme f.killme (EntryBits.R.val ||| EntryBits.X.val ||| EntryBits.U.val) 0 s).bind fun s =>
      let (userStack, s) := s.alloc A userStackSize.toNat
      (map A root (userStackStart - userStackSize) (BitVec.ofNat 64 userStack)
        (EntryBits.R.val ||| EntryBits.W.val ||| EntryBits.U.val) 0 s).map fun s => (root, s)

end Citron.Loader
