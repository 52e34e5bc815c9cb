import Citron.Fs.FileSystem
import Citron.Paging.Sv39

/-!
# Buffers of `read` and `write`

`src/arch/riscv64/syscall.rs`: `get_arg_ptr`, `sys_read`, `sys_write` and their arms of
`execute_syscall`.  The outcome records, besides what the call does, the physical addresses that it
touches for its buffer, in the order of the bytes of the transfer.

`get_arg_ptr` translates the first byte of the buffer and the calls go on from there in physical memory.
`confined_iff` says when this is the memory that the process itself sees at the buffer: every page of the
buffer has to be the process's own and they have to follow each other in physical memory.
-/

namespace Citron.Syscall
open Paging Fs

/-! ## the functions of the source -/

/-- the argument registers that the trap has saved -/
structure TrapFrame where
  a0 : Word
  a1 : Word
  a2 : Word
  a3 : Word
  a4 : Word
  a5 : Word
  a6 : Word
  a7 : Word
deriving DecidableEq, Repr

def TrapFrame.getArgRaw (tf : TrapFrame) : Nat → Option Word
  | 0 => some tf.a0
  | 1 => some tf.a1
  | 2 => some tf.a2
  | 3 => some tf.a3
  | 4 => some tf.a4
  | 5 => some tf.a5
  | 6 => some tf.a6
  | 7 => some tf.a7
  | _ => none

/-- what a call depends on: the memory, the running process's page table and registers, the files -/
structure Kernel (σ : Type) where
  mem : Mem
  pageTable : Nat
  trapFrame : TrapFrame
  fs : FileSystem σ

structure Outcome (σ : Type) where
  ret : Word
  mem : Mem
  fs : FileSystem σ
  /-- what goes to the console -/
  output : List Char
  /-- the physical addresses of the bytes transferred -/
  touched : List Nat

section
variable {σ : Type} (B : BackingFileSystem σ)

def getArgPtr (k : Kernel σ) (idx : Nat) : Option Nat :=
  (k.trapFrame.getArgRaw idx).bind fun arg =>
    (virtToPhys k.mem k.pageTable arg).bind fun ptr => ptr.map BitVec.toNat

def sysRead (k : Kernel σ) (fd : Word) (buf : Nat) (count : Word) : Option (Outcome σ) :=
  if fd = 0 ∨ fd = 1 ∨ fd = 2 then some ⟨0, k.mem, k.fs, [], []⟩
  else
    (k.fs.read B fd count.toNat).map fun (res, fs) =>
      match res with
      | .error _ => ⟨-1, k.mem, fs, [], []⟩
      | .ok bs =>
        ⟨BitVec.ofNat 64 bs.length, k.mem.blit buf bs, fs, [], (List.range bs.length).map (buf + ·)⟩

def sysWrite (k : Kernel σ) (buf : Nat) (count : Word) : Outcome σ :=
  let touched := (List.range count.toNat).map (buf + ·)
  ⟨0, k.mem, k.fs, touched.map fun a => Char.ofNat (k.mem a).toNat, touched⟩

/-- the dispatch on the call's number; `other` stands for the arms besides `read` and `write` -/
def executeSyscall (other : Word → Kernel σ → Option (Outcome σ)) (k : Kernel σ) :
    Option (Outcome σ) :=
  let arg := k.trapFrame.getArgRaw
  (arg 0).bind fun number =>
    if number = 0 then
      (arg 1).bind fun fd => (getArgPtr k 2).bind fun buf => (arg 3).bind fun count =>
        sysRead B k fd buf count
    else if number = 1 then
      (arg 1).bind fun _ => (getArgPtr k 2).bind fun buf => (arg 3).bind fun count =>
        some (sysWrite k buf count)
    else other number k

/-! ## the memory that a call touches -/

/-- the number of bytes that the call transfers once its buffer is translated -/
def transferLen (k : Kernel σ) : Nat :=
  if k.trapFrame.a0 = 0 then
    if k.trapFrame.a1 = 0 ∨ k.trapFrame.a1 = 1 ∨ k.trapFrame.a1 = 2 then 0
    else
      match k.fs.read B k.trapFrame.a1 k.trapFrame.a3.toNat with
      | some (.ok bs, _) => bs.length
      | _ => 0
  else k.trapFrame.a3.toNat

variable {B} {other : Word → Kernel σ → Option (Outcome σ)} {k : Kernel σ}
  (hcall : k.trapFrame.a0 = 0 ∨ k.trapFrame.a0 = 1)
include hcall

theorem executeSyscall_eq :
    executeSyscall B other k = (getArgPtr k 2).bind fun buf =>
      if k.trapFrame.a0 = 0 then sysRead B k k.trapFrame.a1 buf k.trapFrame.a3
      else some (sysWrite k buf k.trapFrame.a3) := by
  show (if k.trapFrame.a0 = 0 then _ else if k.trapFrame.a0 = 1 then _ else _) = _
  rcases hcall with h | h
  · rw [if_pos h]
    simp only [h, if_true]
    rfl
  · have h0 : k.trapFrame.a0 ≠ 0 := by rw [h]; decide
    rw [if_neg h0, if_pos h]
    simp only [h0, if_false]
    rfl

/-- the buffer starts at the translation of its first byte and goes on linearly -/
theorem touched_of_execute {o : Outcome σ} (h : executeSyscall B other k = some o) :
    ∃ w, virtToPhys k.mem k.pageTable k.trapFrame.a2 = some (some w) ∧
      o.touched = (List.range (transferLen B k)).map (w.toNat + ·) := by
  rw [executeSyscall_eq hcall] at h
  obtain ⟨buf, hbuf, h⟩ := Option.bind_eq_some_iff.mp h
  obtain ⟨r, hr, hw⟩ := Option.bind_eq_some_iff.mp
    (show (virtToPhys k.mem k.pageTable k.trapFrame.a2).bind _ = some buf from hbuf)
  obtain ⟨w, rfl, rfl⟩ := Option.map_eq_some_iff.mp hw
  refine ⟨w, hr, ?_⟩
  unfold transferLen
  by_cases h0 : k.trapFrame.a0 = 0
  · rw [if_pos h0] at h ⊢
    unfold sysRead at h
    split at h
    · next hfd =>
      rw [if_pos hfd]
      cases h
      rfl
    · next hfd =>
      rw [if_neg hfd]
      obtain ⟨⟨res, fs⟩, hread, ho⟩ := Option.map_eq_some_iff.mp h
      rw [hread]
      cases res with
      | error e => cases ho; rfl
      | ok bs => cases ho; rfl
  · rw [if_neg h0] at h ⊢
    cases h
    rfl

/-- a call whose buffer is translated and that has bytes to transfer does return -/
theorem execute_of_ptr {w : Word} (hw : virtToPhys k.mem k.pageTable k.trapFrame.a2 = some (some w))
    (hn : transferLen B k ≠ 0) : ∃ o, executeSyscall B other k = some o := by
  have hp : getArgPtr k 2 = some w.toNat := by
    show (virtToPhys k.mem k.pageTable k.trapFrame.a2).bind _ = _
    rw [hw]
    rfl
  rw [executeSyscall_eq hcall, hp, Option.bind_some]
  unfold transferLen at hn
  by_cases h0 : k.trapFrame.a0 = 0
  · rw [if_pos h0] at hn ⊢
    unfold sysRead
    split at hn
    · exact absurd rfl hn
    · next hfd =>
      rw [if_neg hfd]
      split at hn
      · next hread =>
        rw [hread]
        exact ⟨_, rfl⟩
      · exact absurd rfl hn
  · rw [if_neg h0]
    exact ⟨_, rfl⟩

omit hcall

/-! ## what the process sees there -/

/-- byte `i` of the transfer is at the physical address that user mode reaches through `buf + i` -/
def Confined (k : Kernel σ) (o : Outcome σ) : Prop :=
  ∀ i pa, o.touched[i]? = some pa →
    sv39User k.mem k.pageTable (k.trapFrame.a2 + BitVec.ofNat 64 i) = some pa

/-- the pages of the first `n` bytes at `buf` are the user's, and they follow each other from `pa` on -/
def UserContiguous (m : Mem) (root : Nat) (buf : Word) (n pa : Nat) : Prop :=
  sv39User m root buf = some pa ∧
    ∀ j, 0 < j → j < n → 4096 ∣ (buf + BitVec.ofNat 64 j).toNat →
      sv39User m root (buf + BitVec.ofNat 64 j) = some (pa + j)

theorem UserContiguous.byte {m : Mem} {root n pa : Nat} {buf : Word}
    (h : UserContiguous m root buf n pa) (i : Nat) (hi : i < n) :
    sv39User m root (buf + BitVec.ofNat 64 i) = some (pa + i) := by
  induction i with
  | zero =>
    rw [show BitVec.ofNat 64 0 = 0#64 from rfl, BitVec.add_zero]
    exact h.1
  | succ i ih =>
    by_cases hd : 4096 ∣ (buf + BitVec.ofNat 64 (i+1)).toNat
    · exact h.2 (i+1) (by omega) hi hd
    · -- the byte before is on the same page
      have he : buf + BitVec.ofNat 64 (i+1) = buf + BitVec.ofNat 64 i + BitVec.ofNat 64 1 := by
        rw [BitVec.ofNat_add, BitVec.add_assoc]
      rw [he] at hd ⊢
      have hone : (buf + BitVec.ofNat 64 i + BitVec.ofNat 64 1).toNat
          = ((buf + BitVec.ofNat 64 i).toNat + 1) % 2^64 := BitVec.toNat_add _ _
      have hpage : (buf + BitVec.ofNat 64 i).toNat % 4096 + 1 < 4096 := by omega
      exact sv39User_add hpage (ih (by omega))

/-- **System-call buffers.**  A call of `read` or `write` touches exactly the memory that the process
sees at its buffer if and only if it transfers nothing, or `virt_to_phys` does not translate its buffer,
or the pages of the transfer are user pages that follow each other in physical memory. -/
theorem confined_iff (B : BackingFileSystem σ) (other : Word → Kernel σ → Option (Outcome σ))
    (k : Kernel σ) (hcall : k.trapFrame.a0 = 0 ∨ k.trapFrame.a0 = 1) :
    (∀ o, executeSyscall B other k = some o → Confined k o) ↔
      transferLen B k = 0 ∨
      (∀ w, virtToPhys k.mem k.pageTable k.trapFrame.a2 ≠ some (some w)) ∨
      ∃ pa, UserContiguous k.mem k.pageTable k.trapFrame.a2 (transferLen B k) pa := by
  constructor
  · intro h
    by_cases hn : transferLen B k = 0
    · exact .inl hn
    by_cases hw : ∀ w, virtToPhys k.mem k.pageTable k.trapFrame.a2 ≠ some (some w)
    · exact .inr (.inl hw)
    push Not at hw
    obtain ⟨w, hw⟩ := hw
    obtain ⟨o, ho⟩ : ∃ o, executeSyscall B other k = some o := execute_of_ptr hcall hw hn
    obtain ⟨w', hw', ht⟩ := touched_of_execute hcall ho
    obtain rfl : w = w' := Option.some.inj (Option.some.inj (hw.symm.trans hw'))
    have hbyte : ∀ i, i < transferLen B k →
        sv39User k.mem k.pageTable (k.trapFrame.a2 + BitVec.ofNat 64 i) = some (w.toNat + i) := by
      intro i hi
      refine h o ho i _ ?_
      rw [ht, List.getElem?_map, List.getElem?_range hi]
      rfl
    refine .inr (.inr ⟨w.toNat, ?_, fun j _ hj _ => hbyte j hj⟩)
    have h0 := hbyte 0 (Nat.pos_of_ne_zero hn)
    rwa [show BitVec.ofNat 64 0 = 0#64 from rfl, BitVec.add_zero] at h0
  · intro h o ho i pa hi
    obtain ⟨w, hw, ht⟩ := touched_of_execute hcall ho
    rw [ht, List.getElem?_map] at hi
    obtain ⟨j, hj, rfl⟩ := Option.map_eq_some_iff.mp hi
    obtain ⟨hlt, rfl⟩ := List.getElem?_eq_some_iff.mp hj
    rw [List.length_range] at hlt
    rw [List.getElem_range]
    rcases h with hn | hno | ⟨pa, hc⟩
    · omega
    · exact absurd hw (hno w)
    · have hpa : w.toNat = pa := by
        rcases sv39User_virtToPhys hc.1 with hnone | ⟨w', hw', he⟩
        · rw [hw] at hnone
          cases hnone
        · rw [Option.some.inj (Option.some.inj (hw.symm.trans hw'))]
          exact he
      rw [hpa]
      exact hc.byte i hlt

end

/-! ## the trap frame of the process itself -/

/-- a file system with no file -/
def noFiles : BackingFileSystem Unit :=
  ⟨fun _ _ _ b => some (.error .fileNotExist, b), fun _ b => some (.error .fileNotExist, b)⟩

/-- a process whose page table maps its trap frame as `setup_pagetable` does, readable and writable for
the kernel only, calling `write(1, buf, count)` -/
def writer (m : Mem) (buf count : Word) : Kernel Unit :=
  ⟨m, 0x1000, ⟨1, 1, buf, count, 0, 0, 0, 0⟩, FileSystem.new ()⟩

/-- the page table with the trap frame at `0x80300000` -/
def trapframeTable :=
  map (Allocator.bump 0x1000 (2^56) pageSize_pos) 0x1000 trapframe 0x80300000#64
    (EntryBits.R.val ||| EntryBits.W.val) 0 ⟨fun _ => 0, [(0x1000, 0x1000)]⟩

/-- `write` prints the trap frame, which the process cannot read -/
theorem write_touches_trapframe : ∃ s o, trapframeTable = some s ∧
    executeSyscall noFiles (fun _ _ => none) (writer s.mem trapframe 1) = some o ∧
    ¬ Confined (writer s.mem trapframe 1) o := by
  refine ⟨_, _, rfl, rfl, fun h => ?_⟩
  have h0 := h 0 0x80300000 (by decide)
  revert h0
  decide

/-- a byte on a page of the user's is written as the process sees it -/
theorem confined_iff_example : ∃ s,
    map (Allocator.bump 0x1000 (2^56) (by decide)) 0x1000 0x10000#64 0x80400000#64
      (EntryBits.R.val ||| EntryBits.W.val ||| EntryBits.U.val) 0 ⟨fun _ => 0, [(0x1000, 0x1000)]⟩ = some s ∧
    ∀ o, executeSyscall noFiles (fun _ _ => none) (writer s.mem 0x10123#64 1) = some o →
      Confined (writer s.mem 0x10123#64 1) o := by
  refine ⟨_, rfl, ?_⟩
  refine (confined_iff noFiles (fun _ _ => none) (writer _ 0x10123#64 1) (.inr rfl)).mpr
    (.inr (.inr ⟨0x80400123, by decide, fun j h0 h1 => ?_⟩))
  have h2 : j < 1 := h1
  omega

end Citron.Syscall
