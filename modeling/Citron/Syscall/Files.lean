import Citron.Fs.Sessions
import Citron.Loader.Isolation
import Citron.Syscall

/-!
# Files, as a process sees them

`sys_open` and `sys_seek` of `src/arch/riscv64/syscall.rs`, and what a process that calls `open`, `seek`, `read` and
`write` sees of its files and of its memory, the kernel, the page table and the volume all put together.

* `fileArms`            the arms of `open` and `seek` of `execute_syscall`;
* `UserCall.step`       the process stores a byte, or makes a call;
* `UserCall.meaning`    the same on the store of the volume and on memory behind a translation: `read` does what stores
                        of the process itself would do;
* `files_served`        the calls mean this, for every process in every run of the kernel, and nothing else changes.
-/

namespace Citron.Paging

/-- the hardware reads the tables only -/
theorem sv39Walk_congr {m m' : Mem} {va : Word} (i : Nat) : ∀ {table pa : Nat},
    Set.EqOn m' m (area (tableTree m i table)) → sv39Walk m va i table = some pa → sv39Walk m' va i table = some pa := by
  induction i with
  | zero =>
    intro table pa hm h
    have hread : m'.readWord (slot table (vpn va 0)) = m.readWord (slot table (vpn va 0)) :=
      Mem.readWord_congr (hm.mono ((slot_subset table _).trans (page_subset_tableTree m 0 table)))
    unfold sv39Walk at h ⊢
    simp only [slot_vpn] at h ⊢
    rw [hread]
    exact h
  | succ i ih =>
    intro table pa hm h
    have hread : m'.readWord (slot table (vpn va (i+1))) = m.readWord (slot table (vpn va (i+1))) :=
      Mem.readWord_congr (hm.mono ((slot_subset table _).trans (page_subset_tableTree m (i+1) table)))
    obtain ⟨hv, ⟨hl, -⟩ | ⟨hl, k, hk, hwalk⟩⟩ := sv39Walk_cases h
    · unfold sv39Walk at h ⊢
      simp only [slot_vpn] at h ⊢
      rw [hread]
      rw [isLeaf_of_sv39Valid hv] at hl
      rw [if_neg (by simpa using hv), if_pos hl] at h ⊢
      exact h
    · obtain rfl : i = k := by omega
      have hbelow : tree m (i+1) (entryAt m (slot table (vpn va (i+1)))) = tableTree m i _ :=
        tree_branch (by
          unfold Entry.isInvalid
          rw [isValid_of_sv39Valid hv]
          decide) (by rw [hl]; decide) i
      have harea := area_below m (i+1) table (vpn va (i+1))
      unfold below at harea
      rw [hbelow] at harea
      have hnext := ih (hm.mono harea) hwalk
      rw [target_eq hv] at hnext
      rw [isLeaf_of_sv39Valid hv] at hl
      unfold sv39Walk
      simp only [slot_vpn]
      rw [hread, if_neg (by simpa using hv), if_neg (by rw [hl]; decide)]
      exact hnext

theorem sv39User_congr {m m' : Mem} {root : Nat} (hm : Set.EqOn m' m (area (tableTree m 2 root))) (va : Word) :
    sv39User m' root va = sv39User m root va := by
  have hback : Set.EqOn m m' (area (tableTree m' 2 root)) := by
    rw [tableTree_congr hm]
    exact hm.symm
  unfold sv39User
  split
  · refine Option.ext fun pa => ⟨fun h => ?_, fun h => ?_⟩
    · exact sv39Walk_congr 2 hback h
    · exact sv39Walk_congr 2 hm h
  · rfl

end Citron.Paging

namespace Citron.Syscall
open Paging Fs Loader Answers

/-! ## `open` and `seek` -/

section arms
variable {σ : Type} (B : BackingFileSystem σ)

/-- the bytes up to the next zero; `none` without fuel -/
def cString : Nat → Mem → Nat → Option (List UInt8)
  | 0, _, _ => none
  | fuel+1, m, a => if m a = 0 then some [] else (cString fuel m (a + 1)).map (m a :: ·)

/-- every byte is pushed as a character -/
def pathString (bytes : List UInt8) : String := String.ofList (bytes.map fun b => Char.ofNat b.toNat)

def sysSeek (k : Kernel σ) (fd offset : Word) (whence : Nat) : Outcome σ :=
  match k.fs.seek fd offset whence with
  | (.error _, fs) => ⟨-1, k.mem, fs, [], []⟩
  | (.ok n, fs) => ⟨n, k.mem, fs, [], []⟩

def sysOpen (fuel : Nat) (k : Kernel σ) (path : Nat) : Option (Outcome σ) :=
  (cString fuel k.mem path).bind fun bytes =>
    let touched := (List.range (bytes.length + 1)).map (path + ·)
    (k.fs.openFile B (pathString bytes)).map fun (res, fs) =>
      match res with
      | .error _ => ⟨-1, k.mem, fs, [], touched⟩
      | .ok fd => ⟨fd, k.mem, fs, [], touched⟩

/-- the arms 2 and 3 of `execute_syscall`; `rest` stands for the others -/
def fileArms (fuel : Nat) (rest : Word → Kernel σ → Option (Outcome σ)) (number : Word) (k : Kernel σ) :
    Option (Outcome σ) :=
  let arg := k.trapFrame.getArgRaw
  if number = 2 then
    (arg 1).bind fun fd => (arg 2).bind fun offset => (arg 3).bind fun whence =>
      some (sysSeek k fd offset (whence.setWidth 32).toNat)
  else if number = 3 then (getArgPtr k 1).bind (sysOpen B fuel k)
  else rest number k

end arms

/-! ## a process and its calls -/

inductive UserCall where
  /-- a byte that the process stores itself -/
  | store (va : Word) (b : UInt8)
  /-- `path` is what the process has at `ptr` -/
  | openFile (ptr : Word) (path : List UInt8)
  | seek (fd offset whence : Word)
  | read (fd buf count : Word)
  | write (fd buf count : Word)
deriving DecidableEq, Repr

/-- the registers of a call -/
def UserCall.regs : UserCall → TrapFrame
  | .store _ _ => ⟨0, 0, 0, 0, 0, 0, 0, 0⟩
  | .openFile ptr _ => ⟨3, ptr, 0, 0, 0, 0, 0, 0⟩
  | .seek fd offset whence => ⟨2, fd, offset, whence, 0, 0, 0, 0⟩
  | .read fd buf count => ⟨0, fd, buf, count, 0, 0, 0, 0⟩
  | .write fd buf count => ⟨1, fd, buf, count, 0, 0, 0, 0⟩

/-- what a call returns, and what it prints -/
abbrev Reply := Word × List Char

section step
variable (toUppercase : List Char → List Char) (rest : Word → Kernel Fat32 → Option (Outcome Fat32)) (root : Nat)

def ecall (fuel : Nat) (call : UserCall) (m : Mem) (fs : FileSystem Fat32) : Option (Reply × Mem × FileSystem Fat32) :=
  let B := Fat32.backing toUppercase fuel
  (executeSyscall B (fileArms B fuel rest) ⟨m, root, call.regs, fs⟩).map fun o => ((o.ret, o.output), o.mem, o.fs)

def UserCall.step (fuel : Nat) : UserCall → Mem × FileSystem Fat32 → Option (Reply × Mem × FileSystem Fat32)
  | .store va b, (m, fs) => (sv39User m root va).map fun x => ((0, []), fun y => if y = x then b else m y, fs)
  | call, (m, fs) => ecall toUppercase rest root fuel call m fs

end step

/-! ## what they mean -/

/-- memory behind a translation -/
def storeByte (τ : Word → Option Nat) (va : Word) (b : UInt8) (m : Mem) : Mem := fun x => if τ va = some x then b else m x

def storeBytes (τ : Word → Option Nat) : Word → List UInt8 → Mem → Mem
  | _, [], m => m
  | va, b :: bs, m => storeBytes τ (va + 1) bs (storeByte τ va b m)

def loadByte (τ : Word → Option Nat) (va : Word) (m : Mem) : Option UInt8 := (τ va).map m

def ret : Answer → Word
  | .number (.ok n) => n
  | .bytes (.ok bs) => BitVec.ofNat 64 bs.length
  | _ => -1

def bytesOf : Answer → List UInt8
  | .bytes (.ok bs) => bs
  | _ => []

def UserCall.meaning (store : String → Option Stored) (τ : Word → Option Nat) :
    UserCall → Mem × Session → Reply × Mem × Session
  | .store va b, (m, s) => ((0, []), storeByte τ va b m, s)
  | .openFile _ path, (m, s) =>
    let (a, s) := SessionCall.answer store (.openFile (pathString path)) s
    ((ret a, []), m, s)
  | .seek fd offset whence, (m, s) =>
    let (a, s) := SessionCall.answer store (.seek fd offset (whence.setWidth 32).toNat) s
    ((ret a, []), m, s)
  | .read fd buf count, (m, s) =>
    if fd = 0 ∨ fd = 1 ∨ fd = 2 then ((0, []), m, s)
    else
      let (a, s) := SessionCall.answer store (.read fd count.toNat) s
      ((ret a, []), storeBytes τ buf (bytesOf a) m, s)
  | .write _ buf count, (m, s) =>
    ((0, (List.range count.toNat).map fun i =>
      Char.ofNat ((loadByte τ (buf + BitVec.ofNat 64 i) m).getD 0).toNat), m, s)

/-! ## proper calls -/

/-- the process may store at the address -/
def Writable (m : Mem) (root : Nat) (va : Word) : Prop :=
  ∃ e, leafOf m root va = some e ∧ user e ∧ e.permissions &&& EntryBits.W.val ≠ 0#64

/-- **Proper calls.** The process stores where it may; a path is a string in its memory; a buffer is on pages that follow
each other, and for `read` the process may store there; on the files the call is proper as for a session. -/
def UserCall.Proper {toUppercase : List Char → List Char} {f : Fat32} (T : Tree toUppercase f) (m₀ : Mem) (root : Nat) :
    Mem × Session → UserCall → Prop
  | _, .store va _ => (∃ x, sv39User m₀ root va = some x) ∧ Writable m₀ root va
  | (m, s), .openFile ptr path => (∃ pa, UserContiguous m₀ root ptr (path.length + 1) pa) ∧
    (∀ i, i ≤ path.length → loadByte (sv39User m₀ root) (ptr + BitVec.ofNat 64 i) m = some (path.getD i 0)) ∧
    0 ∉ path ∧ T.Proper s (.openFile (pathString path))
  | _, .seek _ _ _ => True
  | (_, s), .read fd buf count => (∃ pa, UserContiguous m₀ root buf count.toNat pa) ∧
    (¬ (fd = 0 ∨ fd = 1 ∨ fd = 2) → T.Proper s (.read fd count.toNat) ∧
      ∀ i, i < count.toNat → Writable m₀ root (buf + BitVec.ofNat 64 i))
  | _, .write _ buf count => ∃ pa, UserContiguous m₀ root buf count.toNat pa

/-! ## memory that changes where the process may store -/

/-- the tables are not where the process may store -/
structure Sealed (m : Mem) (blocks : List Block) (root : Nat) : Prop where
  paged : Paged ⟨m, blocks⟩ root
  apart : ∀ x, Reaches m root EntryBits.W.val x → x ∉ area (tableTree m 2 root)

/-- only what the process may store at has changed -/
def Untouched (m₀ : Mem) (root : Nat) (m : Mem) : Prop := ∀ x, ¬ Reaches m₀ root EntryBits.W.val x → m x = m₀ x

section paged
variable {m : Mem} {blocks : List Block} {root : Nat} (hw : Paged ⟨m, blocks⟩ root)
include hw

/-- the kernel translates as the hardware does -/
theorem virtToPhys_of_sv39User {pa : Nat} {va : Word} (h : sv39User m root va = some pa) :
    ∃ w, virtToPhys m root va = some (some w) ∧ w.toNat = pa := by
  rcases sv39User_virtToPhys h with hnone | hsome
  · cases hleaf : leafOf m root va with
    | none => cases hnone.symm.trans (virtToPhys_of_no_leaf hw hleaf)
    | some e => cases hnone.symm.trans (virtToPhys_of_leaf hw hleaf)
  · exact hsome

theorem Writable.reaches {x : Nat} {va : Word} (h : Writable m root va) (hx : sv39User m root va = some x) :
    Reaches m root EntryBits.W.val x := by
  obtain ⟨e, hleaf, huser, hperm⟩ := h
  exact ⟨va, e, hleaf, huser, hperm, virtToPhys_of_sv39User hw hx⟩

end paged

section sealed
variable {m₀ : Mem} {blocks : List Block} {root : Nat} (h : Sealed m₀ blocks root) {m : Mem} (hm : Untouched m₀ root m)
include h hm

theorem Sealed.tables : Set.EqOn m m₀ (area (tableTree m₀ 2 root)) :=
  fun x hx => hm x fun hr => h.apart x hr hx

theorem Sealed.user (va : Word) : sv39User m root va = sv39User m₀ root va := sv39User_congr (h.tables hm) va

theorem Sealed.ptr {va : Word} {pa : Nat} (hva : sv39User m₀ root va = some pa) :
    ∃ w, virtToPhys m root va = some (some w) ∧ w.toNat = pa := by
  rw [← h.user hm] at hva
  exact virtToPhys_of_sv39User (h.paged.congr (h.tables hm)) hva

end sealed

/-- bytes at addresses that follow each other are stored at one place -/
theorem storeBytes_blit (τ : Word → Option Nat) (bs : List UInt8) : ∀ (va : Word) (pa : Nat) (m : Mem),
    (∀ i, i < bs.length → τ (va + BitVec.ofNat 64 i) = some (pa + i)) → storeBytes τ va bs m = m.blit pa bs := by
  induction bs with
  | nil =>
    intro va pa m _
    funext x
    exact (Mem.blit_of_notMem fun hx => by
      rw [Mem.mem_range, List.length_nil] at hx
      omega).symm
  | cons b bs ih =>
    intro va pa m hτ
    have hfirst : τ va = some pa := by
      have h := hτ 0 (Nat.succ_pos _)
      rwa [show BitVec.ofNat 64 0 = 0#64 from rfl, BitVec.add_zero] at h
    have hrest : ∀ i, i < bs.length → τ (va + 1 + BitVec.ofNat 64 i) = some (pa + 1 + i) := by
      intro i hi
      have h := hτ (i + 1) (Nat.succ_lt_succ hi)
      rw [BitVec.ofNat_add, BitVec.add_comm (BitVec.ofNat 64 i), ← BitVec.add_assoc] at h
      rw [show va + 1 = va + BitVec.ofNat 64 1 from rfl, h, Nat.add_assoc, Nat.add_comm 1 i]
    show storeBytes τ (va + 1) bs (storeByte τ va b m) = _
    rw [ih (va + 1) (pa + 1) _ hrest]
    funext x
    unfold Mem.blit storeByte
    rw [hfirst, List.length_cons]
    by_cases hx : pa + 1 ≤ x ∧ x < pa + 1 + bs.length
    · obtain ⟨k, rfl⟩ := Nat.exists_eq_add_of_le hx.1
      rw [if_pos hx, if_pos (by omega), Nat.add_sub_cancel_left, show pa + 1 + k - pa = k + 1 by omega,
        List.getD_cons_succ]
    · rw [if_neg hx]
      by_cases hpa : pa = x
      · subst hpa
        rw [if_pos rfl, if_pos (by omega), Nat.sub_self, List.getD_cons_zero]
      · rw [if_neg fun he => hpa (Option.some.inj he), if_neg (by omega)]

/-- a string in memory -/
theorem cString_eq (path : List UInt8) : ∀ {fuel : Nat} {m : Mem} {a : Nat}, path.length < fuel → 0 ∉ path →
    (∀ i, i ≤ path.length → m (a + i) = path.getD i 0) → cString fuel m a = some path := by
  induction path with
  | nil =>
    intro fuel m a hfuel _ hm
    obtain ⟨fuel, rfl⟩ := Nat.exists_eq_add_one_of_ne_zero (Nat.ne_of_gt hfuel)
    exact if_pos (hm 0 (Nat.zero_le _))
  | cons b path ih =>
    intro fuel m a hfuel hz hm
    obtain ⟨fuel, rfl⟩ := Nat.exists_eq_add_one_of_ne_zero (Nat.ne_of_gt (Nat.zero_lt_of_lt hfuel))
    have hb : m a = b := hm 0 (Nat.zero_le _)
    have hrest : cString fuel m (a + 1) = some path := by
      refine ih (Nat.lt_of_succ_lt_succ hfuel) (List.not_mem_of_not_mem_cons hz) fun i hi => ?_
      have h := hm (i + 1) (Nat.succ_le_succ hi)
      rw [List.getD_cons_succ] at h
      rw [← h, Nat.add_assoc, Nat.add_comm 1 i]
    show (if m a = 0 then _ else _) = _
    rw [hb, if_neg (fun h : b = 0 => hz (h ▸ List.mem_cons_self)), hrest]
    rfl

theorem blit_nil (m : Mem) (a : Nat) : m.blit a [] = m := by
  funext x
  refine Mem.blit_of_notMem fun hx => ?_
  rw [Mem.mem_range, List.length_nil] at hx
  omega

/-! ## what the kernel does in a call -/

section calls
variable {toUppercase : List Char → List Char} {rest : Word → Kernel Fat32 → Option (Outcome Fat32)} {root fuel : Nat}
  {m : Mem} {fs : FileSystem Fat32} {w : Word}

theorem ecall_seek (fd offset whence : Word) : ecall toUppercase rest root fuel (.seek fd offset whence) m fs
    = some ((ret (.number (fs.seek fd offset (whence.setWidth 32).toNat).1), []), m,
      (fs.seek fd offset (whence.setWidth 32).toNat).2) := by
  have harm : executeSyscall (Fat32.backing toUppercase fuel) (fileArms (Fat32.backing toUppercase fuel) fuel rest)
      ⟨m, root, (UserCall.seek fd offset whence).regs, fs⟩
      = some (sysSeek ⟨m, root, (UserCall.seek fd offset whence).regs, fs⟩ fd offset (whence.setWidth 32).toNat) := rfl
  unfold ecall
  dsimp only
  rw [harm]
  unfold sysSeek
  dsimp only
  rcases fs.seek fd offset (whence.setWidth 32).toNat with ⟨e | n, fs'⟩ <;> rfl

theorem ecall_open {ptr : Word} {path : List UInt8} (hptr : virtToPhys m root ptr = some (some w))
    (hstr : cString fuel m w.toNat = some path) : ecall toUppercase rest root fuel (.openFile ptr path) m fs
      = (SessionCall.step (Fat32.backing toUppercase fuel) (.openFile (pathString path)) fs).map fun (a, fs) =>
        ((ret a, []), m, fs) := by
  have harg : getArgPtr ⟨m, root, (UserCall.openFile ptr path).regs, fs⟩ 1 = some w.toNat := by
    show (virtToPhys m root ptr).bind _ = _
    rw [hptr]
    rfl
  show ((getArgPtr ⟨m, root, (UserCall.openFile ptr path).regs, fs⟩ 1).bind (sysOpen _ fuel _)).map _ = _
  rw [harg, Option.bind_some]
  unfold sysOpen SessionCall.step
  dsimp only
  rw [hstr, Option.bind_some]
  rcases fs.openFile (Fat32.backing toUppercase fuel) (pathString path) with _ | ⟨e | n, fs'⟩ <;> rfl

theorem ecall_read {fd buf count : Word} (hptr : virtToPhys m root buf = some (some w)) :
    ecall toUppercase rest root fuel (.read fd buf count) m fs
      = if fd = 0 ∨ fd = 1 ∨ fd = 2 then some ((0, []), m, fs)
        else (SessionCall.step (Fat32.backing toUppercase fuel) (.read fd count.toNat) fs).map fun (a, fs) =>
          ((ret a, []), m.blit w.toNat (bytesOf a), fs) := by
  have harg : getArgPtr ⟨m, root, (UserCall.read fd buf count).regs, fs⟩ 2 = some w.toNat := by
    show (virtToPhys m root buf).bind _ = _
    rw [hptr]
    rfl
  show ((getArgPtr ⟨m, root, (UserCall.read fd buf count).regs, fs⟩ 2).bind fun buf => sysRead _ _ fd buf count).map _ = _
  rw [harg, Option.bind_some]
  unfold sysRead
  split_ifs
  · rfl
  · unfold SessionCall.step
    dsimp only
    rcases fs.read (Fat32.backing toUppercase fuel) fd count.toNat with _ | ⟨e | bs, fs'⟩
    · rfl
    · show some _ = some ((_, m.blit w.toNat [], fs'))
      rw [blit_nil]
      rfl
    · rfl

theorem ecall_write {fd buf count : Word} (hptr : virtToPhys m root buf = some (some w)) :
    ecall toUppercase rest root fuel (.write fd buf count) m fs
      = some ((0, (List.range count.toNat).map fun i => Char.ofNat (m (w.toNat + i)).toNat), m, fs) := by
  have harg : getArgPtr ⟨m, root, (UserCall.write fd buf count).regs, fs⟩ 2 = some w.toNat := by
    show (virtToPhys m root buf).bind _ = _
    rw [hptr]
    rfl
  show ((getArgPtr ⟨m, root, (UserCall.write fd buf count).regs, fs⟩ 2).bind fun buf => some (sysWrite _ buf count)).map _ = _
  rw [harg]
  exact congrArg (fun l => some ((0, l), m, fs)) List.map_map

end calls

/-! ## the calls do what they mean -/

/-- the memory and the file system carry the memory and the session of the process -/
structure Serves {toUppercase : List Char → List Char} {f : Fat32} (T : Tree toUppercase f) (m₀ : Mem) (root : Nat)
    (k : Mem × FileSystem Fat32) (p : Mem × Session) : Prop where
  mem : k.1 = p.1
  untouched : Untouched m₀ root p.1
  carries : Carries T k.2 p.2

/-- no more is read than asked for -/
theorem read_length {store : String → Option Stored} {fd : Word} {len : Nat} {s : Session} {bs : List UInt8}
    (h : (SessionCall.answer store (.read fd len) s).1 = .bytes (.ok bs)) : bs.length ≤ len := by
  unfold SessionCall.answer at h
  dsimp only at h
  split at h
  · cases h
  · cases h
    exact List.length_take_le _ _

section simulation
variable {toUppercase : List Char → List Char} {f : Fat32} {T : Tree toUppercase f} {m₀ : Mem} {blocks : List Block} {root : Nat}
  (rest : Word → Kernel Fat32 → Option (Outcome Fat32)) (h : Sealed m₀ blocks root)
include h

theorem Sealed.store {va : Word} {b : UInt8} {p : Mem × Session} (hok : UserCall.Proper T m₀ root p (.store va b))
    (fuel : Nat) {k : Mem × FileSystem Fat32} (hk : Serves T m₀ root k p) :
    ∃ k', UserCall.step toUppercase rest root fuel (.store va b) k
        = some ((UserCall.meaning T.store (sv39User m₀ root) (.store va b) p).1, k') ∧
      Serves T m₀ root k' (UserCall.meaning T.store (sv39User m₀ root) (.store va b) p).2 := by
  obtain ⟨m, ses⟩ := p
  obtain ⟨m', fs⟩ := k
  obtain ⟨hmem, hm, hc⟩ := hk
  obtain rfl : m = m' := hmem.symm
  obtain ⟨⟨x, hx⟩, hw⟩ := hok
  have hstep : UserCall.step toUppercase rest root fuel (.store va b) (m, fs)
      = some ((0, []), fun y => if y = x then b else m y, fs) := by
    show (sv39User m root va).map _ = _
    rw [h.user hm, hx]
    rfl
  have hstore : storeByte (sv39User m₀ root) va b m = fun y => if y = x then b else m y := by
    funext y
    unfold storeByte
    rw [hx]
    exact if_congr ⟨fun he => (Option.some.inj he).symm, fun he => by rw [he]⟩ rfl rfl
  refine ⟨_, hstep, hstore.symm, fun y hy => ?_, hc⟩
  show storeByte _ va b m y = _
  rw [hstore]
  have hne : y ≠ x := by
    rintro rfl
    exact hy (hw.reaches h.paged hx)
  exact (if_neg hne).trans (hm y hy)

theorem Sealed.write {fd buf count : Word} {p : Mem × Session}
    (hok : UserCall.Proper T m₀ root p (.write fd buf count)) (fuel : Nat) {k : Mem × FileSystem Fat32}
    (hk : Serves T m₀ root k p) :
    ∃ k', UserCall.step toUppercase rest root fuel (.write fd buf count) k
        = some ((UserCall.meaning T.store (sv39User m₀ root) (.write fd buf count) p).1, k') ∧
      Serves T m₀ root k' (UserCall.meaning T.store (sv39User m₀ root) (.write fd buf count) p).2 := by
  obtain ⟨m, ses⟩ := p
  obtain ⟨m', fs⟩ := k
  obtain ⟨hmem, hm, hc⟩ := hk
  obtain rfl : m = m' := hmem.symm
  obtain ⟨pa, hbuf⟩ := hok
  obtain ⟨w, hptr, rfl⟩ := h.ptr hm hbuf.1
  have hbytes : ((List.range count.toNat).map fun i => Char.ofNat (m (w.toNat + i)).toNat)
      = (List.range count.toNat).map fun i =>
        Char.ofNat ((loadByte (sv39User m₀ root) (buf + BitVec.ofNat 64 i) m).getD 0).toNat := by
    refine List.map_congr_left fun i hi => ?_
    unfold loadByte
    rw [hbuf.byte i (List.mem_range.mp hi)]
    rfl
  refine ⟨(m, fs), ?_, ⟨rfl, hm, hc⟩⟩
  show ecall toUppercase rest root fuel (.write fd buf count) m fs = _
  rw [ecall_write hptr, hbytes]
  rfl

section volume
variable (hf : f.Ready) (hspc : f.sectorsPerCluster = 1) (hup : ∀ name, 'å' ∉ toUppercase name) (hT : T.Complete)
include hf hspc hup hT

theorem Sealed.openFile {ptr : Word} {path : List UInt8} {p : Mem × Session}
    (hok : UserCall.Proper T m₀ root p (.openFile ptr path)) :
    ∃ fuel₀, ∀ fuel, fuel₀ ≤ fuel → ∀ k, Serves T m₀ root k p → ∃ k',
      UserCall.step toUppercase rest root fuel (.openFile ptr path) k
        = some ((UserCall.meaning T.store (sv39User m₀ root) (.openFile ptr path) p).1, k') ∧
      Serves T m₀ root k' (UserCall.meaning T.store (sv39User m₀ root) (.openFile ptr path) p).2 := by
  obtain ⟨m, ses⟩ := p
  obtain ⟨⟨pa, hbuf⟩, hbytes, hzero, hdirect⟩ := hok
  obtain ⟨fuel₀, hopen⟩ := Tree.simulates hf hspc hup hT (.openFile (pathString path)) ses hdirect
  refine ⟨max fuel₀ (path.length + 1), fun fuel hle k hk => ?_⟩
  obtain ⟨m', fs⟩ := k
  obtain ⟨hmem, hm, hc⟩ := hk
  obtain rfl : m = m' := hmem.symm
  obtain ⟨w, hptr, rfl⟩ := h.ptr hm hbuf.1
  have hstr : cString fuel m w.toNat = some path := by
    refine cString_eq path (by omega) hzero fun i hi => ?_
    have hbyte := hbytes i hi
    unfold loadByte at hbyte
    rw [hbuf.byte i (Nat.lt_succ_of_le hi)] at hbyte
    exact Option.some.inj hbyte
  obtain ⟨fs', hstep, hc'⟩ := hopen fuel (by omega) fs hc
  dsimp only at hstep
  refine ⟨(m, fs'), ?_, ⟨rfl, hm, hc'⟩⟩
  show ecall toUppercase rest root fuel (.openFile ptr path) m fs = _
  rw [ecall_open hptr hstr, hstep]
  rfl

theorem Sealed.read {fd buf count : Word} {p : Mem × Session}
    (hok : UserCall.Proper T m₀ root p (.read fd buf count)) :
    ∃ fuel₀, ∀ fuel, fuel₀ ≤ fuel → ∀ k, Serves T m₀ root k p → ∃ k',
      UserCall.step toUppercase rest root fuel (.read fd buf count) k
        = some ((UserCall.meaning T.store (sv39User m₀ root) (.read fd buf count) p).1, k') ∧
      Serves T m₀ root k' (UserCall.meaning T.store (sv39User m₀ root) (.read fd buf count) p).2 := by
  obtain ⟨m, ses⟩ := p
  obtain ⟨⟨pa, hbuf⟩, hfile⟩ := hok
  have hmeaning : UserCall.meaning T.store (sv39User m₀ root) (.read fd buf count) (m, ses)
      = if fd = 0 ∨ fd = 1 ∨ fd = 2 then ((0, []), m, ses)
        else
          let (a, ses) := SessionCall.answer T.store (.read fd count.toNat) ses
          ((ret a, []), storeBytes (sv39User m₀ root) buf (bytesOf a) m, ses) := rfl
  by_cases hfd : fd = 0 ∨ fd = 1 ∨ fd = 2
  · rw [hmeaning, if_pos hfd]
    refine ⟨0, fun fuel _ k hk => ?_⟩
    obtain ⟨m', fs⟩ := k
    obtain ⟨hmem, hm, hc⟩ := hk
    obtain rfl : m = m' := hmem.symm
    obtain ⟨w, hptr, rfl⟩ := h.ptr hm hbuf.1
    refine ⟨(m, fs), ?_, ⟨rfl, hm, hc⟩⟩
    show ecall toUppercase rest root fuel (.read fd buf count) m fs = _
    rw [ecall_read hptr, if_pos hfd]
  · rw [hmeaning, if_neg hfd]
    obtain ⟨hproper, hwritable⟩ := hfile hfd
    obtain ⟨fuel₀, hread⟩ := Tree.simulates hf hspc hup hT (.read fd count.toNat) ses hproper
    obtain ⟨a, hanswer⟩ : ∃ a, (SessionCall.answer T.store (.read fd count.toNat) ses).1 = a := ⟨_, rfl⟩
    have hlen : (bytesOf a).length ≤ count.toNat := by
      unfold bytesOf
      split
      · exact read_length hanswer
      · exact Nat.zero_le _
    refine ⟨fuel₀, fun fuel hle k hk => ?_⟩
    obtain ⟨m', fs⟩ := k
    obtain ⟨hmem, hm, hc⟩ := hk
    obtain rfl : m = m' := hmem.symm
    obtain ⟨w, hptr, rfl⟩ := h.ptr hm hbuf.1
    have hblit : storeBytes (sv39User m₀ root) buf (bytesOf a) m = m.blit w.toNat (bytesOf a) :=
      storeBytes_blit _ (bytesOf a) buf w.toNat m fun i hi => hbuf.byte i (by omega)
    obtain ⟨fs', hstep, hc'⟩ := hread fuel hle fs hc
    dsimp only at hstep ⊢
    rw [hanswer] at hstep ⊢
    refine ⟨(m.blit w.toNat (bytesOf a), fs'), ?_, ⟨hblit.symm, fun x hx => ?_, hc'⟩⟩
    · show ecall toUppercase rest root fuel (.read fd buf count) m fs = _
      rw [ecall_read hptr, if_neg hfd, hstep]
      rfl
    · dsimp only
      rw [hblit]
      -- every byte that is read goes where the process may store
      refine (Mem.blit_of_notMem fun hmemr => hx ?_).trans (hm x hx)
      obtain ⟨hle, hlt⟩ := Mem.mem_range.mp hmemr
      obtain ⟨i, rfl⟩ := Nat.exists_eq_add_of_le hle
      exact (hwritable i (by omega)).reaches h.paged (hbuf.byte i (by omega))

/-- **Every call does what it means.** -/
theorem Sealed.simulates : Simulates (UserCall.step toUppercase rest root)
    (UserCall.meaning T.store (sv39User m₀ root)) (Serves T m₀ root) (UserCall.Proper T m₀ root) := by
  intro call p hok
  cases call with
  | store va b => exact ⟨0, fun fuel _ k hk => h.store rest hok fuel hk⟩
  | openFile ptr path => exact h.openFile rest hf hspc hup hT hok
  | seek fd offset whence =>
    refine ⟨0, fun fuel _ k hk => ?_⟩
    obtain ⟨m, ses⟩ := p
    obtain ⟨m', fs⟩ := k
    obtain ⟨hmem, hm, hc⟩ := hk
    obtain rfl : m = m' := hmem.symm
    obtain ⟨hanswer, hc'⟩ := hc.seek fd offset (whence.setWidth 32).toNat
    refine ⟨(m, (fs.seek fd offset (whence.setWidth 32).toNat).2), ?_, ⟨rfl, hm, hc'⟩⟩
    show ecall toUppercase rest root fuel (.seek fd offset whence) m fs = _
    rw [ecall_seek, hanswer]
    rfl
  | read fd buf count => exact h.read rest hf hspc hup hT hok
  | write fd buf count => exact ⟨0, fun fuel _ k hk => h.write rest hok fuel hk⟩

end volume

end simulation

/-! ## the processes of a running kernel -/

theorem sealed_of_walled {c : Code} {s : System} (h : Walled c s) {i : Nat} {P : Loader.Process} (hi : s.m.ptable[i]? = some P)
    (ha : P.Alive) : Sealed s.m.heap.mem s.m.heap.blocks P.archProc.pageTable := by
  refine ⟨(h.booked.held i P hi).paged ha, fun x hx hx' => ?_⟩
  obtain ⟨p, hp, hxp⟩ := hx'
  have hd : (p, 4096) ∈ P.reserved s.m.heap.mem :=
    List.mem_append_left _ (List.mem_map.mpr ⟨p, mem_tablePages.mpr hp, rfl⟩)
  exact h.reserved_apart hi ha hi ha hx hd (range_subset_pagesOf (p, 4096) hxp)

/-- **Files.** Let the kernel have run by proper steps, and a process make any proper calls.  On a volume of 512-byte
clusters that `init` has accepted, with 8.3 names only and with a chain of clusters for everything, the calls mean what
they mean on the store of the volume and on memory as the process sees it, and of all memory only that changes where the
process may store itself: never a table, a trap frame or a kernel stack of any process. -/
theorem files_served {σ : Type} (A : PageAllocator) (D : Heap.Deallocator) (c : Code) (s₀ s : System) (h₀ : Booted c s₀)
    (as : List (SysAct σ)) (hok : Trace.Throughout (SysAct.step A D c) (SysAct.Proper A) as s₀)
    (hrun : Trace.run (SysAct.step A D c) as s₀ = some s) (i : Nat) (P : Loader.Process) (hi : s.m.ptable[i]? = some P)
    (hP : P.Alive) (toUppercase : List Char → List Char) (hup : ∀ name, 'å' ∉ toUppercase name) (disk : Disk) (f : Fat32)
    (hinit : (Fat32.new disk).init = some f) (hsize : f.sectorSize = 512) (hspc : f.sectorsPerCluster = 1)
    (T : Fs.Tree toUppercase f) (hT : T.Complete) (rest : Word → Kernel Fat32 → Option (Outcome Fat32))
    (calls : List UserCall) (replies : List Reply) (m' : Mem) (session : Session)
    (hcalls : Throughout (UserCall.meaning T.store (sv39User s.m.heap.mem P.archProc.pageTable))
      (UserCall.Proper T s.m.heap.mem P.archProc.pageTable) calls (s.m.heap.mem, Session.new))
    (hmean : runTotal (UserCall.meaning T.store (sv39User s.m.heap.mem P.archProc.pageTable)) calls
      (s.m.heap.mem, Session.new) = (replies, m', session)) :
    (∃ fuel₀, ∀ fuel, fuel₀ ≤ fuel → ∃ fs', run (UserCall.step toUppercase rest P.archProc.pageTable fuel) calls
      (s.m.heap.mem, FileSystem.new f) = some (replies, m', fs')) ∧
    ∀ x, m' x ≠ s.m.heap.mem x → Reaches s.m.heap.mem P.archProc.pageTable EntryBits.W.val x ∧
      ∀ (j : Nat) (Q : Loader.Process), s.m.ptable[j]? = some Q → Q.Alive → ∀ d ∈ Q.reserved s.m.heap.mem, x ∉ pagesOf d := by
  have hwalled : Walled c s := Trace.invariant (SysAct.Proper A) (Walled c)
    (fun _ _ _ hs hok hstep => hs.step hok hstep) as h₀.walled hok hrun
  have hsealed := sealed_of_walled hwalled hi hP
  have hf : f.Ready := Fat32.init_ready hinit hsize hspc
  obtain ⟨fuel₀, hserve⟩ := (hsealed.simulates rest hf hspc hup hT).run calls _ hcalls
  rw [hmean] at hserve
  have hstart : Serves T s.m.heap.mem P.archProc.pageTable (s.m.heap.mem, FileSystem.new f) (s.m.heap.mem, Session.new) :=
    ⟨rfl, fun _ _ => rfl, ⟨Fat32.Reads.refl f, rfl, fun _ => .none⟩⟩
  refine ⟨⟨fuel₀, fun fuel hle => ?_⟩, fun x hx => ?_⟩
  · obtain ⟨⟨m₁, fs'⟩, hrun', hend⟩ := hserve fuel hle _ hstart
    obtain rfl : m₁ = m' := hend.mem
    exact ⟨fs', hrun'⟩
  · obtain ⟨k, -, hend⟩ := hserve fuel₀ le_rfl _ hstart
    have hr : Reaches s.m.heap.mem P.archProc.pageTable EntryBits.W.val x := by
      by_contra hno
      exact hx (hend.untouched x hno)
    exact ⟨hr, fun j Q hj hQ d hd => hwalled.reserved_apart hi hP hj hQ hr hd⟩

/-! ## one process -/

def createOne : List (SysAct Unit) := [.process (.createProcess true)]

/-- the user stack -/
def stack : Word := 0xffffffffffffe000#64

/-- a program that puts a path on its stack, reads a byte of the file to the same place and prints it -/
def copyOne : List UserCall :=
  [.store stack 97, .store (stack + 1) 0, .openFile stack [97], .read 3 stack 1, .write 1 stack 1]

/-- the kernel with the process -/
theorem createOne_run : ∃ s P, Trace.run (SysAct.step pages quiet sampleCode) createOne bareSystem = some s ∧
    Trace.Throughout (SysAct.step pages quiet sampleCode) (SysAct.Proper pages) createOne bareSystem ∧
    s.m.ptable[0]? = some P ∧ P.Alive ∧ sv39User s.m.heap.mem P.archProc.pageTable stack = some 0x8021c000 ∧
    leafOf s.m.heap.mem P.archProc.pageTable stack = some 0x20087017#64 := by
  have hview : (Trace.run (SysAct.step pages quiet sampleCode) createOne bareSystem).map (fun s =>
      s.m.ptable.map fun P => (P.free, P.archProc.pageTable, sv39User s.m.heap.mem P.archProc.pageTable stack,
        leafOf s.m.heap.mem P.archProc.pageTable stack))
        = some [(false, 0x80216000, some 0x8021c000, some 0x20087017#64)] := by
    decide +kernel
  obtain ⟨s, hrun, hview⟩ := Option.map_eq_some_iff.mp hview
  obtain ⟨P, l, hs, hview, -⟩ := List.map_eq_cons_iff.mp hview
  obtain ⟨hfree, hview⟩ := Prod.mk.inj hview
  obtain ⟨hroot, hview⟩ := Prod.mk.inj hview
  obtain ⟨huser, hleaf⟩ := Prod.mk.inj hview
  refine ⟨s, P, hrun, ⟨serves_bare, fun _ _ => trivial⟩, ?_, ⟨hfree, ?_⟩, huser, hleaf⟩
  · rw [hs]
    rfl
  · rw [hroot]
    decide

theorem files_served_copyOne : ∃ s P m', Trace.run (SysAct.step pages quiet sampleCode) createOne bareSystem = some s ∧
    s.m.ptable[0]? = some P ∧
    (∃ fuel₀, ∀ fuel, fuel₀ ≤ fuel → ∃ fs',
      run (UserCall.step upperAscii (fun _ _ => none) P.archProc.pageTable fuel) copyOne
        (s.m.heap.mem, FileSystem.new sessionVolume)
          = some ([(0, []), (0, []), (3, []), (1, []), (0, [Char.ofNat 7])], m', fs')) ∧
    ∀ x, m' x ≠ s.m.heap.mem x → Reaches s.m.heap.mem P.archProc.pageTable EntryBits.W.val x ∧
      ∀ (j : Nat) (Q : Loader.Process), s.m.ptable[j]? = some Q → Q.Alive → ∀ d ∈ Q.reserved s.m.heap.mem, x ∉ pagesOf d := by
  obtain ⟨s, P, hrun, hok, hP, ha, huser, hleaf⟩ := createOne_run
  obtain ⟨m, hm⟩ : ∃ m, s.m.heap.mem = m := ⟨_, rfl⟩
  obtain ⟨root, hroot⟩ : ∃ root, P.archProc.pageTable = root := ⟨_, rfl⟩
  obtain ⟨τ, hτ⟩ : ∃ τ, sv39User m root = τ := ⟨_, rfl⟩
  rw [hm, hroot] at huser hleaf
  have hnext : τ (stack + 1) = some 0x8021c001 := by
    rw [← hτ]
    exact sv39User_add (k := 1) (by decide) huser
  rw [hτ] at huser
  obtain ⟨meaning, hmeaning⟩ : ∃ meaning, UserCall.meaning sessionTree.store τ = meaning := ⟨_, rfl⟩
  -- the memory after each of the calls
  obtain ⟨m₁, hm₁⟩ : ∃ m₁, storeByte τ stack 97 m = m₁ := ⟨_, rfl⟩
  obtain ⟨m₂, hm₂⟩ : ∃ m₂, storeByte τ (stack + 1) 0 m₁ = m₂ := ⟨_, rfl⟩
  obtain ⟨m₃, hm₃⟩ : ∃ m₃, storeByte τ stack 7 m₂ = m₃ := ⟨_, rfl⟩
  have hopen : meaning (.openFile stack [97]) (m₂, Session.new)
      = ((3, []), m₂, Session.one ⟨"a", sampleFile, 0⟩) := by
    rw [← hmeaning]
    unfold UserCall.meaning
    dsimp only
    rw [show pathString [97] = "a" by decide, sample_open]
    rfl
  have hread : meaning (.read 3 stack 1) (m₂, Session.one ⟨"a", sampleFile, 0⟩)
      = ((1, []), m₃, Session.one ⟨"a", sampleFile, 1⟩) := by
    rw [← hmeaning, ← hm₃]
    unfold UserCall.meaning
    dsimp only
    rw [if_neg (by decide), Session.one_read]
    rfl
  have hwrite : meaning (.write 1 stack 1) (m₃, Session.one ⟨"a", sampleFile, 1⟩)
      = ((0, [Char.ofNat 7]), m₃, Session.one ⟨"a", sampleFile, 1⟩) := by
    have hload : loadByte τ (stack + BitVec.ofNat 64 0) m₃ = some 7 := by
      unfold loadByte
      rw [show stack + BitVec.ofNat 64 0 = stack by decide, huser, ← hm₃]
      unfold storeByte
      rw [huser]
      rfl
    rw [← hmeaning]
    unfold UserCall.meaning
    show ((0, [Char.ofNat ((loadByte τ (stack + BitVec.ofNat 64 0) m₃).getD 0).toNat]), _) = _
    rw [hload]
    rfl
  have hfirst : meaning (.store stack 97) (m, Session.new) = ((0, []), m₁, Session.new) := by
    rw [← hmeaning, ← hm₁]
    rfl
  have hsecond : meaning (.store (stack + 1) 0) (m₁, Session.new) = ((0, []), m₂, Session.new) := by
    rw [← hmeaning, ← hm₂]
    rfl
  have hmean : runTotal meaning copyOne (m, Session.new)
      = ([(0, []), (0, []), (3, []), (1, []), (0, [Char.ofNat 7])], m₃, Session.one ⟨"a", sampleFile, 1⟩) := by
    unfold copyOne
    rw [runTotal, hfirst, runTotal, hsecond, runTotal, hopen, runTotal, hread, runTotal, hwrite]
    rfl
  have hflags : user 0x20087017#64 ∧ Entry.permissions 0x20087017#64 &&& EntryBits.W.val ≠ 0#64 := by
    unfold user
    decide
  have hwritable : Writable m root stack := ⟨_, hleaf, hflags⟩
  have hwritable' : Writable m root (stack + 1) := by
    refine ⟨0x20087017#64, ?_, hflags⟩
    unfold leafOf at hleaf ⊢
    rw [show path (stack + 1) 3 = path stack 3 by decide]
    exact hleaf
  have hpages : ∀ n, n ≤ 2 → UserContiguous m root stack n 0x8021c000 := by
    intro n hn
    rw [← hτ] at huser
    refine ⟨huser, fun j h0 hj hd => ?_⟩
    obtain rfl : j = 1 := by omega
    exact absurd hd (by decide)
  have hpath : ∀ i, i ≤ 1 → loadByte (sv39User m root) (stack + BitVec.ofNat 64 i) m₂ = some ([97].getD i 0) := by
    rw [hτ, ← hm₂, ← hm₁]
    intro i hi
    unfold loadByte storeByte
    rw [huser, hnext]
    obtain rfl | rfl := Nat.le_one_iff_eq_zero_or_eq_one.mp hi
    · rw [show stack + BitVec.ofNat 64 0 = stack by decide, huser]
      rfl
    · rw [show stack + BitVec.ofNat 64 1 = stack + 1 by decide, hnext]
      rfl
  have hcalls : Throughout meaning (UserCall.Proper sessionTree m root) copyOne (m, Session.new) := by
    rw [← hτ] at huser hnext
    refine ⟨⟨⟨_, huser⟩, hwritable⟩, ?_⟩
    rw [hfirst]
    refine ⟨⟨⟨_, hnext⟩, hwritable'⟩, ?_⟩
    rw [hsecond]
    refine ⟨⟨⟨_, hpages 2 le_rfl⟩, hpath, by decide, sessionTree_direct⟩, ?_⟩
    rw [hopen]
    refine ⟨⟨⟨_, hpages 1 (by decide)⟩, fun _ => ⟨fun h hh => ?_, fun i hi => ?_⟩⟩, ?_⟩
    · cases (Session.one_handles _).symm.trans hh
      exact sample_nonempty
    · obtain rfl : i = 0 := Nat.lt_one_iff.mp hi
      exact hwritable
    rw [hread]
    exact ⟨⟨_, hpages 1 (by decide)⟩, trivial⟩
  subst hmeaning hτ hm hroot
  exact ⟨s, P, m₃, hrun, hP, files_served pages quiet sampleCode bareSystem s booted_bare createOne hok hrun 0 P hP ha
    upperAscii upperAscii_unmarked sessionDisk sessionVolume sessionDisk_init rfl rfl sessionTree sessionTree_complete
    (fun _ _ => none) copyOne _ m₃ _ hcalls hmean⟩

end Citron.Syscall
