import Citron.Lib.Trace
import Citron.Loader.Pinned

/-!
# The memory of processes

What a process has on the heap, from `create_process` of `src/process.rs` to `kill`: the kernel stack, and in
`arch_proc` of `src/arch/riscv64/process.rs` the trap frame, the page table, the user stack and the buffers of
the segments.  `free` gives them back, with `unmap` of `src/arch/riscv64/paging.rs` for the tables.  What
nothing here reads is left out: contexts, names and priorities, and the queues of the scheduler.

* `ArchProcess.new`, `init`, `initProgram`, `free`   as in the source;
* `Manager`, `Act`         the process table on its heap, and what happens to it;
* `Process.owned`          the blocks that were allocated for the fields of a process and not given back since;
* `free_eq`                `free` gives back the user stack, the tables from below, the trap frame and the
                           segments, as long as the tables can be read.
-/

namespace Citron.Loader
open Paging Fs Heap

/-! ## `unmap` -/

/-- the loops of `unmap` from the entry of level `i` at `v` on; `none` is the `unwrap` of a null pointer -/
def unmapEntry (D : Deallocator) : Nat → Nat → Account → Option Account
  | 0, v, a =>
    let e := entryAt a.heap.mem v
    if e.isValid && !e.isLeaf then some (a.dealloc D (e.target, 0x1000)) else some a
  | i+1, v, a =>
    let e := entryAt a.heap.mem v
    if e.isValid && !e.isLeaf then
      if e.target = 0 then none
      else
        ((List.finRange 512).foldlM (fun a j => unmapEntry D i (slot e.target j) a) a).map fun a =>
          a.dealloc D (e.target, 0x1000)
    else some a

def unmap (D : Deallocator) (root : Nat) (a : Account) : Option Account :=
  (List.finRange 512).foldlM (fun a j => unmapEntry D 2 (slot root j) a) a

/-- the turns of a loop with the tables that they read and deallocate -/
def visitAll (f : Fin 512 → Account → Option (List (Radix.Visit Nat) × Account)) :
    List (Fin 512) → Account → Option (List (Radix.Visit Nat) × Account)
  | [], a => some ([], a)
  | j :: js, a => (f j a).bind fun (ws, a) => (visitAll f js a).map fun (vs, a) => (ws ++ vs, a)

/-- `unmapEntry` at entry `j` of the table at `t`, with the tables that it reads and deallocates -/
def unmapEntryVisits (D : Deallocator) : Nat → Nat → Fin 512 → Account → Option (List (Radix.Visit Nat) × Account)
  | 0, t, j, a =>
    let e := entryAt a.heap.mem (slot t j)
    if e.isValid && !e.isLeaf then some ([.read t, .free e.target], a.dealloc D (e.target, 0x1000))
    else some ([.read t], a)
  | i+1, t, j, a =>
    let e := entryAt a.heap.mem (slot t j)
    if e.isValid && !e.isLeaf then
      if e.target = 0 then none
      else
        (visitAll (unmapEntryVisits D i e.target) (List.finRange 512) a).map fun (vs, a) =>
          (.read t :: vs ++ [.free e.target], a.dealloc D (e.target, 0x1000))
    else some ([.read t], a)

def unmapVisits (D : Deallocator) (root : Nat) (a : Account) : Option (List (Radix.Visit Nat) × Account) :=
  visitAll (unmapEntryVisits D 2 root) (List.finRange 512) a

/-! ## `ArchProcess` -/

/-- `NonNull::<Table>::dangling()` -/
def dangling : Nat := 8

/-- the fields of `ArchProcess` that lead to memory of its own -/
structure ArchProcess where
  pageTable : Nat
  trapFrame : Nat
  userStack : Nat
  userStackSize : Nat
  segmentBuffers : List Segment
deriving DecidableEq, Repr

/-- the code that every process has mapped -/
structure Code where
  trampoline : Word
  killme : Word

namespace ArchProcess

def new (A : PageAllocator) (s : Heap) : ArchProcess × Heap :=
  let (trapFrame, s) := s.allocZeroed A 0x1000
  (⟨dangling, trapFrame, 0, 0, []⟩, s)

/-- `init`, which calls `setup_pagetable` -/
def init (A : PageAllocator) (c : Code) (p : ArchProcess) (s : Heap) : Option (ArchProcess × Heap) :=
  (setupUser A ⟨c.trampoline, BitVec.ofNat 64 p.trapFrame, c.killme⟩ s).map fun (root, stack, s) =>
    -- `sp` and `ra` of the trap frame
    let s := s.write (p.trapFrame + 48) userStackStart
    let s := s.write (p.trapFrame + 40) killme
    ({ p with pageTable := root, userStack := stack, userStackSize := Loader.userStackSize.toNat }, s)

variable {σ : Type}

def initProgram (A : PageAllocator) (B : BackingFileSystem σ) (parse : List UInt8 → Option Object) (path : String)
    (fs : FileSystem σ) (p : ArchProcess) (s : Heap) : Option (ArchProcess × Heap) :=
  (loadExe A B parse path p.pageTable s fs).bind fun (res, s, _) =>
    match res with
    -- `epc` of the trap frame
    | .ok info => some ({ p with segmentBuffers := info.segmentBuffers }, s.write (p.trapFrame + 24) info.entry)
    | .error _ => none

def free (D : Deallocator) (p : ArchProcess) (a : Account) : Option Account :=
  let a := a.dealloc D (p.userStack, p.userStackSize)
  (unmap D p.pageTable a).map fun a =>
    let a := a.dealloc D (p.pageTable, 0x1000)
    let a := a.dealloc D (p.trapFrame, 0x1000)
    a.deallocAll D (p.segmentBuffers.map Segment.block)

end ArchProcess

/-! ## the process table -/

def kernelStackSize : Nat := 0x10000

/-- `free` is the state `Free`; `owned` is kept for the reader, the code has no such field -/
structure Process where
  free : Bool
  archProc : ArchProcess
  kernelStack : Nat
  owned : List Block

/-- the pages of the table at `root`, in the order in which `unmap` meets them, and the root -/
def tablePages (m : Mem) (root : Nat) : List Nat := (tableTree m 2 root).nodes (List.finRange 512)

/-- what the fields lead to -/
def ArchProcess.blocks (m : Mem) (p : ArchProcess) : List Block :=
  (p.userStack, p.userStackSize) :: ((tablePages m p.pageTable).map (·, 4096) ++
    ((p.trapFrame, 4096) :: p.segmentBuffers.map Segment.block))

def Process.blocks (m : Mem) (P : Process) : List Block :=
  P.archProc.blocks m ++ [(P.kernelStack, kernelStackSize)]

/-- the process of pid `i` is the `i`-th; `stray` are the deallocations of blocks that were not allocated -/
structure Manager where
  heap : Heap
  ptable : List Process
  stray : List Block

inductive Act (σ : Type) where
  | createProcess (doSetup : Bool)
  /-- `setup_process` and `setup_kernel_process` -/
  | setupProcess (pid : Nat)
  | loadProgram (pid : Nat) (B : BackingFileSystem σ) (hB : Bounded B) (parse : List UInt8 → Option Object)
      (path : String) (fs : FileSystem σ)
  | kill (pid : Nat)
  /-- everything else that happens to the memory -/
  | other (s' : Heap)

section
variable {σ : Type} (A : PageAllocator) (D : Deallocator) (c : Code)

/-- without the process there is an error and nothing else -/
def setupProcess (pid : Nat) (m : Manager) : Option Manager :=
  match m.ptable[pid]? with
  | none => some m
  | some P =>
    let (p, s) := ArchProcess.new A m.heap
    (p.init A c s).map fun (p, s) =>
      let P := { P with archProc := p }
      { m with heap := s, ptable := m.ptable.set pid { P with owned := P.blocks s.mem } }

def createProcess (doSetup : Bool) (m : Manager) : Option Manager :=
  let (p, s) := ArchProcess.new A m.heap
  let (kernelStack, s) := s.alloc A kernelStackSize
  let P : Process := ⟨false, p, kernelStack, [(p.trapFrame, 4096), (kernelStack, kernelStackSize)]⟩
  let pid := m.ptable.length
  let m := { m with heap := s, ptable := m.ptable ++ [P] }
  if doSetup then setupProcess A c pid m else some m

def loadProgram (pid : Nat) (B : BackingFileSystem σ) (parse : List UInt8 → Option Object) (path : String)
    (fs : FileSystem σ) (m : Manager) : Option Manager :=
  match m.ptable[pid]? with
  | none => some m
  | some P =>
    (P.archProc.initProgram A B parse path fs m.heap).map fun (p, s) =>
      let P := { P with archProc := p }
      { m with heap := s, ptable := m.ptable.set pid { P with owned := P.blocks s.mem } }

def kill (pid : Nat) (m : Manager) : Option Manager :=
  match m.ptable[pid]? with
  | none => some m
  | some P =>
    -- a process that is `Free` already is freed again
    (P.archProc.free D ⟨m.heap, m.stray, P.owned⟩).map fun a =>
      let a := a.dealloc D (P.kernelStack, kernelStackSize)
      ⟨a.heap, m.ptable.set pid { P with free := true, owned := a.owned }, a.stray⟩

def Act.step : Act σ → Manager → Option Manager
  | .createProcess doSetup, m => Loader.createProcess A c doSetup m
  | .setupProcess pid, m => Loader.setupProcess A c pid m
  | .loadProgram pid B _ parse path fs, m => Loader.loadProgram A pid B parse path fs m
  | .kill pid, m => Loader.kill D pid m
  | .other s', m => some { m with heap := s' }

end

/-! ## what `free` gives back -/

theorem deallocAll_cons {D : Deallocator} (a : Account) (b : Block) (l : List Block) :
    a.deallocAll D (b :: l) = (a.dealloc D b).deallocAll D l := rfl

theorem deallocAll_singleton {D : Deallocator} (a : Account) (b : Block) : a.deallocAll D [b] = a.dealloc D b := rfl

/-- pages that can be read as in `m` until they are given back, in the order of the list -/
structure Readable (D : Deallocator) (m : Mem) (I : List Nat → Account → Prop) : Prop where
  read : ∀ {L a p}, I L a → p ∈ L → Set.EqOn a.heap.mem m (Mem.range p 4096)
  step : ∀ {p L a}, I (p :: L) a → I L (a.dealloc D (p, 4096))

theorem isBranch_iff (e : Entry) : (e.isValid && !e.isLeaf) = true ↔ e.isInvalid ≠ true ∧ e.isLeaf ≠ true := by
  unfold Entry.isInvalid
  cases e.isValid <;> cases e.isLeaf <;> decide

/-- there is no table below any other entry -/
theorem nodes_of_not_branch {m : Mem} {e : Entry} (h : ¬ (e.isValid && !e.isLeaf) = true) (i : Nat)
    (js : List (Fin 512)) : (tree m i e).nodes js = [] := by
  by_cases h0 : e.isInvalid = true
  · rw [tree_invalid h0]
    rfl
  · have h1 : e.isLeaf = true := by
      by_contra h1
      exact h ((isBranch_iff e).mpr ⟨h0, h1⟩)
    cases i with
    | zero => rw [show tree m 0 e = .leaf e from (if_neg h0).trans (if_pos h1)]; rfl
    | succ i => rw [show tree m (i+1) e = .leaf e from (if_neg h0).trans (if_pos h1)]; rfl

/-- the visits below an entry, as the memory `m` has its tables -/
def visitsBelow (m : Mem) : Nat → Entry → List (Radix.Visit Nat)
  | 0, e => if e.isValid && !e.isLeaf then [.free e.target] else []
  | i+1, e =>
    if e.isValid && !e.isLeaf then
      (List.finRange 512).flatMap (fun j => .read e.target :: visitsBelow m i (entryAt m (slot e.target j)))
        ++ [.free e.target]
    else []

/-- a loop with its visits is the loop -/
theorem visitAll_snd {f : Fin 512 → Account → Option (List (Radix.Visit Nat) × Account)}
    {g : Fin 512 → Account → Option Account} (hfg : ∀ j a, (f j a).map Prod.snd = g j a) (js : List (Fin 512)) :
    ∀ a : Account, (visitAll f js a).map Prod.snd = js.foldlM (fun a j => g j a) a := by
  induction js with
  | nil => exact fun _ => rfl
  | cons j js ih =>
    intro a
    rw [visitAll, List.foldlM_cons, ← hfg j a]
    cases f j a with
    | none => rfl
    | some x =>
      show ((visitAll f js x.2).map _).map Prod.snd = js.foldlM (fun a j => g j a) x.2
      rw [← ih, Option.map_map]
      rfl

theorem unmapEntryVisits_snd (D : Deallocator) (i : Nat) : ∀ (t : Nat) (j : Fin 512) (a : Account),
    (unmapEntryVisits D i t j a).map Prod.snd = unmapEntry D i (slot t j) a := by
  induction i with
  | zero =>
    intro t j a
    unfold unmapEntryVisits unmapEntry
    dsimp only
    split
    · rfl
    · rfl
  | succ i ih =>
    intro t j a
    unfold unmapEntryVisits unmapEntry
    dsimp only
    split
    · split
      · rfl
      · rw [Option.map_map, ← visitAll_snd (ih _) _ a, Option.map_map]
        rfl
    · rfl

theorem unmapVisits_snd (D : Deallocator) (root : Nat) (a : Account) :
    (unmapVisits D root a).map Prod.snd = unmap D root a :=
  visitAll_snd (unmapEntryVisits_snd D 2 root) _ a

section unmap
variable {D : Deallocator} {m : Mem} {I : List Nat → Account → Prop} (hI : Readable D m I)
include hI

theorem Readable.all (ps : List Nat) : ∀ {L : List Nat} {a : Account}, I (ps ++ L) a →
    I L (a.deallocAll D (ps.map (·, 4096))) := by
  induction ps with
  | nil => exact id
  | cons p ps ih => exact fun h => ih (hI.step h)

/-- the entries of a table that is given back later -/
theorem Readable.entry {L : List Nat} {a : Account} {t : Nat} (h : I L a) (ht : t ∈ L) (j : Fin 512) :
    entryAt a.heap.mem (slot t j) = entryAt m (slot t j) :=
  Mem.readWord_congr ((hI.read h ht).mono (slot_subset t j))

/-- a loop over entries of the table at `t`, when each turn visits the tables below its entry -/
theorem Readable.loop {i t : Nat}
    (ih : ∀ e t j L a, entryAt a.heap.mem (slot t j) = e → Sound (tree m i e) →
      I ((tree m i e).nodes (List.finRange 512) ++ L) a →
      unmapEntryVisits D i t j a = some (.read t :: visitsBelow m i e,
        a.deallocAll D (((tree m i e).nodes (List.finRange 512)).map (·, 4096))))
    (hs : ∀ j, Sound (tree m i (entryAt m (slot t j)))) (js : List (Fin 512)) :
    ∀ (L : List Nat) (a : Account), t ∈ L →
    I (js.flatMap (fun j => (tree m i (entryAt m (slot t j))).nodes (List.finRange 512)) ++ L) a →
    visitAll (unmapEntryVisits D i t) js a
      = some (js.flatMap (fun j => .read t :: visitsBelow m i (entryAt m (slot t j))), a.deallocAll D
        ((js.flatMap fun j => (tree m i (entryAt m (slot t j))).nodes (List.finRange 512)).map (·, 4096))) := by
  induction js with
  | nil => exact fun _ _ _ _ => rfl
  | cons j js ihj =>
    intro L a ht h
    rw [List.flatMap_cons, List.append_assoc] at h
    have hread := hI.entry h (List.mem_append_right _ (List.mem_append_right _ ht)) j
    rw [visitAll, ih _ _ _ _ a hread (hs j) h, Option.bind_some]
    dsimp only
    rw [ihj L _ ht (hI.all _ h), List.flatMap_cons, List.flatMap_cons, List.map_append, Account.deallocAll_append]
    rfl

/-- the tables below an entry -/
theorem unmapEntryVisits_eq (i : Nat) : ∀ (e : Entry) (t : Nat) (j : Fin 512) (L : List Nat) (a : Account),
    entryAt a.heap.mem (slot t j) = e → Sound (tree m i e) → I ((tree m i e).nodes (List.finRange 512) ++ L) a →
    unmapEntryVisits D i t j a = some (.read t :: visitsBelow m i e,
      a.deallocAll D (((tree m i e).nodes (List.finRange 512)).map (·, 4096))) := by
  induction i with
  | zero =>
    intro e t j L a he hs h
    unfold unmapEntryVisits visitsBelow
    dsimp only
    rw [he]
    by_cases hb : (e.isValid && !e.isLeaf) = true
    · obtain ⟨h0, h1⟩ := (isBranch_iff e).mp hb
      rw [if_pos hb, if_pos hb, show tree m 0 e = .node e.target fun _ => .empty from (if_neg h0).trans (if_neg h1),
        Radix.nodes_bare]
      rfl
    · rw [if_neg hb, if_neg hb, nodes_of_not_branch hb]
      rfl
  | succ i ih =>
    intro e t j L a he hs h
    unfold unmapEntryVisits visitsBelow
    dsimp only
    rw [he]
    by_cases hb : (e.isValid && !e.isLeaf) = true
    · obtain ⟨h0, h1⟩ := (isBranch_iff e).mp hb
      rw [tree_branch h0 h1] at hs h ⊢
      have hpos : e.target ≠ 0 := Nat.pos_iff_ne_zero.mp (hs _ (.inl rfl))
      rw [tableTree, Radix.nodes, List.append_assoc] at h
      have hloop := hI.loop ih (fun j p hp => hs p (.inr ⟨j, hp⟩)) (List.finRange 512) ([e.target] ++ L) a
        (List.mem_append_left _ (List.mem_singleton.mpr rfl)) h
      rw [if_pos hb, if_pos hb, if_neg hpos, hloop, tableTree, Radix.nodes, List.map_append,
        Account.deallocAll_append, List.map_singleton, deallocAll_singleton, Option.map_some, List.cons_append]
    · rw [if_neg hb, if_neg hb, nodes_of_not_branch hb]
      rfl

theorem unmapVisits_eq {root : Nat} {L : List Nat} {a : Account} (hs : Sound (tableTree m 2 root))
    (h : I (tablePages m root ++ L) a) :
    (unmapVisits D root a).map (fun (vs, a) => (vs, a.dealloc D (root, 4096)))
      = some ((List.finRange 512).flatMap (fun j => .read root :: visitsBelow m 2 (entryAt m (slot root j))),
        a.deallocAll D ((tablePages m root).map (·, 4096))) := by
  unfold tablePages at h ⊢
  rw [tableTree, Radix.nodes, List.append_assoc] at h
  have hloop := hI.loop (unmapEntryVisits_eq hI 2) (fun j p hp => hs p (.inr ⟨j, hp⟩)) (List.finRange 512)
    ([root] ++ L) a (List.mem_append_left _ (List.mem_singleton.mpr rfl)) h
  unfold unmapVisits
  rw [hloop, tableTree, Radix.nodes, List.map_append, Account.deallocAll_append, List.map_singleton,
    deallocAll_singleton, Option.map_some]

theorem unmap_eq {root : Nat} {L : List Nat} {a : Account} (hs : Sound (tableTree m 2 root))
    (h : I (tablePages m root ++ L) a) :
    (unmap D root a).map (fun a => a.dealloc D (root, 4096))
      = some (a.deallocAll D ((tablePages m root).map (·, 4096))) := by
  obtain ⟨⟨vs, a₁⟩, hrun, he⟩ := Option.map_eq_some_iff.mp (unmapVisits_eq hI hs h)
  rw [← unmapVisits_snd, hrun]
  exact congrArg some (Prod.mk.inj he).2

/-- `free`, with the user stack given back first -/
theorem free_eq {p : ArchProcess} {L : List Nat} {a : Account} (hs : Sound (tableTree m 2 p.pageTable))
    (h : I (tablePages m p.pageTable ++ L) (a.dealloc D (p.userStack, p.userStackSize))) :
    p.free D a = some (a.deallocAll D (p.blocks m)) := by
  have hunmap := unmap_eq hI hs h
  obtain ⟨a₁, h₁, h₂⟩ := Option.map_eq_some_iff.mp hunmap
  unfold ArchProcess.free ArchProcess.blocks
  dsimp only
  rw [h₁, Option.map_some, deallocAll_cons, Account.deallocAll_append, deallocAll_cons, ← h₂]

end unmap

end Citron.Loader
