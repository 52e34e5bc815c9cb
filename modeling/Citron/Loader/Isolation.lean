import Citron.Loader.Leaves
import Citron.Loader.Release

/-!
# Processes keep to their own memory

What user mode can reach through the page table of a process, in every run of the process manager with the windows:
the pages of the user stack and of the segments of the process itself, the frames of windows, and the page of `killme`,
which nobody can write to.  No table, no trap frame and no kernel stack is among them, and no memory of another process.

* `System`, `SysAct`      the processes and the frames of the windows;
* `Reaches`               what a process can get at in user mode;
* `Origin`, `Fenced`      where the leaves for user mode come from;
* `Walled`                with the blocks apart;
* `processes_isolated`    for whole runs.
-/

namespace Citron.Loader
open Paging Fs Heap Word

/-! ## processes and windows -/

/-- `image` is the memory of the kernel's own code, `frames` the buffers of the windows -/
structure System where
  m : Manager
  image : Block
  frames : List Block

inductive SysAct (σ : Type) where
  | process (a : Act σ)
  /-- `FrameBuffer::new` -/
  | createFrame (width height : BitVec 32)
  /-- `sys_map_window` of the process -/
  | mapWindow (pid : Nat) (arena : Word → Option ArenaObject) (windowId vaddr : Word)

section
variable {σ : Type} (A : PageAllocator) (D : Deallocator) (c : Code)

/-- a size of 32 bits is never too large for a layout -/
def createFrame (width height : BitVec 32) (s : System) : System :=
  let size := (WindowFrame.size ⟨0, width, height⟩).toNat
  let (buffer, heap) := s.m.heap.allocZeroed A size
  { s with m := { s.m with heap }, frames := (buffer, size) :: s.frames }

/-- without the process there is an `unwrap` of nothing -/
def mapWindow (pid : Nat) (arena : Word → Option ArenaObject) (windowId vaddr : Word) (m : Manager) : Option Manager :=
  m.ptable[pid]?.bind fun P =>
    (sysMapWindow A arena P.archProc.pageTable windowId vaddr m.heap).map fun (_, heap) =>
      { m with heap, ptable := m.ptable.set pid { P with owned := P.blocks heap.mem } }

def SysAct.step : SysAct σ → System → Option System
  | .process a, s => (a.step A D c s.m).map fun m => { s with m }
  | .createFrame width height, s => some (Loader.createFrame A width height s)
  | .mapWindow pid arena windowId vaddr, s => (Loader.mapWindow A pid arena windowId vaddr s.m).map fun m => { s with m }

/-- what the processes and the windows have, and the kernel's code, stays live -/
def System.Keeps (s : System) (blocks : List Block) : Prop :=
  ∀ b, (s.image :: s.frames).count b + s.m.ledger.count b ≤ blocks.count b

/-- **A proper step**: proper for the processes, with one program for each page table; the window that is mapped is one
that was created, and the allocator can serve the step. -/
def SysAct.Proper (s : System) : SysAct σ → Prop
  | .process (.loadProgram pid B hB parse path fs) => (Act.loadProgram pid B hB parse path fs).Proper A s.m ∧
    ∀ P, s.m.ptable[pid]? = some P → P.archProc.segmentBuffers = []
  | .process (.other s') => (Act.other s' : Act σ).Proper A s.m ∧ s.Keeps s'.blocks
  | .process a => a.Proper A s.m
  | .createFrame width height => Serves A [(WindowFrame.size ⟨0, width, height⟩).toNat] 1 s.m.heap.blocks
  | .mapWindow pid arena windowId vaddr => ∀ P, s.m.ptable[pid]? = some P → P.Alive ∧
    ∀ frame, arena windowId = some (.window frame) → (frame.buffer.toNat, frame.size.toNat) ∈ s.frames ∧
      Serves A [4096] (tables (pageNo vaddr) (pageCount frame.size.toNat)) s.m.heap.blocks

end

/-! ## what user mode reaches -/

/-- user mode gets at the byte `x` of physical memory by an access that needs the permission -/
def Reaches (m : Mem) (root : Nat) (permission : Word) (x : Nat) : Prop :=
  ∃ va e, leafOf m root va = some e ∧ user e ∧ e.permissions &&& permission ≠ 0#64 ∧ MapsTo m root va x

/-- the pages of a block -/
def pagesOf (b : Block) : Set Nat := Mem.range b.1 (4096 * pageCount b.2)

/-- what a process has for itself -/
def ArchProcess.lent (p : ArchProcess) : List Block :=
  (p.userStack, p.userStackSize) :: p.segmentBuffers.map Segment.block

/-- what the kernel has for a process -/
def Process.reserved (m : Mem) (P : Process) : List Block :=
  (tablePages m P.archProc.pageTable).map (·, 4096) ++
    [(P.archProc.trapFrame, 4096), (P.kernelStack, kernelStackSize)]

/-! ## walls -/

/-- blocks on page borders that do not overlap have no page in common -/
theorem disjoint_pagesOf {b d : Block} (hb : 4096 ∣ b.1) (hd : 4096 ∣ d.1)
    (h : Disjoint (Mem.range b.1 b.2) (Mem.range d.1 d.2)) : Disjoint (pagesOf b) (pagesOf d) := by
  rw [Set.disjoint_left] at h ⊢
  intro x hx hx'
  unfold pagesOf at hx hx'
  rw [Mem.mem_range] at hx hx'
  unfold pageCount at hx hx'
  -- both begin before they end, so the later beginning is in both
  have h₁ : b.1 < d.1 + d.2 := by omega
  have h₂ : d.1 < b.1 + b.2 := by omega
  rcases Nat.le_total b.1 d.1 with hle | hle
  · exact h (Mem.mem_range.mpr ⟨hle, h₂⟩) (Mem.mem_range.mpr ⟨le_rfl, by omega⟩)
  · exact h (Mem.mem_range.mpr ⟨le_rfl, by omega⟩) (Mem.mem_range.mpr ⟨hle, h₁⟩)

theorem range_subset_pagesOf (b : Block) : Mem.range b.1 b.2 ⊆ pagesOf b := by
  refine Mem.range_mono le_rfl ?_
  unfold pageCount
  omega

/-- The blocks of a process start on page borders, and every leaf for user mode leads to one of them, to the frame of a
window or to `killme`. -/
structure Fenced (c : Code) (frames : List Block) (s : Heap) (P : Process) : Prop where
  kernelStack : P.free = false → 4096 ∣ P.kernelStack
  trapFrame : P.Alive → 4096 ∣ P.archProc.trapFrame
  lent : P.Alive → ∀ b ∈ P.archProc.lent, 4096 ∣ b.1 ∧ b.1 + b.2 ≤ 2^56
  leaves : P.Alive → ∀ va e, leafOf s.mem P.archProc.pageTable va = some e → user e →
    Origin c (P.archProc.lent ++ frames) e

/-- **No process gets at the memory of the kernel or of another.** -/
structure Walled (c : Code) (s : System) : Prop where
  booked : Booked s.m
  keeps : s.Keeps s.m.heap.blocks
  code : c.killme.toNat < 2^56 ∧ frame c.killme ⊆ Mem.range s.image.1 s.image.2
  frames : ∀ b ∈ s.frames, 4096 ∣ b.1 ∧ b.1 + b.2 ≤ 2^56
  fenced : ∀ (i : Nat) (P : Process), s.m.ptable[i]? = some P → Fenced c s.frames s.m.heap P

/-! ## what it comes to -/

section walled
variable {c : Code} {s : System} {i j : Nat} {P Q : Process} (h : Walled c s)
include h

/-- where the bytes that a process reaches are -/
theorem Walled.reaches (hi : s.m.ptable[i]? = some P) (ha : P.Alive) {permission : Word} {x : Nat}
    (hx : Reaches s.m.heap.mem P.archProc.pageTable permission x) :
    (x ∈ frame c.killme ∧ permission ≠ EntryBits.W.val) ∨ ∃ b ∈ P.archProc.lent ++ s.frames, x ∈ pagesOf b := by
  obtain ⟨va, e, hleaf, huser, hperm, w, hw, rfl⟩ := hx
  have hpaged := (h.booked.held i P hi).paged ha
  have hphys : e.phys 0 va = w := by
    rw [virtToPhys_of_leaf hpaged hleaf] at hw
    exact Option.some.inj (Option.some.inj hw)
  rw [← hphys]
  cases (h.fenced i P hi).leaves ha va e hleaf huser with
  | killme he =>
    refine .inl ⟨?_, ?_⟩
    · rw [he, phys_page h.code.1 (by decide)]
      exact Mem.mem_range.mpr ⟨by omega, by omega⟩
    · rintro rfl
      rw [he, permissions_leafEntry] at hperm
      exact absurd hperm (by decide)
  | page b hb q hq bits hbits he =>
    have hbound : 4096 ∣ b.1 ∧ b.1 + b.2 ≤ 2^56 := by
      rcases List.mem_append.mp hb with hb | hb
      · exact (h.fenced i P hi).lent ha b hb
      · exact h.frames b hb
    refine .inr ⟨b, hb, ?_⟩
    unfold pageCount at hq
    have hpa : (BitVec.ofNat 64 (b.1 + 4096 * q)).toNat = b.1 + 4096 * q := by
      rw [BitVec.toNat_ofNat]
      exact Nat.mod_eq_of_lt (by omega)
    rw [he, phys_page (by rw [hpa]; omega) hbits, hpa]
    unfold pagesOf pageCount
    exact Mem.mem_range.mpr ⟨by omega, by omega⟩

/-- two blocks of which the processes, the windows and the kernel have one each -/
theorem Walled.apart {b d : Block} (hb : 4096 ∣ b.1) (hd : 4096 ∣ d.1)
    (hcount : ∀ x, [b].count x + [d].count x ≤ (s.image :: s.frames).count x + s.m.ledger.count x) :
    Disjoint (pagesOf b) (pagesOf d) := by
  refine disjoint_pagesOf hb hd (h.booked.tidy.disjoint fun x => ?_)
  have hpair : ([b] ++ [d]).count x = [b].count x + [d].count x := List.count_append
  rw [List.singleton_append] at hpair
  rw [hpair]
  exact (hcount x).trans (h.keeps x)

theorem Walled.aligned_reserved (hi : s.m.ptable[i]? = some P) (ha : P.Alive) {d : Block}
    (hd : d ∈ P.reserved s.m.heap.mem) : 4096 ∣ d.1 := by
  have hf := h.fenced i P hi
  rcases List.mem_append.mp hd with hd | hd
  · obtain ⟨p, hp, rfl⟩ := List.mem_map.mp hd
    exact aligned_tableTree ((h.booked.held i P hi).paged ha).wellFormed.aligned (mem_tablePages.mp hp)
  · rcases List.mem_pair.mp hd with rfl | rfl
    · exact hf.trapFrame ha
    · exact hf.kernelStack ha.1

end walled

/-- one block of a list -/
theorem count_mem {b : Block} {l : List Block} (hb : b ∈ l) (x : Block) : [b].count x ≤ l.count x :=
  List.Sublist.count_le _ (List.singleton_sublist.mpr hb)

/-- what a process has is what it has for itself and what the kernel has for it -/
theorem count_owned (m : Mem) (P : Process) (x : Block) :
    (P.blocks m).count x = P.archProc.lent.count x + (P.reserved m).count x := by
  have hblocks := count_blocks m P x
  have hlent : ([(P.archProc.userStack, P.archProc.userStackSize)] ++ P.archProc.segmentBuffers.map Segment.block).count x
      = _ := List.count_append
  have htwo : ([(P.archProc.trapFrame, 4096)] ++ [(P.kernelStack, kernelStackSize)]).count x = _ := List.count_append
  have hreserved : (P.reserved m).count x = _ := List.count_append
  rw [List.singleton_append] at hlent htwo
  unfold ArchProcess.lent
  omega

section walled
variable {c : Code} {s : System} {i j : Nat} {P Q : Process} (h : Walled c s)
include h

theorem Walled.owned (hi : s.m.ptable[i]? = some P) (ha : P.Alive) (x : Block) :
    P.archProc.lent.count x + (P.reserved s.m.heap.mem).count x ≤ s.m.ledger.count x := by
  rw [← count_owned, ← (h.booked.held i P hi).owned ha]
  exact count_ledger x hi

theorem Walled.owned_two (hij : i ≠ j) (hi : s.m.ptable[i]? = some P) (ha : P.Alive) (hj : s.m.ptable[j]? = some Q)
    (hq : Q.Alive) (x : Block) :
    (P.archProc.lent.count x + (P.reserved s.m.heap.mem).count x) +
      (Q.archProc.lent.count x + (Q.reserved s.m.heap.mem).count x) ≤ s.m.ledger.count x := by
  rw [← count_owned, ← count_owned, ← (h.booked.held i P hi).owned ha, ← (h.booked.held j Q hj).owned hq]
  exact count_ledger_two x hij hi hj

/-- the kernel's code is in no block of a process or a window -/
theorem Walled.code_apart {b : Block} (hb : 4096 ∣ b.1) (hcount : ∀ x, [b].count x ≤ s.frames.count x + s.m.ledger.count x) :
    Disjoint (frame c.killme) (pagesOf b) := by
  have hrange : Disjoint (Mem.range s.image.1 s.image.2) (Mem.range b.1 b.2) := by
    refine h.booked.tidy.disjoint fun x => ?_
    have hpair : ([s.image] ++ [b]).count x = [s.image].count x + [b].count x := List.count_append
    have himage : ([s.image] ++ s.frames).count x = [s.image].count x + s.frames.count x := List.count_append
    have hkeeps := h.keeps x
    have := hcount x
    rw [List.singleton_append] at hpair himage
    omega
  have hpages : frame c.killme = pagesOf (4096 * (c.killme.toNat / 4096), 4096) := by
    have hone : 4096 * pageCount 4096 = 4096 := by decide
    unfold frame pagesOf
    rw [hone]
  rw [hpages]
  exact disjoint_pagesOf (Nat.dvd_mul_right _ _) hb (hrange.mono_left h.code.2)

/-- no process reaches what the kernel has for one -/
theorem Walled.reserved_apart (hi : s.m.ptable[i]? = some P) (ha : P.Alive) (hj : s.m.ptable[j]? = some Q) (hq : Q.Alive)
    {permission : Word} {x : Nat} (hx : Reaches s.m.heap.mem P.archProc.pageTable permission x) {d : Block}
    (hd : d ∈ Q.reserved s.m.heap.mem) : x ∉ pagesOf d := by
  have hdal := h.aligned_reserved hj hq hd
  have hdc := fun x => count_mem hd x
  rcases h.reaches hi ha hx with ⟨hx, -⟩ | ⟨b, hb, hx⟩
  · refine Set.disjoint_left.mp (h.code_apart hdal fun y => ?_) hx
    have := h.owned hj hq y
    have := hdc y
    omega
  · rcases List.mem_append.mp hb with hb | hb
    · refine Set.disjoint_left.mp (h.apart ((h.fenced i P hi).lent ha b hb).1 hdal fun y => ?_) hx
      have hbc := count_mem hb y
      have := hdc y
      by_cases hij : i = j
      · subst hij
        cases hi.symm.trans hj
        have := h.owned hi ha y
        omega
      · have := h.owned_two hij hi ha hj hq y
        omega
    · refine Set.disjoint_left.mp (h.apart (h.frames b hb).1 hdal fun y => ?_) hx
      have hbc := count_mem hb y
      have himage : ([s.image] ++ s.frames).count y = [s.image].count y + s.frames.count y := List.count_append
      have := h.owned hj hq y
      have := hdc y
      rw [List.singleton_append] at himage
      omega

/-- what two processes reach is a window or the code of the kernel -/
theorem Walled.shared (hij : i ≠ j) (hi : s.m.ptable[i]? = some P) (ha : P.Alive) (hj : s.m.ptable[j]? = some Q)
    (hq : Q.Alive) {permission permission' : Word} {x : Nat} (hx : Reaches s.m.heap.mem P.archProc.pageTable permission x)
    (hx' : Reaches s.m.heap.mem Q.archProc.pageTable permission' x) :
    (∃ b ∈ s.frames, x ∈ pagesOf b) ∨
      (x ∈ frame c.killme ∧ permission ≠ EntryBits.W.val ∧ permission' ≠ EntryBits.W.val) := by
  have hapart : ∀ {k : Nat} {R : Process}, s.m.ptable[k]? = some R → R.Alive → ∀ b ∈ R.archProc.lent,
      Disjoint (frame c.killme) (pagesOf b) := by
    intro k R hk hr b hb
    refine h.code_apart ((h.fenced k R hk).lent hr b hb).1 fun y => ?_
    have := count_mem hb y
    have := h.owned hk hr y
    omega
  rcases h.reaches hi ha hx with ⟨hxk, hperm⟩ | ⟨b, hb, hxb⟩
  · rcases h.reaches hj hq hx' with ⟨-, hperm'⟩ | ⟨d, hd, hxd⟩
    · exact .inr ⟨hxk, hperm, hperm'⟩
    · rcases List.mem_append.mp hd with hd | hd
      · exact absurd hxd (Set.disjoint_left.mp (hapart hj hq d hd) hxk)
      · exact .inl ⟨d, hd, hxd⟩
  · rcases List.mem_append.mp hb with hb | hb
    · rcases h.reaches hj hq hx' with ⟨hxk, -⟩ | ⟨d, hd, hxd⟩
      · exact absurd hxb (Set.disjoint_left.mp (hapart hi ha b hb) hxk)
      · rcases List.mem_append.mp hd with hd | hd
        · refine absurd hxd (Set.disjoint_left.mp (h.apart ((h.fenced i P hi).lent ha b hb).1
            ((h.fenced j Q hj).lent hq d hd).1 fun y => ?_) hxb)
          have := count_mem hb y
          have := count_mem hd y
          have := h.owned_two hij hi ha hj hq y
          omega
        · exact .inl ⟨d, hd, hxd⟩
    · exact .inl ⟨b, hb, hxb⟩

end walled

/-! ## steps -/

theorem Fenced.congr {c : Code} {frames frames' : List Block} {s s' : Heap} {P : Process} (h : Fenced c frames s P)
    (hframes : ∀ b ∈ frames, b ∈ frames')
    (htree : P.Alive → tableTree s'.mem 2 P.archProc.pageTable = tableTree s.mem 2 P.archProc.pageTable) :
    Fenced c frames' s' P := by
  refine ⟨h.kernelStack, h.trapFrame, h.lent, fun ha va e hleaf huser => ?_⟩
  rw [leafOf_congr (htree ha)] at hleaf
  refine (h.leaves ha va e hleaf huser).mono fun b hb => ?_
  rcases List.mem_append.mp hb with hb | hb
  · exact List.mem_append_left _ hb
  · exact List.mem_append_right _ (hframes b hb)

/-- What a step on one process leaves alone: the others with their tables, and every live block that it does not take
from the processes. -/
structure LeavesOthers (pid : Nat) (m m' : Manager) : Prop where
  booked : Booked m'
  others : ∀ j Q, j ≠ pid → m'.ptable[j]? = some Q → m.ptable[j]? = some Q ∧
    (Q.Alive → tableTree m'.heap.mem 2 Q.archProc.pageTable = tableTree m.heap.mem 2 Q.archProc.pageTable)
  kept : ∀ b, m.heap.blocks.count b + m'.ledger.count b ≤ m'.heap.blocks.count b + m.ledger.count b

theorem Walled.step_one {c : Code} {s : System} {m' : Manager} (h : Walled c s) (pid : Nat)
    (hm : LeavesOthers pid s.m m') (hself : ∀ P, m'.ptable[pid]? = some P → Fenced c s.frames m'.heap P) :
    Walled c { s with m := m' } := by
  refine ⟨hm.booked, fun b => ?_, h.code, h.frames, fun j Q hj => ?_⟩
  · have h₁ := h.keeps b
    have h₂ := hm.kept b
    dsimp only
    omega
  · by_cases hjp : j = pid
    · subst hjp
      exact hself Q hj
    · obtain ⟨hj', htree⟩ := hm.others j Q hjp hj
      exact (h.fenced j Q hj').congr (fun _ => id) htree

/-- one process changes -/
theorem Booked.leaves_set {m : Manager} {pid : Nat} {P P' : Process} (h : Booked m) (hP : m.ptable[pid]? = some P) {s' : Heap}
    (htidy : Tidy s'.blocks)
    (hkept : ∀ b, m.heap.blocks.count b + P'.owned.count b ≤ s'.blocks.count b + P.owned.count b) (hself : Held s' P')
    (hothers : ∀ j Q, j ≠ pid → m.ptable[j]? = some Q → Q.Alive →
      Set.EqOn s'.mem m.heap.mem (area (tableTree m.heap.mem 2 Q.archProc.pageTable))) :
    LeavesOthers pid m { m with heap := s', ptable := m.ptable.set pid P' } := by
  have hcount := fun b => count_ledger_set b P' hP
  refine ⟨h.set hP htidy (fun b => ?_) hself fun j Q hj hQ => ?_, fun j Q hj hQ => ?_, fun b => ?_⟩
  · have := h.ledger b
    have := hkept b
    omega
  · refine (h.held j Q hQ).congr (hothers j Q hj hQ) fun ha p hp => ?_
    -- the tables of the others are not what the process has
    have hpos := List.count_pos_iff.mpr (mem_owned_of_has h hQ ha hp)
    have htwo := count_ledger_two (p, 4096) (Ne.symm hj) hP hQ
    have hled := h.ledger (p, 4096)
    have := hkept (p, 4096)
    unfold Manager.ledger at hled
    exact List.count_pos_iff.mp (by omega)
  · dsimp only at hQ
    rw [List.getElem?_set_ne (Ne.symm hj)] at hQ
    exact ⟨hQ, fun ha => tableTree_congr (hothers j Q hj hQ ha)⟩
  · have := hcount b
    have := hkept b
    unfold Manager.ledger
    dsimp only
    omega

theorem not_alive {P : Process} (h : P.archProc.pageTable = dangling) : ¬ P.Alive := fun ha => ha.2 h

/-- a process that is not alive has no leaves -/
theorem Fenced.bare {c : Code} {frames : List Block} {s : Heap} {P : Process} (hk : P.free = false → 4096 ∣ P.kernelStack)
    (hd : ¬ P.Alive) : Fenced c frames s P :=
  ⟨hk, fun ha => absurd ha hd, fun ha => absurd ha hd, fun ha => absurd ha hd⟩

section process
variable {A : PageAllocator} {D : Deallocator} {c : Code} {s : System} {pid : Nat} {P : Process} (h : Walled c s)
include h

/-- a process is created and not set up -/
theorem Walled.create {tf ks : Nat} (htf : A.next s.m.heap.blocks 4096 = some tf)
    (hks : A.next ((tf, 4096) :: s.m.heap.blocks) kernelStackSize = some ks) :
    Walled c { s with m := ⟨⟨s.m.heap.mem.zero tf 4096, (ks, kernelStackSize) :: (tf, 4096) :: s.m.heap.blocks⟩,
      s.m.ptable ++ [⟨false, ⟨dangling, tf, 0, 0, []⟩, ks, [(tf, 4096), (ks, kernelStackSize)]⟩], s.m.stray⟩ } := by
  refine h.step_one s.m.ptable.length ⟨h.booked.create htf hks, fun j Q hj hQ => ?_, fun b => ?_⟩ fun Q hQ => ?_
  · dsimp only at hQ
    have hlt : j < s.m.ptable.length := by
      have := (List.getElem?_eq_some_iff.mp hQ).1
      rw [List.length_append, List.length_singleton] at this
      omega
    rw [List.getElem?_append_left hlt] at hQ
    refine ⟨hQ, fun ha => tableTree_congr (Mem.zero_eqOn ?_)⟩
    exact ((h.booked.held j Q hQ).paged ha).shielded tf 4096 (A.aligned _ _ _ htf) (A.fresh _ _ _ htf)
  · unfold Manager.ledger
    dsimp only
    rw [List.flatMap_append, List.count_append, List.flatMap_singleton, List.count_cons, List.count_cons, List.count_cons,
      List.count_cons, List.count_nil]
    omega
  · dsimp only at hQ
    rw [List.getElem?_concat_length] at hQ
    cases hQ
    exact Fenced.bare (fun _ => A.aligned _ _ _ hks) (not_alive rfl)

theorem Walled.setup {m' : Manager} (hP : s.m.ptable[pid]? = some P) (hf : P.free = false)
    (hserve : Serves A [4096] 11 s.m.heap.blocks) (hstep : setupProcess A c pid s.m = some m') :
    Walled c { s with m := m' } := by
  have hb := h.booked
  obtain ⟨tf, htf, hserve⟩ := hserve 4096 (List.mem_singleton.mpr rfl)
  obtain ⟨s₁, hs₁⟩ : ∃ t : Heap, t = ⟨s.m.heap.mem.zero tf 4096, (tf, 4096) :: s.m.heap.blocks⟩ := ⟨_, rfl⟩
  have hserve₁ : Serves A [4096] 10 s₁.blocks := by
    rw [hs₁]
    exact hserve
  obtain ⟨root, stack, s₂, ts, hsetup, hs⟩ := setupUser_spec ⟨c.trampoline, BitVec.ofNat 64 tf, c.killme⟩ hserve₁
  obtain ⟨halign, hbound, hleaves⟩ := setupUser_leaves hserve₁ hsetup
  obtain ⟨s₃, hs₃⟩ : ∃ t : Heap, t = (s₂.write (tf + 48) userStackStart).write (tf + 40) killme := ⟨_, rfl⟩
  obtain ⟨P', hP'⟩ : ∃ Q : Process, Q = { P with archProc := ⟨root, tf, stack, userStackSize.toNat, []⟩ } := ⟨_, rfl⟩
  -- the trap frame is none of the tables
  have hsafe : Safe s₂ root (Mem.range tf 4096) :=
    (hs.kept _ (shielded_block (b := (tf, 4096)) (by rw [hs₁]; exact List.mem_cons_self) subset_rfl)).1
  have hmem₃ : Set.EqOn s₃.mem s₂.mem (Mem.range tf 4096)ᶜ := by
    rw [hs₃]
    exact (write_field (by decide)).trans (write_field (by decide))
  have hblk₃ : s₃.blocks = s₂.blocks := by rw [hs₃]; rfl
  have harea : Set.EqOn s₃.mem s₂.mem (area (tableTree s₂.mem 2 root)) :=
    hmem₃.mono (Set.subset_compl_iff_disjoint_left.mpr hsafe.apart)
  have htree : tableTree s₃.mem 2 root = tableTree s₂.mem 2 root := tableTree_congr harea
  have hpaged : Paged s₃ root := by
    have := hs.pinned.paged.congr harea
    rw [← hblk₃] at this
    exact this
  have hroot : root ≠ dangling := fun he => dangling_not_aligned (he ▸ hpaged.wellFormed.aligned)
  have hsize : userStackSize.toNat = 4096 := by decide
  obtain rfl : m' = { s.m with heap := s₃, ptable := s.m.ptable.set pid { P' with owned := P'.blocks s₃.mem } } := by
    unfold setupProcess ArchProcess.new at hstep
    rw [hP, allocZeroed_of_next htf, ← hs₁] at hstep
    dsimp only at hstep
    unfold ArchProcess.init at hstep
    dsimp only at hstep
    rw [hsetup, Option.map_some, Option.map_some, ← hs₃] at hstep
    rw [hP']
    exact (Option.some.inj hstep).symm
  have hkept : ∀ b, s.m.heap.blocks.count b + (P'.blocks s₃.mem).count b ≤ s₃.blocks.count b + P.owned.count b := by
    intro b
    have hcount := hs.count b
    have hcons : ([(tf, 4096)] ++ s.m.heap.blocks).count b = [(tf, 4096)].count b + s.m.heap.blocks.count b :=
      List.count_append
    rw [List.singleton_append] at hcons
    rw [hs₁] at hcount
    dsimp only at hcount
    have htabs := count_tablePages hpaged (fun p hp => hs.pages p (htree ▸ hp)) b
    have hks := count_mem (kernelStack_mem (hb.held pid P hP) hf) b
    have hblocks := count_blocks s₃.mem P' b
    rw [hP'] at hblocks ⊢
    dsimp only at hblocks
    rw [hsize, List.map_nil, List.count_nil] at hblocks
    rw [hsize, hblk₃]
    omega
  refine h.step_one pid (hb.leaves_set hP ?_ hkept ?_ fun j Q hj hQ ha => ?_) fun Q hQ => ?_
  · rw [hblk₃]
    refine hs.tidy ?_
    rw [hs₁]
    exact List.pairwise_cons.mpr ⟨A.fresh _ _ _ htf, hb.tidy⟩
  · rw [hP']
    exact ⟨fun ht => absurd (hf.symm.trans ht) nofun, fun _ hd => absurd hd hroot, fun _ => hpaged, fun _ => rfl⟩
  · -- the tables of the others were allocated before
    have hQs := ((hb.held j Q hQ).paged ha).shielded
    have htf' := hQs tf 4096 (A.aligned _ _ _ htf) (A.fresh _ _ _ htf)
    have hK := (hs.kept _ (hQs.mono (by rw [hs₁]; exact fun b => List.mem_cons_of_mem _))).2
    refine (hmem₃.mono (Set.subset_compl_iff_disjoint_left.mpr htf')).trans (hK.trans ?_)
    rw [hs₁]
    exact Mem.zero_eqOn htf'
  · dsimp only at hQ
    rw [List.getElem?_set_self (List.getElem?_eq_some_iff.mp hP).1] at hQ
    cases hQ
    rw [hP']
    refine ⟨fun _ => (h.fenced pid P hP).kernelStack hf, fun _ => A.aligned _ _ _ htf, fun _ b hb => ?_,
      fun _ va e hleaf huser => ?_⟩
    · cases List.mem_singleton.mp hb
      exact ⟨halign, by dsimp only; rw [hsize]; exact hbound⟩
    · dsimp only at hleaf
      rw [leafOf_congr htree] at hleaf
      refine (hleaves va e hleaf huser).mono fun b hb => List.mem_append_left _ ?_
      rw [List.mem_singleton.mp hb, ← hsize]
      exact List.mem_cons_self

/-- The tables of a process grow, its segments may change, and its trap frame is written to. -/
theorem Walled.grow {s₁ s' : Heap} {ts : List Nat} {bs : List Block} {segs : List Segment}
    (hP : s.m.ptable[pid]? = some P) (ha : P.Alive) (hg : Grows P.archProc.pageTable s.m.heap s₁ ts bs)
    (hblk : s'.blocks = s₁.blocks) (hmem : Set.EqOn s'.mem s₁.mem (Mem.range P.archProc.trapFrame 4096)ᶜ)
    (hcount : ∀ b, (segs.map Segment.block).count b ≤ bs.count b + (P.archProc.segmentBuffers.map Segment.block).count b)
    (hsegs : ∀ seg ∈ segs, 4096 ∣ seg.ptr ∧ seg.ptr + seg.layout ≤ 2^56)
    (hleaves : ∀ va e, leafOf s₁.mem P.archProc.pageTable va = some e → user e →
      Origin c ((P.archProc.userStack, P.archProc.userStackSize) :: segs.map Segment.block ++ s.frames) e) :
    Walled c { s with m := { s.m with heap := s', ptable := s.m.ptable.set pid { P with
      archProc := { P.archProc with segmentBuffers := segs },
      owned := ({ P with archProc := { P.archProc with segmentBuffers := segs } } : Process).blocks s'.mem } } } := by
  have hb := h.booked
  obtain ⟨P', hP'⟩ : ∃ Q : Process, Q = { P with archProc := { P.archProc with segmentBuffers := segs } } := ⟨_, rfl⟩
  -- the trap frame is none of the tables, the new ones included
  have hsafe : Safe s.m.heap P.archProc.pageTable (Mem.range P.archProc.trapFrame 4096) :=
    ⟨shielded_block (hb.live hP (hb.trapFrame_mem hP ha)) subset_rfl, hb.frame_apart hP ha hP ha⟩
  have harea : Set.EqOn s'.mem s₁.mem (area (tableTree s₁.mem 2 P.archProc.pageTable)) :=
    hmem.mono (Set.subset_compl_iff_disjoint_left.mpr (hg.keeps.safe _ hsafe).1.apart)
  have htree : tableTree s'.mem 2 P.archProc.pageTable = tableTree s₁.mem 2 P.archProc.pageTable := tableTree_congr harea
  have hpaged : Paged s' P.archProc.pageTable := by
    have := hg.keeps.paged.congr harea
    rw [← hblk] at this
    exact this
  have hpages : ∀ p, (tableTree s'.mem 2 P.archProc.pageTable).Has p →
      p ∈ ts ++ tablePages s.m.heap.mem P.archProc.pageTable := by
    intro p hp
    rw [htree] at hp
    rcases hg.pages p hp with hp | hp
    · exact List.mem_append_right _ (mem_tablePages.mpr hp)
    · exact List.mem_append_left _ hp
  have hkept : ∀ b, s.m.heap.blocks.count b + (P'.blocks s'.mem).count b ≤ s'.blocks.count b + P.owned.count b := by
    intro b
    have hgrown := hg.count b
    have htabs := count_tablePages hpaged hpages b
    rw [List.map_append, List.count_append] at htabs
    have hold := count_blocks s.m.heap.mem P b
    rw [← (hb.held pid P hP).owned ha] at hold
    have hnew := count_blocks s'.mem P' b
    have := hcount b
    rw [hP'] at hnew ⊢
    dsimp only at hnew ⊢
    rw [hblk]
    omega
  rw [← hP']
  refine h.step_one pid (hb.leaves_set hP ?_ hkept ?_ fun j Q hj hQ hq => ?_) fun Q hQ => ?_
  · rw [hblk]
    exact hg.tidy hb.tidy
  · rw [hP']
    exact ⟨fun ht => absurd (ha.1.symm.trans ht) nofun, fun _ hd => absurd hd ha.2, fun _ => hpaged, fun _ => rfl⟩
  · have hQs : Safe s.m.heap P.archProc.pageTable (area (tableTree s.m.heap.mem 2 Q.archProc.pageTable)) :=
      ⟨((hb.held j Q hQ).paged hq).shielded, hb.area_apart hj hQ hq hP ha⟩
    refine (hmem.mono ?_).trans (hg.keeps.safe _ hQs).2
    exact Set.subset_compl_iff_disjoint_left.mpr (hb.frame_apart hP ha hQ hq)
  · dsimp only at hQ
    rw [List.getElem?_set_self (List.getElem?_eq_some_iff.mp hP).1] at hQ
    cases hQ
    have hf := h.fenced pid P hP
    rw [hP']
    refine ⟨hf.kernelStack, fun _ => hf.trapFrame ha, fun _ b hb => ?_, fun _ va e hleaf huser => ?_⟩
    · rcases List.mem_cons.mp hb with rfl | hb
      · exact hf.lent ha _ List.mem_cons_self
      · obtain ⟨seg, hseg, rfl⟩ := List.mem_map.mp hb
        exact hsegs seg hseg
    · dsimp only at hleaf
      rw [leafOf_congr htree] at hleaf
      exact hleaves va e hleaf huser

/-- a leaf of before, in the tables of a process that has the same user stack -/
theorem Walled.old_leaf (hP : s.m.ptable[pid]? = some P) (ha : P.Alive) {segs : List Segment}
    (hsegs : ∀ seg ∈ P.archProc.segmentBuffers, seg ∈ segs) {va : Word} {e : Entry}
    (hleaf : leafOf s.m.heap.mem P.archProc.pageTable va = some e) (huser : user e) :
    Origin c ((P.archProc.userStack, P.archProc.userStackSize) :: segs.map Segment.block ++ s.frames) e := by
  refine ((h.fenced pid P hP).leaves ha va e hleaf huser).mono fun b hb => ?_
  rcases List.mem_append.mp hb with hb | hb
  · rcases List.mem_cons.mp hb with rfl | hb
    · exact List.mem_append_left _ List.mem_cons_self
    · obtain ⟨seg, hseg, rfl⟩ := List.mem_map.mp hb
      exact List.mem_append_left _ (List.mem_cons_of_mem _ (List.mem_map_of_mem (hsegs seg hseg)))
  · exact List.mem_append_right _ hb

theorem Walled.load {σ : Type} {B : BackingFileSystem σ} (hB : Bounded B) {parse : List UInt8 → Option Object}
    {path : String} {fs : FileSystem σ} (hP : s.m.ptable[pid]? = some P) (ha : P.Alive)
    (hok : ∀ bytes, fileBytes B path fs = some bytes → Loadable A parse bytes s.m.heap)
    (hfirst : P.archProc.segmentBuffers = []) {m' : Manager} (hstep : loadProgram A pid B parse path fs s.m = some m') :
    Walled c { s with m := m' } := by
  have hw := (h.booked.held pid P hP).paged ha
  unfold loadProgram at hstep
  rw [hP] at hstep
  dsimp only at hstep
  obtain ⟨⟨p, s'⟩, hinit, rfl⟩ := Option.map_eq_some_iff.mp hstep
  obtain ⟨⟨res, s₁, fs₁⟩, hexe, hinit⟩ := Option.bind_eq_some_iff.mp hinit
  cases res with
  | error e => cases hinit
  | ok info =>
    cases hinit
    obtain ⟨⟨ts, bs, hg, hcount⟩, -⟩ := loadExe_grows hB hw hok hexe
    obtain ⟨haligned, hleaf⟩ := loadExe_origin hB hw hok hexe
    refine h.grow hP ha hg rfl (write_field (by decide))
      (fun b => (hcount info rfl b).trans (Nat.le_add_right _ _)) haligned fun va e he huser => ?_
    rcases hleaf va e he with he | ⟨seg, hseg, q, hq, he⟩
    · exact h.old_leaf hP ha (by rw [hfirst]; exact nofun) he huser
    · refine .page seg.block ?_ q hq segmentFlags (by decide) he
      exact List.mem_append_left _ (List.mem_cons_of_mem _ (List.mem_map_of_mem hseg))

/-- the frame of a window -/
theorem Walled.map_window {arena : Word → Option ArenaObject} {windowId vaddr : Word} (hP : s.m.ptable[pid]? = some P)
    (ha : P.Alive) (hok : ∀ frame, arena windowId = some (.window frame) →
      (frame.buffer.toNat, frame.size.toNat) ∈ s.frames ∧
      Serves A [4096] (tables (pageNo vaddr) (pageCount frame.size.toNat)) s.m.heap.blocks) {m' : Manager}
    (hstep : mapWindow A pid arena windowId vaddr s.m = some m') : Walled c { s with m := m' } := by
  have hw := (h.booked.held pid P hP).paged ha
  unfold mapWindow at hstep
  rw [hP, Option.bind_some] at hstep
  obtain ⟨⟨ret, s'⟩, hcall, rfl⟩ := Option.map_eq_some_iff.mp hstep
  have hold : ∀ va e, leafOf s.m.heap.mem P.archProc.pageTable va = some e → user e → _ :=
    fun va e he huser => h.old_leaf hP ha (fun _ hseg => hseg) he huser
  have hsegs : ∀ seg ∈ P.archProc.segmentBuffers, 4096 ∣ seg.ptr ∧ seg.ptr + seg.layout ≤ 2^56 := by
    intro seg hseg
    exact (h.fenced pid P hP).lent ha seg.block (List.mem_cons_of_mem _ (List.mem_map_of_mem hseg))
  unfold sysMapWindow at hcall
  split at hcall
  · cases hcall
    exact h.grow hP ha (Grows.refl hw) rfl (fun _ _ => rfl) (fun b => Nat.le_add_left _ _) hsegs hold
  · next frame hframe =>
    obtain ⟨hmem, hserve⟩ := hok frame hframe
    obtain ⟨halign, hbound⟩ := h.frames _ hmem
    obtain ⟨s₂, hmap, he⟩ := Option.map_eq_some_iff.mp hcall
    cases he
    obtain ⟨s₃, ps, hmap', hE, -, hr⟩ := mapPages_leaf (show windowFlags &&& 0xe#64 ≠ 0#64 by decide)
      (pageCount frame.size.toNat) (vaddr &&& ~~~ lowMask 12) frame.buffer hw (by rw [pageNo_floor]; exact hserve)
    obtain rfl : s' = s₃ := by
      rw [mapRange_eq A _ _ halign hbound] at hmap
      exact Option.some.inj (hmap.symm.trans hmap')
    refine h.grow hP ha (hE.grows hw) rfl (fun _ _ => rfl) (fun b => Nat.le_add_left _ _) hsegs fun va e hleaf huser => ?_
    rcases run_cases hr hleaf with hleaf | ⟨q, hq, he⟩
    · exact hold va e hleaf huser
    · refine .page _ (List.mem_append_right _ hmem) q hq windowFlags (by decide) ?_
      rw [he, BitVec.ofNat_add, BitVec.ofNat_toNat, BitVec.setWidth_eq]
  · cases hcall

theorem Walled.killed (hP : s.m.ptable[pid]? = some P) (ha : P.Alive) {m' : Manager} (hstep : kill D pid s.m = some m') :
    Walled c { s with m := m' } := by
  have hb := h.booked
  obtain ⟨a, hacc⟩ : ∃ a : Account, a = ⟨s.m.heap, s.m.stray, P.owned⟩ := ⟨_, rfl⟩
  have hgiven := Account.deallocAll_spec (D := D) P.owned a (by rw [hacc]; exact hb.owned_le hP)
  have hstep' := (hb.kill_eq hP ha D).symm.trans hstep
  rw [← hacc] at hstep'
  have hstray : (a.deallocAll D P.owned).stray = s.m.stray := hgiven.stray.trans (by rw [hacc])
  rw [hstray] at hstep'
  obtain rfl := Option.some.inj hstep'
  have hcount : ∀ b, (a.deallocAll D P.owned).heap.blocks.count b + P.owned.count b = s.m.heap.blocks.count b := by
    intro b
    rw [hgiven.count b, hacc]
  refine h.step_one pid (hb.leaves_set hP ?_ (fun b => ?_) ?_ fun j Q hj hQ hq => ?_) fun Q hQ => ?_
  · refine List.Pairwise.sublist hgiven.sublist ?_
    rw [hacc]
    exact hb.tidy
  · rw [List.count_nil, hcount b]
    exact le_rfl
  · exact ⟨fun _ => rfl, nofun, fun hd => absurd hd.1 nofun, fun hd => absurd hd.1 nofun⟩
  · rintro x ⟨p, hp, hx⟩
    have hpos := List.count_pos_iff.mpr (mem_owned_of_has hb hQ hq hp)
    have htwo := count_ledger_two (p, 4096) (Ne.symm hj) hP hQ
    have hled := hb.ledger (p, 4096)
    unfold Manager.ledger at hled
    have hm := hgiven.mem (p, 4096) (by rw [hacc]; dsimp only; omega)
    rw [show a.heap = s.m.heap by rw [hacc]] at hm
    exact hm hx
  · dsimp only at hQ
    rw [List.getElem?_set_self (List.getElem?_eq_some_iff.mp hP).1] at hQ
    cases hQ
    exact Fenced.bare nofun fun hd => absurd hd.1 nofun

/-- what happens to the memory besides -/
theorem Walled.elsewhere {s' : Heap} {frames : List Block} (htidy : Tidy s'.blocks)
    (hkeeps : ∀ b, (s.image :: frames).count b + s.m.ledger.count b ≤ s'.blocks.count b)
    (hframes : ∀ b ∈ s.frames, b ∈ frames) (haligned : ∀ b ∈ frames, 4096 ∣ b.1 ∧ b.1 + b.2 ≤ 2^56)
    (hmem : ∀ P ∈ s.m.ptable, P.Alive →
      Set.EqOn s'.mem s.m.heap.mem (area (tableTree s.m.heap.mem 2 P.archProc.pageTable))) :
    Walled c { s with m := { s.m with heap := s' }, frames } := by
  have hledger : ∀ b, s.m.ledger.count b ≤ s'.blocks.count b := fun b => (Nat.le_add_left _ _).trans (hkeeps b)
  have hb : Booked { s.m with heap := s' } :=
    h.booked.step (A := pages) (D := quiet) (c := c) (a := (.other s' : Act Unit)) ⟨htidy, hledger, hmem⟩ rfl
  refine ⟨hb, hkeeps, h.code, haligned, fun i P hP => ?_⟩
  exact (h.fenced i P hP).congr hframes fun ha => tableTree_congr (hmem P (List.mem_of_getElem? hP) ha)

theorem Walled.step_process {σ : Type} {a : Act σ} (hok : (SysAct.process a).Proper A s) {m' : Manager}
    (hstep : a.step A D c s.m = some m') : Walled c { s with m := m' } := by
  have hsame : Walled c { s with m := s.m } := h
  cases a with
  | createProcess doSetup =>
    obtain ⟨tf, htf, hserve⟩ := hok 4096 (by simp)
    obtain ⟨ks, hks, hserve⟩ := hserve kernelStackSize (by simp)
    have hcreate := h.create htf hks
    unfold Act.step createProcess ArchProcess.new at hstep
    dsimp only at hstep
    rw [allocZeroed_of_next htf] at hstep
    dsimp only at hstep
    rw [alloc_of_next hks] at hstep
    cases doSetup with
    | false =>
      cases hstep
      exact hcreate
    | true =>
      exact hcreate.setup (P := ⟨false, ⟨dangling, tf, 0, 0, []⟩, ks, [(tf, 4096), (ks, kernelStackSize)]⟩)
        List.getElem?_concat_length rfl (hserve.mono (by simp) (by decide)) hstep
  | setupProcess pid =>
    cases hP : s.m.ptable[pid]? with
    | none =>
      have he : setupProcess A c pid s.m = some s.m := by
        unfold setupProcess
        rw [hP]
      cases he.symm.trans hstep
      exact hsame
    | some P => exact h.setup hP (hok P hP).1 (hok P hP).2 hstep
  | loadProgram pid B hB parse path fs =>
    cases hP : s.m.ptable[pid]? with
    | none =>
      have he : loadProgram A pid B parse path fs s.m = some s.m := by
        unfold loadProgram
        rw [hP]
      cases he.symm.trans hstep
      exact hsame
    | some P => exact h.load hB hP (hok.1 P hP).1 (hok.1 P hP).2 (hok.2 P hP) hstep
  | kill pid =>
    cases hP : s.m.ptable[pid]? with
    | none =>
      have he : kill D pid s.m = some s.m := by
        unfold kill
        rw [hP]
      cases he.symm.trans hstep
      exact hsame
    | some P => exact h.killed hP (hok P hP) hstep
  | other t =>
    cases hstep
    exact h.elsewhere hok.1.1 hok.2 (fun _ => id) h.frames hok.1.2.2

theorem Walled.step_frame {width height : BitVec 32}
    (hok : Serves A [(WindowFrame.size ⟨0, width, height⟩).toNat] 1 s.m.heap.blocks) :
    Walled c (createFrame A width height s) := by
  obtain ⟨buffer, hnext, -⟩ := hok _ (List.mem_singleton.mpr rfl)
  unfold createFrame
  dsimp only
  rw [allocZeroed_of_next hnext]
  dsimp only
  refine h.elsewhere ?_ (fun b => ?_) (fun b => List.mem_cons_of_mem _) ?_ fun P hP ha => ?_
  · exact List.pairwise_cons.mpr ⟨A.fresh _ _ _ hnext, h.booked.tidy⟩
  · have := h.keeps b
    rw [List.count_cons] at this ⊢
    rw [List.count_cons, List.count_cons]
    omega
  · exact List.forall_mem_cons.mpr ⟨⟨A.aligned _ _ _ hnext, A.bounded _ _ _ hnext⟩, h.frames⟩
  · obtain ⟨i, hi⟩ := List.mem_iff_getElem?.mp hP
    exact Mem.zero_eqOn (((h.booked.held i P hi).paged ha).shielded _ _ (A.aligned _ _ _ hnext) (A.fresh _ _ _ hnext))

theorem Walled.step {σ : Type} {a : SysAct σ} (hok : a.Proper A s) {s' : System} (hstep : a.step A D c s = some s') :
    Walled c s' := by
  cases a with
  | process a =>
    obtain ⟨m', hm, rfl⟩ := Option.map_eq_some_iff.mp hstep
    exact h.step_process hok hm
  | createFrame width height =>
    cases hstep
    exact h.step_frame hok
  | mapWindow pid arena windowId vaddr =>
    obtain ⟨m', hm, rfl⟩ := Option.map_eq_some_iff.mp hstep
    cases hP : s.m.ptable[pid]? with
    | none =>
      unfold mapWindow at hm
      rw [hP] at hm
      cases hm
    | some P => exact h.map_window hP (hok P hP).1 (hok P hP).2 hm

end process

/-! ## whole runs -/

/-- no process and no window yet, with the kernel's code in memory that is not handed out -/
structure Booted (c : Code) (s : System) : Prop where
  blank : Blank s.m
  frames : s.frames = []
  image : s.image ∈ s.m.heap.blocks
  code : c.killme.toNat < 2^56 ∧ frame c.killme ⊆ Mem.range s.image.1 s.image.2

theorem Booted.walled {c : Code} {s : System} (h : Booted c s) : Walled c s := by
  refine ⟨h.blank.booked, fun b => ?_, h.code, ?_, fun i P hP => ?_⟩
  · unfold Manager.ledger
    rw [h.blank.ptable, h.frames]
    exact count_mem h.image b
  · rw [h.frames]
    exact nofun
  · rw [h.blank.ptable] at hP
    cases hP

/-- **Processes are isolated.** In a run of proper steps no process gets at memory that the kernel has for a process,
and two processes get at one byte only in the frame of a window, or in the page of `killme`, which is not for
writing. -/
theorem processes_isolated {σ : Type} (A : PageAllocator) (D : Deallocator) (c : Code) (s₀ s : System) (h₀ : Booted c s₀)
    (as : List (SysAct σ)) (hok : Trace.Throughout (SysAct.step A D c) (SysAct.Proper A) as s₀)
    (hrun : Trace.run (SysAct.step A D c) as s₀ = some s) (i : Nat) (P : Process) (hi : s.m.ptable[i]? = some P)
    (hP : P.Alive) (permission : Word) (x : Nat) (hx : Reaches s.m.heap.mem P.archProc.pageTable permission x) :
    (∀ (j : Nat) (Q : Process), s.m.ptable[j]? = some Q → Q.Alive → ∀ d ∈ Q.reserved s.m.heap.mem, x ∉ pagesOf d) ∧
    ∀ (j : Nat) (Q : Process) (permission' : Word), i ≠ j → s.m.ptable[j]? = some Q → Q.Alive →
      Reaches s.m.heap.mem Q.archProc.pageTable permission' x →
      (∃ b ∈ s.frames, x ∈ pagesOf b) ∨
        (x ∈ frame c.killme ∧ permission ≠ EntryBits.W.val ∧ permission' ≠ EntryBits.W.val) := by
  have h : Walled c s := Trace.invariant (SysAct.Proper A) (Walled c)
    (fun _ _ _ hs hok hstep => hs.step hok hstep) as h₀.walled hok hrun
  exact ⟨fun j Q hj hQ d hd => h.reserved_apart hi hP hj hQ hx hd,
    fun j Q permission' hij hj hQ hx' => h.shared hij hi hP hj hQ hx hx'⟩

/-- a kernel without processes and windows -/
def bareSystem : System := ⟨bare, (0x80000000, 0x200000), []⟩

theorem booted_bare : Booted sampleCode bareSystem := by
  refine ⟨blank_bare, rfl, List.mem_cons_self, by decide, ?_⟩
  exact Mem.range_mono (by decide) (by decide)

def createTwo : List (SysAct Unit) := [.process (.createProcess true), .process (.createProcess true)]

/-- two processes, and the page of `killme` -/
theorem processes_isolated_killme : ∃ s P Q, Trace.run (SysAct.step pages quiet sampleCode) createTwo bareSystem = some s ∧
    s.m.ptable[0]? = some P ∧ s.m.ptable[1]? = some Q ∧ Q.Alive ∧
    Reaches s.m.heap.mem Q.archProc.pageTable EntryBits.X.val 0x80001000 ∧
    (∀ (j : Nat) (Q : Process), s.m.ptable[j]? = some Q → Q.Alive → ∀ d ∈ Q.reserved s.m.heap.mem, 0x80001000 ∉ pagesOf d) ∧
    ∀ (j : Nat) (Q : Process) (permission' : Word), 0 ≠ j → s.m.ptable[j]? = some Q → Q.Alive →
      Reaches s.m.heap.mem Q.archProc.pageTable permission' 0x80001000 →
      (∃ b ∈ s.frames, 0x80001000 ∈ pagesOf b) ∨ (0x80001000 ∈ frame sampleCode.killme ∧
        EntryBits.X.val ≠ EntryBits.W.val ∧ permission' ≠ EntryBits.W.val) := by
  have htop : (Trace.run (SysAct.step pages quiet sampleCode) (createTwo.take 1) bareSystem).map
      (fun s => Allocator.top s.m.heap.blocks) = some 0x80221000 := by
    decide +kernel
  have hview : (Trace.run (SysAct.step pages quiet sampleCode) createTwo bareSystem).map (fun s =>
      s.m.ptable.map fun P => (P.free, P.archProc.pageTable, leafOf s.m.heap.mem P.archProc.pageTable killme))
        = some [(false, 0x80216000, some 0x2000041b#64), (false, 0x80237000, some 0x2000041b#64)] := by
    decide +kernel
  obtain ⟨s₁, hone, htop⟩ := Option.map_eq_some_iff.mp htop
  obtain ⟨s, hrun, hview⟩ := Option.map_eq_some_iff.mp hview
  have hok : Trace.Throughout (SysAct.step pages quiet sampleCode) (SysAct.Proper pages) createTwo bareSystem := by
    refine ⟨serves_bare, fun t ht => ⟨?_, fun _ _ => trivial⟩⟩
    obtain ⟨t', ht', he⟩ := Option.bind_eq_some_iff.mp hone
    cases he
    cases ht.symm.trans ht'
    exact serves_bump (n := kernelStackSize) (by decide) 13 (by rw [htop]; decide)
  have hwalled : Walled sampleCode s := Trace.invariant (SysAct.Proper pages) (Walled sampleCode)
    (fun _ _ _ hs hok hstep => hs.step hok hstep) createTwo booted_bare.walled hok hrun
  -- the leaf of `killme` is the one of the code
  have hreach : ∀ (i : Nat) (P : Process), s.m.ptable[i]? = some P →
      P.Alive → leafOf s.m.heap.mem P.archProc.pageTable killme = some 0x2000041b#64 →
      Reaches s.m.heap.mem P.archProc.pageTable EntryBits.X.val 0x80001000 := by
    intro i P hP ha hleaf
    refine ⟨killme, _, hleaf, ?_, by decide, _, virtToPhys_of_leaf ((hwalled.booked.held i P hP).paged ha) hleaf, by decide⟩
    unfold user
    decide
  obtain ⟨P, l, hs, hviewP, hview⟩ := List.map_eq_cons_iff.mp hview
  obtain ⟨Q, l', rfl, hviewQ, -⟩ := List.map_eq_cons_iff.mp hview
  obtain ⟨hfP, hP⟩ := Prod.mk.inj hviewP
  obtain ⟨hfQ, hQ⟩ := Prod.mk.inj hviewQ
  obtain ⟨hrootP, hleafP⟩ := Prod.mk.inj hP
  obtain ⟨hrootQ, hleafQ⟩ := Prod.mk.inj hQ
  have h₀ : s.m.ptable[0]? = some P := by rw [hs]; rfl
  have h₁ : s.m.ptable[1]? = some Q := by rw [hs]; rfl
  have haP : P.Alive := ⟨hfP, by rw [hrootP]; decide⟩
  have haQ : Q.Alive := ⟨hfQ, by rw [hrootQ]; decide⟩
  refine ⟨s, P, Q, hrun, h₀, h₁, haQ, hreach 1 Q h₁ haQ hleafQ, ?_⟩
  exact processes_isolated pages quiet sampleCode bareSystem s booted_bare createTwo hok hrun 0 P h₀ haP EntryBits.X.val
    0x80001000 (hreach 0 P h₀ haP hleafP)

end Citron.Loader
