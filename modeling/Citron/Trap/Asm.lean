import Citron.Lib.SaveArea
import Citron.Paging.Init

/-!
# The assembly of traps and switches

`uservec` and `userret` of `src/arch/riscv64/trampoline.rs` and `context_switch` of
`src/arch/riscv64/process.rs`, as lists of the instructions that they are made of, over a machine with
its integer and floating-point registers, control registers and memory.  Loads and stores go through
the page table in `satp`; `none` is a page fault.

* `Window`              addresses that lead to an area of memory, whatever is stored there;
* `exec_stores`, `exec_loads`   a run of `sd` and of `ld` through a window is a `save` and a `load`;
* `uservec_spec`, `userret_spec`, `contextSwitch_spec`   what the three sequences do.
-/

namespace Citron.Trap
open Paging SaveArea

/-! ## the machine -/

inductive Reg where
  | ra | sp | gp | tp
  | t0 | t1 | t2 | t3 | t4 | t5 | t6
  | s0 | s1 | s2 | s3 | s4 | s5 | s6 | s7 | s8 | s9 | s10 | s11
  | a0 | a1 | a2 | a3 | a4 | a5 | a6 | a7
deriving DecidableEq, Repr

inductive Csr where
  | sstatus | stvec | sscratch | sepc | scause | satp
deriving DecidableEq, Repr

structure Machine where
  x : Reg → Word
  f : Fin 32 → Word
  csr : Csr → Word
  pc : Word
  mem : Mem

/-- the physical address of `va`; in bare mode it is `va` itself -/
def translate (satp : Word) (m : Mem) (va : Word) : Option Nat :=
  if satp >>> 60 = 8#64 then (virtToPhys m (satpTable satp) va).join.map BitVec.toNat
  else some va.toNat

/-! ## the instructions -/

inductive Instr where
  | sd (src : Reg) (offset : Nat) (base : Reg)
  | ld (dst : Reg) (offset : Nat) (base : Reg)
  | csrrw (rd : Reg) (csr : Csr) (rs : Reg)
  | csrr (rd : Reg) (csr : Csr)
  | csrw (csr : Csr) (rs : Reg)
  | sfenceVma
  | jr (rs : Reg)
  | ret
  | sret
deriving DecidableEq, Repr

/-- `sret` to user mode: SIE is SPIE, SPIE is set, SPP is clear -/
def sretStatus (sstatus : Word) : Word :=
  (if sstatus &&& (1#64 <<< 5) = 0#64 then sstatus &&& ~~~ (1#64 <<< 1) else sstatus ||| (1#64 <<< 1))
    &&& ~~~ (1#64 <<< 8) ||| (1#64 <<< 5)

namespace Machine

def set (M : Machine) (r : Reg) (w : Word) : Machine := { M with x := Function.update M.x r w }

def setCsr (M : Machine) (c : Csr) (w : Word) : Machine := { M with csr := Function.update M.csr c w }

/-- the address that a load or a store at `offset(base)` goes to -/
def address (M : Machine) (offset : Nat) (base : Reg) : Option Nat :=
  translate (M.csr .satp) M.mem (M.x base + BitVec.ofNat 64 offset)

end Machine

def Instr.exec : Instr → Machine → Option Machine
  | .sd src offset base, M => (M.address offset base).map fun a => { M with mem := M.mem.writeWord a (M.x src) }
  | .ld dst offset base, M => (M.address offset base).map fun a => M.set dst (M.mem.readWord a)
  | .csrrw rd csr rs, M => some ((M.set rd (M.csr csr)).setCsr csr (M.x rs))
  | .csrr rd csr, M => some (M.set rd (M.csr csr))
  | .csrw csr rs, M => some (M.setCsr csr (M.x rs))
  | .sfenceVma, M => some M
  | .jr rs, M => some { M with pc := M.x rs }
  | .ret, M => some { M with pc := M.x .ra }
  | .sret, M => some { M.setCsr .sstatus (sretStatus (M.csr .sstatus)) with pc := M.csr .sepc }

def exec : List Instr → Machine → Option Machine
  | [], M => some M
  | i :: is, M => (i.exec M).bind (exec is)

/-! ## the sequences of the source -/

/-- the registers that `uservec` stores besides `a0`, with their offsets in the trap frame -/
def uservecStores : List (Reg × Nat) :=
  [(.ra, 40), (.sp, 48), (.gp, 56), (.tp, 64), (.t0, 72), (.t1, 80), (.t2, 88), (.s0, 96), (.s1, 104), (.a1, 120),
    (.a2, 128), (.a3, 136), (.a4, 144), (.a5, 152), (.a6, 160), (.a7, 168), (.s2, 176), (.s3, 184), (.s4, 192),
    (.s5, 200), (.s6, 208), (.s7, 216), (.s8, 224), (.s9, 232), (.s10, 240), (.s11, 248), (.t3, 256), (.t4, 264),
    (.t5, 272), (.t6, 280)]

/-- what `uservec` loads for the kernel: `kernel_sp`, `kernel_hartid`, `kernel_trap` and `kernel_satp` -/
def kernelLoads : List (Reg × Nat) := [(.sp, 8), (.tp, 32), (.t0, 16), (.t1, 0)]

def uservec : List Instr :=
  [.csrrw .a0 .sscratch .a0] ++
  (uservecStores.map (fun (r, o) => .sd r o .a0) ++
  ([.csrr .t0 .sscratch,
    .sd .t0 112 .a0] ++
  (kernelLoads.map (fun (r, o) => .ld r o .a0) ++
  [.ld .a0 288 .a0,
    .csrw .satp .t1,
    .sfenceVma,
    .jr .t0])))

/-- the registers that `userret` loads besides `a0` -/
def userretLoads : List (Reg × Nat) :=
  [(.ra, 40), (.sp, 48), (.gp, 56), (.tp, 64), (.t0, 72), (.t1, 80), (.t2, 88), (.s0, 96), (.s1, 104), (.a1, 120),
    (.a2, 128), (.a3, 136), (.a4, 144), (.a5, 152), (.a6, 160), (.a7, 168), (.s2, 176), (.s3, 184), (.s4, 192),
    (.s5, 200), (.s6, 208), (.s7, 216), (.s8, 224), (.s9, 232), (.s10, 240), (.s11, 248), (.t3, 256), (.t4, 264),
    (.t5, 272), (.t6, 280)]

def userret : List Instr :=
  [.csrw .satp .a1,
    .sfenceVma,
    .ld .t0 112 .a0,
    .csrw .sscratch .t0] ++
  (userretLoads.map (fun (r, o) => .ld r o .a0) ++
  [.csrrw .a0 .sscratch .a0,
    .sret])

/-- the registers that `context_switch` stores and loads, with their offsets in a `Context` -/
def contextRegs : List (Reg × Nat) :=
  [(.ra, 0), (.sp, 8), (.s0, 16), (.s1, 24), (.s2, 32), (.s3, 40), (.s4, 48), (.s5, 56), (.s6, 64), (.s7, 72),
    (.s8, 80), (.s9, 88), (.s10, 96), (.s11, 104)]

def contextSwitch : List Instr :=
  contextRegs.map (fun (r, o) => .sd r o .a0) ++
  ([.csrr .t0 .sstatus,
    .sd .t0 120 .a0] ++
  (contextRegs.map (fun (r, o) => .ld r o .a1) ++
  [.ld .a0 112 .a1,
    .ld .t0 120 .a1,
    .csrw .sstatus .t0,
    .ret]))

/-! ## runs of stores and loads -/

/-- the `n` bytes from `va` on are the memory at `pa`, also after that memory was written to -/
def Window (satp : Word) (m : Mem) (va : Word) (pa n : Nat) : Prop :=
  ∀ m', Set.EqOn m' m (Mem.range pa n)ᶜ → ∀ o, o < n → translate satp m' (va + BitVec.ofNat 64 o) = some (pa + o)

section window
variable {satp va : Word} {m m' : Mem} {pa n : Nat}

theorem Window.congr (h : Window satp m va pa n) (hm : Set.EqOn m' m (Mem.range pa n)ᶜ) : Window satp m' va pa n :=
  fun m'' h' => h m'' (h'.trans hm)

theorem Window.translate (h : Window satp m va pa n) {o : Nat} (ho : o < n) :
    translate satp m (va + BitVec.ofNat 64 o) = some (pa + o) := h m (fun _ _ => rfl) o ho

theorem Window.write (h : Window satp m va pa n) {o : Nat} {w : Word} (ho : o + 8 ≤ n) :
    Window satp (m.writeWord (pa + o) w) va pa n := by
  refine h.congr (Mem.writeWord_eqOn ?_)
  rw [Set.disjoint_compl_right_iff_subset]
  exact Mem.range_mono (Nat.le_add_right _ _) (by omega)

end window

section step
variable (is : List Instr) (M : Machine)

theorem exec_csrrw (rd : Reg) (csr : Csr) (rs : Reg) :
    exec (.csrrw rd csr rs :: is) M = exec is ((M.set rd (M.csr csr)).setCsr csr (M.x rs)) := rfl

theorem exec_csrr (rd : Reg) (csr : Csr) : exec (.csrr rd csr :: is) M = exec is (M.set rd (M.csr csr)) := rfl

theorem exec_csrw (csr : Csr) (rs : Reg) : exec (.csrw csr rs :: is) M = exec is (M.setCsr csr (M.x rs)) := rfl

theorem exec_sfenceVma : exec (.sfenceVma :: is) M = exec is M := rfl

end step

section exec
variable {M : Machine} {base : Reg} {pa n o : Nat} (hw : Window (M.csr .satp) M.mem (M.x base) pa n) (ho : o + 8 ≤ n)
  (is : List Instr)
include hw ho

theorem exec_sd (src : Reg) :
    exec (.sd src o base :: is) M = exec is { M with mem := M.mem.writeWord (pa + o) (M.x src) } := by
  have haddr : M.address o base = some (pa + o) := hw.translate (by omega)
  show ((Instr.sd src o base).exec M).bind (exec is) = _
  rw [show (Instr.sd src o base).exec M = (M.address o base).map _ from rfl, haddr]
  rfl

theorem exec_ld (dst : Reg) : exec (.ld dst o base :: is) M = exec is (M.set dst (M.mem.readWord (pa + o))) := by
  have haddr : M.address o base = some (pa + o) := hw.translate (by omega)
  show ((Instr.ld dst o base).exec M).bind (exec is) = _
  rw [show (Instr.ld dst o base).exec M = (M.address o base).map _ from rfl, haddr]
  rfl

end exec

theorem exec_stores {base : Reg} {pa n : Nat} (is : List Instr) (l : List (Reg × Nat)) (hl : ∀ p ∈ l, p.2 + 8 ≤ n) :
    ∀ M : Machine, Window (M.csr .satp) M.mem (M.x base) pa n →
    exec (l.map (fun (r, o) => .sd r o base) ++ is) M = exec is { M with mem := save pa M.x l M.mem } := by
  induction l with
  | nil => exact fun _ _ => rfl
  | cons p l ih =>
    intro M hw
    obtain ⟨hp, hl⟩ := List.forall_mem_cons.mp hl
    rw [List.map_cons, List.cons_append, exec_sd hw hp]
    exact ih hl _ (hw.write hp)

theorem exec_loads {base : Reg} {pa n : Nat} (is : List Instr) (l : List (Reg × Nat)) (hl : ∀ p ∈ l, p.2 + 8 ≤ n)
    (hb : base ∉ l.map Prod.fst) : ∀ M : Machine, Window (M.csr .satp) M.mem (M.x base) pa n →
    exec (l.map (fun (r, o) => .ld r o base) ++ is) M = exec is { M with x := load pa M.mem l M.x } := by
  induction l with
  | nil => exact fun _ _ => rfl
  | cons p l ih =>
    intro M hw
    obtain ⟨hp, hl⟩ := List.forall_mem_cons.mp hl
    rw [List.map_cons, List.mem_cons, not_or] at hb
    rw [List.map_cons, List.cons_append, exec_ld hw hp]
    refine ih hl hb.2 (M.set p.1 (M.mem.readWord (pa + p.2))) ?_
    show Window (M.csr .satp) M.mem (Function.update M.x p.1 _ base) pa n
    rw [Function.update_of_ne hb.1]
    exact hw

/-! ## the trap frame -/

/-- the fields of `TrapFrame` -/
inductive Field where
  | kernelSatp
  | kernelSp
  | kernelTrap
  | epc
  | kernelHartid
  | reg (r : Reg)
  | archProc
deriving DecidableEq, Repr

/-- their order in memory -/
def trapFrame : List Field :=
  [.kernelSatp, .kernelSp, .kernelTrap, .epc, .kernelHartid, .reg .ra, .reg .sp, .reg .gp, .reg .tp, .reg .t0, .reg .t1,
    .reg .t2, .reg .s0, .reg .s1, .reg .a0, .reg .a1, .reg .a2, .reg .a3, .reg .a4, .reg .a5, .reg .a6, .reg .a7,
    .reg .s2, .reg .s3, .reg .s4, .reg .s5, .reg .s6, .reg .s7, .reg .s8, .reg .s9, .reg .s10, .reg .s11, .reg .t3,
    .reg .t4, .reg .t5, .reg .t6, .archProc]

def Field.offset (fld : Field) : Nat := 8 * trapFrame.idxOf fld

theorem Field.mem_trapFrame (fld : Field) : fld ∈ trapFrame := by
  cases fld with
  | reg r => cases r <;> decide
  | _ => decide

theorem Field.offset_le (fld : Field) : fld.offset + 8 ≤ 296 := by
  have h := List.idxOf_lt_length_of_mem fld.mem_trapFrame
  rw [show trapFrame.length = 37 from rfl] at h
  unfold offset
  omega

theorem Field.clear {fld fld' : Field} (h : fld ≠ fld') : Clear fld.offset fld'.offset := by
  have hne : trapFrame.idxOf fld ≠ trapFrame.idxOf fld' := fun he =>
    h ((List.idxOf_inj fld.mem_trapFrame).mp he)
  unfold offset Clear
  omega

/-- the words of the trap frame at `pa` -/
def frameOf (m : Mem) (pa : Nat) (fld : Field) : Word := m.readWord (pa + fld.offset)

def setField (m : Mem) (pa : Nat) (fld : Field) (w : Word) : Mem := m.writeWord (pa + fld.offset) w

theorem frameOf_setField (m : Mem) (pa : Nat) (fld : Field) (w : Word) :
    frameOf (setField m pa fld w) pa = Function.update (frameOf m pa) fld w := by
  funext fld'
  by_cases h : fld' = fld
  · subst h
    rw [Function.update_self]
    exact Mem.readWord_writeWord _ _ _
  · rw [Function.update_of_ne h]
    exact readWord_writeWord_clear (Field.clear (Ne.symm h))

theorem setField_eqOn {m : Mem} {pa n : Nat} (hn : 296 ≤ n) (fld : Field) (w : Word) :
    Set.EqOn (setField m pa fld w) m (Mem.range pa n)ᶜ := by
  have := fld.offset_le
  refine Mem.writeWord_eqOn ?_
  rw [Set.disjoint_compl_right_iff_subset]
  exact Mem.range_mono (Nat.le_add_right _ _) (by omega)

/-! ## what the sequences do -/

/-- the offsets in `uservec` are those of the fields -/
theorem uservecStores_offset : ∀ p ∈ uservecStores, p.2 = (Field.reg p.1).offset := by decide

/-- and all registers besides `a0` are there -/
theorem mem_uservecStores (r : Reg) (h : r ≠ .a0) : (r, (Field.reg r).offset) ∈ uservecStores := by
  cases r <;> first | exact absurd rfl h | decide

theorem mem_userretLoads (r : Reg) (h : r ≠ .a0) : (r, (Field.reg r).offset) ∈ userretLoads := by
  cases r <;> first | exact absurd rfl h | decide

/-- the trap frame after `uservec`: every register in its field, the other fields as they were -/
def savedFrame (x : Reg → Word) (frame : Field → Word) : Field → Word
  | .reg r => x r
  | fld => frame fld

/-- what is left of the machine `M` at a trap by `uservec`, with the trap frame at `pa` -/
structure UserSaved (pa : Nat) (M M' : Machine) : Prop where
  f : M'.f = M.f
  frame : frameOf M'.mem pa = savedFrame M.x (frameOf M.mem pa)
  mem : Set.EqOn M'.mem M.mem (Mem.range pa 4096)ᶜ
  pc : M'.pc = frameOf M.mem pa .kernelTrap
  a0 : M'.x .a0 = frameOf M.mem pa .archProc
  satp : M'.csr .satp = frameOf M.mem pa .kernelSatp
  csr : ∀ c, c ≠ .satp → c ≠ .sscratch → M'.csr c = M.csr c

/-- the stores of `uservec`, and the one of `a0` behind them -/
theorem frameOf_save (x x' : Reg → Word) (hx : ∀ r, r ≠ .a0 → x' r = x r) (m : Mem) (pa : Nat) :
    frameOf (setField (save pa x' uservecStores m) pa (.reg .a0) (x .a0)) pa = savedFrame x (frameOf m pa) := by
  rw [frameOf_setField]
  funext fld
  cases fld with
  | reg r =>
    by_cases hr : r = .a0
    · subst hr
      exact Function.update_self _ _ _
    · rw [Function.update_of_ne fun h => hr (Field.reg.inj h)]
      exact (readWord_save uservecStores m (by decide) (mem_uservecStores r hr)).trans (hx r hr)
  | _ =>
    -- no register goes to the other fields
    rw [Function.update_of_ne (by simp)]
    refine readWord_save_clear uservecStores m fun p hp => ?_
    rw [uservecStores_offset p hp]
    exact Field.clear (by simp)

/-- the loads of `uservec` for the kernel -/
theorem load_kernelLoads (pa : Nat) (m : Mem) (x : Reg → Word) :
    load pa m kernelLoads x .a0 = x .a0 ∧ load pa m kernelLoads x .t0 = frameOf m pa .kernelTrap ∧
    load pa m kernelLoads x .t1 = frameOf m pa .kernelSatp := by
  have ha0 : Reg.a0 ∉ kernelLoads.map Prod.fst := by decide
  have hnd : (kernelLoads.map Prod.fst).Nodup := by decide
  have ht0 : (Reg.t0, Field.kernelTrap.offset) ∈ kernelLoads := by decide
  have ht1 : (Reg.t1, Field.kernelSatp.offset) ∈ kernelLoads := by decide
  exact ⟨load_of_notMem kernelLoads x ha0, load_of_mem kernelLoads x hnd ht0, load_of_mem kernelLoads x hnd ht1⟩

theorem uservec_spec {M : Machine} {pa : Nat} (hw : Window (M.csr .satp) M.mem (M.csr .sscratch) pa 4096) :
    ∃ M', exec uservec M = some M' ∧ UserSaved pa M M' := by
  -- `a0` is the trap frame, and what it was is in `sscratch`
  obtain ⟨M₁, hM₁⟩ : ∃ N, N = (M.set .a0 (M.csr .sscratch)).setCsr .sscratch (M.x .a0) := ⟨_, rfl⟩
  have hx₁ : ∀ r, r ≠ .a0 → M₁.x r = M.x r := by
    intro r hr
    rw [hM₁]
    exact Function.update_of_ne hr _ _
  have hw₁ : Window (M₁.csr .satp) M₁.mem (M₁.x .a0) pa 4096 := by rw [hM₁]; exact hw
  obtain ⟨m₂, hm₂⟩ : ∃ m, m = save pa M₁.x uservecStores M₁.mem := ⟨_, rfl⟩
  have heq₂ : Set.EqOn m₂ M₁.mem (Mem.range pa 4096)ᶜ := hm₂ ▸ save_eqOn _ _ (by decide)
  -- then `a0` itself
  obtain ⟨M₄, hM₄⟩ : ∃ N, N = { ({ M₁ with mem := m₂ } : Machine).set .t0 (M₁.csr .sscratch) with
    mem := setField m₂ pa (.reg .a0) (M.x .a0) } := ⟨_, rfl⟩
  have hframe : frameOf M₄.mem pa = savedFrame M.x (frameOf M.mem pa) := by
    rw [hM₄, hm₂, show M₁.mem = M.mem by rw [hM₁]; rfl]
    exact frameOf_save M.x M₁.x hx₁ M.mem pa
  have heq₄ : Set.EqOn M₄.mem M.mem (Mem.range pa 4096)ᶜ := by
    rw [hM₄]
    refine (setField_eqOn (by decide) _ _).trans (heq₂.trans ?_)
    rw [hM₁]
    exact fun _ _ => rfl
  have hw₄ : Window (M₄.csr .satp) M₄.mem (M₄.x .a0) pa 4096 := by
    have hM : Window (M₁.csr .satp) m₂ (M₁.x .a0) pa 4096 := hw₁.congr heq₂
    rw [hM₄]
    exact hM.congr (setField_eqOn (by decide) _ _)
  have hload : ∀ fld, (∀ r, fld ≠ .reg r) → frameOf M₄.mem pa fld = frameOf M.mem pa fld := by
    intro fld hne
    refine (congrFun hframe fld).trans ?_
    cases fld with
    | reg r => exact absurd rfl (hne r)
    | _ => rfl
  have hstores : exec uservec M = exec (kernelLoads.map (fun (r, o) => .ld r o .a0) ++
      [.ld .a0 288 .a0, .csrw .satp .t1, .sfenceVma, .jr .t0]) M₄ := by
    have hval : M₁.csr .sscratch = M.x .a0 := by rw [hM₁]; rfl
    have hoffset : (Field.reg .a0).offset = 112 := by decide
    unfold uservec
    rw [List.singleton_append, exec_csrrw, ← hM₁, exec_stores _ uservecStores (by decide) M₁ hw₁, ← hm₂, List.cons_append,
      exec_csrr, List.cons_append, List.nil_append,
      exec_sd (hw₁.congr heq₂ : Window (M₁.csr .satp) m₂ (M₁.x .a0) pa 4096) (by decide)]
    rw [hM₄, setField, hoffset, ← hval]
    rfl
  -- the kernel's registers
  obtain ⟨x₅, hx₅⟩ : ∃ x, x = load pa M₄.mem kernelLoads M₄.x := ⟨_, rfl⟩
  obtain ⟨hbase, ht0, ht1⟩ := load_kernelLoads pa M₄.mem M₄.x
  rw [← hx₅] at hbase ht0 ht1
  obtain ⟨M₅, hM₅⟩ : ∃ N : Machine, N = { M₄ with x := x₅ } := ⟨_, rfl⟩
  have hw₅ : Window (M₅.csr .satp) M₅.mem (M₅.x .a0) pa 4096 := by
    rw [hM₅]
    dsimp only
    rw [hbase]
    exact hw₄
  rw [hstores, exec_loads _ kernelLoads (by decide) (by decide) M₄ hw₄, ← hx₅, ← hM₅, exec_ld hw₅ (by decide), exec_csrw,
    exec_sfenceVma]
  refine ⟨_, rfl, ?_, ?_, ?_, ?_, ?_, ?_, ?_⟩
  · rw [hM₅, hM₄, hM₁]
    rfl
  · rw [hM₅]
    exact hframe
  · rw [hM₅]
    exact heq₄
  · rw [hM₅]
    exact ht0.trans (hload .kernelTrap (by simp))
  · rw [hM₅]
    exact hload .archProc (by simp)
  · rw [hM₅]
    exact ht1.trans (hload .kernelSatp (by simp))
  · intro c h₁ h₂
    rw [hM₅, hM₄, hM₁]
    show Function.update (Function.update M.csr .sscratch _) .satp _ c = M.csr c
    rw [Function.update_of_ne h₁, Function.update_of_ne h₂]

/-- what `userret` makes of the machine `M`, with the trap frame at `pa` -/
structure UserRestored (pa : Nat) (M M' : Machine) : Prop where
  x : ∀ r, M'.x r = frameOf M.mem pa (.reg r)
  f : M'.f = M.f
  mem : M'.mem = M.mem
  pc : M'.pc = M.csr .sepc
  satp : M'.csr .satp = M.x .a1
  sscratch : M'.csr .sscratch = M.x .a0
  sstatus : M'.csr .sstatus = sretStatus (M.csr .sstatus)
  stvec : M'.csr .stvec = M.csr .stvec

/-- the loads of `userret` -/
theorem load_userretLoads (pa : Nat) (m : Mem) (x : Reg → Word) :
    load pa m userretLoads x .a0 = x .a0 ∧ ∀ r, r ≠ .a0 → load pa m userretLoads x r = frameOf m pa (.reg r) := by
  have ha0 : Reg.a0 ∉ userretLoads.map Prod.fst := by decide
  have hnd : (userretLoads.map Prod.fst).Nodup := by decide
  exact ⟨load_of_notMem userretLoads x ha0, fun r hr => load_of_mem userretLoads x hnd (mem_userretLoads r hr)⟩

theorem userret_spec {M : Machine} {pa : Nat} (hw : Window (M.x .a1) M.mem (M.x .a0) pa 4096) :
    ∃ M', exec userret M = some M' ∧ UserRestored pa M M' := by
  obtain ⟨M₁, hM₁⟩ : ∃ N, N = M.setCsr .satp (M.x .a1) := ⟨_, rfl⟩
  have hw₁ : Window (M₁.csr .satp) M₁.mem (M₁.x .a0) pa 4096 := by rw [hM₁]; exact hw
  -- `a0` waits in `sscratch`
  obtain ⟨M₂, hM₂⟩ : ∃ N, N = (M₁.set .t0 (frameOf M.mem pa (.reg .a0))).setCsr .sscratch
    (frameOf M.mem pa (.reg .a0)) := ⟨_, rfl⟩
  have hw₂ : Window (M₂.csr .satp) M₂.mem (M₂.x .a0) pa 4096 := by rw [hM₂]; exact hw₁
  have hoffset : (Field.reg .a0).offset = 112 := by decide
  have hhead : exec userret M = exec (userretLoads.map (fun (r, o) => .ld r o .a0) ++
      [.csrrw .a0 .sscratch .a0, .sret]) M₂ := by
    unfold userret
    rw [List.cons_append, exec_csrw, ← hM₁, List.cons_append, exec_sfenceVma, List.cons_append,
      exec_ld hw₁ (by decide), List.cons_append, exec_csrw, List.nil_append, hM₂, frameOf, hoffset, hM₁]
    rfl
  -- the other registers
  obtain ⟨x₃, hx₃⟩ : ∃ x, x = load pa M₂.mem userretLoads M₂.x := ⟨_, rfl⟩
  obtain ⟨hbase, hx⟩ := load_userretLoads pa M₂.mem M₂.x
  rw [← hx₃] at hbase hx
  have hmem₂ : M₂.mem = M.mem := by rw [hM₂, hM₁]; rfl
  rw [hhead, exec_loads _ userretLoads (by decide) (by decide) M₂ hw₂, ← hx₃, exec_csrrw]
  refine ⟨_, rfl, fun r => ?_, ?_, ?_, ?_, ?_, ?_, ?_, ?_⟩
  · show Function.update x₃ .a0 (M₂.csr .sscratch) r = _
    by_cases hr : r = .a0
    · subst hr
      rw [Function.update_self, hM₂]
      rfl
    · rw [Function.update_of_ne hr, hx r hr, hmem₂]
  · rw [hM₂, hM₁]
    rfl
  · exact hmem₂
  · rw [hM₂, hM₁]
    rfl
  · rw [hM₂, hM₁]
    rfl
  · show x₃ .a0 = M.x .a0
    rw [hbase, hM₂, hM₁]
    rfl
  · rw [hM₂, hM₁]
    rfl
  · rw [hM₂, hM₁]
    rfl

/-- what `context_switch` makes of the machine `M`, with the contexts at `old` and `new` -/
structure Switched (old new : Nat) (M M' : Machine) : Prop where
  saved : ∀ p ∈ contextRegs, M'.mem.readWord (old + p.2) = M.x p.1
  savedStatus : M'.mem.readWord (old + 120) = M.csr .sstatus
  mem : Set.EqOn M'.mem M.mem (Mem.range old 128)ᶜ
  x : ∀ p ∈ contextRegs, M'.x p.1 = M'.mem.readWord (new + p.2)
  a0 : M'.x .a0 = M'.mem.readWord (new + 112)
  sstatus : M'.csr .sstatus = M'.mem.readWord (new + 120)
  pc : M'.pc = M'.x .ra
  csr : ∀ c, c ≠ .sstatus → M'.csr c = M.csr c
  f : M'.f = M.f

theorem contextSwitch_spec {M : Machine} {old new : Nat} (hold : Window (M.csr .satp) M.mem (M.x .a0) old 128)
    (hnew : ∀ m, Set.EqOn m M.mem (Mem.range old 128)ᶜ → Window (M.csr .satp) m (M.x .a1) new 128) :
    ∃ M', exec contextSwitch M = some M' ∧ Switched old new M M' := by
  have hspaced : Spaced contextRegs := by decide
  have hnd : (contextRegs.map Prod.fst).Nodup := by decide
  have hle : ∀ p ∈ contextRegs, p.2 + 8 ≤ 112 := by decide
  have hfit : ∀ p ∈ contextRegs, p.2 + 8 ≤ 128 := fun p hp => (hle p hp).trans (by decide)
  have hplain : Reg.a1 ∉ contextRegs.map Prod.fst ∧ Reg.a0 ∉ contextRegs.map Prod.fst ∧
    Reg.t0 ∉ contextRegs.map Prod.fst := by decide
  -- the old context
  obtain ⟨m₁, hm₁⟩ : ∃ m, m = save old M.x contextRegs M.mem := ⟨_, rfl⟩
  have heq₁ : Set.EqOn m₁ M.mem (Mem.range old 128)ᶜ := hm₁ ▸ save_eqOn _ _ hfit
  obtain ⟨m₂, hm₂⟩ : ∃ m, m = m₁.writeWord (old + 120) (M.csr .sstatus) := ⟨_, rfl⟩
  have heq₂ : Set.EqOn m₂ M.mem (Mem.range old 128)ᶜ := by
    rw [hm₂]
    refine (Mem.writeWord_eqOn ?_).trans heq₁
    rw [Set.disjoint_compl_right_iff_subset]
    exact Mem.range_mono (Nat.le_add_right _ _) (by omega)
  obtain ⟨M₂, hM₂⟩ : ∃ N, N = { M.set .t0 (M.csr .sstatus) with mem := m₂ } := ⟨_, rfl⟩
  have hstores : exec contextSwitch M = exec (contextRegs.map (fun (r, o) => .ld r o .a1) ++
      [.ld .a0 112 .a1, .ld .t0 120 .a1, .csrw .sstatus .t0, .ret]) M₂ := by
    unfold contextSwitch
    rw [exec_stores _ contextRegs hfit M hold, ← hm₁, List.cons_append, exec_csrr, List.cons_append, List.nil_append,
      exec_sd (hold.congr heq₁ : Window (M.csr .satp) m₁ (M.x .a0) old 128) (by decide), hM₂, hm₂]
    rfl
  have hw₂ : Window (M₂.csr .satp) M₂.mem (M₂.x .a1) new 128 := by rw [hM₂]; exact hnew m₂ heq₂
  -- the new one
  obtain ⟨x₃, hx₃⟩ : ∃ x, x = load new M₂.mem contextRegs M₂.x := ⟨_, rfl⟩
  have ha1 : x₃ .a1 = M₂.x .a1 := hx₃ ▸ load_of_notMem contextRegs M₂.x hplain.1
  have hx : ∀ p ∈ contextRegs, x₃ p.1 = M₂.mem.readWord (new + p.2) := fun p hp =>
    hx₃ ▸ load_of_mem contextRegs M₂.x hnd hp
  obtain ⟨M₃, hM₃⟩ : ∃ N : Machine, N = { M₂ with x := x₃ } := ⟨_, rfl⟩
  have hw₃ : Window (M₃.csr .satp) M₃.mem (M₃.x .a1) new 128 := by
    rw [hM₃]
    dsimp only
    rw [ha1]
    exact hw₂
  obtain ⟨M₄, hM₄⟩ : ∃ N : Machine, N = M₃.set .a0 (M₃.mem.readWord (new + 112)) := ⟨_, rfl⟩
  have hw₄ : Window (M₄.csr .satp) M₄.mem (M₄.x .a1) new 128 := by rw [hM₄]; exact hw₃
  rw [hstores, exec_loads _ contextRegs hfit hplain.1 M₂ hw₂, ← hx₃, ← hM₃, exec_ld hw₃ (by decide), ← hM₄,
    exec_ld hw₄ (by decide), exec_csrw]
  refine ⟨_, rfl, fun p hp => ?_, ?_, ?_, fun p hp => ?_, ?_, ?_, rfl, fun c hc => ?_, ?_⟩
  · have hclear : Clear 120 p.2 := .inr ((hle p hp).trans (by decide))
    rw [hM₄, hM₃, hM₂]
    show m₂.readWord (old + p.2) = _
    rw [hm₂, readWord_writeWord_clear hclear, hm₁]
    exact readWord_save contextRegs M.mem hspaced hp
  · rw [hM₄, hM₃, hM₂]
    show m₂.readWord (old + 120) = _
    rw [hm₂, Mem.readWord_writeWord]
  · rw [hM₄, hM₃, hM₂]
    exact heq₂
  · have hne₀ : p.1 ≠ .t0 := fun h => hplain.2.2 (h ▸ List.mem_map_of_mem hp)
    have hne : p.1 ≠ .a0 := fun h => hplain.2.1 (h ▸ List.mem_map_of_mem hp)
    rw [hM₄, hM₃]
    show Function.update (Function.update x₃ .a0 _) .t0 _ p.1 = _
    rw [Function.update_of_ne hne₀, Function.update_of_ne hne]
    exact hx p hp
  · rw [hM₄, hM₃]
    rfl
  · rfl
  · rw [hM₄, hM₃, hM₂]
    exact Function.update_of_ne hc _ _
  · rw [hM₄, hM₃, hM₂]
    rfl

/-- a context that is switched to again, with its words as they were left, goes on where it was switched from -/
theorem Switched.resume {old other new next : Nat} {M M' N N' : Machine} (h : Switched old new M M')
    (h' : Switched other next N N') (hnext : next = old)
    (hkept : ∀ o, o + 8 ≤ 128 → N'.mem.readWord (old + o) = M'.mem.readWord (old + o)) :
    (∀ p ∈ contextRegs, N'.x p.1 = M.x p.1) ∧ N'.csr .sstatus = M.csr .sstatus ∧ N'.pc = M.x .ra := by
  have hle : ∀ p ∈ contextRegs, p.2 + 8 ≤ 128 := by decide
  have hx : ∀ p ∈ contextRegs, N'.x p.1 = M.x p.1 := by
    intro p hp
    rw [h'.x p hp, hnext, hkept p.2 (hle p hp)]
    exact h.saved p hp
  refine ⟨hx, ?_, h'.pc.trans (hx (.ra, 0) (by decide))⟩
  rw [h'.sstatus, hnext, hkept 120 (by decide)]
  exact h.savedStatus

end Citron.Trap
