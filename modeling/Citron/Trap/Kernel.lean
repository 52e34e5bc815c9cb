import Citron.Lib.Stacks
import Citron.Lib.Trace
import Citron.Trap.Return

/-!
# Interrupts of kernel code

`kernelvec` and `kernel_trap` of `src/arch/riscv64/trap.rs`: code of the kernel is interrupted on its own stack, and
goes on later, with other threads and their interrupts in between.

* `kernelvecSave_spec`, `kernelvecRestore_spec`   the two halves of `kernelvec`;
* `Kernel`, `Act`            the machine with its kernel stacks and the interrupts that are pending, and what can happen;
* `Sound`                    the frames of the pending interrupts are where they were pushed;
* `interrupt_transparent`    interrupted code finds its registers and its stack as they were.
-/

namespace Citron.Trap
open Paging SaveArea Stacks

/-! ## `kernelvec` -/

/-- the instructions of `kernelvec`: besides the others there is `addi` -/
inductive VecInstr where
  | plain (i : Instr)
  | addi (rd rs : Reg) (imm : Word)
deriving DecidableEq, Repr

def VecInstr.exec : VecInstr → Machine → Option Machine
  | .plain i, M => i.exec M
  | .addi rd rs imm, M => some (M.set rd (M.x rs + imm))

def execVec : List VecInstr → Machine → Option Machine
  | [], M => some M
  | i :: is, M => (i.exec M).bind (execVec is)

def kernelvecStores : List (Reg × Nat) :=
  [(.ra, 0), (.sp, 8), (.gp, 16), (.tp, 24), (.t0, 32), (.t1, 40), (.t2, 48), (.s0, 56), (.s1, 64), (.a0, 72), (.a1, 80),
    (.a2, 88), (.a3, 96), (.a4, 104), (.a5, 112), (.a6, 120), (.a7, 128), (.s2, 136), (.s3, 144), (.s4, 152), (.s5, 160),
    (.s6, 168), (.s7, 176), (.s8, 184), (.s9, 192), (.s10, 200), (.s11, 208), (.t3, 216), (.t4, 224), (.t5, 232),
    (.t6, 240)]

/-- `tp` is not loaded: it holds the hart -/
def kernelvecLoads : List (Reg × Nat) :=
  [(.ra, 0), (.sp, 8), (.gp, 16), (.t0, 32), (.t1, 40), (.t2, 48), (.s0, 56), (.s1, 64), (.a0, 72), (.a1, 80),
    (.a2, 88), (.a3, 96), (.a4, 104), (.a5, 112), (.a6, 120), (.a7, 128), (.s2, 136), (.s3, 144), (.s4, 152), (.s5, 160),
    (.s6, 168), (.s7, 176), (.s8, 184), (.s9, 192), (.s10, 200), (.s11, 208), (.t3, 216), (.t4, 224), (.t5, 232),
    (.t6, 240)]

/-- up to `call kernel_trap` -/
def kernelvecSave : List VecInstr :=
  .addi .sp .sp (-256#64) :: kernelvecStores.map fun (r, o) => .plain (.sd r o .sp)

/-- and behind it -/
def kernelvecRestore : List VecInstr :=
  kernelvecLoads.map (fun (r, o) => .plain (.ld r o .sp)) ++
  [.addi .sp .sp 256#64,
    .plain .sret]

theorem kernelvecStores_spaced : Spaced kernelvecStores := by decide +kernel

theorem execVec_addi (rd rs : Reg) (imm : Word) (is : List VecInstr) (M : Machine) :
    execVec (.addi rd rs imm :: is) M = execVec is (M.set rd (M.x rs + imm)) := rfl

theorem execVec_plain (is : List Instr) (js : List VecInstr) : ∀ M : Machine,
    execVec (is.map .plain ++ js) M = (exec is M).bind (execVec js) := by
  induction is with
  | nil => exact fun _ => rfl
  | cons i is ih =>
    intro M
    show (i.exec M).bind (execVec (is.map .plain ++ js)) = ((i.exec M).bind (exec is)).bind _
    rw [Option.bind_assoc]
    exact Option.bind_congr fun M' _ => ih M'

theorem set_self (M : Machine) (r : Reg) (w : Word) : (M.set r w).x r = w := by
  show Function.update M.x r w r = w
  rw [Function.update_self]

theorem set_of_ne (M : Machine) {r r' : Reg} (w : Word) (h : r' ≠ r) : (M.set r w).x r' = M.x r' := by
  show Function.update M.x r w r' = M.x r'
  rw [Function.update_of_ne h]

/-- a run of loads in which the base is loaded with what it is -/
theorem exec_loads_base {base : Reg} {pa n : Nat} (is : List Instr) (l : List (Reg × Nat)) (hl : ∀ p ∈ l, p.2 + 8 ≤ n) :
    ∀ M : Machine, Window (M.csr .satp) M.mem (M.x base) pa n →
    (∀ o, (base, o) ∈ l → M.mem.readWord (pa + o) = M.x base) →
    exec (l.map (fun (r, o) => .ld r o base) ++ is) M = exec is { M with x := load pa M.mem l M.x } := by
  induction l with
  | nil => exact fun _ _ _ => rfl
  | cons p l ih =>
    intro M hw hb
    obtain ⟨hp, hl⟩ := List.forall_mem_cons.mp hl
    have hkept : (M.set p.1 (M.mem.readWord (pa + p.2))).x base = M.x base := by
      by_cases hbase : base = p.1
      · have := hb p.2 (hbase ▸ List.mem_cons_self)
        rw [← hbase, set_self, this]
      · rw [set_of_ne M _ hbase]
    rw [List.map_cons, List.cons_append, exec_ld hw hp]
    refine ih hl (M.set p.1 _) (hkept.symm ▸ hw) fun o ho => ?_
    rw [hkept]
    exact hb o (List.mem_cons_of_mem _ ho)

section sequences
variable {M : Machine} {pa : Nat}

/-- what the first half of `kernelvec` makes of the machine `M`, with the frame at `pa` -/
structure KernelSaved (pa : Nat) (M M' : Machine) : Prop where
  sp : M'.x .sp = M.x .sp - 256#64
  saved : ∀ p ∈ kernelvecStores, p.1 ≠ .sp → M'.mem.readWord (pa + p.2) = M.x p.1
  savedSp : M'.mem.readWord (pa + 8) = M.x .sp - 256#64
  mem : Set.EqOn M'.mem M.mem (Mem.range pa 256)ᶜ
  csr : M'.csr = M.csr

theorem kernelvecSave_spec (hw : Window (M.csr .satp) M.mem (M.x .sp - 256#64) pa 256) :
    ∃ M', execVec kernelvecSave M = some M' ∧ KernelSaved pa M M' := by
  obtain ⟨M₁, hM₁⟩ : ∃ N, N = M.set .sp (M.x .sp + -256#64) := ⟨_, rfl⟩
  have hsp : M₁.x .sp = M.x .sp - 256#64 := by
    rw [hM₁, BitVec.sub_eq_add_neg, set_self]
  have hx : ∀ r, r ≠ .sp → M₁.x r = M.x r := fun r hr => by rw [hM₁, set_of_ne M _ hr]
  have hw₁ : Window (M₁.csr .satp) M₁.mem (M₁.x .sp) pa 256 := by
    rw [hsp, hM₁]
    exact hw
  have hexec : execVec kernelvecSave M = some { M₁ with mem := save pa M₁.x kernelvecStores M₁.mem } := by
    have hplain : kernelvecSave = .addi .sp .sp (-256#64) ::
        ((kernelvecStores.map fun (r, o) => Instr.sd r o .sp).map .plain ++ []) := rfl
    have hrun := exec_stores [] kernelvecStores (by decide) M₁ hw₁
    rw [List.append_nil] at hrun
    rw [hplain, execVec_addi, ← hM₁, execVec_plain, hrun]
    rfl
  refine ⟨_, hexec, hsp, fun p hp hne => ?_, ?_, ?_, ?_⟩
  · exact (readWord_save kernelvecStores M₁.mem kernelvecStores_spaced hp).trans (hx _ hne)
  · exact (readWord_save kernelvecStores M₁.mem kernelvecStores_spaced (by decide)).trans hsp
  · refine (save_eqOn kernelvecStores _ (by decide)).trans ?_
    rw [hM₁]
    exact fun _ _ => rfl
  · rw [hM₁]
    rfl

/-- what the second half makes of the machine `M` -/
structure KernelRestored (pa : Nat) (M M' : Machine) : Prop where
  sp : M'.x .sp = M.x .sp + 256#64
  x : ∀ p ∈ kernelvecLoads, p.1 ≠ .sp → M'.x p.1 = M.mem.readWord (pa + p.2)
  mem : M'.mem = M.mem
  pc : M'.pc = M.csr .sepc
  sstatus : M'.csr .sstatus = sretStatus (M.csr .sstatus)
  csr : ∀ c, c ≠ .sstatus → M'.csr c = M.csr c

theorem kernelvecRestore_spec (hw : Window (M.csr .satp) M.mem (M.x .sp) pa 256)
    (hsp : M.mem.readWord (pa + 8) = M.x .sp) : ∃ M', execVec kernelvecRestore M = some M' ∧ KernelRestored pa M M' := by
  have hnd : (kernelvecLoads.map Prod.fst).Nodup := by decide
  obtain ⟨M₁, hM₁⟩ : ∃ N : Machine, N = { M with x := load pa M.mem kernelvecLoads M.x } := ⟨_, rfl⟩
  have hx : ∀ p ∈ kernelvecLoads, M₁.x p.1 = M.mem.readWord (pa + p.2) := fun p hp => by
    rw [hM₁]
    exact load_of_mem kernelvecLoads M.x hnd hp
  have hloads : exec (kernelvecLoads.map fun (r, o) => .ld r o .sp) M = some M₁ := by
    have hsp' : ∀ p ∈ kernelvecLoads, p.1 = .sp → p.2 = 8 := by decide
    have hb : ∀ o, (Reg.sp, o) ∈ kernelvecLoads → M.mem.readWord (pa + o) = M.x .sp := by
      intro o ho
      rw [show o = 8 from hsp' _ ho rfl]
      exact hsp
    have hrun := exec_loads_base [] kernelvecLoads (by decide) M hw hb
    rw [List.append_nil] at hrun
    rw [hM₁]
    exact hrun
  have hsp₁ : M₁.x .sp = M.x .sp := (hx (.sp, 8) (by decide)).trans hsp
  have hplain : kernelvecRestore = (kernelvecLoads.map fun (r, o) => Instr.ld r o .sp).map .plain ++
      [.addi .sp .sp 256#64, .plain .sret] := rfl
  rw [hplain, execVec_plain, hloads, Option.bind_some, execVec_addi]
  refine ⟨_, rfl, ?_, fun p hp hne => ?_, ?_, ?_, ?_, fun c hc => ?_⟩
  · rw [← hsp₁]
    exact set_self M₁ .sp _
  · rw [← hx p hp]
    exact set_of_ne M₁ _ hne
  · rw [hM₁]
    rfl
  · rw [hM₁]
    rfl
  · rw [hM₁]
    rfl
  · rw [hM₁]
    exact Function.update_of_ne hc _ _

end sequences

/-! ## `kernel_trap` -/

/-- SPP is set, SPIE is SIE and SIE is clear -/
def kernelTrapStatus (sstatus : Word) : Word := trapStatus sstatus ||| (1#64 <<< 8)

/-- a trap from supervisor mode -/
def Machine.trapKernel (cause : Word) (M : Machine) : Machine :=
  { ((M.setCsr .sepc M.pc).setCsr .scause cause).setCsr .sstatus (kernelTrapStatus (M.csr .sstatus)) with
    pc := M.csr .stvec }

/-- what `kernel_trap` keeps in its variables -/
structure Locals where
  sepc : Word
  sstatus : Word
deriving DecidableEq, Repr

/-- `kernel_trap` up to `ArchProcess::interrupt` -/
def kernelTrap (M : Machine) : Option Locals :=
  -- not from supervisor mode
  if M.csr .sstatus &&& (1#64 <<< 8) = 0#64 then none
  -- interrupts enabled
  else if M.csr .sstatus &&& (1#64 <<< 1) ≠ 0#64 then none
  -- an exception goes no further
  else if isInterrupt (M.csr .scause) then some ⟨M.csr .sepc, M.csr .sstatus⟩
  else none

/-- from code of the kernel to the handler -/
def enterKernel (c : Symbols) (cause : Word) (M : Machine) : Option (Machine × Locals) :=
  let M := M.trapKernel cause
  if M.pc = c.kernelvec then (execVec kernelvecSave M).bind fun M => (kernelTrap M).map fun l => (M, l)
  else none

/-- the end of `kernel_trap`, and the way back -/
def leaveKernel (l : Locals) (M : Machine) : Option Machine :=
  execVec kernelvecRestore ((M.setCsr .sepc l.sepc).setCsr .sstatus l.sstatus)

/-! ## the threads of the kernel -/

/-- the kernel stacks -/
structure KernelStacks (ι : Type) extends Stacks ι where
  bounded : ∀ i, hi i < 2^64

/-- The kernel runs the code of `thread`; `pending` has the frames of the interrupts that have not returned. -/
structure Kernel (ι : Type) where
  machine : Machine
  thread : ι
  pending : Frame ι → Option Locals

namespace Kernel
variable {ι : Type}

def frames (K : Kernel ι) : Set (Frame ι) := {f | (K.pending f).isSome}

/-- the frame that the stack pointer is at -/
def top (K : Kernel ι) : Frame ι := ⟨K.thread, (K.machine.x .sp).toNat⟩

inductive Act (ι : Type) where
  /-- code of the kernel and of user processes; a context switch changes the thread -/
  | code (machine : Machine) (thread : ι)
  | interrupt (cause : Word)
  /-- `kernel_trap` has come back from the handler -/
  | ret

def step [DecidableEq ι] (c : Symbols) : Act ι → Kernel ι → Option (Kernel ι)
  | .code machine thread, K => some { K with machine, thread }
  | .interrupt cause, K =>
    (enterKernel c cause K.machine).map fun (M, l) =>
      ⟨M, K.thread, Function.update K.pending ⟨K.thread, (M.x .sp).toNat⟩ (some l)⟩
  | .ret, K =>
    (K.pending K.top).bind fun l =>
      (leaveKernel l K.machine).map fun M => ⟨M, K.thread, Function.update K.pending K.top none⟩

/-- the kernel stacks are mapped where they are, whatever they hold -/
def Mapped (S : Stacks ι) (M : Machine) : Prop :=
  ∀ m, Set.EqOn m M.mem S.areaᶜ → ∀ a ∈ S.area, translate (M.csr .satp) m (BitVec.ofNat 64 a) = some a

/-- what can happen leaves alone the frames of pending interrupts and what is mapped, and an interrupt finds room -/
def Act.Admitted (c : Symbols) (S : Stacks ι) (K : Kernel ι) : Act ι → Prop
  | .code machine thread =>
    Mapped S machine ∧ Below S K.frames thread (machine.x .sp).toNat ∧
    ∀ f ∈ K.frames, Set.EqOn machine.mem K.machine.mem (Mem.range f.base 256)
  | .interrupt cause =>
    isInterrupt cause = true ∧ K.machine.csr .stvec = c.kernelvec ∧ S.lo K.thread + 256 ≤ (K.machine.x .sp).toNat
  | .ret => True

/-- **The frames of the pending interrupts are where they were pushed.** -/
structure Sound (S : Stacks ι) (K : Kernel ι) : Prop where
  mapped : Mapped S K.machine
  laid : Laid S 256 K.frames K.thread (K.machine.x .sp).toNat
  -- `kernelvec` has stored its own stack pointer, and will load it
  stored : ∀ f ∈ K.frames, K.machine.mem.readWord (f.base + 8) = BitVec.ofNat 64 f.base

section mapped
variable {S : Stacks ι} {M M' : Machine}

theorem Mapped.congr (h : Mapped S M) (hsatp : M'.csr .satp = M.csr .satp) (hm : Set.EqOn M'.mem M.mem S.areaᶜ) :
    Mapped S M' := by
  intro m hm' a ha
  rw [hsatp]
  exact h m (hm'.trans hm) a ha

/-- a frame is reached by its address -/
theorem Mapped.window (h : Mapped S M) {va : Word} (ha : Mem.range va.toNat 256 ⊆ S.area) :
    Window (M.csr .satp) M.mem va va.toNat 256 := by
  intro m hm o ho
  have hmem : va.toNat + o ∈ S.area := ha (Mem.mem_range.mpr ⟨by omega, by omega⟩)
  have hva : va + BitVec.ofNat 64 o = BitVec.ofNat 64 (va.toNat + o) := by
    rw [BitVec.ofNat_add, BitVec.ofNat_toNat, BitVec.setWidth_eq]
  rw [hva]
  exact h m (hm.mono (Set.compl_subset_compl.mpr ha)) _ hmem

end mapped

/-! ## `sstatus` -/

theorem getLsbD_bit {k i : Nat} (hk : k < 64) : (1#64 <<< k).getLsbD i = decide (i = k) := by
  rw [BitVec.getLsbD_shiftLeft, BitVec.getLsbD_one]
  by_cases h : i = k
  · subst h
    simp [hk]
  · simp only [h, decide_false]
    by_cases hlt : i < k
    · simp [hlt]
    · have : ¬ i - k = 0 := by omega
      simp [this]

theorem and_bit_eq_zero {w : Word} {k : Nat} (hk : k < 64) : w &&& (1#64 <<< k) = 0#64 ↔ w.getLsbD k = false := by
  refine ⟨fun h => ?_, fun h => ?_⟩
  · have := congrArg (BitVec.getLsbD · k) h
    simpa [getLsbD_bit hk] using this
  · refine BitVec.eq_of_getLsbD_eq fun i hi => ?_
    rw [BitVec.getLsbD_and, getLsbD_bit hk, BitVec.getLsbD_zero]
    by_cases hik : i = k
    · rw [hik, h, Bool.false_and]
    · rw [decide_eq_false hik, Bool.and_false]

/-- the bit of `sstatus` at `k` copied to `j` -/
theorem getLsbD_copy (w : Word) {j k i : Nat} (hj : j < 64) (hk : k < 64) (hi : i < 64) :
    (if w &&& (1#64 <<< k) = 0#64 then w &&& ~~~ (1#64 <<< j) else w ||| (1#64 <<< j)).getLsbD i =
    if i = j then w.getLsbD k else w.getLsbD i := by
  by_cases h : w.getLsbD k = false
  · rw [if_pos ((and_bit_eq_zero hk).mpr h), BitVec.getLsbD_and, BitVec.getLsbD_not, getLsbD_bit hj, decide_eq_true hi]
    by_cases hij : i = j
    · rw [if_pos hij, h, decide_eq_true hij]
      exact Bool.and_false _
    · rw [if_neg hij, decide_eq_false hij]
      exact Bool.and_true _
  · rw [if_neg (fun h' => h ((and_bit_eq_zero hk).mp h')), BitVec.getLsbD_or, getLsbD_bit hj]
    by_cases hij : i = j
    · rw [if_pos hij, decide_eq_true hij, Bool.or_true, Bool.eq_true_of_not_eq_false h]
    · rw [if_neg hij, decide_eq_false hij, Bool.or_false]

theorem getLsbD_clear (w : Word) {j i : Nat} (hj : j < 64) (hi : i < 64) :
    (w &&& ~~~ (1#64 <<< j)).getLsbD i = if i = j then false else w.getLsbD i := by
  rw [BitVec.getLsbD_and, BitVec.getLsbD_not, getLsbD_bit hj, decide_eq_true hi]
  by_cases hij : i = j
  · rw [if_pos hij, decide_eq_true hij]
    exact Bool.and_false _
  · rw [if_neg hij, decide_eq_false hij]
    exact Bool.and_true _

theorem getLsbD_set (w : Word) {j i : Nat} (hj : j < 64) :
    (w ||| (1#64 <<< j)).getLsbD i = if i = j then true else w.getLsbD i := by
  rw [BitVec.getLsbD_or, getLsbD_bit hj]
  by_cases hij : i = j
  · rw [if_pos hij, decide_eq_true hij, Bool.or_true]
  · rw [if_neg hij, decide_eq_false hij, Bool.or_false]

theorem getLsbD_kernelTrapStatus (w : Word) {i : Nat} (hi : i < 64) : (kernelTrapStatus w).getLsbD i =
    if i = 8 then true else if i = 1 then false else if i = 5 then w.getLsbD 1 else w.getLsbD i := by
  unfold kernelTrapStatus trapStatus
  rw [getLsbD_set _ (by decide), getLsbD_clear _ (by decide) hi, getLsbD_clear _ (by decide) hi,
    getLsbD_copy w (by decide) (by decide) hi]
  split <;> rfl

theorem getLsbD_sretStatus (w : Word) {i : Nat} (hi : i < 64) : (sretStatus w).getLsbD i =
    if i = 5 then true else if i = 8 then false else if i = 1 then w.getLsbD 5 else w.getLsbD i := by
  unfold sretStatus
  rw [getLsbD_set _ (by decide), getLsbD_clear _ (by decide) hi, getLsbD_copy w (by decide) (by decide) hi]

/-- the checks of `kernel_trap` pass -/
theorem kernelTrapStatus_checks (w : Word) :
    kernelTrapStatus w &&& (1#64 <<< 8) ≠ 0#64 ∧ kernelTrapStatus w &&& (1#64 <<< 1) = 0#64 := by
  refine ⟨fun h => ?_, (and_bit_eq_zero (by decide)).mpr (getLsbD_kernelTrapStatus w (by decide))⟩
  have hset := getLsbD_kernelTrapStatus w (i := 8) (by decide)
  rw [(and_bit_eq_zero (by decide)).mp h] at hset
  cases hset

/-- SPIE and SPP apart, `sret` brings back the `sstatus` of before the trap -/
theorem sretStatus_kernelTrapStatus (w : Word) {i : Nat} (hi : i < 64) (h5 : i ≠ 5) (h8 : i ≠ 8) :
    (sretStatus (kernelTrapStatus w)).getLsbD i = w.getLsbD i := by
  rw [getLsbD_sretStatus _ hi, if_neg h5, if_neg h8]
  by_cases h1 : i = 1
  · subst h1
    exact getLsbD_kernelTrapStatus w (by decide)
  · rw [if_neg h1, getLsbD_kernelTrapStatus w hi, if_neg h8, if_neg h1, if_neg h5]

/-! ## one interrupt -/

section interrupt
variable [DecidableEq ι] {c : Symbols} {S : KernelStacks ι} {K K' : Kernel ι}

theorem frames_some (K : Kernel ι) (M : Machine) (l : Locals) (f : Frame ι) (t : ι) :
    frames ⟨M, t, Function.update K.pending f (some l)⟩ = insert f K.frames := by
  ext g
  show (Function.update K.pending f (some l) g).isSome ↔ g = f ∨ (K.pending g).isSome
  by_cases h : g = f
  · subst h
    rw [Function.update_self]
    exact ⟨fun _ => .inl rfl, fun _ => rfl⟩
  · rw [Function.update_of_ne h]
    exact ⟨.inr, fun h' => h'.resolve_left h⟩

theorem frames_none (K : Kernel ι) (M : Machine) (f : Frame ι) (t : ι) :
    frames ⟨M, t, Function.update K.pending f none⟩ = K.frames \ {f} := by
  ext g
  show (Function.update K.pending f none g).isSome ↔ (K.pending g).isSome ∧ g ≠ f
  by_cases h : g = f
  · subst h
    rw [Function.update_self]
    exact ⟨nofun, fun h' => absurd rfl h'.2⟩
  · rw [Function.update_of_ne h]
    exact ⟨fun h' => ⟨h', h⟩, And.left⟩

/-- what an interrupt makes of `K`: `K'` has its frame on top -/
structure Interrupted (K K' : Kernel ι) : Prop where
  thread : K'.thread = K.thread
  sp : K'.machine.x .sp = K.machine.x .sp - 256#64
  pending : K'.pending = Function.update K.pending K'.top (some ⟨K.machine.pc, kernelTrapStatus (K.machine.csr .sstatus)⟩)
  saved : ∀ p ∈ kernelvecStores, p.1 ≠ .sp → K'.machine.mem.readWord (K'.top.base + p.2) = K.machine.x p.1
  savedSp : K'.machine.mem.readWord (K'.top.base + 8) = K.machine.x .sp - 256#64
  mem : Set.EqOn K'.machine.mem K.machine.mem (Mem.range K'.top.base 256)ᶜ

theorem toNat_push {w : Word} (h : 256 ≤ w.toNat) : (w - 256#64).toNat = w.toNat - 256 := by
  rw [BitVec.toNat_sub, BitVec.toNat_ofNat]
  have := w.isLt
  omega

theorem Interrupted.base {K K' : Kernel ι} (h : Interrupted K K') (hroom : 256 ≤ (K.machine.x .sp).toNat) :
    K'.top.base = (K.machine.x .sp).toNat - 256 := by
  show (K'.machine.x .sp).toNat = _
  rw [h.sp, toNat_push hroom]

theorem interrupt_spec {cause : Word} (hs : Sound S.toStacks K) (hok : (Act.interrupt cause).Admitted c S.toStacks K) :
    ∃ K', step c (.interrupt cause) K = some K' ∧ Interrupted K K' ∧ Sound S.toStacks K' := by
  obtain ⟨hcause, hstvec, hroom⟩ := hok
  have hlaid := hs.laid.push hroom
  have hpush := toNat_push (w := K.machine.x .sp) (by omega)
  obtain ⟨M₁, hM₁⟩ : ∃ N, N = K.machine.trapKernel cause := ⟨_, rfl⟩
  have hx₁ : M₁.x = K.machine.x := by rw [hM₁]; rfl
  have hmem₁ : M₁.mem = K.machine.mem := by rw [hM₁]; rfl
  have hsatp₁ : M₁.csr .satp = K.machine.csr .satp := by rw [hM₁]; rfl
  -- the frame is in the stack of the thread
  have harea : Mem.range (M₁.x .sp - 256#64).toNat 256 ⊆ S.area := by
    have hframe := hlaid.range_subset (Set.mem_insert ⟨K.thread, (K.machine.x .sp).toNat - 256⟩ K.frames)
    rw [hx₁, hpush]
    exact hframe
  have hmapped₁ : Mapped S.toStacks M₁ := hs.mapped.congr hsatp₁ (by rw [hmem₁]; exact fun _ _ => rfl)
  obtain ⟨M₂, hexec, hsaved⟩ := kernelvecSave_spec (hmapped₁.window harea)
  have htrap : kernelTrap M₂ = some ⟨K.machine.pc, kernelTrapStatus (K.machine.csr .sstatus)⟩ := by
    obtain ⟨hspp, hsie⟩ := kernelTrapStatus_checks (K.machine.csr .sstatus)
    have hstatus : M₂.csr .sstatus = kernelTrapStatus (K.machine.csr .sstatus) := by rw [hsaved.csr, hM₁]; rfl
    have hscause : M₂.csr .scause = cause := by rw [hsaved.csr, hM₁]; rfl
    have hsepc : M₂.csr .sepc = K.machine.pc := by rw [hsaved.csr, hM₁]; rfl
    unfold kernelTrap
    rw [hstatus, if_neg hspp, if_neg (not_not.mpr hsie), hscause, if_pos hcause, hsepc]
  have henter : enterKernel c cause K.machine =
      some (M₂, ⟨K.machine.pc, kernelTrapStatus (K.machine.csr .sstatus)⟩) := by
    unfold enterKernel
    rw [← hM₁]
    dsimp only
    rw [if_pos (by rw [hM₁]; exact hstvec), hexec, Option.bind_some, htrap, Option.map_some]
  have hsp : M₂.x .sp = K.machine.x .sp - 256#64 := by rw [hsaved.sp, hx₁]
  have hbase : (M₂.x .sp).toNat = (K.machine.x .sp).toNat - 256 := by rw [hsp, hpush]
  have heq : Set.EqOn M₂.mem K.machine.mem (Mem.range (M₂.x .sp).toNat 256)ᶜ := by
    rw [← hmem₁, hsp, ← hx₁]
    exact hsaved.mem
  have hstep : step c (.interrupt cause) K = some ⟨M₂, K.thread, Function.update K.pending ⟨K.thread, (M₂.x .sp).toNat⟩
      (some ⟨K.machine.pc, kernelTrapStatus (K.machine.csr .sstatus)⟩)⟩ := by
    show Option.map _ (enterKernel c cause K.machine) = _
    rw [henter]
    rfl
  have hsaved8 : M₂.mem.readWord ((M₂.x .sp).toNat + 8) = K.machine.x .sp - 256#64 := by
    rw [hsp, ← hx₁]
    exact hsaved.savedSp
  refine ⟨_, hstep, ⟨rfl, hsp, rfl, fun p hp hne => ?_, hsaved8, heq⟩, ?_, ?_, ?_⟩
  · show M₂.mem.readWord ((M₂.x .sp).toNat + p.2) = _
    rw [hsp, ← hx₁]
    exact hsaved.saved p hp hne
  · refine hs.mapped.congr (by rw [hsaved.csr]; exact hsatp₁) (heq.mono (Set.compl_subset_compl.mpr ?_))
    rw [hsp, ← hx₁]
    exact harea
  · rw [frames_some]
    show Laid S.toStacks 256 _ K.thread (M₂.x .sp).toNat
    rw [hbase]
    exact hlaid
  · rw [frames_some]
    rintro f (rfl | hf)
    · show M₂.mem.readWord ((M₂.x .sp).toNat + 8) = BitVec.ofNat 64 (M₂.x .sp).toNat
      rw [hsaved8, hsp, BitVec.ofNat_toNat, BitVec.setWidth_eq]
    · -- another frame is not touched
      refine (Mem.readWord_congr (heq.mono ?_)).trans (hs.stored f hf)
      rw [Set.subset_compl_iff_disjoint_right]
      refine Mem.disjoint_range ?_
      have := hs.laid.clear hroom hf
      rw [hbase]
      omega

/-- what a return from the frame on top of `K` makes of it -/
structure Returned (l : Locals) (K K' : Kernel ι) : Prop where
  thread : K'.thread = K.thread
  pending : K'.pending = Function.update K.pending K.top none
  sp : K'.machine.x .sp = K.machine.x .sp + 256#64
  x : ∀ p ∈ kernelvecLoads, p.1 ≠ .sp → K'.machine.x p.1 = K.machine.mem.readWord (K.top.base + p.2)
  pc : K'.machine.pc = l.sepc
  sstatus : K'.machine.csr .sstatus = sretStatus l.sstatus
  mem : K'.machine.mem = K.machine.mem

theorem ret_spec {l : Locals} (hs : Sound S.toStacks K) (hl : K.pending K.top = some l) :
    ∃ K', step c .ret K = some K' ∧ Returned l K K' ∧ Sound S.toStacks K' := by
  have hf : K.top ∈ K.frames := Option.isSome_iff_exists.mpr ⟨l, hl⟩
  have hin := hs.laid.inside _ hf
  obtain ⟨M₁, hM₁⟩ : ∃ N, N = (K.machine.setCsr .sepc l.sepc).setCsr .sstatus l.sstatus := ⟨_, rfl⟩
  have hx₁ : M₁.x = K.machine.x := by rw [hM₁]; rfl
  have hmem₁ : M₁.mem = K.machine.mem := by rw [hM₁]; rfl
  have hsatp₁ : M₁.csr .satp = K.machine.csr .satp := by rw [hM₁]; rfl
  have hmapped₁ : Mapped S.toStacks M₁ := hs.mapped.congr hsatp₁ (by rw [hmem₁]; exact fun _ _ => rfl)
  have harea : Mem.range (M₁.x .sp).toNat 256 ⊆ S.area := by
    have hframe := hs.laid.range_subset hf
    rw [hx₁]
    exact hframe
  have hsp₁ : M₁.mem.readWord ((M₁.x .sp).toNat + 8) = M₁.x .sp := by
    rw [hmem₁, hx₁]
    refine (hs.stored _ hf).trans ?_
    show BitVec.ofNat 64 (K.machine.x .sp).toNat = _
    rw [BitVec.ofNat_toNat, BitVec.setWidth_eq]
  obtain ⟨M₂, hexec, hr⟩ := kernelvecRestore_spec (hmapped₁.window harea) hsp₁
  have hstep : step c .ret K = some ⟨M₂, K.thread, Function.update K.pending K.top none⟩ := by
    show (K.pending K.top).bind _ = _
    rw [hl]
    show (execVec kernelvecRestore _).map _ = _
    rw [← hM₁, hexec]
    rfl
  have hsp : M₂.x .sp = K.machine.x .sp + 256#64 := by rw [hr.sp, hx₁]
  have hmem : M₂.mem = K.machine.mem := hr.mem.trans hmem₁
  refine ⟨_, hstep, ⟨rfl, rfl, hsp, fun p hp hne => ?_, ?_, ?_, hmem⟩, ?_, ?_, ?_⟩
  · refine (hr.x p hp hne).trans ?_
    rw [hmem₁, hx₁]
    rfl
  · rw [hr.pc, hM₁]
    rfl
  · rw [hr.sstatus, hM₁]
    rfl
  · refine hs.mapped.congr ?_ (by rw [hmem]; exact fun _ _ => rfl)
    exact (hr.csr .satp (by decide)).trans hsatp₁
  · rw [frames_none]
    have hbase : (M₂.x .sp).toNat = K.top.base + 256 := by
      have hlt := S.bounded K.top.thread
      have htop : K.top.base = (K.machine.x .sp).toNat := rfl
      rw [hsp, BitVec.toNat_add, BitVec.toNat_ofNat, ← htop]
      omega
    show Laid S.toStacks 256 _ K.thread (M₂.x .sp).toNat
    rw [hbase]
    exact Laid.pop hs.laid hf
  · rw [frames_none]
    rintro f ⟨hf', -⟩
    show M₂.mem.readWord _ = _
    rw [hmem]
    exact hs.stored f hf'

end interrupt

/-! ## runs -/

section run
variable [DecidableEq ι] {c : Symbols} {S : KernelStacks ι}

theorem Sound.step {K K' : Kernel ι} {a : Act ι} (hs : Sound S.toStacks K) (hok : a.Admitted c S.toStacks K)
    (h : Kernel.step c a K = some K') : Sound S.toStacks K' := by
  cases a with
  | code machine thread =>
    cases h
    obtain ⟨hmapped, hbelow, hframes⟩ := hok
    refine ⟨hmapped, hs.laid.run hbelow, fun f hf => ?_⟩
    refine (Mem.readWord_congr ((hframes f hf).mono ?_)).trans (hs.stored f hf)
    exact Mem.range_mono (Nat.le_add_right _ _) (by omega)
  | interrupt cause =>
    obtain ⟨K₁, hK₁, -, hs₁⟩ := interrupt_spec hs hok
    cases hK₁.symm.trans h
    exact hs₁
  | ret =>
    obtain ⟨l, hl, -⟩ := Option.bind_eq_some_iff.mp h
    obtain ⟨K₁, hK₁, -, hs₁⟩ := ret_spec (c := c) hs hl
    cases hK₁.symm.trans h
    exact hs₁

/-- the frame of `f` is pending, with the words `m` in it -/
structure Holds (S : Stacks ι) (f : Frame ι) (l : Locals) (m : Mem) (K : Kernel ι) : Prop where
  sound : Sound S K
  pending : K.pending f = some l
  mem : Set.EqOn K.machine.mem m (Mem.range f.base 256)

/-- not the return from `f` -/
def Act.Between (f : Frame ι) (K : Kernel ι) : Act ι → Prop
  | .ret => K.top ≠ f
  | _ => True

theorem Holds.step {f : Frame ι} {l : Locals} {m : Mem} {K K' : Kernel ι} {a : Act ι} (hh : Holds S.toStacks f l m K)
    (hok : a.Admitted c S.toStacks K) (hb : a.Between f K) (h : Kernel.step c a K = some K') :
    Holds S.toStacks f l m K' := by
  have hf : f ∈ K.frames := Option.isSome_iff_exists.mpr ⟨l, hh.pending⟩
  have hs' := hh.sound.step hok h
  cases a with
  | code machine thread =>
    cases h
    exact ⟨hs', hh.pending, (hok.2.2 f hf).trans hh.mem⟩
  | interrupt cause =>
    obtain ⟨K₁, hK₁, hi, -⟩ := interrupt_spec hh.sound hok
    cases hK₁.symm.trans h
    have hclear := hh.sound.laid.clear hok.2.2 hf
    have hbase := hi.base (by have := hok.2.2; omega)
    refine ⟨hs', ?_, ?_⟩
    · rw [hi.pending, Function.update_of_ne ?_, hh.pending]
      intro he
      rw [← he] at hbase
      omega
    · refine (hi.mem.mono ?_).trans hh.mem
      rw [Set.subset_compl_iff_disjoint_right]
      refine Mem.disjoint_range ?_
      rw [hbase]
      omega
  | ret =>
    obtain ⟨l', hl', -⟩ := Option.bind_eq_some_iff.mp h
    obtain ⟨K₁, hK₁, hr, -⟩ := ret_spec (c := c) hh.sound hl'
    cases hK₁.symm.trans h
    refine ⟨hs', ?_, ?_⟩
    · rw [hr.pending, Function.update_of_ne (Ne.symm hb)]
      exact hh.pending
    · rw [hr.mem]
      exact hh.mem

/-- what the thread has on its stack -/
def used (S : Stacks ι) (K : Kernel ι) : Set Nat := Set.Ico (K.machine.x .sp).toNat (S.hi K.thread)

/-- code does not write to `A` -/
def Act.Keeps (A : Set Nat) (K : Kernel ι) : Act ι → Prop
  | .code machine _ => Set.EqOn machine.mem K.machine.mem A
  | _ => True

/-- interrupts do not write above a pending frame -/
theorem Holds.keeps {f : Frame ι} {l : Locals} {m : Mem} {K K' : Kernel ι} {a : Act ι} {A : Set Nat}
    (hh : Holds S.toStacks f l m K) (hA : A ⊆ Set.Ico (f.base + 256) (S.hi f.thread)) (hok : a.Admitted c S.toStacks K)
    (hk : a.Keeps A K) (h : Kernel.step c a K = some K') : Set.EqOn K'.machine.mem K.machine.mem A := by
  have hf : f ∈ K.frames := Option.isSome_iff_exists.mpr ⟨l, hh.pending⟩
  cases a with
  | code machine thread =>
    cases h
    exact hk
  | interrupt cause =>
    obtain ⟨K₁, hK₁, hi, -⟩ := interrupt_spec hh.sound hok
    cases hK₁.symm.trans h
    refine hi.mem.mono (Set.subset_compl_iff_disjoint_left.mpr ?_)
    rw [hi.base (by have := hok.2.2; omega)]
    exact (hh.sound.laid.clear_above hok.2.2 hf).mono_right hA
  | ret =>
    obtain ⟨l', hl', -⟩ := Option.bind_eq_some_iff.mp h
    obtain ⟨K₁, hK₁, hr, -⟩ := ret_spec (c := c) hh.sound hl'
    cases hK₁.symm.trans h
    exact fun x _ => congrFun hr.mem x

/-- over a run, as long as code leaves the place alone -/
theorem Holds.keeps_run {f : Frame ι} {l : Locals} {m : Mem} {K K' : Kernel ι} {as : List (Act ι)} {A : Set Nat}
    (hh : Holds S.toStacks f l m K) (hA : A ⊆ Set.Ico (f.base + 256) (S.hi f.thread))
    (hok : Trace.Throughout (Kernel.step c) (fun K a => a.Admitted c S.toStacks K ∧ a.Between f K) as K)
    (hk : Trace.Throughout (Kernel.step c) (fun K a => a.Keeps A K) as K) (h : Trace.run (Kernel.step c) as K = some K') :
    Set.EqOn K'.machine.mem K.machine.mem A := by
  have hstep : ∀ K₁ a K₂, Holds S.toStacks f l m K₁ ∧ Set.EqOn K₁.machine.mem K.machine.mem A →
      (a.Admitted c S.toStacks K₁ ∧ a.Between f K₁) ∧ a.Keeps A K₁ → Kernel.step c a K₁ = some K₂ →
      Holds S.toStacks f l m K₂ ∧ Set.EqOn K₂.machine.mem K.machine.mem A := by
    rintro K₁ a K₂ ⟨hh, heq⟩ ⟨⟨hok, hb⟩, hk⟩ h
    exact ⟨hh.step hok hb h, (hh.keeps hA hok hk h).trans heq⟩
  exact (Trace.invariant _ _ hstep as ⟨hh, fun _ _ => rfl⟩ (hok.and as hk) h).2

/-- code that was interrupted in `M` goes on in `M'` -/
structure GoesOn (M M' : Machine) : Prop where
  x : ∀ r, r ≠ .tp → M'.x r = M.x r
  pc : M'.pc = M.pc
  -- SPIE and SPP are not for the code that they interrupt
  sstatus : ∀ i, i < 64 → i ≠ 5 → i ≠ 8 → (M'.csr .sstatus).getLsbD i = (M.csr .sstatus).getLsbD i

theorem mem_kernelvec (r : Reg) (hsp : r ≠ .sp) (htp : r ≠ .tp) :
    ∃ o, (r, o) ∈ kernelvecStores ∧ (r, o) ∈ kernelvecLoads ∧ o + 8 ≤ 256 := by
  have hall : ∀ p ∈ kernelvecLoads, p ∈ kernelvecStores ∧ p.2 + 8 ≤ 256 := by decide
  have hmem : r ∈ kernelvecLoads.map Prod.fst := by
    cases r <;> first | exact absurd rfl hsp | exact absurd rfl htp | decide
  obtain ⟨⟨r, o⟩, hp, rfl⟩ := List.mem_map.mp hmem
  exact ⟨o, (hall _ hp).1, hp, (hall _ hp).2⟩

/-- from the interrupt to the return, whatever was between -/
theorem Interrupted.goesOn {K K₁ K₂ K₃ : Kernel ι} {l : Locals} (hi : Interrupted K K₁)
    (hl : l = ⟨K.machine.pc, kernelTrapStatus (K.machine.csr .sstatus)⟩)
    (hm : Set.EqOn K₂.machine.mem K₁.machine.mem (Mem.range K₁.top.base 256)) (htop : K₂.top = K₁.top)
    (hr : Returned l K₂ K₃) : GoesOn K.machine K₃.machine := by
  have hsp : K₂.machine.x .sp = K.machine.x .sp - 256#64 := by
    rw [← hi.sp]
    exact BitVec.toNat_inj.mp (congrArg Frame.base htop)
  refine ⟨fun r htp => ?_, ?_, fun i hlt h5 h8 => ?_⟩
  · by_cases hrs : r = .sp
    · rw [hrs, hr.sp, hsp, BitVec.sub_add_cancel]
    · obtain ⟨o, hstore, hload, ho⟩ := mem_kernelvec r hrs htp
      rw [← hi.saved _ hstore hrs]
      refine (hr.x _ hload hrs).trans ?_
      rw [htop]
      exact Mem.readWord_congr (hm.mono (Mem.range_mono (Nat.le_add_right _ _) (by omega)))
  · rw [hr.pc, hl]
  · rw [hr.sstatus, hl]
    exact sretStatus_kernelTrapStatus _ hlt h5 h8

/-- **Interrupts are transparent to code of the kernel.**  In every run, an interrupt that finds room on the stack of
the thread gets to its handler, past the checks of `kernel_trap`; and when the handler comes back, with other threads,
their interrupts and more interrupts of this one in between, the thread goes on with all integer registers but `tp`.
What it had on its stack is changed by no interrupt: all that no other code has written to is as it was. -/
theorem interrupt_transparent (c : Symbols) (S : KernelStacks ι) (K₀ K : Kernel ι) (h₀ : Sound S.toStacks K₀)
    (as₀ : List (Act ι)) (hok₀ : Trace.Throughout (Kernel.step c) (fun K a => a.Admitted c S.toStacks K) as₀ K₀)
    (hrun₀ : Trace.run (Kernel.step c) as₀ K₀ = some K) (cause : Word)
    (hok : (Act.interrupt cause).Admitted c S.toStacks K) :
    ∃ K₁, Kernel.step c (.interrupt cause) K = some K₁ ∧ ∀ as K₂,
      Trace.Throughout (Kernel.step c) (fun K a => a.Admitted c S.toStacks K ∧ a.Between K₁.top K) as K₁ →
      Trace.run (Kernel.step c) as K₁ = some K₂ → K₂.top = K₁.top →
      ∃ K₃, Kernel.step c .ret K₂ = some K₃ ∧ GoesOn K.machine K₃.machine ∧
        ∀ A ⊆ K.used S.toStacks, Trace.Throughout (Kernel.step c) (fun K a => a.Keeps A K) as K₁ →
          Set.EqOn K₃.machine.mem K.machine.mem A := by
  have hs : Sound S.toStacks K := Trace.invariant (fun K a => a.Admitted c S.toStacks K) (Sound S.toStacks)
    (fun _ _ _ hs hok h => hs.step hok h) as₀ h₀ hok₀ hrun₀
  obtain ⟨K₁, hstep, hi, hs₁⟩ := interrupt_spec hs hok
  refine ⟨K₁, hstep, fun as K₂ hok₁ hrun₁ htop => ?_⟩
  have hholds : Holds S.toStacks K₁.top ⟨K.machine.pc, kernelTrapStatus (K.machine.csr .sstatus)⟩ K₁.machine.mem K₁ :=
    ⟨hs₁, by rw [hi.pending, Function.update_self], fun _ _ => rfl⟩
  have hh := Trace.invariant (fun K a => a.Admitted c S.toStacks K ∧ a.Between K₁.top K) (Holds S.toStacks K₁.top _ _)
    (fun _ _ _ hh hok h => hh.step hok.1 hok.2 h) as hholds hok₁ hrun₁
  obtain ⟨K₃, hret, hr, -⟩ := ret_spec (c := c) hh.sound (htop ▸ hh.pending)
  refine ⟨K₃, hret, hi.goesOn rfl hh.mem htop hr, fun A hA hkeeps => ?_⟩
  have hbase : K₁.top.base + 256 = (K.machine.x .sp).toNat := by
    have hroom := hok.2.2
    rw [hi.base (by omega)]
    omega
  have habove : A ⊆ Set.Ico (K₁.top.base + 256) (S.hi K₁.top.thread) := by
    rw [hbase, show K₁.top.thread = K.thread from hi.thread]
    exact hA
  -- neither the interrupt itself nor the return writes there
  have hframe : A ⊆ (Mem.range K₁.top.base 256)ᶜ := by
    intro a ha hrange
    have := (habove ha).1
    rw [Mem.mem_range] at hrange
    omega
  rw [hr.mem]
  exact (hholds.keeps_run habove hok₁ hkeeps hrun₁).trans (hi.mem.mono hframe)

end run

/-! ## two threads -/

def twoStacks : KernelStacks Bool where
  lo b := if b then 0x80100000 else 0x80110000
  hi b := if b then 0x80110000 else 0x80120000
  apart := by decide
  bounded := by decide

def symbols : Symbols := ⟨0x80002000#64, 0#64, 0#64, 0#64, 0#64⟩

/-- a thread with 64 bytes on its stack, in bare mode -/
def idle (b : Bool) : Machine :=
  { x := Function.update (fun _ => 0#64) .sp (if b then 0x8010ffc0#64 else 0x8011ffc0#64)
    f := fun _ => 0#64
    csr := Function.update (fun _ => 0#64) .stvec 0x80002000#64
    pc := 0x80003000#64
    mem := fun _ => 0 }

theorem mapped_bare {M : Machine} (h : M.csr .satp = 0#64) : Mapped twoStacks.toStacks M := by
  rintro m - a ⟨b, -, ha⟩
  have hlt := twoStacks.bounded b
  unfold translate
  rw [h, if_neg (by decide), BitVec.toNat_ofNat, Nat.mod_eq_of_lt (by omega)]

theorem sound_idle : Sound twoStacks.toStacks ⟨idle true, true, fun _ => none⟩ := by
  refine ⟨mapped_bare rfl, ⟨⟨by decide, by decide, fun f hf => ?_⟩, fun f hf => ?_, fun f hf => ?_⟩, fun f hf => ?_⟩ <;>
    exact absurd hf Bool.false_ne_true

/-- A thread is interrupted, the other one runs for a while, and the first one goes on. -/
theorem interrupt_transparent_example : ∃ K₁ K₂ K₃, Kernel.step symbols (.interrupt (1#64 <<< 63 ||| 1#64))
      ⟨idle true, true, fun _ => none⟩ = some K₁ ∧
    Trace.run (Kernel.step symbols) [.code { K₁.machine with x := (idle false).x } false, .code K₁.machine true] K₁
      = some K₂ ∧
    Kernel.step symbols .ret K₂ = some K₃ ∧ GoesOn (idle true) K₃.machine ∧
    Set.EqOn K₃.machine.mem (idle true).mem (Set.Ico 0x8010ffc0 0x80110000) := by
  have hok : (Act.interrupt (1#64 <<< 63 ||| 1#64)).Admitted symbols twoStacks.toStacks
      ⟨idle true, true, fun _ => none⟩ := ⟨by decide, by decide, by decide⟩
  obtain ⟨K₁, hstep, hi, hs₁⟩ := interrupt_spec sound_idle hok
  obtain ⟨K₁', hstep', hback⟩ := interrupt_transparent symbols twoStacks _ _ sound_idle [] trivial rfl _ hok
  cases hstep.symm.trans hstep'
  have hthread : K₁.thread = true := hi.thread
  have hK : (⟨K₁.machine, true, K₁.pending⟩ : Kernel Bool) = K₁ := by rw [← hthread]
  -- the frame is on the stack of the first thread
  have hbelow : Below twoStacks.toStacks K₁.frames false ((idle false).x .sp).toNat := by
    refine ⟨by decide, by decide, fun f hf hthread => ?_⟩
    obtain rfl : f = K₁.top := by
      by_contra hne
      have hnone : K₁.pending f = none := by
        rw [hi.pending, Function.update_of_ne hne]
      exact absurd hf (by show ¬ (K₁.pending f).isSome = true; rw [hnone]; exact Bool.false_ne_true)
    exact absurd (hi.thread.symm.trans hthread) (by decide)
  have hadm : Trace.Throughout (Kernel.step symbols)
      (fun K a => Act.Admitted symbols twoStacks.toStacks K a ∧ a.Between K₁.top K)
      [.code { K₁.machine with x := (idle false).x } false, .code K₁.machine true] K₁ := by
    refine ⟨⟨⟨hs₁.mapped, hbelow, fun _ _ _ _ => rfl⟩, trivial⟩, fun K hK' => ?_⟩
    cases hK'
    refine ⟨⟨⟨hs₁.mapped, ?_, fun _ _ _ _ => rfl⟩, trivial⟩, fun _ _ => trivial⟩
    rw [← hthread]
    exact hs₁.laid.toBelow
  have hrun : Trace.run (Kernel.step symbols) [.code { K₁.machine with x := (idle false).x } false, .code K₁.machine true] K₁
      = some K₁ := congrArg some hK
  obtain ⟨K₃, hret, hgo, hmem⟩ := hback _ K₁ hadm hrun rfl
  refine ⟨K₁, K₁, K₃, hstep, hrun, hret, hgo, hmem _ subset_rfl ⟨fun _ _ => rfl, fun K hK' => ?_⟩⟩
  cases hK'
  exact ⟨fun _ _ => rfl, fun _ _ => trivial⟩

end Kernel

end Citron.Trap
