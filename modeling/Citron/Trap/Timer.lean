import Citron.Lib.Ticker
import Citron.Trap.Asm

/-!
# The machine timer

`timervec` and `init` of `src/arch/riscv64/clint.rs`, on a hart with its machine mode: when `mtime` reaches
`mtimecmp` the hart leaves whatever it does for `timervec`, which sets the next deadline, raises the
supervisor's software interrupt and goes back.  `ArchProcess::interrupt` clears that again.

* `timervec_spec`     one timer interrupt;
* `Ready`             what `init` has set up for `timervec`, and every interrupt keeps;
* `Clocked`           the hart as a `Ticker`;
* `Ready.run`, `Clocked.run`   so it is along a run.
-/

namespace Citron.Trap.Timer
open SaveArea

/-! ## the hart -/

inductive Mode where
  | user
  | supervisor
  | machine
deriving DecidableEq, Repr

/-- `sip` here is all of it that is visible to the supervisor -/
inductive MCsr where
  | mtvec | mscratch | mepc | mcause | sip
deriving DecidableEq, Repr

/-- What the supervisor sees is the `machine`; `mie`, `mpie` and `mpp` are the fields of `mstatus` that `sstatus`
does not show. -/
structure Hart where
  machine : Machine
  mode : Mode
  mie : Bool
  mpie : Bool
  mpp : Mode
  csr : MCsr → Word
  mtime : Nat

inductive MInstr where
  | csrrw (rd : Reg) (csr : MCsr) (rs : Reg)
  | csrw (csr : MCsr) (rs : Reg)
  | sd (src : Reg) (offset : Nat) (base : Reg)
  | ld (dst : Reg) (offset : Nat) (base : Reg)
  | add (rd rs₁ rs₂ : Reg)
  | li (rd : Reg) (imm : Word)
  | mret
deriving DecidableEq, Repr

/-- SSIP -/
def ssip : Word := 1#64 <<< 1

/-- what a control register holds after `w` was written to it: of `sip` only SSIP can be written -/
def MCsr.written : MCsr → Word → Word → Word
  | .sip, old, w => old &&& ~~~ ssip ||| w &&& ssip
  | _, _, w => w

namespace Hart

def set (h : Hart) (r : Reg) (w : Word) : Hart := { h with machine := h.machine.set r w }

def setCsr (h : Hart) (c : MCsr) (w : Word) : Hart := { h with csr := Function.update h.csr c (c.written (h.csr c) w) }

/-- the physical address of `offset(base)`; machine mode has no page table -/
def address (h : Hart) (offset : Nat) (base : Reg) : Nat := (h.machine.x base + BitVec.ofNat 64 offset).toNat

def store (h : Hart) (a : Nat) (w : Word) : Hart := { h with machine := { h.machine with mem := h.machine.mem.writeWord a w } }

def read (h : Hart) (a : Nat) : Word := h.machine.mem.readWord a

/-- a trap to machine mode -/
def trap (h : Hart) (cause : Word) : Hart :=
  { h with
    machine := { h.machine with pc := h.csr .mtvec }
    mode := .machine
    mie := false
    mpie := h.mie
    mpp := h.mode
    csr := Function.update (Function.update h.csr .mepc h.machine.pc) .mcause cause }

end Hart

def MInstr.exec : MInstr → Hart → Hart
  | .csrrw rd csr rs, h => (h.set rd (h.csr csr)).setCsr csr (h.machine.x rs)
  | .csrw csr rs, h => h.setCsr csr (h.machine.x rs)
  | .sd src offset base, h => h.store (h.address offset base) (h.machine.x src)
  | .ld dst offset base, h => h.set dst (h.read (h.address offset base))
  | .add rd rs₁ rs₂, h => h.set rd (h.machine.x rs₁ + h.machine.x rs₂)
  | .li rd imm, h => h.set rd imm
  | .mret, h =>
    { h with
      machine := { h.machine with pc := h.csr .mepc }
      mode := h.mpp
      mie := h.mpie
      mpie := true
      mpp := .user }

def exec (is : List MInstr) (h : Hart) : Hart := is.foldl (fun h i => i.exec h) h

/-! ## `timervec` and `init` -/

def interval : Word := 100000#64
def mtimecmp : Nat := 0x4000
def mtime : Nat := 0xbff8

/-- `TIMER_SCRATCH` and `timervec` where the linker has put them, `_clint_start` where the board has it -/
structure Clint where
  start : Nat
  timerScratch : Nat
  timervec : Word
  start_lt : start + mtime + 8 ≤ 2^64
  scratch_lt : timerScratch + 40 ≤ 2^64
  apart : timerScratch + 40 ≤ start + mtimecmp ∨ start + mtimecmp + 8 ≤ timerScratch

def timervecStores : List (Reg × Nat) := [(.a1, 0), (.a2, 8), (.a3, 16)]

def timervecLoads : List (Reg × Nat) := [(.a3, 16), (.a2, 8), (.a1, 0)]

/-- the next deadline, and SSIP -/
def timervecSet : List MInstr :=
  [.ld .a1 24 .a0,
    .ld .a2 32 .a0,
    .ld .a3 0 .a1,
    .add .a3 .a3 .a2,
    .sd .a3 0 .a1,
    .li .a1 2#64,
    .csrw .sip .a1]

def timervec : List MInstr :=
  [.csrrw .a0 .mscratch .a0] ++
  timervecStores.map (fun (r, o) => .sd r o .a0) ++
  timervecSet ++
  timervecLoads.map (fun (r, o) => .ld r o .a0) ++
  [.csrrw .a0 .mscratch .a0,
    .mret]

def init (c : Clint) (h : Hart) : Hart :=
  let h := h.store (c.start + mtimecmp) (BitVec.ofNat 64 h.mtime + interval)
  let h := h.store (c.timerScratch + 24) (BitVec.ofNat 64 (c.start + mtimecmp))
  let h := h.store (c.timerScratch + 32) interval
  let h := h.setCsr .mscratch (BitVec.ofNat 64 c.timerScratch)
  h.setCsr .mtvec c.timervec

/-! ## one interrupt -/

/-- the deadline -/
def Hart.deadline (c : Clint) (h : Hart) : Word := h.read (c.start + mtimecmp)

/-- the scratch area and `mtimecmp` -/
def Clint.area (c : Clint) : Set Nat := Mem.range c.timerScratch 40 ∪ Mem.range (c.start + mtimecmp) 8

/-- what `timervec` needs -/
structure Ready (c : Clint) (h : Hart) : Prop where
  mtvec : h.csr .mtvec = c.timervec
  mscratch : h.csr .mscratch = BitVec.ofNat 64 c.timerScratch
  compare : h.read (c.timerScratch + 24) = BitVec.ofNat 64 (c.start + mtimecmp)
  interval : h.read (c.timerScratch + 32) = Timer.interval

/-- what a timer interrupt makes of the hart `h` -/
structure Interrupted (c : Clint) (h h' : Hart) : Prop where
  x : h'.machine.x = h.machine.x
  f : h'.machine.f = h.machine.f
  csr : h'.machine.csr = h.machine.csr
  pc : h'.machine.pc = h.machine.pc
  mem : Set.EqOn h'.machine.mem h.machine.mem c.areaᶜ
  mode : h'.mode = h.mode
  mie : h'.mie = h.mie
  sip : h'.csr .sip = h.csr .sip ||| ssip
  deadline : h'.deadline c = h.deadline c + Timer.interval
  mtime : h'.mtime = h.mtime

section exec

theorem exec_append (is js : List MInstr) (h : Hart) : exec (is ++ js) h = exec js (exec is h) := List.foldl_append

theorem exec_cons (i : MInstr) (is : List MInstr) (h : Hart) : exec (i :: is) h = exec is (i.exec h) := rfl

theorem address_eq {h : Hart} {base : Reg} {pa o n : Nat} (hb : h.machine.x base = BitVec.ofNat 64 pa)
    (hpa : pa + n ≤ 2^64) (ho : o < n) : h.address o base = pa + o := by
  unfold Hart.address
  rw [hb, BitVec.toNat_add, BitVec.toNat_ofNat, BitVec.toNat_ofNat]
  omega

theorem exec_ld {h : Hart} {base : Reg} {pa o n : Nat} (hb : h.machine.x base = BitVec.ofNat 64 pa)
    (hpa : pa + n ≤ 2^64) (ho : o < n) (is : List MInstr) (dst : Reg) :
    exec (.ld dst o base :: is) h = exec is (h.set dst (h.read (pa + o))) := by
  rw [← address_eq hb hpa ho]
  rfl

theorem exec_sd {h : Hart} {base : Reg} {pa o n : Nat} (hb : h.machine.x base = BitVec.ofNat 64 pa)
    (hpa : pa + n ≤ 2^64) (ho : o < n) (is : List MInstr) (src : Reg) :
    exec (.sd src o base :: is) h = exec is (h.store (pa + o) (h.machine.x src)) := by
  rw [← address_eq hb hpa ho]
  rfl

theorem exec_stores {base : Reg} {pa n : Nat} (hpa : pa + n ≤ 2^64) (l : List (Reg × Nat)) (hl : ∀ p ∈ l, p.2 < n) :
    ∀ h : Hart, h.machine.x base = BitVec.ofNat 64 pa → exec (l.map fun (r, o) => .sd r o base) h =
      { h with machine := { h.machine with mem := save pa h.machine.x l h.machine.mem } } := by
  induction l with
  | nil => exact fun _ _ => rfl
  | cons p l ih =>
    intro h hb
    obtain ⟨hp, hl⟩ := List.forall_mem_cons.mp hl
    rw [List.map_cons, exec_sd hb hpa hp]
    exact ih hl _ hb

theorem exec_loads {base : Reg} {pa n : Nat} (hpa : pa + n ≤ 2^64) (l : List (Reg × Nat)) (hl : ∀ p ∈ l, p.2 < n)
    (hbase : base ∉ l.map Prod.fst) : ∀ h : Hart, h.machine.x base = BitVec.ofNat 64 pa →
    exec (l.map fun (r, o) => .ld r o base) h =
      { h with machine := { h.machine with x := load pa h.machine.mem l h.machine.x } } := by
  induction l with
  | nil => exact fun _ _ => rfl
  | cons p l ih =>
    intro h hb
    obtain ⟨hp, hl⟩ := List.forall_mem_cons.mp hl
    rw [List.map_cons, List.mem_cons, not_or] at hbase
    rw [List.map_cons, exec_ld hb hpa hp]
    refine ih hl hbase.2 _ ?_
    show Function.update h.machine.x p.1 _ base = _
    rw [Function.update_of_ne hbase.1]
    exact hb

end exec

section interrupt
variable {c : Clint} {h : Hart}

/-- the stores of `timervec` leave alone what `init` has put behind them, and `mtimecmp` -/
theorem save_aside (c : Clint) (x : Reg → Word) (m : Mem) :
    (save c.timerScratch x timervecStores m).readWord (c.timerScratch + 24) = m.readWord (c.timerScratch + 24) ∧
    (save c.timerScratch x timervecStores m).readWord (c.timerScratch + 32) = m.readWord (c.timerScratch + 32) ∧
    (save c.timerScratch x timervecStores m).readWord (c.start + mtimecmp) = m.readWord (c.start + mtimecmp) := by
  refine ⟨readWord_save_clear _ m (by decide), readWord_save_clear _ m (by decide), ?_⟩
  refine Mem.readWord_congr ((save_eqOn (n := 40) _ _ (by decide)).mono ?_)
  rw [Set.subset_compl_iff_disjoint_left]
  exact Mem.disjoint_range c.apart

/-- a word of the scratch area after a store to `mtimecmp` -/
theorem readWord_scratch (c : Clint) (m : Mem) (w : Word) {o : Nat} (ho : o + 8 ≤ 40) :
    (m.writeWord (c.start + mtimecmp) w).readWord (c.timerScratch + o) = m.readWord (c.timerScratch + o) := by
  refine Mem.readWord_congr (Mem.writeWord_eqOn (Mem.disjoint_range ?_))
  have := c.apart
  omega

/-- what `timervec` loads at its end is what it has stored at its beginning -/
theorem load_timervecLoads {c : Clint} {m m' : Mem} {x x' : Reg → Word}
    (hm : ∀ o, o + 8 ≤ 24 → m'.readWord (c.timerScratch + o) =
      (save c.timerScratch x timervecStores m).readWord (c.timerScratch + o))
    {r : Reg} (hr : r ∈ timervecStores.map Prod.fst ∨ x' r = x r) :
    load c.timerScratch m' timervecLoads x' r = x r := by
  have hspaced : Spaced timervecStores := by decide
  have hnd : (timervecLoads.map Prod.fst).Nodup := by decide
  have hsame : ∀ p ∈ timervecStores, p ∈ timervecLoads ∧ p.2 + 8 ≤ 24 := by decide
  have hfst : timervecLoads.map Prod.fst = (timervecStores.map Prod.fst).reverse := by decide
  by_cases hmem : r ∈ timervecStores.map Prod.fst
  · obtain ⟨⟨r, o⟩, hp, rfl⟩ := List.mem_map.mp hmem
    obtain ⟨hload, ho⟩ := hsame _ hp
    rw [load_of_mem _ _ hnd hload, hm o ho]
    exact readWord_save _ m hspaced hp
  · rw [load_of_notMem _ _ (by rw [hfst, List.mem_reverse]; exact hmem)]
    exact hr.resolve_left hmem

/-- the registers after `timervecSet` -/
def settingRegs (c : Clint) (deadline : Word) (x : Reg → Word) : Reg → Word :=
  Function.update (Function.update (Function.update (Function.update (Function.update x
    .a1 (BitVec.ofNat 64 (c.start + mtimecmp))) .a2 interval) .a3 deadline) .a3 (deadline + interval)) .a1 2#64

theorem settingRegs_of_ne (c : Clint) (deadline : Word) (x : Reg → Word) {r : Reg}
    (hr : r ∉ timervecStores.map Prod.fst) : settingRegs c deadline x r = x r := by
  have hne : r ≠ .a1 ∧ r ≠ .a2 ∧ r ≠ .a3 := by
    refine ⟨?_, ?_, ?_⟩ <;> (rintro rfl; exact hr (by decide))
  unfold settingRegs
  rw [Function.update_of_ne hne.1, Function.update_of_ne hne.2.2, Function.update_of_ne hne.2.2,
    Function.update_of_ne hne.2.1, Function.update_of_ne hne.1]

theorem exec_timervecSet (ha0 : h.machine.x .a0 = BitVec.ofNat 64 c.timerScratch)
    (hcompare : h.read (c.timerScratch + 24) = BitVec.ofNat 64 (c.start + mtimecmp))
    (hinterval : h.read (c.timerScratch + 32) = interval) :
    exec timervecSet h = { (h.store (c.start + mtimecmp) (h.deadline c + interval)).setCsr .sip 2#64 with
      machine := { (h.store (c.start + mtimecmp) (h.deadline c + interval)).machine with
        x := settingRegs c (h.deadline c) h.machine.x } } := by
  have hscratch := c.scratch_lt
  have hcmp : c.start + mtimecmp + 8 ≤ 2^64 := by
    have := c.start_lt
    unfold mtimecmp mtime at *
    omega
  -- the address of `mtimecmp`
  obtain ⟨h₁, hh₁⟩ : ∃ k, k = h.set .a1 (BitVec.ofNat 64 (c.start + mtimecmp)) := ⟨_, rfl⟩
  have ha0₁ : h₁.machine.x .a0 = BitVec.ofNat 64 c.timerScratch := by rw [hh₁]; exact ha0
  have hint₁ : h₁.read (c.timerScratch + 32) = interval := by rw [hh₁]; exact hinterval
  obtain ⟨h₂, hh₂⟩ : ∃ k, k = h₁.set .a2 interval := ⟨_, rfl⟩
  have ha1₂ : h₂.machine.x .a1 = BitVec.ofNat 64 (c.start + mtimecmp) := by rw [hh₂, hh₁]; rfl
  have hread₂ : h₂.read (c.start + mtimecmp) = h.deadline c := by rw [hh₂, hh₁]; rfl
  obtain ⟨h₃, hh₃⟩ : ∃ k, k = (MInstr.add .a3 .a3 .a2).exec (h₂.set .a3 (h.deadline c)) := ⟨_, rfl⟩
  have ha1₃ : h₃.machine.x .a1 = BitVec.ofNat 64 (c.start + mtimecmp) := by rw [hh₃]; exact ha1₂
  have ha3₃ : h₃.machine.x .a3 = h.deadline c + interval := by rw [hh₃, hh₂]; rfl
  unfold timervecSet
  rw [exec_ld ha0 hscratch (by decide), hcompare, ← hh₁, exec_ld ha0₁ hscratch (by decide), hint₁, ← hh₂,
    exec_ld (o := 0) ha1₂ hcmp (by decide), Nat.add_zero, hread₂]
  rw [exec_cons, ← hh₃, exec_sd (o := 0) ha1₃ hcmp (by decide), Nat.add_zero, ha3₃, hh₃, hh₂, hh₁]
  rfl

theorem or_ssip (w : Word) : w &&& ~~~ ssip ||| 2#64 &&& ssip = w ||| ssip := by
  have hssip : 2#64 &&& ssip = ssip := by decide
  rw [hssip]
  ext i hi
  simp only [BitVec.getElem_or, BitVec.getElem_and, BitVec.getElem_not]
  cases w[i] <;> cases ssip[i] <;> rfl

/-- from an interrupt to the end of `timervec` -/
def Hart.timerInterrupt (h : Hart) : Hart := exec timervec (h.trap (1#64 <<< 63 ||| 7#64))

theorem timervec_spec (hr : Ready c h) : Interrupted c h h.timerInterrupt ∧ Ready c h.timerInterrupt := by
  have hscratch := c.scratch_lt
  obtain ⟨h₀, hh₀⟩ : ∃ k, k = h.trap (1#64 <<< 63 ||| 7#64) := ⟨_, rfl⟩
  have hms : h₀.csr .mscratch = BitVec.ofNat 64 c.timerScratch := by rw [hh₀]; exact hr.mscratch
  -- `a0` is the scratch area
  obtain ⟨h₁, hh₁⟩ : ∃ k, k = exec [.csrrw .a0 .mscratch .a0] h₀ := ⟨_, rfl⟩
  have hx₁ : h₁.machine.x = Function.update h.machine.x .a0 (BitVec.ofNat 64 c.timerScratch) := by
    rw [hh₁, ← hms, hh₀]
    rfl
  have ha0₁ : h₁.machine.x .a0 = BitVec.ofNat 64 c.timerScratch := by rw [hx₁, Function.update_self]
  have hmem₁ : h₁.machine.mem = h.machine.mem := by rw [hh₁, hh₀]; rfl
  obtain ⟨h₂, hh₂⟩ : ∃ k, k = exec (timervecStores.map fun (r, o) => .sd r o .a0) h₁ := ⟨_, rfl⟩
  have hstores := hh₂
  rw [exec_stores hscratch timervecStores (by decide) h₁ ha0₁] at hh₂
  have hx₂ : h₂.machine.x = h₁.machine.x := by rw [hh₂]
  have hmem₂ : h₂.machine.mem = save c.timerScratch h₁.machine.x timervecStores h.machine.mem := by rw [hh₂, hmem₁]
  obtain ⟨h24, h32, hcmp⟩ := save_aside c h₁.machine.x h.machine.mem
  rw [← hmem₂] at h24 h32 hcmp
  -- the next deadline
  obtain ⟨h₃, hh₃⟩ : ∃ k, k = exec timervecSet h₂ := ⟨_, rfl⟩
  have hset := hh₃
  rw [exec_timervecSet (c := c) (by rw [hx₂]; exact ha0₁) (h24.trans hr.compare) (h32.trans hr.interval),
    show h₂.deadline c = h.deadline c from hcmp] at hh₃
  have hx₃ : h₃.machine.x = settingRegs c (h.deadline c) h₁.machine.x := by rw [hh₃, ← hx₂]
  have hmem₃ : h₃.machine.mem = h₂.machine.mem.writeWord (c.start + mtimecmp) (h.deadline c + interval) := by
    rw [hh₃]
    rfl
  have ha0₃ : h₃.machine.x .a0 = BitVec.ofNat 64 c.timerScratch := by
    rw [hx₃, settingRegs_of_ne c _ _ (by decide)]
    exact ha0₁
  -- the registers again
  obtain ⟨h₄, hh₄⟩ : ∃ k, k = exec (timervecLoads.map fun (r, o) => .ld r o .a0) h₃ := ⟨_, rfl⟩
  have hloads := hh₄
  rw [exec_loads hscratch timervecLoads (by decide) (by decide) h₃ ha0₃] at hh₄
  have hx₄ : ∀ r, h₄.machine.x r = h₁.machine.x r := by
    intro r
    rw [hh₄]
    refine load_timervecLoads (m := h.machine.mem) (fun o ho => ?_) ?_
    · rw [hmem₃, readWord_scratch c _ _ (by omega), hmem₂]
    · rw [hx₃]
      exact or_iff_not_imp_left.mpr fun hne => settingRegs_of_ne c _ _ hne
  have hexec : h.timerInterrupt = exec [.csrrw .a0 .mscratch .a0, .mret] h₄ := by
    unfold Hart.timerInterrupt timervec
    rw [exec_append, exec_append, exec_append, exec_append, ← hh₀, ← hh₁, ← hstores, ← hset, ← hloads]
  have hcsr₄ : h₄.csr = Function.update (Function.update h₀.csr .mscratch (h.machine.x .a0)) .sip
      (h.csr .sip ||| ssip) := by
    rw [hh₄, hh₃, hh₂, hh₁, hh₀, ← or_ssip]
    rfl
  have hx₄' : h₄.csr .mscratch = h.machine.x .a0 := by rw [hcsr₄]; rfl
  have hmem : h₄.machine.mem = h₂.machine.mem.writeWord (c.start + mtimecmp) (h.deadline c + interval) := by
    rw [hh₄]
    exact hmem₃
  have hread : ∀ o, o + 8 ≤ 40 → h₄.read (c.timerScratch + o) = h₂.read (c.timerScratch + o) := by
    intro o ho
    unfold Hart.read
    rw [hmem]
    exact readWord_scratch c _ _ ho
  have hsame : h₄.mpp = h.mode ∧ h₄.mpie = h.mie ∧ h₄.mtime = h.mtime ∧ h₄.machine.f = h.machine.f ∧
      h₄.machine.csr = h.machine.csr := by
    rw [hh₄, hh₃, hh₂, hh₁, hh₀]
    exact ⟨rfl, rfl, rfl, rfl, rfl⟩
  obtain ⟨hmode, hmie, hmtime, hf, hmcsr⟩ := hsame
  rw [hexec]
  refine ⟨⟨funext fun r => ?_, hf, hmcsr, ?_, ?_, hmode, hmie, ?_, ?_, hmtime⟩, ?_, ?_, ?_, ?_⟩
  · show Function.update h₄.machine.x .a0 (h₄.csr .mscratch) r = h.machine.x r
    by_cases hra : r = .a0
    · subst hra
      rw [Function.update_self, hx₄']
    · rw [Function.update_of_ne hra, hx₄, hx₁, Function.update_of_ne hra]
  · show Function.update h₄.csr .mscratch (h₄.machine.x .a0) .mepc = h.machine.pc
    rw [hcsr₄, hh₀]
    rfl
  · show Set.EqOn h₄.machine.mem h.machine.mem c.areaᶜ
    rw [hmem, hmem₂]
    refine (Mem.writeWord_eqOn ?_).trans ((save_eqOn (n := 40) _ _ (by decide)).mono ?_)
    · exact Set.disjoint_compl_right_iff_subset.mpr Set.subset_union_right
    · exact Set.compl_subset_compl.mpr Set.subset_union_left
  · show Function.update h₄.csr .mscratch (h₄.machine.x .a0) .sip = h.csr .sip ||| ssip
    rw [hcsr₄]
    rfl
  · show h₄.machine.mem.readWord (c.start + mtimecmp) = h.deadline c + interval
    rw [hmem, Mem.readWord_writeWord]
  · show Function.update h₄.csr .mscratch (h₄.machine.x .a0) .mtvec = c.timervec
    rw [hcsr₄, hh₀]
    exact hr.mtvec
  · show Function.update h₄.csr .mscratch (h₄.machine.x .a0) .mscratch = BitVec.ofNat 64 c.timerScratch
    rw [Function.update_self, hx₄, ha0₁]
  · exact (hread 24 (by decide)).trans (h24.trans hr.compare)
  · exact (hread 32 (by decide)).trans (h32.trans hr.interval)

end interrupt

/-! ## `init` -/

section init
variable (c : Clint) (h : Hart)

theorem init_spec : Ready c (init c h) ∧ (init c h).deadline c = BitVec.ofNat 64 h.mtime + interval ∧
    (init c h).mtime = h.mtime ∧ (init c h).csr .sip = h.csr .sip := by
  obtain ⟨m₁, hm₁⟩ : ∃ m, m = h.machine.mem.writeWord (c.start + mtimecmp) (BitVec.ofNat 64 h.mtime + interval) :=
    ⟨_, rfl⟩
  obtain ⟨m₂, hm₂⟩ : ∃ m, m = m₁.writeWord (c.timerScratch + 24) (BitVec.ofNat 64 (c.start + mtimecmp)) := ⟨_, rfl⟩
  have hmem : (init c h).machine.mem = m₂.writeWord (c.timerScratch + 32) interval := by
    rw [hm₂, hm₁]
    rfl
  have haside : ∀ (m : Mem) (o : Nat) (w : Word), o + 8 ≤ 40 →
      (m.writeWord (c.timerScratch + o) w).readWord (c.start + mtimecmp) = m.readWord (c.start + mtimecmp) := by
    intro m o w ho
    refine Mem.readWord_congr (Mem.writeWord_eqOn (Mem.disjoint_range ?_))
    have := c.apart
    omega
  refine ⟨⟨rfl, rfl, ?_, ?_⟩, ?_, rfl, rfl⟩
  · show (init c h).machine.mem.readWord _ = _
    rw [hmem, readWord_writeWord_clear (by decide), hm₂, Mem.readWord_writeWord]
  · show (init c h).machine.mem.readWord _ = _
    rw [hmem, Mem.readWord_writeWord]
  · show (init c h).machine.mem.readWord _ = _
    rw [hmem, haside _ 32 _ (by decide), hm₂, haside _ 24 _ (by decide), hm₁, Mem.readWord_writeWord]

end init

/-! ## runs -/

/-- `start` of `src/arch/riscv64/start.rs` up to `main_func`, in supervisor mode with interrupts on -/
def start (c : Clint) (kernelvec mainFunc hartid : Word) (h : Hart) : Hart :=
  let h := { h with mpp := .supervisor, mpie := true, mie := true }
  let sstatus := h.machine.csr .sstatus ||| 1#64 <<< 5 ||| 1#64 <<< 1 ||| 1#64 <<< 13
  let h := { h with machine := h.machine.setCsr .sstatus sstatus }
  let h := h.setCsr .mepc mainFunc
  let h := { h with machine := h.machine.setCsr .satp 0#64 }
  let h := (init c h).set .tp hartid
  let h := { h with machine := h.machine.setCsr .stvec kernelvec }
  MInstr.mret.exec h

inductive Act where
  /-- code of the supervisor or of a user process -/
  | code (machine : Machine) (mode : Mode)
  | pass (d : Nat)
  | timer
  /-- the software interrupt gets to `ArchProcess::interrupt`, which clears SSIP -/
  | software

namespace Hart

/-- the interrupt is pending -/
def Due (c : Clint) (h : Hart) : Prop := (h.deadline c).toNat ≤ h.mtime % 2^64

instance (c : Clint) (h : Hart) : Decidable (h.Due c) := inferInstanceAs (Decidable (_ ≤ _))

/-- SSIP -/
def posted (h : Hart) : Bool := h.csr .sip &&& ssip != 0#64

def clearSsip (h : Hart) : Hart := h.setCsr .sip (h.csr .sip &&& ~~~ ssip)

end Hart

def Act.step (c : Clint) : Act → Hart → Option Hart
  | .code machine mode, h => if h.mode = .machine then none else some { h with machine, mode }
  | .pass d, h => some { h with mtime := h.mtime + d }
  -- in the lower modes it cannot be turned off
  | .timer, h => if h.mode ≠ .machine ∧ h.Due c then some h.timerInterrupt else none
  | .software, h => if h.posted then some h.clearSsip else none

def Act.isTimer : Act → Bool
  | .timer => true
  | _ => false

def Act.isSoftware : Act → Bool
  | .software => true
  | _ => false

/-- code below machine mode stays there and out of what `timervec` uses -/
def Act.Admitted (c : Clint) (h : Hart) : Act → Prop
  | .code machine mode => mode ≠ .machine ∧ Set.EqOn machine.mem h.machine.mem c.area
  | _ => True

/-- the timer interrupts that find SSIP set -/
def overruns (c : Clint) : List Act → Hart → Nat
  | [], _ => 0
  | a :: as, h => (if a.isTimer then h.posted.toNat else 0) + ((a.step c h).map (overruns c as)).getD 0

def Act.event : Act → Ticker.Event
  | .code _ _ => .pass 0
  | .pass d => .pass d
  | .timer => .tick
  | .software => .take

section run
variable {c : Clint} {h h' : Hart} {a : Act}

theorem Ready.congr (hr : Ready c h) (k : Hart) (hcsr : ∀ r, r ≠ .sip → k.csr r = h.csr r)
    (hmem : Set.EqOn k.machine.mem h.machine.mem c.area) : Ready c k ∧ k.deadline c = h.deadline c := by
  have hread : ∀ o, o + 8 ≤ 40 → k.read (c.timerScratch + o) = h.read (c.timerScratch + o) := by
    intro o ho
    refine Mem.readWord_congr (hmem.mono (Set.subset_union_of_subset_left ?_ _))
    exact Mem.range_mono (Nat.le_add_right _ _) (by omega)
  refine ⟨⟨?_, ?_, ?_, ?_⟩, Mem.readWord_congr (hmem.mono Set.subset_union_right)⟩
  · exact (hcsr .mtvec (by decide)).trans hr.mtvec
  · exact (hcsr .mscratch (by decide)).trans hr.mscratch
  · exact (hread 24 (by decide)).trans hr.compare
  · exact (hread 32 (by decide)).trans hr.interval

/-- what a step does to the deadline, the time and SSIP -/
theorem step_cases (hr : Ready c h) (hok : a.Admitted c h) (hs : a.step c h = some h') :
    Ready c h' ∧
    ((∃ d, a.event = .pass d ∧ h'.deadline c = h.deadline c ∧ h'.mtime = h.mtime + d ∧ h'.csr .sip = h.csr .sip) ∨
    (a = .timer ∧ h.Due c ∧ Interrupted c h h') ∨
    (a = .software ∧ h.posted = true ∧ h'.deadline c = h.deadline c ∧ h'.mtime = h.mtime ∧
      h'.csr .sip = h.csr .sip &&& ~~~ ssip)) := by
  cases a with
  | code machine mode =>
    obtain ⟨-, hs⟩ := Option.ite_none_left_eq_some.mp hs
    cases hs
    obtain ⟨hr', hd⟩ := hr.congr { h with machine, mode } (fun _ _ => rfl) hok.2
    exact ⟨hr', .inl ⟨0, rfl, hd, rfl, rfl⟩⟩
  | pass d =>
    cases hs
    obtain ⟨hr', hd⟩ := hr.congr { h with mtime := h.mtime + d } (fun _ _ => rfl) fun _ _ => rfl
    exact ⟨hr', .inl ⟨d, rfl, hd, rfl, rfl⟩⟩
  | timer =>
    obtain ⟨⟨-, hdue⟩, hs⟩ := Option.ite_none_right_eq_some.mp hs
    cases hs
    obtain ⟨hi, hr'⟩ := timervec_spec hr
    exact ⟨hr', .inr (.inl ⟨rfl, hdue, hi⟩)⟩
  | software =>
    obtain ⟨hposted, hs⟩ := Option.ite_none_right_eq_some.mp hs
    cases hs
    obtain ⟨hr', hd⟩ := hr.congr h.clearSsip (fun r hne => Function.update_of_ne hne _ _) fun _ _ => rfl
    refine ⟨hr', .inr (.inr ⟨rfl, hposted, hd, rfl, ?_⟩)⟩
    show h.csr .sip &&& ~~~ ssip ||| (h.csr .sip &&& ~~~ ssip) &&& ssip = _
    have hnot : ~~~ ssip &&& ssip = 0#64 := by decide
    rw [BitVec.and_assoc, hnot, BitVec.and_zero, BitVec.or_zero]

/-- the hart as a `Ticker` -/
structure Clocked (c : Clint) (h : Hart) (t : Ticker) : Prop where
  ready : Ready c h
  now : t.now = h.mtime
  deadline : t.deadline = (h.deadline c).toNat
  flag : t.flag = h.posted

theorem posted_set (h : Hart) {h' : Hart} (hs : h'.csr .sip = h.csr .sip ||| ssip) : h'.posted = true := by
  unfold Hart.posted
  have h1 : (h.csr .sip ||| ssip) &&& ssip = ssip := by
    ext i hi
    simp only [BitVec.getElem_or, BitVec.getElem_and]
    cases (h.csr .sip)[i] <;> cases ssip[i] <;> rfl
  rw [hs, h1]
  decide

theorem posted_clear (h : Hart) {h' : Hart} (hs : h'.csr .sip = h.csr .sip &&& ~~~ ssip) : h'.posted = false := by
  unfold Hart.posted
  have hnot : ~~~ ssip &&& ssip = 0#64 := by decide
  rw [hs, BitVec.and_assoc, hnot, BitVec.and_zero]
  rfl

/-- as long as the time stays below the top, the hart does what the `Ticker` does -/
theorem Clocked.step {t : Ticker} (hc : Clocked c h t) (hok : a.Admitted c h)
    (hs : a.step c h = some h') (hlt : h.mtime + 100000 < 2^64) :
    ∃ t', Ticker.step 100000 a.event t = some t' ∧ Clocked c h' t' := by
  obtain ⟨hr', hcase⟩ := step_cases hc.ready hok hs
  obtain ⟨d, he, hd, hm, hsip⟩ | ⟨rfl, hdue, hi⟩ | ⟨rfl, hposted, hd, hm, hsip⟩ := hcase
  · rw [he]
    refine ⟨_, rfl, hr', ?_, ?_, ?_⟩
    · rw [hm, ← hc.now]
    · rw [hd]
      exact hc.deadline
    · unfold Hart.posted
      rw [hsip]
      exact hc.flag
  · have hnow : t.deadline ≤ t.now := by
      rw [hc.deadline, hc.now]
      exact hdue.trans (Nat.mod_le _ _)
    refine ⟨_, if_pos hnow, hr', ?_, ?_, ?_⟩
    · rw [hi.mtime]
      exact hc.now
    · rw [hi.deadline, BitVec.toNat_add, ← hc.deadline, show Timer.interval.toNat = 100000 by decide]
      have := hc.now
      dsimp only
      exact (Nat.mod_eq_of_lt (by omega)).symm
    · exact (posted_set h hi.sip).symm
  · refine ⟨_, if_pos (hc.flag.trans hposted), hr', ?_, ?_, ?_⟩
    · rw [hm]
      exact hc.now
    · rw [hd]
      exact hc.deadline
    · exact (posted_clear h hsip).symm

theorem mtime_le (as : List Act) : ∀ {h : Hart}, Ready c h →
    Trace.Throughout (Act.step c) (fun h a => a.Admitted c h) as h → Trace.run (Act.step c) as h = some h' →
    h.mtime ≤ h'.mtime := by
  induction as with
  | nil =>
    intro h _ _ hs
    cases hs
    exact le_rfl
  | cons a as ih =>
    intro h hr hok hs
    obtain ⟨k, hk, hs⟩ := Option.bind_eq_some_iff.mp hs
    obtain ⟨hr', hcase⟩ := step_cases hr hok.1 hk
    refine le_trans ?_ (ih hr' (hok.2 k hk) hs)
    obtain ⟨d, -, -, hm, -⟩ | ⟨-, -, hi⟩ | ⟨-, -, -, hm, -⟩ := hcase
    · rw [hm]
      exact Nat.le_add_right _ _
    · exact hi.mtime.ge
    · exact hm.ge

theorem ticks_event (as : List Act) : Ticker.ticks (as.map Act.event) = as.countP Act.isTimer := by
  unfold Ticker.ticks List.count
  rw [List.countP_map]
  refine List.countP_congr fun a _ => ?_
  cases a <;> simp [Act.event, Act.isTimer]

theorem takes_event (as : List Act) : Ticker.takes (as.map Act.event) = as.countP Act.isSoftware := by
  unfold Ticker.takes List.count
  rw [List.countP_map]
  refine List.countP_congr fun a _ => ?_
  cases a <;> simp [Act.event, Act.isSoftware]

/-- **A run of the hart is a run of the `Ticker`.** -/
theorem Clocked.run (as : List Act) : ∀ {h : Hart} {t : Ticker}, Clocked c h t →
    Trace.Throughout (Act.step c) (fun h a => a.Admitted c h) as h → Trace.run (Act.step c) as h = some h' →
    h'.mtime + 100000 < 2^64 → ∃ t', Trace.run (Ticker.step 100000) (as.map Act.event) t = some t' ∧ Clocked c h' t' ∧
      Ticker.merged 100000 (as.map Act.event) t = overruns c as h := by
  induction as with
  | nil =>
    intro h t hc _ hs _
    cases hs
    exact ⟨t, rfl, hc, rfl⟩
  | cons a as ih =>
    intro h t hc hok hs hlt
    have hle := mtime_le (a :: as) hc.ready hok hs
    obtain ⟨k, hk, hs⟩ := Option.bind_eq_some_iff.mp hs
    obtain ⟨u, hu, hcu⟩ := hc.step hok.1 hk (by omega)
    obtain ⟨t', hrun, hct, hmerged⟩ := ih hcu (hok.2 k hk) hs hlt
    refine ⟨t', Option.bind_eq_some_iff.mpr ⟨u, hu, hrun⟩, hct, ?_⟩
    have hflag : (if a.event = .tick then t.flag.toNat else 0) = if a.isTimer then h.posted.toNat else 0 := by
      rw [hc.flag]
      cases a <;> rfl
    show (if a.event = .tick then t.flag.toNat else 0) + ((Ticker.step 100000 a.event t).map _).getD 0 = _
    rw [hflag, hu, overruns, hk, Option.map_some, Option.getD_some, hmerged]
    rfl

end run

/-! ## the clock of the system -/

section started
variable (c : Clint) (kernelvec mainFunc hartid : Word) (h : Hart)

theorem start_spec : Ready c (start c kernelvec mainFunc hartid h) ∧
    (start c kernelvec mainFunc hartid h).deadline c = BitVec.ofNat 64 h.mtime + interval ∧
    (start c kernelvec mainFunc hartid h).mtime = h.mtime ∧
    (start c kernelvec mainFunc hartid h).posted = h.posted ∧
    (start c kernelvec mainFunc hartid h).mode = .supervisor := by
  obtain ⟨k, hk, hmtime, hsip, hmpp⟩ : ∃ k, start c kernelvec mainFunc hartid h =
      MInstr.mret.exec { (init c k).set .tp hartid with
        machine := ((init c k).set .tp hartid).machine.setCsr .stvec kernelvec } ∧
      k.mtime = h.mtime ∧ k.csr .sip = h.csr .sip ∧ k.mpp = .supervisor := ⟨_, rfl, rfl, rfl, rfl⟩
  obtain ⟨hr, hd, hm, hs⟩ := init_spec c k
  obtain ⟨hr', hd'⟩ := hr.congr (start c kernelvec mainFunc hartid h) (by rw [hk]; exact fun _ _ => rfl)
    (by rw [hk]; exact fun _ _ => rfl)
  refine ⟨hr', ?_, ?_, ?_, ?_⟩
  · rw [hd', hd, hmtime]
  · rw [hk]
    exact hm.trans hmtime
  · unfold Hart.posted
    rw [hk, ← hsip, ← hs]
    rfl
  · rw [hk, ← hmpp]
    rfl

/-- the hart that comes up, as a `Ticker` -/
theorem start_clocked (hlt : h.mtime + 100000 < 2^64) :
    Clocked c (start c kernelvec mainFunc hartid h) ⟨h.mtime, h.mtime + 100000, h.posted⟩ := by
  obtain ⟨hr, hd, hm, hp, -⟩ := start_spec c kernelvec mainFunc hartid h
  refine ⟨hr, hm.symm, ?_, hp.symm⟩
  rw [hd, BitVec.toNat_add, BitVec.toNat_ofNat, show interval.toNat = 100000 by decide]
  dsimp only
  omega

end started

/-- what every state of a run has -/
structure Steady (c : Clint) (h : Hart) : Prop where
  ready : Ready c h
  mode : h.mode ≠ .machine

theorem Steady.step {c : Clint} {h h' : Hart} {a : Act} (hst : Steady c h) (hok : a.Admitted c h)
    (hs : a.step c h = some h') : Steady c h' := by
  refine ⟨(step_cases hst.ready hok hs).1, ?_⟩
  cases a with
  | code machine mode =>
    obtain ⟨-, hs⟩ := Option.ite_none_left_eq_some.mp hs
    cases hs
    exact hok.1
  | pass d =>
    cases hs
    exact hst.mode
  | timer =>
    obtain ⟨-, hs⟩ := Option.ite_none_right_eq_some.mp hs
    cases hs
    rw [(timervec_spec hst.ready).1.mode]
    exact hst.mode
  | software =>
    obtain ⟨-, hs⟩ := Option.ite_none_right_eq_some.mp hs
    cases hs
    exact hst.mode

/-- the deadline after `n` interrupts -/
theorem deadline_run {c : Clint} {h' : Hart} (as : List Act) : ∀ {h : Hart}, Ready c h →
    Trace.Throughout (Act.step c) (fun h a => a.Admitted c h) as h → Trace.run (Act.step c) as h = some h' →
    h'.deadline c = h.deadline c + BitVec.ofNat 64 (as.countP Act.isTimer) * interval := by
  induction as with
  | nil =>
    intro h _ _ hs
    cases hs
    simp
  | cons a as ih =>
    intro h hr hok hs
    obtain ⟨k, hk, hs⟩ := Option.bind_eq_some_iff.mp hs
    obtain ⟨hr', hcase⟩ := step_cases hr hok.1 hk
    rw [ih hr' (hok.2 k hk) hs, List.countP_cons]
    obtain ⟨d, he, hd, -, -⟩ | ⟨rfl, -, hi⟩ | ⟨rfl, -, hd, -, -⟩ := hcase
    · have hno : a.isTimer = false := by
        cases a with
        | timer => cases he
        | _ => rfl
      rw [hd, hno]
      rfl
    · rw [hi.deadline, show Act.timer.isTimer = true from rfl, if_pos rfl, BitVec.ofNat_add, BitVec.add_mul,
        BitVec.one_mul, BitVec.add_assoc, BitVec.add_comm interval]
    · rw [hd]
      rfl

/-- **Timer interrupts are invisible below machine mode**, in every run from `start`: when one is pending it is
taken, and then only SSIP, `mtimecmp` and the scratch area have changed; and the deadlines are a period apart. -/
theorem timer_invisible (c : Clint) (kernelvec mainFunc hartid : Word) (h₀ h : Hart) (as : List Act)
    (hok : Trace.Throughout (Act.step c) (fun h a => a.Admitted c h) as (start c kernelvec mainFunc hartid h₀))
    (hrun : Trace.run (Act.step c) as (start c kernelvec mainFunc hartid h₀) = some h) :
    h.deadline c = BitVec.ofNat 64 h₀.mtime + BitVec.ofNat 64 (as.countP Act.isTimer + 1) * interval ∧
    (h.Due c → ∃ h', Act.timer.step c h = some h' ∧ Interrupted c h h') := by
  obtain ⟨hr, hd, -, -, hmode⟩ := start_spec c kernelvec mainFunc hartid h₀
  have hst : Steady c h := Trace.invariant (fun h a => a.Admitted c h) (Steady c) (fun _ _ _ hst hok hs => hst.step hok hs)
    as ⟨hr, by rw [hmode]; decide⟩ hok hrun
  refine ⟨?_, fun hdue => ⟨_, if_pos ⟨hst.mode, hdue⟩, (timervec_spec hst.ready).1⟩⟩
  rw [deadline_run as hr hok hrun, hd, BitVec.ofNat_add, BitVec.add_mul, BitVec.one_mul, BitVec.add_assoc,
    BitVec.add_comm interval]

/-- a hart at reset, on a board with its CLINT below the RAM -/
def virtClint : Clint := ⟨0x2000000, 0x80010000, 0x80001000#64, by decide, by decide, by decide⟩

def resetHart : Hart :=
  ⟨⟨fun _ => 0#64, fun _ => 0#64, fun _ => 0#64, 0#64, fun _ => 0⟩, .machine, false, false, .user, fun _ => 0#64, 0⟩

/-- the next interrupt is one period ahead -/
structure InTime (c : Clint) (h : Hart) : Prop where
  ready : Ready c h
  mode : h.mode ≠ .machine
  deadline : h.deadline c = BitVec.ofNat 64 (h.mtime + 100000)

/-- and when it has been taken, so is the one after it -/
theorem InTime.tick {c : Clint} {h : Hart} (ht : InTime c h) (hlt : h.mtime + 100000 < 2^64) :
    ∃ h', Act.timer.step c { h with mtime := h.mtime + 100000 } = some h' ∧
      Interrupted c { h with mtime := h.mtime + 100000 } h' ∧ InTime c h' := by
  obtain ⟨hr, hd⟩ := ht.ready.congr { h with mtime := h.mtime + 100000 } (fun _ _ => rfl) fun _ _ => rfl
  have hdue : Hart.Due c { h with mtime := h.mtime + 100000 } := by
    unfold Hart.Due
    rw [hd, ht.deadline, BitVec.toNat_ofNat]
  obtain ⟨hi, hr'⟩ := timervec_spec hr
  refine ⟨_, if_pos ⟨ht.mode, hdue⟩, hi, hr', ?_, ?_⟩
  · rw [hi.mode]
    exact ht.mode
  · rw [hi.deadline, hd, ht.deadline, hi.mtime, BitVec.ofNat_add (h.mtime + 100000)]
    rfl

theorem InTime.clearSsip {c : Clint} {h : Hart} (ht : InTime c h) : InTime c h.clearSsip := by
  obtain ⟨hr, hd⟩ := ht.ready.congr h.clearSsip (fun _ hr => Function.update_of_ne hr _ _) fun _ _ => rfl
  exact ⟨hr, ht.mode, hd.trans ht.deadline⟩

theorem inTime_start (c : Clint) (kernelvec mainFunc hartid : Word) (h : Hart) :
    InTime c (start c kernelvec mainFunc hartid h) := by
  obtain ⟨hr, hd, hm, -, hmode⟩ := start_spec c kernelvec mainFunc hartid h
  refine ⟨hr, by rw [hmode]; decide, ?_⟩
  rw [hd, hm, BitVec.ofNat_add]
  rfl

/-- one period after `start` the first interrupt is taken -/
theorem reset_tick : ∃ h h', Trace.run (Act.step virtClint) [.pass 100000] (start virtClint 0#64 0#64 0#64 resetHart)
      = some h ∧ Act.timer.step virtClint h = some h' ∧ Interrupted virtClint h h' ∧ h'.mtime = 100000 := by
  obtain ⟨-, -, hm, -, -⟩ := start_spec virtClint 0#64 0#64 0#64 resetHart
  obtain ⟨h', hs, hi, -⟩ := (inTime_start virtClint 0#64 0#64 0#64 resetHart).tick (by rw [hm]; decide)
  refine ⟨_, h', rfl, hs, hi, hi.mtime.trans ?_⟩
  dsimp only
  rw [hm]
  rfl

theorem timer_invisible_reset : ∃ h h', Act.timer.step virtClint h = some h' ∧ Interrupted virtClint h h' ∧
    h.deadline virtClint = 0#64 + BitVec.ofNat 64 (0 + 1) * interval := by
  obtain ⟨h, h', hrun, hs, -, -⟩ := reset_tick
  have hok : Trace.Throughout (Act.step virtClint) (fun h a => a.Admitted virtClint h) [.pass 100000]
      (start virtClint 0#64 0#64 0#64 resetHart) := ⟨trivial, fun _ _ => trivial⟩
  obtain ⟨hd, htick⟩ := timer_invisible virtClint 0#64 0#64 0#64 resetHart h _ hok hrun
  obtain ⟨⟨-, hdue⟩, -⟩ := Option.ite_none_right_eq_some.mp hs
  obtain ⟨k, hk, hi⟩ := htick hdue
  exact ⟨h, k, hk, hi, hd⟩

/-- **The ticks are the time**, as long as `mtime` does not come to its end: no timer interrupt before its time, none
left out when none is pending, and each one reaches the supervisor unless it found SSIP still set. -/
theorem ticks_are_time (c : Clint) (kernelvec mainFunc hartid : Word) (h₀ h : Hart) (as : List Act)
    (hok : Trace.Throughout (Act.step c) (fun h a => a.Admitted c h) as (start c kernelvec mainFunc hartid h₀))
    (hrun : Trace.run (Act.step c) as (start c kernelvec mainFunc hartid h₀) = some h)
    (hlt : h.mtime + 100000 < 2^64) :
    as.countP Act.isTimer * 100000 ≤ h.mtime - h₀.mtime ∧
    (¬ h.Due c → as.countP Act.isTimer = (h.mtime - h₀.mtime) / 100000) ∧
    as.countP Act.isSoftware + overruns c as (start c kernelvec mainFunc hartid h₀) + h.posted.toNat =
      as.countP Act.isTimer + h₀.posted.toNat := by
  obtain ⟨hr, -, hm, -, -⟩ := start_spec c kernelvec mainFunc hartid h₀
  have hle : h₀.mtime ≤ h.mtime := hm ▸ mtime_le as hr hok hrun
  have harmed : Ticker.Armed 100000 ⟨h₀.mtime, h₀.mtime + 100000, h₀.posted⟩ := le_rfl
  obtain ⟨t, ht, hct, hmerged⟩ := (start_clocked c kernelvec mainFunc hartid h₀ (by omega)).run as hok hrun hlt
  rw [← ticks_event, ← takes_event, ← hmerged, ← hct.flag, ← hct.now]
  refine ⟨?_, fun hdue => ?_, Ticker.run_balance _ ht⟩
  · have := Ticker.ticks_mul_le harmed ht
    dsimp only at this
    omega
  · refine Ticker.ticks_eq_div rfl ht ?_
    rw [hct.deadline, hct.now]
    unfold Hart.Due at hdue
    rw [Nat.mod_eq_of_lt (by omega)] at hdue
    exact Nat.lt_of_not_le hdue

theorem ticks_are_time_reset : ∃ h, Trace.run (Act.step virtClint) [.pass 100000, .timer]
      (start virtClint 0#64 0#64 0#64 resetHart) = some h ∧
    1 * 100000 ≤ h.mtime - 0 ∧ 0 + 0 + h.posted.toNat = 1 + 0 := by
  obtain ⟨h, h', hrun, hs, -, hm⟩ := reset_tick
  have hrun' : Trace.run (Act.step virtClint) [.pass 100000, .timer] (start virtClint 0#64 0#64 0#64 resetHart)
      = some h' := by
    obtain rfl := Option.some.inj hrun
    exact Option.bind_eq_some_iff.mpr ⟨_, rfl, Option.bind_eq_some_iff.mpr ⟨h', hs, rfl⟩⟩
  obtain ⟨hle, -, hbalance⟩ := ticks_are_time virtClint 0#64 0#64 0#64 resetHart h' [.pass 100000, .timer]
    ⟨trivial, fun _ _ => ⟨trivial, fun _ _ => trivial⟩⟩ hrun' (by rw [hm]; decide)
  exact ⟨h', hrun', hle, hbalance⟩

end Citron.Trap.Timer
