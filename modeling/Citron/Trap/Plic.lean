import Citron.Lib.Trace
import Citron.Virtio.Slots
import Mathlib.Data.List.Nodup
import Mathlib.Data.Nat.Bitwise

/-!
# Interrupts of the devices

`src/arch/riscv64/plic.rs` and the external interrupt in `ArchProcess::interrupt`, on an interrupt controller: a
source that is raised is pending until it is claimed, and once claimed it stays quiet until it is completed.  The
driver may give the processor away between the two.

* `Plic`                    the registers of the controller, and its gateways;
* `External`, `Act`         the controller with the handlers that are under way, and what can happen;
* `Sound`                   what is claimed is what the handlers have in hand;
* `external_interrupts`     no interrupt gets lost, none is handled twice, none finds nobody.
-/

namespace Citron.Trap
open Virtio.Slots (Device)

/-! ## the controller -/

/-- the sources of the first word, for the supervisor of the hart -/
structure Plic where
  priority : Nat → Nat
  senable : Nat → Bool
  spriority : Nat
  pending : Nat → Bool
  claimed : Nat → Bool

namespace Plic

/-- the sources that may interrupt the hart -/
def Ready (p : Plic) (i : Nat) : Prop := p.pending i = true ∧ p.senable i = true ∧ p.spriority < p.priority i

instance (p : Plic) (i : Nat) : Decidable (p.Ready i) := inferInstanceAs (Decidable (_ ∧ _ ∧ _))

/-- the better one of two sources, the first where they are equal; `0` is none -/
def better (p : Plic) (best i : Nat) : Nat :=
  if p.Ready i ∧ (best = 0 ∨ p.priority best < p.priority i) then i else best

def best (p : Plic) : Nat := (List.range' 1 31).foldl p.better 0

/-- a read of `Sclaim` -/
def claim (p : Plic) : Nat × Plic :=
  if p.best = 0 then (0, p)
  else (p.best, { p with
    pending := Function.update p.pending p.best false
    claimed := Function.update p.claimed p.best true })

/-- a write of `Sclaim` -/
def complete (p : Plic) (irq : Nat) : Plic :=
  if p.senable irq then { p with claimed := Function.update p.claimed irq false } else p

/-- a source asks for an interrupt; the gateway lets it through when the last one is over -/
def raise (p : Plic) (i : Nat) : Option Plic :=
  if p.pending i ∨ p.claimed i then none else some { p with pending := Function.update p.pending i true }

/-- a write to the registers: priorities, `Senable`, `Spriority` and `Sclaim` -/
def writeReg32 (p : Plic) (offset val : Nat) : Plic :=
  if offset = 0x2080 then { p with senable := val.testBit }
  else if offset = 0x201000 then { p with spriority := val }
  else if offset = 0x201004 then p.complete val
  else if offset < 0x1000 then { p with priority := Function.update p.priority (offset / 4) val }
  else p

def virtioFirstIrq : Nat := 1
def virtioEndIrq : Nat := 8
def uartIrq : Nat := 10

def init (p : Plic) : Plic :=
  let p := p.writeReg32 (uartIrq * 4) 1
  let p := p.writeReg32 (virtioFirstIrq * 4) 1
  let p := p.writeReg32 ((virtioFirstIrq + 1) * 4) 1
  let p := p.writeReg32 ((virtioFirstIrq + 2) * 4) 1
  let p := p.writeReg32 ((virtioFirstIrq + 3) * 4) 1
  let senable := 1 <<< uartIrq ||| 1 <<< virtioFirstIrq ||| 1 <<< (virtioFirstIrq + 1) |||
    1 <<< (virtioFirstIrq + 2) ||| 1 <<< (virtioFirstIrq + 3)
  let p := p.writeReg32 0x2080 senable
  p.writeReg32 0x201000 0

/-! ## what is claimed -/

section best
variable (p : Plic)

theorem better_cases (best i : Nat) :
    (p.better best i = i ∧ p.Ready i ∧ (best = 0 ∨ p.priority best < p.priority i)) ∨
    (p.better best i = best ∧ (p.Ready i → best ≠ 0 ∧ p.priority i ≤ p.priority best)) := by
  unfold better
  by_cases h : p.Ready i ∧ (best = 0 ∨ p.priority best < p.priority i)
  · rw [if_pos h]
    exact .inl ⟨rfl, h⟩
  · rw [if_neg h]
    refine .inr ⟨rfl, fun hr => ?_⟩
    rw [not_and, not_or, Nat.not_lt] at h
    exact h hr

/-- `b` is the ready source of the highest priority among those that were `seen`, the first of them -/
def IsBest (seen : List Nat) (b : Nat) : Prop :=
  (b = 0 ∧ ∀ i ∈ seen, ¬ p.Ready i) ∨
  (p.Ready b ∧ b ∈ seen ∧ ∀ i ∈ seen, p.Ready i → p.priority i < p.priority b ∨ p.priority i = p.priority b ∧ b ≤ i)

variable {p}

theorem IsBest.better {seen : List Nat} {b j : Nat} (h : p.IsBest seen b) (hpos : ∀ i ∈ seen, i ≠ 0)
    (hlt : ∀ i ∈ seen, i < j) : p.IsBest (seen ++ [j]) (p.better b j) := by
  rcases p.better_cases b j with ⟨he, hj, hb⟩ | ⟨he, hj⟩
  · rw [he]
    refine .inr ⟨hj, List.mem_append_right _ (List.mem_singleton_self j), fun i hi hr => ?_⟩
    rcases List.mem_append.mp hi with hi | hi
    · rcases h with ⟨-, hnone⟩ | ⟨-, hmem, hbest⟩
      · exact absurd hr (hnone i hi)
      · have hb := hb.resolve_left (hpos b hmem)
        rcases hbest i hi hr with hlt | ⟨heq, -⟩
        · exact .inl (hlt.trans hb)
        · exact .inl (heq ▸ hb)
    · rw [List.mem_singleton.mp hi]
      exact .inr ⟨rfl, le_rfl⟩
  · rw [he]
    rcases h with ⟨rfl, hnone⟩ | ⟨hr, hmem, hbest⟩
    · refine .inl ⟨rfl, fun i hi hr => ?_⟩
      rcases List.mem_append.mp hi with hi | hi
      · exact hnone i hi hr
      · rw [List.mem_singleton.mp hi] at hr
        exact (hj hr).1 rfl
    · refine .inr ⟨hr, List.mem_append_left _ hmem, fun i hi hri => ?_⟩
      rcases List.mem_append.mp hi with hi | hi
      · exact hbest i hi hri
      · rw [List.mem_singleton.mp hi] at hri ⊢
        rcases (hj hri).2.lt_or_eq with hlt' | heq
        · exact .inl hlt'
        · exact .inr ⟨heq, (hlt b hmem).le⟩

theorem IsBest.foldl (l : List Nat) : ∀ {seen : List Nat} {b : Nat}, p.IsBest seen b →
    (seen ++ l).Pairwise (· < ·) → (∀ i ∈ seen ++ l, i ≠ 0) → p.IsBest (seen ++ l) (l.foldl p.better b) := by
  induction l with
  | nil =>
    intro seen b h _ _
    rw [List.append_nil]
    exact h
  | cons j l ih =>
    intro seen b h hsorted hpos
    have hj : p.IsBest (seen ++ [j]) (p.better b j) :=
      h.better (fun i hi => hpos i (List.mem_append_left _ hi))
        fun i hi => (List.pairwise_append.mp hsorted).2.2 i hi j List.mem_cons_self
    have happend : seen ++ j :: l = seen ++ [j] ++ l := by rw [List.append_assoc, List.singleton_append]
    rw [happend] at hsorted hpos ⊢
    exact ih hj hsorted hpos

theorem best_spec (p : Plic) : p.IsBest (List.range' 1 31) p.best := by
  have hnone : p.IsBest [] 0 := .inl ⟨rfl, fun _ hi => absurd hi List.not_mem_nil⟩
  exact hnone.foldl (List.range' 1 31) List.pairwise_lt_range' (by decide)

end best

end Plic

/-! ## the handlers -/

/-- The handlers that are under way hold the interrupts `inflight`.  `raised` and `served` are the interrupts that the
gateways have let through and the calls of the drivers so far. -/
structure External where
  plic : Plic
  inflight : List Nat
  raised : List Nat
  served : List Device

namespace External

/-- the external interrupt up to the end of the driver; `none` is a panic -/
def handle (s : External) : Option External :=
  let (irq, plic) := s.plic.claim
  if Plic.virtioFirstIrq ≤ irq ∧ irq ≤ Plic.virtioEndIrq then
    (Virtio.Slots.interrupt irq).map fun d => ⟨plic, irq :: s.inflight, s.raised, d :: s.served⟩
  else if irq = Plic.uartIrq then some ⟨plic, irq :: s.inflight, s.raised, s.served⟩
  else if irq ≠ 0 then some ⟨plic, irq :: s.inflight, s.raised, s.served⟩
  else some { s with plic }

inductive Act where
  | raise (i : Nat)
  | interrupt
  /-- a handler goes on to `plic::complete` -/
  | complete (irq : Nat)

def step : Act → External → Option External
  | .raise i, s => (s.plic.raise i).map fun p => { s with plic := p, raised := i :: s.raised }
  | .interrupt, s => s.handle
  | .complete irq, s =>
    if irq ∈ s.inflight then some { s with plic := s.plic.complete irq, inflight := s.inflight.erase irq } else none

/-- the controller as `init` leaves it, with nothing under way -/
def start (p : Plic) : External := ⟨p.init, [], [], []⟩

/-- the sources that `init` turns on -/
def sources : List Nat := [1, 2, 3, 4, 10]

/-- what the calls of the drivers and the gateways say of each device -/
structure Sound (s : External) : Prop where
  senable : ∀ i, s.plic.senable i = decide (i ∈ sources)
  priority : ∀ i ∈ External.sources, s.plic.priority i = 1
  spriority : s.plic.spriority = 0
  claimed : ∀ i, s.plic.claimed i = true ↔ i ∈ s.inflight
  nodup : s.inflight.Nodup
  sources : ∀ i ∈ s.inflight, i ∈ External.sources
  quiet : ∀ i, s.plic.claimed i = true → s.plic.pending i = false
  balance : ∀ d : Device, s.raised.count (d.slot + 1) = s.served.count d + (s.plic.pending (d.slot + 1)).toNat

theorem init_senable (p : Plic) (i : Nat) : p.init.senable i = decide (i ∈ sources) := by
  show Nat.testBit 1054 i = _
  by_cases hi : i < 11
  · revert i
    decide
  · rw [Nat.testBit_lt_two_pow (lt_of_lt_of_le (show 1054 < 2^11 by decide) (Nat.pow_le_pow_right (by decide) (by omega)))]
    symm
    rw [decide_eq_false_iff_not]
    unfold sources
    simp only [List.mem_cons, List.not_mem_nil, or_false]
    omega

theorem init_priority (p : Plic) : ∀ i ∈ sources, p.init.priority i = 1 := by
  intro i hi
  simp only [sources, List.mem_cons, List.not_mem_nil, or_false] at hi
  rcases hi with rfl | rfl | rfl | rfl | rfl <;> rfl

theorem start_sound {p : Plic} (hp : ∀ i, p.pending i = false ∧ p.claimed i = false) : Sound (start p) := by
  refine ⟨init_senable p, init_priority p, rfl, fun i => ?_, List.nodup_nil, fun i hi => absurd hi List.not_mem_nil, fun i _ => (hp i).1,
    fun d => ?_⟩
  · refine ⟨fun h => ?_, fun h => absurd h List.not_mem_nil⟩
    exact absurd ((hp i).2.symm.trans h) Bool.false_ne_true
  · show 0 = 0 + (p.pending (d.slot + 1)).toNat
    rw [(hp _).1]
    rfl

section step
variable {s s' : External}

/-- the handler finds a source that it knows, or none -/
theorem handle_spec (hs : Sound s) :
    (s.plic.best = 0 ∧ s.handle = some s) ∨
    (s.plic.Ready s.plic.best ∧ s.plic.best ∈ External.sources ∧
      s.handle = some ⟨s.plic.claim.2, s.plic.best :: s.inflight, s.raised,
        (Virtio.Slots.interrupt s.plic.best).toList ++ s.served⟩) := by
  rcases s.plic.best_spec with ⟨hzero, -⟩ | ⟨hr, hmem, -⟩
  · refine .inl ⟨hzero, ?_⟩
    unfold handle Plic.claim
    rw [if_pos hzero]
    rfl
  · have hsrc : s.plic.best ∈ External.sources := of_decide_eq_true ((hs.senable _).symm.trans hr.2.1)
    refine .inr ⟨hr, hsrc, ?_⟩
    have hne : s.plic.best ≠ 0 := by
      intro h0
      rw [h0] at hmem
      exact absurd hmem (by decide)
    have hclaim : s.plic.claim = (s.plic.best, s.plic.claim.2) := by
      unfold Plic.claim
      rw [if_neg hne]
    unfold handle
    rw [hclaim]
    generalize s.plic.best = irq at hsrc
    simp only [External.sources, List.mem_cons, List.not_mem_nil, or_false] at hsrc
    rcases hsrc with rfl | rfl | rfl | rfl | rfl <;> rfl

theorem balance_raise (hs : Sound s) {p : Plic} {i : Nat} (h : s.plic.raise i = some p) (d : Device) :
    (i :: s.raised).count (d.slot + 1) = s.served.count d + (p.pending (d.slot + 1)).toNat := by
  unfold Plic.raise at h
  obtain ⟨hfree, h⟩ := Option.ite_none_left_eq_some.mp h
  cases h
  rw [not_or, Bool.not_eq_true] at hfree
  by_cases hd : i = d.slot + 1
  · subst hd
    rw [List.count_cons_self, hs.balance d, hfree.1]
    simp
  · rw [List.count_cons_of_ne hd, hs.balance d]
    simp [Function.update_of_ne (Ne.symm hd)]

theorem balance_claim (hs : Sound s) (hr : s.plic.Ready s.plic.best) (hne : s.plic.best ≠ 0) (d : Device) :
    s.raised.count (d.slot + 1) = ((Virtio.Slots.interrupt s.plic.best).toList ++ s.served).count d +
      (s.plic.claim.2.pending (d.slot + 1)).toNat := by
  have hpending : s.plic.claim.2.pending = Function.update s.plic.pending s.plic.best false := by
    unfold Plic.claim
    rw [if_neg hne]
  obtain ⟨i, hi⟩ := Nat.exists_eq_succ_of_ne_zero hne
  rw [hpending, hs.balance d, List.count_append]
  by_cases hd : s.plic.best = d.slot + 1
  · -- it is the one of `d`
    rw [← hd, Function.update_self, hr.1, hd, Virtio.Slots.interrupt_iff.mpr rfl]
    simp [Nat.add_comm]
  · have hcount : (Virtio.Slots.interrupt s.plic.best).toList.count d = 0 := by
      rw [List.count_eq_zero, Option.mem_toList, hi]
      intro h
      exact hd (by rw [hi, Virtio.Slots.interrupt_iff.mp h])
    rw [Function.update_of_ne (Ne.symm hd), hcount, Nat.zero_add]

theorem Sound.step {a : Act} (hs : Sound s) (h : External.step a s = some s') : Sound s' := by
  cases a with
  | raise i =>
    obtain ⟨p, hp, rfl⟩ := Option.map_eq_some_iff.mp h
    have hbalance := balance_raise hs hp
    unfold Plic.raise at hp
    obtain ⟨hfree, hp⟩ := Option.ite_none_left_eq_some.mp hp
    cases hp
    rw [not_or] at hfree
    refine ⟨hs.senable, hs.priority, hs.spriority, hs.claimed, hs.nodup, hs.sources, fun j hj => ?_, hbalance⟩
    have hne : j ≠ i := by
      rintro rfl
      exact hfree.2 hj
    exact (Function.update_of_ne hne _ _).trans (hs.quiet j hj)
  | interrupt =>
    rcases handle_spec hs with ⟨-, he⟩ | ⟨hr, hsrc, he⟩
    · cases he.symm.trans h
      exact hs
    · cases he.symm.trans h
      have hne : s.plic.best ≠ 0 := fun h0 => absurd (h0 ▸ hsrc) (by decide)
      have hbalance := balance_claim hs hr hne
      have hclaim : s.plic.claim.2 = { s.plic with
          pending := Function.update s.plic.pending s.plic.best false
          claimed := Function.update s.plic.claimed s.plic.best true } := by
        unfold Plic.claim
        rw [if_neg hne]
      -- the source was pending, so nobody has it
      have hfresh : s.plic.best ∉ s.inflight := fun hmem =>
        absurd ((hs.quiet _ ((hs.claimed _).mpr hmem)).symm.trans hr.1) Bool.false_ne_true
      refine ⟨?_, ?_, ?_, fun i => ?_, List.nodup_cons.mpr ⟨hfresh, hs.nodup⟩, ?_, fun i hi => ?_, hbalance⟩
      · rw [hclaim]
        exact hs.senable
      · rw [hclaim]
        exact hs.priority
      · rw [hclaim]
        exact hs.spriority
      · rw [hclaim]
        show Function.update s.plic.claimed s.plic.best true i = true ↔ i ∈ s.plic.best :: s.inflight
        by_cases hib : i = s.plic.best
        · rw [hib, Function.update_self]
          exact ⟨fun _ => List.mem_cons_self, fun _ => rfl⟩
        · rw [Function.update_of_ne hib, hs.claimed, List.mem_cons]
          exact ⟨.inr, fun h' => h'.resolve_left hib⟩
      · rintro i (_ | ⟨_, hi⟩)
        · exact hsrc
        · exact hs.sources i hi
      · rw [hclaim] at hi ⊢
        show Function.update s.plic.pending s.plic.best false i = false
        by_cases hib : i = s.plic.best
        · rw [hib, Function.update_self]
        · rw [Function.update_of_ne hib]
          exact hs.quiet i ((Function.update_of_ne hib _ _).symm.trans hi)
  | complete irq =>
    obtain ⟨hmem, h⟩ := Option.ite_none_right_eq_some.mp h
    cases h
    have hcomplete : s.plic.complete irq = { s.plic with claimed := Function.update s.plic.claimed irq false } := by
      unfold Plic.complete
      rw [if_pos ((hs.senable irq).trans (decide_eq_true (hs.sources irq hmem)))]
    refine ⟨?_, ?_, ?_, fun i => ?_, hs.nodup.erase irq, fun i hi => hs.sources i (List.mem_of_mem_erase hi),
      fun i hi => ?_, ?_⟩
    · rw [hcomplete]
      exact hs.senable
    · rw [hcomplete]
      exact hs.priority
    · rw [hcomplete]
      exact hs.spriority
    · rw [hcomplete, hs.nodup.mem_erase_iff]
      show Function.update s.plic.claimed irq false i = true ↔ _
      by_cases hib : i = irq
      · rw [hib, Function.update_self]
        exact ⟨nofun, fun h' => absurd rfl h'.1⟩
      · rw [Function.update_of_ne hib, hs.claimed]
        exact ⟨fun h' => ⟨hib, h'⟩, And.right⟩
    · rw [hcomplete] at hi ⊢
      have hib : i ≠ irq := by
        rintro rfl
        exact absurd ((Function.update_self i false s.plic.claimed).symm.trans hi) Bool.false_ne_true
      exact hs.quiet i ((Function.update_of_ne hib _ _).symm.trans hi)
    · rw [hcomplete]
      exact hs.balance

theorem Sound.handle (hs : Sound s) : ∃ s', s.handle = some s' := by
  rcases handle_spec hs with ⟨-, he⟩ | ⟨-, -, he⟩
  · exact ⟨_, he⟩
  · exact ⟨_, he⟩

/-- a device that waits is only passed over by the slots before its own -/
theorem Sound.progress (hs : Sound s) {d : Device} (hd : s.plic.pending (d.slot + 1) = true) :
    ∃ irq s', irq ≤ d.slot + 1 ∧ s.handle = some s' ∧ s'.inflight = irq :: s.inflight := by
  have hsrc : d.slot + 1 ∈ External.sources := by cases d <;> decide
  have hready : s.plic.Ready (d.slot + 1) := by
    refine ⟨hd, (hs.senable _).trans (decide_eq_true hsrc), ?_⟩
    rw [hs.spriority, hs.priority _ hsrc]
    exact Nat.zero_lt_one
  have hmem : d.slot + 1 ∈ List.range' 1 31 := by cases d <;> decide
  rcases s.plic.best_spec with ⟨-, hnone⟩ | ⟨hr, -, hbest⟩
  · exact absurd hready (hnone _ hmem)
  · rcases handle_spec hs with ⟨hzero, -⟩ | ⟨-, hbsrc, he⟩
    · have hoff : s.plic.senable 0 = false := (hs.senable 0).trans (by decide)
      exact absurd ((hzero ▸ hr.2.1).symm.trans hoff) (by decide)
    · refine ⟨s.plic.best, _, ?_, he, rfl⟩
      rcases hbest _ hmem hready with hlt | ⟨-, hle⟩
      · rw [hs.priority _ hsrc, hs.priority _ hbsrc] at hlt
        exact absurd hlt (Nat.lt_irrefl 1)
      · exact hle

end step

/-- **Interrupts of the devices** in every run after `plic::init`: the handlers under way hold different sources, those
that are claimed, so that each is completed once and by the handler that has claimed it; no interrupt finds nobody; of
the interrupts of a device that the gateway has let through all but the pending one have got to its driver, each once;
and the pending one is passed over only for the slots before. -/
theorem external_interrupts (p : Plic) (hp : ∀ i, p.pending i = false ∧ p.claimed i = false) (as : List Act)
    (s : External) (h : Trace.run step as (start p) = some s) :
    (s.inflight.Nodup ∧ ∀ i, s.plic.claimed i = true ↔ i ∈ s.inflight) ∧ (∃ s', step .interrupt s = some s') ∧
    ∀ d : Device, s.raised.count (d.slot + 1) = s.served.count d + (s.plic.pending (d.slot + 1)).toNat ∧
      (s.plic.pending (d.slot + 1) = true →
        ∃ irq s', irq ≤ d.slot + 1 ∧ step .interrupt s = some s' ∧ s'.inflight = irq :: s.inflight) := by
  have hs : Sound s := Trace.invariant (fun _ _ => True) Sound (fun _ _ _ hs _ h => hs.step h) as (start_sound hp)
    (Trace.throughout_of_forall as (fun _ _ _ => trivial) _) h
  exact ⟨⟨hs.nodup, hs.claimed⟩, hs.handle, fun d => ⟨hs.balance d, hs.progress⟩⟩

/-- The disk interrupts while the mouse is being served. -/
theorem external_interrupts_disk : ∃ s, Trace.run step [.raise 3, .interrupt, .raise 1]
      (start ⟨fun _ => 0, fun _ => false, 7, fun _ => false, fun _ => false⟩) = some s ∧
    s.inflight = [3] ∧ ∃ irq s', irq ≤ 1 ∧ step .interrupt s = some s' ∧ s'.inflight = irq :: s.inflight := by
  obtain ⟨s, hs⟩ : ∃ s, Trace.run step [.raise 3, .interrupt, .raise 1]
      (start ⟨fun _ => 0, fun _ => false, 7, fun _ => false, fun _ => false⟩) = some s := ⟨_, rfl⟩
  obtain ⟨-, -, hd⟩ := external_interrupts _ (fun _ => ⟨rfl, rfl⟩) _ s hs
  have hinflight : (Trace.run step [.raise 3, .interrupt, .raise 1]
      (start ⟨fun _ => 0, fun _ => false, 7, fun _ => false, fun _ => false⟩)).map
      (fun s => (s.inflight, s.plic.pending 1)) = some ([3], true) := rfl
  rw [hs] at hinflight
  obtain ⟨hin, hpending⟩ := Prod.mk.inj (Option.some.inj hinflight)
  exact ⟨s, hs, hin, (hd .block).2 hpending⟩

end External

end Citron.Trap
