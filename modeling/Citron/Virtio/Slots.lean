import Mathlib.Data.Option.Basic
import Mathlib.Logic.Function.Basic

/-!
# The slots of the virtio devices

`init` and `interrupt` of `src/arch/riscv64/virtio.rs`: the kernel goes over the four slots of the board and keeps a
driver for each device that it knows; an interrupt is for the driver that belongs to the number of the slot.

* `init`, `interrupt`        the two functions;
* `init_spec`                which slot a driver has in the end;
* `interrupts_reach_iff`     when every device gets its own interrupts.
-/

namespace Citron.Virtio.Slots

/-- the statics that hold the drivers -/
inductive Device where
  | block
  | gpu
  | mouse
  | keyboard
deriving DecidableEq, Repr

/-- `interrupt`; `none` is its panic -/
def interrupt (irq : Nat) : Option Device :=
  match irq - 1 with
  | 0 => some .block
  | 1 => some .gpu
  | 2 => some .mouse
  | 3 => some .keyboard
  | _ => none

/-- the slot whose interrupts a driver gets -/
def Device.slot : Device → Nat
  | .block => 0
  | .gpu => 1
  | .mouse => 2
  | .keyboard => 3

theorem interrupt_iff {i : Nat} {d : Device} : interrupt (i + 1) = some d ↔ i = d.slot := by
  rcases i with _ | _ | _ | _ | i <;> cases d <;> simp [interrupt, Device.slot]

/-- what the registers of the slots hold, and whether the driver's `init` comes through -/
structure Board where
  magicValue : Nat → Nat
  deviceId : Nat → Nat
  comesUp : Nat → Bool

/-- the driver that `init` looks for in the slot `i`; `none` is its panic, `some none` a slot that is left alone -/
def probe (b : Board) (i : Nat) : Option (Option Device) :=
  if b.magicValue i ≠ 0x74726976 then some none
  else match b.deviceId i with
    | 2 => if b.comesUp i then some (some .block) else none
    | 16 => if b.comesUp i then some (some .gpu) else none
    | 18 =>
      match i with
      | 2 => if b.comesUp i then some (some .mouse) else none
      | 3 => if b.comesUp i then some (some .keyboard) else none
      | _ => none
    | _ => some none

/-- the slots whose drivers are in the statics -/
abbrev Statics := Device → Option Nat

def turn (b : Board) (i : Nat) (st : Statics) : Option Statics :=
  (probe b i).map fun d => d.elim st fun d => Function.update st d (some i)

def initLoop (b : Board) : List Nat → Statics → Option Statics
  | [], st => some st
  | i :: l, st => (turn b i st).bind (initLoop b l)

def init (b : Board) : Option Statics := initLoop b [0, 1, 2, 3] fun _ => none

/-- the driver for the slot `i` -/
def Board.driver (b : Board) (i : Nat) : Option Device := (probe b i).join

section init
variable {b : Board}

/-- only the third and the fourth slot have input devices -/
theorem driver_input {i : Nat} : (b.driver i = some .mouse → i = 2) ∧ (b.driver i = some .keyboard → i = 3) := by
  unfold Board.driver probe
  split
  · exact ⟨nofun, nofun⟩
  · split
    · split <;> exact ⟨nofun, nofun⟩
    · split <;> exact ⟨nofun, nofun⟩
    · split
      · split <;> exact ⟨fun _ => rfl, nofun⟩
      · split <;> exact ⟨nofun, fun _ => rfl⟩
      · exact ⟨nofun, nofun⟩
    · exact ⟨nofun, nofun⟩

/-- a static holds the last slot that had a driver for it -/
theorem initLoop_spec (l : List Nat) : ∀ {st st' : Statics}, initLoop b l st = some st' → ∀ d i, st' d = some i →
    st d = some i ∨ i ∈ l ∧ b.driver i = some d := by
  induction l with
  | nil =>
    intro st st' h d i hd
    cases h
    exact .inl hd
  | cons j l ih =>
    intro st st' h d i hd
    obtain ⟨st₁, hturn, h⟩ := Option.bind_eq_some_iff.mp h
    obtain ⟨p, hp, rfl⟩ := Option.map_eq_some_iff.mp hturn
    rcases ih h d i hd with h₁ | ⟨hmem, hdrv⟩
    · cases p with
      | none => exact .inl h₁
      | some d' =>
        change Function.update st d' (some j) d = some i at h₁
        by_cases he : d = d'
        · rw [he, Function.update_self] at h₁
          cases h₁
          exact .inr ⟨List.mem_cons_self, by rw [Board.driver, hp, he]; rfl⟩
        · rw [Function.update_of_ne he] at h₁
          exact .inl h₁
    · exact .inr ⟨List.mem_cons_of_mem _ hmem, hdrv⟩

/-- and it holds one, once there was one -/
theorem initLoop_isSome (l : List Nat) : ∀ {st st' : Statics}, initLoop b l st = some st' → ∀ d,
    ((st d).isSome ∨ ∃ i ∈ l, b.driver i = some d) → (st' d).isSome := by
  induction l with
  | nil =>
    rintro st st' h d (hd | ⟨i, hi, -⟩)
    · cases h
      exact hd
    · exact absurd hi List.not_mem_nil
  | cons j l ih =>
    intro st st' h d hd
    obtain ⟨st₁, hturn, h⟩ := Option.bind_eq_some_iff.mp h
    obtain ⟨p, hp, rfl⟩ := Option.map_eq_some_iff.mp hturn
    refine ih h d ?_
    rcases hd with hd | ⟨i, hi, hdrv⟩
    · refine .inl ?_
      cases p with
      | none => exact hd
      | some d' =>
        show (Function.update st d' (some j) d).isSome
        by_cases he : d = d'
        · rw [he, Function.update_self]
          rfl
        · rw [Function.update_of_ne he]
          exact hd
    · rcases List.mem_cons.mp hi with rfl | hi
      · have hpd : p = some d := by
          rw [Board.driver, hp] at hdrv
          exact hdrv
        refine .inl ?_
        rw [hpd]
        show (Function.update st d (some i) d).isSome
        rw [Function.update_self]
        rfl
      · exact .inr ⟨i, hi, hdrv⟩

/-- the interrupts of the slot `i` get to the driver that was brought up for it -/
def Served (st : Statics) (d : Device) (i : Nat) : Prop := interrupt (i + 1) = some d ∧ st d = some i

def Reached (b : Board) (st : Statics) : Prop := ∀ i, i < 4 → ∀ d, b.driver i = some d → Served st d i

/-- a driver that is in its own slot only -/
theorem served_of_slot {st : Statics} (h : init b = some st) {d : Device}
    (honly : ∀ j, j < 4 → b.driver j = some d → j = d.slot) {i : Nat} (hi : i < 4) (hd : b.driver i = some d) :
    Served st d i := by
  have hmem : ∀ j, j < 4 ↔ j ∈ [0, 1, 2, 3] := by
    intro j
    simp only [List.mem_cons, List.not_mem_nil, or_false]
    omega
  obtain ⟨j, hj⟩ := Option.isSome_iff_exists.mp (initLoop_isSome _ h d (.inr ⟨i, (hmem i).mp hi, hd⟩))
  refine ⟨interrupt_iff.mpr (honly i hi hd), ?_⟩
  rcases initLoop_spec _ h d j hj with h₀ | ⟨hj4, hdrv⟩
  · cases h₀
  · rw [hj, honly i hi hd, honly j ((hmem j).mpr hj4) hdrv]

/-- **When every device gets its own interrupts**: the mouse and the keyboard always do, and all of them do if the disk
is in the first slot and the display in the second, and not otherwise. -/
theorem interrupts_reach_iff {st : Statics} (h : init b = some st) :
    (∀ i, i < 4 → ∀ d, b.driver i = some d → d = .mouse ∨ d = .keyboard → Served st d i) ∧
    (Reached b st ↔ ∀ i, i < 4 → (b.driver i = some .block → i = 0) ∧ (b.driver i = some .gpu → i = 1)) := by
  refine ⟨fun i hi d hd hinput => ?_, fun hr i hi => ?_, fun hs i hi d hd => ?_⟩
  · refine served_of_slot h (fun j _ hj => ?_) hi hd
    rcases hinput with rfl | rfl
    · exact driver_input.1 hj
    · exact driver_input.2 hj
  · exact ⟨fun hd => interrupt_iff.mp (hr i hi _ hd).1, fun hd => interrupt_iff.mp (hr i hi _ hd).1⟩
  · refine served_of_slot h (fun j hj hd => ?_) hi hd
    cases d with
    | block => exact (hs j hj).1 hd
    | gpu => exact (hs j hj).2 hd
    | mouse => exact driver_input.1 hd
    | keyboard => exact driver_input.2 hd

/-- a board like the one that the drivers expect -/
theorem interrupts_reach_virt : ∃ st, init ⟨fun _ => 0x74726976, fun i => [2, 16, 18, 18].getD i 0, fun _ => true⟩ = some st ∧
    Reached ⟨fun _ => 0x74726976, fun i => [2, 16, 18, 18].getD i 0, fun _ => true⟩ st := by
  obtain ⟨st, hst⟩ : ∃ st, init ⟨fun _ => 0x74726976, fun i => [2, 16, 18, 18].getD i 0, fun _ => true⟩ = some st :=
    ⟨_, rfl⟩
  exact ⟨st, hst, (interrupts_reach_iff hst).2.mpr (by decide)⟩

end init

end Citron.Virtio.Slots
