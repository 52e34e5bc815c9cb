import Citron.Paging.Table

/-!
# The Sv39 translation of user mode

What the hardware does with an address in user mode, stated on its own and not taken from
`virt_to_phys`: canonical addresses, valid entries with no reserved bits, superpages aligned, the leaf
with its U bit set.

* `sv39User_virtToPhys`   where the hardware translates, `virt_to_phys` gives the same address;
* `sv39User_add`          within a page the translation is contiguous.
-/

namespace Citron.Paging
open Word

/-- bits 63 to 39 are copies of bit 38 -/
def canonical (va : Word) : Bool := va.toNat < 2^38 || 2^64 - 2^38 ≤ va.toNat

/-- an entry that raises no fault: V set, not W without R, the bits above the frame clear -/
def sv39Valid (pte : Nat) : Bool :=
  pte.testBit 0 && (pte.testBit 1 || !pte.testBit 2) && decide (pte < 2^54)

/-- the frame number of an entry -/
def framePpn (pte : Nat) : Nat := pte / 2^10 % 2^44

def sv39Walk (m : Mem) (va : Word) : Nat → Nat → Option Nat
  | i, table =>
    let pte := (m.readWord (table + 8 * (va.toNat / 2^(12 + 9 * i) % 2^9))).toNat
    if !sv39Valid pte then none
    else if pte.testBit 1 || pte.testBit 3 then
      if pte.testBit 4 && framePpn pte % 2^(9 * i) == 0 then
        some (4096 * framePpn pte + va.toNat % 2^(12 + 9 * i))
      else none
    else
      match i with
      | 0 => none
      | i+1 => sv39Walk m va i (4096 * framePpn pte)

/-- the physical address that user mode reaches through `va`, if any -/
def sv39User (m : Mem) (root : Nat) (va : Word) : Option Nat :=
  if canonical va then sv39Walk m va 2 root else none

/-! ## agreement with `virt_to_phys` -/

section entry
variable {e : Entry} (hv : sv39Valid e.toNat = true)
include hv

theorem lt_of_sv39Valid : e.toNat < 2^54 := by
  unfold sv39Valid at hv
  simp only [Bool.and_eq_true, decide_eq_true_eq] at hv
  exact hv.2

theorem isValid_of_sv39Valid : e.isValid = true := by
  unfold sv39Valid at hv
  simp only [Bool.and_eq_true] at hv
  rw [isValid_eq]
  exact hv.1.1

theorem isLeaf_of_sv39Valid : e.isLeaf = (e.toNat.testBit 1 || e.toNat.testBit 3) := by
  unfold sv39Valid at hv
  simp only [Bool.and_eq_true] at hv
  rw [isLeaf_eq]
  have h := hv.1.2
  show (e.toNat.testBit 1 || e.toNat.testBit 2 || e.toNat.testBit 3) = _
  -- W without R is excluded
  cases h1 : e.toNat.testBit 1 with
  | true => rfl
  | false =>
    cases h2 : e.toNat.testBit 2 with
    | false => rfl
    | true => rw [h1, h2] at h; exact absurd h (by decide)

theorem framePpn_eq : framePpn e.toNat = e.toNat / 2^10 := by
  have := lt_of_sv39Valid hv
  unfold framePpn
  exact Nat.mod_eq_of_lt (by omega)

theorem target_eq : e.target = 4096 * framePpn e.toNat := by
  have h := lt_of_sv39Valid hv
  unfold Entry.target
  rw [show 0x3ff#64 = lowMask 10 from rfl, BitVec.toNat_shiftLeft, toNat_and_not_lowMask (by omega),
    Nat.shiftLeft_eq, framePpn_eq hv]
  omega

theorem toNat_phys {i : Nat} (hi : i < 3) (hal : framePpn e.toNat % 2^(9 * i) = 0) (va : Word) :
    (e.phys i va).toNat = 4096 * framePpn e.toNat + va.toNat % 2^(12 + 9 * i) := by
  have h := lt_of_sv39Valid hv
  have he : 12 + i * 9 = 12 + 9 * i := by omega
  show ((_ &&& ~~~ lowMask (12 + i * 9)) ||| (_ &&& lowMask (12 + i * 9))).toNat = _
  rw [he, toNat_or_lowMask (by omega), BitVec.toNat_shiftLeft, Nat.shiftLeft_eq]
  rw [framePpn_eq hv] at hal ⊢
  congr 1
  have h4 : e.toNat * 2^2 % 2^64 = e.toNat * 4 := by omega
  have hp : 2^(12 + 9 * i) = 4 * (2^10 * 2^(9 * i)) := by rw [pow_add]; ring
  rw [h4, hp, Nat.mul_comm e.toNat 4, Nat.mul_div_mul_left _ _ (by norm_num : 0 < 4),
    ← Nat.div_div_eq_div_mul]
  have hd : 2^(9 * i) * (e.toNat / 2^10 / 2^(9 * i)) = e.toNat / 2^10 :=
    Nat.mul_div_cancel' (Nat.dvd_of_mod_eq_zero hal)
  calc 4 * (2^10 * 2^(9 * i)) * (e.toNat / 2^10 / 2^(9 * i))
      = 4096 * (2^(9 * i) * (e.toNat / 2^10 / 2^(9 * i))) := by ring
    _ = 4096 * (e.toNat / 2^10) := by rw [hd]

end entry

theorem slot_vpn (table : Nat) (va : Word) (i : Nat) :
    table + 8 * (va.toNat / 2^(12 + 9 * i) % 2^9) = slot table (vpn va i) := by
  unfold slot
  rw [val_vpn]

/-- the outcomes of a translation at level `i`: the leaf, or the table below -/
theorem sv39Walk_cases {m : Mem} {va : Word} {i table pa : Nat} (h : sv39Walk m va i table = some pa) :
    let e := entryAt m (slot table (vpn va i))
    sv39Valid e.toNat = true ∧
      ((e.isLeaf = true ∧ e.toNat.testBit 4 = true ∧ framePpn e.toNat % 2^(9 * i) = 0 ∧
          pa = 4096 * framePpn e.toNat + va.toNat % 2^(12 + 9 * i)) ∨
        (e.isLeaf = false ∧ ∃ k, i = k + 1 ∧ sv39Walk m va k e.target = some pa)) := by
  unfold sv39Walk at h
  simp only [slot_vpn] at h
  split at h
  · cases h
  · next hv =>
    have hv : sv39Valid (entryAt m (slot table (vpn va i))).toNat = true := by simpa using hv
    refine ⟨hv, ?_⟩
    rw [isLeaf_of_sv39Valid hv]
    split at h
    · next hl =>
      split at h
      · next hu =>
        simp only [Bool.and_eq_true, beq_iff_eq] at hu
        exact .inl ⟨hl, hu.1, hu.2, (Option.some.inj h).symm⟩
      · cases h
    · next hl =>
      refine .inr ⟨by simpa using hl, ?_⟩
      cases i with
      | zero => cases h
      | succ k =>
        refine ⟨k, rfl, ?_⟩
        rw [target_eq hv]
        exact h

theorem walk_of_sv39Walk {m : Mem} {va : Word} (i : Nat) : ∀ {table pa : Nat}, i < 3 →
    sv39Walk m va i table = some pa →
    walk m va i (slot table (vpn va i)) = none ∨
      ∃ w, walk m va i (slot table (vpn va i)) = some (some w) ∧ w.toNat = pa := by
  induction i with
  | zero =>
    intro table pa _ h
    obtain ⟨hv, ⟨hl, -, hal, rfl⟩ | ⟨-, k, hk, -⟩⟩ := sv39Walk_cases h
    · refine .inr ⟨_, ?_, toNat_phys hv (by omega) hal va⟩
      unfold walk
      simp [Entry.isInvalid, isValid_of_sv39Valid hv, hl]
    · exact absurd hk (by omega)
  | succ i ih =>
    intro table pa hi h
    obtain ⟨hv, ⟨hl, -, hal, rfl⟩ | ⟨hl, k, hk, hw⟩⟩ := sv39Walk_cases h
    · refine .inr ⟨_, ?_, toNat_phys hv hi hal va⟩
      unfold walk
      simp [Entry.isInvalid, isValid_of_sv39Valid hv, hl]
    · obtain rfl : i = k := by omega
      unfold walk
      simp only [Entry.isInvalid, isValid_of_sv39Valid hv, hl, Bool.not_true, Bool.false_eq_true, if_false]
      split
      · exact .inl rfl
      · exact ih (by omega) hw

/-- where the hardware translates, `virt_to_phys` gives the same address (or stops at a null table) -/
theorem sv39User_virtToPhys {m : Mem} {root pa : Nat} {va : Word} (h : sv39User m root va = some pa) :
    virtToPhys m root va = none ∨ ∃ w, virtToPhys m root va = some (some w) ∧ w.toNat = pa := by
  unfold sv39User at h
  split at h
  · exact walk_of_sv39Walk 2 (by omega) h
  · cases h

/-! ## within a page -/

/-- adding within a page does not leave a block of whole pages -/
theorem add_in_page {n k : Nat} (h : n % 4096 + k < 4096) (c : Nat) :
    (n + k) / (4096 * c) = n / (4096 * c) ∧ (n + k) % (4096 * c) = n % (4096 * c) + k := by
  have hd : (n + k) / 4096 = n / 4096 := by omega
  have hm : (n + k) % 4096 = n % 4096 + k := by omega
  constructor
  · rw [← Nat.div_div_eq_div_mul, ← Nat.div_div_eq_div_mul, hd]
  · rw [Nat.mod_mul, Nat.mod_mul, hd, hm]
    omega

theorem two_pow_page (i : Nat) : 2^(12 + 9 * i) = 4096 * 2^(9 * i) := by
  rw [pow_add]
  norm_num

theorem sv39Walk_add {m : Mem} {va va' : Word} {k : Nat} (hk : va'.toNat = va.toNat + k)
    (hpage : va.toNat % 4096 + k < 4096) (i : Nat) : ∀ {table pa : Nat},
    sv39Walk m va i table = some pa → sv39Walk m va' i table = some (pa + k) := by
  induction i using Nat.strong_induction_on with
  | _ i ih =>
    intro table pa h
    have hd := add_in_page hpage (2^(9 * i))
    rw [← two_pow_page] at hd
    unfold sv39Walk at h ⊢
    rw [hk, hd.1, hd.2]
    dsimp only at h ⊢
    split at h
    · cases h
    · rename_i hv
      rw [if_neg hv]
      split at h
      · rename_i hl
        rw [if_pos hl]
        split at h
        · rename_i hu
          cases h
          rw [if_pos hu, Nat.add_assoc]
        · cases h
      · rename_i hl
        rw [if_neg hl]
        cases i with
        | zero => cases h
        | succ i => exact ih i (Nat.lt_succ_self i) h

theorem sv39User_add {m : Mem} {root pa : Nat} {va : Word} {k : Nat}
    (hpage : va.toNat % 4096 + k < 4096) (h : sv39User m root va = some pa) :
    sv39User m root (va + BitVec.ofNat 64 k) = some (pa + k) := by
  have hlt := va.isLt
  have hk : (va + BitVec.ofNat 64 k).toNat = va.toNat + k := by
    rw [BitVec.toNat_add, BitVec.toNat_ofNat]
    omega
  unfold sv39User at h ⊢
  have hc : canonical (va + BitVec.ofNat 64 k) = canonical va := by
    unfold canonical
    rw [hk]
    have h1 : va.toNat + k < 2^38 ↔ va.toNat < 2^38 := by omega
    have h2 : 2^64 - 2^38 ≤ va.toNat + k ↔ 2^64 - 2^38 ≤ va.toNat := by omega
    rw [decide_eq_decide.mpr h1, decide_eq_decide.mpr h2]
  rw [hc]
  split at h
  · rw [if_pos (by assumption)]
    exact sv39Walk_add hk hpage 2 h
  · cases h

end Citron.Paging
