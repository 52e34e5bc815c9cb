import Citron.Lib.Word
import Mathlib.Data.Nat.Bitwise

/-!
# Page-table entries

`src/arch/riscv64/paging.rs`, the 64-bit (Sv39) variant: the fields of an entry, the words that `map`
stores and what `virt_to_phys` reads out of them.

* `target_branch`       a branch entry leads to the page it was made for, whatever its flags;
* `isLeaf_leafEntry`    a mapping is a valid leaf;
* `frame_leafEntry`     and its frame is the physical address it was made for.
-/

namespace Citron.Paging
open Word

def pageSize : Nat := 4096

def levels : Nat := 3

inductive EntryBits where
  | V
  | R
  | W
  | X
  | U
  | G
  | A
  | D
  | RSW
  | PPN_0
  | PPN_1
  | PPN_2
deriving DecidableEq, Repr

namespace EntryBits

def val : EntryBits → Word
  | V => 1#64 <<< 0
  | R => 1#64 <<< 1
  | W => 1#64 <<< 2
  | X => 1#64 <<< 3
  | U => 1#64 <<< 4
  | G => 1#64 <<< 5
  | A => 1#64 <<< 6
  | D => 1#64 <<< 7
  | RSW => 0x3#64 <<< 8
  | PPN_0 => 0x1ff#64 <<< 10
  | PPN_1 => 0x1ff#64 <<< 19
  | PPN_2 => 0x3ffffff#64 <<< 28

-- `entry & self.val() >> k`: the shift binds tighter than the `&`
def getField (eb : EntryBits) (entry : Word) : Word :=
  match eb with
  | V => entry &&& (val V >>> 0)
  | R => entry &&& (val R >>> 1)
  | W => entry &&& (val W >>> 2)
  | X => entry &&& (val X >>> 3)
  | U => entry &&& (val U >>> 4)
  | G => entry &&& (val G >>> 5)
  | A => entry &&& (val A >>> 6)
  | D => entry &&& (val D >>> 7)
  | RSW => entry &&& (val RSW >>> 8)
  | PPN_0 => entry &&& (val PPN_0 >>> 10)
  | PPN_1 => entry &&& (val PPN_1 >>> 19)
  | PPN_2 => entry &&& (val PPN_2 >>> 28)

end EntryBits

abbrev Entry := Word

namespace Entry

def isValid (e : Entry) : Bool := EntryBits.V.getField e != 0#64

def isInvalid (e : Entry) : Bool := !e.isValid

def isLeaf (e : Entry) : Bool := e &&& 0xe#64 != 0#64

def getFlags (e : Entry) : Word := e &&& 0x3ff#64

/-- the table that a branch entry points to, `(entry & !0x3ff) << 2` -/
def target (e : Entry) : Nat := ((e &&& ~~~ 0x3ff#64) <<< 2).toNat

/-- the physical address of `vaddr` under a leaf at level `i` -/
def phys (e : Entry) (i : Nat) (vaddr : Word) : Word :=
  let offMask := (1#64 <<< (12 + i * 9)) - 1#64
  ((e <<< 2) &&& ~~~ offMask) ||| (vaddr &&& offMask)

end Entry

/-- the entry of a table that `map` has made at `page` -/
def tableEntry (page : Nat) : Entry := (BitVec.ofNat 64 page >>> 2) ||| EntryBits.V.val

/-- the entry of a mapping -/
def leafEntry (paddr bits : Word) : Entry :=
  let ppn0 := (paddr >>> 12) &&& 0x1ff#64
  let ppn1 := (paddr >>> 21) &&& 0x1ff#64
  let ppn2 := (paddr >>> 30) &&& 0x3ffffff#64
  (ppn2 <<< 28) ||| (ppn1 <<< 19) ||| (ppn0 <<< 10) ||| bits ||| EntryBits.V.val

def vpn (vaddr : Word) (i : Nat) : Fin 512 :=
  ⟨((vaddr >>> (12 + 9 * i)) &&& 0x1ff#64).toNat, by
    rw [show 0x1ff#64 = lowMask 9 from rfl, toNat_and_lowMask (by omega)]
    exact Nat.mod_lt _ (by norm_num)⟩

/-! ## bits -/

theorem val_vpn (va : Word) (i : Nat) : (vpn va i).val = va.toNat / 2^(12 + 9 * i) % 2^9 := by
  show ((va >>> (12 + 9 * i)) &&& lowMask 9).toNat = _
  rw [toNat_and_lowMask (by omega), BitVec.toNat_ushiftRight, Nat.shiftRight_eq_div_pow]

theorem getLsbD_V (i : Nat) : (EntryBits.V.val).getLsbD i = decide (i = 0) := by
  show (1#64).getLsbD i = _
  simp [BitVec.getLsbD_one]

theorem isValid_eq (e : Entry) : e.isValid = e.getLsbD 0 := by
  show (e &&& 1#64 != 0#64) = e.getLsbD 0
  rw [BitVec.and_one_eq_setWidth_ofBool_getLsbD]
  cases e.getLsbD 0 <;> rfl

theorem isLeaf_eq (e : Entry) : e.isLeaf = (e.getLsbD 1 || e.getLsbD 2 || e.getLsbD 3) := by
  have h : e.isLeaf = false ↔ (e.getLsbD 1 || e.getLsbD 2 || e.getLsbD 3) = false := by
    unfold Entry.isLeaf
    rw [bne_eq_false_iff_eq]
    constructor
    · intro h
      have hb : ∀ i, (0xe#64).getLsbD i = true → e.getLsbD i = false := by
        intro i hi
        have he := congrArg (BitVec.getLsbD · i) h
        rw [BitVec.getLsbD_and, hi, Bool.and_true, BitVec.getLsbD_zero] at he
        exact he
      rw [hb 1 rfl, hb 2 rfl, hb 3 rfl]
      rfl
    · intro h
      simp only [Bool.or_eq_false_iff] at h
      apply BitVec.eq_of_getLsbD_eq
      intro i _
      rw [BitVec.getLsbD_and, BitVec.getLsbD_zero]
      rcases Nat.lt_or_ge i 4 with h4 | h4
      · obtain rfl | rfl | rfl | rfl : i = 0 ∨ i = 1 ∨ i = 2 ∨ i = 3 := by omega
        · exact Bool.and_false _
        · rw [h.1.1, Bool.false_and]
        · rw [h.1.2, Bool.false_and]
        · rw [h.2, Bool.false_and]
      · have : (0xe#64).getLsbD i = false := getLsbD_of_lt (k := 4) (by decide) h4
        rw [this, Bool.and_false]
  cases hl : e.isLeaf with
  | false => rw [h.mp hl]
  | true =>
    cases hr : (e.getLsbD 1 || e.getLsbD 2 || e.getLsbD 3) with
    | false => exact absurd (h.mpr hr) (by rw [hl]; decide)
    | true => rfl

section flags
variable (e : Entry)

theorem getLsbD_getFlags (i : Nat) : e.getFlags.getLsbD i = (e.getLsbD i && decide (i < 10)) := by
  show (e &&& lowMask 10).getLsbD i = _
  rw [BitVec.getLsbD_and, getLsbD_lowMask (by omega)]

theorem getFlags_lt : e.getFlags.toNat < 2^10 := by
  show (e &&& 0x3ff#64).toNat < 2^10
  rw [BitVec.toNat_and]
  exact Nat.lt_of_le_of_lt Nat.and_le_right (by decide)

theorem isValid_getFlags : Entry.isValid e.getFlags = e.isValid := by
  rw [isValid_eq, isValid_eq, getLsbD_getFlags]
  simp

theorem isLeaf_getFlags : Entry.isLeaf e.getFlags = e.isLeaf := by
  rw [isLeaf_eq, isLeaf_eq, getLsbD_getFlags, getLsbD_getFlags, getLsbD_getFlags]
  simp

end flags

/-- the word is a valid leaf -/
def IsMapping (e : Entry) : Prop := e.isValid = true ∧ e.isLeaf = true

section tableEntry
variable {page : Nat} (ha : 4096 ∣ page) (hb : page < 2^56)
include ha hb

theorem getLsbD_page (i : Nat) :
    (BitVec.ofNat 64 page).getLsbD i = (decide (12 ≤ i) && page.testBit i) := by
  obtain ⟨k, rfl⟩ := ha
  have hk : 4096 * k < 2^64 := by omega
  show (BitVec.ofNat 64 (4096 * k)).toNat.testBit i = _
  rw [BitVec.toNat_ofNat, Nat.mod_eq_of_lt hk, show 4096 = 2^12 from rfl, Nat.testBit_two_pow_mul]
  cases decide (12 ≤ i) <;> rfl

theorem getLsbD_branch (flags : Word) (i : Nat) :
    ((BitVec.ofNat 64 page >>> 2) ||| flags).getLsbD i
      = (decide (10 ≤ i) && page.testBit (2 + i) || flags.getLsbD i) := by
  rw [BitVec.getLsbD_or, BitVec.getLsbD_ushiftRight, getLsbD_page ha hb]
  have h : 12 ≤ 2 + i ↔ 10 ≤ i := by omega
  rw [decide_eq_decide.mpr h]

/-- the page lies above the flags -/
theorem isValid_branch (flags : Word) :
    Entry.isValid ((BitVec.ofNat 64 page >>> 2) ||| flags) = Entry.isValid flags := by
  rw [isValid_eq, isValid_eq, getLsbD_branch ha hb]
  simp

theorem isLeaf_branch (flags : Word) :
    Entry.isLeaf ((BitVec.ofNat 64 page >>> 2) ||| flags) = Entry.isLeaf flags := by
  rw [isLeaf_eq, isLeaf_eq, getLsbD_branch ha hb, getLsbD_branch ha hb, getLsbD_branch ha hb]
  simp

theorem target_branch {flags : Word} (hf : flags.toNat < 2^10) :
    Entry.target ((BitVec.ofNat 64 page >>> 2) ||| flags) = page := by
  have h : (((BitVec.ofNat 64 page >>> 2) ||| flags) &&& ~~~ 0x3ff#64) <<< 2 = BitVec.ofNat 64 page := by
    apply BitVec.eq_of_getLsbD_eq
    intro i hi
    rw [BitVec.getLsbD_shiftLeft, BitVec.getLsbD_and, getLsbD_branch ha hb, getLsbD_page ha hb,
      show 0x3ff#64 = lowMask 10 from rfl, getLsbD_not_lowMask (by omega)]
    by_cases h12 : 12 ≤ i
    · have e : 2 + (i - 2) = i := by omega
      rw [e, getLsbD_of_lt hf (show 10 ≤ i - 2 by omega)]
      simp [hi, h12, show ¬ i < 2 by omega, show 10 ≤ i - 2 by omega, show i - 2 < 64 by omega,
        show ¬ i - 2 < 10 by omega]
    · simp [h12, show i - 2 < 10 by omega]
  unfold Entry.target
  rw [h, BitVec.toNat_ofNat]
  exact Nat.mod_eq_of_lt (by omega)

theorem isValid_tableEntry : (tableEntry page).isValid = true :=
  isValid_branch ha hb EntryBits.V.val

theorem isLeaf_tableEntry : (tableEntry page).isLeaf = false :=
  isLeaf_branch ha hb EntryBits.V.val

theorem target_tableEntry : (tableEntry page).target = page :=
  target_branch ha hb (by decide)

end tableEntry

/-- tables are page-aligned whatever the entry holds -/
theorem dvd_target (e : Entry) : 4096 ∣ e.target := by
  unfold Entry.target
  rw [show 0x3ff#64 = lowMask 10 from rfl, BitVec.toNat_shiftLeft, toNat_and_not_lowMask (by omega),
    Nat.shiftLeft_eq]
  exact (Nat.dvd_mod_iff (show 4096 ∣ 2^64 by norm_num)).mpr ⟨e.toNat / 2^10, by ring⟩

section leafEntry
variable {paddr bits : Word} (hp : paddr.toNat < 2^56) (hb : bits.toNat < 2^10)

theorem isMapping_leafEntry (h : bits &&& 0xe#64 ≠ 0#64) : IsMapping (leafEntry paddr bits) := by
  constructor
  · rw [isValid_eq]
    unfold leafEntry
    rw [BitVec.getLsbD_or, getLsbD_V]
    simp
  · unfold Entry.isLeaf
    rw [bne_iff_ne]
    intro h0
    apply h
    apply BitVec.eq_of_getLsbD_eq
    intro i hi
    have hi0 := congrArg (BitVec.getLsbD · i) h0
    rw [BitVec.getLsbD_zero, BitVec.getLsbD_and] at hi0 ⊢
    cases hx : (0xe#64).getLsbD i with
    | false => rw [Bool.and_false]
    | true =>
      rw [hx, Bool.and_true] at hi0
      unfold leafEntry at hi0
      simp only [BitVec.getLsbD_or, Bool.or_eq_false_iff] at hi0
      rw [hi0.1.2, Bool.false_and]

include hp hb

/-- above the flags, the entry of a mapping is the physical address without its page offset -/
theorem getLsbD_leafEntry {i : Nat} (h : 10 ≤ i) :
    (leafEntry paddr bits).getLsbD i = paddr.getLsbD (2 + i) := by
  have hbit : bits.getLsbD i = false := getLsbD_of_lt hb h
  unfold leafEntry
  rw [show 0x1ff#64 = lowMask 9 from rfl, show 0x3ffffff#64 = lowMask 26 from rfl]
  simp only [BitVec.getLsbD_or, BitVec.getLsbD_shiftLeft, BitVec.getLsbD_and,
    BitVec.getLsbD_ushiftRight, getLsbD_V, hbit]
  rw [getLsbD_lowMask (by omega), getLsbD_lowMask (by omega), getLsbD_lowMask (by omega)]
  have h0 : ¬ i = 0 := by omega
  by_cases h54 : 54 ≤ i
  · have : paddr.getLsbD (2 + i) = false := getLsbD_of_lt hp (by omega)
    simp [this, h0, show ¬ i - 28 < 26 by omega, show ¬ i - 19 < 9 by omega,
      show ¬ i - 10 < 9 by omega]
  · by_cases h28 : 28 ≤ i
    · simp [h0, show ¬ i < 28 by omega, show i - 28 < 26 by omega, show ¬ i - 19 < 9 by omega,
        show ¬ i - 10 < 9 by omega, show 30 + (i - 28) = 2 + i by omega, show i < 64 by omega]
    · by_cases h19 : 19 ≤ i
      · simp [h0, show i < 28 by omega, show i - 19 < 9 by omega, show ¬ i < 19 by omega,
          show ¬ i - 10 < 9 by omega, show 21 + (i - 19) = 2 + i by omega, show i < 64 by omega]
      · simp [h0, show i < 28 by omega, show i < 19 by omega, show i - 10 < 9 by omega,
          show ¬ i < 10 by omega, show 12 + (i - 10) = 2 + i by omega, show i < 64 by omega]

theorem phys_leafEntry {i : Nat} (hi : i < 3) (vaddr : Word) :
    (leafEntry paddr bits).phys i vaddr
      = (paddr &&& ~~~ lowMask (12 + 9 * i)) ||| (vaddr &&& lowMask (12 + 9 * i)) := by
  have e : 12 + i * 9 = 12 + 9 * i := by omega
  show (_ &&& ~~~ lowMask (12 + i * 9)) ||| (_ &&& lowMask (12 + i * 9)) = _
  rw [e]
  congr 1
  apply BitVec.eq_of_getLsbD_eq
  intro b hb64
  rw [BitVec.getLsbD_and, BitVec.getLsbD_and, getLsbD_not_lowMask (by omega), BitVec.getLsbD_shiftLeft]
  by_cases hlow : b < 12 + 9 * i
  · simp [hlow]
  · rw [getLsbD_leafEntry hp hb (by omega), show 2 + (b - 2) = b by omega]
    simp [hlow, hb64, show ¬ b < 2 by omega]

end leafEntry

end Citron.Paging
