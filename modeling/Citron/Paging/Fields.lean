import Citron.Paging.Table

/-!
# The fields of an entry

`Entry::bits` of `src/arch/riscv64/paging.rs` on the entries that `map` writes.  In `entry & self.val() >> k` the mask is
shifted and not what is left of the entry, so every field is read at the bottom of the entry: `V` is right, and another
field as far as its bits happen to be those at the bottom.

* `Entry.field`          the value of a field, with its place and its width;
* `field_leafEntry`      it is what `map` has stored there;
* `bits_eq`              what `bits` returns instead;
* `field_decodes_iff`    for which addresses and flags it is the same.
-/

namespace Citron.Paging
open Word

/-! ## places -/

namespace EntryBits

/-- the lowest bit of the field -/
def pos : EntryBits → Nat
  | V => 0
  | R => 1
  | W => 2
  | X => 3
  | U => 4
  | G => 5
  | A => 6
  | D => 7
  | RSW => 8
  | PPN_0 => 10
  | PPN_1 => 19
  | PPN_2 => 28

def width : EntryBits → Nat
  | RSW => 2
  | PPN_0 => 9
  | PPN_1 => 9
  | PPN_2 => 26
  | _ => 1

theorem val_eq (eb : EntryBits) : eb.val = lowMask eb.width <<< eb.pos := by
  cases eb <;> rfl

theorem pos_add_width_le (eb : EntryBits) : eb.pos + eb.width ≤ 54 := by
  cases eb <;> decide

theorem width_pos (eb : EntryBits) : 0 < eb.width := by
  cases eb <;> decide

/-- every bit is in a field -/
theorem exists_pos_le {i : Nat} (h0 : 0 < i) (hi : i < 54) :
    ∃ eb : EntryBits, 0 < eb.pos ∧ eb.pos ≤ i ∧ i < eb.pos + eb.width := by
  by_cases h28 : 28 ≤ i
  · exact ⟨PPN_2, by decide, h28, hi⟩
  by_cases h19 : 19 ≤ i
  · exact ⟨PPN_1, by decide, h19, Nat.not_le.mp h28⟩
  by_cases h10 : 10 ≤ i
  · exact ⟨PPN_0, by decide, h10, Nat.not_le.mp h19⟩
  by_cases h8 : 8 ≤ i
  · exact ⟨RSW, by decide, h8, Nat.not_le.mp h10⟩
  have hflag : i ∈ [R, W, X, U, G, A, D].map pos := by
    show i ∈ [1, 2, 3, 4, 5, 6, 7]
    simp only [List.mem_cons, List.not_mem_nil, or_false]
    omega
  obtain ⟨eb, -, rfl⟩ := List.mem_map.mp hflag
  exact ⟨eb, h0, le_rfl, Nat.lt_add_of_pos_right eb.width_pos⟩

end EntryBits

namespace Entry

def bits (e : Entry) (eb : EntryBits) : Word := eb.getField e

/-- `(entry & mask) >> position` -/
def field (e : Entry) (eb : EntryBits) : Word := (e &&& eb.val) >>> eb.pos

end Entry

section
variable (e : Entry) (eb : EntryBits)

theorem getLsbD_field (i : Nat) : (e.field eb).getLsbD i = (e.getLsbD (eb.pos + i) && decide (i < eb.width)) := by
  have hle := eb.pos_add_width_le
  unfold Entry.field
  rw [EntryBits.val_eq, BitVec.getLsbD_ushiftRight, BitVec.getLsbD_and, BitVec.getLsbD_shiftLeft,
    getLsbD_lowMask (by omega), Nat.add_sub_cancel_left, decide_eq_false (Nat.not_lt.mpr (Nat.le_add_right eb.pos i)),
    Bool.not_false, Bool.and_true]
  by_cases hi : i < eb.width
  · rw [decide_eq_true (show eb.pos + i < 64 by omega), Bool.true_and]
  · rw [decide_eq_false hi, Bool.and_false]

/-- the low bits of the entry, as many as the field has -/
theorem bits_eq : e.bits eb = e &&& lowMask eb.width := by
  cases eb <;> rfl

theorem getLsbD_bits (i : Nat) : (e.bits eb).getLsbD i = (e.getLsbD i && decide (i < eb.width)) := by
  have hle := eb.pos_add_width_le
  rw [bits_eq, BitVec.getLsbD_and, getLsbD_lowMask (by omega)]

/-- the field is read right if its bits are those at the bottom of the entry -/
theorem bits_eq_field_iff : e.bits eb = e.field eb ↔ ∀ i < eb.width, e.getLsbD (eb.pos + i) = e.getLsbD i := by
  constructor
  · intro h i hi
    have hbit := congrArg (BitVec.getLsbD · i) h
    rw [getLsbD_bits, getLsbD_field, decide_eq_true hi, Bool.and_true, Bool.and_true] at hbit
    exact hbit.symm
  · intro h
    apply BitVec.eq_of_getLsbD_eq
    intro i _
    rw [getLsbD_bits, getLsbD_field]
    by_cases hi : i < eb.width
    · rw [h i hi]
    · rw [decide_eq_false hi, Bool.and_false, Bool.and_false]

end

/-! ## the entries of `map` -/

/-- what `map` stores in the field: parts of the address, or of the flags -/
def stored (paddr bits : Word) : EntryBits → Word
  | .V => 1#64
  | .PPN_0 => (paddr >>> 12) &&& 0x1ff#64
  | .PPN_1 => (paddr >>> 21) &&& 0x1ff#64
  | .PPN_2 => (paddr >>> 30) &&& 0x3ffffff#64
  | eb => (bits >>> eb.pos) &&& lowMask eb.width

section
variable {paddr bits : Word} (hp : paddr.toNat < 2^56) (hb : bits.toNat < 2^10)

/-- the flags are at the bottom, with `V` -/
theorem getLsbD_leafEntry_low {i : Nat} (h : i < 10) :
    (leafEntry paddr bits).getLsbD i = (bits.getLsbD i || decide (i = 0)) := by
  unfold leafEntry
  simp only [BitVec.getLsbD_or, BitVec.getLsbD_shiftLeft, getLsbD_V]
  simp [h, show i < 28 by omega, show i < 19 by omega]

theorem getLsbD_leafEntry_zero : (leafEntry paddr bits).getLsbD 0 = true := by
  rw [getLsbD_leafEntry_low (by decide)]
  exact Bool.or_true _

theorem getLsbD_leafEntry_flag {i : Nat} (h0 : 0 < i) (h : i < 10) :
    (leafEntry paddr bits).getLsbD i = bits.getLsbD i := by
  rw [getLsbD_leafEntry_low h, decide_eq_false (Nat.pos_iff_ne_zero.mp h0), Bool.or_false]

theorem field_flags {eb : EntryBits} (h0 : 0 < eb.pos) (h10 : eb.pos + eb.width ≤ 10) :
    (leafEntry paddr bits).field eb = (bits >>> eb.pos) &&& lowMask eb.width := by
  apply BitVec.eq_of_getLsbD_eq
  intro i _
  rw [getLsbD_field, BitVec.getLsbD_and, BitVec.getLsbD_ushiftRight, getLsbD_lowMask (by omega)]
  by_cases hi : i < eb.width
  · rw [getLsbD_leafEntry_flag (by omega) (by omega)]
  · rw [decide_eq_false hi, Bool.and_false, Bool.and_false]

include hp hb

theorem field_address {eb : EntryBits} (h10 : 10 ≤ eb.pos) :
    (leafEntry paddr bits).field eb = (paddr >>> (2 + eb.pos)) &&& lowMask eb.width := by
  have hle := eb.pos_add_width_le
  apply BitVec.eq_of_getLsbD_eq
  intro i _
  rw [getLsbD_field, BitVec.getLsbD_and, BitVec.getLsbD_ushiftRight, getLsbD_lowMask (by omega),
    getLsbD_leafEntry hp hb (by omega), Nat.add_assoc]

/-- **The field holds what `map` has stored in it.** -/
theorem field_leafEntry (eb : EntryBits) : (leafEntry paddr bits).field eb = stored paddr bits eb := by
  cases eb with
  | V =>
    apply BitVec.eq_of_getLsbD_eq
    intro i _
    show _ = (lowMask 1).getLsbD i
    rw [getLsbD_field, getLsbD_lowMask (by omega)]
    by_cases hi : i < EntryBits.V.width
    · obtain rfl : i = 0 := Nat.lt_one_iff.mp hi
      show ((leafEntry paddr bits).getLsbD 0 && true) = true
      rw [getLsbD_leafEntry_zero, Bool.and_true]
    · rw [decide_eq_false hi, Bool.and_false]
      exact (decide_eq_false hi).symm
  | PPN_0 => exact field_address hp hb (by decide)
  | PPN_1 => exact field_address hp hb (by decide)
  | PPN_2 => exact field_address hp hb (by decide)
  | _ => exact field_flags (by decide) (by decide)

end

/-! ## reading -/

/-- `bits` returns the field, which is what `map` has stored -/
def Decodes (paddr bits : Word) (eb : EntryBits) : Prop :=
  (leafEntry paddr bits).bits eb = (leafEntry paddr bits).field eb ∧
    (leafEntry paddr bits).bits eb = stored paddr bits eb

/-- the bits of the field are those at the bottom of the entry: `V` first, then the flags, then the frame number -/
def Decodable (paddr bits : Word) : EntryBits → Prop
  | .V => True
  | .RSW => bits.getLsbD 8 = true ∧ bits.getLsbD 9 = bits.getLsbD 1
  | .PPN_0 => (paddr >>> 12) &&& 0x1ff#64 = (bits ||| 1#64) &&& 0x1ff#64
  | .PPN_1 => (paddr >>> 21) &&& 0x1ff#64 = (bits ||| 1#64) &&& 0x1ff#64
  | .PPN_2 => (paddr >>> 30) &&& 0x3ffffff#64 = (((paddr >>> 12) &&& 0xffff#64) <<< 10) ||| (bits ||| 1#64)
  | eb => bits.getLsbD eb.pos = true

section
variable {paddr bits : Word}

theorem bits_leafEntry_low {eb : EntryBits} (h : eb.width ≤ 10) :
    (leafEntry paddr bits).bits eb = (bits ||| 1#64) &&& lowMask eb.width := by
  apply BitVec.eq_of_getLsbD_eq
  intro i _
  rw [getLsbD_bits, BitVec.getLsbD_and, BitVec.getLsbD_or, getLsbD_lowMask (by omega)]
  by_cases hi : i < eb.width
  · rw [getLsbD_leafEntry_low (by omega)]
    congr 2
    exact (getLsbD_V i).symm
  · rw [decide_eq_false hi, Bool.and_false, Bool.and_false]

/-- a flag is read as `V`, which is on -/
theorem bits_flag {eb : EntryBits} (h : eb.width = 1) : (leafEntry paddr bits).bits eb = 1#64 := by
  rw [bits_leafEntry_low (by omega), h]
  apply BitVec.eq_of_getLsbD_eq
  intro i _
  show _ = (lowMask 1).getLsbD i
  rw [BitVec.getLsbD_and, BitVec.getLsbD_or, getLsbD_lowMask (by omega)]
  by_cases hi : i < 1
  · obtain rfl : i = 0 := Nat.lt_one_iff.mp hi
    simp
  · rw [decide_eq_false hi, Bool.and_false]

theorem flag_eq_one_iff (x : Word) (i : Nat) : 1#64 = (x >>> i) &&& lowMask 1 ↔ x.getLsbD i = true := by
  show 1#64 = (x >>> i) &&& 1#64 ↔ _
  rw [BitVec.and_one_eq_setWidth_ofBool_getLsbD, BitVec.getLsbD_ushiftRight, Nat.add_zero]
  cases x.getLsbD i <;> decide

section
variable (hp : paddr.toNat < 2^56) (hb : bits.toNat < 2^10)
include hp hb

theorem bits_PPN_2 : (leafEntry paddr bits).bits .PPN_2
    = (((paddr >>> 12) &&& 0xffff#64) <<< 10) ||| (bits ||| 1#64) := by
  apply BitVec.eq_of_getLsbD_eq
  intro i hi
  rw [getLsbD_bits, BitVec.getLsbD_or, BitVec.getLsbD_or, BitVec.getLsbD_shiftLeft, BitVec.getLsbD_and,
    BitVec.getLsbD_ushiftRight, show 0xffff#64 = lowMask 16 from rfl, getLsbD_lowMask (by omega),
    show (1#64).getLsbD i = decide (i = 0) from getLsbD_V i]
  show (_ && decide (i < 26)) = _
  by_cases h10 : i < 10
  · rw [getLsbD_leafEntry_low h10]
    simp [h10, show i < 26 by omega]
  · have hbit : bits.getLsbD i = false := getLsbD_of_lt hb (by omega)
    rw [getLsbD_leafEntry hp hb (by omega), hbit, show 12 + (i - 10) = 2 + i by omega]
    have hlt : i - 10 < 16 ↔ i < 26 := by omega
    simp [h10, hi, hlt, show ¬ i = 0 by omega]

theorem decodes_iff_stored (eb : EntryBits) :
    Decodes paddr bits eb ↔ (leafEntry paddr bits).bits eb = stored paddr bits eb := by
  unfold Decodes
  rw [field_leafEntry hp hb, and_self]

theorem decodes_flag_iff {eb : EntryBits} (hw : eb.width = 1)
    (hs : stored paddr bits eb = (bits >>> eb.pos) &&& lowMask 1) :
    Decodes paddr bits eb ↔ bits.getLsbD eb.pos = true := by
  rw [decodes_iff_stored hp hb, bits_flag hw, hs]
  exact flag_eq_one_iff bits eb.pos

theorem decodes_RSW_iff :
    Decodes paddr bits .RSW ↔ bits.getLsbD 8 = true ∧ bits.getLsbD 9 = bits.getLsbD 1 := by
  have h : Decodes paddr bits .RSW ↔ (leafEntry paddr bits).bits .RSW = (leafEntry paddr bits).field .RSW := by
    rw [decodes_iff_stored hp hb, field_leafEntry hp hb]
  have h8 : (leafEntry paddr bits).getLsbD 8 = bits.getLsbD 8 := getLsbD_leafEntry_flag (by decide) (by decide)
  have h9 : (leafEntry paddr bits).getLsbD 9 = bits.getLsbD 9 := getLsbD_leafEntry_flag (by decide) (by decide)
  have h1 : (leafEntry paddr bits).getLsbD 1 = bits.getLsbD 1 := getLsbD_leafEntry_flag (by decide) (by decide)
  have h0 : (leafEntry paddr bits).getLsbD 0 = true := getLsbD_leafEntry_zero
  rw [h, bits_eq_field_iff]
  constructor
  · intro hbits
    exact ⟨h8.symm.trans ((hbits 0 (by decide)).trans h0), h9.symm.trans ((hbits 1 (by decide)).trans h1)⟩
  · intro ⟨hbit, hsame⟩ i hi
    obtain rfl | rfl : i = 0 ∨ i = 1 := by
      change i < 2 at hi
      omega
    · exact h8.trans (hbit.trans h0.symm)
    · exact h9.trans (hsame.trans h1.symm)

theorem decodes_iff (eb : EntryBits) : Decodes paddr bits eb ↔ Decodable paddr bits eb := by
  cases eb with
  | V => exact iff_of_true ((decodes_iff_stored hp hb .V).mpr (bits_flag rfl)) trivial
  | RSW => exact decodes_RSW_iff hp hb
  | PPN_0 =>
    rw [decodes_iff_stored hp hb, bits_leafEntry_low (by decide)]
    exact eq_comm
  | PPN_1 =>
    rw [decodes_iff_stored hp hb, bits_leafEntry_low (by decide)]
    exact eq_comm
  | PPN_2 =>
    rw [decodes_iff_stored hp hb, bits_PPN_2 hp hb]
    exact eq_comm
  | _ => exact decodes_flag_iff hp hb rfl rfl

/-- all fields are read right of one entry only, whose bits are all on -/
theorem decodes_all_iff : (∀ eb, Decodes paddr bits eb) ↔ leafEntry paddr bits = lowMask 54 := by
  have hbits : (∀ eb, Decodes paddr bits eb) ↔ ∀ eb : EntryBits, ∀ i < eb.width,
      (leafEntry paddr bits).getLsbD (eb.pos + i) = (leafEntry paddr bits).getLsbD i := by
    refine forall_congr' fun eb => ?_
    rw [decodes_iff_stored hp hb, ← field_leafEntry hp hb, bits_eq_field_iff]
  rw [hbits]
  constructor
  · intro h
    -- every bit is that of a lower one, down to `V`
    have hon : ∀ i < 54, (leafEntry paddr bits).getLsbD i = true := by
      intro i
      induction i using Nat.strong_induction_on with
      | _ i ih =>
        intro hi
        by_cases h0 : i = 0
        · rw [h0]
          exact getLsbD_leafEntry_zero
        obtain ⟨eb, hpos, hle, hlt⟩ := EntryBits.exists_pos_le (Nat.pos_of_ne_zero h0) hi
        have hbit := h eb (i - eb.pos) (by omega)
        rw [Nat.add_sub_cancel' hle] at hbit
        exact hbit.trans (ih _ (by omega) (by omega))
    apply BitVec.eq_of_getLsbD_eq
    intro i _
    rw [getLsbD_lowMask (by omega)]
    by_cases hi : i < 54
    · rw [hon i hi, decide_eq_true hi]
    · rw [getLsbD_leafEntry hp hb (by omega), decide_eq_false hi]
      exact getLsbD_of_lt hp (by omega)
  · intro h eb i hi
    have hle := eb.pos_add_width_le
    rw [h, getLsbD_lowMask (by omega), getLsbD_lowMask (by omega), decide_eq_true (by omega), decide_eq_true (by omega)]

end

/-- the last thing that `map` writes is the entry of the mapping -/
theorem map_writes {A : PageAllocator} {root level : Nat} {vaddr : Word} {s s' : Heap}
    (h : map A root vaddr paddr bits level s = some s') : ∃ v, ∃ s₁ : Heap, s' = s₁.write v (leafEntry paddr bits) := by
  unfold map at h
  split at h
  · obtain ⟨⟨v, s₁⟩, -, rfl⟩ := Option.map_eq_some_iff.mp h
    exact ⟨v, s₁, rfl⟩
  · cases h

end

/-- **`bits` on the entries that `map` writes**: a field is decoded exactly if its bits are those at the bottom of the
entry. -/
theorem field_decodes_iff (paddr bits : Word) (hp : paddr.toNat < 2^56) (hb : bits.toNat < 2^10) :
    (∀ (A : PageAllocator) (root : Nat) (vaddr : Word) (level : Nat) (s s' : Heap),
      map A root vaddr paddr bits level s = some s' →
        ∃ v, ∃ s₁ : Heap, s' = s₁.write v (leafEntry paddr bits)) ∧
    ∀ eb, Decodes paddr bits eb ↔ Decodable paddr bits eb :=
  ⟨fun _ _ _ _ _ _ h => map_writes h, decodes_iff hp hb⟩

/-- of a page of memory that is readable and writable, `W` is read right and `X` is not -/
theorem field_decodes_iff_example :
    Decodes 0x80000000#64 (EntryBits.R.val ||| EntryBits.W.val) .W ∧
      ¬ Decodes 0x80000000#64 (EntryBits.R.val ||| EntryBits.W.val) .X := by
  obtain ⟨-, hiff⟩ := field_decodes_iff 0x80000000#64 (EntryBits.R.val ||| EntryBits.W.val) (by decide) (by decide)
  exact ⟨(hiff .W).mpr rfl, fun h => Bool.false_ne_true ((hiff .X).mp h)⟩

/-- its `X` is read as 1 -/
theorem fields_misread : ¬ ∀ paddr bits : Word, paddr.toNat < 2^56 → bits.toNat < 2^10 → bits &&& 0xe#64 ≠ 0#64 →
    ∀ eb, Decodes paddr bits eb := by
  intro h
  obtain ⟨hx, -⟩ := h 0x80000000#64 (EntryBits.R.val ||| EntryBits.W.val) (by decide) (by decide) (by decide) .X
  exact absurd hx (by decide)

end Citron.Paging
