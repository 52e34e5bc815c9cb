import Citron.Lib.Word
import Mathlib.Data.Set.BooleanAlgebra
import Mathlib.Data.Set.Function
import Mathlib.Order.CompletePartialOrder

/-!
# Byte memory and a block allocator

A memory gives a byte for every address.  Words are little-endian.  A heap is a memory with the list of
the live blocks (address and size, latest first); nothing is said of the bytes outside them.

* `Mem.readWord`, `Mem.writeWord`   words, and what they leave alone;
* `Mem.zero`, `Mem.blit`            filling and copying;
* `Allocator`                       an allocator by its specification: aligned, bounded, fresh;
* `Allocator.bump`                  the simplest one;
* `Heap.allocZeroed`                one allocation.
-/

abbrev Mem := Nat → UInt8

namespace Mem

/-! ## ranges -/

/-- the addresses of the block of `n` bytes at `a` -/
def range (a n : Nat) : Set Nat := {p | a ≤ p ∧ p < a + n}

theorem mem_range {a n p : Nat} : p ∈ range a n ↔ a ≤ p ∧ p < a + n := Iff.rfl

theorem range_mono {a n b k : Nat} (h1 : b ≤ a) (h2 : a + n ≤ b + k) : range a n ⊆ range b k := by
  intro p hp
  rw [mem_range] at hp ⊢
  omega

theorem disjoint_range {a n b k : Nat} (h : a + n ≤ b ∨ b + k ≤ a) :
    Disjoint (range a n) (range b k) := by
  rw [Set.disjoint_left]
  intro p hp hq
  rw [mem_range] at hp hq
  omega

/-! ## words -/

/-- the number whose little-endian digits are the `n` bytes at `a` -/
def readLE (m : Mem) (a : Nat) : Nat → Nat
  | 0 => 0
  | n+1 => (m a).toNat + 256 * readLE m (a+1) n

def readWord (m : Mem) (a : Nat) : Word := BitVec.ofNat 64 (readLE m a 8)

def writeWord (m : Mem) (a : Nat) (w : Word) : Mem := fun p =>
  if a ≤ p ∧ p < a + 8 then UInt8.ofNat (w.toNat / 256^(p - a)) else m p

theorem readLE_congr {m m' : Mem} (n : Nat) : ∀ a : Nat, Set.EqOn m m' (range a n) →
    readLE m a n = readLE m' a n := by
  induction n with
  | zero => intro a _; rfl
  | succ n ih =>
    intro a h
    have h0 : m a = m' a := h (mem_range.mpr (by omega))
    have h1 : readLE m (a+1) n = readLE m' (a+1) n :=
      ih (a+1) (h.mono (range_mono (by omega) (by omega)))
    show (m a).toNat + 256 * _ = (m' a).toNat + 256 * _
    rw [h0, h1]

theorem readWord_congr {m m' : Mem} {a : Nat} (h : Set.EqOn m m' (range a 8)) :
    readWord m a = readWord m' a := by
  unfold readWord
  rw [readLE_congr 8 a h]

theorem readLE_of_digits {m : Mem} (n : Nat) : ∀ (a v : Nat),
    (∀ k, k < n → m (a + k) = UInt8.ofNat (v / 256^k)) → readLE m a n = v % 256^n := by
  induction n with
  | zero => intro a v _; show 0 = v % 1; omega
  | succ n ih =>
    intro a v h
    have h0 : (m a).toNat = v % 256 := by
      have := h 0 (by omega)
      rw [Nat.add_zero, pow_zero, Nat.div_one] at this
      rw [this, UInt8.toNat_ofNat']
    have h1 : readLE m (a+1) n = v / 256 % 256^n := by
      apply ih
      intro k hk
      rw [Nat.div_div_eq_div_mul, ← pow_succ', ← h (k+1) (by omega)]
      congr 1
      omega
    show (m a).toNat + 256 * readLE m (a+1) n = _
    rw [h0, h1, pow_succ', Nat.mod_mul]

@[simp] theorem readWord_writeWord (m : Mem) (a : Nat) (w : Word) :
    readWord (writeWord m a w) a = w := by
  have h : readLE (writeWord m a w) a 8 = w.toNat % 256^8 := by
    apply readLE_of_digits
    intro k hk
    show (if _ then _ else _) = _
    rw [if_pos (by omega), Nat.add_sub_cancel_left]
  have hw : w.toNat < 256^8 := w.isLt
  unfold readWord
  rw [h, Nat.mod_eq_of_lt hw, BitVec.ofNat_toNat, BitVec.setWidth_eq]

theorem writeWord_of_notMem {m : Mem} {a p : Nat} {w : Word} (h : p ∉ range a 8) :
    writeWord m a w p = m p := if_neg h

theorem writeWord_eqOn {m : Mem} {a : Nat} {w : Word} {S : Set Nat} (h : Disjoint (range a 8) S) :
    Set.EqOn (writeWord m a w) m S :=
  fun _ hp => writeWord_of_notMem fun ha => Set.disjoint_left.mp h ha hp

/-! ## filling and copying -/

def zero (m : Mem) (a n : Nat) : Mem := fun p => if a ≤ p ∧ p < a + n then 0 else m p

theorem zero_of_mem {m : Mem} {a n p : Nat} (h : p ∈ range a n) : zero m a n p = 0 := if_pos h

theorem zero_of_notMem {m : Mem} {a n p : Nat} (h : p ∉ range a n) : zero m a n p = m p := if_neg h

theorem zero_eqOn {m : Mem} {a n : Nat} {S : Set Nat} (h : Disjoint (range a n) S) :
    Set.EqOn (zero m a n) m S :=
  fun _ hp => zero_of_notMem fun ha => Set.disjoint_left.mp h ha hp

theorem readLE_of_zero {m : Mem} (n : Nat) (a : Nat) (h : ∀ p ∈ range a n, m p = 0) :
    readLE m a n = 0 := by
  have h0 : ∀ k, k < n → m (a + k) = UInt8.ofNat (0 / 256^k) := by
    intro k hk
    rw [Nat.zero_div, h _ (mem_range.mpr (by omega))]
    rfl
  rw [readLE_of_digits n a 0 h0, Nat.zero_mod]

theorem readWord_of_zero {m : Mem} {a : Nat} (h : ∀ p ∈ range a 8, m p = 0) :
    readWord m a = 0#64 := by
  unfold readWord
  rw [readLE_of_zero 8 a h]

/-- the `n` bytes at `a` -/
def bytes (m : Mem) (a n : Nat) : List UInt8 := (List.range n).map fun i => m (a + i)

@[simp] theorem length_bytes (m : Mem) (a n : Nat) : (bytes m a n).length = n := by
  unfold bytes
  rw [List.length_map, List.length_range]

theorem bytes_getD {m : Mem} {a n i : Nat} (h : i < n) : (bytes m a n).getD i 0 = m (a + i) := by
  unfold bytes
  rw [List.getD_eq_getElem?_getD, List.getElem?_map, List.getElem?_range h]
  rfl

/-- the bytes `bs` copied to `a` -/
def blit (m : Mem) (a : Nat) (bs : List UInt8) : Mem := fun p =>
  if a ≤ p ∧ p < a + bs.length then bs.getD (p - a) 0 else m p

theorem blit_of_notMem {m : Mem} {a p : Nat} {bs : List UInt8} (h : p ∉ range a bs.length) :
    blit m a bs p = m p := if_neg h

theorem blit_add {m : Mem} {a i : Nat} {bs : List UInt8} (h : i < bs.length) :
    blit m a bs (a + i) = bs.getD i 0 := by
  show (if _ then _ else _) = _
  rw [if_pos (by omega), Nat.add_sub_cancel_left]

theorem bytes_blit (m : Mem) (a : Nat) (bs : List UInt8) : bytes (blit m a bs) a bs.length = bs := by
  unfold bytes
  apply List.ext_getElem
  · rw [List.length_map, List.length_range]
  · intro i h₁ h₂
    rw [List.getElem_map, List.getElem_range, blit_add h₂, List.getD_eq_getElem _ _ h₂]

theorem blit_eqOn {m : Mem} {a : Nat} {bs : List UInt8} {S : Set Nat}
    (h : Disjoint (range a bs.length) S) : Set.EqOn (blit m a bs) m S :=
  fun _ hp => blit_of_notMem fun ha => Set.disjoint_left.mp h ha hp

end Mem

/-! ## allocation -/

structure Heap where
  mem : Mem
  blocks : List (Nat × Nat)

/-- **An allocator.**  What it answers may depend on everything it has handed out so far; a block it
answers is aligned, not at `0`, ends below the limit and meets no live block. -/
structure Allocator (align limit : Nat) where
  next : List (Nat × Nat) → Nat → Option Nat
  aligned : ∀ bs n p, next bs n = some p → align ∣ p
  pos : ∀ bs n p, next bs n = some p → 0 < p
  bounded : ∀ bs n p, next bs n = some p → p + n ≤ limit
  fresh : ∀ bs n p, next bs n = some p → ∀ b ∈ bs, p + n ≤ b.1 ∨ b.1 + b.2 ≤ p

namespace Allocator

/-- the end of the highest live block -/
def top : List (Nat × Nat) → Nat
  | [] => 0
  | b :: bs => max (b.1 + b.2) (top bs)

theorem le_top {bs : List (Nat × Nat)} {b : Nat × Nat} (h : b ∈ bs) : b.1 + b.2 ≤ top bs := by
  induction bs with
  | nil => exact absurd h (List.not_mem_nil)
  | cons c bs ih =>
    show _ ≤ max _ _
    rcases List.mem_cons.mp h with rfl | h
    · exact le_max_left _ _
    · exact (ih h).trans (le_max_right _ _)

/-- the first aligned address above all live blocks -/
def above (align : Nat) (bs : List (Nat × Nat)) : Nat := align * (top bs / align + 1)

def bumpNext (align limit : Nat) (bs : List (Nat × Nat)) (n : Nat) : Option Nat :=
  if above align bs + n ≤ limit then some (above align bs) else none

theorem bumpNext_eq_some {align limit n p : Nat} {bs : List (Nat × Nat)}
    (h : bumpNext align limit bs n = some p) : p = above align bs ∧ p + n ≤ limit := by
  unfold bumpNext at h
  split at h
  · cases h
    exact ⟨rfl, ‹_›⟩
  · cases h

/-- the allocator that goes upwards -/
def bump (align limit : Nat) (ha : 0 < align) : Allocator align limit where
  next := bumpNext align limit
  aligned bs n p h := by
    rw [(bumpNext_eq_some h).1]
    exact Nat.dvd_mul_right _ _
  pos bs n p h := by
    rw [(bumpNext_eq_some h).1]
    exact Nat.mul_pos ha (Nat.succ_pos _)
  bounded bs n p h := (bumpNext_eq_some h).2
  fresh bs n p h b hb := by
    have h1 := le_top hb
    have h2 : top bs < p := by
      rw [(bumpNext_eq_some h).1]
      exact Nat.lt_mul_div_succ (top bs) ha
    omega

end Allocator

namespace Heap
variable {align limit : Nat}

/-- a block of `n` zero bytes, or the null pointer when there is none -/
def allocZeroed (A : Allocator align limit) (n : Nat) (s : Heap) : Nat × Heap :=
  match A.next s.blocks n with
  | some p => (p, ⟨s.mem.zero p n, (p, n) :: s.blocks⟩)
  | none => (0, s)

/-- a block of `n` bytes as they are, or the null pointer when there is none -/
def alloc (A : Allocator align limit) (n : Nat) (s : Heap) : Nat × Heap :=
  match A.next s.blocks n with
  | some p => (p, ⟨s.mem, (p, n) :: s.blocks⟩)
  | none => (0, s)

/-- the word `w` stored at `a` -/
def write (s : Heap) (a : Nat) (w : Word) : Heap := ⟨s.mem.writeWord a w, s.blocks⟩

/-- the bytes `bs` stored from `a` on -/
def blit (s : Heap) (a : Nat) (bs : List UInt8) : Heap := ⟨s.mem.blit a bs, s.blocks⟩

theorem allocZeroed_of_next {A : Allocator align limit} {n p : Nat} {s : Heap}
    (h : A.next s.blocks n = some p) :
    s.allocZeroed A n = (p, ⟨s.mem.zero p n, (p, n) :: s.blocks⟩) := by
  unfold allocZeroed
  rw [h]

theorem alloc_of_next {A : Allocator align limit} {n p : Nat} {s : Heap}
    (h : A.next s.blocks n = some p) : s.alloc A n = (p, ⟨s.mem, (p, n) :: s.blocks⟩) := by
  unfold alloc
  rw [h]

/-- the next `k` requests, each for one of the given sizes, are served -/
def Serves (A : Allocator align limit) (sizes : List Nat) : Nat → List (Nat × Nat) → Prop
  | 0, _ => True
  | k+1, bs => ∀ n ∈ sizes, ∃ p, A.next bs n = some p ∧ Serves A sizes k ((p, n) :: bs)

theorem Serves.mono {A : Allocator align limit} {sizes sizes' : List Nat} (hs : sizes' ⊆ sizes)
    {k' : Nat} : ∀ {k : Nat} {bs : List (Nat × Nat)}, k' ≤ k → Serves A sizes k bs →
      Serves A sizes' k' bs := by
  induction k' with
  | zero => intro k bs _ _; trivial
  | succ k' ih =>
    intro k bs hk h n hn
    obtain ⟨k, rfl⟩ : ∃ l, k = l + 1 := ⟨k - 1, by omega⟩
    obtain ⟨p, hp, h⟩ := h n (hs hn)
    exact ⟨p, hp, ih (Nat.le_of_succ_le_succ hk) h⟩

/-- the upward allocator serves as long as there is room -/
theorem serves_bump {ha : 0 < align} {sizes : List Nat} {n : Nat} (hn : ∀ k ∈ sizes, k ≤ n) (k : Nat) :
    ∀ {bs : List (Nat × Nat)}, Allocator.top bs + k * (align + n) ≤ limit →
      Serves (Allocator.bump align limit ha) sizes k bs := by
  induction k with
  | zero => intro bs _; trivial
  | succ k ih =>
    intro bs hb i hi
    have hi := hn i hi
    rw [Nat.succ_mul] at hb
    have habove : Allocator.above align bs ≤ Allocator.top bs + align := by
      have := Nat.mul_div_le (Allocator.top bs) align
      unfold Allocator.above
      rw [Nat.mul_succ]
      omega
    refine ⟨Allocator.above align bs, if_pos (by omega), ih ?_⟩
    show max _ _ + _ ≤ _
    have hmax : max (Allocator.above align bs + i) (Allocator.top bs) ≤ Allocator.top bs + (align + n) := by
      omega
    exact (Nat.add_le_add_right hmax _).trans (by omega)

end Heap
