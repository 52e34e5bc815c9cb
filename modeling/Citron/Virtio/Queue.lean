import Citron.Lib.Ring

/-!
# Virtqueues

`src/arch/riscv64/virtio.rs`, and what the three drivers do alike with a queue and with the table of its
free descriptors.  The 16-bit counters are natural numbers below `2^16`.
-/

namespace Citron.Virtio

def virtioRingSize : Nat := 128

/-- the value of a natural number as a `u16` -/
def u16 (n : Nat) : Nat := n % 2^16

theorem u16_add_one (n : Nat) : u16 (u16 n + 1) = u16 (n + 1) := by
  unfold u16
  omega

/-- a counter and its successor differ, also where it wraps -/
theorem u16_ne_succ (n : Nat) : u16 n ≠ u16 (n + 1) := by
  unfold u16
  omega

theorem u16_slot (n : Nat) : u16 n % virtioRingSize = n % virtioRingSize :=
  Ring.slot_eq (show virtioRingSize ∣ 2^16 from ⟨2^9, by decide⟩) n

def virtqDescFNext : Nat := 1
def virtqDescFWrite : Nat := 2

structure VirtqDesc where
  addr : Nat
  len : Nat
  flags : Nat
  next : Nat
deriving DecidableEq, Repr

structure VirtqUsedElem where
  id : Nat
  len : Nat
deriving DecidableEq, Repr

structure Virtqueue where
  desc : Nat → VirtqDesc
  availIdx : Nat
  availRing : Nat → Nat
  usedIdx : Nat
  usedRing : Nat → VirtqUsedElem

namespace Virtqueue

/-- a queue just allocated, all zero -/
def new : Virtqueue := ⟨fun _ => ⟨0, 0, 0, 0⟩, 0, fun _ => 0, 0, fun _ => ⟨0, 0⟩⟩

def writeDesc (q : Virtqueue) (i : Nat) (desc : VirtqDesc) : Virtqueue :=
  { q with desc := Function.update q.desc i desc }

/-- the driver makes a chain available: the next slot of the ring, then the index -/
def makeAvail (q : Virtqueue) (head : Nat) : Virtqueue :=
  { q with
    availRing := Function.update q.availRing (q.availIdx % virtioRingSize) head
    availIdx := u16 (q.availIdx + 1) }

/-- the device returns a chain -/
def putUsed (q : Virtqueue) (elem : VirtqUsedElem) : Virtqueue :=
  { q with
    usedRing := Function.update q.usedRing (q.usedIdx % virtioRingSize) elem
    usedIdx := u16 (q.usedIdx + 1) }

/-- the descriptors of a chain, of at most `n` -/
def chain (q : Virtqueue) : Nat → Nat → List Nat
  | 0, _ => []
  | n + 1, i => i :: if (q.desc i).flags.testBit 0 then q.chain n (q.desc i).next else []

end Virtqueue

/-! ## free descriptors -/

/-- `free_desc`: true if the descriptor is free -/
abbrev FreeDesc := Nat → Bool

/-- the first free descriptor; `none` is the panic when there is none -/
def findFreeDesc (free : FreeDesc) : Option (Nat × FreeDesc) :=
  ((List.range virtioRingSize).find? free).map fun i => (i, Function.update free i false)

def allocateDesc : Nat → List Nat → FreeDesc → Option (List Nat × FreeDesc)
  | 0, indexes, free => some (indexes, free)
  | n + 1, indexes, free => (findFreeDesc free).bind fun (i, free) => allocateDesc n (indexes ++ [i]) free

def deallocateDesc (indexes : List Nat) (free : FreeDesc) : FreeDesc :=
  indexes.foldl (fun free i => Function.update free i true) free

theorem deallocateDesc_apply (indexes : List Nat) (free : FreeDesc) (i : Nat) :
    deallocateDesc indexes free i = (decide (i ∈ indexes) || free i) := by
  induction indexes generalizing free with
  | nil => simp [deallocateDesc]
  | cons a l ih =>
    show deallocateDesc l (Function.update free a true) i = _
    rw [ih]
    by_cases ha : i = a
    · simp [ha]
    · simp [ha]

theorem findFreeDesc_some {free free' : FreeDesc} {i : Nat} (h : findFreeDesc free = some (i, free')) :
    i < virtioRingSize ∧ free i = true ∧ free' = Function.update free i false := by
  obtain ⟨j, hj, he⟩ := Option.map_eq_some_iff.mp h
  cases he
  exact ⟨List.mem_range.mp (List.mem_of_find?_eq_some hj), List.find?_some hj, rfl⟩

/-- **What `allocate_desc` hands out**: `n` descriptors that were free and are so no more. -/
theorem allocateDesc_some {n : Nat} : ∀ {indexes indexes' : List Nat} {free free' : FreeDesc},
    allocateDesc n indexes free = some (indexes', free') →
    ∃ new, indexes' = indexes ++ new ∧ new.length = n ∧ new.Nodup ∧
      (∀ i ∈ new, i < virtioRingSize ∧ free i = true) ∧
      ∀ i, free' i = (free i && !decide (i ∈ new)) := by
  induction n with
  | zero =>
    intro indexes indexes' free free' h
    cases h
    exact ⟨[], by simp, rfl, List.nodup_nil, by simp, by simp⟩
  | succ n ih =>
    intro indexes indexes' free free' h
    obtain ⟨⟨i, free₁⟩, hi, h⟩ := Option.bind_eq_some_iff.mp h
    obtain ⟨hlt, hfree, rfl⟩ := findFreeDesc_some hi
    obtain ⟨new, rfl, hlen, hnd, hnew, hrest⟩ := ih h
    have hni : i ∉ new := fun hm => by simpa using (hnew i hm).2
    refine ⟨i :: new, by simp, by simp [hlen], List.nodup_cons.mpr ⟨hni, hnd⟩, ?_, ?_⟩
    · intro j hj
      rcases List.mem_cons.mp hj with rfl | hj
      · exact ⟨hlt, hfree⟩
      · have hne : j ≠ i := fun e => hni (e ▸ hj)
        exact ⟨(hnew j hj).1, by simpa [Function.update_of_ne hne] using (hnew j hj).2⟩
    · intro j
      rw [hrest]
      by_cases hj : j = i
      · simp [hj]
      · simp [hj]

theorem findFreeDesc_eq {free : FreeDesc} {i : Nat} (hi : i < virtioRingSize) (hfree : free i = true)
    (hmin : ∀ j < i, free j = false) : findFreeDesc free = some (i, Function.update free i false) := by
  unfold findFreeDesc
  rw [List.find?_range_eq_some.mpr ⟨hfree, List.mem_range.mpr hi, fun j hj => by simp [hmin j hj]⟩]
  rfl

/-- with the first `m` descriptors taken, the next `n` are handed out -/
theorem allocateDesc_from (n : Nat) : ∀ {m : Nat} {free : FreeDesc} (indexes : List Nat),
    (∀ i < virtioRingSize, free i = decide (m ≤ i)) → m + n ≤ virtioRingSize →
    ∃ free', allocateDesc n indexes free = some (indexes ++ List.range' m n, free') := by
  induction n with
  | zero =>
    intro m free indexes _ _
    exact ⟨free, by rw [List.range'_zero, List.append_nil]; rfl⟩
  | succ n ih =>
    intro m free indexes h hn
    have hfind : findFreeDesc free = some (m, Function.update free m false) := by
      refine findFreeDesc_eq (by omega) ?_ fun j hj => ?_
      · rw [h m (by omega)]
        exact decide_eq_true le_rfl
      · rw [h j (by omega)]
        exact decide_eq_false (by omega)
    have hnext : ∀ i < virtioRingSize, Function.update free m false i = decide (m + 1 ≤ i) := by
      intro i hi
      by_cases e : i = m
      · rw [e, Function.update_self, decide_eq_false (by omega)]
      · rw [Function.update_of_ne e, h i hi]
        exact decide_eq_decide.mpr (by omega)
    obtain ⟨free', h'⟩ := ih (indexes ++ [m]) hnext (by omega)
    refine ⟨free', ?_⟩
    rw [allocateDesc, hfind, Option.bind_some]
    dsimp only
    rw [h', List.append_assoc, List.singleton_append, ← List.range'_succ]

theorem allocateDesc_all {n : Nat} {free : FreeDesc} (h : ∀ i < virtioRingSize, free i = true)
    (hn : n ≤ virtioRingSize) : ∃ free', allocateDesc n [] free = some (List.range' 0 n, free') :=
  allocateDesc_from n [] (fun i hi => by rw [h i hi]; simp) (by omega)

end Citron.Virtio
