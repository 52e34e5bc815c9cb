import Citron.Lib.Memory
import Citron.Lib.Radix
import Citron.Paging.Entry

/-!
# Page tables in memory

`src/arch/riscv64/paging.rs`: `map`, `virt_to_phys`, `align_val` and `map_range` on a byte memory.  A
table is its address, an `&mut Entry` is the address of its eight bytes.  `none` is a panic: a failed
assertion, the `unwrap` of a null pointer, or the index `vpn[i - 1]` at `i = 0`.

The tables below an entry are read back as a radix tree (`tree`); `walk_eq` says that `virt_to_phys` is
the lookup in it, whenever the tree is no deeper than three levels and has no table at address `0`.
-/

namespace Citron.Paging
open Word

/-! ## the functions of the source -/

/-- the allocator behind `alloc_zeroed`, for the layouts that the kernel uses here -/
abbrev PageAllocator := Allocator 0x1000 (2^56)

theorem pageSize_pos : 0 < 0x1000 := by decide

/-- the address of `entries[j]` of the table at `page` -/
def slot (page : Nat) (j : Fin 512) : Nat := page + 8 * j.val

/-- the entry stored at `v` -/
abbrev entryAt (m : Mem) (v : Nat) : Entry := m.readWord v

/-- an invalid entry gets a table -/
def extend (A : PageAllocator) (v : Nat) (s : Heap) : Heap :=
  if (entryAt s.mem v).isInvalid then
    let (page, s) := s.allocZeroed A 0x1000
    s.write v (tableEntry page)
  else s

/-- the loop of `map` over the indices below the one of `v` -/
def descend (A : PageAllocator) : List (Fin 512) → Nat → Heap → Option (Nat × Heap)
  | [], v, s => some (v, s)
  | j :: js, v, s =>
    let s := extend A v s
    let entry := (entryAt s.mem v).target
    if slot entry j = 0 then none else descend A js (slot entry j) s

def map (A : PageAllocator) (root : Nat) (vaddr paddr bits : Word) (level : Nat) (s : Heap) :
    Option Heap :=
  if bits &&& 0xe#64 ≠ 0#64 then
    -- `for i in (level..(LEVELS - 1)).rev()`
    let below := (List.range' level (levels - 1 - level)).reverse.map (vpn vaddr)
    (descend A below (slot root (vpn vaddr (levels - 1))) s).map fun (v, s) =>
      s.write v (leafEntry paddr bits)
  else none

/-- the loop of `virt_to_phys`, at the entry `v` of level `i` -/
def walk (m : Mem) (vaddr : Word) : Nat → Nat → Option (Option Word)
  | 0, v =>
    let e := entryAt m v
    if e.isInvalid then some none
    else if e.isLeaf then some (some (e.phys 0 vaddr))
    else none
  | i+1, v =>
    let e := entryAt m v
    if e.isInvalid then some none
    else if e.isLeaf then some (some (e.phys (i+1) vaddr))
    else if slot e.target (vpn vaddr i) = 0 then none
    else walk m vaddr i (slot e.target (vpn vaddr i))

def virtToPhys (m : Mem) (root : Nat) (vaddr : Word) : Option (Option Word) :=
  walk m vaddr (levels - 1) (slot root (vpn vaddr (levels - 1)))

def alignVal (val : Word) (align : Nat) : Word :=
  let t := (1#64 <<< align) - 1#64
  (val + t) &&& ~~~ t

/-- `n` turns of the loop of `map_range` -/
def mapPages (A : PageAllocator) (root : Nat) (bits : Word) : Nat → Word → Word → Heap → Option Heap
  | 0, _, _, s => some s
  | n+1, memaddrV, memaddr, s =>
    (map A root memaddrV memaddr bits 0 s).bind
      (mapPages A root bits n (memaddrV + 4096#64) (memaddr + 4096#64))

def mapRange (A : PageAllocator) (root : Nat) (vaddr paddr size bits : Word) (s : Heap) :
    Option Heap :=
  let memaddr := paddr &&& ~~~ (4096#64 - 1#64)
  let memaddrV := vaddr &&& ~~~ (4096#64 - 1#64)
  let numKbPages := (alignVal (memaddr + size) 12 - memaddr) / 4096#64
  mapPages A root bits numKbPages.toNat memaddrV memaddr s

/-! ## the fixed user addresses (`trampoline.rs`) -/

def trampoline : Word := (1#64 <<< (9 + 9 + 9 + 12 - 1)) - 0x1000#64

def trapframe : Word := trampoline - 0x1000#64

def killme : Word := trapframe - 0x1000#64

/-! ## the tables as a radix tree -/

abbrev Tree := Radix (Fin 512) Entry Nat

/-- the tree below an entry of level `i` -/
def tree (m : Mem) : Nat → Entry → Tree
  | 0, e =>
    if e.isInvalid then .empty else if e.isLeaf then .leaf e else .node e.target fun _ => .empty
  | i+1, e =>
    if e.isInvalid then .empty else if e.isLeaf then .leaf e
    else .node e.target fun j => tree m i (entryAt m (slot e.target j))

/-- the tree of the table at `page`, whose entries are of level `i` -/
def tableTree (m : Mem) (i page : Nat) : Tree :=
  .node page fun j => tree m i (entryAt m (slot page j))

/-- the indices of `vaddr` below level `i`, from the top -/
def path (vaddr : Word) : Nat → List (Fin 512)
  | 0 => []
  | i+1 => vpn vaddr i :: path vaddr i

theorem length_path (vaddr : Word) (i : Nat) : (path vaddr i).length = i := by
  induction i with
  | zero => rfl
  | succ i ih => rw [path, List.length_cons, ih]

/-- what `virt_to_phys` makes of the leaf that it finds -/
def found (vaddr : Word) (r : Option (Entry × List (Fin 512))) : Option Word :=
  r.map fun (e, rest) => e.phys rest.length vaddr

theorem tree_invalid {m : Mem} {e : Entry} (h : e.isInvalid = true) (i : Nat) :
    tree m i e = .empty := by
  cases i <;> exact if_pos h

theorem tree_leaf {m : Mem} {e : Entry} (h : IsMapping e) (i : Nat) : tree m i e = .leaf e := by
  have h0 : e.isInvalid ≠ true := by simp [Entry.isInvalid, h.1]
  cases i <;> exact (if_neg h0).trans (if_pos h.2)

theorem tree_branch {m : Mem} {e : Entry} (h0 : e.isInvalid ≠ true) (h1 : e.isLeaf ≠ true) (i : Nat) :
    tree m (i+1) e = tableTree m i e.target :=
  (if_neg h0).trans (if_neg h1)

/-- every page of the tree is one where a table can lie -/
def Sound (t : Tree) : Prop := ∀ p, t.Has p → 0 < p

theorem slot_ne_zero {p : Nat} (h : 0 < p) (j : Fin 512) : slot p j ≠ 0 := by
  unfold slot
  omega

theorem walk_eq {m : Mem} {vaddr : Word} (i : Nat) : ∀ v : Nat,
    (tree m i (entryAt m v)).Fits i → Sound (tree m i (entryAt m v)) →
    walk m vaddr i v = some (found vaddr ((tree m i (entryAt m v)).lookup (path vaddr i))) := by
  induction i with
  | zero =>
    intro v hf hs
    unfold walk
    by_cases h0 : (entryAt m v).isInvalid = true
    · rw [tree_invalid h0, if_pos h0]
      rfl
    · by_cases h1 : (entryAt m v).isLeaf = true
      · rw [tree_leaf ⟨by simpa [Entry.isInvalid] using h0, h1⟩, if_neg h0, if_pos h1]
        rfl
      · -- a branch of level 0 does not fit
        unfold tree at hf
        rw [if_neg h0, if_neg h1] at hf
        exact absurd hf id
  | succ i ih =>
    intro v hf hs
    unfold walk
    by_cases h0 : (entryAt m v).isInvalid = true
    · rw [tree_invalid h0, if_pos h0]
      rfl
    · by_cases h1 : (entryAt m v).isLeaf = true
      · rw [tree_leaf ⟨by simpa [Entry.isInvalid] using h0, h1⟩, if_neg h0, if_pos h1, Radix.lookup_leaf]
        show _ = some (some ((entryAt m v).phys (path vaddr (i+1)).length vaddr))
        rw [length_path]
      · rw [tree_branch h0 h1] at hf hs ⊢
        have hp : slot (entryAt m v).target (vpn vaddr i) ≠ 0 :=
          slot_ne_zero (hs _ (.inl rfl)) _
        rw [if_neg h0, if_neg h1, if_neg hp]
        exact ih _ (hf _) fun p h => hs p (.inr ⟨_, h⟩)

theorem virtToPhys_eq {m : Mem} {root : Nat} (hf : (tableTree m 2 root).Fits 3)
    (hs : Sound (tableTree m 2 root)) (vaddr : Word) :
    virtToPhys m root vaddr = some (found vaddr ((tableTree m 2 root).lookup (path vaddr 3))) :=
  walk_eq 2 _ (hf _) fun p h => hs p (.inr ⟨_, h⟩)

end Citron.Paging
