import Citron.Virtio.Queue
import Citron.Lib.Word
import Citron.Process.State

/-!
# The block driver

`src/arch/riscv64/virtio/virtio_blk.rs`: what `block_op` and `pending` do to the driver and to its queue.
Of memory, the request headers (`headers`, by address) and the status bytes, which stand at `statusAddr`.
`none` is a panic.

* `prepare`, `submit`    `block_op` before and after its `signal_semaphore`;
* `pending`              the completion interrupt, with what it acknowledged and gave back;
* `complete`             the device completes the next available request;
* `sequential_io`        any number of requests, one after the other.
-/

namespace Citron.Virtio

structure VirtioBlkRequest where
  type : Nat
  sector : Nat
deriving DecidableEq, Repr

/-- `size_of::<VirtioBlkRequest>()` -/
def headerSize : Nat := 16

def virtioBlkTIn : Nat := 0
def virtioBlkTOut : Nat := 1

structure VirtioBlk where
  queue : Virtqueue
  freeDesc : FreeDesc
  status : Nat → UInt8
  statusAddr : Nat
  descIndexes : Option (List Nat)
  ackUsedIndex : Nat
  pid : Pid
  headers : Nat → VirtioBlkRequest

/-- the arguments of `block_op`, and the address that its `alloc` returns -/
structure Request where
  buffer : Nat
  size : Nat
  sector : Nat
  write : Bool
  req : Nat
deriving DecidableEq, Repr

/-- a used element that `pending` went over, and the address and size that it gave back for it -/
structure Ack where
  elem : VirtqUsedElem
  dealloc : Option (Nat × Nat)
deriving DecidableEq, Repr

namespace VirtioBlk

/-- `new` and `init` -/
def new (statusAddr : Nat) (headers : Nat → VirtioBlkRequest) : VirtioBlk :=
  ⟨.new, fun _ => true, fun _ => 0, statusAddr, none, 0, 0, headers⟩

def setAck (b : VirtioBlk) (n : Nat) : VirtioBlk := { b with ackUsedIndex := n }

/-- `deallocate_desc` -/
def release (b : VirtioBlk) (indexes : List Nat) : VirtioBlk :=
  { b with freeDesc := deallocateDesc indexes b.freeDesc }

def headerDesc (r : Request) (next : Nat) : VirtqDesc := ⟨r.req, headerSize, virtqDescFNext, next⟩

def dataDesc (r : Request) (next : Nat) : VirtqDesc :=
  ⟨r.buffer, u32 r.size, if r.write then virtqDescFNext else virtqDescFNext ||| virtqDescFWrite, next⟩

def statusDesc (b : VirtioBlk) (head : Nat) : VirtqDesc := ⟨b.statusAddr + head, 1, virtqDescFWrite, 0⟩

/-- from the request header to the third descriptor -/
def prepare (r : Request) (b : VirtioBlk) : Option (List Nat × VirtioBlk) :=
  let type := if r.write then virtioBlkTOut else virtioBlkTIn
  let headers := Function.update b.headers r.req ⟨type, r.sector⟩
  (allocateDesc 3 [] b.freeDesc).bind fun (indexes, free) =>
    match indexes with
    | [i₀, i₁, i₂] =>
      some (indexes, { b with
        headers := headers
        freeDesc := free
        queue := ((b.queue.writeDesc i₀ (headerDesc r i₁)).writeDesc i₁ (dataDesc r i₂)).writeDesc i₂
          (b.statusDesc i₀) })
    | _ => none

/-- the available ring, and the indexes kept for `pending` -/
def submit (indexes : List Nat) (b : VirtioBlk) : VirtioBlk :=
  { b with queue := b.queue.makeAvail (indexes.headD 0), descIndexes := some indexes }

/-- `block_op`, as far as the driver goes -/
def blockOp (r : Request) (b : VirtioBlk) : Option VirtioBlk :=
  (b.prepare r).map fun (indexes, b) => b.submit indexes

/-- the loop of `pending`, over the elements that have not been acknowledged -/
def pendingLoop : Nat → List Nat → VirtioBlk → Option (List Ack × VirtioBlk)
  | 0, _, _ => none
  | fuel + 1, freedDesc, b =>
    if b.ackUsedIndex = b.queue.usedIdx then some ([], b)
    else
      let elem := b.queue.usedRing (b.ackUsedIndex % virtioRingSize)
      if b.status elem.id ≠ 0 then none
      else
        let b := b.setAck (u16 (b.ackUsedIndex + 1))
        let desc := b.queue.desc elem.id
        if desc.addr ∈ freedDesc then
          (pendingLoop fuel freedDesc b).map fun (acks, b) => (⟨elem, none⟩ :: acks, b)
        else
          (pendingLoop fuel (desc.addr :: freedDesc) b).map fun (acks, b) =>
            (⟨elem, some (desc.addr, desc.len)⟩ :: acks, b)

/-- `pending`, as far as the driver goes; the indexes come to each other within `2^16` rounds -/
def pending (b : VirtioBlk) : Option (List Ack × VirtioBlk) :=
  (pendingLoop (2^16) [] b).bind fun (acks, b) =>
    match b.descIndexes with
    | some indexes => some (acks, b.release indexes)
    | none => none

/-! ## the device -/

/-- a status byte written by the device -/
def writeStatus (addr : Nat) (v : UInt8) (b : VirtioBlk) : VirtioBlk :=
  { b with status := fun i => if b.statusAddr + i = addr then v else b.status i }

/-- the device completes the chain at `head`: the status byte at the end of it, then the used ring -/
def complete (head len : Nat) (b : VirtioBlk) : VirtioBlk :=
  let last := (b.queue.chain virtioRingSize head).getLastD head
  { b.writeStatus (b.queue.desc last).addr 0 with queue := b.queue.putUsed ⟨head, len⟩ }

/-! ## what a request looks like -/

/-- the descriptors of a request, linked as the device follows them -/
structure Laid (b : VirtioBlk) (r : Request) (i₀ i₁ i₂ : Nat) : Prop where
  nodup : [i₀, i₁, i₂].Nodup
  header : b.queue.desc i₀ = headerDesc r i₁
  data : b.queue.desc i₁ = dataDesc r i₂
  status : b.queue.desc i₂ = b.statusDesc i₀

variable {b b' : VirtioBlk} {r : Request}

theorem prepare_some {indexes : List Nat} (h : b.prepare r = some (indexes, b')) :
    ∃ i₀ i₁ i₂ free, indexes = [i₀, i₁, i₂] ∧ allocateDesc 3 [] b.freeDesc = some (indexes, free) ∧
      b'.Laid r i₀ i₁ i₂ ∧ b'.freeDesc = free ∧ b'.queue.availIdx = b.queue.availIdx ∧
      b'.queue.usedIdx = b.queue.usedIdx ∧ b'.queue.usedRing = b.queue.usedRing ∧
      b'.ackUsedIndex = b.ackUsedIndex ∧ b'.statusAddr = b.statusAddr := by
  obtain ⟨⟨indexes', free⟩, halloc, h⟩ := Option.bind_eq_some_iff.mp h
  obtain ⟨_, rfl, hlen, hnd, -⟩ := allocateDesc_some halloc
  obtain ⟨i₀, i₁, i₂, rfl⟩ : ∃ i₀ i₁ i₂, indexes' = [i₀, i₁, i₂] := List.length_eq_three.mp hlen
  cases h
  refine ⟨i₀, i₁, i₂, free, rfl, halloc, ⟨hnd, ?_, ?_, ?_⟩, rfl, rfl, rfl, rfl, rfl, rfl⟩
  · simp only [List.nodup_cons, List.mem_cons, List.not_mem_nil, or_false, not_or] at hnd
    simp [Virtqueue.writeDesc, Function.update_of_ne hnd.1.1, Function.update_of_ne hnd.1.2]
  · simp only [List.nodup_cons, List.mem_cons, List.not_mem_nil, or_false, not_or] at hnd
    simp [Virtqueue.writeDesc, Function.update_of_ne hnd.2.1]
  · simp [Virtqueue.writeDesc, statusDesc]

/-- three descriptors, `NEXT` on the first two -/
theorem Laid.chain {i₀ i₁ i₂ : Nat} (h : b.Laid r i₀ i₁ i₂) :
    b.queue.chain virtioRingSize i₀ = [i₀, i₁, i₂] := by
  have h0 : (headerDesc r i₁).flags.testBit 0 = true := show Nat.testBit 1 0 = true by decide
  have h1 : (dataDesc r i₂).flags.testBit 0 = true := by
    unfold dataDesc
    cases r.write with
    | false => exact show Nat.testBit (1 ||| 2) 0 = true by decide
    | true => exact show Nat.testBit 1 0 = true by decide
  have h2 : (b.statusDesc i₀).flags.testBit 0 = false := show Nat.testBit 2 0 = false by decide
  show b.queue.chain (125 + 1 + 1 + 1) i₀ = _
  rw [Virtqueue.chain, h.header, if_pos h0]
  show i₀ :: b.queue.chain (125 + 1 + 1) i₁ = _
  rw [Virtqueue.chain, h.data, if_pos h1]
  show i₀ :: i₁ :: b.queue.chain (125 + 1) i₂ = _
  rw [Virtqueue.chain, h.status, if_neg (by simp [h2])]

/-! ## the interrupt -/

theorem pendingLoop_done (fuel : Nat) (freed : List Nat) (h : b.ackUsedIndex = b.queue.usedIdx) :
    pendingLoop (fuel + 1) freed b = some ([], b) := by
  rw [pendingLoop, if_pos h]

/-- the element that is acknowledged next, and its first descriptor -/
def nextElem (b : VirtioBlk) : VirtqUsedElem := b.queue.usedRing (b.ackUsedIndex % virtioRingSize)

def nextDesc (b : VirtioBlk) : VirtqDesc := b.queue.desc b.nextElem.id

theorem pendingLoop_next (fuel : Nat) (hne : b.ackUsedIndex ≠ b.queue.usedIdx)
    (hstatus : b.status b.nextElem.id = 0) :
    pendingLoop (fuel + 1) [] b = (pendingLoop fuel [b.nextDesc.addr] (b.setAck (u16 (b.ackUsedIndex + 1)))).map
      fun (acks, b') => (⟨b.nextElem, some (b.nextDesc.addr, b.nextDesc.len)⟩ :: acks, b') := by
  rw [pendingLoop, if_neg hne]
  dsimp only
  rw [if_neg (fun h => h hstatus), if_neg List.not_mem_nil]
  rfl

/-- one element to acknowledge -/
theorem pending_one {indexes : List Nat} (hne : b.ackUsedIndex ≠ b.queue.usedIdx)
    (hnext : u16 (b.ackUsedIndex + 1) = b.queue.usedIdx) (hstatus : b.status b.nextElem.id = 0)
    (hsaved : b.descIndexes = some indexes) :
    b.pending = some ([⟨b.nextElem, some (b.nextDesc.addr, b.nextDesc.len)⟩],
      (b.setAck b.queue.usedIdx).release indexes) := by
  unfold pending
  rw [show (2 : Nat)^16 = 65534 + 1 + 1 by norm_num, pendingLoop_next _ hne hstatus,
    pendingLoop_done _ _ hnext, Option.map_some, Option.bind_some, hnext]
  show (match b.descIndexes with | some indexes => _ | none => none) = _
  rw [hsaved]

/-- the loop moves `ack_used_index` and nothing else -/
theorem pendingLoop_some (fuel : Nat) : ∀ {freed : List Nat} {b b' : VirtioBlk} {acks : List Ack},
    pendingLoop fuel freed b = some (acks, b') → ∃ n, b' = b.setAck n := by
  induction fuel with
  | zero => exact fun h => nomatch h
  | succ fuel ih =>
    intro freed b b' acks h
    rw [pendingLoop] at h
    split at h
    · cases h
      exact ⟨b.ackUsedIndex, rfl⟩
    · dsimp only at h
      split at h
      · cases h
      · split at h
        · obtain ⟨⟨acks', b₁⟩, hloop, heq⟩ := Option.map_eq_some_iff.mp h
          cases heq
          obtain ⟨n, rfl⟩ := ih hloop
          exact ⟨n, rfl⟩
        · obtain ⟨⟨acks', b₁⟩, hloop, heq⟩ := Option.map_eq_some_iff.mp h
          cases heq
          obtain ⟨n, rfl⟩ := ih hloop
          exact ⟨n, rfl⟩

theorem pending_some {acks : List Ack} (h : b.pending = some (acks, b')) :
    ∃ n indexes, b.descIndexes = some indexes ∧ b' = (b.setAck n).release indexes := by
  obtain ⟨⟨acks', b₁⟩, hloop, h⟩ := Option.bind_eq_some_iff.mp h
  obtain ⟨n, rfl⟩ := pendingLoop_some _ hloop
  dsimp only at h
  split at h
  · rename_i indexes hsaved
    cases h
    exact ⟨n, indexes, hsaved, rfl⟩
  · cases h

theorem pending_pid {acks : List Ack} (h : b.pending = some (acks, b')) : b'.pid = b.pid := by
  obtain ⟨n, indexes, -, rfl⟩ := pending_some h
  rfl

/-! ## one request after the other -/

inductive HeapEvent where
  | alloc (addr size : Nat)
  | dealloc (addr size : Nat)
deriving DecidableEq, Repr

/-- the driver, the device's place in the available ring, and what has happened: to the heap, what the
device returned and what `pending` went over -/
structure Io where
  blk : VirtioBlk
  lastAvail : Nat
  heap : List HeapEvent
  produced : List VirtqUsedElem
  acked : List VirtqUsedElem

def Io.new (statusAddr : Nat) (headers : Nat → VirtioBlkRequest) : Io := ⟨.new statusAddr headers, 0, [], [], []⟩

def deallocs (acks : List Ack) : List HeapEvent :=
  acks.filterMap fun a => a.dealloc.map fun (addr, size) => .dealloc addr size

/-- `block_op`, its completion by the device, `pending` -/
def Io.cycle (r : Request) (len : Nat) (s : Io) : Option Io :=
  (s.blk.blockOp r).bind fun b =>
    let head := b.queue.availRing (s.lastAvail % virtioRingSize)
    ((b.complete head len).pending).map fun (acks, b) =>
      ⟨b, u16 (s.lastAvail + 1), s.heap ++ .alloc r.req headerSize :: deallocs acks,
        s.produced ++ [⟨head, len⟩], s.acked ++ acks.map Ack.elem⟩

def Io.run : List (Request × Nat) → Io → Option Io
  | [], s => some s
  | (r, len) :: cs, s => (s.cycle r len).bind (Io.run cs)

/-- nothing under way after `n` requests -/
structure Io.Idle (s : Io) (n : Nat) : Prop where
  free : ∀ i < virtioRingSize, s.blk.freeDesc i = true
  avail : s.blk.queue.availIdx = u16 n
  used : s.blk.queue.usedIdx = u16 n
  ack : s.blk.ackUsedIndex = u16 n
  last : s.lastAvail = u16 n
  length : s.produced.length = n
  acked : s.acked = s.produced

/-- with all descriptors free, `block_op` submits a chain of three -/
theorem blockOp_all (r : Request) (h : ∀ i < virtioRingSize, b.freeDesc i = true) :
    ∃ b₁, b.blockOp r = some b₁ ∧ b₁.Laid r 0 1 2 ∧ b₁.descIndexes = some [0, 1, 2] ∧
      b₁.queue.availRing (b.queue.availIdx % virtioRingSize) = 0 ∧
      b₁.queue.availIdx = u16 (b.queue.availIdx + 1) ∧ b₁.queue.usedIdx = b.queue.usedIdx ∧
      b₁.ackUsedIndex = b.ackUsedIndex ∧
      ∀ i < virtioRingSize, deallocateDesc [0, 1, 2] b₁.freeDesc i = true := by
  obtain ⟨free, halloc⟩ : ∃ free, allocateDesc 3 [] b.freeDesc = some ([0, 1, 2], free) :=
    allocateDesc_all h (by decide)
  obtain ⟨b₀, hb₀⟩ : ∃ b₀, b.prepare r = some ([0, 1, 2], b₀) := by
    unfold prepare
    rw [halloc]
    exact ⟨_, rfl⟩
  obtain ⟨i₀, i₁, i₂, free', hix, halloc', hlaid, hfree, havail, hused, -, hack, -⟩ := prepare_some hb₀
  cases hix
  obtain ⟨_, rfl, -, -, -, hrest⟩ := allocateDesc_some halloc'
  refine ⟨b₀.submit [0, 1, 2], by unfold blockOp; rw [hb₀]; rfl, ⟨hlaid.nodup, hlaid.header, hlaid.data,
    hlaid.status⟩, rfl, ?_, ?_, hused, hack, fun i hi => ?_⟩
  · show Function.update b₀.queue.availRing (b₀.queue.availIdx % virtioRingSize) 0 _ = 0
    rw [havail, Function.update_self]
  · show u16 (b₀.queue.availIdx + 1) = _
    rw [havail]
  · show deallocateDesc [0, 1, 2] b₀.freeDesc i = true
    rw [deallocateDesc_apply, hfree, hrest, h i hi]
    by_cases hm : i ∈ [0, 1, 2]
    · simp [hm]
    · simp [hm]

/-- the status byte of a request that is laid out and completed -/
theorem Laid.complete_status {i₀ i₁ i₂ : Nat} (h : b.Laid r i₀ i₁ i₂) (len : Nat) :
    (b.complete i₀ len).status i₀ = 0 := by
  show (if b.statusAddr + i₀ = (b.queue.desc ((b.queue.chain virtioRingSize i₀).getLastD i₀)).addr then 0
    else b.status i₀) = 0
  rw [h.chain]
  show (if b.statusAddr + i₀ = (b.queue.desc i₂).addr then 0 else b.status i₀) = 0
  rw [h.status]
  exact if_pos rfl

/-- a cycle keeps the driver idle -/
theorem Io.Idle.cycle {s : Io} {n : Nat} (hs : s.Idle n) (r : Request) (len : Nat) :
    ∃ s', s.cycle r len = some s' ∧ s'.Idle (n + 1) ∧
      s'.heap = s.heap ++ [.alloc r.req headerSize, .dealloc r.req headerSize] := by
  obtain ⟨b₁, hop, hlaid, hsaved, hslot, havail, hused, hack, hfree⟩ := blockOp_all r hs.free
  have hsucc := u16_add_one n
  have hne := u16_ne_succ n
  have hstatus := hlaid.complete_status len
  have hsaved₁ : (b₁.complete 0 len).descIndexes = some [0, 1, 2] := hsaved
  have hhead : b₁.queue.availRing (s.lastAvail % virtioRingSize) = 0 := by
    rw [hs.last, ← hs.avail, hslot]
  -- the element that `pending` finds is the one the device has just put there
  have helem : (b₁.complete 0 len).nextElem = ⟨0, len⟩ := by
    show Function.update b₁.queue.usedRing (b₁.queue.usedIdx % virtioRingSize) ⟨0, len⟩
      (b₁.ackUsedIndex % virtioRingSize) = _
    rw [hack, hs.ack, hused, hs.used, Function.update_self]
  have hdesc : (b₁.complete 0 len).nextDesc = headerDesc r 1 := by
    unfold nextDesc
    rw [helem]
    exact hlaid.header
  have hidx : (b₁.complete 0 len).queue.usedIdx = u16 (n + 1) := by
    show u16 (b₁.queue.usedIdx + 1) = _
    rw [hused, hs.used, hsucc]
  have hack₁ : (b₁.complete 0 len).ackUsedIndex = u16 n := hack.trans hs.ack
  have hpending : (b₁.complete 0 len).pending = some ([⟨⟨0, len⟩, some (r.req, headerSize)⟩],
      ((b₁.complete 0 len).setAck (u16 (n + 1))).release [0, 1, 2]) := by
    rw [pending_one (by rw [hack₁, hidx]; exact hne) (by rw [hack₁, hidx]; exact hsucc)
      (by rw [helem]; exact hstatus) hsaved₁, helem, hdesc, hidx]
    rfl
  refine ⟨⟨((b₁.complete 0 len).setAck (u16 (n + 1))).release [0, 1, 2], u16 (s.lastAvail + 1),
    s.heap ++ [.alloc r.req headerSize, .dealloc r.req headerSize], s.produced ++ [⟨0, len⟩],
    s.acked ++ [⟨0, len⟩]⟩, ?_, ?_, rfl⟩
  · unfold Io.cycle
    rw [hop, Option.bind_some, hhead]
    dsimp only
    rw [hpending]
    rfl
  · refine ⟨hfree, ?_, hidx, rfl, ?_, ?_, ?_⟩
    · show b₁.queue.availIdx = _
      rw [havail, hs.avail, hsucc]
    · show u16 (s.lastAvail + 1) = _
      rw [hs.last, hsucc]
    · show (s.produced ++ [_]).length = _
      rw [List.length_append, hs.length, List.length_singleton]
    · show s.acked ++ _ = s.produced ++ _
      rw [hs.acked]

theorem Io.Idle.run (cs : List (Request × Nat)) : ∀ {s : Io} {n : Nat}, s.Idle n →
    ∃ s', Io.run cs s = some s' ∧ s'.Idle (n + cs.length) ∧ s'.heap = s.heap ++
      cs.flatMap fun c => [.alloc c.1.req headerSize, .dealloc c.1.req headerSize] := by
  induction cs with
  | nil => intro s n hs; exact ⟨s, rfl, hs, (List.append_nil _).symm⟩
  | cons c cs ih =>
    intro s n hs
    obtain ⟨s₁, hcycle, hs₁, hheap₁⟩ := hs.cycle c.1 c.2
    obtain ⟨s', hrun, hs', hheap⟩ := ih hs₁
    refine ⟨s', ?_, ?_, ?_⟩
    · show (s.cycle c.1 c.2).bind _ = _
      rw [hcycle]
      exact hrun
    · rw [List.length_cons, Nat.add_comm cs.length, ← Nat.add_assoc]
      exact hs'
    · rw [hheap, hheap₁, List.flatMap_cons, List.append_assoc]

/-- **Sequential requests never drift.**  After any number of cycles nothing panicked, all descriptors are
free, the three counters agree modulo `2^16`, every used element was gone over once, every header was given
back once with its size; and the next `block_op` puts a chain of three distinct descriptors into the slot. -/
theorem sequential_io (statusAddr : Nat) (headers : Nat → VirtioBlkRequest) (cs : List (Request × Nat)) :
    ∃ s, Io.run cs (Io.new statusAddr headers) = some s ∧
      (∀ i < virtioRingSize, s.blk.freeDesc i = true) ∧
      s.blk.ackUsedIndex = u16 cs.length ∧ s.blk.queue.usedIdx = u16 cs.length ∧
      s.blk.queue.availIdx = u16 cs.length ∧
      s.produced.length = cs.length ∧ s.acked = s.produced ∧
      s.heap = cs.flatMap (fun c => [.alloc c.1.req headerSize, .dealloc c.1.req headerSize]) ∧
      ∀ r : Request, ∃ b i₀ i₁ i₂, s.blk.blockOp r = some b ∧
        b.queue.availRing (s.blk.queue.availIdx % virtioRingSize) = i₀ ∧
        b.queue.chain virtioRingSize i₀ = [i₀, i₁, i₂] ∧ b.Laid r i₀ i₁ i₂ := by
  have hnew : (Io.new statusAddr headers).Idle 0 := ⟨fun _ _ => rfl, rfl, rfl, rfl, rfl, rfl, rfl⟩
  obtain ⟨s, hrun, hs, hheap⟩ := hnew.run cs
  rw [Nat.zero_add] at hs
  refine ⟨s, hrun, hs.free, hs.ack, hs.used, hs.avail, hs.length, hs.acked, hheap, fun r => ?_⟩
  obtain ⟨b, hop, hlaid, -, hslot, -⟩ := blockOp_all r hs.free
  exact ⟨b, 0, 1, 2, hop, hslot, hlaid.chain, hlaid⟩

end VirtioBlk

end Citron.Virtio
