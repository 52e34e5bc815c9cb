import Citron.Virtio.Queue

/-!
# The GPU driver: the buffers of the requests

`src/arch/riscv64/virtio/virtio_gpu.rs`: the commands, each with the completion by the device and the `pending`
that follows it.  Of the memory only who allocates, frees and reads the request buffers is kept; the address that
`alloc` returns is part of the input, and so is whether the device answers with the type that is expected.
`none` is a panic for want of a descriptor.

* `sendCommand`, `pending`   the driver;
* `runCommands`              the events of a sequence of commands;
* `Balanced`                 every buffer is read only before it is freed, once, with its size;
* `runCommands_eq`           the events, written out;
* `balanced_iff`             they are as they should be only where there are none.
-/

namespace Citron.Virtio

/-! ## requests -/

/-- `size_of::<VirtioGpuCtrlHdr>()` and so on; the records are packed -/
def sizeCtrlHdr : Nat := 4 + 4 + 8 + 4 + 4
def sizeRect : Nat := 4 + 4 + 4 + 4
def sizeDisplayOne : Nat := sizeRect + 4 + 4
def virtioGpuMaxScanouts : Nat := 16
def sizeRespDisplayInfo : Nat := sizeCtrlHdr + virtioGpuMaxScanouts * sizeDisplayOne
def sizeResourceCreate2d : Nat := sizeCtrlHdr + 4 + 4 + 4 + 4
def sizeResourceAttachBacking : Nat := sizeCtrlHdr + 4 + 4
def sizeMemEntry : Nat := 8 + 4 + 4
def sizeSetScanout : Nat := sizeCtrlHdr + sizeRect + 4 + 4
def sizeTransferToHost2d : Nat := sizeCtrlHdr + sizeRect + 8 + 4 + 4
def sizeResourceFlush : Nat := sizeCtrlHdr + sizeRect + 4 + 4

/-- a field of a request buffer -/
structure Part where
  offset : Nat
  size : Nat
deriving DecidableEq, Repr

/-- the fields that the descriptors are for, in their order, and the size that `new` allocates -/
structure GpuRequest where
  first : Part
  rest : List Part
  size : Nat
deriving DecidableEq, Repr

/-- `Request<RqT, RpT>`, packed -/
def GpuRequest.two (request response : Nat) : GpuRequest :=
  ⟨⟨0, request⟩, [⟨request, response⟩], request + response⟩

/-- the offsets of the fields of `Request3`, which the compiler chooses -/
structure Layout3 where
  request : Nat
  mementries : Nat
  response : Nat
deriving DecidableEq, Repr

/-- `Request3<RqT, RmT, RpT>` -/
def GpuRequest.three (L : Layout3) (request mementries response : Nat) : GpuRequest :=
  ⟨⟨L.request, request⟩, [⟨L.mementries, mementries⟩, ⟨L.response, response⟩], request + mementries + response⟩

inductive GpuCommand where
  | getDisplayInfo
  | resourceCreate2d
  | resourceAttachBacking
  | setScanout
  | transferToHost2d
  | resourceFlush
deriving DecidableEq, Repr

namespace GpuCommand

def request (L : Layout3) : GpuCommand → GpuRequest
  | getDisplayInfo => .two sizeCtrlHdr sizeRespDisplayInfo
  | resourceCreate2d => .two sizeResourceCreate2d sizeCtrlHdr
  | resourceAttachBacking => .three L sizeResourceAttachBacking sizeMemEntry sizeCtrlHdr
  | setScanout => .two sizeSetScanout sizeCtrlHdr
  | transferToHost2d => .two sizeTransferToHost2d sizeCtrlHdr
  | resourceFlush => .two sizeResourceFlush sizeCtrlHdr

/-- the command panics at an answer of another type -/
def strict : GpuCommand → Bool
  | transferToHost2d => false
  | resourceFlush => false
  | _ => true

/-- how often the response is read: the type, and the whole where it is returned -/
def reads (expected : Bool) : GpuCommand → Nat
  | getDisplayInfo => if expected then 2 else 1
  | _ => 1

end GpuCommand

/-! ## the driver -/

structure VirtioGpu where
  queue : Virtqueue
  freeDesc : FreeDesc
  descIndexes : Option (List Nat)
  ackUsedIndex : Nat

namespace VirtioGpu

def new : VirtioGpu := ⟨.new, fun _ => true, none, 0⟩

/-- a chain of descriptors: the last is for the response -/
def writeParts (req : Nat) : List Part → Part → List Nat → Virtqueue → Virtqueue
  | [], part, i :: _, q => q.writeDesc i ⟨req + part.offset, part.size, virtqDescFWrite, 0⟩
  | next :: parts, part, i :: j :: indexes, q =>
    writeParts req parts next (j :: indexes) (q.writeDesc i ⟨req + part.offset, part.size, virtqDescFNext, j⟩)
  | _, _, _, q => q

/-- `send_desc`, as far as the driver goes -/
def sendDesc (indexes : List Nat) (g : VirtioGpu) : VirtioGpu :=
  { g with queue := g.queue.makeAvail (indexes.headD 0), descIndexes := some indexes }

/-- the request under the descriptors `indexes` -/
def putRequest (r : GpuRequest) (req : Nat) (indexes : List Nat) (free : FreeDesc) (g : VirtioGpu) : VirtioGpu :=
  { g with freeDesc := free, queue := writeParts req r.rest r.first indexes g.queue }

/-- a command up to `send_desc` -/
def sendCommand (r : GpuRequest) (req : Nat) (g : VirtioGpu) : Option VirtioGpu :=
  (allocateDesc (r.rest.length + 1) [] g.freeDesc).map fun (indexes, free) =>
    (g.putRequest r req indexes free).sendDesc indexes

/-- the device completes the next command; it has completed all before it -/
def complete (len : Nat) (g : VirtioGpu) : VirtioGpu :=
  { g with queue := g.queue.putUsed ⟨g.queue.availRing (g.queue.usedIdx % virtioRingSize), len⟩ }

def setAck (g : VirtioGpu) (n : Nat) : VirtioGpu := { g with ackUsedIndex := n }

/-- `deallocate_desc` -/
def release (g : VirtioGpu) (indexes : List Nat) : VirtioGpu :=
  { g with freeDesc := deallocateDesc indexes g.freeDesc }

/-- the loop of `pending`, with what it frees -/
def pendingLoop : Nat → List Nat → VirtioGpu → Option (List (Nat × Nat) × VirtioGpu)
  | 0, _, _ => none
  | fuel + 1, freedDesc, g =>
    if g.ackUsedIndex = g.queue.usedIdx then some ([], g)
    else
      let elem := g.queue.usedRing (g.ackUsedIndex % virtioRingSize)
      let g := g.setAck (u16 (g.ackUsedIndex + 1))
      if elem.id ∈ freedDesc then pendingLoop fuel freedDesc g
      else
        let desc := g.queue.desc elem.id
        (pendingLoop fuel (elem.id :: freedDesc) g).map fun (freed, g) => ((desc.addr, desc.len) :: freed, g)

/-- `pending`, as far as the driver goes; the indexes come to each other within `2^16` rounds -/
def pending (g : VirtioGpu) : Option (List (Nat × Nat) × VirtioGpu) :=
  (pendingLoop (2^16) [] g).map fun (freed, g) =>
    match g.descIndexes with
    | some indexes => (freed, g.release indexes)
    | none => (freed, g)

end VirtioGpu

/-! ## the events -/

inductive BufferEvent where
  | alloc (addr size : Nat)
  | free (addr size : Nat)
  | read (addr : Nat)
deriving DecidableEq, Repr

def BufferEvent.addr : BufferEvent → Nat
  | alloc addr _ => addr
  | free addr _ => addr
  | read addr => addr

/-- a command, the address of its buffer, and what the device answers -/
structure Issued where
  command : GpuCommand
  req : Nat
  len : Nat
  expected : Bool
deriving DecidableEq, Repr

/-- a command with its completion: allocated by the caller, freed by `pending`, read by the caller -/
def runCommand (L : Layout3) (x : Issued) (g : VirtioGpu) : Option (List BufferEvent × VirtioGpu) :=
  (g.sendCommand (x.command.request L) x.req).bind fun g =>
    (g.complete x.len).pending.map fun (freed, g) =>
      (.alloc x.req (x.command.request L).size :: freed.map (fun (addr, size) => .free addr size)
        ++ List.replicate (x.command.reads x.expected) (.read x.req), g)

/-- commands one after the other, up to a panic -/
def runCommands (L : Layout3) : List Issued → VirtioGpu → Option (List BufferEvent)
  | [], _ => some []
  | x :: xs, g =>
    (runCommand L x g).bind fun (events, g) =>
      if x.command.strict && !x.expected then some events else (runCommands L xs g).map (events ++ ·)

/-- what happens to the buffer at `addr` before the address is allocated again -/
def lifetime (addr : Nat) (events : List BufferEvent) : List BufferEvent :=
  (events.takeWhile fun e => match e with | .alloc a _ => a != addr | _ => true).filter fun e => e.addr == addr

/-- every buffer is read some times and then freed, with the size it was allocated with -/
def Balanced : List BufferEvent → Prop
  | [] => True
  | .alloc addr size :: events =>
    ((lifetime addr events).getLast? = some (.free addr size) ∧
      ∀ e ∈ (lifetime addr events).dropLast, e = .read addr) ∧ Balanced events
  | _ :: events => Balanced events

/-! ## one command -/

namespace VirtioGpu

/-- the descriptors of the chain are written, and nothing else -/
theorem writeParts_frame (req : Nat) (parts : List Part) : ∀ (part : Part) (indexes : List Nat) (q : Virtqueue),
    (∀ i, i ∉ indexes → (writeParts req parts part indexes q).desc i = q.desc i) ∧
      (writeParts req parts part indexes q).availIdx = q.availIdx ∧
      (writeParts req parts part indexes q).usedIdx = q.usedIdx := by
  induction parts with
  | nil =>
    intro part indexes q
    cases indexes with
    | nil => exact ⟨fun _ _ => rfl, rfl, rfl⟩
    | cons j indexes =>
      refine ⟨fun i hi => ?_, rfl, rfl⟩
      have hne : i ≠ j := fun e => hi (e ▸ List.mem_cons_self)
      exact Function.update_of_ne hne _ _
  | cons next parts ih =>
    intro part indexes q
    match indexes with
    | [] => exact ⟨fun _ _ => rfl, rfl, rfl⟩
    | [j] => exact ⟨fun _ _ => rfl, rfl, rfl⟩
    | j :: k :: indexes =>
      obtain ⟨hdesc, hrest⟩ := ih next (k :: indexes)
        (q.writeDesc j ⟨req + part.offset, part.size, virtqDescFNext, k⟩)
      refine ⟨fun i hi => ?_, hrest⟩
      have hne : i ≠ j := fun e => hi (e ▸ List.mem_cons_self)
      exact (hdesc i fun h => hi (List.mem_cons_of_mem j h)).trans (Function.update_of_ne hne _ _)

/-- the first descriptor of the chain is for the first field -/
theorem writeParts_head (req : Nat) (parts : List Part) (part : Part) (q : Virtqueue) {i : Nat} {indexes : List Nat}
    (hi : i ∉ indexes) (hlen : indexes.length = parts.length) :
    ((writeParts req parts part (i :: indexes) q).desc i).addr = req + part.offset ∧
      ((writeParts req parts part (i :: indexes) q).desc i).len = part.size := by
  cases parts with
  | nil =>
    simp only [writeParts, Virtqueue.writeDesc, Function.update_self, and_self]
  | cons next parts =>
    cases indexes with
    | nil => cases hlen
    | cons j indexes =>
      simp only [writeParts, (writeParts_frame req parts _ _ _).1 i hi, Virtqueue.writeDesc, Function.update_self, and_self]

/-- nothing under way after `n` commands -/
structure Rested (g : VirtioGpu) (n : Nat) : Prop where
  free : ∀ i < virtioRingSize, g.freeDesc i = true
  avail : g.queue.availIdx = u16 n
  used : g.queue.usedIdx = u16 n
  ack : g.ackUsedIndex = u16 n

variable {g : VirtioGpu} {n : Nat}

/-- with all descriptors free, a command is made available under descriptor 0 -/
theorem Rested.sendCommand (hg : g.Rested n) (r : GpuRequest) (req : Nat) (hr : r.rest.length + 1 ≤ virtioRingSize) :
    ∃ g₁ indexes, g.sendCommand r req = some g₁ ∧ g₁.descIndexes = some indexes ∧
      (g₁.queue.desc 0).addr = req + r.first.offset ∧ (g₁.queue.desc 0).len = r.first.size ∧
      g₁.queue.availRing (u16 n % virtioRingSize) = 0 ∧ g₁.queue.availIdx = u16 (n + 1) ∧
      g₁.queue.usedIdx = u16 n ∧ g₁.ackUsedIndex = u16 n ∧
      ∀ i < virtioRingSize, deallocateDesc indexes g₁.freeDesc i = true := by
  obtain ⟨free, halloc⟩ := allocateDesc_all hg.free hr
  obtain ⟨_, he, -, -, -, hrest⟩ := allocateDesc_some halloc
  rw [List.nil_append] at he
  subst he
  obtain ⟨-, havail, hused⟩ := writeParts_frame req r.rest r.first
    (List.range' 0 (r.rest.length + 1)) g.queue
  have hfresh : 0 ∉ List.range' 1 r.rest.length := by simp
  have hhead := writeParts_head req r.rest r.first g.queue hfresh (by simp)
  refine ⟨(g.putRequest r req (List.range' 0 (r.rest.length + 1)) free).sendDesc (List.range' 0 (r.rest.length + 1)),
    List.range' 0 (r.rest.length + 1), by unfold VirtioGpu.sendCommand; rw [halloc]; rfl, rfl, hhead.1, hhead.2,
    ?_, ?_, hused.trans hg.used, hg.ack, fun i hi => ?_⟩
  · show Function.update _ ((writeParts req r.rest r.first _ g.queue).availIdx % virtioRingSize) 0 _ = 0
    rw [havail, hg.avail, Function.update_self]
  · show u16 ((writeParts req r.rest r.first _ g.queue).availIdx + 1) = _
    rw [havail, hg.avail, u16_add_one]
  · show deallocateDesc _ free i = true
    rw [deallocateDesc_apply, hrest, hg.free i hi]
    by_cases hm : i ∈ List.range' 0 (r.rest.length + 1)
    · simp [hm]
    · simp [hm]

/-- the element that is acknowledged next -/
def nextElem (g : VirtioGpu) : VirtqUsedElem := g.queue.usedRing (g.ackUsedIndex % virtioRingSize)

/-- one element to acknowledge: what its first descriptor says is freed -/
theorem pending_one {indexes : List Nat} (hne : g.ackUsedIndex ≠ g.queue.usedIdx)
    (hnext : u16 (g.ackUsedIndex + 1) = g.queue.usedIdx) (hsaved : g.descIndexes = some indexes) :
    g.pending = some ([((g.queue.desc g.nextElem.id).addr, (g.queue.desc g.nextElem.id).len)],
      (g.setAck g.queue.usedIdx).release indexes) := by
  have hdone : (g.setAck (u16 (g.ackUsedIndex + 1))).ackUsedIndex
      = (g.setAck (u16 (g.ackUsedIndex + 1))).queue.usedIdx := hnext
  unfold pending
  rw [show (2 : Nat)^16 = 65534 + 1 + 1 from rfl, pendingLoop, if_neg hne]
  dsimp only
  rw [if_neg List.not_mem_nil, pendingLoop, if_pos hdone, hnext, Option.map_some, Option.map_some]
  show some (match g.descIndexes with | some indexes => _ | none => _) = _
  rw [hsaved]
  rfl

end VirtioGpu

open VirtioGpu

/-- the events of a command -/
def Issued.events (L : Layout3) (x : Issued) : List BufferEvent :=
  .alloc x.req (x.command.request L).size ::
    .free (x.req + (x.command.request L).first.offset) (x.command.request L).first.size ::
    List.replicate (x.command.reads x.expected) (.read x.req)

/-- **What happens to the buffer of a command**: it is freed with the size of its first field, and read after
that. -/
theorem VirtioGpu.Rested.runCommand {g : VirtioGpu} {n : Nat} (hg : g.Rested n) (L : Layout3) (x : Issued) :
    ∃ g', runCommand L x g = some (x.events L, g') ∧ g'.Rested (n + 1) := by
  have hlen : (x.command.request L).rest.length + 1 ≤ virtioRingSize := by
    have : (x.command.request L).rest.length ≤ 2 := by
      cases x.command <;> simp [GpuCommand.request, GpuRequest.two, GpuRequest.three]
    unfold virtioRingSize
    omega
  obtain ⟨g₁, indexes, hsend, hsaved, haddr, hsize, hslot, havail, hused, hack, hfree⟩ :=
    hg.sendCommand (x.command.request L) x.req hlen
  have hidx : (g₁.complete x.len).queue.usedIdx = u16 (n + 1) := by
    show u16 (g₁.queue.usedIdx + 1) = _
    rw [hused, u16_add_one]
  -- the element that `pending` finds is the one the device has just put there
  have helem : (g₁.complete x.len).nextElem.id = 0 := by
    show (Function.update g₁.queue.usedRing (g₁.queue.usedIdx % virtioRingSize) _
      (g₁.ackUsedIndex % virtioRingSize)).id = 0
    rw [hack, hused, Function.update_self]
    exact hslot
  have hack₁ : (g₁.complete x.len).ackUsedIndex = u16 n := hack
  have hpending := pending_one (g := g₁.complete x.len) (by rw [hack₁, hidx]; exact u16_ne_succ n)
    (by rw [hack₁, hidx]; exact u16_add_one n) hsaved
  rw [helem] at hpending
  refine ⟨((g₁.complete x.len).setAck (g₁.complete x.len).queue.usedIdx).release indexes, ?_, hfree, havail, hidx, hidx⟩
  unfold Citron.Virtio.runCommand
  rw [hsend, Option.bind_some, hpending]
  show some (_ :: BufferEvent.free (g₁.queue.desc 0).addr (g₁.queue.desc 0).len :: _, _) = _
  rw [haddr, hsize]
  rfl

/-- the events of a sequence of commands, up to a panic -/
def eventsOf (L : Layout3) : List Issued → List BufferEvent
  | [] => []
  | x :: xs => x.events L ++ if x.command.strict && !x.expected then [] else eventsOf L xs

theorem runCommands_eq (L : Layout3) (xs : List Issued) : ∀ {g : VirtioGpu} {n : Nat}, g.Rested n →
    runCommands L xs g = some (eventsOf L xs) := by
  induction xs with
  | nil => intro g n _; rfl
  | cons x xs ih =>
    intro g n hg
    obtain ⟨g', hrun, hg'⟩ := hg.runCommand L x
    unfold runCommands eventsOf
    rw [hrun, Option.bind_some]
    dsimp only
    split
    · rw [List.append_nil]
    · rw [ih hg']
      rfl

/-! ## the sizes -/

/-- no buffer is freed with a size that one is allocated with -/
theorem first_lt_size (L : Layout3) (c c' : GpuCommand) : (c.request L).first.size < (c'.request L).size := by
  have h : (c.request L).first.size < 60 := by
    cases c <;> simp [GpuCommand.request, GpuRequest.two, GpuRequest.three, sizeCtrlHdr, sizeRect, sizeResourceCreate2d,
      sizeResourceAttachBacking, sizeSetScanout, sizeTransferToHost2d, sizeResourceFlush]
  have h' : 60 < (c'.request L).size := by
    cases c' <;> simp [GpuCommand.request, GpuRequest.two, GpuRequest.three, sizeCtrlHdr, sizeRect, sizeDisplayOne,
      virtioGpuMaxScanouts, sizeRespDisplayInfo, sizeResourceCreate2d, sizeResourceAttachBacking, sizeMemEntry,
      sizeSetScanout, sizeTransferToHost2d, sizeResourceFlush]
  omega

theorem mem_events_free {L : Layout3} {x : Issued} {addr size : Nat} (h : .free addr size ∈ x.events L) :
    size = (x.command.request L).first.size := by
  simp only [Issued.events, List.mem_cons, reduceCtorEq, BufferEvent.free.injEq, List.mem_replicate, and_false,
    or_false, false_or] at h
  exact h.2

theorem mem_eventsOf_free {L : Layout3} {addr size : Nat} (xs : List Issued) (h : .free addr size ∈ eventsOf L xs) :
    ∃ c : GpuCommand, size = (c.request L).first.size := by
  induction xs with
  | nil => exact absurd h List.not_mem_nil
  | cons x xs ih =>
    rcases List.mem_append.mp h with h | h
    · exact ⟨x.command, mem_events_free h⟩
    · split at h
      · exact absurd h List.not_mem_nil
      · exact ih h

theorem mem_of_mem_lifetime {addr : Nat} {e : BufferEvent} {events : List BufferEvent}
    (h : e ∈ lifetime addr events) : e ∈ events :=
  (List.takeWhile_prefix _).subset (List.mem_filter.mp h).1

theorem not_balanced_eventsOf (L : Layout3) (x : Issued) (xs : List Issued) : ¬ Balanced (eventsOf L (x :: xs)) := by
  intro ⟨⟨hlast, _⟩, _⟩
  have hmem := mem_of_mem_lifetime (List.mem_of_getLast? hlast)
  obtain ⟨c, hc⟩ := mem_eventsOf_free (L := L) (x :: xs) (List.mem_cons_of_mem _ hmem)
  exact absurd hc.symm (first_lt_size L c x.command).ne

/-- **The life of the request buffers** is as it should be only where no command was given. -/
theorem balanced_iff (L : Layout3) (xs : List Issued) :
    ∃ events, runCommands L xs .new = some events ∧ (Balanced events ↔ xs = []) := by
  have hnew : VirtioGpu.new.Rested 0 := ⟨fun _ _ => rfl, rfl, rfl, rfl⟩
  refine ⟨eventsOf L xs, runCommands_eq L xs hnew, ?_⟩
  cases xs with
  | nil => exact iff_of_true trivial rfl
  | cons x xs => exact iff_of_false (not_balanced_eventsOf L x xs) nofun

/-- the buffer of `get_display_info`, allocated at `0x1000` -/
theorem display_info_freed_early :
    runCommands ⟨0, 32, 48⟩ [⟨.getDisplayInfo, 0x1000, 408, true⟩] .new
      = some [.alloc 0x1000 432, .free 0x1000 24, .read 0x1000, .read 0x1000] ∧
    ¬ Balanced [.alloc 0x1000 432, .free 0x1000 24, .read 0x1000, .read 0x1000] := by
  refine ⟨by decide, ?_⟩
  intro ⟨⟨hlast, _⟩, _⟩
  exact absurd hlast (by decide)

end Citron.Virtio
