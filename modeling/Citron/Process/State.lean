import Citron.Lib.Resumption
import Citron.Lib.BinaryHeap
import Mathlib.Algebra.GroupWithZero.Nat
import Mathlib.Algebra.Group.Int.Defs

/-!
# The process manager: data

`src/process.rs`.  The tables are functions to `Option`, the queues are lists (head first).  Of a
process only what the scheduler reads is kept: its stacks, its page table and its name are not
modelled here, and of its saved context only the interrupt-enable bit of `sstatus`.  The locks
around the tables are left out: no operation gives the processor away while it holds one.

`usize` delays and `isize` counts are `UInt64` and `Int64`, which wrap like a release build.  Pids,
sids and the nesting depth of deferrals only count calls, so they are `Nat`.
-/

namespace Citron
open Resumption

abbrev Pid := Nat
abbrev Sid := Nat

inductive ProcessEvent where
  | mouseEvent
  | keyboardEvent
  | exit (pid : Pid)
deriving DecidableEq, Repr

inductive State where
  | running
  | ready
  | suspend
  | sleep
  | semaWait
  | ioWait
  | eventWait
  | free
deriving DecidableEq, Repr

structure Process where
  state : State
  pid : Pid
  priority : Nat
  children : List Pid
  /-- bit SIE of the `sstatus` saved in the context -/
  sstatus : Bool
deriving DecidableEq, Repr

def Process.new (pid : Pid) : Process := ⟨.free, pid, 0, [], false⟩

structure ProcessDesc where
  priority : Nat
  pid : Pid
deriving DecidableEq, Repr

structure ProcessDelay where
  pid : Pid
  delay : UInt64
deriving DecidableEq, Repr

structure DeferScheduler where
  count : Nat
  attempt : Bool
deriving DecidableEq, Repr

inductive DeferCommand where
  | start
  | stop

inductive SemaState where
  | used
  | free
deriving DecidableEq, Repr

structure Semaphore where
  state : SemaState
  count : Int64
  queue : List Pid
deriving DecidableEq, Repr

def Semaphore.new (count : Int64) : Semaphore := ⟨.free, count, []⟩

inductive ProcessError where
  | processNotFound (pid : Pid)
  | semaphoreNotFound (sid : Sid)
deriving DecidableEq, Repr

structure ProcessManager where
  ptable : Pid → Option Process
  stable : Sid → Option Semaphore
  /-- the ready list, in the order the heap keeps it -/
  pqueue : List ProcessDesc
  sleepQueue : List ProcessDelay
  eventQueue : ProcessEvent → Option (List Pid)
  defer : DeferScheduler
  currPid : Pid
  currSid : Sid
  running : Pid
  /-- bit SIE of the hart's `sstatus` -/
  sie : Bool

/-- `new`, on a hart whose interrupt-enable bit is `sie` -/
def ProcessManager.new (sie : Bool) : ProcessManager where
  ptable := fun _ => none
  stable := fun _ => none
  pqueue := []
  sleepQueue := []
  eventQueue := fun _ => none
  defer := ⟨0, false⟩
  currPid := 0
  currSid := 0
  running := 0
  sie := sie

abbrev Heap := BinaryHeap ProcessDesc ProcessDesc.priority
abbrev PM := Prog ProcessManager ProcessError

/-! ## the state of a process -/

namespace ProcessManager

/-- the state of the process `pid`, if it exists -/
def stateOf (s : ProcessManager) (pid : Pid) : Option State := (s.ptable pid).map Process.state

def prioOf (s : ProcessManager) (pid : Pid) : Option Nat := (s.ptable pid).map Process.priority

def childrenOf (s : ProcessManager) (pid : Pid) : List Pid :=
  ((s.ptable pid).map Process.children).getD []

/-- the process `pid`, if it exists, changed by `f` -/
def updateProcess (s : ProcessManager) (pid : Pid) (f : Process → Process) : ProcessManager :=
  { s with ptable := Function.update s.ptable pid ((s.ptable pid).map f) }

def setState (s : ProcessManager) (pid : Pid) (st : State) : ProcessManager :=
  s.updateProcess pid ({ · with state := st })

/-- the context of the process `pid` saved with the present `sstatus` -/
def saveStatus (s : ProcessManager) (pid : Pid) : ProcessManager :=
  s.updateProcess pid ({ · with sstatus := s.sie })

def insertProcess (s : ProcessManager) (pid : Pid) (p : Process) : ProcessManager :=
  { s with ptable := Function.update s.ptable pid (some p) }

def setSemaphore (s : ProcessManager) (sid : Sid) (x : Semaphore) : ProcessManager :=
  { s with stable := Function.update s.stable sid (some x) }

/-- the list of the processes that wait for `event` -/
def waiters (s : ProcessManager) (event : ProcessEvent) : List Pid :=
  (s.eventQueue event).getD []

def setEvent (s : ProcessManager) (event : ProcessEvent) (pids : Option (List Pid)) :
    ProcessManager :=
  { s with eventQueue := Function.update s.eventQueue event pids }

def setQueue (s : ProcessManager) (q : List ProcessDesc) : ProcessManager := { s with pqueue := q }

/-- with interrupts off -/
def masked (s : ProcessManager) : ProcessManager := { s with sie := false }

/-! ## what the updates leave alone -/

section
variable (s : ProcessManager) (pid : Pid)


@[simp] theorem setState_stable (st : State) : (s.setState pid st).stable = s.stable := rfl
@[simp] theorem setState_sleepQueue (st : State) : (s.setState pid st).sleepQueue = s.sleepQueue := rfl
@[simp] theorem setState_sie (st : State) : (s.setState pid st).sie = s.sie := rfl

@[simp] theorem saveStatus_stable : (s.saveStatus pid).stable = s.stable := rfl
@[simp] theorem saveStatus_pqueue : (s.saveStatus pid).pqueue = s.pqueue := rfl
@[simp] theorem saveStatus_sleepQueue : (s.saveStatus pid).sleepQueue = s.sleepQueue := rfl
@[simp] theorem saveStatus_eventQueue : (s.saveStatus pid).eventQueue = s.eventQueue := rfl
@[simp] theorem saveStatus_defer : (s.saveStatus pid).defer = s.defer := rfl
@[simp] theorem saveStatus_currPid : (s.saveStatus pid).currPid = s.currPid := rfl
@[simp] theorem saveStatus_currSid : (s.saveStatus pid).currSid = s.currSid := rfl
@[simp] theorem saveStatus_running : (s.saveStatus pid).running = s.running := rfl
@[simp] theorem saveStatus_sie : (s.saveStatus pid).sie = s.sie := rfl

end

@[simp] theorem masked_sie (s : ProcessManager) : s.masked.sie = false := rfl
@[simp] theorem masked_ptable (s : ProcessManager) : s.masked.ptable = s.ptable := rfl
@[simp] theorem masked_stable (s : ProcessManager) : s.masked.stable = s.stable := rfl
@[simp] theorem masked_pqueue (s : ProcessManager) : s.masked.pqueue = s.pqueue := rfl
@[simp] theorem masked_sleepQueue (s : ProcessManager) : s.masked.sleepQueue = s.sleepQueue := rfl
@[simp] theorem masked_eventQueue (s : ProcessManager) : s.masked.eventQueue = s.eventQueue := rfl
@[simp] theorem masked_defer (s : ProcessManager) : s.masked.defer = s.defer := rfl
@[simp] theorem masked_currPid (s : ProcessManager) : s.masked.currPid = s.currPid := rfl
@[simp] theorem masked_currSid (s : ProcessManager) : s.masked.currSid = s.currSid := rfl
@[simp] theorem masked_running (s : ProcessManager) : s.masked.running = s.running := rfl

section
variable (s : ProcessManager) (sid : Sid) (x : Semaphore)

@[simp] theorem setSemaphore_ptable : (s.setSemaphore sid x).ptable = s.ptable := rfl
@[simp] theorem setSemaphore_pqueue : (s.setSemaphore sid x).pqueue = s.pqueue := rfl
@[simp] theorem setSemaphore_sleepQueue : (s.setSemaphore sid x).sleepQueue = s.sleepQueue := rfl
@[simp] theorem setSemaphore_eventQueue : (s.setSemaphore sid x).eventQueue = s.eventQueue := rfl
@[simp] theorem setSemaphore_defer : (s.setSemaphore sid x).defer = s.defer := rfl
@[simp] theorem setSemaphore_currPid : (s.setSemaphore sid x).currPid = s.currPid := rfl
@[simp] theorem setSemaphore_currSid : (s.setSemaphore sid x).currSid = s.currSid := rfl
@[simp] theorem setSemaphore_running : (s.setSemaphore sid x).running = s.running := rfl
@[simp] theorem setSemaphore_sie : (s.setSemaphore sid x).sie = s.sie := rfl

end

section
variable (s : ProcessManager) (event : ProcessEvent) (pids : Option (List Pid))

@[simp] theorem setEvent_ptable : (s.setEvent event pids).ptable = s.ptable := rfl
@[simp] theorem setEvent_stable : (s.setEvent event pids).stable = s.stable := rfl
@[simp] theorem setEvent_pqueue : (s.setEvent event pids).pqueue = s.pqueue := rfl
@[simp] theorem setEvent_sleepQueue : (s.setEvent event pids).sleepQueue = s.sleepQueue := rfl
@[simp] theorem setEvent_defer : (s.setEvent event pids).defer = s.defer := rfl
@[simp] theorem setEvent_currPid : (s.setEvent event pids).currPid = s.currPid := rfl
@[simp] theorem setEvent_currSid : (s.setEvent event pids).currSid = s.currSid := rfl
@[simp] theorem setEvent_running : (s.setEvent event pids).running = s.running := rfl
@[simp] theorem setEvent_sie : (s.setEvent event pids).sie = s.sie := rfl

end

/-! ## what they change -/

section
variable (s : ProcessManager) (pid : Pid)

theorem stateOf_of_ptable {s : ProcessManager} {pid : Pid} {p : Process}
    (h : s.ptable pid = some p) : s.stateOf pid = some p.state := by
  simp [stateOf, h]

theorem prioOf_of_ptable {s : ProcessManager} {pid : Pid} {p : Process}
    (h : s.ptable pid = some p) : s.prioOf pid = some p.priority := by
  simp [prioOf, h]

theorem isSome_prioOf (q : Pid) : (s.prioOf q).isSome = (s.ptable q).isSome := by
  simp [prioOf]

/-- the view `f` of a process is not changed by an update that leaves `f` alone -/
theorem map_updateProcess {α : Type} (f : Process → α) (g : Process → Process)
    (h : ∀ p, f (g p) = f p) (q : Pid) :
    ((s.updateProcess pid g).ptable q).map f = (s.ptable q).map f := by
  unfold updateProcess
  by_cases hq : q = pid
  · subst hq
    simp [Function.comp_def, h]
  · simp [Function.update_of_ne hq]

theorem stateOf_setState (st : State) (q : Pid) : (s.setState pid st).stateOf q
    = if q = pid then (s.stateOf pid).map (fun _ => st) else s.stateOf q := by
  unfold setState updateProcess stateOf
  by_cases hq : q = pid
  · subst hq
    simp [Function.comp_def]
  · simp [hq]

theorem stateOf_setState_of_ne {q : Pid} (st : State) (h : q ≠ pid) :
    (s.setState pid st).stateOf q = s.stateOf q := by
  rw [stateOf_setState, if_neg h]

section
variable (st : State) (q : Pid)

@[simp] theorem prioOf_setState : (s.setState pid st).prioOf q = s.prioOf q :=
  map_updateProcess s pid Process.priority ({ · with state := st }) (fun _ => rfl) q
@[simp] theorem childrenOf_setState : (s.setState pid st).childrenOf q = s.childrenOf q :=
  congrArg (·.getD [])
    (map_updateProcess s pid Process.children ({ · with state := st }) (fun _ => rfl) q)
@[simp] theorem stateOf_saveStatus : (s.saveStatus pid).stateOf q = s.stateOf q :=
  map_updateProcess s pid Process.state ({ · with sstatus := s.sie }) (fun _ => rfl) q
@[simp] theorem prioOf_saveStatus : (s.saveStatus pid).prioOf q = s.prioOf q :=
  map_updateProcess s pid Process.priority ({ · with sstatus := s.sie }) (fun _ => rfl) q
@[simp] theorem childrenOf_saveStatus : (s.saveStatus pid).childrenOf q = s.childrenOf q :=
  congrArg (·.getD [])
    (map_updateProcess s pid Process.children ({ · with sstatus := s.sie }) (fun _ => rfl) q)

end

end

end ProcessManager

end Citron
