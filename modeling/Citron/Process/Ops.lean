import Citron.Process.State

/-!
# The process manager: operations

The functions of `impl ProcessManager` (`src/process.rs`), statement by statement.  The `?` of the
source is `throw`; `unwrap` on an empty queue is `panic`; `context_switch` is the only place where
an operation gives the processor away (`suspend`).  The heap `H` is the ready list's
`BinaryHeap`.
-/

namespace Citron
open Resumption

/-! ## access -/

def getProcess (pid : Pid) : PM Process := do
  match (← Prog.get).ptable pid with
  | some p => pure p
  | none => Prog.throw (.processNotFound pid)

/-- `get_process_mut!(..)?.state = st` -/
def setProcessState (pid : Pid) (st : State) : PM Unit := do
  let _ ← getProcess pid
  Prog.modify (·.setState pid st)

def getSemaphore (sid : Sid) : PM Semaphore := do
  match (← Prog.get).stable sid with
  | some x => pure x
  | none => Prog.throw (.semaphoreNotFound sid)

/-- `get_semaphore_mut(sid)?`, changed by `f` -/
def updateSemaphore (sid : Sid) (f : Semaphore → Semaphore) : PM Unit := do
  let x ← getSemaphore sid
  Prog.modify (·.setSemaphore sid (f x))

/-- `get_semaphore_mut(sid)?.queue.pop_front().unwrap()` -/
def popWaiter (sid : Sid) : PM Pid := do
  let x ← getSemaphore sid
  match x.queue with
  | [] => Prog.panic
  | pid :: rest =>
    Prog.modify (·.setSemaphore sid { x with queue := rest })
    pure pid

/-- clears SIE and returns what it was -/
def interruptDisable : PM Bool := do
  let mask := (← Prog.get).sie
  Prog.modify (·.masked)
  pure mask

def interruptRestore (mask : Bool) : PM Unit :=
  Prog.modify fun s => { s with sie := s.sie || mask }

/-- The switch of `context_switch(old, new)`: the running context is saved in `old`, the one saved
in `new` is loaded. -/
def ProcessManager.contextSwitch (s : ProcessManager) (old new : Pid) : ProcessManager :=
  { s.saveStatus old with sie := (((s.saveStatus old).ptable new).map Process.sstatus).getD s.sie }

/-! ## scheduling -/

section
variable (H : Heap)

def pushReady (d : ProcessDesc) : PM Unit :=
  Prog.modify fun s => s.setQueue (H.push s.pqueue d)

def popHeap : PM (Option ProcessDesc) := do
  match H.pop (← Prog.get).pqueue with
  | none => pure none
  | some (d, rest) =>
    Prog.modify (·.setQueue rest)
    pure (some d)

/-- the loop of `pop_ready_proc`, for at most `n` descriptors -/
def popReadyLoop : Nat → PM (Option ProcessDesc)
  | 0 => Prog.panic
  | n + 1 => do
    match ← popHeap H with
    | none => pure none
    | some p =>
      if (← getProcess p.pid).state = .ready then pure (some p)
      else popReadyLoop n

def popReadyProc : PM (Option ProcessDesc) := do
  popReadyLoop H ((← Prog.get).pqueue.length + 1)

def schedule : PM Unit := do
  let mask ← interruptDisable
  if (← Prog.get).defer.count > 0 then
    Prog.modify fun s => { s with defer := { s.defer with attempt := true } }
    interruptRestore mask
  else
    match ← popReadyProc H with
    | none => interruptRestore mask
    | some pdesc =>
      let running := (← Prog.get).running
      let oldPid := running
      let newPid := pdesc.pid
      let oldPriority := (← getProcess running).priority
      let newPriority := (← getProcess pdesc.pid).priority
      let state := (← getProcess running).state
      if oldPriority ≤ newPriority then
        if state = .running then
          setProcessState running .ready
          pushReady H ⟨oldPriority, oldPid⟩
        switchTo mask oldPid newPid
      else if state = .running then
        pushReady H ⟨newPriority, newPid⟩
        interruptRestore mask
      else
        switchTo mask oldPid newPid
where
  /-- the end of `schedule`: the new process takes the processor -/
  switchTo (mask : Bool) (oldPid newPid : Pid) : PM Unit := do
    setProcessState newPid .running
    Prog.modify ({ · with running := newPid })
    Prog.suspend (·.contextSwitch oldPid newPid)
    interruptRestore mask

def deferSchedule : DeferCommand → PM Unit
  | .start => Prog.modify fun s =>
    { s with defer := ⟨s.defer.count + 1, if s.defer.count = 0 then false else s.defer.attempt⟩ }
  | .stop => do
    Prog.modify fun s =>
      { s with defer := { s.defer with
          count := if s.defer.count = 0 then 2^64 - 1 else s.defer.count - 1 } }
    let s ← Prog.get
    if s.defer.count = 0 ∧ s.defer.attempt = true then
      schedule H

def ready (pid : Pid) : PM Unit := do
  let p ← getProcess pid
  if p.state = .free ∨ p.state = .running ∨ p.state = .ready then
    pure ()
  else
    setProcessState pid .ready
    let priority := (← getProcess pid).priority
    pushReady H ⟨priority, pid⟩
    schedule H

/-! ## semaphores -/

def createSemaphore (count : Int64) : PM Sid := do
  let mask ← interruptDisable
  let sid := (← Prog.get).currSid
  Prog.modify ({ · with currSid := sid + 1 })
  Prog.modify (·.setSemaphore sid (Semaphore.new count))
  interruptRestore mask
  pure sid

def waitSemaphore (sid : Sid) : PM Unit := do
  let mask ← interruptDisable
  let pid := (← Prog.get).running
  updateSemaphore sid fun x => { x with count := x.count - 1 }
  let count := (← getSemaphore sid).count
  if count < 0 then
    setProcessState pid .semaWait
    updateSemaphore sid fun x => { x with queue := x.queue ++ [pid] }
    schedule H
  interruptRestore mask

def signalSemaphore (sid : Sid) : PM Unit := do
  let mask ← interruptDisable
  if (← getSemaphore sid).count < 0 then
    let pid ← popWaiter sid
    updateSemaphore sid fun x => { x with count := x.count + 1 }
    ready H pid
  else
    updateSemaphore sid fun x => { x with count := x.count + 1 }
  interruptRestore mask

/-- the loop of `delete_semaphore`, for at most `n` tests of the count -/
def deleteLoop (sid : Sid) : Nat → PM Unit
  | 0 => Prog.panic
  | n + 1 => do
    if (← getSemaphore sid).count < 0 then
      let pid ← popWaiter sid
      ready H pid
      updateSemaphore sid fun x => { x with count := x.count + 1 }
      deleteLoop sid n

def deleteSemaphore (sid : Sid) : PM Unit := do
  let mask ← interruptDisable
  updateSemaphore sid fun x => { x with state := .free }
  deferSchedule H .start
  deleteLoop H sid ((-(← getSemaphore sid).count.toInt).toNat + 1)
  deferSchedule H .stop
  schedule H
  interruptRestore mask

/-! ## processes -/

/-- `setup_process` and `setup_kernel_process`: of what they set up, the saved `sstatus` -/
def setupProcess (pid : Pid) : PM Unit := do
  let _ ← getProcess pid
  Prog.modify (·.saveStatus pid)

def createProcess (priority : Nat) (doSetup : Bool) : PM Pid := do
  deferSchedule H .start
  let pid := (← Prog.get).currPid
  Prog.modify ({ · with currPid := pid + 1 })
  Prog.modify (·.insertProcess pid
    { Process.new pid with priority := priority, state := .suspend })
  if doSetup then
    setupProcess pid
  deferSchedule H .stop
  pure pid

def createKernelProcess (priority : Nat) : PM Pid := do
  let pid ← createProcess H priority false
  setupProcess pid
  pure pid

/-- `init`: the null process takes the processor -/
def ProcessManager.init : PM Unit := do
  let pid ← createProcess H 0 true
  setProcessState pid .running
  Prog.modify ({ · with running := pid })

/-! ## sleeping -/

/-- the tick of `wakeup` on the front entry of the delta queue -/
def ProcessDelay.tick (p : ProcessDelay) : ProcessDelay :=
  if p.delay ≥ 1 then { p with delay := p.delay - 1 } else p

/-- the second loop of `wakeup` -/
def readySleepers : List Pid → PM Unit
  | [] => pure ()
  | pid :: pids => do
    if (← getProcess pid).state = .sleep then
      ready H pid
    readySleepers pids

def wakeup : PM Unit := do
  let mask ← interruptDisable
  match (← Prog.get).sleepQueue with
  | [] => interruptRestore mask
  | p :: rest =>
    -- the cursor removes the leading entries whose delay has become zero
    let queue := p.tick :: rest
    let pids := (queue.takeWhile (·.delay = 0)).map (·.pid)
    Prog.modify ({ · with sleepQueue := queue.dropWhile (·.delay = 0) })
    deferSchedule H .start
    readySleepers H pids
    deferSchedule H .stop
    schedule H
    interruptRestore mask

/-- The insertion of `sleep`: `sum` is the running sum of the deltas before the list. -/
def sleepInsert (pid : Pid) (delay : UInt64) : UInt64 → List ProcessDelay → List ProcessDelay
  | sum, [] => [⟨pid, delay - sum⟩]
  | sum, node :: rest =>
    if delay < sum + node.delay then
      ⟨pid, delay - sum⟩ :: ⟨node.pid, node.delay - (delay - sum)⟩ :: rest
    else node :: sleepInsert pid delay (sum + node.delay) rest

def sleep (pid : Pid) (delay : UInt64) : PM Unit := do
  let mask ← interruptDisable
  setProcessState pid .sleep
  Prog.modify fun s => { s with sleepQueue := sleepInsert pid delay 0 s.sleepQueue }
  schedule H
  interruptRestore mask

/-! ## events and input/output -/

def ioWait (pid : Pid) : PM Unit := do
  let mask ← interruptDisable
  setProcessState pid .ioWait
  interruptRestore mask

def ioSignal (pid : Pid) : PM Unit := do
  let mask ← interruptDisable
  ready H pid
  interruptRestore mask

def eventWait (pid : Pid) (event : ProcessEvent) : PM Unit := do
  let mask ← interruptDisable
  setProcessState pid .eventWait
  Prog.modify fun s => s.setEvent event (some (s.waiters event ++ [pid]))
  schedule H
  interruptRestore mask

/-- the loop of `event_signal` -/
def readyAll : List Pid → PM Unit
  | [] => pure ()
  | pid :: pids => do
    ready H pid
    readyAll pids

def eventSignal (event : ProcessEvent) : PM Unit := do
  let mask ← interruptDisable
  deferSchedule H .start
  let events := (← Prog.get).eventQueue event
  Prog.modify (·.setEvent event none)
  match events with
  | none =>
    deferSchedule H .stop
    interruptRestore mask
  | some events =>
    readyAll H events
    deferSchedule H .stop
    schedule H
    interruptRestore mask

def kill (pid : Pid) : PM Unit := do
  let mask ← interruptDisable
  let state := (← getProcess pid).state
  if state ≠ .free then
    setProcessState pid .free
  -- here the process's memory is given back
  eventSignal H (.exit pid)
  schedule H
  interruptRestore mask

/-- The first loop of `wait_exit`: true if a child has been removed (`remove` takes a position). -/
def reapChild (running : Pid) : List Pid → PM Bool
  | [] => pure false
  | pid :: pids => do
    if (← getProcess pid).state = .free then
      let _ ← getProcess running
      Prog.modify (·.updateProcess running fun p => { p with children := p.children.eraseIdx pid })
      pure true
    else reapChild running pids

/-- the second loop of `wait_exit` -/
def waitChildren : List Pid → PM Unit
  | [] => pure ()
  | pid :: pids => do
    eventWait H (← Prog.get).running (.exit pid)
    waitChildren pids

def waitExit : PM Unit := do
  let mask ← interruptDisable
  let running := (← Prog.get).running
  if ← reapChild running (← getProcess running).children then
    -- the early return of the source: interrupts stay masked
    pure ()
  else
    deferSchedule H .start
    let running := (← Prog.get).running
    waitChildren H (← getProcess running).children
    deferSchedule H .stop
    schedule H
    interruptRestore mask

/-! ## calls -/

/-- the public operations with their arguments -/
inductive Op where
  | createProcess (priority : Nat) (doSetup : Bool)
  | createKernelProcess (priority : Nat)
  | createSemaphore (count : Int64)
  | waitSemaphore (sid : Sid)
  | signalSemaphore (sid : Sid)
  | deleteSemaphore (sid : Sid)
  | schedule
  | ready (pid : Pid)
  | wakeup
  | sleep (pid : Pid) (delay : UInt64)
  | kill (pid : Pid)
  | ioWait (pid : Pid)
  | ioSignal (pid : Pid)
  | eventWait (pid : Pid) (event : ProcessEvent)
  | eventSignal (event : ProcessEvent)
  | waitExit
  | deferStart
  | deferStop
deriving DecidableEq, Repr

/-- the call of an operation; the pid or sid that a creation returns is dropped -/
def Op.run : Op → PM Unit
  | .createProcess priority doSetup => do let _ ← Citron.createProcess H priority doSetup
  | .createKernelProcess priority => do let _ ← Citron.createKernelProcess H priority
  | .createSemaphore count => do let _ ← Citron.createSemaphore count
  | .waitSemaphore sid => Citron.waitSemaphore H sid
  | .signalSemaphore sid => Citron.signalSemaphore H sid
  | .deleteSemaphore sid => Citron.deleteSemaphore H sid
  | .schedule => Citron.schedule H
  | .ready pid => Citron.ready H pid
  | .wakeup => Citron.wakeup H
  | .sleep pid delay => Citron.sleep H pid delay
  | .kill pid => Citron.kill H pid
  | .ioWait pid => Citron.ioWait pid
  | .ioSignal pid => Citron.ioSignal H pid
  | .eventWait pid event => Citron.eventWait H pid event
  | .eventSignal event => Citron.eventSignal H event
  | .waitExit => Citron.waitExit H
  | .deferStart => Citron.deferSchedule H .start
  | .deferStop => Citron.deferSchedule H .stop

/-- the state that `ProcessManager::init` leaves -/
def ProcessManager.booted (sie : Bool) : ProcessManager :=
  ((ProcessManager.init H (ProcessManager.new sie)).first).getD (ProcessManager.new sie)

/-- The states of the kernel: any sequence of operations after `init`, each called by the process
that has the processor, where `may` allows it. -/
abbrev Reachable (may : Op → ProcessManager → Prop) (sie : Bool) :
    Sys ProcessManager ProcessError → Prop :=
  Reach ProcessManager.running (Op.run H) may (ProcessManager.booted H sie)

end

end Citron
