import Citron.Process.Ops

/-!
# The operations over other functions

The operations of `ProcessManager` once more, with the functions `schedule` and `defer` in place of `schedule` and
`defer_schedule` of the source wherever they call them, themselves or through each other.  Over the source's own they are
the operations (`Op.runWith_schedule`); over functions that stop the machine where something is wrong, a call that comes
out the same has done nothing wrong on its way.
-/

namespace Citron
open Resumption

section
variable (H : Heap) (schedule : PM Unit) (defer : DeferCommand → PM Unit)

def deferScheduleWith : DeferCommand → PM Unit
  | .start => Prog.modify fun s =>
    { s with defer := ⟨s.defer.count + 1, if s.defer.count = 0 then false else s.defer.attempt⟩ }
  | .stop => do
    Prog.modify fun s =>
      { s with defer := { s.defer with
          count := if s.defer.count = 0 then 2^64 - 1 else s.defer.count - 1 } }
    let s ← Prog.get
    if s.defer.count = 0 ∧ s.defer.attempt = true then
      schedule

def readyWith (pid : Pid) : PM Unit := do
  let p ← getProcess pid
  if p.state = .free ∨ p.state = .running ∨ p.state = .ready then
    pure ()
  else
    setProcessState pid .ready
    let priority := (← getProcess pid).priority
    pushReady H ⟨priority, pid⟩
    schedule

def waitSemaphoreWith (sid : Sid) : PM Unit := do
  let mask ← interruptDisable
  let pid := (← Prog.get).running
  updateSemaphore sid fun x => { x with count := x.count - 1 }
  let count := (← getSemaphore sid).count
  if count < 0 then
    setProcessState pid .semaWait
    updateSemaphore sid fun x => { x with queue := x.queue ++ [pid] }
    schedule
  interruptRestore mask

def signalSemaphoreWith (sid : Sid) : PM Unit := do
  let mask ← interruptDisable
  if (← getSemaphore sid).count < 0 then
    let pid ← popWaiter sid
    updateSemaphore sid fun x => { x with count := x.count + 1 }
    readyWith H schedule pid
  else
    updateSemaphore sid fun x => { x with count := x.count + 1 }
  interruptRestore mask

def deleteLoopWith (sid : Sid) : Nat → PM Unit
  | 0 => Prog.panic
  | n + 1 => do
    if (← getSemaphore sid).count < 0 then
      let pid ← popWaiter sid
      readyWith H schedule pid
      updateSemaphore sid fun x => { x with count := x.count + 1 }
      deleteLoopWith sid n

def deleteSemaphoreWith (sid : Sid) : PM Unit := do
  let mask ← interruptDisable
  updateSemaphore sid fun x => { x with state := .free }
  defer .start
  deleteLoopWith H schedule sid ((-(← getSemaphore sid).count.toInt).toNat + 1)
  defer .stop
  schedule
  interruptRestore mask

def createProcessWith (priority : Nat) (doSetup : Bool) : PM Pid := do
  defer .start
  let pid := (← Prog.get).currPid
  Prog.modify ({ · with currPid := pid + 1 })
  Prog.modify (·.insertProcess pid
    { Process.new pid with priority := priority, state := .suspend })
  if doSetup then
    setupProcess pid
  defer .stop
  pure pid

def createKernelProcessWith (priority : Nat) : PM Pid := do
  let pid ← createProcessWith defer priority false
  setupProcess pid
  pure pid

def readySleepersWith : List Pid → PM Unit
  | [] => pure ()
  | pid :: pids => do
    if (← getProcess pid).state = .sleep then
      readyWith H schedule pid
    readySleepersWith pids

def wakeupWith : PM Unit := do
  let mask ← interruptDisable
  match (← Prog.get).sleepQueue with
  | [] => interruptRestore mask
  | p :: rest =>
    let queue := p.tick :: rest
    let pids := (queue.takeWhile (·.delay = 0)).map (·.pid)
    Prog.modify ({ · with sleepQueue := queue.dropWhile (·.delay = 0) })
    defer .start
    readySleepersWith H schedule pids
    defer .stop
    schedule
    interruptRestore mask

def sleepWith (pid : Pid) (delay : UInt64) : PM Unit := do
  let mask ← interruptDisable
  setProcessState pid .sleep
  Prog.modify fun s => { s with sleepQueue := sleepInsert pid delay 0 s.sleepQueue }
  schedule
  interruptRestore mask

def ioSignalWith (pid : Pid) : PM Unit := do
  let mask ← interruptDisable
  readyWith H schedule pid
  interruptRestore mask

def eventWaitWith (pid : Pid) (event : ProcessEvent) : PM Unit := do
  let mask ← interruptDisable
  setProcessState pid .eventWait
  Prog.modify fun s => s.setEvent event (some (s.waiters event ++ [pid]))
  schedule
  interruptRestore mask

def readyAllWith : List Pid → PM Unit
  | [] => pure ()
  | pid :: pids => do
    readyWith H schedule pid
    readyAllWith pids

def eventSignalWith (event : ProcessEvent) : PM Unit := do
  let mask ← interruptDisable
  defer .start
  let events := (← Prog.get).eventQueue event
  Prog.modify (·.setEvent event none)
  match events with
  | none =>
    defer .stop
    interruptRestore mask
  | some events =>
    readyAllWith H schedule events
    defer .stop
    schedule
    interruptRestore mask

def killWith (pid : Pid) : PM Unit := do
  let mask ← interruptDisable
  let state := (← getProcess pid).state
  if state ≠ .free then
    setProcessState pid .free
  eventSignalWith H schedule defer (.exit pid)
  schedule
  interruptRestore mask

def waitChildrenWith : List Pid → PM Unit
  | [] => pure ()
  | pid :: pids => do
    eventWaitWith schedule (← Prog.get).running (.exit pid)
    waitChildrenWith pids

def waitExitWith : PM Unit := do
  let mask ← interruptDisable
  let running := (← Prog.get).running
  if ← reapChild running (← getProcess running).children then
    pure ()
  else
    defer .start
    let running := (← Prog.get).running
    waitChildrenWith schedule (← getProcess running).children
    defer .stop
    schedule
    interruptRestore mask

/-- the call of an operation, with `schedule` and `defer` in place of the source's functions -/
def Op.runWith : Op → PM Unit
  | .createProcess priority doSetup => do let _ ← createProcessWith defer priority doSetup
  | .createKernelProcess priority => do let _ ← createKernelProcessWith defer priority
  | .createSemaphore count => do let _ ← Citron.createSemaphore count
  | .waitSemaphore sid => waitSemaphoreWith schedule sid
  | .signalSemaphore sid => signalSemaphoreWith H schedule sid
  | .deleteSemaphore sid => deleteSemaphoreWith H schedule defer sid
  | .schedule => schedule
  | .ready pid => readyWith H schedule pid
  | .wakeup => wakeupWith H schedule defer
  | .sleep pid delay => sleepWith schedule pid delay
  | .kill pid => killWith H schedule defer pid
  | .ioWait pid => Citron.ioWait pid
  | .ioSignal pid => ioSignalWith H schedule pid
  | .eventWait pid event => eventWaitWith schedule pid event
  | .eventSignal event => eventSignalWith H schedule defer event
  | .waitExit => waitExitWith schedule defer
  | .deferStart => defer .start
  | .deferStop => defer .stop

end

/-! ## the source's own functions -/

section
variable (H : Heap)

theorem readyAllWith_schedule (pids : List Pid) : readyAllWith H (schedule H) pids = readyAll H pids := by
  induction pids with
  | nil => rfl
  | cons pid pids ih =>
    unfold readyAllWith readyAll
    rw [ih]
    rfl

theorem readySleepersWith_schedule (pids : List Pid) :
    readySleepersWith H (schedule H) pids = readySleepers H pids := by
  induction pids with
  | nil => rfl
  | cons pid pids ih =>
    unfold readySleepersWith readySleepers
    rw [ih]
    rfl

theorem waitChildrenWith_schedule (pids : List Pid) : waitChildrenWith (schedule H) pids = waitChildren H pids := by
  induction pids with
  | nil => rfl
  | cons pid pids ih =>
    unfold waitChildrenWith waitChildren
    rw [ih]
    rfl

theorem deleteLoopWith_schedule (sid : Sid) (n : Nat) : deleteLoopWith H (schedule H) sid n = deleteLoop H sid n := by
  induction n with
  | zero => rfl
  | succ n ih =>
    unfold deleteLoopWith deleteLoop
    rw [ih]
    rfl

theorem eventSignalWith_schedule (event : ProcessEvent) :
    eventSignalWith H (schedule H) (deferSchedule H) event = eventSignal H event := by
  have hall : readyAllWith H (schedule H) = readyAll H := funext (readyAllWith_schedule H)
  unfold eventSignalWith
  rw [hall]
  rfl

theorem killWith_schedule (pid : Pid) : killWith H (schedule H) (deferSchedule H) pid = kill H pid := by
  unfold killWith kill
  simp only [eventSignalWith_schedule]

theorem wakeupWith_schedule : wakeupWith H (schedule H) (deferSchedule H) = wakeup H := by
  have hall : readySleepersWith H (schedule H) = readySleepers H := funext (readySleepersWith_schedule H)
  unfold wakeupWith
  rw [hall]
  rfl

theorem waitExitWith_schedule : waitExitWith (schedule H) (deferSchedule H) = waitExit H := by
  unfold waitExitWith waitExit
  simp only [waitChildrenWith_schedule]

theorem deleteSemaphoreWith_schedule (sid : Sid) :
    deleteSemaphoreWith H (schedule H) (deferSchedule H) sid = deleteSemaphore H sid := by
  unfold deleteSemaphoreWith deleteSemaphore
  simp only [deleteLoopWith_schedule]

/-- over the source's functions the operations are the source's -/
theorem Op.runWith_schedule (op : Op) : op.runWith H (Citron.schedule H) (deferSchedule H) = op.run H := by
  cases op with
  | deleteSemaphore sid => exact deleteSemaphoreWith_schedule H sid
  | wakeup => exact wakeupWith_schedule H
  | kill pid => exact killWith_schedule H pid
  | eventSignal event => exact eventSignalWith_schedule H event
  | waitExit => exact waitExitWith_schedule H
  | _ => rfl

end

end Citron
