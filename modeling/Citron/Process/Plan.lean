import Citron.Process.Hooks

/-!
# What an operation does, apart from scheduling

Every operation of the process manager first changes the state in a few indivisible acts and then
does nothing but scheduling: its plan is the list of the acts and the list of what is left
(`Tail`).  Between the two nothing can give the processor away.

* `Act`, `Act.apply`     the acts and their effect on the state;
* `Op.body`              the plan of a call, read off the state in which it begins (`Op.entry`).
-/

namespace Citron
open Resumption

/-- waiting for something: neither dead, nor on the processor, nor ready for it -/
def State.blocked : State → Bool
  | .free => false
  | .running => false
  | .ready => false
  | _ => true

theorem State.blocked_iff (st : State) :
    st.blocked = false ↔ st = .free ∨ st = .running ∨ st = .ready := by
  cases st <;> simp [State.blocked]

def Semaphore.take (x : Semaphore) : Semaphore := { x with count := x.count - 1 }
def Semaphore.post (x : Semaphore) : Semaphore := { x with count := x.count + 1 }

/-! ## acts -/

inductive Act where
  | start
  | stop
  | attempt
  | create (priority : Nat)
  | setup (pid : Pid)
  | newSem (count : Int64)
  /-- the count goes down; below zero the running process is put to wait -/
  | semWait (sid : Sid)
  | semPost (sid : Sid)
  /-- the first waiter leaves the queue and the count goes up -/
  | semPop (sid : Sid)
  | semFree (sid : Sid)
  | wake (pid : Pid)
  /-- the same under a deferral: the attempt to schedule is noted -/
  | wakeLater (pid : Pid)
  | sleepOn (pid : Pid) (delay : UInt64)
  | tick
  | sleepers (pids : List Pid)
  | ioOn (pid : Pid)
  | eventOn (pid : Pid) (event : ProcessEvent)
  | takeEvent (event : ProcessEvent)
  | kill (pid : Pid)
  | reap (pid : Pid) (index : Nat)

namespace ProcessManager
variable (H : Heap)

def setAttempt (s : ProcessManager) : ProcessManager :=
  { s with defer := { s.defer with attempt := true } }

/-- what `ready` does to a blocked process -/
def makeReady (s : ProcessManager) (pid : Pid) (p : Process) : ProcessManager :=
  (s.setState pid .ready).setQueue (H.push s.pqueue ⟨p.priority, pid⟩)

def wake (s : ProcessManager) (pid : Pid) : ProcessManager :=
  match s.ptable pid with
  | some p => if p.state.blocked then s.makeReady H pid p else s
  | none => s

def wakeLater (s : ProcessManager) (pid : Pid) : ProcessManager :=
  match s.ptable pid with
  | some p => if p.state.blocked then (s.makeReady H pid p).setAttempt else s
  | none => s

/-- the processes of the list that are asleep are woken, in order -/
def wakeSleepers (s : ProcessManager) : List Pid → ProcessManager
  | [] => s
  | pid :: pids =>
    wakeSleepers (if s.stateOf pid = some .sleep then s.wakeLater H pid else s) pids

/-- the delta queue after one tick of its front entry -/
def ticked (s : ProcessManager) : List ProcessDelay :=
  match s.sleepQueue with
  | [] => []
  | p :: rest => p.tick :: rest

end ProcessManager

def Act.apply (H : Heap) : Act → ProcessManager → ProcessManager
  | .start, s =>
    { s with defer := ⟨s.defer.count + 1, if s.defer.count = 0 then false else s.defer.attempt⟩ }
  | .stop, s =>
    { s with defer := { s.defer with
        count := if s.defer.count = 0 then 2^64 - 1 else s.defer.count - 1 } }
  | .attempt, s => s.setAttempt
  | .create priority, s =>
    { s.insertProcess s.currPid { Process.new s.currPid with priority, state := .suspend } with
        currPid := s.currPid + 1 }
  | .setup pid, s => s.saveStatus pid
  | .newSem count, s =>
    { s.setSemaphore s.currSid (Semaphore.new count) with currSid := s.currSid + 1 }
  | .semWait sid, s =>
    match s.stable sid with
    | none => s
    | some x =>
      if x.take.count < 0 then
        (s.setState s.running .semaWait).setSemaphore sid
          { x.take with queue := x.queue ++ [s.running] }
      else s.setSemaphore sid x.take
  | .semPost sid, s =>
    match s.stable sid with
    | none => s
    | some x => s.setSemaphore sid x.post
  | .semPop sid, s =>
    match s.stable sid with
    | none => s
    | some x => s.setSemaphore sid { x.post with queue := x.queue.tail }
  | .semFree sid, s =>
    match s.stable sid with
    | none => s
    | some x => s.setSemaphore sid { x with state := .free }
  | .wake pid, s => s.wake H pid
  | .wakeLater pid, s => s.wakeLater H pid
  | .sleepOn pid delay, s =>
    { s.setState pid .sleep with sleepQueue := sleepInsert pid delay 0 s.sleepQueue }
  | .tick, s => { s with sleepQueue := s.ticked.dropWhile (·.delay = 0) }
  | .sleepers pids, s => s.wakeSleepers H pids
  | .ioOn pid, s => s.setState pid .ioWait
  | .eventOn pid event, s =>
    (s.setState pid .eventWait).setEvent event (some (s.waiters event ++ [pid]))
  | .takeEvent event, s => s.setEvent event none
  | .kill pid, s => s.setState pid .free
  | .reap pid index, s =>
    s.updateProcess pid fun p => { p with children := p.children.eraseIdx index }

section
variable {H : Heap} {s : ProcessManager} {sid : Sid} {x : Semaphore}

theorem semWait_none (h : s.stable sid = none) : (Act.semWait sid).apply H s = s := by
  delta Act.apply
  dsimp only
  rw [h]

theorem semWait_block (h : s.stable sid = some x) (hc : x.take.count < 0) :
    (Act.semWait sid).apply H s = (s.setState s.running .semaWait).setSemaphore sid
      { x.take with queue := x.queue ++ [s.running] } := by
  delta Act.apply
  dsimp only
  rw [h]
  exact if_pos hc

theorem semWait_pass (h : s.stable sid = some x) (hc : ¬ x.take.count < 0) :
    (Act.semWait sid).apply H s = s.setSemaphore sid x.take := by
  delta Act.apply
  dsimp only
  rw [h]
  exact if_neg hc

theorem semPost_none (h : s.stable sid = none) : (Act.semPost sid).apply H s = s := by
  delta Act.apply
  dsimp only
  rw [h]

theorem semPost_some (h : s.stable sid = some x) :
    (Act.semPost sid).apply H s = s.setSemaphore sid x.post := by
  delta Act.apply
  dsimp only
  rw [h]

theorem semPop_none (h : s.stable sid = none) : (Act.semPop sid).apply H s = s := by
  delta Act.apply
  dsimp only
  rw [h]

theorem semPop_some (h : s.stable sid = some x) : (Act.semPop sid).apply H s
    = s.setSemaphore sid { x.post with queue := x.queue.tail } := by
  delta Act.apply
  dsimp only
  rw [h]

theorem semFree_none (h : s.stable sid = none) : (Act.semFree sid).apply H s = s := by
  delta Act.apply
  dsimp only
  rw [h]

theorem semFree_some (h : s.stable sid = some x) :
    (Act.semFree sid).apply H s = s.setSemaphore sid { x with state := .free } := by
  delta Act.apply
  dsimp only
  rw [h]

end

def applyAll (H : Heap) (acts : List Act) (s : ProcessManager) : ProcessManager :=
  acts.foldl (fun s a => a.apply H s) s

@[simp] theorem applyAll_nil (H : Heap) (s : ProcessManager) : applyAll H [] s = s := rfl
@[simp] theorem applyAll_cons (H : Heap) (a : Act) (acts : List Act) (s : ProcessManager) :
    applyAll H (a :: acts) s = applyAll H acts (a.apply H s) := rfl
@[simp] theorem applyAll_append (H : Heap) (acts acts' : List Act) (s : ProcessManager) :
    applyAll H (acts ++ acts') s = applyAll H acts' (applyAll H acts s) := by
  simp [applyAll]

/-! ## tails -/

inductive Tail where
  | sched
  | restore (mask : Bool)
deriving DecidableEq

/-- what is left of a call, with `schedule` in place of the source's -/
def runTail (schedule : PM Unit) : List Tail → PM Unit
  | [] => pure ()
  | .sched :: l => do
    schedule
    runTail schedule l
  | .restore mask :: l => do
    interruptRestore mask
    runTail schedule l

section
variable (sched : PM Unit)

@[simp] theorem runTail_nil (s : ProcessManager) : runTail sched [] s = .ok () s := rfl
@[simp] theorem runTail_sched (l : List Tail) (s : ProcessManager) :
    runTail sched (.sched :: l) s = (sched s).bind (fun _ => runTail sched l) := rfl
@[simp] theorem runTail_restore (mask : Bool) (l : List Tail) (s : ProcessManager) :
    runTail sched (.restore mask :: l) s = runTail sched l { s with sie := s.sie || mask } := rfl

theorem runTail_single (s : ProcessManager) : runTail sched [.sched] s = sched s :=
  Res.bind_ok _

theorem runTail_append (l l' : List Tail) (s : ProcessManager) :
    runTail sched (l ++ l') s = (runTail sched l s).bind (fun _ => runTail sched l') := by
  induction l generalizing s with
  | nil => rfl
  | cons t l ih =>
    cases t with
    | sched =>
      rw [List.cons_append, runTail_sched, runTail_sched, Res.bind_assoc]
      congr 1
      funext _ s'
      exact ih s'
    | restore mask =>
      rw [List.cons_append, runTail_restore, runTail_restore]
      exact ih _

end

/-! ## plans -/

inductive Plan where
  | fail (e : ProcessError) (acts : List Act)
  | panic
  | go (acts : List Act) (tail : List Tail)

def Plan.run (H : Heap) (schedule : PM Unit) : Plan → PM Unit
  | .fail e acts => fun s => .err e (applyAll H acts s)
  | .panic => fun _ => .panic
  | .go acts tail => fun s => runTail schedule tail (applyAll H acts s)

/-- more acts before a plan -/
def Plan.after (acts : List Act) : Plan → Plan
  | .fail e acts' => .fail e (acts ++ acts')
  | .panic => .panic
  | .go acts' tail => .go (acts ++ acts') tail

/-- what the last `defer_schedule(Stop)` still schedules -/
def stopTail (s : ProcessManager) : List Tail :=
  if s.defer.count = 1 ∧ s.defer.attempt = true then [.sched] else []

section
variable (H : Heap)

/-- acts under one more deferral, then `tail` -/
def deferred (acts : List Act) (tail : List Tail) (s : ProcessManager) : Plan :=
  .go (.start :: acts ++ [.stop]) (stopTail (applyAll H (.start :: acts) s) ++ tail)

def readyPlan (pid : Pid) (rest : List Tail) (s : ProcessManager) : Plan :=
  match s.ptable pid with
  | none => .fail (.processNotFound pid) []
  | some p => .go [.wake pid] (if p.state.blocked then .sched :: rest else rest)

def signalPlan (event : ProcessEvent) (rest : List Tail) (s : ProcessManager) : Plan :=
  match s.eventQueue event with
  | none => .go [.start, .takeEvent event, .stop] rest
  | some pids => deferred H (.takeEvent event :: pids.map .wakeLater) (.sched :: rest) s

/-- the acts of the loop of `delete_semaphore`, for the waiters `pids` -/
def freeAll (sid : Sid) (pids : List Pid) : List Act :=
  pids.flatMap fun pid => [.semPop sid, .wakeLater pid]

/-- the position that `wait_exit` removes from the list of the children -/
def exited (s : ProcessManager) (pids : List Pid) : Option Pid :=
  pids.find? fun pid => s.stateOf pid = some .free

/-- the plan of a call that begins in `s`; `mask` is what it restores at the end -/
def Op.body (s : ProcessManager) (mask : Bool) : Op → Plan
  | .createProcess priority doSetup =>
    .go ([.start, .create priority] ++ (if doSetup then [.setup s.currPid] else []) ++ [.stop]) []
  | .createKernelProcess priority => .go [.start, .create priority, .stop, .setup s.currPid] []
  | .createSemaphore count => .go [.newSem count] [.restore mask]
  | .waitSemaphore sid =>
    match s.stable sid with
    | none => .fail (.semaphoreNotFound sid) []
    | some x =>
      .go [.semWait sid] (if x.take.count < 0 then [.sched, .restore mask] else [.restore mask])
  | .signalSemaphore sid =>
    match s.stable sid with
    | none => .fail (.semaphoreNotFound sid) []
    | some x =>
      if x.count < 0 then
        match x.queue with
        | [] => .panic
        | pid :: _ => (readyPlan pid [.restore mask] s).after [.semPop sid]
      else .go [.semPost sid] [.restore mask]
  | .deleteSemaphore sid =>
    match s.stable sid with
    | none => .fail (.semaphoreNotFound sid) []
    | some x =>
      if (-x.count.toInt).toNat ≤ x.queue.length then
        (deferred H (freeAll sid (x.queue.take (-x.count.toInt).toNat)) [.sched, .restore mask]
          ((Act.semFree sid).apply H s)).after [.semFree sid]
      else .panic
  | .schedule => .go [] [.sched]
  | .ready pid => readyPlan pid [] s
  | .wakeup =>
    match s.sleepQueue with
    | [] => .go [] [.restore mask]
    | _ :: _ =>
      (deferred H [.sleepers ((s.ticked.takeWhile (·.delay = 0)).map (·.pid))]
        [.sched, .restore mask] ((Act.tick).apply H s)).after [.tick]
  | .sleep pid delay =>
    match s.ptable pid with
    | none => .fail (.processNotFound pid) []
    | some _ => .go [.sleepOn pid delay] [.sched, .restore mask]
  | .kill pid =>
    match s.ptable pid with
    | none => .fail (.processNotFound pid) []
    | some _ =>
      (signalPlan H (.exit pid) [.restore false, .sched, .restore mask]
        ((Act.kill pid).apply H s)).after [.kill pid]
  | .ioWait pid =>
    match s.ptable pid with
    | none => .fail (.processNotFound pid) []
    | some _ => .go [.ioOn pid] [.restore mask]
  | .ioSignal pid => readyPlan pid [.restore mask] s
  | .eventWait pid event =>
    match s.ptable pid with
    | none => .fail (.processNotFound pid) []
    | some _ => .go [.eventOn pid event] [.sched, .restore mask]
  | .eventSignal event => signalPlan H event [.restore mask] s
  | .waitExit =>
    match s.ptable s.running with
    | none => .fail (.processNotFound s.running) []
    | some p =>
      match exited s p.children with
      | some pid => .go [.reap s.running pid] []
      | none =>
        deferred H (p.children.flatMap fun pid => [.eventOn s.running (.exit pid), .attempt])
          [.sched, .restore mask] s
  | .deferStart => .go [.start] []
  | .deferStop => .go [.stop] (stopTail s)

/-- the operations that begin with `interrupt_disable` -/
def Op.masks : Op → Bool
  | .createProcess _ _ => false
  | .createKernelProcess _ => false
  | .schedule => false
  | .ready _ => false
  | .deferStart => false
  | .deferStop => false
  | _ => true

/-- the state in which a call begins its plan -/
def Op.entry (op : Op) (s : ProcessManager) : ProcessManager := if op.masks then s.masked else s

end

end Citron
