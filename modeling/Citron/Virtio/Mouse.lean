import Citron.Process.States
import Citron.Lib.Trace

/-!
# The mouse and the kernel process

The loop of `kproc` (`src/kmain.rs`) and the interrupts of the mouse, over the whole kernel: between any two
steps of the loop other processes may call any operation, and `pending` of the mouse may be called by whoever
has the processor.  With interrupts off nothing comes between the steps of `pending`.

* `step`              the steps of `kproc`, of `pending` and of the rest of the kernel;
* `Lost`              `kproc` waits for the mouse while there are events and nobody is to tell it;
* `punctual`          no event comes between the test of the queue and `event_wait`;
* `no_lost_wakeup`    with this no wake-up is lost.
-/

namespace Citron.Mouse
open Resumption Trace

variable {E : Type}

/-- the next step of `kproc`: before the loop, the test of the queue, `event_wait`, `pop_front` -/
inductive Kproc where
  | start
  | test
  | wait
  | pop
deriving DecidableEq, Repr

/-- the kernel, the mouse's `event_queue`, the place of `kproc`, and whether `pending` has pushed events that
it has not signalled -/
structure MouseRun (E : Type) where
  sys : Sys ProcessManager ProcessError
  queue : List E
  pc : Kproc
  handling : Bool

inductive MouseAction (E : Type) where
  | enter
  | test
  | wait
  | pop
  | push (event : E)
  | signal
  /-- a step of the kernel: the running process goes on with its call, or calls an operation -/
  | kernel (l : Option Op)

section
variable (H : Heap) (kproc : Pid)

/-- `kproc` has the processor, and is neither in a call nor interrupted -/
def MouseRun.turn (s : MouseRun E) : Bool :=
  !s.handling && s.sys.st.running == kproc && (s.sys.susp s.sys.st.running).isNone

/-- `kproc` waits for events nowhere but in its loop, and nobody makes it wait -/
def others (s : MouseRun E) : Option Op → Bool
  | some (.eventWait pid _) => pid != kproc
  | some .waitExit => s.sys.st.running != kproc
  | _ => true

def step : MouseAction E → MouseRun E → Option (MouseRun E)
  | .enter, s => if s.turn kproc && s.pc == .start then some { s with pc := .test } else none
  | .test, s =>
    if s.turn kproc && s.pc == .test then some { s with pc := if s.queue.isEmpty then .wait else .pop } else none
  | .wait, s =>
    if s.turn kproc && s.pc == .wait then
      (s.sys.step ProcessManager.running (Op.run H) (some (.eventWait s.sys.st.running .mouseEvent))).map
        fun sys => { s with sys, pc := .test }
    else none
  | .pop, s =>
    if s.turn kproc && s.pc == .pop then
      match s.queue with
      | [] => some { s with pc := .test }
      | _ :: queue => some { s with queue }
    else none
  | .push event, s =>
    if (s.sys.susp s.sys.st.running).isNone then some { s with queue := s.queue ++ [event], handling := true }
    else none
  | .signal, s =>
    (s.sys.step ProcessManager.running (Op.run H) (some (.eventSignal .mouseEvent))).map
      fun sys => { s with sys, handling := false }
  | .kernel l, s =>
    if !s.handling && others kproc s l then
      (s.sys.step ProcessManager.running (Op.run H) l).map fun sys => { s with sys }
    else none

/-- the kernel has just started -/
def init (sie : Bool) : MouseRun E := ⟨⟨ProcessManager.booted H sie, fun _ => none⟩, [], .start, false⟩

def Lost (s : MouseRun E) : Prop :=
  s.sys.st.stateOf kproc = some .eventWait ∧ kproc ∈ s.sys.st.waiters .mouseEvent ∧ s.queue ≠ [] ∧
    s.handling = false

/-- no event is pushed while `kproc` is between the test that found the queue empty and `event_wait` -/
def punctual (s : MouseRun E) : MouseAction E → Bool
  | .push _ => s.pc != .wait
  | _ => true

end

/-! ## the invariant -/

section
variable {H : Heap} {kproc : Pid} {sie : Bool} {s s' : MouseRun E}

structure Awake (H : Heap) (kproc : Pid) (sie : Bool) (s : MouseRun E) : Prop where
  reach : Reachable H (fun _ _ => True) sie s.sys
  listed : s.sys.st.stateOf kproc = some .eventWait → kproc ∈ s.sys.st.waiters .mouseEvent
  tested : s.pc = .wait → s.queue = []
  empty : s.sys.st.stateOf kproc = some .eventWait → s.handling = false → s.queue = []

theorem awake_init : Awake H kproc sie (init H sie : MouseRun E) := by
  have hst : (ProcessManager.booted H sie).stateOf kproc ≠ some .eventWait := by
    rw [booted_stateOf]
    split <;> simp
  exact ⟨.init, fun h => absurd h hst, nofun, fun _ _ => rfl⟩

/-- a step of the kernel that does not make `kproc` wait -/
theorem Awake.kernel (hs : Awake H kproc sie s) {l : Option Op} {sys : Sys ProcessManager ProcessError}
    (h : s.sys.step ProcessManager.running (Op.run H) l = some sys) (hl : others kproc s l = true) (pc : Kproc)
    (hpc : pc = .wait → s.pc = .wait) (handling : Bool)
    (hh : handling = false → s.handling = false ∨ l = some (.eventSignal .mouseEvent)) :
    Awake H kproc sie { s with sys, pc, handling } := by
  have hwait : ∀ e, l ≠ some (.eventWait kproc e) := by
    rintro e rfl
    simp [others] at hl
  have hexit : l = some .waitExit → kproc ≠ s.sys.st.running := by
    rintro rfl e
    simp [others, e] at hl
  have hstep : sys.st.stateOf kproc = some .eventWait → s.sys.st.stateOf kproc = some .eventWait ∧
      (kproc ∈ s.sys.st.waiters .mouseEvent →
        kproc ∈ sys.st.waiters .mouseEvent ∧ l ≠ some (.eventSignal .mouseEvent)) :=
    fun hst => Reachable.eventWait_step hs.reach h hwait hexit hst
  refine ⟨.step hs.reach (fun _ _ => trivial) h, fun hst => ?_, fun e => hs.tested (hpc e), fun hst e => ?_⟩
  · obtain ⟨hst, hm⟩ := hstep hst
    exact (hm (hs.listed hst)).1
  · obtain ⟨hst, hm⟩ := hstep hst
    rcases hh e with e | e
    · exact hs.empty hst e
    · exact absurd e (hm (hs.listed hst)).2

/-- `kproc` begins to wait with no event in the queue -/
theorem Awake.wait (hs : Awake H kproc sie s) (h : step H kproc .wait s = some s') : Awake H kproc sie s' := by
  simp only [step] at h
  split at h
  · rename_i hturn
    obtain ⟨hturn, hpc⟩ := Bool.and_eq_true_iff.mp hturn
    obtain ⟨sys, hsys, rfl⟩ := Option.map_eq_some_iff.mp h
    have hrun : s.sys.st.running = kproc := by
      simp only [MouseRun.turn, Bool.and_eq_true, beq_iff_eq] at hturn
      exact hturn.1.2
    rw [hrun] at hsys
    exact ⟨.step hs.reach (fun _ _ => trivial) hsys, Reachable.listed_eventWait hs.reach hsys, nofun,
      fun _ _ => hs.tested (beq_iff_eq.mp hpc)⟩
  · cases h

theorem Awake.step (hs : Awake H kproc sie s) {a : MouseAction E} (hok : punctual s a = true)
    (h : step H kproc a s = some s') : Awake H kproc sie s' := by
  cases a with
  | enter =>
    simp only [Mouse.step] at h
    split at h
    · cases h
      exact ⟨hs.reach, hs.listed, nofun, hs.empty⟩
    · cases h
  | test =>
    simp only [Mouse.step] at h
    split at h
    · cases h
      refine ⟨hs.reach, hs.listed, fun e => ?_, hs.empty⟩
      change (if s.queue.isEmpty = true then Kproc.wait else .pop) = .wait at e
      split at e
      · rename_i hq
        exact List.isEmpty_iff.mp hq
      · cases e
    · cases h
  | wait => exact hs.wait h
  | pop =>
    simp only [Mouse.step] at h
    split at h
    · rename_i hturn
      have hpc : s.pc = .pop := beq_iff_eq.mp (Bool.and_eq_true_iff.mp hturn).2
      split at h
      · cases h
        exact ⟨hs.reach, hs.listed, nofun, hs.empty⟩
      · rename_i hq
        cases h
        refine ⟨hs.reach, hs.listed, fun e => ?_, fun hst e => ?_⟩
        · exact absurd (hpc.symm.trans e) (by simp)
        · exact absurd (hq.symm.trans (hs.empty hst e)) (by simp)
    · cases h
  | push event =>
    simp only [Mouse.step] at h
    split at h
    · cases h
      exact ⟨hs.reach, hs.listed, fun e => absurd e (bne_iff_ne.mp hok), fun _ => nofun⟩
    · cases h
  | signal =>
    obtain ⟨sys, hsys, rfl⟩ := Option.map_eq_some_iff.mp h
    exact hs.kernel hsys rfl s.pc id false fun _ => .inr rfl
  | kernel l =>
    simp only [Mouse.step] at h
    split at h
    · rename_i hl
      obtain ⟨sys, hsys, rfl⟩ := Option.map_eq_some_iff.mp h
      exact hs.kernel hsys (Bool.and_eq_true_iff.mp hl).2 s.pc id s.handling .inl
    · cases h

end

/-- **No lost mouse wake-up**, in a run in which no event comes between the test and `event_wait`. -/
theorem no_lost_wakeup (H : Heap) (kproc : Pid) (sie : Bool) (actions : List (MouseAction E)) (s : MouseRun E)
    (hok : Throughout (step H kproc) (fun s a => punctual s a = true) actions (init H sie))
    (hrun : run (step H kproc) actions (init H sie) = some s) : ¬ Lost kproc s := by
  have hs := invariant _ (Awake H kproc sie) (fun _ _ _ hs hok h => hs.step hok h) actions awake_init hok hrun
  intro ⟨hst, _, hq, hh⟩
  exact hq (hs.empty hst hh)

/-- `kproc` is created, gets the processor and finds no event -/
def atWait : List (MouseAction Nat) :=
  [.kernel (some (.createKernelProcess 1)), .kernel (some (.ready 1)), .enter, .test]

/-- then it waits, is woken by an event and goes on -/
def woken : List (MouseAction Nat) := atWait ++ [.wait, .kernel none, .push 7, .signal, .kernel none, .test]

theorem no_lost_wakeup_example : ∃ s, run (step (BinaryHeap.scan _) 1) woken (init (BinaryHeap.scan _) true) = some s ∧
    ¬ Lost 1 s := by
  have hsome : (run (step (BinaryHeap.scan _) 1) woken (init (BinaryHeap.scan _) true)).isSome = true := by
    decide +kernel
  obtain ⟨s, hs⟩ := Option.isSome_iff_exists.mp hsome
  exact ⟨s, hs, no_lost_wakeup (BinaryHeap.scan _) 1 true woken s (by decide +kernel) hs⟩

instance (kproc : Pid) (s : MouseRun Nat) : Decidable (Lost kproc s) := inferInstanceAs (Decidable (_ ∧ _))

/-- an event comes, with interrupts on, just before `kproc` waits -/
theorem wakeup_lost : ∃ s₀ s, run (step (BinaryHeap.scan _) 1) atWait (init (BinaryHeap.scan _) true) = some s₀ ∧
    s₀.sys.st.sie = true ∧ run (step (BinaryHeap.scan _) 1) [.push 7, .signal, .wait] s₀ = some s ∧ Lost 1 s := by
  have h : (run (step (BinaryHeap.scan _) 1) atWait (init (BinaryHeap.scan _) true)).any (fun s₀ =>
      s₀.sys.st.sie && (run (step (BinaryHeap.scan _) 1) [.push 7, .signal, .wait] s₀).any (Lost 1 ·)) = true := by
    decide +kernel
  obtain ⟨s₀, h₀, h⟩ := (Option.any_eq_true _ _).mp h
  obtain ⟨hsie, h⟩ := Bool.and_eq_true_iff.mp h
  obtain ⟨s, hs, h⟩ := (Option.any_eq_true _ _).mp h
  exact ⟨s₀, s, h₀, hsie, hs, of_decide_eq_true h⟩

end Citron.Mouse
