import Citron.Lib.Trace
import Citron.Process.State

/-!
# The spin lock with re-entrancy

`src/spinlock.rs`.  A `SpinLock` is a `spin::RwLock` and the pid of the last process that took it.  The
same process gets a guard of its own without a look at the `RwLock`.  The state is the lock, the running
process and the guards that are alive.  `write()` returns when no guard of the `RwLock` is alive, `read()`
when no write guard of it is.

* `step`             `lock_mut`, `lock`, the drop of a guard, a context switch;
* `Covered`          a switch leaves no guard behind that the `RwLock` does not know of, and the shortcut
                     is not taken against a guard of the `RwLock` of another process;
* `lock_excludes`    with these, no two processes hold conflicting guards.
-/

namespace Citron.SpinLock
open Trace

/-- `LockMutData`, `LockData` -/
inductive Data where
  | locking
  | sameProcess
deriving DecidableEq, Repr

/-- a guard that is alive: `LockMut` or `Lock`, and the process that took it -/
structure Guard where
  owner : Pid
  mutable : Bool
  data : Data
deriving DecidableEq, Repr

structure Machine where
  running : Pid
  recentPid : Pid
  guards : List Guard
deriving DecidableEq, Repr

/-- `SpinLock::new`, in a machine that runs process `pid` -/
def Machine.new (pid : Pid) : Machine := ⟨pid, 0, []⟩

/-- guards of the `RwLock` -/
def Guard.real (g : Guard) : Bool := g.data = .locking

/-- `spin::RwLock::write` returns -/
def Machine.canWrite (m : Machine) : Bool := m.guards.all fun g => !g.real

/-- `spin::RwLock::read` returns -/
def Machine.canRead (m : Machine) : Bool := m.guards.all fun g => !(g.real && g.mutable)

inductive Action where
  | lockMut
  | lock
  | drop (i : Nat)
  | switch (pid : Pid)
deriving DecidableEq, Repr

def Machine.take (m : Machine) (mutable : Bool) (data : Data) : Machine :=
  { m with recentPid := m.running, guards := ⟨m.running, mutable, data⟩ :: m.guards }

/-- `none`: the lock is waited for, or there is no such guard of the running process -/
def step : Action → Machine → Option Machine
  | .lockMut, m =>
    if m.running = m.recentPid then some (m.take true .sameProcess)
    else if m.canWrite then some (m.take true .locking) else none
  | .lock, m =>
    if m.running = m.recentPid then some (m.take false .sameProcess)
    else if m.canRead then some (m.take false .locking) else none
  | .drop i, m =>
    match m.guards[i]? with
    | some g => if g.owner = m.running then some { m with guards := m.guards.eraseIdx i } else none
    | none => none
  | .switch pid, m => some { m with running := pid }

/-- a `LockMut` of one process and a guard of another are not alive together -/
def Excludes (m : Machine) : Prop :=
  ∀ g ∈ m.guards, ∀ g' ∈ m.guards, g.mutable = true → g.owner = g'.owner

/-! ## the discipline -/

/-- the process of the guard holds the `RwLock` too, for writing if the guard is a `LockMut` -/
def Backed (m : Machine) (g : Guard) : Prop :=
  ∃ r ∈ m.guards, r.owner = g.owner ∧ r.real = true ∧ (g.mutable = true → r.mutable = true)

def Covered (m : Machine) : Action → Prop
  | .lockMut => m.running = m.recentPid → ∀ g ∈ m.guards, g.real = true → g.owner = m.running
  | .lock => m.running = m.recentPid → ∀ g ∈ m.guards, g.real = true → g.mutable = true → g.owner = m.running
  | .drop _ => True
  | .switch _ => ∀ g ∈ m.guards, g.owner = m.running → Backed m g

/-- the guards of the `RwLock` exclude each other, and every process that does not run is backed -/
structure Inv (m : Machine) : Prop where
  excludes : Excludes m
  backed : ∀ g ∈ m.guards, g.owner ≠ m.running → Backed m g

theorem Inv.take {m : Machine} (hm : Inv m) {mutable : Bool} {data : Data}
    (h : ∀ g ∈ m.guards, (mutable = true ∨ g.mutable = true) → g.owner = m.running) :
    Inv (m.take mutable data) := by
  constructor
  · intro g hg g' hg' hmut
    rcases List.mem_cons.mp hg with rfl | hg
    · rcases List.mem_cons.mp hg' with rfl | hg'
      · rfl
      · exact (h g' hg' (.inl hmut)).symm
    · rcases List.mem_cons.mp hg' with rfl | hg'
      · exact h g hg (.inr hmut)
      · exact hm.excludes g hg g' hg' hmut
  · intro g hg hne
    rcases List.mem_cons.mp hg with rfl | hg
    · exact absurd rfl hne
    · obtain ⟨r, hr, h1⟩ := hm.backed g hg hne
      exact ⟨r, List.mem_cons_of_mem _ hr, h1⟩

/-- another process with a guard holds the `RwLock` -/
theorem Inv.real_of_other {m : Machine} (hm : Inv m) {g : Guard} (hg : g ∈ m.guards)
    (hne : g.owner ≠ m.running) : ∃ r ∈ m.guards, r.real = true ∧ r.owner ≠ m.running ∧
      (g.mutable = true → r.mutable = true) := by
  obtain ⟨r, hr, howner, hreal, hmut⟩ := hm.backed g hg hne
  exact ⟨r, hr, hreal, howner ▸ hne, hmut⟩

theorem Inv.step {m m' : Machine} {a : Action} (hm : Inv m) (hok : Covered m a)
    (h : step a m = some m') : Inv m' := by
  cases a with
  | lockMut =>
    simp only [SpinLock.step] at h
    split at h
    · cases h
      refine hm.take fun g hg _ => ?_
      by_contra hne
      obtain ⟨r, hr, hreal, hother, -⟩ := hm.real_of_other hg hne
      exact hother (hok ‹_› r hr hreal)
    · split at h
      · cases h
        rename_i hfree
        refine hm.take fun g hg _ => ?_
        by_contra hne
        obtain ⟨r, hr, hreal, -, -⟩ := hm.real_of_other hg hne
        simpa [hreal] using List.all_eq_true.mp hfree r hr
      · cases h
  | lock =>
    simp only [SpinLock.step] at h
    split at h
    · cases h
      refine hm.take fun g hg hmut => ?_
      have hmut : g.mutable = true := hmut.resolve_left (by simp)
      by_contra hne
      obtain ⟨r, hr, hreal, hother, hrmut⟩ := hm.real_of_other hg hne
      exact hother (hok ‹_› r hr hreal (hrmut hmut))
    · split at h
      · cases h
        rename_i hfree
        refine hm.take fun g hg hmut => ?_
        have hmut : g.mutable = true := hmut.resolve_left (by simp)
        by_contra hne
        obtain ⟨r, hr, hreal, -, hrmut⟩ := hm.real_of_other hg hne
        simpa [hreal, hrmut hmut] using List.all_eq_true.mp hfree r hr
      · cases h
  | drop i =>
    simp only [SpinLock.step] at h
    split at h
    · rename_i g hg
      split at h
      · cases h
        rename_i howner
        refine ⟨fun a ha b hb => hm.excludes a (List.mem_of_mem_eraseIdx ha) b (List.mem_of_mem_eraseIdx hb),
          fun a ha hne => ?_⟩
        -- the guard that is dropped is of the running process, and backs only that
        obtain ⟨r, hr, hro, h1⟩ := hm.backed a (List.mem_of_mem_eraseIdx ha) hne
        have hrne : r ≠ g := fun e => hne (hro ▸ e ▸ howner)
        refine ⟨r, ?_, hro, h1⟩
        obtain ⟨j, hj⟩ := List.mem_iff_getElem?.mp hr
        have hji : j ≠ i := fun e => hrne (Option.some.inj (hj.symm.trans (e ▸ hg)))
        exact List.mem_eraseIdx_iff_getElem?.mpr ⟨j, hji, hj⟩
      · cases h
    · cases h
  | switch pid =>
    cases h
    refine ⟨hm.excludes, fun g hg _ => ?_⟩
    by_cases hrun : g.owner = m.running
    · exact hok g hg hrun
    · exact hm.backed g hg hrun

/-- **The lock excludes other processes**, in every state of a run that keeps the discipline. -/
theorem lock_excludes (pid : Pid) (actions : List Action) (m : Machine)
    (hok : Throughout step Covered actions (Machine.new pid)) (hrun : run step actions (Machine.new pid) = some m) :
    Excludes m := by
  have hinit : Inv (Machine.new pid) := ⟨by simp [Excludes, Machine.new], by simp [Machine.new]⟩
  exact (invariant Covered Inv (fun _ _ _ hm hok h => hm.step hok h) actions hinit hok hrun).excludes

/-- a guard of process 1, kept over a switch, and others inside it -/
def sampleRun : List Action := [.switch 1, .lockMut, .lock, .drop 0, .switch 2, .switch 1, .lock]

theorem lock_excludes_example :
    run step sampleRun (Machine.new 0) = some ⟨1, 1, [⟨1, false, .sameProcess⟩, ⟨1, true, .locking⟩]⟩ ∧
    Excludes ⟨1, 1, [⟨1, false, .sameProcess⟩, ⟨1, true, .locking⟩]⟩ :=
  ⟨by decide, lock_excludes 0 sampleRun _ (by simp [sampleRun, Throughout, Covered, step, Machine.new, Machine.take,
    Machine.canWrite, Backed, Guard.real]) (by decide)⟩

/-- the first process takes no lock, and another one gets the `RwLock` -/
theorem lock_shared : ∃ m, run step [.lockMut, .switch 1, .lockMut] (Machine.new 0) = some m ∧ ¬ Excludes m :=
  ⟨⟨1, 1, [⟨1, true, .locking⟩, ⟨0, true, .sameProcess⟩]⟩, by decide, by
    intro h
    have := h ⟨1, true, .locking⟩ (by decide) ⟨0, true, .sameProcess⟩ (by decide) rfl
    simp at this⟩

end Citron.SpinLock
