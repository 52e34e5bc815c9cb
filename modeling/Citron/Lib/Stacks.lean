import Citron.Lib.Memory

/-!
# Frames on stacks that grow downwards

Several threads, each with a stack of its own, push frames of one size below their stack pointers.

* `Stacks`                     where the stacks are;
* `Laid`                       the frames lie in their stacks, apart from each other, none below the stack pointer
                               of the thread that runs;
* `Laid.push`, `Laid.pop`      a frame comes and goes, `Laid.run` another thread runs.
-/

/-- the stacks of the threads, none of which meets another -/
structure Stacks (ι : Type) where
  lo : ι → Nat
  hi : ι → Nat
  apart : ∀ i j, i ≠ j → hi i ≤ lo j ∨ hi j ≤ lo i

namespace Stacks
variable {ι : Type}

/-- a frame, by its thread and its lowest address -/
structure Frame (ι : Type) where
  thread : ι
  base : Nat
deriving DecidableEq, Repr

/-- all stacks together -/
def area (S : Stacks ι) : Set Nat := {a | ∃ i, S.lo i ≤ a ∧ a < S.hi i}

/-- the stack pointer of the thread `cur` is in its stack, below the frames of the thread -/
structure Below (S : Stacks ι) (frames : Set (Frame ι)) (cur : ι) (sp : Nat) : Prop where
  lo : S.lo cur ≤ sp
  hi : sp ≤ S.hi cur
  above : ∀ f ∈ frames, f.thread = cur → sp ≤ f.base

/-- **The frames are where they were pushed.** -/
structure Laid (S : Stacks ι) (n : Nat) (frames : Set (Frame ι)) (cur : ι) (sp : Nat) : Prop
    extends Below S frames cur sp where
  inside : ∀ f ∈ frames, S.lo f.thread ≤ f.base ∧ f.base + n ≤ S.hi f.thread
  apart : ∀ f ∈ frames, ∀ g ∈ frames, f ≠ g → f.base + n ≤ g.base ∨ g.base + n ≤ f.base

variable {S : Stacks ι} {n : Nat} {frames : Set (Frame ι)} {cur : ι} {sp : Nat}

theorem Laid.range_subset (h : Laid S n frames cur sp) {f : Frame ι} (hf : f ∈ frames) : Mem.range f.base n ⊆ S.area := by
  intro a ha
  have := h.inside f hf
  rw [Mem.mem_range] at ha
  exact ⟨f.thread, by omega, by omega⟩

/-- a frame right below the stack pointer meets no other -/
theorem Laid.clear (h : Laid S n frames cur sp) (hroom : S.lo cur + n ≤ sp) {f : Frame ι} (hf : f ∈ frames) :
    f.base + n ≤ sp - n ∨ sp - n + n ≤ f.base := by
  have hin := h.inside f hf
  have hhi := h.hi
  by_cases hc : f.thread = cur
  · have := h.above f hf hc
    omega
  · have := S.apart f.thread cur hc
    omega

/-- nor what its thread has above it -/
theorem Laid.clear_above (h : Laid S n frames cur sp) (hroom : S.lo cur + n ≤ sp) {f : Frame ι} (hf : f ∈ frames) :
    Disjoint (Mem.range (sp - n) n) (Set.Ico (f.base + n) (S.hi f.thread)) := by
  rw [Set.disjoint_left]
  intro a ha ha'
  rw [Mem.mem_range] at ha
  rw [Set.mem_Ico] at ha'
  have hin := h.inside f hf
  have hhi := h.hi
  by_cases hc : f.thread = cur
  · have := h.above f hf hc
    omega
  · have := S.apart f.thread cur hc
    omega

theorem Laid.push (h : Laid S n frames cur sp) (hroom : S.lo cur + n ≤ sp) :
    Laid S n (insert ⟨cur, sp - n⟩ frames) cur (sp - n) := by
  have hhi := h.hi
  refine ⟨⟨by omega, by omega, ?_⟩, ?_, ?_⟩
  · rintro f (rfl | hf) hc
    · exact le_rfl
    · have := h.above f hf hc
      omega
  · rintro f (rfl | hf)
    · exact ⟨by dsimp only; omega, by dsimp only; omega⟩
    · exact h.inside f hf
  · rintro f (rfl | hf) g (rfl | hg) hne
    · exact absurd rfl hne
    · exact Or.symm (h.clear hroom hg)
    · exact h.clear hroom hf
    · exact h.apart f hf g hg hne

/-- the last frame of the thread is popped -/
theorem Laid.pop {f : Frame ι} (h : Laid S n frames f.thread f.base) (hf : f ∈ frames) :
    Laid S n (frames \ {f}) f.thread (f.base + n) := by
  have hin := h.inside f hf
  refine ⟨⟨by omega, hin.2, ?_⟩, fun g hg => h.inside g hg.1, fun g hg k hk => h.apart g hg.1 k hk.1⟩
  rintro g ⟨hg, hne⟩ hc
  have hle := h.above g hg hc
  rcases h.apart f hf g hg (Ne.symm hne) with hlt | hlt
  · exact hlt
  · -- it would have to be empty
    omega

/-- another thread runs, or the same one somewhere else -/
theorem Laid.run (h : Laid S n frames cur sp) {cur' : ι} {sp' : Nat} (hb : Below S frames cur' sp') :
    Laid S n frames cur' sp' := ⟨hb, h.inside, h.apart⟩

end Stacks
