import Mathlib.Data.Finite.Prod
import Mathlib.Data.Finset.Card
import Mathlib.Data.Set.Finite.Basic

/-!
# Walks

A walk goes from state to state, as a move says, until a move stops it with a result.

* `run`, `after`    the result within `n` moves, and the state after `n` moves;
* `run_related`     two walks that move in step have the same results;
* `ends_iff`        a walk among finitely many states ends exactly when it comes back to no state;
* `Ends.run_card`   and then after at most one move for each state.
-/

namespace Orbit

/-- a move of a walk: it stops with a result, or goes on in a state -/
inductive Move (α ρ : Type) where
  | stop (r : ρ)
  | go (a : α)

section
variable {α ρ : Type} (move : α → Move α ρ)

/-- the result of at most `n` moves -/
def run : Nat → α → Option ρ
  | 0, _ => none
  | n + 1, a =>
    match move a with
    | .stop r => some r
    | .go b => run n b

/-- the state after `n` moves -/
def after : Nat → α → Option α
  | 0, a => some a
  | n + 1, a =>
    match move a with
    | .stop _ => none
    | .go b => after n b

def Ends (a : α) : Prop := ∃ n, (run move n a).isSome

/-- a state is visited twice -/
def ComesBack (a : α) : Prop := ∃ i j b, i < j ∧ after move i a = some b ∧ after move j a = some b

variable {move}

theorem run_stop {a : α} {r : ρ} (h : move a = .stop r) (n : Nat) : run move (n + 1) a = some r := by
  unfold run
  rw [h]

theorem run_go {a b : α} (h : move a = .go b) (n : Nat) : run move (n + 1) a = run move n b := by
  rw [run, h]

theorem after_stop {a : α} {r : ρ} (h : move a = .stop r) (n : Nat) : after move (n + 1) a = none := by
  unfold after
  rw [h]

theorem after_go {a b : α} (h : move a = .go b) (n : Nat) : after move (n + 1) a = after move n b := by
  rw [after, h]

theorem run_mono {r : ρ} {m n : Nat} (hle : m ≤ n) : ∀ {a : α}, run move m a = some r → run move n a = some r := by
  induction m generalizing n with
  | zero => intro a h; cases h
  | succ m ih =>
    intro a h
    obtain ⟨n, rfl⟩ : ∃ k, n = k + 1 := ⟨n - 1, by omega⟩
    cases hmove : move a with
    | stop s => rwa [run_stop hmove] at h ⊢
    | go b =>
      rw [run_go hmove] at h ⊢
      exact ih (Nat.le_of_succ_le_succ hle) h

theorem ends_stop {a : α} {r : ρ} (h : move a = .stop r) : Ends move a := by
  refine ⟨1, ?_⟩
  rw [run_stop h]
  rfl

theorem ends_go {a b : α} (h : move a = .go b) : Ends move a ↔ Ends move b := by
  constructor
  · intro ⟨n, hn⟩
    obtain _ | n := n
    · cases hn
    · rw [run_go h] at hn
      exact ⟨n, hn⟩
  · intro ⟨n, hn⟩
    refine ⟨n + 1, ?_⟩
    rw [run_go h]
    exact hn

/-- no result so far: the walk still goes on -/
theorem run_eq_none_iff (n : Nat) : ∀ a : α, run move n a = none ↔ (after move n a).isSome := by
  induction n with
  | zero => exact fun a => iff_of_true rfl rfl
  | succ n ih =>
    intro a
    cases hmove : move a with
    | stop r =>
      rw [run_stop hmove, after_stop hmove]
      exact iff_of_false (fun h => by cases h) (fun h => by cases h)
    | go b =>
      rw [run_go hmove, after_go hmove]
      exact ih b

/-- where the results come from -/
theorem run_eq_some_iff {r : ρ} {a : α} :
    (∃ n, run move n a = some r) ↔ ∃ n b, after move n a = some b ∧ move b = .stop r := by
  constructor
  · intro ⟨n, h⟩
    induction n generalizing a with
    | zero => cases h
    | succ n ih =>
      cases hmove : move a with
      | stop s =>
        rw [run_stop hmove] at h
        cases h
        exact ⟨0, a, rfl, hmove⟩
      | go b =>
        rw [run_go hmove] at h
        obtain ⟨k, c, hafter, hstop⟩ := ih h
        exact ⟨k + 1, c, (after_go hmove k).trans hafter, hstop⟩
  · intro ⟨n, b, hafter, hstop⟩
    induction n generalizing a with
    | zero =>
      cases hafter
      exact ⟨1, run_stop hstop 0⟩
    | succ n ih =>
      cases hmove : move a with
      | stop s =>
        rw [after_stop hmove] at hafter
        cases hafter
      | go c =>
        rw [after_go hmove] at hafter
        obtain ⟨k, hrun⟩ := ih hafter
        exact ⟨k + 1, (run_go hmove k).trans hrun⟩

theorem after_add (m n : Nat) : ∀ a : α, after move (m + n) a = (after move m a).bind (after move n) := by
  induction m with
  | zero =>
    intro a
    rw [Nat.zero_add]
    rfl
  | succ m ih =>
    intro a
    rw [Nat.succ_add]
    cases hmove : move a with
    | stop r =>
      rw [after_stop hmove, after_stop hmove]
      rfl
    | go b =>
      rw [after_go hmove, after_go hmove]
      exact ih b

/-- what every move keeps -/
theorem after_invariant (I : α → Prop) (hstep : ∀ a b, I a → move a = .go b → I b) (n : Nat) : ∀ {a b : α}, I a →
    after move n a = some b → I b := by
  induction n with
  | zero =>
    intro a b ha h
    cases h
    exact ha
  | succ n ih =>
    intro a b ha h
    cases hmove : move a with
    | stop r =>
      rw [after_stop hmove] at h
      cases h
    | go c =>
      rw [after_go hmove] at h
      exact ih (hstep a c ha hmove) h

/-- a walk that comes back to a state goes round -/
theorem after_round {b : α} {d : Nat} (h : after move d b = some b) (k : Nat) : after move (k * d) b = some b := by
  induction k with
  | zero =>
    rw [Nat.zero_mul]
    rfl
  | succ k ih => rw [Nat.succ_mul, after_add, ih, Option.bind_some, h]

/-- a walk that comes back to a state does not end -/
theorem ComesBack.not_ends {a : α} (h : ComesBack move a) : ¬ Ends move a := by
  obtain ⟨i, j, b, hlt, hi, hj⟩ := h
  intro ⟨n, hn⟩
  have hround : after move (j - i) b = some b := by
    rw [← Nat.add_sub_cancel' (Nat.le_of_lt hlt), after_add, hi] at hj
    exact hj
  -- after `n` rounds there are more than `n` moves, and no result
  have hlong : after move (n + (i + n * (j - i) - n)) a = some b := by
    have hle : n ≤ n * (j - i) := Nat.le_mul_of_pos_right n (Nat.sub_pos_of_lt hlt)
    rw [Nat.add_sub_cancel' (Nat.le_trans hle (Nat.le_add_left _ _)), after_add, hi]
    exact after_round hround n
  cases hafter : after move n a with
  | none =>
    rw [after_add, hafter] at hlong
    cases hlong
  | some c =>
    rw [(run_eq_none_iff n a).mpr (by rw [hafter]; rfl)] at hn
    cases hn

/-- a walk that stays where it is -/
theorem not_ends_of_stays {a : α} (h : move a = .go a) : ¬ Ends move a :=
  ComesBack.not_ends ⟨0, 1, a, Nat.zero_lt_one, rfl, after_go h 0⟩

/-- **A walk among finitely many states ends exactly when it comes back to none of them.** -/
theorem ends_iff {a : α} (hfin : {b | ∃ n, after move n a = some b}.Finite) : Ends move a ↔ ¬ ComesBack move a := by
  constructor
  · exact fun hends hback => hback.not_ends hends
  · intro hback
    by_contra hends
    have hgoes : ∀ n, ∃ b, after move n a = some b := by
      intro n
      refine Option.isSome_iff_exists.mp ((run_eq_none_iff n a).mp (Option.eq_none_iff_forall_ne_some.mpr ?_))
      exact fun r h => hends ⟨n, by rw [h]; rfl⟩
    choose state hstate using hgoes
    have hinj : Function.Injective state := by
      intro i j he
      rcases Nat.lt_trichotomy i j with hlt | rfl | hgt
      · exact (hback ⟨i, j, state j, hlt, he ▸ hstate i, hstate j⟩).elim
      · rfl
      · exact (hback ⟨j, i, state i, hgt, he ▸ hstate j, hstate i⟩).elim
    have hmem : ∀ n, state n ∈ {b | ∃ n, after move n a = some b} := fun n => ⟨n, hstate n⟩
    exact Set.infinite_of_injective_forall_mem hinj hmem hfin

/-- **A walk that ends** makes at most one move for each state that it can be in. -/
theorem Ends.run_card {a : α} (h : Ends move a) {S : Finset α} (hmem : ∀ n b, after move n a = some b → b ∈ S) :
    (run move S.card a).isSome := by
  by_contra hrun
  have hlast : (after move S.card a).isSome := (run_eq_none_iff S.card a).mp (Option.not_isSome_iff_eq_none.mp hrun)
  have hbefore : ∀ n ≤ S.card, ∃ b, after move n a = some b := by
    intro n hn
    rw [← Nat.add_sub_cancel' hn, after_add] at hlast
    cases hafter : after move n a with
    | none =>
      rw [hafter] at hlast
      cases hlast
    | some b => exact ⟨b, rfl⟩
  -- one state more than there are in `S`
  have hcard : (S.map Function.Embedding.some).card < (Finset.range (S.card + 1)).card := by
    rw [Finset.card_map, Finset.card_range]
    exact Nat.lt_succ_self _
  have hmaps : ∀ n ∈ Finset.range (S.card + 1), after move n a ∈ S.map Function.Embedding.some := by
    intro n hn
    obtain ⟨b, hb⟩ := hbefore n (Nat.le_of_lt_succ (Finset.mem_range.mp hn))
    rw [hb]
    exact Finset.mem_map_of_mem _ (hmem n b hb)
  obtain ⟨i, hi, j, -, hne, he⟩ := Finset.exists_ne_map_eq_of_card_lt_of_maps_to hcard hmaps
  obtain ⟨b, hb⟩ := hbefore i (Nat.le_of_lt_succ (Finset.mem_range.mp hi))
  rcases Nat.lt_or_gt_of_ne hne with hlt | hgt
  · exact ComesBack.not_ends ⟨i, j, b, hlt, hb, he.symm.trans hb⟩ h
  · exact ComesBack.not_ends ⟨j, i, b, hgt, he.symm.trans hb, hb⟩ h

end

/-! ## two walks -/

/-- both stop, with results that correspond, or both go on -/
def InStep {α β ρ ς : Type} (R : α → β → Prop) (S : ρ → ς → Prop) : Move α ρ → Move β ς → Prop
  | .stop r, .stop s => S r s
  | .go a, .go b => R a b
  | _, _ => False

section
variable {α β ρ ς : Type} {move : α → Move α ρ} {move' : β → Move β ς} {R : α → β → Prop} {S : ρ → ς → Prop}

/-- **Walks that move in step** have the same results, as far as they correspond. -/
theorem run_related (hstep : ∀ a b, R a b → InStep R S (move a) (move' b)) (n : Nat) : ∀ {a : α} {b : β}, R a b →
    Option.Rel S (run move n a) (run move' n b) := by
  induction n with
  | zero => exact fun _ => .none
  | succ n ih =>
    intro a b h
    have hmoves := hstep a b h
    cases hmove : move a with
    | stop r =>
      cases hmove' : move' b with
      | stop s =>
        rw [hmove, hmove'] at hmoves
        rw [run_stop hmove, run_stop hmove']
        exact .some hmoves
      | go b =>
        rw [hmove, hmove'] at hmoves
        exact hmoves.elim
    | go a =>
      cases hmove' : move' b with
      | stop s =>
        rw [hmove, hmove'] at hmoves
        exact hmoves.elim
      | go b =>
        rw [hmove, hmove'] at hmoves
        rw [run_go hmove, run_go hmove']
        exact ih hmoves

theorem rel_some {r : ρ} {y : Option ς} (h : Option.Rel S (some r) y) : ∃ s, y = some s ∧ S r s := by
  cases h with
  | some h => exact ⟨_, rfl, h⟩

theorem rel_some' {x : Option ρ} {s : ς} (h : Option.Rel S x (some s)) : ∃ r, x = some r ∧ S r s := by
  cases h with
  | some h => exact ⟨_, rfl, h⟩

end

end Orbit
