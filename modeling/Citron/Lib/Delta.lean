import Mathlib.Algebra.GroupWithZero.Nat
import Mathlib.Data.List.TakeWhile

/-!
# Delta lists

A list of entries that each say how long they lie behind the one before.  The time of an entry is the sum of the deltas
up to it; an insertion changes one delta, a tick only the first one.

* `times`        the entries with their times;
* `put`          an entry more, `times_put` in terms of the times;
* `tick`         one tick off the front, `expire_tick_iff` says when it is one off every time (`OnBeat`).
-/

namespace Delta
variable {α : Type}

/-- the entries of a list that begins at the time `sum`, with their times -/
def times : Nat → List (α × Nat) → List (α × Nat)
  | _, [] => []
  | sum, (a, d) :: q => (a, sum + d) :: times (sum + d) q

/-- the sum of some times, or of all deltas -/
def total (l : List (α × Nat)) : Nat := (l.map (·.2)).sum

theorem total_cons (e : α × Nat) (l : List (α × Nat)) : total (e :: l) = e.2 + total l := by
  unfold total
  rw [List.map_cons, List.sum_cons]

theorem le_of_mem_times {e : α × Nat} (q : List (α × Nat)) : ∀ {sum : Nat}, e ∈ times sum q →
    sum ≤ e.2 ∧ e.2 ≤ sum + total q := by
  induction q with
  | nil => exact fun h => absurd h List.not_mem_nil
  | cons x q ih =>
    intro sum h
    obtain ⟨a, d⟩ := x
    rw [total_cons]
    rcases List.mem_cons.mp h with rfl | h
    · exact ⟨Nat.le_add_right _ _, show sum + d ≤ sum + (d + total q) by omega⟩
    · obtain ⟨hlow, hhigh⟩ := ih h
      exact ⟨Nat.le_trans (Nat.le_add_right _ _) hlow, show e.2 ≤ sum + (d + total q) by omega⟩

/-- the last time is the end of the list -/
theorem total_lt {n : Nat} (q : List (α × Nat)) : ∀ {sum : Nat}, sum < n → (∀ e ∈ times sum q, e.2 < n) →
    sum + total q < n := by
  induction q with
  | nil => exact fun h _ => h
  | cons x q ih =>
    intro sum _ hall
    rw [total_cons, ← Nat.add_assoc]
    exact ih (hall _ List.mem_cons_self) fun e he => hall e (List.mem_cons_of_mem _ he)

/-! ## insertion -/

/-- an entry more, with the time `t`, in a list that begins at the time `sum` -/
def put (a : α) (t : Nat) : Nat → List (α × Nat) → List (α × Nat)
  | sum, [] => [(a, t - sum)]
  | sum, (b, d) :: q =>
    if t < sum + d then (a, t - sum) :: (b, d - (t - sum)) :: q else (b, d) :: put a t (sum + d) q

/-- **Insertion.**  The new entry comes behind all that are not later, and no other time changes. -/
theorem times_put (a : α) (t : Nat) (q : List (α × Nat)) : ∀ sum : Nat, sum ≤ t →
    ∃ l l', times sum q = l ++ l' ∧ (∀ e ∈ l, e.2 ≤ t) ∧ (∀ e ∈ l', t < e.2) ∧
      times sum (put a t sum q) = l ++ (a, t) :: l' := by
  induction q with
  | nil =>
    intro sum hle
    refine ⟨[], [], rfl, by simp, by simp, ?_⟩
    show [(a, sum + (t - sum))] = _
    rw [Nat.add_sub_cancel' hle]
    rfl
  | cons x q ih =>
    intro sum hle
    obtain ⟨b, d⟩ := x
    unfold put
    by_cases hlt : t < sum + d
    · -- all that follow are later still
      refine ⟨[], times sum ((b, d) :: q), rfl, by simp, fun e he => ?_, ?_⟩
      · rcases List.mem_cons.mp he with rfl | he
        · exact hlt
        · exact Nat.lt_of_lt_of_le hlt (le_of_mem_times q he).1
      · have hnew : sum + (t - sum) = t := Nat.add_sub_cancel' hle
        have hold : t + (d - (t - sum)) = sum + d := by omega
        rw [if_pos hlt]
        show (a, sum + (t - sum)) :: (b, sum + (t - sum) + (d - (t - sum))) :: times _ q = _
        rw [hnew, hold]
        rfl
    · obtain ⟨l, l', hq, hl, hl', hput⟩ := ih (sum + d) (by omega)
      refine ⟨(b, sum + d) :: l, l', ?_, fun e he => ?_, hl', ?_⟩
      · show (b, sum + d) :: times (sum + d) q = _
        rw [hq]
        rfl
      · rcases List.mem_cons.mp he with rfl | he
        · exact Nat.le_of_not_lt hlt
        · exact hl e he
      · rw [if_neg hlt]
        show (b, sum + d) :: times (sum + d) (put a t (sum + d) q) = _
        rw [hput]
        rfl

/-! ## ticks -/

/-- one tick off the first delta, if there is one left -/
def tick : List (α × Nat) → List (α × Nat)
  | [] => []
  | (a, d) :: q => (a, d - 1) :: q

/-- an entry one tick later -/
def sooner (e : α × Nat) : α × Nat := (e.1, e.2 - 1)

theorem times_pred (q : List (α × Nat)) : ∀ {sum : Nat}, 0 < sum → times (sum - 1) q = (times sum q).map sooner := by
  induction q with
  | nil => exact fun _ => rfl
  | cons x q ih =>
    intro sum hpos
    obtain ⟨a, d⟩ := x
    have hsum : sum - 1 + d = sum + d - 1 := by omega
    show (a, sum - 1 + d) :: times (sum - 1 + d) q = (a, sum + d - 1) :: (times (sum + d) q).map sooner
    rw [hsum, ih (by omega)]

/-- what lies behind one tick less comes at most one tick sooner -/
theorem times_shift (q : List (α × Nat)) : ∀ {sum sum' : Nat}, sum ≤ sum' + 1 → ∀ e ∈ times sum' q,
    ∃ k, (e.1, k) ∈ times sum q ∧ k ≤ e.2 + 1 := by
  induction q with
  | nil => exact fun _ e he => absurd he List.not_mem_nil
  | cons x q ih =>
    intro sum sum' hle e he
    obtain ⟨a, d⟩ := x
    rcases List.mem_cons.mp he with rfl | he
    · exact ⟨sum + d, List.mem_cons_self, show sum + d ≤ sum' + d + 1 by omega⟩
    · obtain ⟨k, hk, hke⟩ := ih (show sum + d ≤ sum' + d + 1 by omega) e he
      exact ⟨k, List.mem_cons_of_mem _ hk, hke⟩

/-- a tick brings an entry at most one tick nearer -/
theorem mem_times_tick {e : α × Nat} (q : List (α × Nat)) (he : e ∈ times 0 (tick q)) :
    ∃ k, (e.1, k) ∈ times 0 q ∧ k ≤ e.2 + 1 := by
  cases q with
  | nil => exact absurd he List.not_mem_nil
  | cons x q =>
    obtain ⟨a, d⟩ := x
    rcases List.mem_cons.mp he with rfl | he
    · exact ⟨0 + d, List.mem_cons_self, show 0 + d ≤ 0 + (d - 1) + 1 by omega⟩
    · obtain ⟨k, hk, hke⟩ := times_shift q (show 0 + d ≤ 0 + (d - 1) + 1 by omega) e he
      exact ⟨k, List.mem_cons_of_mem _ hk, hke⟩

theorem total_tick_le (q : List (α × Nat)) : total (tick q) ≤ total q := by
  cases q with
  | nil => exact Nat.le_refl _
  | cons x q =>
    show total ((x.1, x.2 - 1) :: q) ≤ _
    rw [total_cons, total_cons]
    exact Nat.add_le_add_right (Nat.sub_le _ _) _

/-- the entries in front without a delta are those of the time 0 -/
theorem takeWhile_eq (q : List (α × Nat)) :
    (q.takeWhile (·.2 = 0)).map (·.1) = ((times 0 q).filter (·.2 = 0)).map (·.1) := by
  induction q with
  | nil => rfl
  | cons x q ih =>
    obtain ⟨a, d⟩ := x
    by_cases hd : d = 0
    · subst hd
      rw [List.takeWhile_cons_of_pos (by simp)]
      show _ = (List.filter _ ((a, 0) :: times 0 q)).map _
      rw [List.filter_cons_of_pos (by simp), List.map_cons, List.map_cons, ih]
    · rw [List.takeWhile_cons_of_neg (by simpa using hd), List.filter_eq_nil_iff.mpr]
      intro e he hzero
      have hzero : e.2 = 0 := of_decide_eq_true hzero
      rcases List.mem_cons.mp he with rfl | he
      · exact hd (by simpa using hzero)
      · have := (le_of_mem_times q he).1
        omega

/-- without them the others keep their times -/
theorem times_dropWhile (q : List (α × Nat)) :
    times 0 (q.dropWhile (·.2 = 0)) = (times 0 q).filter (0 < ·.2) := by
  induction q with
  | nil => rfl
  | cons x q ih =>
    obtain ⟨a, d⟩ := x
    by_cases hd : d = 0
    · subst hd
      rw [List.dropWhile_cons_of_pos (by simp), ih]
      show _ = List.filter _ ((a, 0) :: times 0 q)
      rw [List.filter_cons_of_neg (by simp)]
    · rw [List.dropWhile_cons_of_neg (by simpa using hd), List.filter_eq_self.mpr]
      intro e he
      refine decide_eq_true ?_
      rcases List.mem_cons.mp he with rfl | he
      · show 0 < 0 + d
        omega
      · have := (le_of_mem_times q he).1
        omega

theorem total_dropWhile_le (p : α × Nat → Bool) (q : List (α × Nat)) : total (q.dropWhile p) ≤ total q := by
  induction q with
  | nil => exact Nat.le_refl _
  | cons x q ih =>
    by_cases hx : p x = true
    · rw [List.dropWhile_cons_of_pos hx, total_cons]
      exact Nat.le_trans ih (Nat.le_add_left _ _)
    · rw [List.dropWhile_cons_of_neg hx]

/-- a list whose front entry has run out is not changed by a tick -/
theorem tick_zero {q : List (α × Nat)} (h : ∀ e ∈ q.head?, e.2 = 0) : tick q = q := by
  cases q with
  | nil => rfl
  | cons x q =>
    obtain ⟨a, d⟩ := x
    obtain rfl : d = 0 := h (a, d) rfl
    rfl

theorem filter_sooner (l : List (α × Nat)) :
    (l.map sooner).filter (0 < ·.2) = (l.filter (1 < ·.2)).map sooner := by
  rw [List.filter_map]
  congr 1
  refine List.filter_congr fun e _ => ?_
  show decide (0 < e.2 - 1) = decide (1 < e.2)
  rw [decide_eq_decide]
  omega

/-- if some time is left, a tick takes something away -/
theorem total_sooner (l : List (α × Nat)) :
    total ((l.filter (1 < ·.2)).map sooner) ≤ total (l.filter (0 < ·.2)) ∧
      ((∃ e ∈ l, 0 < e.2) → total ((l.filter (1 < ·.2)).map sooner) < total (l.filter (0 < ·.2))) := by
  induction l with
  | nil => exact ⟨Nat.le_refl _, fun ⟨e, he, _⟩ => absurd he List.not_mem_nil⟩
  | cons x l ih =>
    obtain ⟨hle, hlt⟩ := ih
    by_cases hzero : x.2 = 0
    · rw [List.filter_cons_of_neg (by simp [hzero]), List.filter_cons_of_neg (by simp [hzero])]
      refine ⟨hle, fun ⟨e, he, hpos⟩ => hlt ?_⟩
      rcases List.mem_cons.mp he with rfl | he
      · omega
      · exact ⟨e, he, hpos⟩
    · have hpos : (x :: l).filter (0 < ·.2) = x :: l.filter (0 < ·.2) :=
        List.filter_cons_of_pos (decide_eq_true (Nat.pos_of_ne_zero hzero))
      rw [hpos, total_cons]
      by_cases hone : x.2 = 1
      · rw [List.filter_cons_of_neg (by simp [hone])]
        omega
      · have hx : (sooner x).2 = x.2 - 1 := rfl
        have hkept : (x :: l).filter (1 < ·.2) = x :: l.filter (1 < ·.2) :=
          List.filter_cons_of_pos (decide_eq_true (by omega))
        rw [hkept, List.map_cons, total_cons, hx]
        omega

theorem exists_pos_times {q : List (α × Nat)} : (∃ e ∈ times 0 q, 0 < e.2) ↔ ∃ e ∈ q, 0 < e.2 := by
  have h := times_dropWhile q
  constructor
  · intro ⟨e, he, hpos⟩
    by_contra hno
    have hall : q.dropWhile (·.2 = 0) = [] := by
      refine List.dropWhile_eq_nil_iff.mpr fun x hx => decide_eq_true ?_
      exact Nat.eq_zero_of_not_pos fun hx' => hno ⟨x, hx, hx'⟩
    rw [hall] at h
    exact absurd (h ▸ List.mem_filter.mpr ⟨he, decide_eq_true hpos⟩) List.not_mem_nil
  · intro ⟨e, he, hpos⟩
    cases hdrop : q.dropWhile (·.2 = 0) with
    | nil =>
      have := List.dropWhile_eq_nil_iff.mp hdrop e he
      have : e.2 = 0 := of_decide_eq_true this
      omega
    | cons x l =>
      rw [hdrop] at h
      have hx : (x.1, 0 + x.2) ∈ (times 0 q).filter (0 < ·.2) := h ▸ List.mem_cons_self
      exact ⟨_, (List.mem_filter.mp hx).1, of_decide_eq_true (List.mem_filter.mp hx).2⟩

/-- the front entry has a tick left, or no entry has -/
def OnBeat (q : List (α × Nat)) : Prop := ∀ e ∈ q.head?, e.2 = 0 → ∀ e ∈ q, e.2 = 0

/-- on the beat, a tick is one off every time -/
theorem times_tick {q : List (α × Nat)} (h : OnBeat q) : times 0 (tick q) = (times 0 q).map sooner := by
  cases q with
  | nil => rfl
  | cons x q =>
    obtain ⟨a, d⟩ := x
    by_cases hd : d = 0
    · have hall := h (a, d) rfl hd
      have hzero : ∀ e ∈ times 0 ((a, d) :: q), e.2 = 0 := by
        intro e he
        by_contra hne
        obtain ⟨x, hx, hpos⟩ := exists_pos_times.mp ⟨e, he, Nat.pos_of_ne_zero hne⟩
        exact Nat.ne_of_gt hpos (hall x hx)
      have hsame : ∀ e ∈ times 0 ((a, d) :: q), sooner e = id e := fun e he => by
        unfold sooner
        rw [hzero e he]
        exact Prod.ext rfl (hzero e he).symm
      rw [tick_zero fun e he => Option.some.inj he ▸ hd, List.map_congr_left hsame, List.map_id]
    · show (a, 0 + (d - 1)) :: times (0 + (d - 1)) q = (a, 0 + d - 1) :: (times (0 + d) q).map sooner
      rw [← times_pred q (show 0 < 0 + d by omega), show 0 + (d - 1) = 0 + d - 1 by omega]

/-- **Ticks.**  A tick off the front, and the entries that have run out removed: this takes one off every time if and
only if the front entry has a tick left, or no entry has. -/
theorem expire_tick_iff (q : List (α × Nat)) :
    times 0 ((tick q).dropWhile (·.2 = 0)) = ((times 0 q).filter (1 < ·.2)).map sooner ↔ OnBeat q := by
  rw [times_dropWhile]
  constructor
  · intro heq e he hzero x hx
    by_contra hne
    have htick : tick q = q := tick_zero fun e' he' => Option.mem_unique he he' ▸ hzero
    have hlt := (total_sooner (times 0 q)).2 (exists_pos_times.mpr ⟨x, hx, Nat.pos_of_ne_zero hne⟩)
    rw [← heq, htick] at hlt
    exact Nat.lt_irrefl _ hlt
  · intro h
    rw [times_tick h, filter_sooner]

/-- on the beat, the entries that a tick lets run out are those with at most one tick left -/
theorem mem_expired_iff {q : List (α × Nat)} (h : OnBeat q) (a : α) :
    a ∈ ((tick q).takeWhile (·.2 = 0)).map (·.1) ↔ ∃ e ∈ times 0 q, e.1 = a ∧ e.2 ≤ 1 := by
  rw [takeWhile_eq, times_tick h]
  constructor
  · intro ha
    obtain ⟨e, he, rfl⟩ := List.mem_map.mp ha
    obtain ⟨he, hzero⟩ := List.mem_filter.mp he
    obtain ⟨x, hx, rfl⟩ := List.mem_map.mp he
    have hzero : x.2 - 1 = 0 := of_decide_eq_true hzero
    exact ⟨x, hx, rfl, by omega⟩
  · rintro ⟨e, he, rfl, hle⟩
    refine List.mem_map.mpr ⟨sooner e, List.mem_filter.mpr ⟨List.mem_map_of_mem he, decide_eq_true ?_⟩, rfl⟩
    show e.2 - 1 = 0
    omega

end Delta
