import Mathlib.Data.List.Nodup
import Mathlib.Logic.Function.Basic

/-!
# Radix trees whose inner nodes own a page

A key is a list of indices, read from the root.  A leaf may stand at any depth and stands for every key
through it; an inner node carries the page it is stored on.

* `Radix.lookup`     the leaf a key leads to, with the rest of the key;
* `Radix.Fits`       no inner node lies deeper than the keys are long;
* `Radix.Deep`       every leaf stands at the full depth;
* `Radix.Separate`   no page is used twice;
* `Radix.nodes`      the pages in the order in which they can be given back;
* `Radix.visits`     a walk that reads the pages and gives them back in this order;
* `Radix.Paved`      the nodes that a leaf at the end of a path needs are there;
* `Radix.missing`    how many of them are not;
* `Radix.Alike`      the same shape and leaves;
* `Radix.Ins`        one insertion, with the pages it adds;
* `Ins.lookup_through`, `Ins.lookup_aside`   **the update law**: a key through the inserted path finds the
                     new leaf, every other key finds what it found before.
-/

inductive Radix (ι α κ : Type) where
  | empty
  | leaf (a : α)
  | node (page : κ) (sub : ι → Radix ι α κ)

namespace Radix
variable {ι α κ : Type}

def lookup : Radix ι α κ → List ι → Option (α × List ι)
  | empty, _ => none
  | leaf a, js => some (a, js)
  | node _ _, [] => none
  | node _ sub, j :: js => (sub j).lookup js

@[simp] theorem lookup_empty (js : List ι) : (empty : Radix ι α κ).lookup js = none := rfl
@[simp] theorem lookup_leaf (a : α) (js : List ι) :
    (leaf a : Radix ι α κ).lookup js = some (a, js) := by cases js <;> rfl
@[simp] theorem lookup_node (p : κ) (sub : ι → Radix ι α κ) (j : ι) (js : List ι) :
    (node p sub).lookup (j :: js) = (sub j).lookup js := rfl

/-- the page `p` is one of the tree's -/
def Has (p : κ) : Radix ι α κ → Prop
  | empty => False
  | leaf _ => False
  | node q sub => p = q ∨ ∃ j, Has p (sub j)

def Fits : Radix ι α κ → Nat → Prop
  | empty, _ => True
  | leaf _, _ => True
  | node _ _, 0 => False
  | node _ sub, n+1 => ∀ j, (sub j).Fits n

def Separate : Radix ι α κ → Prop
  | empty => True
  | leaf _ => True
  | node p sub => (∀ j, ¬ Has p (sub j)) ∧
      (∀ j k, j ≠ k → ∀ q, Has q (sub j) → ¬ Has q (sub k)) ∧ ∀ j, (sub j).Separate

/-- the pages of the tree, each behind the pages below it, with the children in the order of `js` -/
def nodes (js : List ι) : Radix ι α κ → List κ
  | empty => []
  | leaf _ => []
  | node p sub => js.flatMap (fun j => nodes js (sub j)) ++ [p]

/-- a node with nothing below it -/
theorem nodes_bare (js : List ι) (p : κ) : (node p fun _ => empty : Radix ι α κ).nodes js = [p] := by
  have hnone : js.flatMap (fun _ => ([] : List κ)) = [] := List.flatMap_eq_nil_iff.mpr fun _ _ => rfl
  rw [nodes]
  simp only [nodes]
  rw [hnone, List.nil_append]

theorem mem_nodes {js : List ι} (hjs : ∀ j, j ∈ js) {p : κ} (t : Radix ι α κ) : p ∈ t.nodes js ↔ t.Has p := by
  induction t with
  | empty => exact List.mem_nil_iff p
  | leaf a => exact List.mem_nil_iff p
  | node q sub ih =>
    rw [nodes, List.mem_append, List.mem_flatMap, List.mem_singleton]
    show _ ↔ p = q ∨ ∃ j, (sub j).Has p
    constructor
    · rintro (⟨j, -, hj⟩ | rfl)
      · exact .inr ⟨j, (ih j).mp hj⟩
      · exact .inl rfl
    · rintro (rfl | ⟨j, hj⟩)
      · exact .inr rfl
      · exact .inl ⟨j, hjs j, (ih j).mpr hj⟩

theorem nodup_nodes {js : List ι} (hjs : ∀ j, j ∈ js) (hnd : js.Nodup) (t : Radix ι α κ) :
    t.Separate → (t.nodes js).Nodup := by
  induction t with
  | empty => exact fun _ => List.nodup_nil
  | leaf a => exact fun _ => List.nodup_nil
  | node q sub ih =>
    intro ⟨hq, hsub, hsep⟩
    rw [nodes, List.nodup_append]
    refine ⟨?_, List.nodup_singleton q, ?_⟩
    · rw [List.nodup_flatMap]
      refine ⟨fun j _ => ih j (hsep j), hnd.imp fun {j k} hjk p hj hk => ?_⟩
      exact hsub j k hjk p ((mem_nodes hjs _).mp hj) ((mem_nodes hjs _).mp hk)
    · intro p hp p' hp' he
      obtain ⟨j, -, hj⟩ := List.mem_flatMap.mp hp
      rw [he, List.mem_singleton.mp hp'] at hj
      exact hq j ((mem_nodes hjs _).mp hj)

/-! ## giving the pages back -/

/-- a page is read, or it is given back -/
inductive Visit (κ : Type) where
  | read (page : κ)
  | free (page : κ)
deriving DecidableEq, Repr

def Visit.page : Visit κ → κ
  | .read p => p
  | .free p => p

def Visit.freed : Visit κ → Option κ
  | .read _ => none
  | .free p => some p

/-- Each page is read once for every child, with the visits of the child behind, and then given back. -/
def visits (js : List ι) : Radix ι α κ → List (Visit κ)
  | empty => []
  | leaf _ => []
  | node p sub => js.flatMap (fun j => .read p :: visits js (sub j)) ++ [.free p]

theorem page_of_mem_visits {js : List ι} {v : Visit κ} (t : Radix ι α κ) : v ∈ t.visits js → t.Has v.page := by
  induction t with
  | empty => exact fun h => absurd h List.not_mem_nil
  | leaf a => exact fun h => absurd h List.not_mem_nil
  | node p sub ih =>
    rw [visits, List.mem_append, List.mem_flatMap, List.mem_singleton]
    rintro (⟨j, -, hv⟩ | rfl)
    · rcases List.mem_cons.mp hv with rfl | hv
      · exact .inl rfl
      · exact .inr ⟨j, ih j hv⟩
    · exact .inl rfl

/-- the pages that are given back, in order -/
theorem freed_visits (js : List ι) (t : Radix ι α κ) : (t.visits js).filterMap Visit.freed = t.nodes js := by
  induction t with
  | empty => rfl
  | leaf a => rfl
  | node p sub ih =>
    have hsub : ∀ ks : List ι, (ks.flatMap fun j => .read p :: (sub j).visits js).filterMap Visit.freed
        = ks.flatMap fun j => (sub j).nodes js := by
      intro ks
      induction ks with
      | nil => rfl
      | cons k ks ihk =>
        rw [List.flatMap_cons, List.flatMap_cons, List.filterMap_append, ihk, ← ih k]
        rfl
    rw [visits, nodes, List.filterMap_append, hsub]
    rfl

/-- no page is read behind the visit that gives it back -/
def Ordered (vs : List (Visit κ)) : Prop := vs.Pairwise fun v w => ∀ p, v = .free p → w ≠ .read p

theorem ordered_visits {js : List ι} (hnd : js.Nodup) (t : Radix ι α κ) : t.Separate → Ordered (t.visits js) := by
  induction t with
  | empty => exact fun _ => List.Pairwise.nil
  | leaf a => exact fun _ => List.Pairwise.nil
  | node p sub ih =>
    intro ⟨hp, hx, hsep⟩
    -- the pages below a child are neither the node's own nor those below another one
    have hsub : ∀ ks : List ι, ks.Nodup → Ordered (ks.flatMap fun j => .read p :: (sub j).visits js) := by
      intro ks
      induction ks with
      | nil => exact fun _ => List.Pairwise.nil
      | cons k ks ihk =>
        intro hks
        obtain ⟨hk, hks⟩ := List.nodup_cons.mp hks
        rw [List.flatMap_cons]
        refine List.pairwise_append.mpr ⟨List.pairwise_cons.mpr ⟨fun w _ q h => ?_, ih k (hsep k)⟩, ihk hks,
          fun v hv w hw q hfree hread => ?_⟩
        · cases h
        · subst hfree hread
          obtain ⟨l, hl, hw⟩ := List.mem_flatMap.mp hw
          have hq : (sub k).Has q := by
            rcases List.mem_cons.mp hv with hv | hv
            · cases hv
            · exact page_of_mem_visits _ hv
          rcases List.mem_cons.mp hw with hw | hw
          · cases hw
            exact hp k hq
          · exact hx k l (fun he => hk (he ▸ hl)) q hq (page_of_mem_visits _ hw)
    rw [visits]
    refine List.pairwise_append.mpr ⟨hsub js hnd, List.pairwise_singleton _ _, fun v _ w hw q _ hread => ?_⟩
    rw [List.mem_singleton.mp hw] at hread
    cases hread

/-- no leaf is met strictly above the end of the path -/
def Open : Radix ι α κ → List ι → Prop
  | _, [] => True
  | empty, _ :: _ => True
  | leaf _, _ :: _ => False
  | node _ sub, j :: js => (sub j).Open js

/-- every leaf stands at depth `n` exactly -/
def Deep : Radix ι α κ → Nat → Prop
  | empty, _ => True
  | leaf _, n => n = 0
  | node _ _, 0 => False
  | node _ sub, n+1 => ∀ j, (sub j).Deep n

theorem Deep.open {t : Radix ι α κ} : ∀ {n : Nat} {js : List ι}, t.Deep n → js.length ≤ n →
    t.Open js := by
  induction t with
  | empty => intro n js _ _; cases js <;> trivial
  | leaf a =>
    intro n js h hn
    cases js with
    | nil => trivial
    | cons j js =>
      rw [show n = 0 from h] at hn
      exact absurd hn (Nat.not_succ_le_zero _)
  | node p sub ih =>
    intro n js h hn
    cases js with
    | nil => trivial
    | cons j js =>
      cases n with
      | zero => exact absurd h id
      | succ n => exact ih j (h j) (Nat.le_of_succ_le_succ hn)

theorem open_empty (js : List ι) : (empty : Radix ι α κ).Open js := by
  cases js <;> trivial

/-- a leaf found in a tree of depth `n` is at the end of the first `n` indices of its key -/
theorem Deep.lookup_front {t : Radix ι α κ} : ∀ {n : Nat} {js rest : List ι} {a : α}, t.Deep n →
    t.lookup js = some (a, rest) → ∃ is, is.length = n ∧ js = is ++ rest ∧ t.lookup is = some (a, []) := by
  induction t with
  | empty =>
    intro n js rest a _ h
    cases h
  | leaf b =>
    intro n js rest a hd h
    rw [lookup_leaf] at h
    cases h
    exact ⟨[], Eq.symm hd, rfl, rfl⟩
  | node p sub ih =>
    intro n js rest a hd h
    cases js with
    | nil => cases h
    | cons j js =>
      cases n with
      | zero => exact absurd hd id
      | succ n =>
        obtain ⟨is, hlen, rfl, hlook⟩ := ih j (hd j) h
        exact ⟨j :: is, congrArg Nat.succ hlen, rfl, hlook⟩

theorem Deep.lookup {t : Radix ι α κ} {n : Nat} {js rest : List ι} {a : α} (hd : t.Deep n) (hn : js.length = n)
    (h : t.lookup js = some (a, rest)) : rest = [] := by
  obtain ⟨is, hlen, rfl, -⟩ := hd.lookup_front h
  rw [List.length_append] at hn
  exact List.length_eq_zero_iff.mp (by omega)

/-- every step of the path starts at a node -/
def Paved : Radix ι α κ → List ι → Prop
  | _, [] => True
  | node _ sub, j :: js => (sub j).Paved js
  | empty, _ :: _ => False
  | leaf _, _ :: _ => False

theorem paved_nil (t : Radix ι α κ) : t.Paved [] := by
  cases t <;> trivial

/-- the last index of a paved path does not matter -/
theorem Paved.last (js : List ι) {j k : ι} : ∀ {t : Radix ι α κ}, t.Paved (js ++ [j]) → t.Paved (js ++ [k]) := by
  induction js with
  | nil =>
    intro t h
    cases t with
    | empty => exact h
    | leaf a => exact h
    | node p sub => exact paved_nil (sub k)
  | cons i js ih =>
    intro t h
    cases t with
    | empty => exact h
    | leaf a => exact h
    | node p sub => exact ih h

/-- the number of nodes to make for a leaf at the end of the path -/
def missing : Radix ι α κ → List ι → Nat
  | _, [] => 0
  | node _ sub, j :: js => (sub j).missing js
  | empty, _ :: js => js.length + 1
  | leaf _, _ :: _ => 0

theorem missing_le (t : Radix ι α κ) : ∀ js : List ι, t.missing js ≤ js.length := by
  induction t with
  | empty => intro js; cases js <;> exact Nat.le_refl _
  | leaf a => intro js; cases js <;> exact Nat.zero_le _
  | node p sub ih =>
    intro js
    cases js with
    | nil => exact Nat.le_refl _
    | cons j js => exact Nat.le_succ_of_le (ih j js)

theorem Paved.missing_le (js ks : List ι) : ∀ {t : Radix ι α κ}, t.Paved js → t.missing (js ++ ks) ≤ ks.length := by
  induction js with
  | nil => exact fun {t} _ => Radix.missing_le t ks
  | cons j js ih =>
    intro t h
    cases t with
    | empty => exact absurd h id
    | leaf a => exact absurd h id
    | node p sub => exact ih h

theorem Paved.front (js ks : List ι) : ∀ {t : Radix ι α κ}, t.Paved (js ++ ks) → t.Paved js := by
  induction js with
  | nil => exact fun {t} _ => paved_nil t
  | cons j js ih =>
    intro t h
    cases t with
    | empty => exact h
    | leaf a => exact h
    | node p sub => exact ih h

/-! ## copies -/

/-- the same shape and the same leaves, on any pages -/
def Alike : Radix ι α κ → Radix ι α κ → Prop
  | empty, empty => True
  | leaf a, leaf b => a = b
  | node _ sub, node _ sub' => ∀ j, Alike (sub j) (sub' j)
  | _, _ => False

theorem Alike.lookup {t : Radix ι α κ} : ∀ {t' : Radix ι α κ}, t.Alike t' → ∀ js, t'.lookup js = t.lookup js := by
  induction t with
  | empty =>
    intro t' h js
    cases t' with
    | empty => rfl
    | leaf b => exact absurd h id
    | node p' sub' => exact absurd h id
  | leaf a =>
    intro t' h js
    cases t' with
    | empty => exact absurd h id
    | leaf b => rw [show a = b from h]
    | node p' sub' => exact absurd h id
  | node p sub ih =>
    intro t' h js
    cases t' with
    | empty => exact absurd h id
    | leaf b => exact absurd h id
    | node p' sub' =>
      cases js with
      | nil => rfl
      | cons j js => exact ih j (h j) js

theorem Alike.deep {t : Radix ι α κ} : ∀ {t' : Radix ι α κ} {n : Nat}, t.Alike t' → t.Deep n → t'.Deep n := by
  induction t with
  | empty =>
    intro t' n h _
    cases t' with
    | empty => trivial
    | leaf b => exact absurd h id
    | node p' sub' => exact absurd h id
  | leaf a =>
    intro t' n h hd
    cases t' with
    | empty => exact absurd h id
    | leaf b => exact hd
    | node p' sub' => exact absurd h id
  | node p sub ih =>
    intro t' n h hd
    cases t' with
    | empty => exact absurd h id
    | leaf b => exact absurd h id
    | node p' sub' =>
      cases n with
      | zero => exact absurd hd id
      | succ n => exact fun j => ih j (h j) (hd j)

/-! ## insertion -/

variable [DecidableEq ι]

/-- a child in another's place, on pages of that one or on new ones -/
theorem Separate.update {p : κ} {sub : ι → Radix ι α κ} {j : ι} {t : Radix ι α κ} (hs : (node p sub).Separate)
    (ht : t.Separate) (hnew : ∀ q, t.Has q → (sub j).Has q ∨ q ≠ p ∧ ∀ k, ¬ (sub k).Has q) :
    (node p (Function.update sub j t)).Separate := by
  obtain ⟨hp, hx, hc⟩ := hs
  refine ⟨fun k => ?_, fun k l hkl q => ?_, fun k => ?_⟩
  · by_cases hj : k = j
    · subst hj
      rw [Function.update_self]
      exact fun hq => (hnew p hq).elim (hp k) fun h => h.1 rfl
    · rw [Function.update_of_ne hj]
      exact hp k
  · by_cases hj : k = j
    · subst hj
      rw [Function.update_self, Function.update_of_ne (Ne.symm hkl)]
      exact fun hq => (hnew q hq).elim (hx k l hkl q) fun h => h.2 l
    · rw [Function.update_of_ne hj]
      by_cases hl : l = j
      · subst hl
        rw [Function.update_self]
        exact fun hq ht => (hnew q ht).elim (hx k l hkl q hq) fun h => h.2 k hq
      · rw [Function.update_of_ne hl]
        exact hx k l hkl q
  · by_cases hj : k = j
    · subst hj
      rw [Function.update_self]
      exact ht
    · rw [Function.update_of_ne hj]
      exact hc k

/-- `Ins a ps t js t'`: with the leaf `a` put at the end of the path `js`, the tree `t` is `t'`; the
pages `ps` are those of the nodes made on the way, from the top. -/
inductive Ins (a : α) : List κ → Radix ι α κ → List ι → Radix ι α κ → Prop
  | done (t : Radix ι α κ) : Ins a [] t [] (leaf a)
  | down {ps : List κ} {p : κ} {sub : ι → Radix ι α κ} {j : ι} {js : List ι} {t : Radix ι α κ}
      (h : Ins a ps (sub j) js t) : Ins a ps (node p sub) (j :: js) (node p (Function.update sub j t))
  | grow {ps : List κ} {p : κ} {j : ι} {js : List ι} {t : Radix ι α κ} (h : Ins a ps empty js t) :
      Ins a (p :: ps) empty (j :: js) (node p (Function.update (fun _ => empty) j t))

namespace Ins
variable {a : α} {ps : List κ} {t t' : Radix ι α κ} {js : List ι}

/-- a key through the path finds the new leaf -/
theorem lookup_through (h : Ins a ps t js t') (ks : List ι) : t'.lookup (js ++ ks) = some (a, ks) := by
  induction h with
  | done t => exact lookup_leaf a ks
  | down h ih => rw [List.cons_append, lookup_node, Function.update_self, ih]
  | grow h ih => rw [List.cons_append, lookup_node, Function.update_self, ih]

/-- a key that leaves the path finds what it found before -/
theorem lookup_aside (h : Ins a ps t js t') (ks : List ι) (hk : ¬ js <+: ks) :
    t'.lookup ks = t.lookup ks := by
  induction h generalizing ks with
  | done t => exact absurd (List.nil_prefix) hk
  | @down ps p sub j js t h ih =>
    cases ks with
    | nil => rfl
    | cons k ks =>
      rw [lookup_node, lookup_node]
      by_cases hj : k = j
      · subst hj
        rw [Function.update_self]
        exact ih ks fun hp => hk (List.cons_prefix_cons.mpr ⟨rfl, hp⟩)
      · rw [Function.update_of_ne hj]
  | @grow ps p j js t h ih =>
    cases ks with
    | nil => rfl
    | cons k ks =>
      rw [lookup_node, lookup_empty]
      by_cases hj : k = j
      · subst hj
        rw [Function.update_self]
        exact ih ks fun hp => hk (List.cons_prefix_cons.mpr ⟨rfl, hp⟩)
      · rw [Function.update_of_ne hj, lookup_empty]

theorem fits (h : Ins a ps t js t') {n : Nat} (hn : js.length ≤ n) (hf : t.Fits n) : t'.Fits n := by
  induction h generalizing n with
  | done t => cases n <;> trivial
  | @down ps p sub j js t h ih =>
    cases n with
    | zero => exact hf
    | succ n =>
      intro k
      by_cases hj : k = j
      · subst hj
        rw [Function.update_self]
        exact ih (Nat.le_of_succ_le_succ hn) (hf k)
      · rw [Function.update_of_ne hj]
        exact hf k
  | @grow ps p j js t h ih =>
    cases n with
    | zero => exact absurd hn (Nat.not_succ_le_zero _)
    | succ n =>
      intro k
      by_cases hj : k = j
      · subst hj
        rw [Function.update_self]
        exact ih (Nat.le_of_succ_le_succ hn) (by cases n <;> trivial)
      · rw [Function.update_of_ne hj]
        cases n <;> trivial

theorem deep (h : Ins a ps t js t') {n : Nat} (hn : js.length = n) (hd : t.Deep n) : t'.Deep n := by
  induction h generalizing n with
  | done t => exact hn.symm
  | @down ps p sub j js t h ih =>
    cases n with
    | zero => exact hd
    | succ n =>
      intro k
      by_cases hj : k = j
      · subst hj
        rw [Function.update_self]
        exact ih (Nat.succ.inj hn) (hd k)
      · rw [Function.update_of_ne hj]
        exact hd k
  | @grow ps p j js t h ih =>
    cases n with
    | zero => exact absurd hn (Nat.succ_ne_zero _)
    | succ n =>
      intro k
      by_cases hj : k = j
      · subst hj
        rw [Function.update_self]
        exact ih (Nat.succ.inj hn) (by cases n <;> trivial)
      · rw [Function.update_of_ne hj]
        cases n <;> trivial

/-- the new pages are those of the missing nodes -/
theorem length_eq (h : Ins a ps t js t') : ps.length = t.missing js := by
  induction h with
  | done t => cases t <;> rfl
  | down h ih => exact ih
  | @grow ps p j js t h ih =>
    rw [List.length_cons, ih]
    cases js <;> rfl

/-- under a node there is no page to add for the first step -/
theorem length_lt {p : κ} {sub : ι → Radix ι α κ} (h : Ins a ps (node p sub) js t') (hj : js ≠ []) :
    ps.length < js.length := by
  obtain ⟨j, js, rfl⟩ := List.exists_cons_of_ne_nil hj
  rw [h.length_eq]
  exact Nat.lt_succ_of_le ((sub j).missing_le js)

theorem paved (h : Ins a ps t js t') : t'.Paved js := by
  induction h with
  | done t => trivial
  | @down ps p sub j js t h ih =>
    show Paved (Function.update sub j t j) js
    rw [Function.update_self]
    exact ih
  | @grow ps p j js t h ih =>
    show Paved (Function.update (fun _ => empty) j t j) js
    rw [Function.update_self]
    exact ih

/-- every page of the new tree was there or is new -/
theorem has (h : Ins a ps t js t') {q : κ} (hq : Has q t') : Has q t ∨ q ∈ ps := by
  induction h with
  | done t => exact absurd hq id
  | @down ps p sub j js t h ih =>
    rcases hq with rfl | ⟨k, hk⟩
    · exact .inl (.inl rfl)
    · by_cases hj : k = j
      · subst hj
        rw [Function.update_self] at hk
        exact (ih hk).imp (fun h => .inr ⟨k, h⟩) id
      · rw [Function.update_of_ne hj] at hk
        exact .inl (.inr ⟨k, hk⟩)
  | @grow ps p j js t h ih =>
    rcases hq with rfl | ⟨k, hk⟩
    · exact .inr (List.mem_cons_self ..)
    · by_cases hj : k = j
      · subst hj
        rw [Function.update_self] at hk
        exact (ih hk).imp id (List.mem_cons_of_mem _)
      · rw [Function.update_of_ne hj] at hk
        exact absurd hk id

/-- below a leaf at the full depth there is nothing to lose -/
theorem has_of (h : Ins a ps t js t') {q : κ} (hd : t.Deep js.length) (hq : Has q t ∨ q ∈ ps) : Has q t' := by
  induction h with
  | done t =>
    rcases hq with hq | hq
    · cases t with
      | empty => exact hq
      | leaf b => exact hq
      | node p sub => exact absurd hd id
    · exact absurd hq List.not_mem_nil
  | @down ps p sub j js t h ih =>
    have hj : Has q (sub j) ∨ q ∈ ps → ∃ k, Has q (Function.update sub j t k) :=
      fun h => ⟨j, by rw [Function.update_self]; exact ih (hd j) h⟩
    rcases hq with (rfl | ⟨k, hk⟩) | hq
    · exact .inl rfl
    · by_cases he : k = j
      · subst he
        exact .inr (hj (.inl hk))
      · exact .inr ⟨k, by rw [Function.update_of_ne he]; exact hk⟩
    · exact .inr (hj (.inr hq))
  | @grow ps p j js t h ih =>
    rcases hq with hq | hq
    · exact absurd hq id
    · rcases List.mem_cons.mp hq with rfl | hq
      · exact .inl rfl
      · refine .inr ⟨j, ?_⟩
        rw [Function.update_self]
        exact ih trivial (.inr hq)

theorem separate (h : Ins a ps t js t') (hs : t.Separate) (hd : ps.Nodup)
    (hn : ∀ p ∈ ps, ¬ Has p t) : t'.Separate := by
  induction h with
  | done t => trivial
  | @down ps p sub j js t h ih =>
    have hnj : ∀ q ∈ ps, ∀ k, ¬ Has q (sub k) := fun q hq k hk => hn q hq (.inr ⟨k, hk⟩)
    have hnp : p ∉ ps := fun hq => hn p hq (.inl rfl)
    refine hs.update (ih (hs.2.2 j) hd fun q hq => hnj q hq j) fun q hq => (h.has hq).imp id fun hm => ⟨?_, hnj q hm⟩
    rintro rfl
    exact hnp hm
  | @grow ps p j js t h ih =>
    obtain ⟨hp, hd⟩ := List.nodup_cons.mp hd
    have hempty : (node p fun _ : ι => (empty : Radix ι α κ)).Separate :=
      ⟨fun _ => id, fun _ _ _ _ h => absurd h id, fun _ => trivial⟩
    refine hempty.update (ih trivial hd fun _ _ => id) fun q hq => .inr ⟨?_, fun _ => id⟩
    rintro rfl
    exact hp ((h.has hq).resolve_left id)

end Ins

end Radix
