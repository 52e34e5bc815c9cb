import Citron.Graphics.Desk

/-!
# The place of one layer

`move_layer` clamps the height to the length of the stack before it takes the layer out, and inserts it afterwards:
a layer that is shown and is to go to the top is inserted one past the end.

* `without`, `reposition`   the stack that is asked for;
* `moveLayer_eq`            what `move_layer` does, with its panic;
* `moveLayer_repositions`   when it is what is asked for.
-/

namespace Citron.Graphics.LayerManager

/-- the stack without `id` -/
def without (id : LayerId) (stack : List LayerId) : List LayerId := stack.filter (· ≠ id)

/-- `id` at the height that is asked for, at most on top of the others; nowhere when the height is below zero -/
def reposition (id : LayerId) (newHeight : Int) (stack : List LayerId) : List LayerId :=
  if newHeight < 0 then without id stack
  else (without id stack).insertIdx (min newHeight.toNat (without id stack).length) id

/-- the layer goes where it is asked to go; no layer is there twice, and the others keep their order -/
def Repositions {π : Type} (lm : LayerManager π) (id : LayerId) (newHeight : Int) : Prop :=
  ∃ lm', lm.moveLayer id newHeight = some lm' ∧ lm'.layerStack = reposition id newHeight lm.layerStack ∧
    lm'.layerStack.Nodup ∧ without id lm'.layerStack = without id lm.layerStack ∧
    lm' = { lm with layerStack := lm'.layerStack }

/-! ## the stack without a layer -/

section
variable {id : LayerId} {stack : List LayerId}

theorem notMem_without : id ∉ without id stack := by
  intro h
  exact of_decide_eq_true (List.mem_filter.mp h).2 rfl

theorem without_of_notMem (h : id ∉ stack) : without id stack = stack :=
  List.filter_eq_self.mpr fun _ ha => decide_eq_true (ne_of_mem_of_not_mem ha h)

/-- the first place of a layer is its only one -/
theorem eraseIdx_position (hnd : stack.Nodup) {index : Nat} (hp : position id stack = some index) :
    stack.eraseIdx index = without id stack := by
  obtain ⟨hlt, hat, -⟩ := List.findIdx?_eq_some_iff_getElem.mp hp
  have hid : stack[index] = id := beq_iff_eq.mp hat
  have hout : id ∉ stack.eraseIdx index := by
    intro hm
    obtain ⟨j, hj, hne, he⟩ := List.mem_eraseIdx_iff_getElem.mp hm
    exact hne ((List.Nodup.getElem_inj_iff hnd).mp (he.trans hid.symm))
  calc stack.eraseIdx index = without id (stack.eraseIdx index) := (without_of_notMem hout).symm
    _ = without id stack := filter_eraseIdx_position hp

theorem length_without (hnd : stack.Nodup) (h : id ∈ stack) : (without id stack).length + 1 = stack.length := by
  cases hp : position id stack with
  | none => exact absurd (List.findIdx?_eq_none_iff.mp hp id h) (by simp)
  | some index =>
    obtain ⟨hlt, -⟩ := List.findIdx?_eq_some_iff_getElem.mp hp
    rw [← eraseIdx_position hnd hp, List.length_eraseIdx_of_lt hlt]
    omega

theorem nodup_reposition (hnd : stack.Nodup) (newHeight : Int) : (reposition id newHeight stack).Nodup := by
  unfold reposition
  split
  · exact hnd.filter _
  · refine (List.perm_insertIdx id _ (Nat.min_le_right ..)).nodup_iff.mpr (List.nodup_cons.mpr ⟨notMem_without, ?_⟩)
    exact hnd.filter _

theorem without_reposition (newHeight : Int) : without id (reposition id newHeight stack) = without id stack := by
  have htwice : without id (without id stack) = without id stack := without_of_notMem notMem_without
  unfold reposition
  split
  · exact htwice
  · exact (filter_insertIdx _ _).trans htwice

end

/-! ## `move_layer` -/

variable {π : Type} {lm : LayerManager π} {id : LayerId} {newHeight : Int}

theorem hideLayer_eq (hnd : lm.layerStack.Nodup) :
    lm.hideLayer id = { lm with layerStack := without id lm.layerStack } := by
  unfold hideLayer
  cases hp : position id lm.layerStack with
  | none =>
    have hid : id ∉ lm.layerStack := fun h => absurd (List.findIdx?_eq_none_iff.mp hp id h) (by simp)
    dsimp only
    rw [without_of_notMem hid]
  | some index =>
    dsimp only
    rw [eraseIdx_position hnd hp]

/-- the length that counts is the one before the layer is taken out -/
theorem moveLayer_eq (hnd : lm.layerStack.Nodup) (id : LayerId) (newHeight : Int) : lm.moveLayer id newHeight =
    if newHeight < 0 ∨ id ∉ lm.layerStack ∨ newHeight < lm.layerStack.length
    then some { lm with layerStack := reposition id newHeight lm.layerStack } else none := by
  unfold moveLayer reposition
  by_cases hneg : newHeight < 0
  · rw [if_pos hneg, if_pos (.inl hneg), if_pos hneg, hideLayer_eq hnd]
  rw [if_neg hneg, if_neg hneg]
  dsimp only
  by_cases hid : id ∈ lm.layerStack
  · obtain ⟨index, hp⟩ : ∃ index, position id lm.layerStack = some index := by
      refine Option.ne_none_iff_exists'.mp fun hp => ?_
      exact absurd (List.findIdx?_eq_none_iff.mp hp id hid) (by simp)
    have hlen := length_without hnd hid
    rw [hp]
    dsimp only
    rw [eraseIdx_position hnd hp]
    by_cases htop : newHeight < lm.layerStack.length
    · have hle : newHeight.toNat ≤ (without id lm.layerStack).length := by omega
      have hle' : newHeight.toNat ≤ lm.layerStack.length := by omega
      rw [Nat.min_eq_left hle, Nat.min_eq_left hle', if_pos hle, if_pos (.inr (.inr htop))]
    · -- inserted at the old length, which is one more than the new one
      have hmin : min newHeight.toNat lm.layerStack.length = lm.layerStack.length := Nat.min_eq_right (by omega)
      have hno : ¬(newHeight < 0 ∨ id ∉ lm.layerStack ∨ newHeight < lm.layerStack.length) := by
        rintro (h | h | h)
        · exact hneg h
        · exact h hid
        · exact htop h
      rw [hmin, if_neg (by omega), if_neg hno]
  · rw [position_notMem hid, without_of_notMem hid, if_pos (.inr (.inl hid))]

/-- **`move_layer` repositions one layer** unless the layer is shown and is to go to the length of the stack or
above; there it panics. -/
theorem moveLayer_repositions (lm : LayerManager π) (id : LayerId) (newHeight : Int) (hnd : lm.layerStack.Nodup) :
    Repositions lm id newHeight ↔ newHeight < 0 ∨ id ∉ lm.layerStack ∨ newHeight < lm.layerStack.length := by
  unfold Repositions
  rw [moveLayer_eq hnd]
  constructor
  · intro ⟨lm', h, _⟩
    by_contra hno
    rw [if_neg hno] at h
    cases h
  · intro hok
    rw [if_pos hok]
    exact ⟨_, rfl, rfl, nodup_reposition hnd newHeight, without_reposition newHeight, rfl⟩

/-- the desktop, a window and the mouse; the window goes up by one -/
theorem moveLayer_repositions_window : [1, 2, 3, 0].Nodup ∧ Repositions ⟨(), fun _ => none, [1, 2, 3, 0]⟩ 2 2 :=
  ⟨by decide, (moveLayer_repositions _ 2 2 (by decide)).mpr (.inr (.inr (by decide)))⟩

/-- the mouse is on top, and is moved to the top -/
theorem moveLayer_top_panics : [1, 2, 0].Nodup ∧ ¬Repositions ⟨(), fun _ => none, [1, 2, 0]⟩ 0 (2^31 - 1) := by
  refine ⟨by decide, fun ⟨lm', h, _⟩ => ?_⟩
  have hpanic : moveLayer (⟨(), fun _ => none, [1, 2, 0]⟩ : LayerManager Unit) 0 (2^31 - 1) = none := rfl
  cases hpanic.symm.trans h

end Citron.Graphics.LayerManager
