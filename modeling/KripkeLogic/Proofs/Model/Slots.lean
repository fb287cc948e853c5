import KripkeLogic.Model.Edit
import KripkeLogic.Model.Load
import Mathlib.Tactic.ByContra

/-! # What the edits do to slots and edges -/

namespace KripkeLogic.Model

/-- The assignment of a live state, `none` at a removed slot and beyond the last one. -/
def slot (m : Model) (i : Nat) : Option Assignment := (m.slots[i]?).getD none

theorem isLive_eq (m : Model) (i : Nat) : m.isLive i = (m.slot i).isSome := rfl

theorem assignmentAt_eq (m : Model) (i : Nat) : m.assignmentAt i = (m.slot i).getD .empty := rfl

theorem lt_size_of_isLive {m : Model} {i : Nat} (h : m.isLive i = true) : i < m.size := by
  by_contra hi
  rw [isLive_eq, slot, Vector.getElem?_eq_none (by omega)] at h
  cases h

theorem isLive_size (m : Model) : m.isLive m.size = false := by
  by_contra h
  rw [Bool.not_eq_false] at h
  exact absurd (lt_size_of_isLive h) (by omega)

theorem ne_of_isLive {m : Model} {i j : Nat} (hj : m.isLive j = true) (hi : m.isLive i = false) :
    j ≠ i := by
  rintro rfl
  rw [hi] at hj
  cases hj

theorem not_mem_assignmentAt {m : Model} {i : Nat} (h : m.isLive i = false) (x : List Char) :
    x ∉ m.assignmentAt i := by
  rw [isLive_eq, Option.isSome_eq_false_iff, Option.isNone_iff_eq_none] at h
  rw [assignmentAt_eq, h]
  exact Assignment.not_mem_empty x

theorem mem_successors {m : Model} {k : EdgeKind} {i j : Nat} :
    j ∈ m.successors k i ↔ (i, j) ∈ m.edges k := by
  simp [successors]

theorem mem_predecessors {m : Model} {k : EdgeKind} {i j : Nat} :
    i ∈ m.predecessors k j ↔ (i, j) ∈ m.edges k := by
  simp [predecessors]

/-! ## Models made of slots and edges -/

section OfEdges

variable {n : Nat} (slots : Vector (Option Assignment) n) (ps rs : List (Nat × Nat))

@[simp] theorem slot_ofEdges (i : Nat) : (ofEdges slots ps rs).slot i = (slots[i]?).getD none := rfl

@[simp] theorem edges_ofEdges (k : EdgeKind) :
    (ofEdges slots ps rs).edges k = match k with | .preorder => ps | .relation => rs := by
  cases k <;> rfl

end OfEdges

/-! ## Adding and removing states -/

@[simp] theorem size_addState (m : Model) (a : Assignment) : (m.addState a).size = m.size + 1 := rfl

theorem slot_addState (m : Model) (a : Assignment) (i : Nat) :
    (m.addState a).slot i = if i = m.size then some a else m.slot i := by
  unfold addState
  rw [slot_ofEdges, Vector.getElem?_push]
  split <;> rfl

theorem isLive_addState (m : Model) (a : Assignment) (i : Nat) :
    (m.addState a).isLive i = if i = m.size then true else m.isLive i := by
  rw [isLive_eq, slot_addState]
  split <;> rfl

theorem assignmentAt_addState (m : Model) (a : Assignment) (i : Nat) :
    (m.addState a).assignmentAt i = if i = m.size then a else m.assignmentAt i := by
  rw [assignmentAt_eq, slot_addState]
  split <;> rfl

theorem edges_addState (m : Model) (a : Assignment) (k : EdgeKind) :
    (m.addState a).edges k =
      match k with
      | .preorder => m.preorders ++ [(m.size, m.size)]
      | .relation => m.relations := by
  cases k <;> rfl

@[simp] theorem size_removeState (m : Model) (i : Nat) : (m.removeState i).size = m.size := by
  unfold removeState
  split <;> rfl

theorem slot_removeState (m : Model) (i j : Nat) :
    (m.removeState i).slot j = if i = j then none else m.slot j := by
  unfold removeState
  split
  · rw [slot_ofEdges, Vector.getElem?_setIfInBounds]
    split
    · split <;> rfl
    · rfl
  · rename_i h
    split
    · rename_i hij
      subst hij
      simpa [isLive_eq] using h
    · rfl

theorem isLive_removeState (m : Model) (i j : Nat) :
    (m.removeState i).isLive j = if i = j then false else m.isLive j := by
  rw [isLive_eq, slot_removeState]
  split <;> rfl

theorem assignmentAt_removeState (m : Model) (i j : Nat) :
    (m.removeState i).assignmentAt j = if i = j then .empty else m.assignmentAt j := by
  rw [assignmentAt_eq, slot_removeState]
  split <;> rfl

theorem mem_edges_removeState {m : Model} {i : Nat} (h : m.isLive i = true) {k : EdgeKind}
    {e : Nat × Nat} : e ∈ (m.removeState i).edges k ↔ e ∈ m.edges k ∧ e.1 ≠ i ∧ e.2 ≠ i := by
  unfold removeState
  rw [if_pos h, edges_ofEdges]
  cases k <;> simp [edges, touches]

theorem edges_removeState_sublist (m : Model) (i : Nat) (k : EdgeKind) :
    ((m.removeState i).edges k).Sublist (m.edges k) := by
  unfold removeState
  split
  · cases k
    · exact List.filter_sublist
    · exact List.filter_sublist
  · exact List.Sublist.refl _

/-! ## Editing an assignment -/

@[simp] theorem size_setAssignment (m : Model) (i : Nat) (a : Assignment) :
    (m.setAssignment i a).size = m.size := rfl

theorem slot_setAssignment {m : Model} {i : Nat} (h : i < m.size) (a : Assignment) (j : Nat) :
    (m.setAssignment i a).slot j = if i = j then some a else m.slot j := by
  unfold slot setAssignment
  rw [Vector.getElem?_setIfInBounds, if_pos h]
  split <;> rfl

theorem isLive_setAssignment {m : Model} {i : Nat} (h : m.isLive i = true) (a : Assignment)
    (j : Nat) : (m.setAssignment i a).isLive j = m.isLive j := by
  rw [isLive_eq, slot_setAssignment (lt_size_of_isLive h)]
  split
  · rename_i hij
    rw [← hij, h]
    rfl
  · rfl

theorem assignmentAt_setAssignment {m : Model} {i : Nat} (h : m.isLive i = true) (a : Assignment)
    (j : Nat) : (m.setAssignment i a).assignmentAt j = if i = j then a else m.assignmentAt j := by
  rw [assignmentAt_eq, slot_setAssignment (lt_size_of_isLive h)]
  split <;> rfl

@[simp] theorem edges_setAssignment (m : Model) (i : Nat) (a : Assignment) (k : EdgeKind) :
    (m.setAssignment i a).edges k = m.edges k := by
  cases k <;> rfl

/-! ## Editing edges -/

@[simp] theorem size_setEdges (m : Model) (k : EdgeKind) (es : List (Nat × Nat)) :
    (m.setEdges k es).size = m.size := by
  cases k <;> rfl

@[simp] theorem slot_setEdges (m : Model) (k : EdgeKind) (es : List (Nat × Nat)) (i : Nat) :
    (m.setEdges k es).slot i = m.slot i := by
  cases k <;> rfl

@[simp] theorem isLive_setEdges (m : Model) (k : EdgeKind) (es : List (Nat × Nat)) (i : Nat) :
    (m.setEdges k es).isLive i = m.isLive i := by
  rw [isLive_eq, slot_setEdges, isLive_eq]

@[simp] theorem assignmentAt_setEdges (m : Model) (k : EdgeKind) (es : List (Nat × Nat)) (i : Nat) :
    (m.setEdges k es).assignmentAt i = m.assignmentAt i := by
  rw [assignmentAt_eq, slot_setEdges, assignmentAt_eq]

theorem edges_setEdges (m : Model) (k l : EdgeKind) (es : List (Nat × Nat)) :
    (m.setEdges k es).edges l = if k = l then es else m.edges l := by
  cases k <;> cases l <;> rfl

@[simp] theorem size_recompute (m : Model) (k : EdgeKind) : (m.recompute k).size = m.size := by
  cases k <;> rfl

@[simp] theorem slot_recompute (m : Model) (k : EdgeKind) (i : Nat) :
    (m.recompute k).slot i = m.slot i := by
  cases k <;> rfl

@[simp] theorem isLive_recompute (m : Model) (k : EdgeKind) (i : Nat) :
    (m.recompute k).isLive i = m.isLive i := by
  rw [isLive_eq, slot_recompute, isLive_eq]

@[simp] theorem assignmentAt_recompute (m : Model) (k : EdgeKind) (i : Nat) :
    (m.recompute k).assignmentAt i = m.assignmentAt i := by
  rw [assignmentAt_eq, slot_recompute, assignmentAt_eq]

@[simp] theorem edges_recompute (m : Model) (k l : EdgeKind) :
    (m.recompute k).edges l = m.edges l := by
  cases k <;> cases l <;> rfl

end KripkeLogic.Model
