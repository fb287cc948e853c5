import KripkeLogic.Model.Basic

/-!
# Edits of a model

An edit is carried out as a whole or refused.
-/

namespace KripkeLogic.Model

/-- The new state gets the next index and its loop in the preorder. -/
def addState (m : Model) (a : Assignment) : Model :=
  ofEdges (m.slots.push (some a)) (m.preorders ++ [(m.size, m.size)]) m.relations

def touches (i : Nat) (e : Nat × Nat) : Bool := e.1 = i || e.2 = i

def removeState (m : Model) (i : Nat) : Model :=
  if m.isLive i then
    ofEdges (m.slots.setIfInBounds i none) (m.preorders.filter (!touches i ·))
      (m.relations.filter (!touches i ·))
  else m

/-- The edges stay, so the closures do. -/
def setAssignment (m : Model) (i : Nat) (a : Assignment) : Model :=
  { m with slots := m.slots.setIfInBounds i (some a) }

def fits (m : Model) (i : Nat) (a : Assignment) : Bool :=
  (m.successors .preorder i).all (fun j => j = i || a.subset (m.assignmentAt j)) &&
    (m.predecessors .preorder i).all (fun j => j = i || (m.assignmentAt j).subset a)

def editAssignment (m : Model) (i : Nat) (a : Assignment) : Option Model :=
  if m.fits i a then some (m.setAssignment i a) else none

/-- An edge that is there already is accepted and changes nothing. -/
def addEdge (m : Model) (k : EdgeKind) (s t : Nat) : Option Model :=
  if (s, t) ∈ m.edges k then some m
  else if k = .preorder ∧ (m.assignmentAt s).subset (m.assignmentAt t) = false then none
  else some (m.setEdges k (m.edges k ++ [(s, t)]))

def removeEdge (m : Model) (k : EdgeKind) (s t : Nat) : Option Model :=
  if (s, t) ∈ m.edges k then some (m.setEdges k ((m.edges k).erase (s, t))) else none

end KripkeLogic.Model
