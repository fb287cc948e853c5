import KripkeLogic.Access.Closure
import KripkeLogic.Access.Confluence
import KripkeLogic.Model.Assignment
import KripkeLogic.Model.EdgeKind
import KripkeLogic.Record

/-!
# Models

A model has one slot for every state that was ever added. A removed state leaves its slot empty, and
its index is not used again.
-/

namespace KripkeLogic

structure Model where
  /-- The number of slots. -/
  size : Nat
  slots : Vector (Option Assignment) size
  preorders : List (Nat × Nat)
  relations : List (Nat × Nat)
  preorderClosure : Access size
  relationClosure : Access size

namespace Model

def ofEdges {n : Nat} (slots : Vector (Option Assignment) n) (preorders relations : List (Nat × Nat)) :
    Model where
  size := n
  slots := slots
  preorders := preorders
  relations := relations
  preorderClosure := (Access.ofEdges n preorders).closure
  relationClosure := (Access.ofEdges n relations).closure

def empty : Model := ofEdges #v[] [] []

instance : Inhabited Model := ⟨empty⟩

/-! ## States -/

def isLive (m : Model) (i : Nat) : Bool := ((m.slots[i]?).getD none).isSome

/-- The variables true at a slot; none at a removed one. -/
def assignmentAt (m : Model) (i : Nat) : Assignment :=
  ((m.slots[i]?).getD none).getD .empty

def indices (m : Model) : List Nat := (List.range m.size).filter m.isLive

def liveMask (m : Model) : Vector Bool m.size := Vector.ofFn fun i => m.isLive i

def valuationVector (m : Model) (x : List Char) : Vector Bool m.size :=
  Vector.ofFn fun i => x ∈ m.assignmentAt i

def trueNames (m : Model) : Assignment :=
  .ofList (m.slots.toList.flatMap fun s => (s.getD .empty).names)

/-! ## Edges -/

def edges (m : Model) : EdgeKind → List (Nat × Nat)
  | .preorder => m.preorders
  | .relation => m.relations

def successors (m : Model) (k : EdgeKind) (i : Nat) : List Nat :=
  ((m.edges k).filter fun e => e.1 = i).map Prod.snd

def predecessors (m : Model) (k : EdgeKind) (i : Nat) : List Nat :=
  ((m.edges k).filter fun e => e.2 = i).map Prod.fst

def adjacency (m : Model) (k : EdgeKind) : Access m.size := Access.ofEdges m.size (m.edges k)

def closure (m : Model) : EdgeKind → Access m.size
  | .preorder => m.preorderClosure
  | .relation => m.relationClosure

def recompute (m : Model) (k : EdgeKind) : Model :=
  match k with
  | .preorder => { m with preorderClosure := (m.adjacency .preorder).closure }
  | .relation => { m with relationClosure := (m.adjacency .relation).closure }

def setEdges (m : Model) (k : EdgeKind) (es : List (Nat × Nat)) : Model :=
  match k with
  | .preorder => recompute { m with preorders := es } .preorder
  | .relation => recompute { m with relations := es } .relation

def isConfluent (m : Model) : Bool :=
  (m.closure .preorder).isConfluent (m.adjacency .relation)

/-! ## Text -/

def recordAt (m : Model) (i : Nat) : Option Record :=
  ((m.slots[i]?).getD none).map fun a =>
    { names := a.names
      preorders := (m.successors .preorder i).map Int.ofNat
      relations := (m.successors .relation i).map Int.ofNat }

def records (m : Model) : List (Option Record) := (List.range m.size).map m.recordAt

def encode (m : Model) : List Char := Record.encode m.records

def describe (m : Model) : String :=
  "KripkeModel(num_states=" ++ toString m.indices.length ++ ", num_slots=" ++ toString m.size ++
    ", preorders=" ++ toString m.preorders.length ++ ", relations=" ++
    toString m.relations.length ++ ")"

end Model

end KripkeLogic
