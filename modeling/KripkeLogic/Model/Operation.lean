import KripkeLogic.Model.Call

/-! # Operations on a model -/

namespace KripkeLogic

inductive Answer
  | done
  | flag (b : Bool)
  | flags (bs : List Bool)
  | index (i : Nat)
  | indices (is : List Nat)
  | pairs (es : List (Nat × Nat))
  | names (a : Assignment)
  | values (vs : List (Nat × Bool))
  | text (s : String)
  | overview (m : Model)

inductive OperationError
  | model (e : ModelError)
  | load (e : LoadError)

def OperationError.message? : OperationError → Except Breakdown (Option String)
  | model e => e.message?
  | load e => e.message?

inductive Operation
  | addState (assignment : List (Value × Value))
  | removeState (index : Value)
  | edit (index : Value) (assignment : List (Value × Value))
  | addEdge (source target kind : Value)
  | removeEdge (source target kind : Value)
  | recompute (kind : Value)
  | importText (text : Value)

def Operation.defaultKind : Value := .text EdgeKind.relation.word

inductive Query
  | valuation (name index : Value)
  | assignment (index : Value)
  | hasState (index : Value)
  | successors (index kind : Value)
  | predecessors (index kind : Value)
  | edges (kind : Value)
  | closure (kind : Value)
  | adjacency (kind : Value)
  | valuationVector (name : Value)
  | liveMask
  | confluent
  | describe
  | overview

namespace Model

/-- What a call gives back or fails with, and the model that it leaves. -/
def settle {α ε : Type} (m : Model) (answer : α → Answer) (error : ε → OperationError) :
    Except ε (α × Model) → Except OperationError Answer × Model
  | .ok (a, m') => (.ok (answer a), m')
  | .error e => (.error (error e), m)

def perform (m : Model) : Operation → Except OperationError Answer × Model
  | .addState assignment => m.settle .index .model (m.callAddState assignment)
  | .removeState index => (.ok .done, m.callRemoveState index)
  | .edit index assignment => m.settle .flag .model (m.callEdit index assignment)
  | .addEdge source target kind => m.settle .flag .model (m.callAddEdge source target kind)
  | .removeEdge source target kind => m.settle .flag .model (m.callRemoveEdge source target kind)
  | .recompute kind =>
    m.settle id .model ((EdgeKind.ofValue kind).map fun k =>
      (.pairs ((m.recompute k).closure k).edges, m.recompute k))
  | .importText text => m.settle .flag .load (m.importText text)

def ask (m : Model) : Query → Except ModelError Answer
  | .valuation name index => (m.callValuation name index).map .flag
  | .assignment index => (m.callAssignment index).map .names
  | .hasState index => .ok (.flag (m.state? index).isSome)
  | .successors index kind => (m.callSuccessors index kind).map .indices
  | .predecessors index kind => (m.callPredecessors index kind).map .indices
  | .edges kind => (EdgeKind.ofValue kind).map fun k => .pairs (m.edges k)
  | .closure kind => (EdgeKind.ofValue kind).map fun k => .pairs (m.closure k).edges
  | .adjacency kind => (EdgeKind.ofValue kind).map fun k => .pairs (m.adjacency k).edges
  | .valuationVector name => (m.callValuationVector name).map fun v => .flags v.toList
  | .liveMask => .ok (.flags m.liveMask.toList)
  | .confluent => .ok (.flag m.isConfluent)
  | .describe => .ok (.text m.describe)
  | .overview => .ok (.overview m)

end Model

end KripkeLogic
