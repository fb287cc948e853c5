import KripkeLogic.Model.Edit
import KripkeLogic.Model.Load

/-! # Calls on a model -/

namespace KripkeLogic

inductive ModelError
  | badName (v : Value)
  | badKind (v : Value)
  | noState (v : Value)
  /-- A list or an object stands where something is looked up. -/
  | notKey

def ModelError.message? : ModelError → Except Breakdown (Option String)
  | badName v => return some ("Invalid propositional variable name " ++ (← v.display))
  | badKind v => return some ((← v.display) ++ " is not a valid EdgeKind")
  | noState v => return some ("State " ++ (← v.plain) ++ " not found!")
  | notKey => return none

def EdgeKind.ofValue (v : Value) : Except ModelError EdgeKind :=
  match v with
  | .text cs =>
    match EdgeKind.ofWord? cs with
    | some k => .ok k
    | none => .error (.badKind v)
  | _ => .error (.badKind v)

/-! ## Updates of an assignment -/

/-- What a caller wants for each name, in the order of the names. -/
abbrev Updates := List (Value × Value)

namespace Updates

/-- A name that is given again keeps its place and takes the new value. -/
def put (us : Updates) (name value : Value) : Updates :=
  if us.any fun u => u.1.same name then
    us.map fun u => if u.1.same name then (u.1, value) else u
  else us ++ [(name, value)]

def ofList (pairs : List (Value × Value)) : Except ModelError Updates :=
  if pairs.all fun p => p.1.isKey then .ok (pairs.foldl (fun us p => put us p.1 p.2) [])
  else .error .notKey

/-- The names with the truth values they are to take. A value that is no truth value changes
nothing. -/
def check : Updates → Except ModelError (List (List Char × Bool))
  | [] => .ok []
  | (name, value) :: us =>
    match name with
    | .text cs =>
      if isName cs then do
        let rest ← check us
        match value with
        | .bool b => return (cs, b) :: rest
        | _ => return rest
      else .error (.badName name)
    | _ => .error (.badName name)

end Updates

namespace Assignment

def update (a : Assignment) (us : List (List Char × Bool)) : Assignment :=
  us.foldl (fun a u => if u.2 then a.insert u.1 else a.erase u.1) a

end Assignment

/-! ## Calls -/

namespace Model

def state? (m : Model) : Value → Option Nat
  | .int n => if 0 ≤ n ∧ m.isLive n.toNat then some n.toNat else none
  | _ => none

def requireState (m : Model) (index : Value) : Except ModelError Nat :=
  match m.state? index with
  | some i => .ok i
  | none => .error (.noState index)

def callAddState (m : Model) (pairs : List (Value × Value)) : Except ModelError (Nat × Model) := do
  let updates ← (← Updates.ofList pairs).check
  return (m.size, m.addState (Assignment.empty.update updates))

def callRemoveState (m : Model) (index : Value) : Model :=
  match m.state? index with
  | some i => m.removeState i
  | none => m

def callEdit (m : Model) (index : Value) (pairs : List (Value × Value)) :
    Except ModelError (Bool × Model) := do
  let us ← Updates.ofList pairs
  match m.state? index with
  | none => return (false, m)
  | some i =>
    let updates ← us.check
    match m.editAssignment i ((m.assignmentAt i).update updates) with
    | some edited => return (true, edited)
    | none => return (false, m)

def callAddEdge (m : Model) (source target kind : Value) : Except ModelError (Bool × Model) := do
  let k ← EdgeKind.ofValue kind
  match m.state? source, m.state? target with
  | some s, some t =>
    match m.addEdge k s t with
    | some edited => return (true, edited)
    | none => return (false, m)
  | _, _ => return (false, m)

def equalIndex? (v : Value) : Option Nat :=
  match v.toInt? with
  | some n => if 0 ≤ n then some n.toNat else none
  | none => none

/-- The loops of the preorder stay. The endpoints are looked up by equality with an edge, so they
need not be states. -/
def callRemoveEdge (m : Model) (source target kind : Value) :
    Except ModelError (Bool × Model) := do
  let k ← EdgeKind.ofValue kind
  if k = .preorder ∧ source.same target ∧ (m.state? source).isSome then return (false, m)
  if !source.isKey || !target.isKey then throw .notKey
  match equalIndex? source, equalIndex? target with
  | some s, some t =>
    match m.removeEdge k s t with
    | some edited => return (true, edited)
    | none => return (false, m)
  | _, _ => return (false, m)

def callValuation (m : Model) (name index : Value) : Except ModelError Bool := do
  let i ← m.requireState index
  match name with
  | .text x => return x ∈ m.assignmentAt i
  | v => if v.isKey then return false else throw .notKey

def callAssignment (m : Model) (index : Value) : Except ModelError Assignment := do
  return m.assignmentAt (← m.requireState index)

/-- With no slots there is nothing to look a variable up in. -/
def callValuationVector (m : Model) (name : Value) : Except ModelError (Vector Bool m.size) :=
  match name with
  | .text x => .ok (m.valuationVector x)
  | v => if v.isKey || m.size = 0 then .ok (Vector.replicate m.size false) else .error .notKey

/-- The state is checked before the kind. -/
def callSuccessors (m : Model) (index kind : Value) : Except ModelError (List Nat) := do
  let i ← m.requireState index
  return m.successors (← EdgeKind.ofValue kind) i

def callPredecessors (m : Model) (index kind : Value) : Except ModelError (List Nat) := do
  let i ← m.requireState index
  return m.predecessors (← EdgeKind.ofValue kind) i

end Model

end KripkeLogic
