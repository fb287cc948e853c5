import KripkeLogic.Node.Basic

/-! # Views of a tree -/

namespace KripkeLogic

inductive ViewError
  /-- A value or an unknown tag stands where a node with a known tag is needed. -/
  | notNode
  | noOperand
  | noOrder
  /-- A part of a node was to be replaced. -/
  | immutable
  | tree (e : TreeError)

def ViewError.message? : ViewError → Option String
  | notNode => none
  | noOperand => none
  | noOrder => none
  | immutable => some "Formula nodes are immutable"
  | tree e => e.message?

namespace Node

def shown : Except Breakdown String → Except ViewError String := Except.mapError (.tree ∘ .broken)

mutual

/-- Every level takes four calls inside the last, the last two of them for its operands. -/
def describe (n : Node) (limit : Option Nat := none) (depth : Nat := 0) : Except ViewError String :=
  match n with
  | leaf v => shown (v.display limit depth)
  | node tag children name =>
    if Fits limit (depth + 2) then
      match tag with
      | .unknown _ => .error .notNode
      | .known .prop => do
        return "Formula(prop, '" ++ (← shown (name.plain limit (depth + 2))) ++ "')"
      | .known .bot => .ok "Formula(bot)"
      | .known label => do
        let parts ← describeAll children limit (depth + 4)
        return "Formula(" ++ String.ofList label.key ++ ", [" ++ ", ".intercalate parts ++ "])"
    else .error (.tree (.broken .tooDeep))

def describeAll (ns : List Node) (limit : Option Nat) (depth : Nat) :
    Except ViewError (List String) :=
  match ns with
  | [] => .ok []
  | n :: ns => do
    let part ← describe n limit depth
    let parts ← describeAll ns limit depth
    return part :: parts

end

mutual

/-- The object form. A unary operator shows its first operand, a binary operator all it has. Every
unary level takes a call inside the last, every binary one two. -/
def toValue (n : Node) (limit : Option Nat := none) (depth : Nat := 0) : Except ViewError Value :=
  match n with
  | leaf _ => .error .notNode
  | node tag children name =>
    if Fits limit (depth + 1) then
      match tag, children with
      | .unknown _, _ => .error .notNode
      | .known .prop, _ => .ok (.object [(Label.prop.key, name)])
      | .known .bot, _ => .error (.tree (StructureError.falsumObject.raise limit (depth + 1)))
      | .known (.unary _), [] => .error .noOperand
      | .known (.unary op), a :: _ => do
        return .object [(op.key, ← toValue a limit (depth + 1))]
      | .known (.binary op), children => do
        return .object [(op.key, .list (← toValueAll children limit (depth + 2)))]
    else .error (.tree (.broken .tooDeep))

def toValueAll (ns : List Node) (limit : Option Nat) (depth : Nat) :
    Except ViewError (List Value) :=
  match ns with
  | [] => .ok []
  | n :: ns => do
    let v ← toValue n limit depth
    let vs ← toValueAll ns limit depth
    return v :: vs

end

def operand (i : Nat) : Node → Except ViewError Node
  | leaf _ => .error .notNode
  | node _ children _ =>
    match children[i]? with
    | some n => .ok n
    | none => .error .noOperand

def givenNames : List Node → Except ViewError (List Value)
  | [] => .ok []
  | leaf _ :: _ => .error .notNode
  | node (.known .prop) _ name :: ns => (givenNames ns).map (name :: ·)
  | node _ _ _ :: ns => givenNames ns

def names (n : Node) : Except ViewError (List Value) := do
  match Value.sortDistinct? (← givenNames n.walk) with
  | some names => return names
  | none => .error .noOrder

def entries : Node → Except ViewError (List Node)
  | leaf _ => .error .notNode
  | n => .ok n.walk

def validate (n : Node) (limit : Option Nat := none) : Except ViewError Formula :=
  match n with
  | leaf _ => .error .notNode
  | n => n.toFormula.mapError fun e => .tree (e.raise limit)

def assign : Node → ViewError
  | leaf _ => .notNode
  | node _ _ _ => .immutable

end Node

end KripkeLogic
