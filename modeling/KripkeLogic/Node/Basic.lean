import KripkeLogic.Formula.Structure

/-!
# Nodes built by hand

A tree may be put together from any tags, children and names; nothing is checked until it is used as
a formula.
-/

namespace KripkeLogic

inductive Tag
  | known (label : Label)
  | unknown (v : Value)

inductive Node
  | node (tag : Tag) (children : List Node) (name : Value)
  /-- A value in place of a node. -/
  | leaf (v : Value)

namespace Node

instance : Inhabited Node := ⟨leaf .null⟩

def noName : Value := .text []

/-! ## Building -/

def storable : Node → Bool
  | leaf v => v.isKey
  | node _ _ _ => true

def Tag.storable : Tag → Bool
  | .known _ => true
  | .unknown v => v.isKey

/-- Lists and objects cannot be stored in a node. -/
def make? (tag : Tag) (children : List Node) (name : Value) : Option Node :=
  if Tag.storable tag && children.all storable && name.isKey then some (node tag children name)
  else none

/-- The node of a label with its operands, if their number is right. A variable takes its name. -/
def ofOperands? (label : Label) (arguments : List Node) : Option Node :=
  match label, arguments with
  | .prop, [leaf name] => make? (.known .prop) [] name
  | .prop, _ => none
  | label, arguments =>
    if arguments.length = label.arity then make? (.known label) arguments noName else none

def ofFormula : Formula → Node
  | .prop n => node (.known .prop) [] (.text n.chars)
  | .bot => node (.known .bot) [] noName
  | .unary op a => node (.known (.unary op)) [ofFormula a] noName
  | .binary op a b => node (.known (.binary op)) [ofFormula a, ofFormula b] noName

/-! ## Reading as a formula -/

/-- The formula that a tree is, or the fault of its first node in order of reading that breaks a
rule. Names of nodes that are no variables are passed over. -/
def toFormula : Node → Except StructureError Formula
  | leaf v => .error (.notNode v.kind)
  | node (.unknown tag) _ _ => .error (.unknownTag tag)
  | node (.known .prop) [] name => Formula.ofName name
  | node (.known .bot) [] _ => .ok .bot
  | node (.known (.unary op)) [a] _ => do return .unary op (← a.toFormula)
  | node (.known (.binary op)) [a, b] _ => do
    let left ← a.toFormula
    let right ← b.toFormula
    return .binary op left right
  | node (.known label) children _ => .error (.wrongArity label children.length)

def fault? : Node → Option StructureError
  | leaf v => some (.notNode v.kind)
  | node (.unknown tag) _ _ => some (.unknownTag tag)
  | node (.known label) children name =>
    if children.length ≠ label.arity then some (.wrongArity label children.length)
    else if label = .prop then
      match Formula.ofName name with
      | .ok _ => none
      | .error e => some e
    else none

/-! ## Order of reading -/

mutual

def preorder : Node → List Node
  | leaf v => [leaf v]
  | node tag children name => node tag children name :: preorderAll children

def preorderAll : List Node → List Node
  | [] => []
  | n :: ns => preorder n ++ preorderAll ns

end

mutual

def size : Node → Nat
  | leaf _ => 1
  | node _ children _ => sizeAll children + 1

def sizeAll : List Node → Nat
  | [] => 0
  | n :: ns => size n + sizeAll ns

end

theorem sizeAll_append (ns ms : List Node) : sizeAll (ns ++ ms) = sizeAll ns + sizeAll ms := by
  induction ns with
  | nil => simp [sizeAll]
  | cons n ns ih => simp [sizeAll, ih, Nat.add_assoc]

/-- Visits the nodes that wait on a stack: each is taken off and leaves its children there. -/
def visit : List Node → List Node
  | [] => []
  | leaf v :: waiting => leaf v :: visit waiting
  | node tag children name :: waiting =>
    node tag children name :: visit (children ++ waiting)
termination_by waiting => sizeAll waiting
decreasing_by
  · simp [sizeAll, size]
  · simp [sizeAll, size, sizeAll_append]

def walk (n : Node) : List Node := visit [n]

/-! ## Equality -/

/-- An unknown tag is one thing of its own; only the constants, small integers and texts of at
most one Latin character are the same thing wherever they stand. -/
def sameTag : Tag → Tag → Bool
  | .known l, .known k => l = k
  | .unknown .null, .unknown .null => true
  | .unknown (.bool a), .unknown (.bool b) => a = b
  | .unknown (.int m), .unknown (.int n) => m = n && -5 ≤ m && m ≤ 256
  | .unknown (.text []), .unknown (.text []) => true
  | .unknown (.text [c]), .unknown (.text [d]) => c = d && c.toNat < 256
  | _, _ => false

mutual

def same : Node → Node → Bool
  | node t cs n, node u ds m => sameTag t u && n.same m && sameAll cs ds
  | leaf v, leaf w => v.same w
  | _, _ => false

def sameAll : List Node → List Node → Bool
  | [], [] => true
  | n :: ns, m :: ms => same n m && sameAll ns ms
  | _, _ => false

end

mutual

/-- Compares two trees that have no node in common. Every level takes three calls inside the last,
and the first difference ends it. -/
def sameWithin (limit : Option Nat) (depth : Nat) (n m : Node) : Except Breakdown Bool :=
  match n, m with
  | node t cs v, node u ds w =>
    if Fits limit (depth + 3) then
      if sameTag t u && v.same w then sameAllWithin limit (depth + 3) cs ds else .ok false
    else .error .tooDeep
  | leaf v, leaf w => .ok (v.same w)
  | _, _ => .ok false

def sameAllWithin (limit : Option Nat) (depth : Nat) (ns ms : List Node) : Except Breakdown Bool :=
  match ns, ms with
  | [], [] => .ok true
  | n :: ns, m :: ms => do
    if ← sameWithin limit depth n m then sameAllWithin limit depth ns ms else return false
  | _, _ => .ok false

end

end Node

end KripkeLogic
