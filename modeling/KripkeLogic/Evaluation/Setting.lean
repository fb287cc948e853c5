import KripkeLogic.Evaluation.Rules
import KripkeLogic.Formula.Basic
import KripkeLogic.Model.Basic

/-! # What truth depends on -/

namespace KripkeLogic

structure Setting where
  size : Nat
  slots : Vector (Option Assignment) size
  localDiamond : Bool
  /-- The closure of the preorder. -/
  preorder : Access size
  /-- The relation, with loops under the reflexive rule. -/
  relation : Access size
  /-- A step up the preorder, then a step of the relation. -/
  composed : Access size

namespace Model

def relationUnder (m : Model) (rules : Rules) : Access m.size :=
  if rules.reflexive then (m.adjacency .relation).withReflexive m.liveMask
  else m.adjacency .relation

def permits (m : Model) (rules : Rules) : Bool :=
  !rules.confluent || (m.closure .preorder).isConfluent (m.relationUnder rules)

/-- What truth in the model depends on under the rules. -/
def setting (m : Model) (rules : Rules) : Setting where
  size := m.size
  slots := m.slots
  localDiamond := rules.localDiamond
  preorder := m.closure .preorder
  relation := m.relationUnder rules
  composed := (m.closure .preorder).compose (m.relationUnder rules)

def setting? (m : Model) (rules : Rules) : Option Setting :=
  if m.permits rules then some (m.setting rules) else none

end Model

def BinaryOp.holds : BinaryOp → Bool → Bool → Bool
  | conj, a, b => a && b
  | disj, a, b => a || b
  | impl, a, b => !a || b
  | equi, a, b => a == b

namespace Setting

variable (s : Setting)

/-! ## The value of a formula from those of its operands -/

def nowhere (n : Nat) : Vector Bool n := Vector.replicate n false

def ofName (x : Name) : Vector Bool s.size := s.slots.map fun slot => x.chars ∈ slot.getD .empty

/-- Negation takes the value of the implication of falsum. -/
def ofUnary : UnaryOp → Vector Bool s.size → Vector Bool s.size
  | .neg, v => Access.necessity v s.preorder
  | .nec, v => Access.necessity v s.composed
  | .poss, v => Access.possibility v (if s.localDiamond then s.relation else s.composed)

def ofBinary {n : Nat} (op : BinaryOp) (u v : Vector Bool n) : Vector Bool n :=
  Vector.zipWith op.holds u v

def value : Formula → Vector Bool s.size
  | .prop x => s.ofName x
  | .bot => nowhere s.size
  | .unary .neg a => s.ofUnary .neg (ofBinary .impl (value a) (nowhere s.size))
  | .unary op a => s.ofUnary op (value a)
  | .binary op a b => ofBinary op (value a) (value b)

end Setting

end KripkeLogic
