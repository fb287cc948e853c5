import KripkeLogic.Formula.Name

/-! # Formulas -/

namespace KripkeLogic

inductive UnaryOp
  | neg
  | nec
  | poss
deriving DecidableEq, Hashable, Inhabited

inductive BinaryOp
  | conj
  | disj
  | impl
  | equi
deriving DecidableEq, Hashable, Inhabited

inductive Formula
  | prop (name : Name)
  | bot
  | unary (op : UnaryOp) (a : Formula)
  | binary (op : BinaryOp) (a b : Formula)
deriving DecidableEq, Hashable

namespace Formula

instance : Inhabited Formula := ⟨bot⟩

@[match_pattern] abbrev neg (a : Formula) : Formula := unary .neg a
@[match_pattern] abbrev nec (a : Formula) : Formula := unary .nec a
@[match_pattern] abbrev poss (a : Formula) : Formula := unary .poss a
@[match_pattern] abbrev conj (a b : Formula) : Formula := binary .conj a b
@[match_pattern] abbrev disj (a b : Formula) : Formula := binary .disj a b
@[match_pattern] abbrev impl (a b : Formula) : Formula := binary .impl a b
@[match_pattern] abbrev equi (a b : Formula) : Formula := binary .equi a b

def botFree : Formula → Bool
  | prop _ => true
  | bot => false
  | unary _ a => a.botFree
  | binary _ a b => a.botFree && b.botFree

def names : Formula → List Name
  | prop n => [n]
  | bot => []
  | unary _ a => a.names
  | binary _ a b => a.names ++ b.names

def subst (s : Name → Formula) : Formula → Formula
  | prop n => s n
  | bot => bot
  | unary op a => unary op (a.subst s)
  | binary op a b => binary op (a.subst s) (b.subst s)

end Formula

/-! ## Labels of nodes -/

/-- What a node of a formula is, apart from its parts. -/
inductive Label
  | prop
  | bot
  | unary (op : UnaryOp)
  | binary (op : BinaryOp)
deriving DecidableEq, Inhabited

namespace UnaryOp

def key : UnaryOp → List Char
  | neg => ['n', 'e', 'g']
  | nec => ['n', 'e', 'c']
  | poss => ['p', 'o', 's', 's']

def all : List UnaryOp := [neg, nec, poss]

end UnaryOp

namespace BinaryOp

def key : BinaryOp → List Char
  | conj => ['c', 'o', 'n', 'j']
  | disj => ['d', 'i', 's', 'j']
  | impl => ['i', 'm', 'p', 'l']
  | equi => ['e', 'q', 'u', 'i']

def all : List BinaryOp := [conj, disj, impl, equi]

end BinaryOp

namespace Label

def key : Label → List Char
  | prop => ['p', 'r', 'o', 'p']
  | bot => ['b', 'o', 't']
  | unary op => op.key
  | binary op => op.key

def arity : Label → Nat
  | prop => 0
  | bot => 0
  | unary _ => 1
  | binary _ => 2

def all : List Label :=
  prop :: bot :: (UnaryOp.all.map unary ++ BinaryOp.all.map binary)

def ofKey? (cs : List Char) : Option Label := all.find? fun l => l.key = cs

theorem key_injective {l k : Label} (h : l.key = k.key) : l = k := by
  rcases l with _ | _ | op | op <;> rcases k with _ | _ | op' | op' <;>
    first
      | rfl
      | (revert h; revert op op'; intro op op'; cases op <;> cases op' <;> decide)
      | (revert h; cases op <;> decide)
      | (revert h; cases op' <;> decide)
      | (revert h; decide)

theorem ofKey?_eq_some_iff {cs : List Char} {l : Label} : ofKey? cs = some l ↔ cs = l.key := by
  constructor
  · intro h
    have := List.find?_some h
    simpa [eq_comm] using this
  · rintro rfl
    rcases l with _ | _ | op | op
    · rfl
    · rfl
    all_goals cases op <;> rfl

end Label

end KripkeLogic
