import KripkeLogic.Formula.Basic
import KripkeLogic.Limit

/-!
# Formulas in memory

Equal formulas need not be one and the same thing. Comparing two that are not takes calls inside one
another, down to parts that both have in common.
-/

namespace KripkeLogic

inductive Place
  | own (i : Nat)
  /-- The one falsum that all formulas may share. -/
  | falsum
deriving DecidableEq

/-- A formula with the places of its nodes. A node without a place is made for one use. -/
inductive Placed
  | prop (place : Option Place) (x : Name)
  | bot (place : Option Place)
  | unary (place : Option Place) (op : UnaryOp) (a : Placed)
  | binary (place : Option Place) (op : BinaryOp) (a b : Placed)
deriving DecidableEq

namespace Placed

def formula : Placed → Formula
  | prop _ x => .prop x
  | bot _ => .bot
  | unary _ op a => .unary op a.formula
  | binary _ op a b => .binary op a.formula b.formula

def place : Placed → Option Place
  | prop place _ => place
  | bot place => place
  | unary place _ _ => place
  | binary place _ _ _ => place

/-- One node under two names: it has a place, and the places agree from it downwards. -/
def IsOne (a b : Placed) : Prop := a.place.isSome = true ∧ a = b

instance (a b : Placed) : Decidable (a.IsOne b) := inferInstanceAs (Decidable (_ ∧ _))

/-- The calls inside one another that it takes to find two equal formulas equal. -/
def distance (a b : Placed) : Nat :=
  if a.IsOne b then 0
  else
    match a, b with
    | unary _ _ a, unary _ _ b => a.distance b + 3
    | binary _ _ a a', binary _ _ b b' => max (a.distance b) (a'.distance b') + 3
    | _, _ => 3

end Placed

namespace Formula

def size : Formula → Nat
  | prop _ => 1
  | bot => 1
  | unary _ a => a.size + 1
  | binary _ a b => a.size + b.size + 1

/-- The formula with the places of its nodes, which are counted from `i` on in order of reading. -/
def placed (places : Nat → Place) (i : Nat) : Formula → Placed
  | prop x => .prop (some (places i)) x
  | bot => .bot (some (places i))
  | unary op a => .unary (some (places i)) op (a.placed places (i + 1))
  | binary op a b =>
    .binary (some (places i)) op (a.placed places (i + 1)) (b.placed places (i + 1 + a.size))

end Formula

end KripkeLogic
