import KripkeLogic.Formula.Object
import KripkeLogic.Formula.Parser
import KripkeLogic.Formula.Placed
import KripkeLogic.Node.View

/-! # Arguments -/

namespace KripkeLogic

/-- A formula with the tree that it was read from and its written form. -/
structure Wff where
  tree : Node
  formula : Formula
  ascii : List Char
  places : Nat → Place := .own

inductive Argument
  | value (v : Value)
  /-- A tree with the places of its nodes in order of reading. -/
  | tree (n : Node) (places : Nat → Place := .own)
  | wff (w : Wff)

inductive FormulaError
  | parse (e : ParseError)
  | tree (e : TreeError)
  /-- The argument can be no formula at all. -/
  | unusable (kind : Kind)

def FormulaError.message? : FormulaError → Option String
  | parse e => some e.message
  | tree e => e.message?
  | unusable kind => some ("Invalid formula! Got " ++ kind.word)

namespace Wff

def latex (w : Wff) : List Char := Alphabet.latex.substitute w.ascii

def unicode (w : Wff) : List Char := Alphabet.unicode.substitute w.ascii

def describe (w : Wff) : String := "Wff('" ++ String.ofList w.ascii ++ "')"

end Wff

namespace Argument

/-- A tree that is only a value is that value. -/
def ofNode (n : Node) (places : Nat → Place := .own) : Argument :=
  match n with
  | .leaf v => value v
  | n => tree n places

def kind : Argument → Kind
  | value v => v.kind
  | tree _ _ => .formula
  | wff _ => .wff

def toFormula (arg : Argument) (limit : Option Nat := none) : Except FormulaError Formula :=
  match arg with
  | value (.text cs) => (Formula.parse cs).mapError .parse
  | value (.object fields) => (Formula.ofValue (.object fields) limit).mapError .tree
  | value v => .error (.unusable v.kind)
  | tree n _ => n.toFormula.mapError fun e => .tree (e.raise limit)
  | wff w => .ok w.formula

/-- The places of the nodes. What is read anew has places of its own. -/
def places : Argument → Nat → Place
  | tree _ places => places
  | wff w => w.places
  | value _ => .own

def placed (arg : Argument) (f : Formula) : Placed := f.placed arg.places 0

/-- The written form. Only trees and object forms are printed. -/
def toAscii (arg : Argument) (limit : Option Nat := none) : Except TreeError (List Char) :=
  match arg with
  | value (.object fields) => do
    let f ← Formula.ofValue (.object fields) limit
    f.toAscii.mapError fun e => e.raise limit
  | value v => .error ((StructureError.notFormula v.kind).raise limit)
  | tree n _ => (n.toFormula >>= Formula.toAscii).mapError fun e => e.raise limit
  | wff _ => .error ((StructureError.notFormula .wff).raise limit)

def write (a : Alphabet) (arg : Argument) (limit : Option Nat := none) :
    Except TreeError (List Char) :=
  (arg.toAscii limit).map a.substitute

def wffOf (tree : Node) (f : Formula) (places : Nat → Place := .own) : Except FormulaError Wff :=
  match f.toAscii with
  | .ok text => .ok ⟨tree, f, text, places⟩
  | .error e => .error (.tree e.raise)

/-- Reads the argument and writes it, so falsum is refused. -/
def toWff (arg : Argument) (limit : Option Nat := none) : Except FormulaError Wff :=
  match arg with
  | value (.text cs) => do
    let f ← (Formula.parse cs).mapError .parse
    wffOf (.ofFormula f) f
  | value (.object fields) => do
    let f ← (Formula.ofValue (.object fields) limit).mapError .tree
    wffOf (.ofFormula f) f
  | value v => .error (.tree ((StructureError.notFormula v.kind).raise limit))
  | tree n places => do
    let f ← n.toFormula.mapError fun e => .tree (e.raise limit)
    wffOf n f places
  | wff _ => .error (.tree ((StructureError.notFormula .wff).raise limit))

/-- Trees equal trees, and formulas with their written forms equal each other by their trees. -/
def same : Argument → Argument → Bool
  | value v, value w => v.same w
  | tree n _, tree m _ => n.same m
  | wff a, wff b => a.tree.same b.tree
  | _, _ => false

/-- Compares two arguments that have no node in common. -/
def sameWithin (limit : Option Nat) : Argument → Argument → Except Breakdown Bool
  | value v, value w => .ok (v.same w)
  | tree n _, tree m _ => n.sameWithin limit 0 m
  | wff a, wff b => a.tree.sameWithin limit 0 b.tree
  | _, _ => .ok false

end Argument

end KripkeLogic
