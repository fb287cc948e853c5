import KripkeLogic.Formula.Alphabet
import KripkeLogic.Value

/-! # Faults in the structure of a formula -/

namespace KripkeLogic

inductive StructureError
  /-- A part of a tree is no node. -/
  | notNode (kind : Kind)
  | unknownTag (tag : Value)
  | wrongArity (label : Label) (got : Nat)
  | badName (name : Value)
  /-- Falsum cannot be written. -/
  | falsumText
  /-- Falsum has no object form. -/
  | falsumObject
  | notFormula (kind : Kind)
  | notSingleField (v : Value)
  | notOperandPair (op : BinaryOp) (v : Value)
deriving Inhabited

namespace StructureError

/-- The text of the error, made with `depth` calls under way. -/
def message (e : StructureError) (limit : Option Nat := none) (depth : Nat := 0) :
    Except Breakdown String :=
  match e with
  | notNode kind => .ok ("Expected a formula node, got " ++ kind.word)
  | unknownTag tag => return "Unknown formula tag " ++ (← tag.display limit depth)
  | wrongArity label got =>
    .ok ("'" ++ String.ofList label.key ++ "' takes " ++ toString label.arity ++
      " operand(s), got " ++ toString got)
  | badName name => return "Invalid proposition name " ++ (← name.display limit depth)
  | falsumText => .ok "Falsum has no surface syntax"
  | falsumObject => .ok "Falsum has no dict representation"
  | notFormula kind => .ok ("Expected a formula, got " ++ kind.word)
  | notSingleField v =>
    return "Expected a single-key formula dict, got " ++ (← v.display limit depth)
  | notOperandPair op v =>
    return "'" ++ String.ofList op.key ++ "' takes exactly 2 operands, got " ++
      (← v.display limit depth)

end StructureError

/-- Why a tree or an object form is refused, or what stopped the call. -/
inductive TreeError
  | malformed (e : StructureError) (text : String)
  | broken (b : Breakdown)

def TreeError.message? : TreeError → Option String
  | malformed _ text => some text
  | broken b => b.message?

/-- What a fault leads to. Its text is made first, which may fail. -/
def StructureError.raise (e : StructureError) (limit : Option Nat := none) (depth : Nat := 0) :
    TreeError :=
  match e.message limit depth with
  | .ok text => .malformed e text
  | .error b => .broken b

namespace Formula

def ofName : Value → Except StructureError Formula
  | .text cs =>
    match Name.ofChars? cs with
    | some n => .ok (prop n)
    | none => .error (.badName (.text cs))
  | v => .error (.badName v)

def toAscii (f : Formula) : Except StructureError (List Char) :=
  match f.write? .ascii with
  | some text => .ok text
  | none => .error .falsumText

end Formula

end KripkeLogic
