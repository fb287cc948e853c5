import KripkeLogic.Formula.Structure

/-!
# Object form

A formula as nested objects with one field each: a variable under `prop`, the operand of a unary
operator or the pair of operands of a binary operator under the key of the operator.
-/

namespace KripkeLogic.Formula

/-- Falsum has no object form. -/
def toValue? : Formula → Option Value
  | prop n => some (.object [(Label.prop.key, .text n.chars)])
  | bot => none
  | unary op a => (a.toValue?).map fun v => .object [(op.key, v)]
  | binary op a b => do
    let left ← a.toValue?
    let right ← b.toValue?
    return .object [(op.key, .list [left, right])]

/-- The key is checked before the operands, and the left operand before the right one. Every object
is read by a call inside the last. -/
def ofValue (v : Value) (limit : Option Nat := none) (depth : Nat := 0) :
    Except TreeError Formula :=
  if Fits limit (depth + 1) then
    match v with
    | .object [(key, v)] =>
      match Label.ofKey? key with
      | some .prop => (ofName v).mapError (·.raise limit (depth + 1))
      | some (.unary op) => do return unary op (← ofValue v limit (depth + 1))
      | some (.binary op) =>
        match v with
        | .list [left, right] => do
          let a ← ofValue left limit (depth + 1)
          let b ← ofValue right limit (depth + 1)
          return binary op a b
        | _ => .error ((StructureError.notOperandPair op v).raise limit (depth + 1))
      | some .bot => .error ((StructureError.unknownTag (.text key)).raise limit (depth + 1))
      | none => .error ((StructureError.unknownTag (.text key)).raise limit (depth + 1))
    | v => .error ((StructureError.notSingleField v).raise limit (depth + 1))
  else .error (.broken .tooDeep)

end KripkeLogic.Formula
