import KripkeLogic.Formula.Basic

/-!
# Written forms

A formula is written with every binary operator spaced and in parentheses.
-/

namespace KripkeLogic

inductive Operator
  | unary (op : UnaryOp)
  | binary (op : BinaryOp)
deriving DecidableEq

structure Alphabet where
  unary : UnaryOp → List Char
  binary : BinaryOp → List Char

namespace Alphabet

def symbol (a : Alphabet) : Operator → List Char
  | .unary op => a.unary op
  | .binary op => a.binary op

def ascii : Alphabet where
  unary
    | .neg => ['~']
    | .nec => ['[', ']']
    | .poss => ['<', '>']
  binary
    | .conj => ['&']
    | .disj => ['|']
    | .impl => ['-', '>']
    | .equi => ['<', '-', '>']

def unicode : Alphabet where
  unary
    | .neg => ['¬']
    | .nec => ['□']
    | .poss => ['◇']
  binary
    | .conj => ['∧']
    | .disj => ['∨']
    | .impl => ['→']
    | .equi => ['↔']

def command (word : List Char) : List Char := '\x5c' :: (word ++ ['\x7b', '\x7d'])

def latex : Alphabet where
  unary
    | .neg => command ['l', 'n', 'o', 't']
    | .nec => command ['B', 'o', 'x']
    | .poss => command ['D', 'i', 'a', 'm', 'o', 'n', 'd']
  binary
    | .conj => command ['l', 'a', 'n', 'd']
    | .disj => command ['l', 'o', 'r']
    | .impl => command ['r', 'i', 'g', 'h', 't', 'a', 'r', 'r', 'o', 'w']
    | .equi => command
        ['l', 'e', 'f', 't', 'r', 'i', 'g', 'h', 't', 'a', 'r', 'r', 'o', 'w']

end Alphabet

namespace Formula

/-- The written form; falsum has none. -/
def write? (a : Alphabet) : Formula → Option (List Char)
  | prop n => some n.chars
  | bot => none
  | unary op f => (f.write? a).map (a.unary op ++ ·)
  | binary op f g => do
    let left ← f.write? a
    let right ← g.write? a
    return '(' :: (left ++ ' ' :: (a.binary op ++ ' ' :: (right ++ [')'])))

theorem write?_isSome (a : Alphabet) (f : Formula) : (f.write? a).isSome = f.botFree := by
  induction f with
  | prop => rfl
  | bot => rfl
  | unary op f ih => simp [write?, botFree, ih]
  | binary op f g ihf ihg =>
    simp only [write?, botFree, ← ihf, ← ihg]
    cases f.write? a <;> cases g.write? a <;> rfl

theorem exists_write? (a : Alphabet) {f : Formula} (hf : f.botFree = true) :
    ∃ text, f.write? a = some text :=
  Option.isSome_iff_exists.1 ((write?_isSome a f).trans hf)

theorem write?_eq_none (a : Alphabet) {f : Formula} (hf : f.botFree = false) :
    f.write? a = none := by
  cases h : f.write? a with
  | none => rfl
  | some text =>
    rw [← write?_isSome a, h] at hf
    cases hf

end Formula

end KripkeLogic
