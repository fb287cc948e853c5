import KripkeLogic.Formula.Alphabet

/-! # Operator symbols in a text -/

namespace KripkeLogic

inductive Piece
  | op (o : Operator)
  | char (c : Char)
deriving DecidableEq

namespace Piece

/-- Each character and each piece comes with a mark, such as its position. A piece has the mark
of its first character. -/
def split {α : Type} : List (Char × α) → List (Piece × α)
  | ('<', p) :: ('-', _) :: ('>', _) :: rest => (op (.binary .equi), p) :: split rest
  | ('-', p) :: ('>', _) :: rest => (op (.binary .impl), p) :: split rest
  | ('<', p) :: ('>', _) :: rest => (op (.unary .poss), p) :: split rest
  | ('[', p) :: (']', _) :: rest => (op (.unary .nec), p) :: split rest
  | ('~', p) :: rest => (op (.unary .neg), p) :: split rest
  | ('&', p) :: rest => (op (.binary .conj), p) :: split rest
  | ('|', p) :: rest => (op (.binary .disj), p) :: split rest
  | (c, p) :: rest => (char c, p) :: split rest
  | [] => []

def write (a : Alphabet) : Piece → List Char
  | op o => a.symbol o
  | char c => [c]

end Piece

/-- Every operator symbol of the text replaced by its symbol in the alphabet. -/
def Alphabet.substitute (a : Alphabet) (text : List Char) : List Char :=
  (Piece.split (text.map (·, ()))).flatMap fun p => p.1.write a

end KripkeLogic
