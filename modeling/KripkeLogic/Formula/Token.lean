import KripkeLogic.Formula.Piece
import KripkeLogic.Text.Blank
import KripkeLogic.Value

/-!
# Tokens

Blanks may stand anywhere in the text of a formula, even inside an operator symbol, but not between
two characters of names.
-/

namespace KripkeLogic

inductive Symbol
  | op (o : Operator)
  | opening
  | closing
  | name (n : Name)
  | finish
deriving DecidableEq

structure Token where
  symbol : Symbol
  position : Nat
deriving DecidableEq

def Symbol.text : Symbol → List Char
  | op o => Alphabet.ascii.symbol o
  | opening => ['(']
  | closing => [')']
  | name n => n.chars
  | finish => []

/-! ## Errors -/

inductive Expected
  | operand
  | closing
  | finish
deriving DecidableEq

inductive ParseError
  /-- The argument is no text. -/
  | notText (kind : Kind)
  /-- Blanks stand between two characters of names. -/
  | splitName (position : Nat)
  | unexpected (c : Char) (position : Nat)
  | expected (what : Expected) (found : Token)
  | tooDeep
  /-- The tokens end without the finishing one. -/
  | unfinished

def Symbol.describe (s : Symbol) : String :=
  match s with
  | finish => "end of input"
  | _ => Value.quoted s.text

def Expected.describe : Expected → String
  | operand => "a proposition, unary operator or '('"
  | closing => "')'"
  | finish => "end of input"

namespace ParseError

def position? : ParseError → Option Nat
  | splitName p => some p
  | unexpected _ p => some p
  | expected _ found => some found.position
  | notText _ => none
  | tooDeep => none
  | unfinished => none

def summary : ParseError → String
  | notText kind => "Expected formula text, got " ++ kind.word
  | splitName _ => "Whitespace between names"
  | unexpected c _ => "Unexpected character " ++ Value.quoted [c]
  | expected what found =>
    "Expected " ++ what.describe ++ ", found " ++ found.symbol.describe
  | tooDeep => "Formula nested too deeply"
  | unfinished => "Formula without an end"

def message (e : ParseError) : String :=
  match e.position? with
  | some p => e.summary ++ " (at position " ++ toString p ++ ")"
  | none => e.summary

end ParseError

/-! ## Reading tokens -/

namespace Token

/-- Looks for the first blanks between two characters of names. `gap` is the position just after
the last character if that one, blanks aside, belongs to a name. -/
def splitName? (gap : Option Nat) (position : Nat) : List Char → Option Nat
  | [] => none
  | c :: cs =>
    if Text.isBlank c then splitName? gap (position + 1) cs
    else if isNameChar c then
      match gap with
      | some start =>
        if start < position then some start
        else splitName? (some (position + 1)) (position + 1) cs
      | none => splitName? (some (position + 1)) (position + 1) cs
    else splitName? none (position + 1) cs

def inked (text : List Char) : List (Char × Nat) :=
  text.zipIdx.filter fun c => !Text.isBlank c.1

def consName (c : Char) (h : isNameChar c = true) (position : Nat) : List Token → List Token
  | ⟨.name n, _⟩ :: rest => ⟨.name (n.cons c h), position⟩ :: rest
  | rest => ⟨.name (.ofChar c h), position⟩ :: rest

def ofPieces (stop : Nat) : List (Piece × Nat) → Except ParseError (List Token)
  | [] => .ok [⟨.finish, stop⟩]
  | (.op o, p) :: rest => (ofPieces stop rest).map (⟨.op o, p⟩ :: ·)
  | (.char c, p) :: rest =>
    if c = '(' then (ofPieces stop rest).map (⟨.opening, p⟩ :: ·)
    else if c = ')' then (ofPieces stop rest).map (⟨.closing, p⟩ :: ·)
    else if h : isNameChar c = true then (ofPieces stop rest).map (consName c h p)
    else .error (.unexpected c p)

def scan (text : List Char) : Except ParseError (List Token) :=
  match splitName? none 0 text with
  | some p => .error (.splitName p)
  | none => ofPieces text.length (Piece.split (inked text))

end Token

end KripkeLogic
