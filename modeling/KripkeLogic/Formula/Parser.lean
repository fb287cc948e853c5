import KripkeLogic.Formula.Token
import KripkeLogic.Limit

/-!
# Parsing

The parser reads one token at a time and keeps what waits for an operand on a stack.
-/

namespace KripkeLogic

/-- A higher power binds tighter. -/
def BinaryOp.power : BinaryOp → Nat
  | conj => 4
  | disj => 3
  | impl => 2
  | equi => 1

namespace Parser

inductive Frame
  | prefixed (op : UnaryOp)
  | pending (left : Formula) (op : BinaryOp)
  | opened
deriving DecidableEq

/-- The innermost frame comes first. -/
abbrev Stack := List Frame

inductive State
  /-- An operand comes next. -/
  | wanting (stack : Stack)
  /-- An operand has been read. -/
  | holding (f : Formula) (stack : Stack)
deriving DecidableEq

/-- Nesting weighs three for a parenthesis and one for a right operand. -/
def Frame.depth : Frame → Nat
  | prefixed _ => 0
  | pending _ _ => 1
  | opened => 3

def Stack.depth : Stack → Nat
  | [] => 0
  | frame :: stack => frame.depth + depth stack

/-- The prefix operators that wait apply as soon as their operand is complete. -/
def complete (f : Formula) : Stack → State
  | .prefixed op :: stack => complete (.unary op f) stack
  | stack => .holding f stack

/-- Closes the operators on the stack that bind tighter than `power`. -/
def settle (power : Nat) (f : Formula) : Stack → Formula × Stack
  | .pending left op :: stack =>
    if power < op.power then settle power (.binary op left f) stack
    else (f, .pending left op :: stack)
  | stack => (f, stack)

def refuse (token : Token) (stack : Stack) : ParseError :=
  .expected (if .opened ∈ stack then .closing else .finish) token

def push (limit : Option Nat) (frame : Frame) (stack : Stack) : Except ParseError State :=
  if Fits limit (Stack.depth (frame :: stack)) then .ok (.wanting (frame :: stack))
  else .error .tooDeep

/-- What one token does. The finishing token gives the formula. -/
def step (limit : Option Nat) (token : Token) : State → Except ParseError (State ⊕ Formula)
  | .wanting stack =>
    match token.symbol with
    | .op (.unary op) => .ok (.inl (.wanting (.prefixed op :: stack)))
    | .opening => (push limit .opened stack).map .inl
    | .name n => .ok (.inl (complete (.prop n) stack))
    | _ => .error (.expected .operand token)
  | .holding f stack =>
    match token.symbol with
    | .op (.binary op) =>
      let (left, stack) := settle op.power f stack
      (push limit (.pending left op) stack).map .inl
    | .closing =>
      match settle 0 f stack with
      | (inner, .opened :: stack) => .ok (.inl (complete inner stack))
      | _ => .error (refuse token stack)
    | .finish =>
      match settle 0 f stack with
      | (whole, []) => .ok (.inr whole)
      | _ => .error (refuse token stack)
    | _ => .error (refuse token stack)

def run (limit : Option Nat) : State → List Token → Except ParseError Formula
  | _, [] => .error .unfinished
  | state, token :: rest =>
    match step limit token state with
    | .ok (.inl state) => run limit state rest
    | .ok (.inr f) => .ok f
    | .error e => .error e

/-- The greatest depth of nesting that is read. -/
def depthLimit : Nat := 990

end Parser

namespace Formula

def parseWith (limit : Option Nat) (text : List Char) : Except ParseError Formula := do
  Parser.run limit (.wanting []) (← Token.scan text)

def parse (text : List Char) : Except ParseError Formula :=
  parseWith (some Parser.depthLimit) text

def parseValue : Value → Except ParseError Formula
  | .text cs => parse cs
  | v => .error (.notText v.kind)

end Formula

end KripkeLogic
