import KripkeLogic.Limit
import KripkeLogic.Number.Shortest
import KripkeLogic.Text.Quoted

/-!
# Values

What a caller may pass where a text, an index or a flag is expected.
-/

namespace KripkeLogic

inductive Kind
  | null
  | bool
  | int
  | real
  | text
  | list
  | object
  | formula
  | wff
deriving DecidableEq, Inhabited

def Kind.word : Kind → String
  | null => "NoneType"
  | bool => "bool"
  | int => "int"
  | real => "float"
  | text => "str"
  | list => "list"
  | object => "dict"
  | formula => "Formula"
  | wff => "Wff"

/-- The fields of an object keep their order. -/
inductive Value
  | null
  | bool (b : Bool)
  | int (n : Int)
  | real (x : Binary64)
  | text (cs : List Char)
  | list (items : List Value)
  | object (fields : List (List Char × Value))
deriving Inhabited

namespace Value

def kind : Value → Kind
  | null => .null
  | bool _ => .bool
  | int _ => .int
  | real _ => .real
  | text _ => .text
  | list _ => .list
  | object _ => .object

/-- Zero, the empty text and the empty collections count as false. -/
def truthy : Value → Bool
  | null => false
  | bool b => b
  | int n => n ≠ 0
  | real x => !x.isZero
  | text cs => !cs.isEmpty
  | list items => !items.isEmpty
  | object fields => !fields.isEmpty

/-- Lists and objects cannot be parts of a key or of a formula node. -/
def isKey : Value → Bool
  | list _ => false
  | object _ => false
  | _ => true

/-! ## Display -/

/-- The greatest number of digits of an integer that is shown or read. -/
def digitLimit : Nat := 4300

def showInt (n : Int) : Except Breakdown String :=
  if Nat.pow 10 digitLimit ≤ n.natAbs then .error .longInteger else .ok (toString n)

def quoted (cs : List Char) : String := String.ofList (Text.quote cs)

mutual

/-- The value as error texts show it. Every level is a call inside the last. -/
def display (v : Value) (limit : Option Nat := none) (depth : Nat := 0) :
    Except Breakdown String :=
  if Fits limit (depth + 1) then
    match v with
    | null => .ok "None"
    | bool b => .ok (if b then "True" else "False")
    | int n => showInt n
    | real x => .ok (String.ofList x.text)
    | text cs => .ok (quoted cs)
    | list items => do
      return "[" ++ ", ".intercalate (← displayItems items limit (depth + 1)) ++ "]"
    | object fields => do
      return "\x7b" ++ ", ".intercalate (← displayFields fields limit (depth + 1)) ++ "\x7d"
  else .error .tooDeep

def displayItems (vs : List Value) (limit : Option Nat) (depth : Nat) :
    Except Breakdown (List String) :=
  match vs with
  | [] => .ok []
  | v :: vs => do
    let first ← display v limit depth
    let others ← displayItems vs limit depth
    return first :: others

def displayFields (fields : List (List Char × Value)) (limit : Option Nat) (depth : Nat) :
    Except Breakdown (List String) :=
  match fields with
  | [] => .ok []
  | (key, v) :: fields => do
    let first ← display v limit depth
    let others ← displayFields fields limit depth
    return (quoted key ++ ": " ++ first) :: others

end

/-- Like `display`, but a text stands for itself. -/
def plain (v : Value) (limit : Option Nat := none) (depth : Nat := 0) : Except Breakdown String :=
  match v with
  | text cs => .ok (String.ofList cs)
  | v => v.display limit depth

/-! ## Equality by meaning -/

/-- The integer that the value equals, if any: truth values count as 0 and 1. -/
def toInt? : Value → Option Int
  | bool b => some (if b then 1 else 0)
  | int n => some n
  | real x => x.toInt?
  | _ => none

/-- A number in units of `2 ^ -1074`. -/
def scaled? : Value → Option Int
  | bool b => some (if b then Nat.pow 2 1074 else 0)
  | int n => some (n * Nat.pow 2 1074)
  | real x => some x.scaled
  | _ => none

def sameNumber (v w : Value) : Bool :=
  match v, w with
  | real x, real y => x.same y
  | _, _ => v.toInt?.isSome && v.toInt? == w.toInt?

mutual

/-- Equal values: numbers by what they measure, lists item by item, objects key by key. -/
def same : Value → Value → Bool
  | null, null => true
  | text a, text b => a = b
  | list a, list b => sameItems a b
  | object a, object b => a.length = b.length && sameFields a b
  | v, w => sameNumber v w

def sameItems : List Value → List Value → Bool
  | [], [] => true
  | v :: vs, w :: ws => same v w && sameItems vs ws
  | _, _ => false

def sameFields : List (List Char × Value) → List (List Char × Value) → Bool
  | [], _ => true
  | (key, v) :: fields, others =>
    (match others.lookup key with
      | some w => same v w
      | none => false) && sameFields fields others

end

/-! ## Order -/

/-- Texts come in the order of their characters, numbers in theirs; other pairs have no order. -/
def precedes? (v w : Value) : Option Bool :=
  match v, w with
  | text a, text b => some (a < b)
  | _, _ => do return (← v.scaled?) < (← w.scaled?)

def insertSorted? (v : Value) : List Value → Option (List Value)
  | [] => some [v]
  | w :: ws => do
    if v.same w then return w :: ws
    else if ← v.precedes? w then return v :: w :: ws
    else return w :: (← insertSorted? v ws)

/-- The distinct values in order, if every two of them have one. -/
def sortDistinct? (vs : List Value) : Option (List Value) :=
  vs.foldlM (fun sorted v => insertSorted? v sorted) []

end Value

def Breakdown.message? : Breakdown → Option String
  | longInteger => some ("Exceeds the limit (" ++ toString Value.digitLimit ++
      " digits) for integer string conversion; " ++
      "use sys.set_int_max_str_digits() to increase the limit")
  | tooDeep => none

end KripkeLogic
