import KripkeLogic.Formula.Name
import KripkeLogic.Text.Digit
import KripkeLogic.Text.Fields
import KripkeLogic.Value

/-!
# Records

A model as text has one record for every slot, closed by a semicolon: `A` names `P` preorder
successors `R` relation successors. The lists are separated by commas and may be empty.
-/

namespace KripkeLogic

structure Record where
  names : List (List Char)
  preorders : List Int
  relations : List Int
deriving DecidableEq

inductive RecordError
  /-- The value is no text, or its text does not follow the grammar. -/
  | malformed (v : Value)
  /-- An index has too many digits to be read. -/
  | longIndex (digits : Nat)
  /-- The value is no text and cannot be shown. -/
  | broken (b : Breakdown)

namespace Record

/-! ## Writing -/

def writeIndex (n : Int) : List Char :=
  if n < 0 then '-' :: Nat.toDigits 10 n.natAbs else Nat.toDigits 10 n.natAbs

def write (r : Record) : List Char :=
  'A' :: (Text.join ',' r.names ++ 'P' :: (Text.join ',' (r.preorders.map writeIndex) ++
    'R' :: Text.join ',' (r.relations.map writeIndex)))

def writeSlot : Option Record → List Char
  | none => []
  | some r => r.write

/-- Nothing is checked, so text that is written from wrong records may not be readable. -/
def encode (rs : List (Option Record)) : List Char := rs.flatMap fun r => writeSlot r ++ [';']

/-! ## Reading -/

/-- A record before its indices are read. -/
structure Draft where
  names : List (List Char)
  preorders : List (List Char)
  relations : List (List Char)
deriving DecidableEq

def items (segment : List Char) : List (List Char) :=
  if segment = [] then [] else Text.cut ',' segment

/-- A nonempty run of decimal digits of any script. -/
def isIndex (cs : List Char) : Bool := !cs.isEmpty && cs.all Text.isDecimal

/-- Indices hold neither `P` nor `R`, so the last of each letter ends the segment before it. -/
def draft? : List Char → Option Draft
  | 'A' :: body => do
    let (front, relations) ← Text.cutLast? 'R' body
    let (names, preorders) ← Text.cutLast? 'P' front
    let d : Draft := ⟨items names, items preorders, items relations⟩
    if d.names.all isName && d.preorders.all isIndex && d.relations.all isIndex then some d
    else none
  | _ => none

def draftSlot? (chunk : List Char) : Option (Option Draft) :=
  if chunk = [] then some none else (draft? chunk).map some

def drafts? (text : List Char) : Option (List (Option Draft)) := do
  (← Text.cutClosed? ';' text).mapM draftSlot?

/-- The greatest number of digits of an index, leading zeros included. -/
def digitLimit : Nat := Value.digitLimit

def readIndex (cs : List Char) : Except RecordError Int :=
  if digitLimit < cs.length then .error (.longIndex cs.length)
  else .ok (Text.decimalValue cs)

def Draft.read (d : Draft) : Except RecordError Record := do
  let preorders ← d.preorders.mapM readIndex
  let relations ← d.relations.mapM readIndex
  return ⟨d.names, preorders, relations⟩

def readSlot : Option Draft → Except RecordError (Option Record)
  | none => .ok none
  | some d => d.read.map some

/-- The records of a text. The grammar is checked before any index is read. -/
def decode (text : List Char) : Except RecordError (List (Option Record)) :=
  match drafts? text with
  | some ds => ds.mapM readSlot
  | none => .error (.malformed (.text text))

def decodeValue : Value → Except RecordError (List (Option Record))
  | .text cs => decode cs
  | v =>
    match v.display with
    | .ok _ => .error (.malformed v)
    | .error b => .error (.broken b)

end Record

def RecordError.message? : RecordError → Except Breakdown (Option String)
  | malformed v => return some ("Malformed model string: " ++ (← v.display))
  | longIndex digits =>
    .ok (some ("Exceeds the limit (" ++ toString Record.digitLimit ++
      " digits) for integer string conversion: value has " ++ toString digits ++
      " digits; use sys.set_int_max_str_digits() to increase the limit"))
  | broken b => .error b

end KripkeLogic
