import KripkeLogic.Value

/-! # Rules of evaluation -/

namespace KripkeLogic

structure Rules where
  /-- Every live state sees itself. -/
  reflexive : Bool := false
  /-- The frame has to be forward confluent. -/
  confluent : Bool := false
  /-- The diamond looks along the relation alone. -/
  localDiamond : Bool := false
deriving DecidableEq, Inhabited

inductive RulesError
  | notList (kind : Kind)
  | wrongCount (got : Nat)

namespace RulesError

def message? : RulesError → Option String
  | notList _ => none
  | wrongCount got => some ("Expected 3 rule flags, got " ++ toString got)

end RulesError

namespace Rules

def listed? : Value → Option (List Value)
  | .list items => some items
  | .object fields => some (fields.map fun f => .text f.1)
  | .text cs => some (cs.map fun c => .text [c])
  | _ => none

/-- Three flags in the order of the fields, each of which may be any value. -/
def ofValue (v : Value) : Except RulesError Rules :=
  match listed? v with
  | none => .error (.notList v.kind)
  | some [r, c, d] => .ok ⟨r.truthy, c.truthy, d.truthy⟩
  | some flags => .error (.wrongCount flags.length)

def ofOption : Option Value → Except RulesError Rules
  | none => .ok {}
  | some .null => .ok {}
  | some v => ofValue v

def toFlags (r : Rules) : List Bool := [r.reflexive, r.confluent, r.localDiamond]

def flagText (b : Bool) : String := if b then "True" else "False"

def describe (r : Rules) : String :=
  "Rules(reflexive=" ++ flagText r.reflexive ++ ", confluent=" ++ flagText r.confluent ++
    ", local_diamond=" ++ flagText r.localDiamond ++ ")"

end Rules

end KripkeLogic
