import KripkeLogic.Model.Basic

/-!
# Models from text

The records are read in order.
-/

namespace KripkeLogic

inductive LoadError
  | record (e : RecordError)
  | missingState (kind : EdgeKind) (source : Nat) (target : Int)
  | notMonotone (source : Nat) (target : Int)

namespace LoadError

def edgeText (kind : EdgeKind) (source : Nat) (target : Int) : String :=
  String.ofList kind.word ++ " edge (" ++ toString source ++ ", " ++ toString target ++ ")"

def message? : LoadError → Except Breakdown (Option String)
  | record e => e.message?
  | missingState kind source target =>
    .ok (some (edgeText kind source target ++ " names a missing state"))
  | notMonotone source target =>
    .ok (some (edgeText .preorder source target ++ " breaks monotonicity"))

end LoadError

namespace Model

def addNew (es : List (Nat × Nat)) (e : Nat × Nat) : List (Nat × Nat) :=
  if es.contains e then es else es ++ [e]

theorem mem_addNew {es : List (Nat × Nat)} {e f : Nat × Nat} : f ∈ addNew es e ↔ f ∈ es ∨ f = e := by
  unfold addNew
  split
  · next h =>
    have he : e ∈ es := List.contains_iff_mem.1 h
    constructor
    · exact Or.inl
    · rintro (hf | rfl) <;> assumption
  · simp

def target (m : Model) (k : EdgeKind) (source : Nat) (t : Int) : Except LoadError Nat :=
  if t < 0 ∨ m.isLive t.toNat = false then .error (.missingState k source t)
  else if k = .preorder ∧ (m.assignmentAt source).subset (m.assignmentAt t.toNat) = false then
    .error (.notMonotone source t)
  else .ok t.toNat

def loadEdges (m : Model) (k : EdgeKind) (source : Nat) :
    List Int → List (Nat × Nat) → Except LoadError (List (Nat × Nat))
  | [], es => .ok es
  | t :: ts, es => do
    let j ← m.target k source t
    loadEdges m k source ts (addNew es (source, j))

def loadRecords (m : Model) (source : Nat) : List (Option Record) → List (Nat × Nat) →
    List (Nat × Nat) → Except LoadError (List (Nat × Nat) × List (Nat × Nat))
  | [], preorders, relations => .ok (preorders, relations)
  | none :: rs, preorders, relations => loadRecords m (source + 1) rs preorders relations
  | some r :: rs, preorders, relations => do
    let preorders ← m.loadEdges .preorder source r.preorders preorders
    let preorders := addNew preorders (source, source)
    let relations ← m.loadEdges .relation source r.relations relations
    loadRecords m (source + 1) rs preorders relations

def slotOf (r : Option Record) : Option Assignment := r.map fun r => .ofList r.names

def ofRecords (rs : List (Option Record)) : Except LoadError Model := do
  let slots : Vector (Option Assignment) rs.length := ⟨(rs.map slotOf).toArray, by simp⟩
  let (preorders, relations) ← (ofEdges slots [] []).loadRecords 0 rs [] []
  return ofEdges slots preorders relations

def ofText (text : Value) : Except LoadError Model :=
  match Record.decodeValue text with
  | .ok rs => ofRecords rs
  | .error e => .error (.record e)

/-- Takes over the model that a text describes. A text that describes none is refused and changes
nothing, but integers that are too long to be read or shown are errors. -/
def importText (m : Model) (text : Value) : Except LoadError (Bool × Model) :=
  match ofText text with
  | .ok loaded => .ok (true, loaded)
  | .error (.record (.longIndex digits)) => .error (.record (.longIndex digits))
  | .error (.record (.broken b)) => .error (.record (.broken b))
  | .error _ => .ok (false, m)

end Model

end KripkeLogic
