import KripkeLogic.Argument
import KripkeLogic.Evaluation.Work
import KripkeLogic.Model.Call

/-!
# Evaluators

An evaluator keeps its rules and what it prepared for its last evaluation.
-/

namespace KripkeLogic

inductive EvaluationError
  | formula (e : FormulaError)
  /-- The rules demand forward confluence and it fails. -/
  | notConfluent
  | state (e : ModelError)
  /-- Something else stands in place of a model. -/
  | notModel (kind : Kind)
  | work (e : WorkError)

namespace EvaluationError

def confluenceFailed : String := "Confluence check failed!"

def message? : EvaluationError → Except Breakdown (Option String)
  | formula e => .ok e.message?
  | notConfluent => .ok (some confluenceFailed)
  | state e => e.message?
  | notModel kind => .ok (some ("Invalid model! Got " ++ kind.word))
  | work _ => .ok none

end EvaluationError

namespace Model

def refresh (m : Model) : Model := (m.recompute .preorder).recompute .relation

end Model

/-- A setting with the values that were found in it. -/
structure Pass where
  setting : Setting
  cache : Cache setting.size
  sound : setting.Sound cache

namespace Pass

def start (s : Setting) : Pass := ⟨s, ∅, .empty⟩

/-- The value of a formula, and the pass with all that was found on the way. -/
def evaluate (pass : Pass) (limit : Option Nat) (p : Placed) :
    Except WorkError (Vector Bool pass.setting.size) × Pass :=
  let outcome := pass.setting.run limit (Setting.cost p.formula) [p] pass.cache
  (outcome.1 >>= fun _ => Setting.fetch limit outcome.2 p,
    ⟨pass.setting, outcome.2, pass.sound.run⟩)

end Pass

structure Evaluator where
  rules : Rules := {}
  last : Option Pass := none

namespace Evaluator

/-- Prepares for the model as it is. The last pass stays if the rules refuse. -/
def prepare (ev : Evaluator) (m : Model) : Except EvaluationError Evaluator :=
  match m.setting? ev.rules with
  | some s => .ok { ev with last := some (.start s) }
  | none => .error .notConfluent

def lookUp (ev : Evaluator) (limit : Option Nat) (p : Placed) :
    Except EvaluationError (List Bool) × Evaluator :=
  match ev.last with
  | some pass =>
    let (values, pass) := pass.evaluate limit p
    ((values.map (·.toList)).mapError .work, { ev with last := some pass })
  | none => (.error (.work .missing), ev)

/-- The truth values of a formula at all slots, with the evaluator and the model afterwards. The
formula is read before anything else happens. -/
def evaluate (ev : Evaluator) (m : Model) (arg : Argument) (limit : Option Nat := none) :
    Except EvaluationError (List Bool) × Evaluator × Model :=
  match arg.toFormula limit with
  | .error e => (.error (.formula e), ev, m)
  | .ok f =>
    let m := m.refresh
    match ev.prepare m with
    | .error e => (.error e, ev, m)
    | .ok ev =>
      let (values, ev) := ev.lookUp limit (arg.placed f)
      (values, ev, m)

theorem evaluate_model (ev : Evaluator) (m : Model) (arg : Argument) (limit : Option Nat) :
    (ev.evaluate m arg limit).2.2 =
      match arg.toFormula limit with
      | .error _ => m
      | .ok _ => m.refresh := by
  simp only [evaluate]
  cases arg.toFormula limit with
  | error e => rfl
  | ok f =>
    simp only
    split <;> rfl

end Evaluator

namespace Model

def evaluate (m : Model) (rules : Rules) (arg : Argument) (limit : Option Nat := none) :
    Except EvaluationError (List Bool) × Model :=
  let (result, _, m) := Evaluator.evaluate { rules := rules } m arg limit
  (result, m)

/-- The values at the live states, or the fact that the rules refused. -/
def evaluateAll (m : Model) (rules : Rules) (arg : Argument) (limit : Option Nat := none) :
    Except EvaluationError (Option (List (Nat × Bool))) × Model :=
  match m.evaluate rules arg limit with
  | (.ok values, m) => (.ok (some (m.indices.map fun i => (i, (values[i]?).getD false))), m)
  | (.error .notConfluent, m) => (.ok none, m)
  | (.error e, m) => (.error e, m)

/-- The value at one state, or the fact that the rules refused. The state is checked first. -/
def truth (m : Model) (state : Value) (arg : Argument) (rules : Rules)
    (limit : Option Nat := none) : Except EvaluationError (Option Bool) × Model :=
  match m.requireState state with
  | .error e => (.error (.state e), m)
  | .ok i =>
    match m.evaluate rules arg limit with
    | (.ok values, m) => (.ok (some ((values[i]?).getD false)), m)
    | (.error .notConfluent, m) => (.ok none, m)
    | (.error e, m) => (.error e, m)

end Model

end KripkeLogic
