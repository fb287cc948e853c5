import KripkeLogic.Evaluation.Evaluator
import KripkeLogic.Model.Operation

/-!
# Sessions

A session works on one model at a time.
-/

namespace KripkeLogic

/-- An evaluator and the model it stays with, if that is no longer the session's. -/
structure Follower where
  evaluator : Evaluator
  left : Option Model := none

structure Session where
  model : Model := .empty
  followers : List (Value × Follower) := []

inductive Command
  | operate (op : Operation)
  | ask (q : Query)
  /-- Takes the model of a text as a new one. -/
  | fromText (text : Value)
  | truth (state : Value) (formula : Argument) (rules other : Option Value)
  | evaluate (formula : Argument) (rules : Option Value)
  | evaluateAll (formula : Argument) (rules : Option Value)
  | makeEvaluator (id : Value) (rules other : Option Value)
  | runEvaluator (id : Value) (formula : Argument)

inductive CallError
  | operation (e : OperationError)
  | rules (e : RulesError)
  | evaluation (e : EvaluationError)
  | noEvaluator (id : Value)

def CallError.message? : CallError → Except Breakdown (Option String)
  | operation e => e.message?
  | rules e => .ok e.message?
  | evaluation e => e.message?
  | noEvaluator id => return some ("No evaluator " ++ (← id.display))

namespace Session

def checkModel : Option Value → Except EvaluationError Unit
  | none => .ok ()
  | some v => .error (.notModel v.kind)

def follower? (s : Session) (id : Value) : Option Follower :=
  (s.followers.find? fun f => f.1.same id).map Prod.snd

def setFollower (s : Session) (id : Value) (f : Follower) : Session :=
  { s with followers := (id, f) :: s.followers.filter fun g => !g.1.same id }

/-- Takes a new model. The evaluators stay with the old one. -/
def leave (s : Session) (m : Model) : Session where
  model := m
  followers := s.followers.map fun (id, f) => (id, { f with left := some (f.left.getD s.model) })

def withModel (s : Session) (m : Model) : Session := { s with model := m }

def readRules (flags : Option Value) : Except CallError Rules :=
  (Rules.ofOption flags).mapError .rules

def refused : Answer := .text EvaluationError.confluenceFailed

/-- Rules are read before the model, and the model before the rest. -/
def answerTruth (m : Model) (state : Value) (formula : Argument) (rules other : Option Value)
    (limit : Option Nat := none) : Except CallError Answer × Model :=
  match readRules rules, checkModel other with
  | .error e, _ => (.error e, m)
  | _, .error e => (.error (.evaluation e), m)
  | .ok rules, .ok () =>
    let (r, m) := m.truth state formula rules limit
    ((r.mapError .evaluation).map fun b => (b.map Answer.flag).getD refused, m)

def answerEvaluate (m : Model) (formula : Argument) (rules : Option Value)
    (limit : Option Nat := none) : Except CallError Answer × Model :=
  match readRules rules with
  | .error e => (.error e, m)
  | .ok rules =>
    let (r, m) := m.evaluate rules formula limit
    ((r.mapError .evaluation).map .flags, m)

def answerEvaluateAll (m : Model) (formula : Argument) (rules : Option Value)
    (limit : Option Nat := none) : Except CallError Answer × Model :=
  match readRules rules with
  | .error e => (.error e, m)
  | .ok rules =>
    let (r, m) := m.evaluateAll rules formula limit
    ((r.mapError .evaluation).map fun vs => (vs.map Answer.values).getD refused, m)

def makeEvaluator (s : Session) (id : Value) (rules other : Option Value) :
    Except CallError Answer × Session :=
  match readRules rules, checkModel other with
  | .error e, _ => (.error e, s)
  | _, .error e => (.error (.evaluation e), s)
  | .ok rules, .ok () => (.ok .done, s.setFollower id { evaluator := { rules := rules } })

def runEvaluator (s : Session) (id : Value) (formula : Argument) (limit : Option Nat := none) :
    Except CallError Answer × Session :=
  match s.follower? id with
  | none => (.error (.noEvaluator id), s)
  | some f =>
    let (r, ev, m) := f.evaluator.evaluate (f.left.getD s.model) formula limit
    let answer := (r.mapError CallError.evaluation).map .flags
    match f.left with
    | some _ => (answer, s.setFollower id { evaluator := ev, left := some m })
    | none => (answer, (s.withModel m).setFollower id { evaluator := ev })

/-- Carries out a command. A command that fails changes nothing that can be seen. -/
def step (s : Session) (c : Command) (limit : Option Nat := none) :
    Except CallError Answer × Session :=
  match c with
  | .operate op =>
    let (r, m) := s.model.perform op
    (r.mapError .operation, s.withModel m)
  | .ask q => ((s.model.ask q).mapError (.operation ∘ .model), s)
  | .fromText text =>
    match Model.ofText text with
    | .ok m => (.ok .done, s.leave m)
    | .error e => (.error (.operation (.load e)), s)
  | .truth state formula rules other =>
    let (r, m) := answerTruth s.model state formula rules other limit
    (r, s.withModel m)
  | .evaluate formula rules =>
    let (r, m) := answerEvaluate s.model formula rules limit
    (r, s.withModel m)
  | .evaluateAll formula rules =>
    let (r, m) := answerEvaluateAll s.model formula rules limit
    (r, s.withModel m)
  | .makeEvaluator id rules other => s.makeEvaluator id rules other
  | .runEvaluator id formula => s.runEvaluator id formula limit

end Session

end KripkeLogic
