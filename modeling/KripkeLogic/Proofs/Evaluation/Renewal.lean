import KripkeLogic.Proofs.Evaluation.Forcing
import KripkeLogic.Proofs.Session

/-! # Evaluators answer like new ones -/

namespace KripkeLogic

namespace Evaluator

def renewed (ev : Evaluator) : Evaluator := { rules := ev.rules }

variable (ev : Evaluator) (m : Model) (arg : Argument)

theorem lookUp_rules (limit : Option Nat) (p : Placed) : (ev.lookUp limit p).2.rules = ev.rules := by
  unfold lookUp
  split <;> rfl

theorem evaluate_rules : (ev.evaluate m arg).2.1.rules = ev.rules := by
  unfold evaluate prepare
  cases arg.toFormula with
  | error e => rfl
  | ok f =>
    simp only
    cases m.refresh.setting? ev.rules with
    | none => rfl
    | some s => exact lookUp_rules _ none _

theorem renewed_evaluate_fst : (ev.renewed.evaluate m arg).1 = (ev.evaluate m arg).1 := by
  rw [evaluate_fst, evaluate_fst]
  rfl

theorem renewed_evaluate_model : (ev.renewed.evaluate m arg).2.2 = (ev.evaluate m arg).2.2 := by
  rw [evaluate_model, evaluate_model]

end Evaluator

def Command.Evaluates : Command → Prop
  | .truth .. => True
  | .evaluate .. => True
  | .evaluateAll .. => True
  | .runEvaluator .. => True
  | _ => False

namespace Model

/-- A new model with the same states and the same edges. -/
def rebuilt (m : Model) : Model := ofEdges m.slots m.preorders m.relations

variable {m : Model}

theorem Reached.consistent (h : m.Reached) : m.Consistent := by
  obtain ⟨events, rfl⟩ := h
  exact consistent_run events

namespace Consistent

theorem rebuilt_eq (h : m.Consistent) : m.rebuilt = m := h.refresh_eq

theorem evaluate_model (h : m.Consistent) (ev : Evaluator) (arg : Argument) :
    (ev.evaluate m arg).2.2 = m := by
  rw [Evaluator.evaluate_model, h.refresh_eq]
  split <;> rfl

theorem evaluate_snd (h : m.Consistent) (rules : Rules) (arg : Argument) :
    (m.evaluate rules arg).2 = m :=
  h.evaluate_model { rules := rules } arg

theorem truth_snd (h : m.Consistent) (state : Value) (arg : Argument) (rules : Rules) :
    (m.truth state arg rules).2 = m := by
  have heval := h.evaluate_snd rules arg
  unfold truth
  split
  · rfl
  · split <;> simp_all

theorem evaluateAll_snd (h : m.Consistent) (rules : Rules) (arg : Argument) :
    (m.evaluateAll rules arg).2 = m := by
  have heval := h.evaluate_snd rules arg
  unfold evaluateAll
  split <;> simp_all

end Consistent

end Model

namespace Follower

def renewed (f : Follower) : Follower := { f with evaluator := f.evaluator.renewed }

end Follower

namespace Session

def renewed (s : Session) : Session :=
  { s with followers := s.followers.map fun (id, f) => (id, f.renewed) }

variable {s : Session} {id : Value} {f : Follower}

theorem follower?_renewed (s : Session) (id : Value) :
    s.renewed.follower? id = (s.follower? id).map Follower.renewed := by
  unfold follower? renewed
  rw [List.find?_map, Option.map_map, Option.map_map]
  rfl

theorem renewed_setFollower (s : Session) (id : Value) (f : Follower) :
    (s.setFollower id f).renewed = s.renewed.setFollower id f.renewed := by
  simp only [setFollower, renewed, List.map_cons, List.filter_map]
  rfl

theorem renewed_renewed (s : Session) : s.renewed.renewed = s.renewed := by
  unfold renewed
  simp only [List.map_map]
  rfl

theorem renewed_leave (s : Session) (m : Model) : (s.leave m).renewed = s.renewed.leave m := by
  unfold leave renewed
  simp only [List.map_map]
  rfl

theorem renewed_withModel (s : Session) (m : Model) :
    (s.withModel m).renewed = s.renewed.withModel m := rfl

/-! ## One evaluation -/

theorem runEvaluator_fst (hf : s.follower? id = some f) (arg : Argument) :
    (s.runEvaluator id arg).1 =
      ((f.evaluator.evaluate (f.left.getD s.model) arg).1.mapError .evaluation).map .flags := by
  simp only [runEvaluator, hf]
  cases hl : f.left <;> rfl

theorem runEvaluator_of_left {m : Model} (hf : s.follower? id = some f) (hl : f.left = some m)
    (arg : Argument) : (s.runEvaluator id arg).2 = s.setFollower id
      ⟨(f.evaluator.evaluate m arg).2.1, some (f.evaluator.evaluate m arg).2.2⟩ := by
  simp only [runEvaluator, hf, hl]
  rfl

theorem runEvaluator_of_bound (hf : s.follower? id = some f) (hl : f.left = none)
    (arg : Argument) : (s.runEvaluator id arg).2 =
      (s.withModel (f.evaluator.evaluate s.model arg).2.2).setFollower id
        ⟨(f.evaluator.evaluate s.model arg).2.1, none⟩ := by
  simp only [runEvaluator, hf, hl]
  rfl

theorem runEvaluator_renewed (s : Session) (id : Value) (arg : Argument) :
    (s.renewed.runEvaluator id arg).1 = (s.runEvaluator id arg).1 ∧
      (s.renewed.runEvaluator id arg).2.renewed = (s.runEvaluator id arg).2.renewed := by
  have hnew := follower?_renewed s id
  cases hf : s.follower? id with
  | none =>
    rw [hf] at hnew
    simp only [runEvaluator, hf, hnew, Option.map_none]
    exact ⟨trivial, renewed_renewed s⟩
  | some f =>
    rw [hf] at hnew
    have hmodel : ∀ m : Model, (f.renewed.evaluator.evaluate m arg).2.2 =
        (f.evaluator.evaluate m arg).2.2 := fun m => f.evaluator.renewed_evaluate_model m arg
    have hkept : ∀ (m : Model) (left : Option Model),
        Follower.renewed ⟨(f.renewed.evaluator.evaluate m arg).2.1, left⟩ =
          Follower.renewed ⟨(f.evaluator.evaluate m arg).2.1, left⟩ := fun m left => by
      simp only [Follower.renewed, Evaluator.renewed, Evaluator.evaluate_rules]
    constructor
    · rw [runEvaluator_fst hf, runEvaluator_fst hnew]
      exact congrArg (fun r => (r.mapError CallError.evaluation).map Answer.flags)
        (f.evaluator.renewed_evaluate_fst _ arg)
    · cases hl : f.left with
      | some m =>
        rw [runEvaluator_of_left hf hl, runEvaluator_of_left hnew hl, renewed_setFollower,
          renewed_setFollower, renewed_renewed, hmodel, hkept]
      | none =>
        rw [runEvaluator_of_bound hf hl, runEvaluator_of_bound hnew hl, renewed_setFollower,
          renewed_setFollower, renewed_withModel, renewed_withModel, renewed_renewed, hmodel, hkept]
        rfl

/-! ## Whole sessions -/

theorem step_renewed (s : Session) (c : Command) :
    (s.renewed.step c).1 = (s.step c).1 ∧ (s.renewed.step c).2.renewed = (s.step c).2.renewed := by
  cases c with
  | operate op =>
    exact ⟨rfl, by simp only [step, renewed_withModel, renewed_renewed]; rfl⟩
  | ask q => exact ⟨rfl, renewed_renewed s⟩
  | fromText text =>
    simp only [step]
    cases Model.ofText text with
    | ok m => exact ⟨rfl, by rw [renewed_leave, renewed_leave, renewed_renewed]⟩
    | error e => exact ⟨rfl, renewed_renewed s⟩
  | truth state formula rules other =>
    exact ⟨rfl, by simp only [step, renewed_withModel, renewed_renewed]; rfl⟩
  | evaluate formula rules =>
    exact ⟨rfl, by simp only [step, renewed_withModel, renewed_renewed]; rfl⟩
  | evaluateAll formula rules =>
    exact ⟨rfl, by simp only [step, renewed_withModel, renewed_renewed]; rfl⟩
  | makeEvaluator id rules other =>
    simp only [step, makeEvaluator]
    split
    · exact ⟨rfl, renewed_renewed s⟩
    · exact ⟨rfl, renewed_renewed s⟩
    · exact ⟨rfl, by rw [renewed_setFollower, renewed_setFollower, renewed_renewed]⟩
  | runEvaluator id formula => exact runEvaluator_renewed s id formula

def answers (s : Session) : List Command → List (Except CallError Answer)
  | [] => []
  | c :: cs => (s.step c).1 :: answers (s.step c).2 cs

/-- What it answers if every evaluator is replaced by a new one before every command. -/
def renewedAnswers (s : Session) : List Command → List (Except CallError Answer)
  | [] => []
  | c :: cs => (s.renewed.step c).1 :: renewedAnswers (s.renewed.step c).2 cs

theorem answers_congr {s t : Session} (h : s.renewed = t.renewed) (cs : List Command) :
    s.answers cs = t.answers cs := by
  induction cs generalizing s t with
  | nil => rfl
  | cons c cs ih =>
    obtain ⟨hs, hs'⟩ := step_renewed s c
    obtain ⟨ht, ht'⟩ := step_renewed t c
    rw [answers, answers, ← hs, ← ht, h, ih (t := (t.step c).2)]
    rw [← hs', ← ht', h]

theorem answers_renewed (s : Session) (cs : List Command) :
    s.answers cs = s.renewedAnswers cs := by
  induction cs generalizing s with
  | nil => rfl
  | cons c cs ih =>
    obtain ⟨hanswer, hnext⟩ := step_renewed s c
    rw [answers, renewedAnswers, hanswer, ← ih, answers_congr hnext.symm]

/-! ## Contents -/

/-- Nothing that was found in the session earlier plays a part in its evaluations. -/
structure Fresh (s : Session) : Prop where
  /-- An evaluator answers like a new one, in a model with closures that are computed anew. -/
  answer : ∀ id f, s.follower? id = some f → ∀ arg, (s.step (.runEvaluator id arg)).1 =
    (((f.left.getD s.model).rebuilt.evaluate f.evaluator.rules arg).1.mapError .evaluation).map
      .flags
  model : ∀ c : Command, c.Evaluates → (s.step c).2.model = s.model
  /-- Only what one evaluator keeps may be new. -/
  kept : ∀ c : Command, c.Evaluates → (s.step c).2 = s ∨
    ∃ id f ev, s.follower? id = some f ∧ ev.rules = f.evaluator.rules ∧
      (s.step c).2 = s.setFollower id { f with evaluator := ev }

variable {m : Model}

theorem answerTruth_snd (h : m.Consistent) (state : Value) (formula : Argument)
    (rules other : Option Value) : (answerTruth m state formula rules other).2 = m := by
  unfold answerTruth
  split
  · rfl
  · rfl
  · exact h.truth_snd _ _ _

theorem answerEvaluate_snd (h : m.Consistent) (formula : Argument) (rules : Option Value) :
    (answerEvaluate m formula rules).2 = m := by
  unfold answerEvaluate
  split
  · rfl
  · exact h.evaluate_snd _ _

theorem answerEvaluateAll_snd (h : m.Consistent) (formula : Argument) (rules : Option Value) :
    (answerEvaluateAll m formula rules).2 = m := by
  unfold answerEvaluateAll
  split
  · rfl
  · exact h.evaluateAll_snd _ _

theorem Sound.consistent_model (h : s.Sound) : s.model.Consistent := h.model.consistent

theorem Sound.consistent_left (h : s.Sound) (hf : s.follower? id = some f) :
    (f.left.getD s.model).Consistent := by
  cases hl : f.left with
  | none => exact h.consistent_model
  | some m => exact (h.follower hf m hl).consistent

theorem Sound.kept (h : s.Sound) {c : Command} (hc : c.Evaluates) : (s.step c).2 = s ∨
    ∃ id f ev, s.follower? id = some f ∧ ev.rules = f.evaluator.rules ∧
      (s.step c).2 = s.setFollower id { f with evaluator := ev } := by
  have hm := h.consistent_model
  cases c with
  | truth state formula rules other =>
    exact Or.inl (congrArg s.withModel (answerTruth_snd hm state formula rules other))
  | evaluate formula rules =>
    exact Or.inl (congrArg s.withModel (answerEvaluate_snd hm formula rules))
  | evaluateAll formula rules =>
    exact Or.inl (congrArg s.withModel (answerEvaluateAll_snd hm formula rules))
  | runEvaluator id arg =>
    cases hf : s.follower? id with
    | none =>
      left
      simp only [Session.step, Session.runEvaluator, hf]
    | some f =>
      right
      cases hl : f.left with
      | none =>
        refine ⟨id, f, _, hf, f.evaluator.evaluate_rules s.model arg, ?_⟩
        rw [Session.step, runEvaluator_of_bound hf hl, hm.evaluate_model, hl]
        rfl
      | some m =>
        refine ⟨id, f, _, hf, f.evaluator.evaluate_rules m arg, ?_⟩
        have hleft := (h.follower hf m hl).consistent
        rw [Session.step, runEvaluator_of_left hf hl, hleft.evaluate_model, hl]
  | operate op => exact hc.elim
  | ask q => exact hc.elim
  | fromText text => exact hc.elim
  | makeEvaluator id rules other => exact hc.elim

theorem Sound.fresh (h : s.Sound) : s.Fresh := by
  refine ⟨fun id f hf arg => ?_, fun c hc => ?_, fun c => h.kept⟩
  · rw [Session.step, runEvaluator_fst hf, (h.consistent_left hf).rebuilt_eq, Model.evaluate]
    exact congrArg (fun r => (r.mapError CallError.evaluation).map Answer.flags)
      (f.evaluator.renewed_evaluate_fst _ arg).symm
  · rcases h.kept hc with hs | ⟨id, f, ev, -, -, hs⟩
    · rw [hs]
    · rw [hs]
      rfl

/-- **A session never answers from what an evaluator kept.** It answers as if every evaluator were
new, and evaluations change no model. -/
theorem fresh_play (commands : List Command) :
    answers {} commands = renewedAnswers {} commands ∧ (play commands).Fresh :=
  ⟨answers_renewed {} commands, (sound_play commands).fresh⟩

end Session

end KripkeLogic
