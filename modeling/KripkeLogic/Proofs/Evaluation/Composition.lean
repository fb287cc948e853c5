import KripkeLogic.Proofs.Access.Modal
import KripkeLogic.Proofs.Evaluation.Modality

/-! # Box and diamond in two steps -/

namespace KripkeLogic.Model

open Access

/-- Box and default diamond are those of the preorder over those of the relation. -/
structure InTwoSteps (m : Model) (rules : Rules) (value : Formula → Vector Bool m.size) : Prop where
  nec : ∀ a, value (.nec a) =
    necessity (necessity (value a) (m.relationUnder rules)) (m.closure .preorder)
  poss : rules.localDiamond = false → ∀ a, value (.poss a) =
    possibility (possibility (value a) (m.relationUnder rules)) (m.closure .preorder)

theorem inTwoSteps_value (m : Model) (rules : Rules) :
    InTwoSteps m rules (m.setting rules).value where
  nec _ := necessity_compose _ _ _
  poss hdefault a := by
    have hproduct : (m.setting rules).value (.poss a) =
        possibility ((m.setting rules).value a)
          ((m.closure .preorder).compose (m.relationUnder rules)) := by
      simp only [Setting.value, Setting.ofUnary, setting, hdefault]
      rfl
    rw [hproduct]
    exact possibility_compose _ _ _

/-- **One composed relation is the same as two steps**, for all matrices, and so for the values of
every formula wherever evaluation is not refused. -/
theorem composition_run (events : List Event) (ev : Evaluator) :
    (∀ (n : Nat) (A B : Access n) (v : Vector Bool n),
      necessity v (A.compose B) = necessity (necessity v B) A ∧
        possibility v (A.compose B) = possibility (possibility v B) A) ∧
    ((run events).Answers ev → ∃ value : Formula → Vector Bool (run events).size,
      (∀ arg f, arg.toFormula = .ok f →
        (ev.evaluate (run events) arg).1 = .ok (value f).toList) ∧
      InTwoSteps (run events) ev.rules value) := by
  have h := consistent_run events
  refine ⟨fun n A B v => ⟨necessity_compose v A B, possibility_compose v A B⟩, fun hanswer => ?_⟩
  have hv := h.valued (h.answers_iff_permits.1 hanswer)
  exact ⟨_, hv.answered, inTwoSteps_value (run events) ev.rules⟩

theorem composition_sharedStep : (run sharedStep).Answers {} ∧
    ∃ value : Formula → Vector Bool (run sharedStep).size,
      (∀ arg f, arg.toFormula = .ok f →
        (Evaluator.evaluate {} (run sharedStep) arg).1 = .ok (value f).toList) ∧
      InTwoSteps (run sharedStep) {} value :=
  ⟨answers_sharedStep _, (composition_run sharedStep {}).2 (answers_sharedStep _)⟩

end KripkeLogic.Model
