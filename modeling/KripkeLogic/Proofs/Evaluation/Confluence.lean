import KripkeLogic.Proofs.Evaluation.Persistence

/-!
# The confluence rule and the reflexive rule

The model checks the stored relation, and an evaluation checks the relation that its rules make of
it.
-/

namespace KripkeLogic.Model

variable {m : Model} {rules : Rules}

/-! ## The check of the model -/

theorem permits_eq_isConfluent (hconfluent : rules.confluent = true)
    (hplain : rules.reflexive = false) : m.permits rules = m.isConfluent := by
  unfold permits relationUnder isConfluent
  rw [hconfluent, hplain, Bool.not_true, Bool.false_or, if_neg Bool.false_ne_true]

theorem Consistent.isConfluent_iff (h : m.Consistent) :
    m.isConfluent = true ↔ ¬ m.Broken { confluent := true } := by
  have hpermits : m.permits { confluent := true } = m.isConfluent := permits_eq_isConfluent rfl rfl
  rw [← hpermits, permits_iff h]
  simp

/-! ## Loops -/

theorem Consistent.not_broken (h : m.Consistent) (hsound : ¬ m.Broken { confluent := true }) :
    ¬ m.Broken rules := by
  rintro ⟨i, j, k, hik, hij, hopen⟩
  rcases hij with hij | ⟨hreflexive, rfl, -⟩
  · apply hsound
    refine ⟨i, j, k, hik, Or.inl hij, ?_⟩
    rintro ⟨n, hjn, hkn | ⟨hloop, -⟩⟩
    · exact hopen ⟨n, hjn, Or.inl hkn⟩
    · cases hloop
  · have hk : m.isLive k = true := (h.live_of_joined hik).2
    exact hopen ⟨k, hik, Or.inr ⟨hreflexive, rfl, hk⟩⟩

theorem Consistent.permits_of_isConfluent (h : m.Consistent) (hm : m.isConfluent = true) :
    m.permits rules = true := by
  rw [permits_iff h, not_and]
  intro _
  exact h.not_broken (h.isConfluent_iff.1 hm)

/-! ## Evaluation -/

/-- **Without the reflexive rule, evaluation is refused exactly if the model fails the check.** A model
that passes it is evaluated under all rules. -/
theorem confluence_run (events : List Event) {arg : Argument} {f : Formula}
    (hread : arg.toFormula = .ok f) :
    (∀ ev : Evaluator, ev.rules.confluent = true → ev.rules.reflexive = false →
      ((ev.evaluate (run events) arg).1 = .error .notConfluent ↔ (run events).isConfluent = false)) ∧
    ((run events).isConfluent = true → ∀ ev : Evaluator,
      ∃ values, (ev.evaluate (run events) arg).1 = .ok values) := by
  have h := consistent_run events
  constructor
  · intro ev hconfluent hplain
    rw [h.evaluate_eq ev hread, permits_eq_isConfluent hconfluent hplain]
    cases (run events).isConfluent <;> simp
  · intro hm ev
    exact ⟨_, (h.evaluate_eq ev hread).trans (if_pos (h.permits_of_isConfluent hm))⟩

def openStep : List Event :=
  [.operate (.addState []), .operate (.addState []),
    .operate (.addEdge (.int 0) (.int 1) (.text EdgeKind.preorder.word)),
    .operate (.addEdge (.int 0) (.int 1) Operation.defaultKind)]

/-- The reflexive rule may close a diamond. -/
example : (run openStep).isConfluent = false ∧ (run openStep).permits ⟨true, true, false⟩ = true := by
  decide

theorem confluence_openStep :
    ((run openStep).isConfluent = false ∧
      (Evaluator.evaluate { rules := ⟨false, true, false⟩ } (run openStep)
        (.value (.text ['p']))).1 = .error .notConfluent) ∧
    (run sharedStep).isConfluent = true ∧
      ∃ values, (Evaluator.evaluate { rules := ⟨true, true, false⟩ } (run sharedStep)
        (.value (.text ['p']))).1 = .ok values := by
  have hread : (Argument.value (.text ['p'])).toFormula = .ok (.prop (.ofChar 'p' rfl)) := rfl
  have hopen : (run openStep).isConfluent = false := by decide
  have hclosed : (run sharedStep).isConfluent = true := by decide
  exact ⟨⟨hopen, ((confluence_run openStep hread).1 _ rfl rfl).2 hopen⟩, hclosed,
    (confluence_run sharedStep hread).2 hclosed _⟩

end KripkeLogic.Model
