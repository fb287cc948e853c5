import KripkeLogic.Proofs.Evaluation.Modality
import Mathlib.Logic.Function.Iterate

/-! # Chains of negations -/

namespace KripkeLogic.Model

variable {m : Model} {rules : Rules} {a : Formula} {w : Nat}

/-! ## Truth -/

def Rising (m : Model) (rules : Rules) (a : Formula) : Prop :=
  ∀ w v, m.Below w v → m.Forces rules a w → m.Forces rules a v

theorem rising_neg : m.Rising rules (.neg a) := fun _ _ hwv h => h.neg_up hwv

theorem rising_nec : m.Rising rules (.nec a) := fun _ _ hwv h => h.nec_up hwv

theorem Consistent.rising_prop (h : m.Consistent) (x : Name) : m.Rising rules (.prop x) :=
  fun _ _ hwv hx => h.grows hwv _ hx

section Loops

variable (h : m.Consistent) (hloops : ∀ i, m.isLive i = true → m.Below i i)
include h hloops

theorem Consistent.below_self {v : Nat} (hwv : m.Below w v) : m.Below v v :=
  hloops v (h.live_of_joined hwv).2

theorem Rising.neg_neg (ha : m.Rising rules a) (hw : m.Forces rules a w) :
    m.Forces rules (.neg (.neg a)) w := by
  intro u hwu hneg
  exact hneg u (h.below_self hloops hwu) (ha w u hwu hw)

theorem Rising.forces_neg_neg_neg_iff (ha : m.Rising rules a) :
    m.Forces rules (.neg (.neg (.neg a))) w ↔ m.Forces rules (.neg a) w := by
  constructor
  · intro htriple u hwu hu
    exact htriple u hwu (ha.neg_neg h hloops hu)
  · intro hneg u hwu hdouble
    exact hdouble u (h.below_self hloops hwu) (hneg.neg_up hwu)

end Loops

/-! ## Values -/

/-- The value stays true from a live state to the live states above it. -/
def UpwardClosed (m : Model) (values : List Bool) : Prop :=
  ∀ w v, m.isLive w = true → m.isLive v = true → (w, v) ∈ (m.closure .preorder).edges →
    values[w]? = some true → values[v]? = some true

/-- At the live states the formula implies its double negation, and two negations more change
nothing behind the first. -/
structure Collapses (m : Model) (value : Formula → List Bool) (a : Formula) : Prop where
  implies : ∀ w, m.isLive w = true → (value (.impl a (.neg (.neg a))))[w]? = some true
  chain : ∀ n, 1 ≤ n → ∀ w, m.isLive w = true →
    (value (Formula.neg^[n + 2] a))[w]? = (value (Formula.neg^[n] a))[w]?

theorem rising_iterate {n : Nat} (ha : m.Rising rules a) : m.Rising rules (Formula.neg^[n] a) := by
  cases n with
  | zero => exact ha
  | succ n =>
    rw [Function.iterate_succ_apply']
    exact rising_neg

section Valued

variable {ev : Evaluator} {value : Formula → List Bool}

theorem Valued.getElem?_congr {b : Formula} (hv : Valued m ev value) (hw : w < m.size)
    (hab : m.Forces ev.rules a w ↔ m.Forces ev.rules b w) : (value a)[w]? = (value b)[w]? := by
  by_cases ha : m.Forces ev.rules a w
  · rw [(hv.true_iff a w hw).2 ha, (hv.true_iff b w hw).2 (hab.1 ha)]
  · rw [(hv.false_iff a hw).2 ha, (hv.false_iff b hw).2 fun hb => ha (hab.2 hb)]

variable (h : m.Consistent) (hv : Valued m ev value)
include h hv

theorem Valued.upwardClosed_iff : UpwardClosed m (value a) ↔ m.Rising ev.rules a := by
  constructor
  · intro hclosed w v hwv hw
    obtain ⟨hwlive, hvlive⟩ := h.live_of_joined hwv
    rw [← hv.true_iff a w (lt_size_of_isLive hwlive)] at hw
    rw [← hv.true_iff a v (lt_size_of_isLive hvlive)]
    exact hclosed w v hwlive hvlive (h.mem_closure.2 hwv) hw
  · intro hrising w v hwlive hvlive hwv hw
    rw [hv.true_iff a w (lt_size_of_isLive hwlive)] at hw
    rw [hv.true_iff a v (lt_size_of_isLive hvlive)]
    exact hrising w v (h.mem_closure.1 hwv) hw

theorem Valued.collapses (hloops : ∀ i, m.isLive i = true → m.Below i i)
    (hclosed : UpwardClosed m (value a)) : Collapses m value a := by
  have ha : m.Rising ev.rules a := (hv.upwardClosed_iff h).1 hclosed
  refine ⟨fun w hw => ?implies, fun n hn w hw => ?chain⟩
  case implies =>
    rw [hv.true_iff _ w (lt_size_of_isLive hw)]
    intro hforces
    exact ha.neg_neg h hloops hforces
  case chain =>
    obtain ⟨k, rfl⟩ := Nat.exists_eq_add_of_le' hn
    apply hv.getElem?_congr (lt_size_of_isLive hw)
    -- Below the first negation stands a formula that stays true up the preorder.
    have hk : m.Rising ev.rules (Formula.neg^[k] a) := rising_iterate ha
    rw [Function.iterate_succ_apply', Function.iterate_succ_apply', Function.iterate_succ_apply']
    exact hk.forces_neg_neg_neg_iff h hloops

end Valued

/-- **Chains of negations collapse** over every formula whose value stays true up the preorder, such
as variables, negations and boxes, in every model whose edges were only removed by integers. -/
theorem negations_run (events : List Event) (hindex : ∀ e ∈ events, e.ByIndex) (ev : Evaluator)
    (hanswer : (run events).Answers ev) :
    ∃ value, (∀ arg f, arg.toFormula = .ok f → (ev.evaluate (run events) arg).1 = .ok (value f)) ∧
      (∀ a, UpwardClosed (run events) (value a) → Collapses (run events) value a) ∧
      (∀ x, UpwardClosed (run events) (value (.prop x))) ∧
      ∀ b, UpwardClosed (run events) (value (.neg b)) ∧
        UpwardClosed (run events) (value (.nec b)) := by
  have h := consistent_run events
  have hloops : ∀ i, (run events).isLive i = true → (run events).Below i i :=
    fun i hi => .single (loop_of_byIndex hindex hi)
  obtain ⟨value, hv⟩ := h.exists_valued hanswer
  refine ⟨value, hv.answered, fun a hclosed => hv.collapses h hloops hclosed, fun x => ?prop,
    fun b => ⟨?neg, ?nec⟩⟩
  case prop => exact (hv.upwardClosed_iff h).2 (h.rising_prop x)
  case neg => exact (hv.upwardClosed_iff h).2 rising_neg
  case nec => exact (hv.upwardClosed_iff h).2 rising_nec

theorem negations_sharedStep : (∀ e ∈ sharedStep, e.ByIndex) ∧
    (run sharedStep).Answers { rules := ⟨true, true, false⟩ } ∧
    ∃ value, (∀ arg f, arg.toFormula = .ok f →
        (Evaluator.evaluate { rules := ⟨true, true, false⟩ } (run sharedStep) arg).1 =
          .ok (value f)) ∧
      UpwardClosed (run sharedStep) (value (.prop (.ofChar 'p' rfl))) ∧
      Collapses (run sharedStep) value (.prop (.ofChar 'p' rfl)) := by
  have hindex : ∀ e ∈ sharedStep, e.ByIndex := by simp [sharedStep, Event.ByIndex]
  obtain ⟨value, hvalue, hcollapses, hvariable, -⟩ :=
    negations_run sharedStep hindex _ (answers_sharedStep ⟨⟨true, true, false⟩, none⟩)
  exact ⟨hindex, answers_sharedStep _, value, hvalue, hvariable _, hcollapses _ (hvariable _)⟩

end KripkeLogic.Model
