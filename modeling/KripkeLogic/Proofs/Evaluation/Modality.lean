import KripkeLogic.Proofs.Evaluation.Persistence
import KripkeLogic.Proofs.Model.Loops

/-!
# The laws of box and diamond

Box and diamond take their steps along one relation, or the local diamond along a part of it.
-/

namespace KripkeLogic.Model

section Steps

variable (m : Model) (rules : Rules)

/-- The steps of the box: up the preorder, and from there along the relation. -/
def BoxStep (i j : Nat) : Prop := ∃ u, m.Below i u ∧ m.Sees rules u j

/-- The steps of the diamond. The local one does not go up first. -/
def DiamondStep (i j : Nat) : Prop :=
  if rules.localDiamond then m.Sees rules i j else m.BoxStep rules i j

end Steps

variable {m : Model} {rules : Rules} {a b : Formula} {w v : Nat}

/-! ## Steps -/

theorem BoxStep.down (hwv : m.Below w v) {j : Nat} (h : m.BoxStep rules v j) :
    m.BoxStep rules w j := by
  obtain ⟨u, hvu, huj⟩ := h
  exact ⟨u, hwv.trans hvu, huj⟩

theorem diamondStep_default (hdefault : rules.localDiamond = false) {j : Nat} :
    m.DiamondStep rules w j ↔ m.BoxStep rules w j := by
  rw [DiamondStep, hdefault, if_neg Bool.false_ne_true]

theorem DiamondStep.boxStep (hw : m.Below w w) {j : Nat} (h : m.DiamondStep rules w j) :
    m.BoxStep rules w j := by
  unfold DiamondStep at h
  split at h
  · exact ⟨w, hw, h⟩
  · exact h

theorem diamondStep_self (hreflexive : rules.reflexive = true) (hlive : m.isLive w = true)
    (hw : m.Below w w) : m.DiamondStep rules w w := by
  have hsees : m.Sees rules w w := Or.inr ⟨hreflexive, rfl, hlive⟩
  unfold DiamondStep
  split
  · exact hsees
  · exact ⟨w, hw, hsees⟩

theorem Consistent.live_of_boxStep (h : m.Consistent) {j : Nat} (hj : m.BoxStep rules w j) :
    m.isLive j = true := by
  obtain ⟨u, -, huj⟩ := hj
  exact (h.live_of_sees huj).2

/-! ## Truth of modal formulas -/

theorem forces_nec_iff :
    m.Forces rules (.nec a) w ↔ ∀ j, m.BoxStep rules w j → m.Forces rules a j := by
  constructor
  · rintro h j ⟨u, hwu, huj⟩
    exact h u j hwu huj
  · intro h u j hwu huj
    exact h j ⟨u, hwu, huj⟩

theorem forces_poss_iff :
    m.Forces rules (.poss a) w ↔ ∃ j, m.DiamondStep rules w j ∧ m.Forces rules a j := by
  unfold DiamondStep
  simp only [Forces]
  split
  · rfl
  · constructor
    · rintro ⟨u, j, hwu, huj, hj⟩
      exact ⟨j, ⟨u, hwu, huj⟩, hj⟩
    · rintro ⟨j, ⟨u, hwu, huj⟩, hj⟩
      exact ⟨u, j, hwu, huj, hj⟩

theorem forces_distributes :
    m.Forces rules (.impl (.nec (.impl a b)) (.impl (.nec a) (.nec b))) w := by
  intro himpl ha
  rw [forces_nec_iff] at himpl ha ⊢
  exact fun j hj => himpl j hj (ha j hj)

theorem forces_poss_disj_iff :
    m.Forces rules (.poss (.disj a b)) w ↔
      m.Forces rules (.poss a) w ∨ m.Forces rules (.poss b) w := by
  simp only [forces_poss_iff, ← exists_or, ← and_or_left]
  rfl

theorem not_forces_poss_bot : ¬ m.Forces rules (.poss .bot) w := by
  rw [forces_poss_iff]
  rintro ⟨j, -, hfalsum⟩
  exact hfalsum

theorem not_forces_nec_absurd_iff :
    ¬ m.Forces rules (.nec (.impl a .bot)) w ↔ ∃ j, m.BoxStep rules w j ∧ m.Forces rules a j := by
  simp only [forces_nec_iff, not_forall, exists_prop]
  exact exists_congr fun j => and_congr_right fun _ => not_not

theorem Forces.poss_down (hdefault : rules.localDiamond = false) (hwv : m.Below w v)
    (h : m.Forces rules (.poss a) v) : m.Forces rules (.poss a) w := by
  rw [forces_poss_iff] at h ⊢
  obtain ⟨j, hvj, hj⟩ := h
  rw [diamondStep_default hdefault] at hvj
  exact ⟨j, (diamondStep_default hdefault).2 (hvj.down hwv), hj⟩

/-! ## Normality -/

/-- The laws of a normal modal logic at the live states, with the duality that the diamond has and
the laws that the reflexive rule adds. -/
structure Normal (m : Model) (rules : Rules) (value : Formula → List Bool) : Prop where
  distributes : ∀ a b w, m.isLive w = true →
    (value (.impl (.nec (.impl a b)) (.impl (.nec a) (.nec b))))[w]? = some true
  possible_disj : ∀ a b w, m.isLive w = true →
    ((value (.poss (.disj a b)))[w]? = some true ↔
      (value (.poss a))[w]? = some true ∨ (value (.poss b))[w]? = some true)
  impossible_bot : ∀ w, m.isLive w = true → (value (.poss .bot))[w]? = some false
  necessitation : ∀ a, (∀ w, m.isLive w = true → (value a)[w]? = some true) →
    ∀ w, m.isLive w = true → (value (.nec a))[w]? = some true
  dual : rules.localDiamond = false → ∀ a w, m.isLive w = true →
    ((value (.poss a))[w]? = some true ↔ (value (.nec (.impl a .bot)))[w]? = some false)
  dual_local : rules.localDiamond = true → ∀ a w, m.isLive w = true →
    (value (.poss a))[w]? = some true → (value (.nec (.impl a .bot)))[w]? = some false
  reflexive : rules.reflexive = true → ∀ a w, m.isLive w = true →
    (value (.impl (.nec a) a))[w]? = some true ∧ (value (.impl a (.poss a)))[w]? = some true

theorem Valued.normal {ev : Evaluator} {value : Formula → List Bool} (h : m.Consistent)
    (hloops : ∀ i, m.isLive i = true → m.Below i i) (hv : Valued m ev value) :
    Normal m ev.rules value := by
  have htrue : ∀ f w, m.isLive w = true → ((value f)[w]? = some true ↔ m.Forces ev.rules f w) :=
    fun f w hw => hv.true_iff f w (lt_size_of_isLive hw)
  have hfalse : ∀ f w, m.isLive w = true → ((value f)[w]? = some false ↔ ¬ m.Forces ev.rules f w) :=
    fun f w hw => hv.false_iff f (lt_size_of_isLive hw)
  -- Every diamond step is a box step, because of the loop of its state.
  have hdual : ∀ a w, m.isLive w = true → (value (.poss a))[w]? = some true →
      (value (.nec (.impl a .bot)))[w]? = some false := by
    intro a w hw hposs
    rw [htrue _ w hw, forces_poss_iff] at hposs
    rw [hfalse _ w hw, not_forces_nec_absurd_iff]
    obtain ⟨j, hwj, hj⟩ := hposs
    exact ⟨j, hwj.boxStep (hloops w hw), hj⟩
  refine ⟨fun a b w hw => ?distributes, fun a b w hw => ?possible_disj,
    fun w hw => ?impossible_bot, fun a ha w hw => ?necessitation,
    fun hdefault a w hw => ⟨hdual a w hw, fun hnec => ?dual⟩, fun _ => hdual,
    fun hreflexive a w hw => ?reflexive⟩
  case distributes => exact (htrue _ w hw).2 forces_distributes
  case possible_disj =>
    rw [htrue _ w hw, htrue _ w hw, htrue _ w hw, forces_poss_disj_iff]
  case impossible_bot => exact (hfalse _ w hw).2 not_forces_poss_bot
  case necessitation =>
    rw [htrue _ w hw, forces_nec_iff]
    intro j hwj
    have hj := h.live_of_boxStep hwj
    exact (htrue a j hj).1 (ha j hj)
  case dual =>
    rw [hfalse _ w hw, not_forces_nec_absurd_iff] at hnec
    rw [htrue _ w hw, forces_poss_iff]
    obtain ⟨j, hwj, hj⟩ := hnec
    exact ⟨j, (diamondStep_default hdefault).2 hwj, hj⟩
  case reflexive =>
    have hstep := diamondStep_self hreflexive hw (hloops w hw)
    rw [htrue _ w hw, htrue _ w hw]
    constructor
    · intro hnec
      exact forces_nec_iff.1 hnec w (hstep.boxStep (hloops w hw))
    · intro ha
      exact forces_poss_iff.2 ⟨w, hstep, ha⟩

/-- **The values obey the laws of a normal modal logic** wherever evaluation is not refused, in
every model whose edges were only removed by integers. -/
theorem normal_run (events : List Event) (hindex : ∀ e ∈ events, e.ByIndex) (ev : Evaluator)
    (hanswer : (run events).Answers ev) :
    ∃ value, (∀ arg f, arg.toFormula = .ok f → (ev.evaluate (run events) arg).1 = .ok (value f)) ∧
      Normal (run events) ev.rules value := by
  have h := consistent_run events
  have hloops : ∀ i, (run events).isLive i = true → (run events).Below i i :=
    fun i hi => .single (loop_of_byIndex hindex hi)
  obtain ⟨value, hv⟩ := h.exists_valued hanswer
  exact ⟨value, hv.answered, hv.normal h hloops⟩

theorem answers_sharedStep (ev : Evaluator) : (run sharedStep).Answers ev := by
  have hpermits : ∀ reflexive confluent localDiamond,
      (run sharedStep).permits ⟨reflexive, confluent, localDiamond⟩ = true := by decide
  exact (consistent_run sharedStep).answers_iff_permits.2 (hpermits _ _ _)

theorem normal_sharedStep : (∀ e ∈ sharedStep, e.ByIndex) ∧
    (run sharedStep).Answers { rules := ⟨true, true, true⟩ } ∧
    ∃ value, (∀ arg f, arg.toFormula = .ok f →
        (Evaluator.evaluate { rules := ⟨true, true, true⟩ } (run sharedStep) arg).1 =
          .ok (value f)) ∧
      Normal (run sharedStep) ⟨true, true, true⟩ value := by
  have hindex : ∀ e ∈ sharedStep, e.ByIndex := by simp [sharedStep, Event.ByIndex]
  exact ⟨hindex, answers_sharedStep _, normal_run sharedStep hindex _ (answers_sharedStep _)⟩

/-! ## Up and down the preorder -/

/-- From a state to one above it go negations and boxes, and back go diamonds that are not local. -/
structure Directed (rules : Rules) (value : Formula → List Bool) (w v : Nat) : Prop where
  neg_up : ∀ a, (value (.neg a))[w]? = some true → (value (.neg a))[v]? = some true
  nec_up : ∀ a, (value (.nec a))[w]? = some true → (value (.nec a))[v]? = some true
  poss_down : rules.localDiamond = false →
    ∀ a, (value (.poss a))[v]? = some true → (value (.poss a))[w]? = some true

/-- **Negation and box look up the preorder, and the default diamond looks down**, whether or not
the formula they stand before does. -/
theorem directed_run (events : List Event) (ev : Evaluator) (hanswer : (run events).Answers ev) :
    ∃ value, (∀ arg f, arg.toFormula = .ok f → (ev.evaluate (run events) arg).1 = .ok (value f)) ∧
      ∀ w v, (w, v) ∈ ((run events).closure .preorder).edges → Directed ev.rules value w v := by
  have h := consistent_run events
  obtain ⟨value, hv⟩ := h.exists_valued hanswer
  refine ⟨value, hv.answered, fun w v hwv => ?_⟩
  have hbelow : (run events).Below w v := h.mem_closure.1 hwv
  obtain ⟨hw, hv'⟩ := h.lt_size_of_below hbelow
  have hlower := fun f => hv.true_iff f w hw
  have hupper := fun f => hv.true_iff f v hv'
  refine ⟨fun a ha => ?neg_up, fun a ha => ?nec_up, fun hdefault a ha => ?poss_down⟩
  case neg_up => exact (hupper _).2 (((hlower _).1 ha).neg_up hbelow)
  case nec_up => exact (hupper _).2 (((hlower _).1 ha).nec_up hbelow)
  case poss_down => exact (hlower _).2 (((hupper _).1 ha).poss_down hdefault hbelow)

theorem directed_sharedStep : (run sharedStep).Answers { rules := ⟨true, true, false⟩ } ∧
    (0, 1) ∈ ((run sharedStep).closure .preorder).edges ∧
    ∃ value, (∀ arg f, arg.toFormula = .ok f →
        (Evaluator.evaluate { rules := ⟨true, true, false⟩ } (run sharedStep) arg).1 =
          .ok (value f)) ∧
      ∀ w v, (w, v) ∈ ((run sharedStep).closure .preorder).edges →
        Directed ⟨true, true, false⟩ value w v :=
  ⟨answers_sharedStep _, by decide, directed_run sharedStep _ (answers_sharedStep _)⟩

end KripkeLogic.Model
