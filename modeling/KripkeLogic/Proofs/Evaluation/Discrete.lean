import KripkeLogic.Proofs.Evaluation.Modality

/-!
# Discrete preorders

If every live state is below itself alone, a step up the preorder goes nowhere.
-/

namespace KripkeLogic.Model

section Semantics

variable (m : Model)

/-- The preorder has the loops of the live states and nothing else. -/
def Discrete : Prop := ∀ s t, (s, t) ∈ m.edges .preorder ↔ s = t ∧ m.isLive s = true

/-- Truth in classical modal logic, where box and diamond look along `sees`. -/
def Holds (sees : Nat → Nat → Prop) : Formula → Nat → Prop
  | .prop x, w => x.chars ∈ m.assignmentAt w
  | .bot, _ => False
  | .unary .neg a, w => ¬ Holds sees a w
  | .unary .nec a, w => ∀ v, sees w v → Holds sees a v
  | .unary .poss a, w => ∃ v, sees w v ∧ Holds sees a v
  | .binary .conj a b, w => Holds sees a w ∧ Holds sees b w
  | .binary .disj a b, w => Holds sees a w ∨ Holds sees b w
  | .binary .impl a b, w => Holds sees a w → Holds sees b w
  | .binary .equi a b, w => Holds sees a w ↔ Holds sees b w

end Semantics

variable {m : Model} {rules : Rules} {a f : Formula} {i j w : Nat}

/-! ## Steps -/

namespace Discrete

theorem below_iff (hm : m.Discrete) : m.Below i j ↔ i = j ∧ m.isLive i = true := by
  constructor
  · intro h
    induction h with
    | single h => exact (hm _ _).1 h
    | tail _ h ih => exact ⟨ih.1.trans ((hm _ _).1 h).1, ih.2⟩
  · intro h
    exact .single ((hm i j).2 h)

theorem boxStep_iff (hm : m.Discrete) (h : m.Consistent) :
    m.BoxStep rules i j ↔ m.Sees rules i j := by
  constructor
  · rintro ⟨u, hiu, huj⟩
    rwa [(hm.below_iff.1 hiu).1]
  · intro hij
    exact ⟨i, hm.below_iff.2 ⟨rfl, (h.live_of_sees hij).1⟩, hij⟩

theorem diamondStep_iff (hm : m.Discrete) (h : m.Consistent) :
    m.DiamondStep rules i j ↔ m.Sees rules i j := by
  unfold DiamondStep
  split
  · rfl
  · exact hm.boxStep_iff h

theorem not_broken (hm : m.Discrete) (h : m.Consistent) : ¬ m.Broken rules := by
  rintro ⟨i, j, k, hik, hij, hopen⟩
  obtain ⟨rfl, -⟩ := hm.below_iff.1 hik
  exact hopen ⟨j, hm.below_iff.2 ⟨rfl, (h.live_of_sees hij).2⟩, hij⟩

theorem permits (hm : m.Discrete) (h : m.Consistent) (rules : Rules) : m.permits rules = true := by
  rw [permits_iff h, not_and]
  intro _
  exact hm.not_broken h

/-! ## Truth -/

theorem forces_neg_iff (hm : m.Discrete) (hw : m.isLive w = true) :
    m.Forces rules (.neg a) w ↔ ¬ m.Forces rules a w := by
  constructor
  · intro h
    exact h w (hm.below_iff.2 ⟨rfl, hw⟩)
  · intro h u hwu
    rwa [← (hm.below_iff.1 hwu).1]

/-- **At the live states of a discrete preorder, truth is classical.** -/
theorem forces_iff_holds (hm : m.Discrete) (h : m.Consistent) (hw : m.isLive w = true) :
    m.Forces rules f w ↔ m.Holds (m.Sees rules) f w := by
  induction f generalizing w with
  | prop x => rfl
  | bot => rfl
  | unary op a ih =>
    -- Only live states are seen, so negation is classical wherever box and diamond look.
    have hseen : ∀ v, m.Sees rules w v → (m.Forces rules a v ↔ m.Holds (m.Sees rules) a v) :=
      fun v hwv => ih (h.live_of_sees hwv).2
    cases op with
    | neg => exact (hm.forces_neg_iff hw).trans (not_congr (ih hw))
    | nec =>
      rw [forces_nec_iff]
      refine forall_congr' fun v => imp_congr_ctx (hm.boxStep_iff h) ?_
      exact hseen v
    | poss =>
      rw [forces_poss_iff]
      refine exists_congr fun v => (and_congr_left' (hm.diamondStep_iff h)).trans ?_
      exact and_congr_right (hseen v)
  | binary op a b iha ihb =>
    cases op with
    | conj => exact and_congr (iha hw) (ihb hw)
    | disj => exact or_congr (iha hw) (ihb hw)
    | impl => exact imp_congr (iha hw) (ihb hw)
    | equi => exact iff_congr (iha hw) (ihb hw)

end Discrete

/-! ## Values -/

theorem sees_congr {rules' : Rules} (hrules : rules'.reflexive = rules.reflexive) :
    m.Sees rules' = m.Sees rules := by
  unfold Sees
  rw [hrules]

structure Classical (m : Model) (value : Rules → Formula → List Bool) : Prop where
  length : ∀ rules f, (value rules f).length = m.size
  truth : ∀ rules f w, m.isLive w = true →
    ((value rules f)[w]? = some true ↔ m.Holds (m.Sees rules) f w)
  /-- It does not matter along which of its steps the diamond looks. -/
  switch : ∀ rules f w, m.isLive w = true →
    (value { rules with localDiamond := !rules.localDiamond } f)[w]? = (value rules f)[w]?
  neg : ∀ rules a w, m.isLive w = true →
    ((value rules (.neg a))[w]? = some true ↔ (value rules a)[w]? = some false)
  dual : ∀ rules a w, m.isLive w = true →
    ((value rules (.nec a))[w]? = some true ↔
      (value rules (.neg (.poss (.neg a))))[w]? = some true)

theorem Discrete.classical (hm : m.Discrete) (h : m.Consistent) :
    Classical m fun rules f => ((m.setting rules).value f).toList := by
  have hvalued : ∀ rules, Valued m { rules := rules } fun f => ((m.setting rules).value f).toList :=
    fun rules => h.valued (hm.permits h rules)
  have htrue : ∀ rules f w, m.isLive w = true →
      ((((m.setting rules).value f).toList)[w]? = some true ↔ m.Holds (m.Sees rules) f w) :=
    fun rules f w hw =>
      ((hvalued rules).true_iff f w (lt_size_of_isLive hw)).trans (hm.forces_iff_holds h hw)
  have hfalse : ∀ rules f w, m.isLive w = true →
      ((((m.setting rules).value f).toList)[w]? = some false ↔ ¬ m.Holds (m.Sees rules) f w) :=
    fun rules f w hw =>
      ((hvalued rules).false_iff f (lt_size_of_isLive hw)).trans
        (not_congr (hm.forces_iff_holds h hw))
  refine ⟨fun rules f => Vector.length_toList, htrue, fun rules f w hw => ?switch,
    fun rules a w hw => ?neg, fun rules a w hw => ?dual⟩
  case switch =>
    by_cases hf : m.Holds (m.Sees rules) f w
    · rw [(htrue rules f w hw).2 hf]
      apply (htrue _ f w hw).2
      rwa [sees_congr rfl]
    · rw [(hfalse rules f w hw).2 hf]
      apply (hfalse _ f w hw).2
      rwa [sees_congr rfl]
  case neg =>
    rw [htrue rules _ w hw, hfalse rules _ w hw]
    rfl
  case dual =>
    rw [htrue rules _ w hw, htrue rules _ w hw]
    simp only [Holds, not_exists, not_and, not_not]

/-- **On a discrete preorder, evaluation is never refused and gives classical modal truth.** -/
theorem classical_run (events : List Event) (hdiscrete : (run events).Discrete) :
    ∃ value : Rules → Formula → List Bool,
      (∀ (ev : Evaluator) arg f, arg.toFormula = .ok f →
        (ev.evaluate (run events) arg).1 = .ok (value ev.rules f)) ∧
      Classical (run events) value := by
  have h := consistent_run events
  refine ⟨_, fun ev arg f hread => ?_, hdiscrete.classical h⟩
  exact (h.valued (hdiscrete.permits h ev.rules)).answered arg f hread

def apart : List Event :=
  [.operate (.addState []), .operate (.addState []),
    .operate (.addState [(.text ['p'], .bool true)]),
    .operate (.addEdge (.int 0) (.int 1) (.text EdgeKind.preorder.word)),
    .operate (.addEdge (.int 1) (.int 1) Operation.defaultKind),
    .operate (.addEdge (.int 1) (.int 2) Operation.defaultKind),
    .operate (.removeState (.int 0))]

theorem discrete_apart : (run apart).Discrete := by
  have hedges : (run apart).edges .preorder = [(1, 1), (2, 2)] := by decide
  have hsize : (run apart).size = 3 := rfl
  have hlive : ∀ s, (run apart).isLive s = true ↔ s = 1 ∨ s = 2 := by
    intro s
    match s with
    | 0 | 1 | 2 => decide
    | s + 3 =>
      apply iff_of_false
      · intro hs
        have hlt := lt_size_of_isLive hs
        omega
      · omega
  intro s t
  rw [hedges, hlive]
  simp
  omega

theorem classical_apart : (run apart).Discrete ∧ (run apart).isLive 0 = false ∧
    ∃ value : Rules → Formula → List Bool,
      (∀ (ev : Evaluator) arg f, arg.toFormula = .ok f →
        (ev.evaluate (run apart) arg).1 = .ok (value ev.rules f)) ∧
      Classical (run apart) value :=
  ⟨discrete_apart, by decide, classical_run apart discrete_apart⟩

end KripkeLogic.Model
