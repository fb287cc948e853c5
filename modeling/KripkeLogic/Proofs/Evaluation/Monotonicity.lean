import KripkeLogic.Proofs.Evaluation.Modality

/-! # More edges -/

namespace KripkeLogic

/-- Variables and falsum, joined by conjunction and disjunction, and no other operator than `op`. -/
inductive Formula.BuiltWith (op : UnaryOp) : Formula → Prop
  | prop (x : Name) : BuiltWith op (.prop x)
  | bot : BuiltWith op .bot
  | conj {a b : Formula} (ha : BuiltWith op a) (hb : BuiltWith op b) : BuiltWith op (.conj a b)
  | disj {a b : Formula} (ha : BuiltWith op a) (hb : BuiltWith op b) : BuiltWith op (.disj a b)
  | unary {a : Formula} (ha : BuiltWith op a) : BuiltWith op (.unary op a)

namespace Model

/-- The second model has the states of the first and their assignments, and at least its edges. -/
structure Widens (m m' : Model) : Prop where
  size : m'.size = m.size
  live : ∀ i, m'.isLive i = m.isLive i
  assigned : ∀ i, m'.assignmentAt i = m.assignmentAt i
  edges : ∀ k, m.edges k ⊆ m'.edges k

variable {m m' : Model} {rules : Rules} {w v : Nat}

theorem widens_refl (m : Model) : m.Widens m :=
  ⟨rfl, fun _ => rfl, fun _ => rfl, fun _ => List.Subset.refl _⟩

theorem widens_setEdges {k : EdgeKind} {es : List (Nat × Nat)} (hes : m.edges k ⊆ es) :
    m.Widens (m.setEdges k es) := by
  refine ⟨size_setEdges m k es, isLive_setEdges m k es, assignmentAt_setEdges m k es, fun l => ?_⟩
  rw [edges_setEdges]
  split
  · rename_i hkl
    rwa [← hkl]
  · exact List.Subset.refl _

theorem widens_of_addEdge {k : EdgeKind} {s t : Nat} (h : m.addEdge k s t = some m') :
    m.Widens m' := by
  obtain ⟨-, rfl⟩ | ⟨-, -, rfl⟩ := addEdge_cases h
  · exact widens_refl m'
  · exact widens_setEdges (List.subset_append_left _ _)

theorem widens_of_callAddEdge {source target kind : Value} {b : Bool}
    (h : m.callAddEdge source target kind = .ok (b, m')) : m.Widens m' := by
  obtain ⟨-, rfl⟩ | ⟨-, _, _, _, -, -, -, hadd⟩ := callAddEdge_cases h
  · exact widens_refl m'
  · exact widens_of_addEdge hadd

namespace Widens

/-! ## More steps -/

theorem below (h : m.Widens m') (hwv : m.Below w v) : m'.Below w v :=
  Relation.TransGen.mono (fun _ _ he => h.edges .preorder he) w v hwv

theorem sees (h : m.Widens m') (hwv : m.Sees rules w v) : m'.Sees rules w v := by
  rcases hwv with hwv | ⟨hreflexive, rfl, hlive⟩
  · exact Or.inl (h.edges .relation hwv)
  · exact Or.inr ⟨hreflexive, rfl, (h.live w).trans hlive⟩

theorem boxStep (h : m.Widens m') (hwv : m.BoxStep rules w v) : m'.BoxStep rules w v := by
  obtain ⟨u, hwu, huv⟩ := hwv
  exact ⟨u, h.below hwu, h.sees huv⟩

theorem diamondStep (h : m.Widens m') (hwv : m.DiamondStep rules w v) :
    m'.DiamondStep rules w v := by
  unfold DiamondStep at hwv ⊢
  split
  · rename_i hlocal
    rw [if_pos hlocal] at hwv
    exact h.sees hwv
  · rename_i hdefault
    rw [if_neg hdefault] at hwv
    exact h.boxStep hwv

/-! ## Truth -/

theorem forces_of_poss (h : m.Widens m') {f : Formula} (hf : f.BuiltWith .poss)
    (hw : m.Forces rules f w) : m'.Forces rules f w := by
  induction hf generalizing w with
  | prop x =>
    simp only [Forces] at hw ⊢
    rwa [h.assigned w]
  | bot => exact hw
  | conj _ _ iha ihb => exact ⟨iha hw.1, ihb hw.2⟩
  | disj _ _ iha ihb => exact hw.imp iha ihb
  | unary _ iha =>
    obtain ⟨j, hwj, hj⟩ := forces_poss_iff.1 hw
    exact forces_poss_iff.2 ⟨j, h.diamondStep hwj, iha hj⟩

theorem forces_of_nec (h : m.Widens m') {f : Formula} (hf : f.BuiltWith .nec)
    (hw : m'.Forces rules f w) : m.Forces rules f w := by
  induction hf generalizing w with
  | prop x =>
    simp only [Forces] at hw ⊢
    rwa [← h.assigned w]
  | bot => exact hw
  | conj _ _ iha ihb => exact ⟨iha hw.1, ihb hw.2⟩
  | disj _ _ iha ihb => exact hw.imp iha ihb
  | unary _ iha =>
    rw [forces_nec_iff] at hw ⊢
    exact fun j hwj => iha (hw j (h.boxStep hwj))

end Widens

/-! ## Values before and after -/

theorem Consistent.exists_valued_of_not_confluent (h : m.Consistent) {ev : Evaluator}
    (hconfluent : ev.rules.confluent = false) : ∃ value, Valued m ev value := by
  have hpermits : m.permits ev.rules = true := by
    rw [permits, hconfluent]
    rfl
  exact ⟨_, h.valued hpermits⟩

section Values

variable {ev ev' : Evaluator} {value value' : Formula → List Bool} {f : Formula}

theorem Valued.lt_size (hv : Valued m ev value) {b : Bool} (hw : (value f)[w]? = some b) :
    w < m.size := by
  rw [← hv.length f]
  exact (List.getElem?_eq_some_iff.1 hw).1

theorem Widens.getElem?_of_poss (h : m.Widens m') (hrules : ev'.rules = ev.rules)
    (hv : Valued m ev value) (hv' : Valued m' ev' value') (hf : f.BuiltWith .poss)
    (hw : (value f)[w]? = some true) : (value' f)[w]? = some true := by
  have hlt := hv.lt_size hw
  rw [hv'.true_iff f w (h.size.symm ▸ hlt), hrules]
  exact h.forces_of_poss hf ((hv.true_iff f w hlt).1 hw)

theorem Widens.getElem?_of_nec (h : m.Widens m') (hrules : ev'.rules = ev.rules)
    (hv : Valued m ev value) (hv' : Valued m' ev' value') (hf : f.BuiltWith .nec)
    (hw : (value' f)[w]? = some true) : (value f)[w]? = some true := by
  have hlt := hv'.lt_size hw
  rw [hv.true_iff f w (h.size ▸ hlt), ← hrules]
  exact h.forces_of_nec hf ((hv'.true_iff f w hlt).1 hw)

end Values

/-- **Truth is monotone in the edges.** When an edge is accepted, formulas built with diamonds stay
true and those built with boxes were true before, under all rules that do not ask for confluence. -/
theorem monotone_run (events : List Event) {source target kind : Value}
    (hadd : (run events).callAddEdge source target kind = .ok (true, m')) (ev ev' : Evaluator)
    (hconfluent : ev.rules.confluent = false) (hrules : ev'.rules = ev.rules) :
    ∃ value value' : Formula → List Bool,
      (∀ arg f, arg.toFormula = .ok f → (ev.evaluate (run events) arg).1 = .ok (value f) ∧
        (ev'.evaluate m' arg).1 = .ok (value' f)) ∧
      ∀ (f : Formula) (w : Nat),
        (f.BuiltWith .poss → (value f)[w]? = some true → (value' f)[w]? = some true) ∧
        (f.BuiltWith .nec → (value' f)[w]? = some true → (value f)[w]? = some true) := by
  have h := consistent_run events
  have h' : m'.Consistent := h.change (callAddEdge_eq_ok hadd)
  obtain ⟨value, hv⟩ := h.exists_valued_of_not_confluent hconfluent
  obtain ⟨value', hv'⟩ := h'.exists_valued_of_not_confluent (hrules ▸ hconfluent)
  have hwidens := widens_of_callAddEdge hadd
  exact ⟨value, value', fun arg f hread => ⟨hv.answered arg f hread, hv'.answered arg f hread⟩,
    fun f w => ⟨hwidens.getElem?_of_poss hrules hv hv', hwidens.getElem?_of_nec hrules hv hv'⟩⟩

def unjoined : List Event :=
  [.operate (.addState []), .operate (.addState [(.text ['p'], .bool true)]),
    .operate (.addEdge (.int 1) (.int 1) (.text EdgeKind.relation.word))]

theorem monotone_unjoined : ∃ m',
    (run unjoined).callAddEdge (.int 0) (.int 1) (.text EdgeKind.preorder.word) = .ok (true, m') ∧
    ∃ value value' : Formula → List Bool,
      (∀ arg f, arg.toFormula = .ok f →
        (Evaluator.evaluate {} (run unjoined) arg).1 = .ok (value f) ∧
        (Evaluator.evaluate {} m' arg).1 = .ok (value' f)) ∧
      ∀ (f : Formula) (w : Nat),
        (f.BuiltWith .poss → (value f)[w]? = some true → (value' f)[w]? = some true) ∧
        (f.BuiltWith .nec → (value' f)[w]? = some true → (value f)[w]? = some true) := by
  obtain ⟨m', hadd⟩ : ∃ m', (run unjoined).callAddEdge (.int 0) (.int 1)
      (.text EdgeKind.preorder.word) = .ok (true, m') := ⟨_, rfl⟩
  exact ⟨m', hadd, monotone_run unjoined hadd {} {} rfl rfl⟩

end Model

end KripkeLogic
