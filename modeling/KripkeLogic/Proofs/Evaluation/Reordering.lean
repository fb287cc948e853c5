import KripkeLogic.Proofs.Evaluation.Forcing

/-! # The order of edges -/

namespace KripkeLogic

namespace Access

variable {n : Nat}

theorem ofEdges_congr {es es' : List (Nat × Nat)} (h : ∀ e, e ∈ es' ↔ e ∈ es) :
    ofEdges n es' = ofEdges n es := by
  ext i j
  rw [Bool.eq_iff_iff, holds_ofEdges, holds_ofEdges, h]

end Access

namespace Model

/-- The models have the same states and the same edges, in any order. -/
structure Reordered (m m' : Model) : Prop where
  slots : m'.slots.toList = m.slots.toList
  edges : ∀ k e, e ∈ m'.edges k ↔ e ∈ m.edges k

namespace Reordered

variable {m m' : Model}

theorem exists_eq (h : Reordered m m') (hm : m.Consistent) (hm' : m'.Consistent) :
    ∃ ps rs, m' = { m with preorders := ps, relations := rs } ∧
      Access.ofEdges m.size rs = m.adjacency .relation := by
  obtain ⟨n, slots, ps, rs, pc, rc⟩ := m
  obtain ⟨n', slots', ps', rs', pc', rc'⟩ := m'
  obtain rfl : n' = n := by simpa using congrArg List.length h.slots
  obtain rfl : slots' = slots := Vector.toList_inj.1 h.slots
  have hp : Access.ofEdges n' ps' = Access.ofEdges n' ps := Access.ofEdges_congr (h.edges .preorder)
  have hr : Access.ofEdges n' rs' = Access.ofEdges n' rs := Access.ofEdges_congr (h.edges .relation)
  have hpc : pc' = pc :=
    (hm'.fresh .preorder).trans ((congrArg Access.closure hp).trans (hm.fresh .preorder).symm)
  have hrc : rc' = rc :=
    (hm'.fresh .relation).trans ((congrArg Access.closure hr).trans (hm.fresh .relation).symm)
  exact ⟨ps', rs', by rw [hpc, hrc], hr⟩

theorem closure_edges (h : Reordered m m') (hm : m.Consistent) (hm' : m'.Consistent)
    (k : EdgeKind) : (m'.closure k).edges = (m.closure k).edges := by
  obtain ⟨ps, rs, rfl, -⟩ := h.exists_eq hm hm'
  cases k <;> rfl

theorem isConfluent (h : Reordered m m') (hm : m.Consistent) (hm' : m'.Consistent) :
    m'.isConfluent = m.isConfluent := by
  obtain ⟨ps, rs, rfl, hr⟩ := h.exists_eq hm hm'
  exact congrArg m.preorderClosure.isConfluent hr

theorem setting? (h : Reordered m m') (hm : m.Consistent) (hm' : m'.Consistent) (rules : Rules) :
    m'.setting? rules = m.setting? rules := by
  obtain ⟨ps, rs, rfl, hr⟩ := h.exists_eq hm hm'
  -- A setting is made of the states, the closure and the matrix of the relation.
  let make (A : Access m.size) : Option Setting :=
    let R := if rules.reflexive then A.withReflexive m.liveMask else A
    if !rules.confluent || m.preorderClosure.isConfluent R then
      some ⟨m.size, m.slots, rules.localDiamond, m.preorderClosure, R,
        m.preorderClosure.compose R⟩
    else none
  exact congrArg make hr

theorem evaluate (h : Reordered m m') (hm : m.Consistent) (hm' : m'.Consistent) (ev : Evaluator)
    (arg : Argument) : (ev.evaluate m' arg).1 = (ev.evaluate m arg).1 := by
  rw [Evaluator.evaluate_fst, Evaluator.evaluate_fst, hm.refresh_eq, hm'.refresh_eq,
    h.setting? hm hm']

end Reordered

end Model

end KripkeLogic
