import KripkeLogic.Proofs.Evaluation.Agreement

/-!
# A new state disturbs nothing

The slot that a new state gets is on no edge but its own loop.
-/

namespace KripkeLogic.Model

open Outcome

/-- There is one more slot, which is on no edge but loops. -/
structure Extends (m m' : Model) : Prop where
  size : m'.size = m.size + 1
  slots : ∀ i, i < m.size → m'.slot i = m.slot i
  edges : ∀ k, ∃ loops, m'.edges k = m.edges k ++ loops ∧ ∀ e ∈ loops, e = (m.size, m.size)

variable {m m' : Model} {rules : Rules} {k : EdgeKind} {i j : Nat}

theorem extends_addState (m : Model) (a : Assignment) : Extends m (m.addState a) := by
  refine ⟨rfl, fun i hi => ?_, fun k => ?_⟩
  · rw [slot_addState, if_neg (Nat.ne_of_lt hi)]
  · cases k with
    | preorder => exact ⟨[(m.size, m.size)], rfl, fun e he => List.mem_singleton.1 he⟩
    | relation => exact ⟨[], (List.append_nil _).symm, fun e he => by cases he⟩

theorem Consistent.extends_removeState (h : m.Consistent) (a : Assignment) :
    Extends m ((m.addState a).removeState m.size) := by
  have hlive : (m.addState a).isLive m.size = true := by rw [isLive_addState, if_pos rfl]
  have hkept : ∀ k, (m.edges k).filter (!touches m.size ·) = m.edges k := by
    intro k
    rw [List.filter_eq_self]
    intro e he
    obtain ⟨h1, h2⟩ := h.ne_of_mem he (isLive_size m)
    simp [touches, h1, h2]
  refine ⟨?_, fun i hi => ?_, fun k => ⟨[], ?_, fun e he => by cases he⟩⟩
  · rw [size_removeState, size_addState]
  · rw [slot_removeState, if_neg (Nat.ne_of_gt hi), slot_addState, if_neg (Nat.ne_of_lt hi)]
  · rw [List.append_nil, Model.removeState, if_pos hlive, edges_ofEdges]
    cases k with
    | preorder =>
      -- The loop of the state goes with it.
      have hloop : [(m.size, m.size)].filter (!touches m.size ·) = [] := by simp [touches]
      have hedges : (m.addState a).preorders = m.edges .preorder ++ [(m.size, m.size)] := rfl
      simp only [hedges, List.filter_append, hkept, hloop, List.append_nil]
    | relation => exact hkept .relation

namespace Extends

/-! ## Edges -/

theorem mem_edges (h : Extends m m') {e : Nat × Nat} (he : e ∈ m'.edges k) :
    e ∈ m.edges k ∨ e = (m.size, m.size) := by
  obtain ⟨loops, hloops, hall⟩ := h.edges k
  rw [hloops] at he
  exact (List.mem_append.1 he).imp_right (hall e)

theorem agreeOn (h : Extends m m') (hm : m.Consistent) :
    AgreeOn m m' (· < m.size) fun _ => True := by
  refine ⟨fun k i j _ hij => (hm.lt_size k _ hij).2, fun k i j hi => ⟨fun hij => ?_, fun hij => ?_⟩,
    fun i hi => ?_, fun i x hi _ => ?_⟩
  · refine (h.mem_edges hij).resolve_right fun heq => ?_
    cases heq
    exact Nat.lt_irrefl _ hi
  · obtain ⟨loops, hloops, -⟩ := h.edges k
    rw [hloops]
    exact List.mem_append_left _ hij
  · rw [isLive_eq, isLive_eq, h.slots i hi]
  · rw [assignmentAt_eq, assignmentAt_eq, h.slots i hi]

theorem eq_of_mem_edges (h : Extends m m') (hm : m.Consistent) (hi : ¬ i < m.size)
    (hij : (i, j) ∈ m'.edges k) : (i, j) = (m.size, m.size) :=
  (h.mem_edges hij).resolve_left fun hold => hi (hm.lt_size k _ hold).1

theorem eq_of_joined (h : Extends m m') (hm : m.Consistent) (hi : ¬ i < m.size)
    (hij : Joined (m'.edges k) i j) : i = m.size ∧ j = m.size := by
  have hinside : ∀ a b, ¬ a < m.size → (a, b) ∈ m'.edges k → ¬ b < m.size := by
    intro a b ha hab
    cases h.eq_of_mem_edges hm ha hab
    exact ha
  have hround : Joined [(m.size, m.size)] i j :=
    (hij.transfer hinside (fun a b ha hab => List.mem_singleton.2 (h.eq_of_mem_edges hm ha hab))
      hi).2
  exact hround.ends (p := (· = m.size)) fun e he => by
    rw [List.mem_singleton.1 he]
    exact ⟨rfl, rfl⟩

theorem eq_of_sees (h : Extends m m') (hm : m.Consistent) (hi : ¬ i < m.size)
    (hij : m'.Sees rules i j) : i = m.size ∧ j = m.size := by
  rcases hij with hij | ⟨-, rfl, hlive⟩
  · cases h.eq_of_mem_edges hm hi hij
    exact ⟨rfl, rfl⟩
  · have hlt := lt_size_of_isLive hlive
    have hsize := h.size
    omega

theorem filter_edges (h : Extends m m') {f : Nat × Nat → Bool}
    (hf : f (m.size, m.size) = false) : (m'.edges k).filter f = (m.edges k).filter f := by
  obtain ⟨loops, hloops, hall⟩ := h.edges k
  have hnone : loops.filter f = [] := by
    rw [List.filter_eq_nil_iff]
    intro e he
    rw [hall e he, hf]
    exact Bool.false_ne_true
  rw [hloops, List.filter_append, hnone, List.append_nil]

/-! ## Confluence -/

theorem not_brokenAt (h : Extends m m') (hm : m.Consistent) (hi : ¬ i < m.size) :
    ¬ m'.BrokenAt rules i := by
  rintro ⟨j, k, hik, hij, hnone⟩
  obtain ⟨rfl, rfl⟩ := h.eq_of_joined hm hi hik
  obtain ⟨-, rfl⟩ := h.eq_of_sees hm hi hij
  exact hnone ⟨_, hik, hij⟩

theorem broken_iff (h : Extends m m') (hm : m.Consistent) :
    m'.Broken rules ↔ m.Broken rules := by
  refine exists_congr fun i => ?_
  by_cases hi : i < m.size
  · exact (h.agreeOn hm).brokenAt_iff hi
  · refine iff_of_false (h.not_brokenAt hm hi) ?_
    rintro ⟨j, k, hik, -, -⟩
    exact hi (hm.lt_size_of_below hik).1

theorem permits_eq (h : Extends m m') (hm : m.Consistent) (hm' : m'.Consistent) (rules : Rules) :
    m'.permits rules = m.permits rules :=
  permits_congr hm hm' (h.broken_iff hm)

/-! ## Values -/

theorem exists_toList_value (h : Extends m m') (hm : m.Consistent) (hm' : m'.Consistent)
    (rules : Rules) (f : Formula) : ∃ b, ((m'.setting rules).value f).toList =
      ((m.setting rules).value f).toList ++ [b] := by
  have hlength : ((m'.setting rules).value f).toList.length = m.size + 1 :=
    Vector.length_toList.trans h.size
  have hne : ((m'.setting rules).value f).toList ≠ [] := List.ne_nil_of_length_eq_add_one hlength
  have hearlier : ((m'.setting rules).value f).toList.dropLast =
      ((m.setting rules).value f).toList := by
    apply List.ext_getElem?
    intro w
    rw [List.getElem?_dropLast, hlength, Nat.add_sub_cancel]
    split
    · rename_i hw
      have hw' : w < m'.size := by rw [h.size]; omega
      exact (h.agreeOn hm).getElem?_value hm hm' (fun _ _ => trivial) hw hw hw'
    · rename_i hw
      have hlength' : ((m.setting rules).value f).toList.length = m.size := Vector.length_toList
      exact (List.getElem?_eq_none (by omega)).symm
  exact ⟨_, by rw [← hearlier, List.dropLast_concat_getLast hne]⟩

theorem evaluate_cases (h : Extends m m') (hm : m.Consistent) (hm' : m'.Consistent) (ev : Evaluator)
    (arg : Argument) : (∃ e, (ev.evaluate m arg).1 = .error e ∧ (ev.evaluate m' arg).1 = .error e) ∨
      ∃ values b, (ev.evaluate m arg).1 = .ok values ∧
        (ev.evaluate m' arg).1 = .ok (values ++ [b]) := by
  cases hread : arg.toFormula with
  | error e =>
    refine Or.inl ⟨.formula e, ?_, ?_⟩
    · rw [Evaluator.evaluate_fst, hread]
    · rw [Evaluator.evaluate_fst, hread]
  | ok f =>
    obtain ⟨b, hb⟩ := h.exists_toList_value hm hm' ev.rules f
    rw [hm.evaluate_eq ev hread, hm'.evaluate_eq ev hread, h.permits_eq hm hm', hb]
    split
    · exact Or.inr ⟨_, b, rfl, rfl⟩
    · exact Or.inl ⟨.notConfluent, rfl, rfl⟩

end Extends

/-! ## Adding and removing a state -/

/-- All that could be seen of the earlier slots can be seen unchanged. -/
structure Undisturbed (m m' : Model) : Prop extends Extends m m' where
  neighbours : ∀ k i, i < m.size → m'.successors k i = m.successors k i ∧
    m'.predecessors k i = m.predecessors k i
  closure : ∀ k i j, i < m.size → j < m.size →
    ((i, j) ∈ (m'.closure k).edges ↔ (i, j) ∈ (m.closure k).edges)
  confluent : m'.isConfluent = m.isConfluent
  refused : ∀ (ev : Evaluator) arg e,
    (ev.evaluate m' arg).1 = .error e ↔ (ev.evaluate m arg).1 = .error e
  answered : ∀ (ev : Evaluator) arg values, (ev.evaluate m arg).1 = .ok values →
    ∃ b, (ev.evaluate m' arg).1 = .ok (values ++ [b])

theorem Extends.undisturbed (h : Extends m m') (hm : m.Consistent) (hm' : m'.Consistent) :
    Undisturbed m m' := by
  refine ⟨h, fun k i hi => ⟨?_, ?_⟩, fun k i j hi _ => ?_, ?_, fun ev arg e => ?_,
    fun ev arg values hvalues => ?_⟩
  · exact congrArg (List.map Prod.snd) (h.filter_edges (decide_eq_false (Nat.ne_of_gt hi)))
  · exact congrArg (List.map Prod.fst) (h.filter_edges (decide_eq_false (Nat.ne_of_gt hi)))
  · rw [hm.mem_closure, hm'.mem_closure]
    exact (h.agreeOn hm).joined_iff hi
  · exact h.permits_eq hm hm' { confluent := true }
  · obtain ⟨e', he, he'⟩ | ⟨values, b, he, he'⟩ := h.evaluate_cases hm hm' ev arg
    · rw [he, he']
    · rw [he, he']
      exact iff_of_false (by simp) (by simp)
  · obtain ⟨e, he, -⟩ | ⟨values', b, hvalues', hvalues''⟩ := h.evaluate_cases hm hm' ev arg
    · rw [he] at hvalues
      cases hvalues
    · rw [hvalues'] at hvalues
      cases hvalues
      exact ⟨b, hvalues''⟩

/-- **A new state disturbs nothing**, nor does its removal. -/
theorem undisturbed_run (events : List Event) {pairs : List (Value × Value)} {i : Nat} {m' : Model}
    (h : (run events).callAddState pairs = .ok (i, m')) :
    i = (run events).size ∧ Undisturbed (run events) m' ∧
      Undisturbed (run events) (m'.callRemoveState (.int i)) := by
  have hm := consistent_run events
  obtain rfl := index_of_callAddState h
  obtain ⟨a, hlegal, rfl⟩ := callAddState_eq_ok h
  have hadded := hm.addState hlegal
  have hlive : ((run events).addState a).isLive (run events).size = true := by
    rw [isLive_addState, if_pos rfl]
  have hcall : ((run events).addState a).callRemoveState (.int (run events).size) =
      ((run events).addState a).removeState (run events).size := by
    rw [callRemoveState, state?_eq_some_iff.2 ⟨rfl, hlive⟩]
  refine ⟨rfl, (extends_addState _ a).undisturbed hm hadded, ?_⟩
  rw [hcall]
  exact (hm.extends_removeState a).undisturbed hm (hadded.removeState hlive)

theorem undisturbed_seenFromAside : ∃ m',
    (run seenFromAside).callAddState [(.text ['p'], .bool true)] = .ok (3, m') ∧
    3 = (run seenFromAside).size ∧ Undisturbed (run seenFromAside) m' ∧
      Undisturbed (run seenFromAside) (m'.callRemoveState (.int (3 : Nat))) := by
  obtain ⟨m', h⟩ : ∃ m', (run seenFromAside).callAddState [(.text ['p'], .bool true)] =
      .ok (3, m') := ⟨_, rfl⟩
  exact ⟨m', h, undisturbed_run seenFromAside h⟩

end KripkeLogic.Model
