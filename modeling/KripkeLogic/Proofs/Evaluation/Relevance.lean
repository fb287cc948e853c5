import KripkeLogic.Proofs.Evaluation.Agreement
import KripkeLogic.Proofs.Model.Updates
import KripkeLogic.Proofs.Node.Tree

/-! # Other variables play no part -/

namespace KripkeLogic.Model

/-- The models have the same slots, live states and edges, in any order. -/
structure SameFrame (m m' : Model) : Prop where
  size : m'.size = m.size
  live : ∀ i, m'.isLive i = m.isLive i
  edges : ∀ k e, e ∈ m'.edges k ↔ e ∈ m.edges k

def SameOn (m m' : Model) (names : List Value) : Prop :=
  ∀ x, .text x ∈ names → ∀ i, i < m.size → (x ∈ m'.assignmentAt i ↔ x ∈ m.assignmentAt i)

variable {m m' : Model} {names : List Value}

namespace SameFrame

theorem agreeOn (h : SameFrame m m') (hsame : SameOn m m' names) :
    AgreeOn m m' (fun _ => True) fun x => .text x ∈ names := by
  refine ⟨fun _ _ _ _ _ => trivial, fun k i j _ => h.edges k (i, j), fun i _ => h.live i,
    fun i x _ hx => ?_⟩
  by_cases hi : m.isLive i = true
  · exact hsame x hx i (lt_size_of_isLive hi)
  · rw [Bool.not_eq_true] at hi
    exact iff_of_false (not_mem_assignmentAt ((h.live i).trans hi) x) (not_mem_assignmentAt hi x)

theorem evaluate_eq (h : SameFrame m m') (hsame : SameOn m m' names) (hm : m.Consistent)
    (hm' : m'.Consistent) {f : Formula} (hf : ∀ x ∈ f.names, .text x.chars ∈ names)
    (ev : Evaluator) {arg : Argument} (hread : arg.toFormula = .ok f) :
    (ev.evaluate m' arg).1 = (ev.evaluate m arg).1 := by
  have hagree := h.agreeOn hsame
  have hbroken : m'.Broken ev.rules ↔ m.Broken ev.rules :=
    exists_congr fun i => hagree.brokenAt_iff trivial
  have hvalues : ((m'.setting ev.rules).value f).toList = ((m.setting ev.rules).value f).toList := by
    have hlength : ((m.setting ev.rules).value f).toList.length = m.size := Vector.length_toList
    have hlength' : ((m'.setting ev.rules).value f).toList.length = m.size :=
      Vector.length_toList.trans h.size
    apply List.ext_getElem?
    intro w
    by_cases hw : w < m.size
    · exact hagree.getElem?_value hm hm' hf trivial hw (by rw [h.size]; exact hw)
    · rw [List.getElem?_eq_none (by omega), List.getElem?_eq_none (by omega)]
  rw [hm.evaluate_eq ev hread, hm'.evaluate_eq ev hread, permits_congr hm hm' hbroken, hvalues]

end SameFrame

theorem same_of_callEdit {index : Value} {pairs : List (Value × Value)}
    (h : m.callEdit index pairs = .ok (true, m')) (hother : ∀ p ∈ pairs, p.1 ∉ names) :
    SameFrame m m' ∧ SameOn m m' names := by
  obtain ⟨hb, -⟩ | ⟨-, i, us, ups, hus, hups, hi, hedited⟩ := callEdit_cases h
  · cases hb
  · obtain ⟨-, rfl⟩ := editAssignment_eq_some_iff.1 hedited
    have hlive := (state?_eq_some_iff.1 hi).2
    refine ⟨⟨rfl, isLive_setAssignment hlive _, fun k e => by rw [edges_setAssignment]⟩,
      fun x hx j _ => ?_⟩
    rw [assignmentAt_setAssignment hlive]
    split
    · rename_i hij
      subst hij
      refine Updates.mem_update_of_ne hups (fun u hu hux => ?_) _
      obtain ⟨p, hp, hpu⟩ := Updates.name_of_ofList hus hu
      exact hother p hp (by rwa [hpu, hux])
    · rfl

/-- **Evaluation depends only on the variables that the formula names**, and on the frame. So an edit
that names other variables does not change it. -/
theorem evaluate_names_run (events : List Event) {tree : Node} {f : Formula}
    (hf : tree.validate = .ok f) : ∃ names, tree.names = .ok names ∧
      ∀ (ev : Evaluator) (arg : Argument), arg.toFormula = .ok f →
        (∀ events', SameFrame (run events) (run events') → SameOn (run events) (run events') names →
          (ev.evaluate (run events') arg).1 = (ev.evaluate (run events) arg).1) ∧
        ∀ index pairs m', (run events).callEdit index pairs = .ok (true, m') →
          (∀ p ∈ pairs, p.1 ∉ names) →
          (ev.evaluate m' arg).1 = (ev.evaluate (run events) arg).1 := by
  have hm := consistent_run events
  have htree : tree.TreeOf f := Node.validate_eq_ok_iff.1 hf
  obtain ⟨names, hnames, hmem⟩ := htree.exists_names
  have hvariables : ∀ x ∈ f.names, .text x.chars ∈ names := fun x hx => (hmem _).2 ⟨x, hx, rfl⟩
  refine ⟨names, hnames, fun ev arg hread => ⟨fun events' hframe hsame => ?_,
    fun index pairs m' hcall hother => ?_⟩⟩
  · exact hframe.evaluate_eq hsame hm (consistent_run events') hvariables ev hread
  · obtain ⟨hframe, hsame⟩ := same_of_callEdit hcall hother
    have hm' : m'.Consistent := hm.change (callEdit_eq_ok hcall)
    exact hframe.evaluate_eq hsame hm hm' hvariables ev hread

def seenFromAsideToo : List Event :=
  [.operate (.addState []),
    .operate (.addState [(.text ['p'], .bool true), (.text ['q'], .bool true)]),
    .operate (.addState []), .operate (.addEdge (.int 2) (.int 0) (.text EdgeKind.preorder.word)),
    .operate (.addEdge (.int 2) (.int 0) Operation.defaultKind),
    .operate (.addEdge (.int 0) (.int 1) Operation.defaultKind)]

theorem sameFrame_seenFromAside : SameFrame (run seenFromAside) (run seenFromAsideToo) := by
  refine ⟨rfl, fun i => ?_, fun k e => ?_⟩
  · match i with
    | 0 | 1 | 2 => rfl
    | _ + 3 => rfl
  · have hperm : ((run seenFromAsideToo).edges k).Perm ((run seenFromAside).edges k) := by
      cases k <;> decide
    exact hperm.mem_iff

theorem evaluate_names_seenFromAside : ∃ tree : Node,
    tree.validate = .ok (.nec (.prop (.ofChar 'p' rfl))) ∧ tree.names = .ok [.text ['p']] ∧
    ∀ ev : Evaluator,
      (ev.evaluate (run seenFromAsideToo) (.tree tree)).1 =
        (ev.evaluate (run seenFromAside) (.tree tree)).1 ∧
      ∃ m', (run seenFromAside).callEdit (.int 1) [(.text ['q'], .bool true)] = .ok (true, m') ∧
        (ev.evaluate m' (.tree tree)).1 = (ev.evaluate (run seenFromAside) (.tree tree)).1 := by
  have hvalid : (Node.ofFormula (.nec (.prop (.ofChar 'p' rfl)))).validate =
      .ok (.nec (.prop (.ofChar 'p' rfl))) := rfl
  have hnamed : (Node.ofFormula (.nec (.prop (.ofChar 'p' rfl)))).names =
      .ok [.text ['p']] := by
    rw [Node.names, Node.walk_eq]
    rfl
  refine ⟨_, hvalid, hnamed, fun ev => ?_⟩
  obtain ⟨names, hnames, hall⟩ := evaluate_names_run seenFromAside hvalid
  obtain rfl : [Value.text ['p']] = names := Except.ok.inj (hnamed.symm.trans hnames)
  obtain ⟨hframe, hedit⟩ := hall ev _ (toFormula_of_validate hvalid .own)
  obtain ⟨m', hcall⟩ : ∃ m', (run seenFromAside).callEdit (.int 1) [(.text ['q'], .bool true)] =
      .ok (true, m') := ⟨_, rfl⟩
  refine ⟨hframe seenFromAsideToo sameFrame_seenFromAside ?_, m', hcall,
    hedit _ _ m' hcall ?_⟩
  · intro x hx
    cases List.mem_singleton.1 hx
    decide
  · intro p hp hmem
    obtain rfl := List.mem_singleton.1 hp
    cases List.mem_singleton.1 hmem

end KripkeLogic.Model
