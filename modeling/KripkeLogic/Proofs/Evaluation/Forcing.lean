import KripkeLogic.Proofs.Access.Confluence
import KripkeLogic.Proofs.Evaluation.Work
import KripkeLogic.Proofs.Model.Consistency
import KripkeLogic.Proofs.Node.Tree

/-!
# Forcing

The values that an evaluation gives are truth at the slots, by recursion on the formula, in every
model that a history leads to.
-/

namespace KripkeLogic

open Access

namespace Model

section Semantics

variable (m : Model) (rules : Rules)

def Below (i j : Nat) : Prop := Joined (m.edges .preorder) i j

/-- One step of the relation, or a loop of a live state under the reflexive rule. -/
def Sees (i j : Nat) : Prop :=
  (i, j) ∈ m.edges .relation ∨ rules.reflexive = true ∧ i = j ∧ m.isLive i = true

/-- Truth at a slot. A removed slot has no variables and is on no edge. -/
def Forces : Formula → Nat → Prop
  | .prop x, w => x.chars ∈ m.assignmentAt w
  | .bot, _ => False
  | .unary .neg a, w => ∀ u, m.Below w u → ¬ Forces a u
  | .unary .nec a, w => ∀ u v, m.Below w u → m.Sees rules u v → Forces a v
  | .unary .poss a, w =>
    if rules.localDiamond then ∃ v, m.Sees rules w v ∧ Forces a v
    else ∃ u v, m.Below w u ∧ m.Sees rules u v ∧ Forces a v
  | .binary .conj a b, w => Forces a w ∧ Forces b w
  | .binary .disj a b, w => Forces a w ∨ Forces b w
  | .binary .impl a b, w => Forces a w → Forces b w
  | .binary .equi a b, w => Forces a w ↔ Forces b w

/-- Forward confluence fails: from `i` one gets up to `k` and over to `j`, but nowhere from both. -/
def Broken : Prop :=
  ∃ i j k, m.Below i k ∧ m.Sees rules i j ∧ ¬ ∃ n, m.Below j n ∧ m.Sees rules k n

end Semantics

/-! ## Matrices as relations of slots -/

variable {m : Model} {rules : Rules}

theorem holds_closure_iff (h : m.Consistent) {i j : Fin m.size} :
    (m.closure .preorder).holds i j = true ↔ m.Below i j := by
  unfold Below
  rw [← h.mem_closure, mem_edges]
  constructor
  · intro hij
    exact ⟨i.isLt, j.isLt, hij⟩
  · rintro ⟨_, _, hij⟩
    exact hij

theorem holds_relationUnder_iff {i j : Fin m.size} :
    (m.relationUnder rules).holds i j = true ↔ m.Sees rules i j := by
  have hedge : (m.adjacency .relation).holds i j = true ↔ (i.val, j.val) ∈ m.edges .relation :=
    holds_ofEdges
  unfold relationUnder Sees
  split
  · rename_i hr
    rw [holds_withReflexive, hedge, Fin.ext_iff]
    simp [hr, liveMask]
  · rename_i hr
    rw [hedge]
    simp [hr]

theorem holds_composed_iff (h : m.Consistent) {i j : Fin m.size} :
    ((m.closure .preorder).compose (m.relationUnder rules)).holds i j = true ↔
      ∃ u, m.Below i u ∧ m.Sees rules u j := by
  rw [holds_compose]
  constructor
  · rintro ⟨u, hiu, huj⟩
    exact ⟨u, (holds_closure_iff h).1 hiu, holds_relationUnder_iff.1 huj⟩
  · rintro ⟨u, hiu, huj⟩
    have hu : u < m.size := lt_size_of_isLive (h.live_of_joined hiu).2
    exact ⟨⟨u, hu⟩, (holds_closure_iff h).2 hiu, holds_relationUnder_iff.2 huj⟩

theorem Consistent.lt_size_of_below (h : m.Consistent) {i j : Nat} (hij : m.Below i j) :
    i < m.size ∧ j < m.size :=
  Joined.ends (p := fun i => i < m.size) (h.lt_size .preorder) hij

theorem Consistent.live_of_sees (h : m.Consistent) {i j : Nat} (hij : m.Sees rules i j) :
    m.isLive i = true ∧ m.isLive j = true := by
  rcases hij with hij | ⟨-, rfl, hi⟩
  · exact h.live .relation _ hij
  · exact ⟨hi, hi⟩

theorem Consistent.lt_size_of_sees (h : m.Consistent) {i j : Nat} (hij : m.Sees rules i j) :
    i < m.size ∧ j < m.size :=
  (h.live_of_sees hij).imp lt_size_of_isLive lt_size_of_isLive

/-! ## Values are truth -/

section Modal

variable {n : Nat} {A : Access n} {values : Vector Bool n} {r : Nat → Nat → Prop} {p : Nat → Prop}

theorem necessity_iff_forall (hA : ∀ i j : Fin n, A.holds i j = true ↔ r i j)
    (hr : ∀ i j, r i j → j < n) (hp : ∀ j : Fin n, trueAt values j = true ↔ p j) (i : Fin n) :
    trueAt (necessity values A) i = true ↔ ∀ j, r i j → p j := by
  rw [necessity_iff]
  constructor
  · intro h j hij
    exact (hp ⟨j, hr i j hij⟩).1 (h _ ((hA i ⟨j, hr i j hij⟩).2 hij))
  · intro h j hij
    exact (hp j).2 (h j ((hA i j).1 hij))

theorem possibility_iff_exists (hA : ∀ i j : Fin n, A.holds i j = true ↔ r i j)
    (hr : ∀ i j, r i j → j < n) (hp : ∀ j : Fin n, trueAt values j = true ↔ p j) (i : Fin n) :
    trueAt (possibility values A) i = true ↔ ∃ j, r i j ∧ p j := by
  rw [possibility_iff]
  constructor
  · rintro ⟨j, hij, hj⟩
    exact ⟨j, (hA i j).1 hij, (hp j).1 hj⟩
  · rintro ⟨j, hij, hj⟩
    exact ⟨⟨j, hr i j hij⟩, (hA i ⟨j, hr i j hij⟩).2 hij, (hp ⟨j, hr i j hij⟩).2 hj⟩

end Modal

theorem trueAt_ofBinary {n : Nat} (op : BinaryOp) (u v : Vector Bool n) (i : Fin n) :
    trueAt (Setting.ofBinary op u v) i = op.holds (trueAt u i) (trueAt v i) := by
  simp [trueAt, Setting.ofBinary]

theorem trueAt_nowhere {n : Nat} (i : Fin n) : trueAt (Setting.nowhere n) i = false := by
  simp [trueAt, Setting.nowhere]

/-- The matrices of a setting are the relations of a model under some rules. -/
structure Represents (s : Setting) (m : Model) (rules : Rules) : Prop where
  name : ∀ (x : Name) (w : Fin s.size), trueAt (s.ofName x) w = true ↔ x.chars ∈ m.assignmentAt w
  localDiamond : s.localDiamond = rules.localDiamond
  preorder : ∀ i j, s.preorder.holds i j = true ↔ m.Below i j
  relation : ∀ i j, s.relation.holds i j = true ↔ m.Sees rules i j
  composed : ∀ i j, s.composed.holds i j = true ↔ ∃ u, m.Below i u ∧ m.Sees rules u j
  below_lt : ∀ i j, m.Below i j → j < s.size
  sees_lt : ∀ i j, m.Sees rules i j → j < s.size

theorem represents_setting (h : m.Consistent) (rules : Rules) :
    Represents (m.setting rules) m rules where
  name x w := by
    have hw : w.val < m.size := w.isLt
    have hslot : m.slots[w.val]? = some m.slots[w.val] := Vector.getElem?_eq_getElem hw
    unfold assignmentAt
    rw [hslot]
    simp [trueAt, Setting.ofName, setting]
  localDiamond := rfl
  preorder _ _ := holds_closure_iff h
  relation _ _ := holds_relationUnder_iff
  composed _ _ := holds_composed_iff h
  below_lt _ _ hij := (h.lt_size_of_below hij).2
  sees_lt _ _ hij := (h.lt_size_of_sees hij).2

/-- **The values of the recursion are truth at the slots.** -/
theorem Represents.trueAt_value_iff {s : Setting} (h : Represents s m rules) (f : Formula)
    (w : Fin s.size) : trueAt (s.value f) w = true ↔ m.Forces rules f w := by
  have hlt : ∀ i j, (∃ u, m.Below i u ∧ m.Sees rules u j) → j < s.size :=
    fun i j ⟨u, _, huj⟩ => h.sees_lt u j huj
  induction f generalizing w with
  | prop x => exact h.name x w
  | bot =>
    rw [Setting.value, trueAt_nowhere]
    simp [Forces]
  | unary op a ih =>
    cases op with
    | neg =>
      -- Negation is valued as the implication of falsum, which is true where the operand is not.
      have himpl : ∀ u, trueAt (Setting.ofBinary .impl (s.value a) (Setting.nowhere s.size)) u = true ↔
          ¬ m.Forces rules a u := by
        intro u
        refine Iff.trans ?_ (not_congr (ih u))
        rw [trueAt_ofBinary, trueAt_nowhere]
        simp [BinaryOp.holds]
      exact necessity_iff_forall h.preorder h.below_lt himpl w
    | nec =>
      have hbox := necessity_iff_forall h.composed hlt ih w
      refine hbox.trans ⟨fun hall u v hwu huv => hall v ⟨u, hwu, huv⟩, ?_⟩
      rintro hall v ⟨u, hwu, huv⟩
      exact hall u v hwu huv
    | poss =>
      simp only [Setting.value, Setting.ofUnary, Forces, h.localDiamond]
      split
      · exact possibility_iff_exists h.relation h.sees_lt ih w
      · have hdia := possibility_iff_exists h.composed hlt ih w
        refine hdia.trans ⟨?_, ?_⟩
        · rintro ⟨v, ⟨u, hwu, huv⟩, hv⟩
          exact ⟨u, v, hwu, huv, hv⟩
        · rintro ⟨u, v, hwu, huv, hv⟩
          exact ⟨v, ⟨u, hwu, huv⟩, hv⟩
  | binary op a b iha ihb =>
    rw [Setting.value, trueAt_ofBinary]
    cases op <;> simp only [Forces, ← iha, ← ihb, BinaryOp.holds] <;>
      cases trueAt (s.value a) w <;> cases trueAt (s.value b) w <;> simp

/-! ## Evaluation in reachable models -/

theorem permits_iff (h : m.Consistent) (rules : Rules) :
    m.permits rules = true ↔ ¬ (rules.confluent = true ∧ m.Broken rules) := by
  have hframe : (m.closure .preorder).isConfluent (m.relationUnder rules) = true ↔ ¬ m.Broken rules := by
    rw [isConfluent_iff]
    constructor
    · rintro hall ⟨i, j, k, hik, hij, hnone⟩
      obtain ⟨hi, hk⟩ := h.lt_size_of_below hik
      obtain ⟨-, hj⟩ := h.lt_size_of_sees hij
      obtain ⟨l, hjl, hkl⟩ := hall ⟨i, hi⟩ ⟨j, hj⟩ ⟨k, hk⟩ ((holds_closure_iff h).2 hik)
        (holds_relationUnder_iff.2 hij)
      exact hnone ⟨l, (holds_closure_iff h).1 hjl, holds_relationUnder_iff.1 hkl⟩
    · intro hsound i j k hik hij
      by_contra hnone
      refine hsound ⟨i, j, k, (holds_closure_iff h).1 hik, holds_relationUnder_iff.1 hij, ?_⟩
      rintro ⟨l, hjl, hkl⟩
      have hl := (h.lt_size_of_below hjl).2
      exact hnone ⟨⟨l, hl⟩, (holds_closure_iff h).2 hjl, holds_relationUnder_iff.2 hkl⟩
  rw [permits, Bool.or_eq_true, hframe, Bool.not_eq_true', ← Bool.not_eq_true]
  exact imp_iff_not_or.symm.trans not_and.symm

theorem Consistent.recompute_eq (h : m.Consistent) (k : EdgeKind) : m.recompute k = m := by
  have hk := h.fresh k
  cases k
  · exact congrArg (fun c => { m with preorderClosure := c }) hk.symm
  · exact congrArg (fun c => { m with relationClosure := c }) hk.symm

theorem Consistent.refresh_eq (h : m.Consistent) : m.refresh = m := by
  rw [refresh, h.recompute_eq, h.recompute_eq]

theorem Consistent.evaluate_limited (h : m.Consistent) (ev : Evaluator) {arg : Argument}
    {limit : Option Nat} {f : Formula} (hf : arg.toFormula limit = .ok f) :
    (ev.evaluate m arg limit).1 =
      if m.permits ev.rules then
        if (arg.placed f).Comparable limit then .ok ((m.setting ev.rules).value f).toList
        else .error (.work .tooDeep)
      else .error .notConfluent := by
  rw [Evaluator.evaluate_fst, hf, h.refresh_eq]
  unfold setting?
  by_cases hp : m.permits ev.rules = true
  · simp [hp]
  · simp [hp]

theorem Consistent.evaluate_eq (h : m.Consistent) (ev : Evaluator) {arg : Argument} {f : Formula}
    (hf : arg.toFormula = .ok f) :
    (ev.evaluate m arg).1 =
      if m.permits ev.rules then .ok ((m.setting ev.rules).value f).toList
      else .error .notConfluent := by
  rw [h.evaluate_limited ev hf]
  simp only [Placed.comparable_none, if_true]

theorem Consistent.getElem?_value_iff (h : m.Consistent) (rules : Rules) (f : Formula) {w : Nat}
    (hw : w < m.size) :
    ((m.setting rules).value f).toList[w]? = some true ↔ m.Forces rules f w := by
  have hsize : w < (m.setting rules).size := hw
  rw [Vector.getElem?_toList, Vector.getElem?_eq_getElem hsize, Option.some.injEq]
  exact (represents_setting h rules).trueAt_value_iff f ⟨w, hw⟩

theorem Consistent.answers (h : m.Consistent) (ev : Evaluator) {arg : Argument} {f : Formula}
    (hf : arg.toFormula = .ok f) (hanswer : (ev.evaluate m arg).1 ≠ .error .notConfluent) :
    ¬ (ev.rules.confluent = true ∧ m.Broken ev.rules) ∧
      ∃ values, (ev.evaluate m arg).1 = .ok values ∧ values.length = m.size ∧
        ∀ w, w < m.size → (values[w]? = some true ↔ m.Forces ev.rules f w) := by
  have heval := h.evaluate_eq ev hf
  by_cases hp : m.permits ev.rules = true
  · rw [if_pos hp] at heval
    exact ⟨(permits_iff h ev.rules).1 hp, _, heval, Vector.length_toList,
      fun w hw => h.getElem?_value_iff ev.rules f hw⟩
  · rw [if_neg hp] at heval
    exact absurd heval hanswer

/-- Under its rules the evaluator does not refuse the model: some formula is evaluated. -/
def Answers (m : Model) (ev : Evaluator) : Prop :=
  ∃ arg values, (ev.evaluate m arg).1 = .ok values

structure Valued (m : Model) (ev : Evaluator) (value : Formula → List Bool) : Prop where
  answered : ∀ arg f, arg.toFormula = .ok f → (ev.evaluate m arg).1 = .ok (value f)
  length : ∀ f, (value f).length = m.size
  true_iff : ∀ f w, w < m.size → ((value f)[w]? = some true ↔ m.Forces ev.rules f w)

theorem Valued.false_iff {ev : Evaluator} {value : Formula → List Bool} (hv : Valued m ev value)
    (f : Formula) {w : Nat} (hw : w < m.size) :
    (value f)[w]? = some false ↔ ¬ m.Forces ev.rules f w := by
  have hlt : w < (value f).length := (hv.length f).symm ▸ hw
  rw [← hv.true_iff f w hw, List.getElem?_eq_getElem hlt, Option.some.injEq, Option.some.injEq,
    Bool.not_eq_true]

theorem Consistent.answers_iff_permits (h : m.Consistent) {ev : Evaluator} :
    m.Answers ev ↔ m.permits ev.rules = true := by
  constructor
  · rintro ⟨arg, values, hvalues⟩
    cases hread : arg.toFormula with
    | error e =>
      rw [Evaluator.evaluate_fst, hread] at hvalues
      cases hvalues
    | ok f =>
      rw [h.evaluate_eq ev hread] at hvalues
      by_contra hp
      rw [if_neg hp] at hvalues
      cases hvalues
  · intro hp
    have hread : (Argument.value (.text ['p'])).toFormula = .ok (.prop (.ofChar 'p' rfl)) := rfl
    exact ⟨_, _, (h.evaluate_eq ev hread).trans (if_pos hp)⟩

theorem Consistent.valued (h : m.Consistent) {ev : Evaluator} (hp : m.permits ev.rules = true) :
    Valued m ev fun f => ((m.setting ev.rules).value f).toList := by
  refine ⟨fun arg f hread => ?_, fun f => Vector.length_toList,
    fun f w hw => h.getElem?_value_iff ev.rules f hw⟩
  rw [h.evaluate_eq ev hread, if_pos hp]

theorem Consistent.exists_valued (h : m.Consistent) {ev : Evaluator} (hanswer : m.Answers ev) :
    ∃ value, Valued m ev value :=
  ⟨_, h.valued (h.answers_iff_permits.1 hanswer)⟩

theorem toFormula_of_validate {tree : Node} {limit : Option Nat} {f : Formula}
    (hf : tree.validate limit = .ok f) (places : Nat → Place) :
    (Argument.tree tree places).toFormula limit = .ok f := by
  rw [Argument.toFormula, Node.toFormula_eq_ok_iff.2 (Node.validate_eq_ok_iff.1 hf)]
  rfl

def join (i j : Int) (k : EdgeKind) : Event :=
  .operate (.addEdge (.int i) (.int j) (.text k.word))

end Model

end KripkeLogic
