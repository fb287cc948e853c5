import KripkeLogic.Proofs.Evaluation.Forcing

/-!
# Truth is local

Two models that agree on a part which no edge leaves, and on the variables of a formula there, give
it the same values there.
-/

namespace KripkeLogic

theorem Joined.transfer {es es' : List (Nat × Nat)} {p : Nat → Prop}
    (hinside : ∀ i j, p i → (i, j) ∈ es → p j)
    (hsub : ∀ i j, p i → (i, j) ∈ es → (i, j) ∈ es') {i j : Nat} (hi : p i) (h : Joined es i j) :
    p j ∧ Joined es' i j := by
  induction h with
  | single he => exact ⟨hinside _ _ hi he, .single (hsub _ _ hi he)⟩
  | tail _ he ih => exact ⟨hinside _ _ ih.1 he, ih.2.tail (hsub _ _ ih.1 he)⟩

namespace Model

/-- On the slots in `p`, which no edge leaves, the models have the same states and edges, and the
same variables as far as they are in `q`. -/
structure AgreeOn (m m' : Model) (p : Nat → Prop) (q : List Char → Prop) : Prop where
  inside : ∀ k i j, p i → (i, j) ∈ m.edges k → p j
  edges : ∀ k i j, p i → ((i, j) ∈ m'.edges k ↔ (i, j) ∈ m.edges k)
  live : ∀ i, p i → m'.isLive i = m.isLive i
  names : ∀ i x, p i → q x → (x ∈ m'.assignmentAt i ↔ x ∈ m.assignmentAt i)

/-- Forward confluence fails for the steps that start at `i`. -/
def BrokenAt (m : Model) (rules : Rules) (i : Nat) : Prop :=
  ∃ j k, m.Below i k ∧ m.Sees rules i j ∧ ¬ ∃ n, m.Below j n ∧ m.Sees rules k n

variable {m m' : Model} {rules : Rules} {p : Nat → Prop} {q : List Char → Prop}
  {k : EdgeKind} {i j w : Nat}

namespace AgreeOn

/-! ## Steps -/

theorem inside_of_joined (h : AgreeOn m m' p q) (hi : p i) (hij : Joined (m.edges k) i j) : p j :=
  (hij.transfer (h.inside k) (fun _ _ _ he => he) hi).1

theorem joined_iff (h : AgreeOn m m' p q) (hi : p i) :
    Joined (m'.edges k) i j ↔ Joined (m.edges k) i j := by
  have hedges := h.edges k
  constructor
  · intro hij
    have hinside : ∀ a b, p a → (a, b) ∈ m'.edges k → p b :=
      fun a b ha hab => h.inside k a b ha ((hedges a b ha).1 hab)
    exact (hij.transfer hinside (fun a b ha => (hedges a b ha).1) hi).2
  · intro hij
    exact (hij.transfer (h.inside k) (fun a b ha => (hedges a b ha).2) hi).2

theorem inside_of_below (h : AgreeOn m m' p q) (hi : p i) (hij : m.Below i j) : p j :=
  h.inside_of_joined hi hij

theorem below_iff (h : AgreeOn m m' p q) (hi : p i) : m'.Below i j ↔ m.Below i j :=
  h.joined_iff hi

theorem inside_of_sees (h : AgreeOn m m' p q) (hi : p i) (hij : m.Sees rules i j) : p j := by
  rcases hij with hij | ⟨-, rfl, -⟩
  · exact h.inside .relation i j hi hij
  · exact hi

theorem sees_iff (h : AgreeOn m m' p q) (hi : p i) : m'.Sees rules i j ↔ m.Sees rules i j := by
  rw [Sees, Sees, h.edges .relation i j hi, h.live i hi]

theorem brokenAt_iff (h : AgreeOn m m' p q) (hi : p i) :
    m'.BrokenAt rules i ↔ m.BrokenAt rules i := by
  refine exists₂_congr fun j k => (and_congr_left' (h.below_iff hi)).trans ?_
  refine and_congr_right fun hik => (and_congr_left' (h.sees_iff hi)).trans ?_
  refine and_congr_right fun hij => not_congr (exists_congr fun n => ?_)
  exact and_congr (h.below_iff (h.inside_of_sees hi hij)) (h.sees_iff (h.inside_of_below hi hik))

/-! ## Truth -/

/-- **Truth looks only where steps lead, and only at the variables of the formula.** -/
theorem forces_iff (h : AgreeOn m m' p q) {f : Formula} (hf : ∀ x ∈ f.names, q x.chars)
    (hw : p w) : m'.Forces rules f w ↔ m.Forces rules f w := by
  induction f generalizing w with
  | prop x => exact h.names w x.chars hw (hf x List.mem_cons_self)
  | bot => exact Iff.rfl
  | unary op a ih =>
    cases op with
    | neg =>
      refine forall_congr' fun u => imp_congr_ctx (h.below_iff hw) fun hwu => not_congr ?_
      exact ih hf (h.inside_of_below hw hwu)
    | nec =>
      refine forall₂_congr fun u v => imp_congr_ctx (h.below_iff hw) fun hwu => ?_
      have hu := h.inside_of_below hw hwu
      exact imp_congr_ctx (h.sees_iff hu) fun huv => ih hf (h.inside_of_sees hu huv)
    | poss =>
      simp only [Forces]
      split
      · refine exists_congr fun v => (and_congr_left' (h.sees_iff hw)).trans ?_
        exact and_congr_right fun hwv => ih hf (h.inside_of_sees hw hwv)
      · refine exists₂_congr fun u v => (and_congr_left' (h.below_iff hw)).trans ?_
        refine and_congr_right fun hwu => ?_
        have hu := h.inside_of_below hw hwu
        refine (and_congr_left' (h.sees_iff hu)).trans ?_
        exact and_congr_right fun huv => ih hf (h.inside_of_sees hu huv)
  | binary op a b iha ihb =>
    have ha := iha (fun x hx => hf x (List.mem_append_left _ hx)) hw
    have hb := ihb (fun x hx => hf x (List.mem_append_right _ hx)) hw
    cases op with
    | conj => exact and_congr ha hb
    | disj => exact or_congr ha hb
    | impl => exact imp_congr ha hb
    | equi => exact iff_congr ha hb

theorem getElem?_value (h : AgreeOn m m' p q) (hm : m.Consistent) (hm' : m'.Consistent)
    {f : Formula} (hf : ∀ x ∈ f.names, q x.chars) (hp : p w) (hw : w < m.size) (hw' : w < m'.size) :
    ((m'.setting rules).value f).toList[w]? = ((m.setting rules).value f).toList[w]? := by
  have hvalue := (represents_setting hm rules).trueAt_value_iff f ⟨w, hw⟩
  have hvalue' := (represents_setting hm' rules).trueAt_value_iff f ⟨w, hw'⟩
  have heq := Bool.eq_iff_iff.2 (hvalue'.trans ((h.forces_iff hf hp).trans hvalue.symm))
  rw [Vector.getElem?_toList, Vector.getElem?_toList]
  exact (Vector.getElem?_eq_getElem hw').trans
    ((congrArg some heq).trans (Vector.getElem?_eq_getElem hw).symm)

end AgreeOn

theorem permits_congr (h : m.Consistent) (h' : m'.Consistent)
    (hbroken : m'.Broken rules ↔ m.Broken rules) : m'.permits rules = m.permits rules := by
  rw [Bool.eq_iff_iff, permits_iff h', permits_iff h, hbroken]

/-! ## The part that can be reached -/

/-- A path of edges of both kinds, which may be empty, leads from `i` to `j`. -/
def Reaches (m : Model) : Nat → Nat → Prop :=
  Relation.ReflTransGen fun i j => ∃ k, (i, j) ∈ m.edges k

theorem agreeOn_removeState {v : Nat} (hv : m.isLive v = true) (hfar : ¬ m.Reaches w v) :
    AgreeOn m (m.removeState v) (m.Reaches w) fun _ => True := by
  have hne : ∀ i, m.Reaches w i → v ≠ i := by
    rintro i hi rfl
    exact hfar hi
  have hinside : ∀ k i j, m.Reaches w i → (i, j) ∈ m.edges k → m.Reaches w j :=
    fun k i j hi hij => hi.tail ⟨k, hij⟩
  refine ⟨hinside, fun k i j hi => ?_, fun i hi => ?_, fun i x hi _ => ?_⟩
  · rw [mem_edges_removeState hv]
    exact and_iff_left_of_imp fun hij =>
      ⟨(hne i hi).symm, (hne j (hinside k i j hi hij)).symm⟩
  · rw [isLive_removeState, if_neg (hne i hi)]
  · rw [assignmentAt_removeState, if_neg (hne i hi)]

theorem Consistent.truth_eq (h : m.Consistent) (hrules : rules.confluent = false) {state : Value}
    (hw : m.state? state = some w) {arg : Argument} {f : Formula} (hread : arg.toFormula = .ok f) :
    (m.truth state arg rules).1 =
      .ok (some ((((m.setting rules).value f).toList[w]?).getD false)) := by
  have hpermits : m.permits rules = true := by rw [permits, hrules]; rfl
  have hvalues : (m.evaluate rules arg).1 = .ok ((m.setting rules).value f).toList :=
    (h.evaluate_eq { rules := rules } hread).trans (if_pos hpermits)
  have hrequire : m.requireState state = .ok w := by rw [requireState, hw]
  rw [truth, hrequire]
  rcases hresult : m.evaluate rules arg with ⟨result, left⟩
  rw [hresult] at hvalues
  obtain rfl : result = _ := hvalues
  rfl

/-- **Truth at a state does not change when a state that cannot be reached from it is removed.** -/
theorem truth_removeState_run (events : List Event) {rules : Rules}
    (hrules : rules.confluent = false) {state index : Value} {w v : Nat}
    (hw : (run events).state? state = some w) (hv : (run events).state? index = some v)
    (hfar : ¬ (run events).Reaches w v) {arg : Argument} {f : Formula}
    (hread : arg.toFormula = .ok f) :
    ∃ b, ((run events).truth state arg rules).1 = .ok (some b) ∧
      (((run events).callRemoveState index).truth state arg rules).1 = .ok (some b) := by
  have hm := consistent_run events
  obtain ⟨-, hvlive⟩ := state?_eq_some_iff.1 hv
  obtain ⟨hstate, hwlive⟩ := state?_eq_some_iff.1 hw
  have hm' := hm.removeState hvlive
  have hcall : (run events).callRemoveState index = (run events).removeState v := by
    rw [callRemoveState, hv]
  have hagree := agreeOn_removeState hvlive hfar
  -- The state itself is reached by the empty path, so it is still there.
  have hwlive' : ((run events).removeState v).isLive w = true :=
    (hagree.live w .refl).trans hwlive
  have hw' := state?_eq_some_iff.2 ⟨hstate, hwlive'⟩
  have hvalue : ((((run events).removeState v).setting rules).value f).toList[w]? =
      (((run events).setting rules).value f).toList[w]? :=
    hagree.getElem?_value hm hm' (fun _ _ => trivial) .refl (lt_size_of_isLive hwlive)
      (lt_size_of_isLive hwlive')
  refine ⟨_, hm.truth_eq hrules hw hread, ?_⟩
  rw [hcall, hm'.truth_eq hrules hw' hread, hvalue]

def seenFromAside : List Event :=
  [.operate (.addState []), .operate (.addState [(.text ['p'], .bool true)]),
    .operate (.addState []), .operate (.addEdge (.int 0) (.int 1) Operation.defaultKind),
    .operate (.addEdge (.int 2) (.int 0) Operation.defaultKind),
    .operate (.addEdge (.int 2) (.int 0) (.text EdgeKind.preorder.word))]

theorem truth_seenFromAside : ¬ (run seenFromAside).Reaches 0 2 ∧
    (run seenFromAside).edges .relation = [(0, 1), (2, 0)] ∧
    ∃ b, ((run seenFromAside).truth (.int 0) (.value (.text ['[', ']', 'p'])) {}).1 =
        .ok (some b) ∧
      (((run seenFromAside).callRemoveState (.int 2)).truth (.int 0)
        (.value (.text ['[', ']', 'p'])) {}).1 = .ok (some b) := by
  have hsteps : ∀ k, ∀ e ∈ (run seenFromAside).edges k, e.1 < 2 → e.2 < 2 := by
    intro k
    cases k <;> decide
  have hnear : ∀ i, (run seenFromAside).Reaches 0 i → i < 2 := by
    intro i hi
    induction hi with
    | refl => decide
    | tail _ he ih =>
      obtain ⟨k, he⟩ := he
      exact hsteps k _ he ih
  have hfar : ¬ (run seenFromAside).Reaches 0 2 := fun h => absurd (hnear 2 h) (by decide)
  exact ⟨hfar, rfl, truth_removeState_run seenFromAside rfl rfl rfl hfar
    (f := .nec (.prop (.ofChar 'p' rfl))) rfl⟩

end Model

end KripkeLogic
