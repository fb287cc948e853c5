import KripkeLogic.Proofs.Node.Identity

/-! # Checking a tree -/

namespace KripkeLogic

open Outcome

namespace Node

variable {n : Node} {f : Formula} {e : StructureError}

/-! ## Rules for a node -/

/-- A node with a known tag, as many children as the tag wants and, at a variable, a name. -/
def Proper (n : Node) : Prop :=
  ∃ label children name, n = node (.known label) children name ∧
    children.length = label.arity ∧ (label = .prop → ∃ cs, name = .text cs ∧ isName cs = true)

theorem isOk_ofName_iff {name : Value} :
    (∃ f, Formula.ofName name = .ok f) ↔ ∃ cs, name = .text cs ∧ isName cs = true := by
  constructor
  · rintro ⟨f, h⟩
    obtain ⟨x, rfl, -⟩ := Formula.ofName_eq_ok_iff.1 h
    exact ⟨x.chars, rfl, x.legal⟩
  · rintro ⟨cs, rfl, h⟩
    exact ⟨.prop ⟨cs, h⟩, Formula.ofName_eq_ok_iff.2 ⟨⟨cs, h⟩, rfl, rfl⟩⟩

theorem fault?_eq_none_iff : n.fault? = none ↔ n.Proper := by
  unfold Proper
  cases n with
  | leaf v => simp [fault?]
  | node tag children name =>
    cases tag with
    | unknown v => simp [fault?]
    | known label =>
      by_cases hlength : children.length = label.arity
      · by_cases hprop : label = .prop
        · subst hprop
          have hname : (∃ f, Formula.ofName name = .ok f) ↔ _ := isOk_ofName_iff
          cases h : Formula.ofName name <;> simp_all [fault?]
        · simp [fault?, hlength, hprop]
      · simp [fault?, hlength]

/-! ## The first fault -/

theorem findSome?_preorder (n : Node) :
    n.preorder.findSome? fault? = match n.toFormula with | .ok _ => none | .error e => some e := by
  fun_induction toFormula n with
  | case1 v => rfl
  | case2 tag children name => rfl
  | case3 name =>
    simp only [preorder, preorderAll, List.findSome?_cons, List.findSome?_nil, fault?]
    cases Formula.ofName name <;> rfl
  | case4 name => rfl
  | case5 op a name ih =>
    simp only [preorder, preorderAll, List.append_nil, List.findSome?_cons, fault?]
    simp only [Label.arity, List.length_singleton, ne_eq, not_true_eq_false, if_false, reduceCtorEq]
    rw [ih]
    cases a.toFormula <;> rfl
  | case6 op a b name iha ihb =>
    simp only [preorder, preorderAll, List.append_nil, List.findSome?_cons, fault?]
    simp only [Label.arity, List.length_cons, List.length_nil, ne_eq, not_true_eq_false, if_false,
      reduceCtorEq, List.findSome?_append, iha, ihb]
    cases a.toFormula with
    | error e => rfl
    | ok f => cases b.toFormula <;> rfl
  | case7 label children name hprop hbot hunary hbinary =>
    -- Trees with the right number of children at the root were all read above.
    have hlength : children.length ≠ label.arity := by
      intro hlength
      cases label with
      | prop => exact hprop (List.length_eq_zero_iff.1 hlength) rfl
      | bot => exact hbot (List.length_eq_zero_iff.1 hlength) rfl
      | unary op =>
        obtain ⟨a, rfl⟩ := List.length_eq_one_iff.1 hlength
        exact hunary op a rfl rfl
      | binary op =>
        obtain ⟨a, b, rfl⟩ := List.length_eq_two.1 hlength
        exact hbinary op a b rfl rfl
    simp [preorder, fault?, hlength]

theorem toFormula_eq_error_iff : n.toFormula = .error e ↔ ∃ before x after,
    n.preorder = before ++ x :: after ∧ x.fault? = some e ∧ ∀ y ∈ before, y.fault? = none := by
  rw [← List.findSome?_eq_some_iff, findSome?_preorder]
  cases n.toFormula <;> simp

theorem isOk_toFormula_iff : (∃ f, n.toFormula = .ok f) ↔ ∀ x ∈ n.preorder, x.Proper := by
  simp only [← fault?_eq_none_iff, ← List.findSome?_eq_none_iff, findSome?_preorder]
  cases n.toFormula <;> simp

/-! ## Falsum -/

def HasFalsum (n : Node) : Prop := ∃ children name, node (.known .bot) children name ∈ n.preorder

theorem TreeOf.hasFalsum_iff (h : n.TreeOf f) : n.HasFalsum ↔ f.botFree = false := by
  unfold HasFalsum
  induction h with
  | prop x => simp [preorder, preorderAll, Formula.botFree]
  | bot name => simp [preorder, preorderAll, Formula.botFree]
  | unary op _ name ih =>
    simp only [preorder, preorderAll, List.append_nil, List.mem_cons, node.injEq, Tag.known.injEq,
      reduceCtorEq, false_and, false_or, ih, Formula.botFree]
  | binary op _ _ name iha ihb =>
    simp only [preorder, preorderAll, List.append_nil, List.mem_cons, List.mem_append, node.injEq,
      Tag.known.injEq, reduceCtorEq, false_and, false_or, exists_or, iha, ihb, Formula.botFree,
      Bool.and_eq_false_iff]

theorem TreeOf.toAscii_of_hasFalsum (h : n.TreeOf f) (hf : f.botFree = false)
    (limit : Option Nat) : ∃ text,
      (Argument.tree n).toAscii limit = .error (.malformed .falsumText text) := by
  refine ⟨"Falsum has no surface syntax", ?_⟩
  rw [Argument.toAscii, toFormula_eq_ok_iff.2 h, ok_bind, Formula.toAscii,
    Formula.write?_eq_none .ascii hf]
  rfl

theorem TreeOf.toValue_of_hasFalsum (h : n.TreeOf f) (hf : f.botFree = false)
    (limit : Option Nat) : (∃ text, n.toValue limit = .error (.tree (.malformed .falsumObject text))) ∨
      (n.toValue limit = .error (.tree (.broken .tooDeep)) ∧ ¬ Fits limit f.shownDepth) := by
  by_cases hfits : Fits limit (0 + f.shownDepth)
  · refine Or.inl ⟨"Falsum has no dict representation", ?_⟩
    rw [h.toValue_of_fits hfits, Formula.toValue?_eq_none_iff.2 hf]
    rfl
  · rcases h.toValue_of_deep hfits with hout | ⟨-, hout⟩
    · exact Or.inr ⟨hout, fun h => hfits (by rwa [Nat.zero_add])⟩
    · exact Or.inl ⟨_, hout⟩

/-! ## The checks -/

/-- What a caller may rely on who passes a tree that was built by hand. -/
structure Checks (n : Node) (limit : Option Nat) : Prop where
  walk : n.walk = n.preorder
  accepted : (∃ f, n.validate limit = .ok f) ↔ ∀ x ∈ n.walk, x.Proper
  refused : ∀ err, n.validate limit = .error err ↔ ∃ before x after e,
    n.walk = before ++ x :: after ∧ (∀ y ∈ before, y.Proper) ∧ x.fault? = some e ∧
      err = .tree (e.raise limit)
  /-- The fault is told, unless a long integer or too many levels would have to be shown. -/
  told : ∀ x ∈ n.walk, ∀ e, x.fault? = some e →
    (∃ text, e.message = .ok text ∧ e.raise limit = .malformed e text) ∨
      (e.raise limit = .broken .longInteger ∧
        ∃ v, e.shown? = some v ∧ Value.TooLong v.integers) ∨
      (e.raise limit = .broken .tooDeep ∧ ¬ Fits limit e.levels)
  written : ∀ f, n.validate limit = .ok f → ¬ n.HasFalsum →
    ∃ text, (Argument.tree n).toAscii limit = .ok text
  shown : ∀ f, n.validate limit = .ok f → ¬ n.HasFalsum → ∃ v, n.toValue limit =
    if Fits limit f.shownDepth then .ok v else .error (.tree (.broken .tooDeep))
  notWritten : ∀ f, n.validate limit = .ok f → n.HasFalsum →
    ∃ text, (Argument.tree n).toAscii limit = .error (.malformed .falsumText text)
  notShown : ∀ f, n.validate limit = .ok f → n.HasFalsum →
    (∃ text, n.toValue limit = .error (.tree (.malformed .falsumObject text))) ∨
      (n.toValue limit = .error (.tree (.broken .tooDeep)) ∧ ¬ Fits limit f.shownDepth)

/-- **A tree passes the checks if all its nodes are proper.** Otherwise the first node in order of
reading that is not is at fault. -/
theorem validation (tag : Tag) (children : List Node) (name : Value) (limit : Option Nat) :
    (node tag children name).Checks limit := by
  refine ⟨walk_eq _, ?_, fun err => ?_, fun _ _ e _ => e.raise_cases limit, fun f hf hnone => ?_,
    fun f hf hnone => ?_, fun f hf hfalsum => ?_, fun f hf hfalsum => ?_⟩
  · simp only [validate, mapError_eq_ok_iff, isOk_toFormula_iff, walk_eq]
  · simp only [validate, mapError_eq_error_iff, toFormula_eq_error_iff, fault?_eq_none_iff, walk_eq]
    constructor
    · rintro ⟨e, ⟨before, x, after, hsplit, he, hbefore⟩, rfl⟩
      exact ⟨before, x, after, e, hsplit, hbefore, he, rfl⟩
    · rintro ⟨before, x, after, e, hsplit, hbefore, he, rfl⟩
      exact ⟨e, ⟨before, x, after, hsplit, he, hbefore⟩, rfl⟩
  · have htree := validate_eq_ok_iff.1 hf
    rw [htree.hasFalsum_iff, Bool.not_eq_false] at hnone
    obtain ⟨text, htext⟩ := Formula.exists_write? .ascii hnone
    refine ⟨text, ?_⟩
    rw [Argument.toAscii, toFormula_eq_ok_iff.2 htree, ok_bind, Formula.toAscii, htext]
    rfl
  · have htree := validate_eq_ok_iff.1 hf
    rw [htree.hasFalsum_iff, Bool.not_eq_false] at hnone
    obtain ⟨v, hv⟩ := Formula.exists_toValue? hnone
    exact ⟨v, htree.toValue_within hv limit⟩
  · have htree := validate_eq_ok_iff.1 hf
    exact htree.toAscii_of_hasFalsum (htree.hasFalsum_iff.1 hfalsum) limit
  · have htree := validate_eq_ok_iff.1 hf
    exact htree.toValue_of_hasFalsum (htree.hasFalsum_iff.1 hfalsum) limit

/-- Both children are at fault, and the left one is told. -/
example : (node (.known (.binary .conj)) [node (.known (.unary .neg)) [] noName, leaf (.int 5)]
    noName).validate = .error (.tree (StructureError.wrongArity (.unary .neg) 0).raise) := rfl

theorem validate_long {n : Int} (h : Value.showInt n = .error .longInteger) :
    (node (.known .prop) [] (.int n)).validate = .error (.tree (.broken .longInteger)) := by
  have hbroken : (StructureError.badName (.int n)).raise = .broken .longInteger :=
    StructureError.raise_eq_broken_iff.2 <|
      StructureError.message_eq_error_iff.2 ⟨rfl, _, rfl, n, List.mem_singleton_self n, h⟩
  rw [← hbroken]
  rfl

/-- A name of 4301 digits is at fault, but no fault is told, and a tree of 1500 negations passes the
checks, but is not shown. -/
theorem validation_breaks_down :
    (node (.known .prop) [] (.int (Int.ofNat (Nat.pow 10 Value.digitLimit)))).validate =
        .error (.tree (.broken .longInteger)) ∧
      (ofFormula (.deep 1500)).validate (some 990) = .ok (.deep 1500) ∧
      ¬ (ofFormula (.deep 1500)).HasFalsum ∧
      (ofFormula (.deep 1500)).toValue (some 990) = .error (.tree (.broken .tooDeep)) := by
  have htree := treeOf_ofFormula (.deep 1500)
  refine ⟨validate_long Value.showInt_pow, validate_eq_ok_iff.2 htree, ?_, ?_⟩
  · rw [htree.hasFalsum_iff, Formula.botFree_deep]
    simp
  · obtain ⟨v, hv⟩ := Formula.exists_toValue? (Formula.botFree_deep 1500)
    rw [htree.toValue_within hv, if_neg]
    rw [Formula.shownDepth_deep, fits_some_iff]
    omega

end Node

end KripkeLogic
