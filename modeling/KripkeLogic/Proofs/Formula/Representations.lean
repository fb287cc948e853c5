import KripkeLogic.Proofs.Formula.Placed
import KripkeLogic.Proofs.Node.Identity

/-!
# Representations of a formula

A tree that the operators build from variables, its written form, its object form and the formula
kept with its written forms all stand for one formula.
-/

namespace KripkeLogic

open Outcome

/-! ## Reading one object -/

namespace Formula

section Objects

variable {v left right : Value} {limit : Option Nat} {depth : Nat}

theorem ofValue_of_deep (h : ¬ Fits limit (depth + 1)) (v : Value) :
    ofValue v limit depth = .error (.broken .tooDeep) := by
  unfold ofValue
  exact if_neg h

theorem ofValue_prop (h : Fits limit (depth + 1)) :
    ofValue (.object [(Label.prop.key, v)]) limit depth =
      (ofName v).mapError (·.raise limit (depth + 1)) := by
  rw [ofValue, if_pos h, Label.ofKey?_eq_some_iff.2 rfl]

theorem ofValue_unary (h : Fits limit (depth + 1)) (op : UnaryOp) :
    ofValue (.object [(op.key, v)]) limit depth =
      ofValue v limit (depth + 1) >>= fun f => pure (unary op f) := by
  have hkey : Label.ofKey? op.key = some (.unary op) := Label.ofKey?_eq_some_iff.2 rfl
  rw [ofValue, if_pos h, hkey]

theorem ofValue_binary (h : Fits limit (depth + 1)) (op : BinaryOp) :
    ofValue (.object [(op.key, .list [left, right])]) limit depth =
      ofValue left limit (depth + 1) >>= fun f =>
        ofValue right limit (depth + 1) >>= fun g => pure (binary op f g) := by
  have hkey : Label.ofKey? op.key = some (.binary op) := Label.ofKey?_eq_some_iff.2 rfl
  rw [ofValue, if_pos h, hkey]

theorem ofValue_toValue? {f : Formula} (h : f.toValue? = some v) :
    ofValue v limit depth =
      if Fits limit (depth + f.height) then .ok f else .error (.broken .tooDeep) := by
  induction f generalizing v depth with
  | prop n =>
    cases h
    rw [height]
    split
    · next hfits =>
      rw [ofValue_prop hfits, ofName, Name.ofChars?_chars]
      rfl
    · next hdeep => exact ofValue_of_deep hdeep _
  | bot => cases h
  | unary op f ih =>
    obtain ⟨inner, hinner, rfl⟩ := Option.map_eq_some_iff.1 h
    have hdepth : depth + (unary op f).height = depth + 1 + f.height := by
      rw [height]
      omega
    rw [hdepth]
    by_cases hfits : Fits limit (depth + 1)
    · rw [ofValue_unary hfits, ih hinner]
      split <;> rfl
    · rw [ofValue_of_deep hfits, if_neg fun h => hfits (h.mono (Nat.le_add_right _ _))]
  | binary op f g ihf ihg =>
    obtain ⟨left, right, hleft, hright, rfl⟩ := toValue?_binary_eq_some h
    have hdepth : depth + (binary op f g).height =
        max (depth + 1 + f.height) (depth + 1 + g.height) := by
      rw [height]
      omega
    rw [hdepth]
    by_cases hfits : Fits limit (depth + 1)
    · rw [ofValue_binary hfits, ihf hleft, ihg hright, if_congr fits_max_iff rfl rfl]
      by_cases hl : Fits limit (depth + 1 + f.height) <;>
        by_cases hr : Fits limit (depth + 1 + g.height) <;>
        simp [hl, hr, bind, Except.bind, pure, Except.pure]
    · rw [ofValue_of_deep hfits, if_neg fun h => hfits (h.mono (by omega))]

end Objects

theorem ofValue_object {f : Formula} {v : Value} (h : f.toValue? = some v) (limit : Option Nat) :
    ofValue v limit = if Fits limit f.height then .ok f else .error (.broken .tooDeep) := by
  rw [ofValue_toValue? h, Nat.zero_add]

end Formula

/-! ## Trees of formulas -/

namespace Node

/-- A tree that the operators make of variables. -/
inductive Built : Node → Prop
  | prop {t : Node} (n : Name) (h : ofOperands? .prop [.leaf (.text n.chars)] = some t) : Built t
  | unary {a t : Node} (op : UnaryOp) (ha : Built a) (h : ofOperands? (.unary op) [a] = some t) :
      Built t
  | binary {a b t : Node} (op : BinaryOp) (ha : Built a) (hb : Built b)
      (h : ofOperands? (.binary op) [a, b] = some t) : Built t

theorem storable_ofFormula (f : Formula) : (ofFormula f).storable = true := by
  cases f <;> rfl

theorem ofOperands?_unary (op : UnaryOp) (f : Formula) :
    ofOperands? (.unary op) [ofFormula f] = some (ofFormula (.unary op f)) := by
  have hall : [ofFormula f].all storable = true := by
    rw [List.all_cons, storable_ofFormula]
    rfl
  simp only [ofOperands?, make?, hall]
  rfl

theorem ofOperands?_binary (op : BinaryOp) (f g : Formula) :
    ofOperands? (.binary op) [ofFormula f, ofFormula g] = some (ofFormula (.binary op f g)) := by
  have hall : [ofFormula f, ofFormula g].all storable = true := by
    rw [List.all_cons, List.all_cons, storable_ofFormula, storable_ofFormula]
    rfl
  simp only [ofOperands?, make?, hall]
  rfl

theorem built_iff {t : Node} : t.Built ↔ ∃ f : Formula, f.botFree = true ∧ t = ofFormula f := by
  constructor
  · intro h
    induction h with
    | prop n h =>
      refine ⟨.prop n, rfl, ?_⟩
      cases h
      rfl
    | unary op _ h ih =>
      obtain ⟨f, hf, rfl⟩ := ih
      rw [ofOperands?_unary] at h
      cases h
      exact ⟨.unary op f, hf, rfl⟩
    | binary op _ _ h iha ihb =>
      obtain ⟨f, hf, rfl⟩ := iha
      obtain ⟨g, hg, rfl⟩ := ihb
      rw [ofOperands?_binary] at h
      cases h
      exact ⟨.binary op f g, by rw [Formula.botFree, hf, hg]; rfl, rfl⟩
  · rintro ⟨f, hf, rfl⟩
    induction f with
    | prop n => exact .prop n rfl
    | bot => cases hf
    | unary op f ih => exact .unary op (ih hf) (ofOperands?_unary op f)
    | binary op f g ihf ihg =>
      rw [Formula.botFree, Bool.and_eq_true] at hf
      exact .binary op (ihf hf.1) (ihg hf.2) (ofOperands?_binary op f g)

theorem sameWithin_known {v : Value} (hv : v.same v = true) (limit : Option Nat) (depth : Nat)
    (label : Label) (cs ds : List Node) :
    (node (.known label) cs v).sameWithin limit depth (node (.known label) ds v) =
      if Fits limit (depth + 3) then sameAllWithin limit (depth + 3) cs ds
      else .error .tooDeep := by
  simp only [sameWithin, sameTag, hv, decide_true, Bool.and_true, if_true]

theorem sameWithin_ofFormula (f : Formula) (limit : Option Nat) (depth : Nat) :
    (ofFormula f).sameWithin limit depth (ofFormula f) =
      if Fits limit (depth + 3 * f.height) then .ok true else .error .tooDeep := by
  have hname : noName.same noName = true := rfl
  induction f generalizing depth with
  | prop n => exact sameWithin_known (Value.same_text.2 rfl) limit depth .prop [] []
  | bot => exact sameWithin_known hname limit depth .bot [] []
  | unary op f ih =>
    have hdepth : depth + 3 * (Formula.unary op f).height = depth + 3 + 3 * f.height := by
      rw [Formula.height]
      omega
    rw [ofFormula, sameWithin_known hname, hdepth, sameAllWithin, ih]
    by_cases hfits : Fits limit (depth + 3)
    · rw [if_pos hfits]
      split <;> rfl
    · rw [if_neg hfits, if_neg fun h => hfits (h.mono (Nat.le_add_right _ _))]
  | binary op f g ihf ihg =>
    have hdepth : depth + 3 * (Formula.binary op f g).height =
        max (depth + 3 + 3 * f.height) (depth + 3 + 3 * g.height) := by
      rw [Formula.height]
      omega
    rw [ofFormula, sameWithin_known hname, hdepth, sameAllWithin, sameAllWithin, ihf, ihg]
    by_cases hfits : Fits limit (depth + 3)
    · rw [if_pos hfits, if_congr fits_max_iff rfl rfl]
      by_cases hl : Fits limit (depth + 3 + 3 * f.height) <;>
        by_cases hr : Fits limit (depth + 3 + 3 * g.height) <;>
        simp [hl, hr, bind, Except.bind, sameAllWithin]
    · rw [if_neg hfits, if_neg fun h => hfits (h.mono (by omega))]

end Node

/-! ## All representations -/

/-- The tree, the text, the object form and the formula with its written forms stand for the
formula, and each of them leads to the others as far as calls may go into one another. -/
structure Representations (f : Formula) (t : Node) (text : List Char) (v : Value) (w : Wff)
    (limit : Option Nat) : Prop where
  tree : t = .ofFormula f
  object : t.toValue limit =
    if Fits limit f.shownDepth then .ok v else .error (.tree (.broken .tooDeep))
  read : Formula.ofValue v limit = if Fits limit f.height then .ok f else .error (.broken .tooDeep)
  ofTree : (Argument.tree t).toFormula limit = .ok f ∧ (Argument.tree t).toAscii limit = .ok text ∧
    (Argument.tree t).toWff limit = .ok w
  ofObject : Fits limit f.height → (Argument.value v).toFormula limit = .ok f ∧
    (Argument.value v).toAscii limit = .ok text ∧ (Argument.value v).toWff limit = .ok w
  ofDeepObject : ¬ Fits limit f.height →
    (Argument.value v).toFormula limit = .error (.tree (.broken .tooDeep)) ∧
      (Argument.value v).toAscii limit = .error (.broken .tooDeep) ∧
      (Argument.value v).toWff limit = .error (.tree (.broken .tooDeep))
  ofKept : (Argument.wff w).toFormula limit = .ok f
  parsed : ∀ k, Formula.parseWith k text = if Fits k f.nesting then .ok f else .error .tooDeep
  ofText : Formula.parse text ≠ .error .tooDeep →
    (Argument.value (.text text)).toFormula limit = .ok f ∧
      (Argument.value (.text text)).toWff limit = .ok w
  /-- An equal tree is found equal, on its own or kept with its written forms. -/
  equal : ∀ arg ∈ [Argument.tree t, .wff w], arg.sameWithin limit arg =
    if Fits limit (3 * f.height) then .ok true else .error .tooDeep

/-- **The representations of a formula are interchangeable** where the calls do not go too deep. -/
theorem interchangeable {t : Node} (h : t.Built) :
    ∃ f text v w, ∀ limit, Representations f t text v w limit := by
  obtain ⟨f, hf, rfl⟩ := Node.built_iff.1 h
  obtain ⟨text, htext⟩ := Formula.exists_write? .ascii hf
  obtain ⟨v, hv⟩ := Formula.exists_toValue? hf
  refine ⟨f, text, v, ⟨.ofFormula f, f, text, .own⟩, fun limit => ?_⟩
  have hascii : f.toAscii = .ok text := by rw [Formula.toAscii, htext]
  have hwff : Argument.wffOf (.ofFormula f) f = .ok ⟨.ofFormula f, f, text, .own⟩ := by
    rw [Argument.wffOf, hascii]
  have htree := Node.treeOf_ofFormula f
  have hformula := Node.toFormula_eq_ok_iff.2 htree
  have hread := Formula.ofValue_object hv limit
  obtain ⟨content, hfield⟩ := Formula.exists_field hv
  refine ⟨rfl, htree.toValue_within hv limit, hread, ?_, fun hfits => ?_, fun hdeep => ?_, rfl,
    Formula.parseWith_write? htext, fun hshallow => ?_, ?_⟩
  · simp [Argument.toFormula, Argument.toAscii, Argument.toWff, hformula, hascii, Except.mapError,
      hwff]
  · rw [if_pos hfits] at hread
    subst hfield
    simp [Argument.toFormula, Argument.toAscii, Argument.toWff, hread, hascii, Except.mapError, hwff]
  · rw [if_neg hdeep] at hread
    subst hfield
    simp only [Argument.toFormula, Argument.toAscii, Argument.toWff, hread, Except.mapError]
    exact ⟨trivial, rfl, rfl⟩
  · have hparse : Formula.parse text = .ok f := by
      rw [Formula.parse, Formula.parseWith_write? htext] at hshallow ⊢
      split at hshallow
      · next hfits => exact if_pos hfits
      · exact absurd rfl hshallow
    simp [Argument.toFormula, Argument.toWff, hparse, Except.mapError, hwff]
  · have hsame := Node.sameWithin_ofFormula f limit 0
    rw [Nat.zero_add] at hsame
    simp only [List.forall_mem_cons, Argument.sameWithin, hsame]
    simp

/-- The text is read too: it does not nest too deeply. -/
theorem interchangeable_impl_nec : ∃ (t : Node) (f : Formula) (text : List Char) (v : Value) (w : Wff),
    t.Built ∧ (∀ limit, Representations f t text v w limit) ∧
    text = ['(', 'p', ' ', '-', '>', ' ', '[', ']', 'p', ')'] ∧
    Formula.parse text ≠ .error .tooDeep ∧ (Argument.value (.text text)).toFormula = .ok f ∧
    (Argument.value (.text text)).toWff = .ok w ∧ Formula.ofValue v (some 990) = .ok f ∧
    (Argument.wff w).sameWithin (some 990) (.wff w) = .ok true := by
  have hp : Node.Built (.ofFormula (.prop (.ofChar 'p' rfl))) := .prop (.ofChar 'p' rfl) rfl
  have hbuilt : Node.Built (.ofFormula
      (.impl (.prop (.ofChar 'p' rfl)) (.nec (.prop (.ofChar 'p' rfl))))) :=
    .binary .impl hp (.unary .nec hp rfl) rfl
  obtain ⟨f, text, v, w, h⟩ := interchangeable hbuilt
  obtain ⟨hformula, hascii, -⟩ := (h none).ofTree
  obtain rfl : f = .impl (.prop (.ofChar 'p' rfl)) (.nec (.prop (.ofChar 'p' rfl))) :=
    Except.ok.inj (hformula.symm.trans rfl)
  obtain rfl : text = ['(', 'p', ' ', '-', '>', ' ', '[', ']', 'p', ')'] :=
    Except.ok.inj (hascii.symm.trans rfl)
  have hguard : Formula.parse ['(', 'p', ' ', '-', '>', ' ', '[', ']', 'p', ')'] ≠ .error .tooDeep :=
    fun hdeep => by cases hdeep
  obtain ⟨hread, hkept⟩ := (h none).ofText hguard
  have hback := (h (some 990)).read
  have hequal := (h (some 990)).equal (.wff w) (by simp)
  rw [if_pos (by decide)] at hback hequal
  exact ⟨_, _, _, v, w, hbuilt, h, rfl, hguard, hread, hkept, hback, hequal⟩

/-- A tree of 1500 negations is not shown as an object, nor found equal to its like, and its object
form is not read. -/
theorem deep_not_interchangeable : (Node.ofFormula (.deep 1500)).Built ∧
    (Node.ofFormula (.deep 1500)).toValue (some 990) = .error (.tree (.broken .tooDeep)) ∧
    (∃ v, (Node.ofFormula (.deep 1500)).toValue = .ok v ∧
      Formula.ofValue v (some 990) = .error (.broken .tooDeep)) ∧
    (Argument.tree (.ofFormula (.deep 1500))).sameWithin (some 990) (.tree (.ofFormula (.deep 1500))) =
      .error .tooDeep := by
  have hfree := Formula.botFree_deep 1500
  obtain ⟨v, hv⟩ := Formula.exists_toValue? hfree
  have htree := Node.treeOf_ofFormula (.deep 1500)
  have hheight : ¬ Fits (some 990) (Formula.deep 1500).height := by
    rw [Formula.height_deep, fits_some_iff]
    omega
  refine ⟨Node.built_iff.2 ⟨_, hfree, rfl⟩, ?_, ⟨v, htree.toValue_eq hv (fits_none _), ?_⟩, ?_⟩
  · rw [htree.toValue_within hv, if_neg]
    rw [Formula.shownDepth_deep, fits_some_iff]
    omega
  · rw [Formula.ofValue_object hv, if_neg hheight]
  · refine (Node.sameWithin_ofFormula _ _ 0).trans (if_neg fun hfits => hheight ?_)
    exact hfits.mono (by omega)

end KripkeLogic
