import KripkeLogic.Proofs.Formula.Representations
import KripkeLogic.Proofs.Node.Identity

/-!
# Object forms are read exactly

A value is read as a formula exactly if it is the object form of the formula.
-/

namespace KripkeLogic

open Outcome

namespace Formula

/-- The first fault of a value: the key is looked at before what stands under it, and the left
operand before the right one. -/
inductive Fault : Value → StructureError → Prop
  | fields {v : Value} (h : ∀ key content, v ≠ .object [(key, content)]) :
      Fault v (.notSingleField v)
  | key {key : List Char} {v : Value} (h : ∀ l : Label, l ≠ .bot → key ≠ l.key) :
      Fault (.object [(key, v)]) (.unknownTag (.text key))
  | name {v : Value} (h : ∀ n : Name, v ≠ .text n.chars) :
      Fault (.object [(Label.prop.key, v)]) (.badName v)
  | operand (op : UnaryOp) {v : Value} {e : StructureError} (h : Fault v e) :
      Fault (.object [(op.key, v)]) e
  | pair (op : BinaryOp) {v : Value} (h : ∀ left right, v ≠ .list [left, right]) :
      Fault (.object [(op.key, v)]) (.notOperandPair op v)
  | left (op : BinaryOp) {left : Value} {e : StructureError} (h : Fault left e) (right : Value) :
      Fault (.object [(op.key, .list [left, right])]) e
  | right (op : BinaryOp) {f : Formula} {left right : Value} {e : StructureError}
      (hleft : f.toValue? = some left) (h : Fault right e) :
      Fault (.object [(op.key, .list [left, right])]) e

/-! ## What is refused -/

section Fields

variable {key : List Char} {v : Value} {limit : Option Nat} {depth : Nat}

theorem ofKey?_eq_bot_or_none_iff : (Label.ofKey? key = some .bot ∨ Label.ofKey? key = none) ↔
    ∀ l : Label, l ≠ .bot → key ≠ l.key := by
  constructor
  · rintro h l hl rfl
    rw [Label.ofKey?_eq_some_iff.2 rfl] at h
    simp [hl] at h
  · intro h
    cases hkey : Label.ofKey? key with
    | none => exact Or.inr rfl
    | some l =>
      by_cases hl : l = .bot
      · exact Or.inl (congrArg some hl)
      · exact absurd (Label.ofKey?_eq_some_iff.1 hkey) (h l hl)

theorem ofValue_unknown (h : ∀ l : Label, l ≠ .bot → key ≠ l.key) :
    ofValue (.object [(key, v)]) none depth =
      .error ((StructureError.unknownTag (.text key)).raise none (depth + 1)) := by
  rw [ofValue, if_pos (fits_none _)]
  rcases ofKey?_eq_bot_or_none_iff.2 h with hkey | hkey
  · rw [hkey]
  · rw [hkey]

theorem ofValue_not_pair (op : BinaryOp) (h : ∀ left right, v ≠ .list [left, right]) :
    ofValue (.object [(op.key, v)]) none depth =
      .error ((StructureError.notOperandPair op v).raise none (depth + 1)) := by
  have hkey : Label.ofKey? op.key = some (.binary op) := Label.ofKey?_eq_some_iff.2 rfl
  simp only [ofValue, if_pos (fits_none _), hkey]

theorem ofName_eq_error {e : StructureError} (h : ofName v = .error e) : e = .badName v := by
  unfold ofName at h
  split at h
  · split at h
    · cases h
    · cases h
      rfl
  · cases h
    rfl

theorem ofName_error (h : ∀ n : Name, v ≠ .text n.chars) : ofName v = .error (.badName v) := by
  cases hname : ofName v with
  | ok f =>
    obtain ⟨n, rfl, -⟩ := ofName_eq_ok_iff.1 hname
    exact absurd rfl (h n)
  | error e => rw [ofName_eq_error hname]

end Fields

/-! ## Values and faults -/

def Reading (v : Value) : Except TreeError Formula → Prop
  | .ok f => f.toValue? = some v
  | .error err => ∃ e, Fault v e ∧ err = e.raise

theorem reading_ofValue (v : Value) (depth : Nat) : Reading v (ofValue v none depth) := by
  fun_induction ofValue v none depth with
  | case1 depth _ key v hkey =>
    obtain rfl := Label.ofKey?_eq_some_iff.1 hkey
    cases h : ofName v with
    | ok f =>
      obtain ⟨n, rfl, rfl⟩ := ofName_eq_ok_iff.1 h
      rfl
    | error e =>
      obtain rfl := ofName_eq_error h
      refine ⟨_, .name fun n hn => ?_, StructureError.raise_none _ _⟩
      rw [hn, ofName_eq_ok_iff.2 ⟨n, rfl, rfl⟩] at h
      cases h
  | case2 depth _ key v op hkey ih =>
    obtain rfl : key = op.key := Label.ofKey?_eq_some_iff.1 hkey
    cases h : ofValue v none (depth + 1) with
    | ok f =>
      rw [h] at ih
      exact congrArg (Option.map _) ih
    | error err =>
      rw [h] at ih
      obtain ⟨e, he, rfl⟩ := ih
      exact ⟨e, .operand op he, rfl⟩
  | case3 depth _ key op hkey left right ihl ihr =>
    obtain rfl : key = op.key := Label.ofKey?_eq_some_iff.1 hkey
    cases hl : ofValue left none (depth + 1) with
    | error err =>
      rw [hl] at ihl
      obtain ⟨e, he, rfl⟩ := ihl
      exact ⟨e, .left op he right, rfl⟩
    | ok f =>
      rw [hl] at ihl
      cases hr : ofValue right none (depth + 1) with
      | error err =>
        rw [hr] at ihr
        obtain ⟨e, he, rfl⟩ := ihr
        exact ⟨e, .right op ihl he, rfl⟩
      | ok g =>
        rw [hr] at ihr
        have hleft : f.toValue? = some left := ihl
        have hright : g.toValue? = some right := ihr
        change (binary op f g).toValue? = _
        rw [toValue?, hleft, hright]
        rfl
  | case4 depth _ key v op hkey hpair =>
    obtain rfl : key = op.key := Label.ofKey?_eq_some_iff.1 hkey
    exact ⟨_, .pair op fun left right h => hpair left right h, StructureError.raise_none _ _⟩
  | case5 depth _ key v hkey =>
    exact ⟨_, .key (ofKey?_eq_bot_or_none_iff.1 (Or.inl hkey)), StructureError.raise_none _ _⟩
  | case6 depth _ key v hkey =>
    exact ⟨_, .key (ofKey?_eq_bot_or_none_iff.1 (Or.inr hkey)), StructureError.raise_none _ _⟩
  | case7 depth _ v hfields => exact ⟨_, .fields hfields, StructureError.raise_none _ _⟩
  | case8 v depth hdeep => exact absurd (fits_none _) hdeep

theorem Fault.ofValue_eq {v : Value} {e : StructureError} (h : Fault v e) (depth : Nat) :
    ofValue v none depth = .error e.raise := by
  induction h generalizing depth with
  | fields h =>
    rw [← StructureError.raise_none _ (depth + 1), ofValue, if_pos (fits_none _)]
    exact h
  | key h => rw [ofValue_unknown h, StructureError.raise_none]
  | name h =>
    rw [ofValue_prop (fits_none _), ofName_error h, ← StructureError.raise_none _ (depth + 1)]
    rfl
  | operand op _ ih =>
    rw [ofValue_unary (fits_none _), ih]
    rfl
  | pair op h => rw [ofValue_not_pair op h, StructureError.raise_none]
  | left op _ right ih =>
    rw [ofValue_binary (fits_none _), ih]
    rfl
  | right op hleft _ ih =>
    rw [ofValue_binary (fits_none _), ofValue_toValue? hleft, if_pos (fits_none _), ok_bind, ih]
    rfl

/-! ## Limits -/

theorem limited_error {e : StructureError} {v : Value} (hv : e.shown? = some v)
    (limit : Option Nat) {depth d : Nat} (hd : depth + v.levels ≤ d) :
    Limited limit d (.broken .tooDeep) (.error (e.raise limit depth))
      (.error e.raise : Except TreeError Formula) := by
  have hlevels : e.levels = v.levels := by rw [StructureError.levels, hv]; rfl
  rcases e.limited_raise limit depth with h | ⟨h, hdeep⟩
  · exact Or.inl (congrArg _ h)
  · exact Or.inr ⟨congrArg _ h, fun hfits => hdeep (hfits.mono (hlevels ▸ hd))⟩

theorem levels_field (key : List Char) (v : Value) :
    (Value.object [(key, v)]).levels = v.levels + 1 := by
  simp only [Value.levels, Value.levelsFields, Nat.max_zero]

theorem levels_pair (left right : Value) :
    (Value.list [left, right]).levels = max left.levels right.levels + 1 := by
  simp only [Value.levels, Value.levelsItems, Nat.max_zero]

/-- A limit changes nothing, unless it is lower than the levels of the value and one more. -/
theorem limited_ofValue (v : Value) (limit : Option Nat) (depth depth' : Nat) :
    Limited limit (depth + (v.levels + 1)) (.broken .tooDeep) (ofValue v limit depth)
      (ofValue v none depth') := by
  fun_induction ofValue v limit depth generalizing depth' with
  | case1 depth _ key v hkey =>
    obtain rfl := Label.ofKey?_eq_some_iff.1 hkey
    rw [ofValue_prop (fits_none _), levels_field]
    cases h : ofName v with
    | ok f => exact .refl _
    | error e =>
      obtain rfl := ofName_eq_error h
      have hlimited : Limited limit (depth + 1 + v.levels) (.broken .tooDeep)
          (.error ((StructureError.badName v).raise limit (depth + 1))) (.error _) :=
        limited_error rfl limit (Nat.le_refl _)
      rw [← StructureError.raise_none _ (depth' + 1)] at hlimited
      exact hlimited.mono (by omega)
  | case2 depth _ key v op hkey ih =>
    obtain rfl : key = op.key := Label.ofKey?_eq_some_iff.1 hkey
    rw [ofValue_unary (fits_none _), levels_field]
    exact ((ih (depth' + 1)).bind fun _ => .refl _).mono (by omega)
  | case3 depth _ key op hkey left right ihl ihr =>
    obtain rfl : key = op.key := Label.ofKey?_eq_some_iff.1 hkey
    rw [ofValue_binary (fits_none _), levels_field, levels_pair]
    exact ((ihl (depth' + 1)).mono (by omega)).bind fun _ =>
      ((ihr (depth' + 1)).mono (by omega)).bind fun _ => .refl _
  | case4 depth _ key v op hkey hpair =>
    obtain rfl : key = op.key := Label.ofKey?_eq_some_iff.1 hkey
    rw [(Fault.pair op fun left right h => hpair left right h).ofValue_eq, levels_field]
    exact limited_error rfl limit (by omega)
  | case5 depth _ key v hkey =>
    rw [(Fault.key (ofKey?_eq_bot_or_none_iff.1 (Or.inl hkey))).ofValue_eq, levels_field]
    exact limited_error rfl limit (by simp only [Value.levels]; omega)
  | case6 depth _ key v hkey =>
    rw [(Fault.key (ofKey?_eq_bot_or_none_iff.1 (Or.inr hkey))).ofValue_eq, levels_field]
    exact limited_error rfl limit (by simp only [Value.levels]; omega)
  | case7 depth _ v hfields =>
    rw [(Fault.fields hfields).ofValue_eq]
    exact limited_error rfl limit (by omega)
  | case8 v depth hdeep => exact Or.inr ⟨rfl, fun hfits => hdeep (hfits.mono (by omega))⟩

end Formula

/-! ## Trees -/

namespace Node

/-- The tree of the formula has the object form, and the operators build no other tree that has. -/
structure ShownAs (f : Formula) (v : Value) : Prop where
  built : (ofFormula f).Built
  valid : ∀ limit, (ofFormula f).validate limit = .ok f
  shown : ∀ limit, Fits limit f.shownDepth → (ofFormula f).toValue limit = .ok v
  only : ∀ t : Node, t.Built → t.toValue = .ok v → t = ofFormula f

variable {f : Formula} {v : Value}

theorem ofFormula_inj {f g : Formula} : ofFormula f = ofFormula g ↔ f = g := by
  refine ⟨fun h => ?_, congrArg ofFormula⟩
  have hread := toFormula_eq_ok_iff.2 (treeOf_ofFormula f)
  rw [h, toFormula_eq_ok_iff.2 (treeOf_ofFormula g)] at hread
  cases hread
  rfl

theorem Built.exists_toValue? {t : Node} (ht : t.Built) (hv : t.toValue = .ok v) :
    ∃ f : Formula, f.toValue? = some v ∧ t = ofFormula f := by
  obtain ⟨f, hf, rfl⟩ := built_iff.1 ht
  obtain ⟨w, hw⟩ := Formula.exists_toValue? hf
  rw [(treeOf_ofFormula f).toValue_eq hw (fits_none _)] at hv
  cases hv
  exact ⟨f, hw, rfl⟩

theorem shownAs_iff : ShownAs f v ↔ f.toValue? = some v := by
  constructor
  · intro h
    obtain ⟨g, hg, htree⟩ := h.built.exists_toValue? (h.shown none (fits_none _))
    rwa [ofFormula_inj.1 htree]
  · intro h
    have hfree := Formula.botFree_of_toValue? h
    refine ⟨built_iff.2 ⟨f, hfree, rfl⟩, fun limit => validate_eq_ok_iff.2 (treeOf_ofFormula f),
      fun limit hfits => (treeOf_ofFormula f).toValue_eq h (by rwa [Nat.zero_add]), fun t ht hv => ?_⟩
    obtain ⟨g, hg, rfl⟩ := ht.exists_toValue? hv
    have hread := Formula.ofValue_object h none
    rw [Formula.ofValue_object hg, if_pos (fits_none _), if_pos (fits_none _)] at hread
    rw [Except.ok.inj hread]

end Node

namespace Formula

theorem ofValue_eq_ok_iff {v : Value} {limit : Option Nat} {f : Formula} :
    ofValue v limit = .ok f ↔ Node.ShownAs f v ∧ Fits limit f.height := by
  rw [Node.shownAs_iff]
  constructor
  · intro h
    have hshown : f.toValue? = some v := by
      have hread := reading_ofValue v 0
      rcases limited_ofValue v limit 0 0 with heq | ⟨hdeep, -⟩
      · rwa [← heq, h] at hread
      · rw [h] at hdeep
        cases hdeep
    refine ⟨hshown, ?_⟩
    rw [ofValue_object hshown] at h
    split at h
    · next hfits => exact hfits
    · cases h
  · rintro ⟨hshown, hfits⟩
    rw [ofValue_object hshown, if_pos hfits]

theorem ofValue_eq_error_iff {v : Value} {err : TreeError} :
    ofValue v = .error err ↔ ∃ e, Fault v e ∧ err = e.raise := by
  constructor
  · intro h
    have hread := reading_ofValue v 0
    rwa [h] at hread
  · rintro ⟨e, he, rfl⟩
    exact he.ofValue_eq 0

/-- What reading a value as an object form comes to. -/
structure ReadExactly (v : Value) : Prop where
  /-- A value is read if a tree that the operators build has this object form, and then as the
  formula of the tree, if its levels stay within the limit. -/
  read : ∀ limit f, ofValue v limit = .ok f ↔ Node.ShownAs f v ∧ Fits limit f.height
  deep : ∀ limit f, Node.ShownAs f v → ¬ Fits limit f.height →
    ofValue v limit = .error (.broken .tooDeep)
  /-- All other values have a fault. -/
  other : (∀ t : Node, t.Built → t.toValue ≠ .ok v) ↔ ∃ e, Fault v e
  refused : ∀ e text, ofValue v = .error (.malformed e text) ↔ Fault v e ∧ e.message = .ok text
  /-- The fault cannot be told if a long integer would have to be shown. -/
  untold : ∀ b, ofValue v = .error (.broken b) ↔
    b = .longInteger ∧ ∃ e w, Fault v e ∧ e.shown? = some w ∧ Value.TooLong w.integers
  limited : ∀ limit, ofValue v limit = ofValue v ∨
    (ofValue v limit = .error (.broken .tooDeep) ∧ ¬ Fits limit (v.levels + 1))

/-- **Object forms are read exactly**, and any other value is refused for its first fault. -/
theorem ofValue_iff_shown (v : Value) : ReadExactly v := by
  refine ⟨fun limit f => ofValue_eq_ok_iff, fun limit f hshown hdeep => ?_, ?_, fun e text => ?_,
    fun b => ?_, fun limit => ?_⟩
  · rw [ofValue_object (Node.shownAs_iff.1 hshown), if_neg hdeep]
  · constructor
    · intro hnone
      cases h : ofValue v with
      | ok f =>
        have hshown := (ofValue_eq_ok_iff.1 h).1
        exact absurd (hshown.shown none (fits_none _)) (hnone _ hshown.built)
      | error err =>
        obtain ⟨e, he, -⟩ := ofValue_eq_error_iff.1 h
        exact ⟨e, he⟩
    · rintro ⟨e, he⟩ t ht hv
      obtain ⟨f, hf, -⟩ := ht.exists_toValue? hv
      have hread := ofValue_object hf none
      rw [he.ofValue_eq, if_pos (fits_none _)] at hread
      cases hread
  · rw [ofValue_eq_error_iff]
    constructor
    · rintro ⟨e', he, htext⟩
      obtain ⟨rfl, htext⟩ := StructureError.raise_eq_malformed_iff.1 htext.symm
      exact ⟨he, htext⟩
    · rintro ⟨he, htext⟩
      exact ⟨e, he, (StructureError.raise_eq_malformed_iff.2 ⟨rfl, htext⟩).symm⟩
  · rw [ofValue_eq_error_iff]
    simp only [eq_comm (a := TreeError.broken b), StructureError.raise_eq_broken_iff,
      StructureError.message_eq_error_iff]
    constructor
    · rintro ⟨e, he, hb, w, hw⟩
      exact ⟨hb, e, w, he, hw⟩
    · rintro ⟨hb, e, w, he, hw⟩
      exact ⟨e, he, hb, w, hw⟩
  · have h := limited_ofValue v limit 0 0
    rwa [Nat.zero_add] at h

theorem ofValue_long {n : Int} (h : Value.showInt n = .error .longInteger) :
    ofValue (.int n) = .error (.broken .longInteger) := by
  have hfault : Fault (.int n) (.notSingleField (.int n)) := .fields fun _ _ h => by cases h
  rw [hfault.ofValue_eq, Except.error.injEq, StructureError.raise_eq_broken_iff,
    StructureError.message_eq_error_iff]
  exact ⟨rfl, _, rfl, n, List.mem_singleton_self n, h⟩

/-- An integer of 4301 digits is no object form, but no fault is told, and the object form of 1500
negations is not read. -/
theorem ofValue_breaks_down :
    ofValue (.int (Int.ofNat (Nat.pow 10 Value.digitLimit))) = .error (.broken .longInteger) ∧
      ∃ v, Node.ShownAs (deep 1500) v ∧ ofValue v (some 990) = .error (.broken .tooDeep) := by
  refine ⟨ofValue_long Value.showInt_pow, ?_⟩
  obtain ⟨v, hv⟩ := exists_toValue? (botFree_deep 1500)
  refine ⟨v, Node.shownAs_iff.2 hv, ?_⟩
  rw [ofValue_object hv, if_neg]
  rw [height_deep, fits_some_iff]
  omega

end Formula

end KripkeLogic
