import KripkeLogic.Node.View
import KripkeLogic.Proofs.Outcome
import KripkeLogic.Proofs.Value

/-! # Trees of formulas -/

namespace KripkeLogic

open Outcome

/-! ## What a fault leads to -/

namespace StructureError

variable {e : StructureError} {limit : Option Nat} {depth : Nat}

def shown? : StructureError → Option Value
  | unknownTag tag => some tag
  | badName name => some name
  | notSingleField v => some v
  | notOperandPair _ v => some v
  | _ => none

def levels (e : StructureError) : Nat := (e.shown?.map Value.levels).getD 0

theorem message_eq_error_iff {b : Breakdown} : e.message = .error b ↔
    b = .longInteger ∧ ∃ v, e.shown? = some v ∧ Value.TooLong v.integers := by
  cases e with
  | unknownTag v | badName v | notSingleField v | notOperandPair op v =>
    simp only [shown?, Option.some.injEq, exists_eq_left', ← v.display_eq_error_iff 0 b]
    exact bind_pure_eq_error_iff
  | _ => simp [message, shown?]

theorem limited_message (e : StructureError) (limit : Option Nat) (depth : Nat) :
    Limited limit (depth + e.levels) .tooDeep (e.message limit depth) e.message := by
  cases e with
  | unknownTag v | badName v | notSingleField v | notOperandPair op v =>
    exact (v.limited_display limit depth 0).bind fun _ => .refl _
  | _ => exact .refl _

theorem raise_eq_malformed_iff {e' : StructureError} {text : String} :
    e.raise limit depth = .malformed e' text ↔ e' = e ∧ e.message limit depth = .ok text := by
  unfold raise
  cases e.message limit depth <;> simp [eq_comm]

theorem raise_eq_broken_iff {b : Breakdown} :
    e.raise limit depth = .broken b ↔ e.message limit depth = .error b := by
  unfold raise
  cases e.message limit depth <;> simp

theorem limited_raise (e : StructureError) (limit : Option Nat) (depth : Nat) :
    e.raise limit depth = e.raise ∨
      (e.raise limit depth = .broken .tooDeep ∧ ¬ Fits limit (depth + e.levels)) := by
  rcases limited_message e limit depth with h | ⟨h, hdeep⟩
  · exact Or.inl (by rw [raise, h]; rfl)
  · exact Or.inr ⟨raise_eq_broken_iff.2 h, hdeep⟩

theorem raise_cases (e : StructureError) (limit : Option Nat) :
    (∃ text, e.message = .ok text ∧ e.raise limit = .malformed e text) ∨
      (e.raise limit = .broken .longInteger ∧
        ∃ v, e.shown? = some v ∧ Value.TooLong v.integers) ∨
      (e.raise limit = .broken .tooDeep ∧ ¬ Fits limit e.levels) := by
  rcases limited_raise e limit 0 with h | ⟨h, hdeep⟩
  · rw [h]
    cases hmessage : e.message with
    | ok text => exact Or.inl ⟨text, rfl, raise_eq_malformed_iff.2 ⟨rfl, hmessage⟩⟩
    | error b =>
      obtain ⟨rfl, hlong⟩ := message_eq_error_iff.1 hmessage
      exact Or.inr (Or.inl ⟨raise_eq_broken_iff.2 hmessage, hlong⟩)
  · exact Or.inr (Or.inr ⟨h, fun hfits => hdeep (by rwa [Nat.zero_add])⟩)

theorem raise_none (e : StructureError) (depth : Nat) : e.raise none depth = e.raise :=
  (limited_raise e none depth).resolve_right fun h => h.2 (fits_none _)

end StructureError

namespace Node

/-- The tree is the formula. All nodes but variables may carry any name. -/
inductive TreeOf : Node → Formula → Prop
  | prop (x : Name) : TreeOf (node (.known .prop) [] (.text x.chars)) (.prop x)
  | bot (name : Value) : TreeOf (node (.known .bot) [] name) .bot
  | unary (op : UnaryOp) {a : Node} {f : Formula} (ha : TreeOf a f) (name : Value) :
      TreeOf (node (.known (.unary op)) [a] name) (.unary op f)
  | binary (op : BinaryOp) {a b : Node} {f g : Formula} (ha : TreeOf a f) (hb : TreeOf b g)
      (name : Value) : TreeOf (node (.known (.binary op)) [a, b] name) (.binary op f g)

end Node

theorem Formula.ofName_eq_ok_iff {v : Value} {f : Formula} :
    ofName v = .ok f ↔ ∃ x : Name, v = .text x.chars ∧ f = prop x := by
  constructor
  · intro h
    unfold ofName at h
    split at h
    · split at h
      · rename_i x hx
        cases h
        exact ⟨x, by rw [Name.ofChars?_eq_some_iff.1 hx], rfl⟩
      · cases h
    · cases h
  · rintro ⟨x, rfl, rfl⟩
    rw [ofName, Name.ofChars?_chars]

namespace Node

theorem toFormula_eq_ok_iff {n : Node} {f : Formula} : n.toFormula = .ok f ↔ n.TreeOf f := by
  constructor
  · intro h
    fun_induction toFormula n generalizing f with
    | case1 v => cases h
    | case2 tag children name => cases h
    | case3 name =>
      obtain ⟨x, rfl, rfl⟩ := Formula.ofName_eq_ok_iff.1 h
      exact .prop x
    | case4 name =>
      cases h
      exact .bot name
    | case5 op a name ih =>
      obtain ⟨g, hg, h⟩ := bind_eq_ok_iff.1 h
      cases h
      exact .unary op (ih hg) name
    | case6 op a b name iha ihb =>
      obtain ⟨left, hleft, h⟩ := bind_eq_ok_iff.1 h
      obtain ⟨right, hright, h⟩ := bind_eq_ok_iff.1 h
      cases h
      exact .binary op (iha hleft) (ihb hright) name
    | case7 label children name => cases h
  · intro h
    induction h with
    | prop x => exact Formula.ofName_eq_ok_iff.2 ⟨x, rfl, rfl⟩
    | bot name => rfl
    | unary op _ name ih =>
      rw [toFormula, ih]
      rfl
    | binary op _ _ name iha ihb =>
      rw [toFormula, iha, ihb]
      rfl

theorem validate_eq_ok_iff {n : Node} {f : Formula} {limit : Option Nat} :
    n.validate limit = .ok f ↔ n.TreeOf f := by
  rw [← toFormula_eq_ok_iff]
  cases n with
  | leaf v => exact iff_of_false (by simp [validate]) (by simp [toFormula])
  | node tag children name => exact mapError_eq_ok_iff

theorem treeOf_ofFormula (f : Formula) : (ofFormula f).TreeOf f := by
  induction f with
  | prop x => exact .prop x
  | bot => exact .bot noName
  | unary op a ih => exact .unary op ih noName
  | binary op a b iha ihb => exact .binary op iha ihb noName

/-! ## The walk -/

theorem preorderAll_append (ns ms : List Node) :
    preorderAll (ns ++ ms) = preorderAll ns ++ preorderAll ms := by
  induction ns with
  | nil => rfl
  | cons n ns ih => rw [List.cons_append, preorderAll, preorderAll, ih, List.append_assoc]

theorem visit_eq (waiting : List Node) : visit waiting = preorderAll waiting := by
  fun_induction visit waiting with
  | case1 => rfl
  | case2 v waiting ih => rw [ih, preorderAll, preorder, List.singleton_append]
  | case3 tag children name waiting ih =>
    rw [ih, preorderAll_append, preorderAll, preorder, List.cons_append]

/-- **The walk is the order of reading.** -/
theorem walk_eq (n : Node) : n.walk = n.preorder := by
  rw [walk, visit_eq, preorderAll, preorderAll, List.append_nil]

end Node

/-! ## Names of the variables -/

namespace Node

theorem TreeOf.givenNames_append {n : Node} {f : Formula} (h : n.TreeOf f) (rest : List Node) :
    givenNames (n.preorder ++ rest) =
      (givenNames rest).map ((f.names.map fun x => .text x.chars) ++ ·) := by
  induction h generalizing rest with
  | prop x => rfl
  | bot name => exact (congrFun Except.map_id _).symm
  | unary op _ name ih =>
    rw [preorder, preorderAll, preorderAll, List.append_nil, List.cons_append, givenNames, ih]
    · rfl
    · simp
  | binary op _ _ name iha ihb =>
    rw [preorder, preorderAll, preorderAll, preorderAll, List.append_nil, List.cons_append,
      givenNames, List.append_assoc, iha, ihb]
    · cases givenNames rest with
      | error e => rfl
      | ok vs => simp [Except.map, Formula.names]
    · simp

theorem TreeOf.exists_names {n : Node} {f : Formula} (h : n.TreeOf f) :
    ∃ xs, n.names = .ok xs ∧ ∀ v, v ∈ xs ↔ ∃ x ∈ f.names, v = .text x.chars := by
  obtain ⟨xs, hxs, hmem⟩ := Value.sortDistinct?_texts (f.names.map Name.chars)
  have hgiven : givenNames n.walk = .ok ((f.names.map Name.chars).map .text) := by
    have happend := h.givenNames_append []
    rw [List.append_nil] at happend
    rw [walk_eq, happend, List.map_map]
    exact congrArg Except.ok (List.append_nil _)
  refine ⟨xs, ?_, fun v => ?_⟩
  · rw [names, hgiven, ok_bind]
    simp only [hxs]
    rfl
  · rw [hmem]
    simp

end Node

end KripkeLogic
