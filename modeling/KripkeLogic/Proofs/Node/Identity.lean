import KripkeLogic.Argument
import KripkeLogic.Proofs.Formula.Nesting
import KripkeLogic.Proofs.Formula.Placed
import KripkeLogic.Proofs.Node.Tree

/-!
# Equal trees and equal forms

The written form and the object form of a tree tell its formula, and no more.
-/

namespace KripkeLogic

open Outcome

/-! ## The written form -/

theorem Formula.write?_injective {f g : Formula} {text : List Char}
    (hf : f.write? .ascii = some text) (hg : g.write? .ascii = some text) : f = g := by
  have hread := parseWith_write? hf none
  rw [parseWith_write? hg, if_pos (fits_none _), if_pos (fits_none _)] at hread
  exact (Except.ok.inj hread).symm

/-! ## The object form -/

namespace Formula

variable {f g : Formula} {v w : Value}

/-- The calls inside one another that show the object form. -/
def shownDepth : Formula → Nat
  | prop _ => 1
  | bot => 1
  | unary _ a => a.shownDepth + 1
  | binary _ a b => max a.shownDepth b.shownDepth + 2

theorem shownDepth_deep (n : Nat) : (deep n).shownDepth = n + 1 := by
  induction n with
  | zero => rfl
  | succ n ih => exact congrArg (· + 1) ih

def label : Formula → Label
  | prop _ => .prop
  | bot => .bot
  | unary op _ => .unary op
  | binary op _ _ => .binary op

theorem isSome_toValue? (f : Formula) : f.toValue?.isSome = f.botFree := by
  induction f with
  | prop x => rfl
  | bot => rfl
  | unary op f ih => simp [toValue?, botFree, ih]
  | binary op f g ihf ihg =>
    simp only [toValue?, botFree, ← ihf, ← ihg]
    cases f.toValue? <;> cases g.toValue? <;> rfl

theorem exists_toValue? (hf : f.botFree = true) : ∃ v, f.toValue? = some v :=
  Option.isSome_iff_exists.1 (f.isSome_toValue?.trans hf)

theorem botFree_of_toValue? (h : f.toValue? = some v) : f.botFree = true := by
  rw [← isSome_toValue?, h]
  rfl

theorem toValue?_eq_none_iff : f.toValue? = none ↔ f.botFree = false := by
  rw [← isSome_toValue?, Option.isSome_eq_false_iff, Option.isNone_iff_eq_none]

theorem toValue?_binary_eq_some {op : BinaryOp} (h : (binary op f g).toValue? = some v) :
    ∃ left right, f.toValue? = some left ∧ g.toValue? = some right ∧
      v = .object [(op.key, .list [left, right])] := by
  simp only [toValue?, Option.bind_eq_bind, Option.bind_eq_some_iff, Option.pure_def,
    Option.some.injEq] at h
  obtain ⟨left, hleft, right, hright, rfl⟩ := h
  exact ⟨left, right, hleft, hright, rfl⟩

theorem exists_field (h : f.toValue? = some v) :
    ∃ content, v = .object [(f.label.key, content)] := by
  cases f with
  | prop x =>
    cases h
    exact ⟨_, rfl⟩
  | bot => cases h
  | unary op f =>
    obtain ⟨inner, -, rfl⟩ := Option.map_eq_some_iff.1 h
    exact ⟨_, rfl⟩
  | binary op f g =>
    obtain ⟨left, right, -, -, rfl⟩ := toValue?_binary_eq_some h
    exact ⟨_, rfl⟩

theorem label_eq_of_same (hf : f.toValue? = some v) (hg : g.toValue? = some w)
    (h : v.same w = true) : f.label = g.label := by
  obtain ⟨c, rfl⟩ := exists_field hf
  obtain ⟨d, rfl⟩ := exists_field hg
  exact Label.key_injective (Value.same_field.1 h).1

theorem eq_of_same_toValue (hf : f.toValue? = some v) (hg : g.toValue? = some w)
    (h : v.same w = true) : f = g := by
  induction f generalizing g v w with
  | prop x =>
    have hlabel := label_eq_of_same hf hg h
    cases g with
    | prop y =>
      cases hf
      cases hg
      rw [Name.ext (Value.text.inj (Value.same_text.1 (Value.same_field.1 h).2))]
    | _ => cases hlabel
  | bot => cases hf
  | unary op f ih =>
    have hlabel := label_eq_of_same hf hg h
    cases g with
    | unary op' g =>
      cases hlabel
      obtain ⟨v, hv, rfl⟩ := Option.map_eq_some_iff.1 hf
      obtain ⟨w, hw, rfl⟩ := Option.map_eq_some_iff.1 hg
      rw [ih hv hw (Value.same_field.1 h).2]
    | _ => cases hlabel
  | binary op f f' ih ih' =>
    have hlabel := label_eq_of_same hf hg h
    cases g with
    | binary op' g g' =>
      cases hlabel
      obtain ⟨v, v', hv, hv', rfl⟩ := toValue?_binary_eq_some hf
      obtain ⟨w, w', hw, hw', rfl⟩ := toValue?_binary_eq_some hg
      obtain ⟨hleft, hright⟩ := Value.same_pair.1 (Value.same_field.1 h).2
      rw [ih hv hw hleft, ih' hv' hw' hright]
    | _ => cases hlabel

theorem same_toValue_self (h : f.toValue? = some v) : v.same v = true := by
  induction f generalizing v with
  | prop x =>
    cases h
    exact Value.same_field.2 ⟨rfl, Value.same_text.2 rfl⟩
  | bot => cases h
  | unary op f ih =>
    obtain ⟨inner, hinner, rfl⟩ := Option.map_eq_some_iff.1 h
    exact Value.same_field.2 ⟨rfl, ih hinner⟩
  | binary op f g ihf ihg =>
    obtain ⟨left, right, hleft, hright, rfl⟩ := toValue?_binary_eq_some h
    exact Value.same_field.2 ⟨rfl, Value.same_pair.2 ⟨ihf hleft, ihg hright⟩⟩

theorem same_toValue_iff (hf : f.toValue? = some v) (hg : g.toValue? = some w) :
    v.same w = true ↔ f = g := by
  constructor
  · exact eq_of_same_toValue hf hg
  · rintro rfl
    cases hf.symm.trans hg
    exact same_toValue_self hf

end Formula

/-! ## Names that are passed over -/

namespace Node

def passedOver? : Node → Option Value
  | leaf _ => none
  | node (.known .prop) _ _ => none
  | node _ _ name => some name

def passedOver (n : Node) : List Value := n.walk.filterMap passedOver?

def SameNames : List Value → List Value → Prop := List.Forall₂ fun v w => v.same w = true

theorem sameNames_cons {v w : Value} {vs ws : List Value} :
    SameNames (v :: vs) (w :: ws) ↔ v.same w = true ∧ SameNames vs ws :=
  List.forall₂_cons

variable {n m : Node} {f g : Formula}

theorem passedOver_prop (v : Value) : (node (.known .prop) [] v).passedOver = [] := by
  rw [passedOver, walk_eq]
  rfl

theorem passedOver_bot (name : Value) : (node (.known .bot) [] name).passedOver = [name] := by
  rw [passedOver, walk_eq]
  rfl

theorem passedOver_unary (op : UnaryOp) (a : Node) (name : Value) :
    (node (.known (.unary op)) [a] name).passedOver = name :: a.passedOver := by
  simp only [passedOver, walk_eq, preorder, preorderAll, List.append_nil]
  rfl

theorem passedOver_binary (op : BinaryOp) (a b : Node) (name : Value) :
    (node (.known (.binary op)) [a, b] name).passedOver =
      name :: (a.passedOver ++ b.passedOver) := by
  simp only [passedOver, walk_eq, preorder, preorderAll, List.append_nil, ← List.filterMap_append]
  rfl

theorem same_known_iff {l k : Label} {cs ds : List Node} {v w : Value} :
    (node (.known l) cs v).same (node (.known k) ds w) = true ↔
      l = k ∧ v.same w = true ∧ sameAll cs ds = true := by
  simp [same, sameTag, and_assoc]

theorem sameAll_cons_iff {a b : Node} {cs ds : List Node} :
    sameAll (a :: cs) (b :: ds) = true ↔ a.same b = true ∧ sameAll cs ds = true := by
  simp [sameAll]

theorem TreeOf.eq_of_same (hn : n.TreeOf f) (hm : m.TreeOf g) (h : n.same m = true) : f = g := by
  induction hn generalizing m g with
  | prop x =>
    cases hm with
    | prop y =>
      rw [Name.ext (Value.text.inj (Value.same_text.1 (same_known_iff.1 h).2.1))]
    | _ => cases (same_known_iff.1 h).1
  | bot name =>
    cases hm with
    | bot name' => rfl
    | _ => cases (same_known_iff.1 h).1
  | unary op _ name ih =>
    cases hm with
    | unary op' hb name' =>
      obtain ⟨hop, -, hall⟩ := same_known_iff.1 h
      cases hop
      rw [ih hb (sameAll_cons_iff.1 hall).1]
    | _ => cases (same_known_iff.1 h).1
  | binary op _ _ name iha ihb =>
    cases hm with
    | binary op' ha' hb' name' =>
      obtain ⟨hop, -, hall⟩ := same_known_iff.1 h
      cases hop
      obtain ⟨hleft, hrest⟩ := sameAll_cons_iff.1 hall
      rw [iha ha' hleft, ihb hb' (sameAll_cons_iff.1 hrest).1]
    | _ => cases (same_known_iff.1 h).1

theorem TreeOf.sameNames_append_iff (hn : n.TreeOf f) (hm : m.TreeOf f) (vs ws : List Value) :
    SameNames (n.passedOver ++ vs) (m.passedOver ++ ws) ↔
      n.same m = true ∧ SameNames vs ws := by
  induction hn generalizing m vs ws with
  | prop x =>
    cases hm
    rw [passedOver_prop, List.nil_append, List.nil_append]
    exact (and_iff_right (same_known_iff.2 ⟨rfl, Value.same_text.2 rfl, rfl⟩)).symm
  | bot name =>
    cases hm with
    | bot name' =>
      rw [passedOver_bot, passedOver_bot, List.singleton_append, List.singleton_append,
        sameNames_cons, same_known_iff]
      simp [sameAll]
  | unary op _ name ih =>
    cases hm with
    | unary _ hb name' =>
      rw [passedOver_unary, passedOver_unary, List.cons_append, List.cons_append, sameNames_cons,
        ih hb, same_known_iff, sameAll_cons_iff]
      simp [sameAll, and_assoc]
  | binary op _ _ name iha ihb =>
    cases hm with
    | binary _ ha' hb' name' =>
      rw [passedOver_binary, passedOver_binary, List.cons_append, List.cons_append,
        List.append_assoc, List.append_assoc, sameNames_cons, iha ha', ihb hb', same_known_iff,
        sameAll_cons_iff, sameAll_cons_iff]
      simp [sameAll, and_assoc]

theorem TreeOf.same_iff (hn : n.TreeOf f) (hm : m.TreeOf g) :
    n.same m = true ↔ f = g ∧ SameNames n.passedOver m.passedOver := by
  constructor
  · intro h
    obtain rfl := hn.eq_of_same hm h
    have hnames := (hn.sameNames_append_iff hm [] []).2 ⟨h, .nil⟩
    rw [List.append_nil, List.append_nil] at hnames
    exact ⟨rfl, hnames⟩
  · rintro ⟨rfl, hnames⟩
    rw [← List.append_nil n.passedOver, ← List.append_nil m.passedOver] at hnames
    exact ((hn.sameNames_append_iff hm [] []).1 hnames).1

/-! ## All forms -/

theorem TreeOf.toValue_of_fits (h : n.TreeOf f) {limit : Option Nat} {depth : Nat}
    (hfits : Fits limit (depth + f.shownDepth)) : n.toValue limit depth =
      match f.toValue? with
      | some v => .ok v
      | none => .error (.tree StructureError.falsumObject.raise) := by
  induction h generalizing depth with
  | prop x => exact if_pos hfits
  | bot name => exact if_pos hfits
  | @unary op a f _ name ih =>
    have hdepth : depth + (Formula.unary op f).shownDepth = depth + 1 + f.shownDepth := by
      simp only [Formula.shownDepth]
      omega
    rw [hdepth] at hfits
    rw [toValue, if_pos (hfits.mono (Nat.le_add_right _ _)), ih hfits, Formula.toValue?]
    cases f.toValue? <;> rfl
  | @binary op a b f g _ _ name iha ihb =>
    have hdepth : depth + (Formula.binary op f g).shownDepth =
        max (depth + 2 + f.shownDepth) (depth + 2 + g.shownDepth) := by
      simp only [Formula.shownDepth]
      omega
    rw [hdepth, fits_max_iff] at hfits
    rw [toValue, if_pos (hfits.1.mono (by omega)), toValueAll, toValueAll, toValueAll,
      iha hfits.1, ihb hfits.2, Formula.toValue?]
    cases f.toValue? with
    | none => rfl
    | some v => cases g.toValue? <;> rfl

theorem TreeOf.toValue_eq (h : n.TreeOf f) {v : Value} (hv : f.toValue? = some v)
    {limit : Option Nat} {depth : Nat} (hfits : Fits limit (depth + f.shownDepth)) :
    n.toValue limit depth = .ok v := by
  rw [h.toValue_of_fits hfits, hv]

/-- What is too deep to be shown fails for that, or for falsum if the way leads there first. -/
theorem TreeOf.toValue_of_deep (h : n.TreeOf f) {limit : Option Nat} {depth : Nat}
    (hdeep : ¬ Fits limit (depth + f.shownDepth)) :
    n.toValue limit depth = .error (.tree (.broken .tooDeep)) ∨
      (f.botFree = false ∧
        n.toValue limit depth = .error (.tree StructureError.falsumObject.raise)) := by
  induction h generalizing depth with
  | prop x => exact Or.inl (if_neg hdeep)
  | bot name => exact Or.inl (if_neg hdeep)
  | @unary op a f _ name ih =>
    have hdepth : depth + (Formula.unary op f).shownDepth = depth + 1 + f.shownDepth := by
      simp only [Formula.shownDepth]
      omega
    rw [hdepth] at hdeep
    rw [toValue]
    split
    · rcases ih hdeep with hout | ⟨hbot, hout⟩
      · exact Or.inl (by rw [hout]; rfl)
      · exact Or.inr ⟨hbot, by rw [hout]; rfl⟩
    · exact Or.inl rfl
  | @binary op a b f g ha _ name iha ihb =>
    have hdepth : depth + (Formula.binary op f g).shownDepth =
        max (depth + 2 + f.shownDepth) (depth + 2 + g.shownDepth) := by
      simp only [Formula.shownDepth]
      omega
    rw [hdepth, fits_max_iff, not_and_or] at hdeep
    rw [toValue, toValueAll, toValueAll, toValueAll]
    split
    · by_cases hleft : Fits limit (depth + 2 + f.shownDepth)
      · rw [ha.toValue_of_fits hleft]
        cases hshown : f.toValue? with
        | none =>
          have hbot := Formula.toValue?_eq_none_iff.1 hshown
          exact Or.inr ⟨by rw [Formula.botFree, hbot]; rfl, rfl⟩
        | some v =>
          rcases ihb (hdeep.resolve_left (not_not_intro hleft)) with hout | ⟨hbot, hout⟩
          · exact Or.inl (by rw [hout]; rfl)
          · exact Or.inr ⟨by rw [Formula.botFree, hbot, Bool.and_false], by rw [hout]; rfl⟩
      · rcases iha hleft with hout | ⟨hbot, hout⟩
        · exact Or.inl (by rw [hout]; rfl)
        · exact Or.inr ⟨by rw [Formula.botFree, hbot]; rfl, by rw [hout]; rfl⟩
    · exact Or.inl rfl

theorem TreeOf.toValue_within (h : n.TreeOf f) {v : Value} (hv : f.toValue? = some v)
    (limit : Option Nat) : n.toValue limit =
      if Fits limit f.shownDepth then .ok v else .error (.tree (.broken .tooDeep)) := by
  rw [← Nat.zero_add f.shownDepth]
  split
  · next hfits => exact h.toValue_eq hv hfits
  · next hdeep =>
    refine (h.toValue_of_deep hdeep).resolve_right fun hbot => ?_
    rw [Formula.botFree_of_toValue? hv] at hbot
    cases hbot.1

/-- What is shown of a tree: its written form, alone and kept with the tree, and its object form. -/
structure Forms (n : Node) (w : Wff) (v : Value) : Prop where
  written : (Argument.tree n).toAscii = .ok w.ascii
  wrapped : (Argument.tree n).toWff = .ok w
  kept : w.tree = n
  object : n.toValue = .ok v

theorem TreeOf.exists_forms (h : n.TreeOf f) (hf : f.botFree = true) : ∃ w v, Forms n w v ∧
    f.write? .ascii = some w.ascii ∧ f.toValue? = some v := by
  obtain ⟨text, htext⟩ := Formula.exists_write? .ascii hf
  obtain ⟨v, hv⟩ := Formula.exists_toValue? hf
  have hascii : f.toAscii = .ok text := by rw [Formula.toAscii, htext]
  have hread : n.toFormula = .ok f := toFormula_eq_ok_iff.2 h
  refine ⟨⟨n, f, text, .own⟩, v, ⟨?_, ?_, rfl, h.toValue_eq hv (fits_none _)⟩, htext, hv⟩
  · rw [Argument.toAscii, hread, ok_bind, hascii]
    rfl
  · rw [Argument.toWff, hread]
    simp only [Except.mapError, ok_bind, Argument.wffOf, hascii]

/-- **Equal forms are equal formulas, and equal trees are equal forms with equal names at the
operators.** -/
theorem same_forms_iff (hn : n.validate = .ok f) (hm : m.validate = .ok g)
    (hf : f.botFree = true) (hg : g.botFree = true) : ∃ w v w' v', Forms n w v ∧ Forms m w' v' ∧
      (v.same v' = true ↔ w.ascii = w'.ascii) ∧
      (Argument.wff w).same (.wff w') = n.same m ∧
      (n.same m = true ↔ w.ascii = w'.ascii ∧ SameNames n.passedOver m.passedOver) := by
  have htree := validate_eq_ok_iff.1 hn
  have htree' := validate_eq_ok_iff.1 hm
  obtain ⟨w, v, hforms, hwritten, hobject⟩ := htree.exists_forms hf
  obtain ⟨w', v', hforms', hwritten', hobject'⟩ := htree'.exists_forms hg
  have hascii : f = g ↔ w.ascii = w'.ascii := by
    constructor
    · rintro rfl
      exact Option.some.inj (hwritten.symm.trans hwritten')
    · intro heq
      rw [heq] at hwritten
      exact Formula.write?_injective hwritten hwritten'
  refine ⟨w, v, w', v', hforms, hforms', ?_, ?_, ?_⟩
  · exact (Formula.same_toValue_iff hobject hobject').trans hascii
  · rw [Argument.same, hforms.kept, hforms'.kept]
  · rw [htree.same_iff htree', hascii]

def negation : Node := ofFormula (.neg (.prop (.ofChar 'p' rfl)))

def namedNegation : Node :=
  node (.known (.unary .neg)) [ofFormula (.prop (.ofChar 'p' rfl))] (.text ['x'])

theorem same_forms_negation : namedNegation.validate = .ok (.neg (.prop (.ofChar 'p' rfl))) ∧
    negation.validate = .ok (.neg (.prop (.ofChar 'p' rfl))) ∧
    ∃ w v w' v', Forms namedNegation w v ∧ Forms negation w' v' ∧
      (v.same v' = true ↔ w.ascii = w'.ascii) ∧
      (Argument.wff w).same (.wff w') = namedNegation.same negation ∧
      (namedNegation.same negation = true ↔
        w.ascii = w'.ascii ∧ SameNames namedNegation.passedOver negation.passedOver) :=
  ⟨rfl, rfl, same_forms_iff rfl rfl rfl rfl⟩

/-- No form shows the name, but the trees differ. -/
theorem namedNegation_differs :
    make? (.known (.unary .neg)) [ofFormula (.prop (.ofChar 'p' rfl))] (.text ['x']) =
      some namedNegation ∧
    namedNegation.validate = .ok (.neg (.prop (.ofChar 'p' rfl))) ∧
    negation.validate = .ok (.neg (.prop (.ofChar 'p' rfl))) ∧
    (Argument.tree namedNegation).toAscii = .ok ['~', 'p'] ∧
    (Argument.tree negation).toAscii = .ok ['~', 'p'] ∧
    namedNegation.toValue = negation.toValue ∧ namedNegation.same negation = false :=
  ⟨rfl, rfl, rfl, rfl, rfl, rfl, rfl⟩

end Node

end KripkeLogic
