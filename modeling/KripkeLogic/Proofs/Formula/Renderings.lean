import KripkeLogic.Proofs.Formula.Representations

/-! # Written forms in other alphabets -/

namespace KripkeLogic

open Outcome

/-! ## Replacing the symbols -/

def Alphabet.firsts : List Char := ['~', '[', '<', '&', '|', '-']

theorem Piece.split_cons_char {α : Type} {c : Char} (h : c ∉ Alphabet.firsts) (p : α)
    (cs : List (Char × α)) : split ((c, p) :: cs) = (char c, p) :: split cs := by
  rw [split]
  all_goals
    intros
    subst_vars
    exact h (by simp [Alphabet.firsts])

namespace Alphabet

variable (a : Alphabet)

theorem not_mem_firsts_of_isNameChar {c : Char} (h : isNameChar c = true) : c ∉ firsts := by
  simp only [firsts, List.mem_cons, List.not_mem_nil, or_false]
  rintro (rfl | rfl | rfl | rfl | rfl | rfl) <;> cases h

theorem substitute_symbol (o : Operator) (rest : List Char) :
    a.substitute (ascii.symbol o ++ rest) = a.symbol o ++ a.substitute rest := by
  rcases o with op | op <;> cases op <;> rfl

theorem substitute_cons {c : Char} (h : c ∉ firsts) (rest : List Char) :
    a.substitute (c :: rest) = c :: a.substitute rest := by
  rw [substitute, List.map_cons, Piece.split_cons_char h]
  rfl

theorem substitute_names {cs : List Char} (hcs : ∀ c ∈ cs, isNameChar c = true)
    (rest : List Char) : a.substitute (cs ++ rest) = cs ++ a.substitute rest := by
  induction cs with
  | nil => rfl
  | cons c cs ih =>
    obtain ⟨hc, hcs⟩ := List.forall_mem_cons.1 hcs
    rw [List.cons_append, substitute_cons a (not_mem_firsts_of_isNameChar hc), ih hcs,
      List.cons_append]

theorem exists_write?_of_ascii {f : Formula} {ascii : List Char} (h : f.write? .ascii = some ascii) :
    ∃ text, f.write? a = some text ∧
      ∀ rest, a.substitute (ascii ++ rest) = text ++ a.substitute rest := by
  induction f generalizing ascii with
  | prop n =>
    cases h
    exact ⟨n.chars, rfl, substitute_names a fun c => Name.isNameChar_of_mem⟩
  | bot => cases h
  | unary op f ih =>
    obtain ⟨inner, hinner, rfl⟩ := Option.map_eq_some_iff.1 h
    obtain ⟨text, htext, hsubstitute⟩ := ih hinner
    refine ⟨a.unary op ++ text, by rw [Formula.write?, htext]; rfl, fun rest => ?_⟩
    have hop := substitute_symbol a (.unary op) (inner ++ rest)
    rw [List.append_assoc, List.append_assoc, ← hsubstitute]
    exact hop
  | binary op f g ihf ihg =>
    obtain ⟨left, right, hleft, hright, rfl⟩ := Formula.write?_binary_eq_some h
    obtain ⟨left', hleft', hl⟩ := ihf hleft
    obtain ⟨right', hright', hr⟩ := ihg hright
    have hopening : '(' ∉ firsts := by simp [firsts]
    have hclosing : ')' ∉ firsts := by simp [firsts]
    have hblank : ' ' ∉ firsts := by simp [firsts]
    have hop : ∀ rest, a.substitute (Alphabet.ascii.binary op ++ rest) =
        a.binary op ++ a.substitute rest := substitute_symbol a (.binary op)
    refine ⟨'(' :: (left' ++ ' ' :: (a.binary op ++ ' ' :: (right' ++ [')']))), ?_, fun rest => ?_⟩
    · rw [Formula.write?, hleft', hright']
      rfl
    · simp only [List.cons_append, List.append_assoc, List.nil_append, substitute_cons a hopening,
        substitute_cons a hclosing, substitute_cons a hblank, hl, hr, hop]

end Alphabet

/-! ## Reading back without a parser -/

def EndsName (rest : List Char) : Prop := ∀ c tail, rest = c :: tail → isNameChar c = false

theorem endsName_cons {c : Char} (h : isNameChar c = false) (rest : List Char) :
    EndsName (c :: rest) := by
  intro d tail heq
  cases heq
  exact h

theorem takeWhile_of_endsName {rest : List Char} (h : EndsName rest) :
    rest.takeWhile isNameChar = [] := by
  cases rest with
  | nil => rfl
  | cons c tail => exact List.takeWhile_cons_of_neg (by simp [h c tail rfl])

theorem Name.eq_of_append {n n' : Name} {rest rest' : List Char} (hrest : EndsName rest)
    (hrest' : EndsName rest') (h : n.chars ++ rest = n'.chars ++ rest') : n = n' ∧ rest = rest' := by
  have hname : ∀ (n : Name) {rest : List Char}, EndsName rest →
      (n.chars ++ rest).takeWhile isNameChar = n.chars := by
    intro n rest hrest
    rw [List.takeWhile_append_of_pos fun c => isNameChar_of_mem, takeWhile_of_endsName hrest,
      List.append_nil]
  have hn : n = n' := by
    apply Name.ext
    rw [← hname n hrest, h, hname n' hrest']
  subst hn
  exact ⟨rfl, List.append_cancel_left h⟩

namespace Alphabet

def PrefixFree {α : Type} (symbol : α → List Char) : Prop :=
  ∀ x y rest rest', symbol x ++ rest = symbol y ++ rest' → x = y

/-- What stands in a written form tells where each part of it ends. -/
structure Legible (a : Alphabet) : Prop where
  unary : PrefixFree a.unary
  binary : PrefixFree a.binary
  /-- A prefix operator looks neither like a name nor like a parenthesis. -/
  starts : ∀ op, ∃ c tail, a.unary op = c :: tail ∧ isNameChar c = false ∧ c ≠ '('

theorem legible_latex : Legible latex where
  unary op op' rest rest' h := by cases op <;> cases op' <;> simp_all [latex, command]
  binary op op' rest rest' h := by cases op <;> cases op' <;> simp_all [latex, command]
  starts op := by cases op <;> exact ⟨_, _, rfl, rfl, by decide⟩

theorem legible_unicode : Legible unicode where
  unary op op' rest rest' h := by cases op <;> cases op' <;> simp_all [unicode]
  binary op op' rest rest' h := by cases op <;> cases op' <;> simp_all [unicode]
  starts op := by cases op <;> exact ⟨_, _, rfl, by decide, by decide⟩

def Head : Formula → Char → Prop
  | .prop _, c => isNameChar c = true
  | .bot, _ => False
  | .unary _ _, c => isNameChar c = false ∧ c ≠ '('
  | .binary _ _ _, c => c = '('

variable {a : Alphabet} {f g : Formula} {s t rest rest' : List Char}

theorem Legible.exists_head (h : a.Legible) (hf : f.write? a = some s) :
    ∃ c tail, s = c :: tail ∧ Head f c := by
  cases f with
  | prop n =>
    cases hf
    obtain ⟨c, tail, hn⟩ := List.exists_cons_of_ne_nil n.ne_nil
    exact ⟨c, tail, hn, Name.isNameChar_of_mem (n := n) (by simp [hn])⟩
  | bot => cases hf
  | unary op f =>
    obtain ⟨inner, -, rfl⟩ := Option.map_eq_some_iff.1 hf
    obtain ⟨c, tail, hop, hc⟩ := h.starts op
    exact ⟨c, tail ++ inner, by rw [hop, List.cons_append], hc⟩
  | binary op f g =>
    obtain ⟨left, right, -, -, rfl⟩ := Formula.write?_binary_eq_some hf
    exact ⟨'(', _, rfl, rfl⟩

theorem Legible.exists_common_head (h : a.Legible) (hf : f.write? a = some s)
    (hg : g.write? a = some t) (heq : s ++ rest = t ++ rest') : ∃ c, Head f c ∧ Head g c := by
  obtain ⟨c, tail, rfl, hc⟩ := h.exists_head hf
  obtain ⟨d, tail', rfl, hd⟩ := h.exists_head hg
  obtain ⟨rfl, -⟩ := List.cons.inj heq
  exact ⟨c, hc, hd⟩

/-- Where two written forms start alike, the formulas are the same and the texts end alike. -/
theorem Legible.eq_of_write?_append (h : a.Legible) (hf : f.write? a = some s)
    (hg : g.write? a = some t) (hrest : EndsName rest) (hrest' : EndsName rest')
    (heq : s ++ rest = t ++ rest') : f = g ∧ rest = rest' := by
  induction f generalizing g s t rest rest' with
  | prop n =>
    obtain ⟨c, hc, hd⟩ := h.exists_common_head hf hg heq
    cases g with
    | prop n' =>
      cases hf
      cases hg
      obtain ⟨rfl, hend⟩ := Name.eq_of_append hrest hrest' heq
      exact ⟨rfl, hend⟩
    | bot => cases hg
    | unary op' g => exact absurd (hc.symm.trans hd.1) (by decide)
    | binary op' g₁ g₂ =>
      cases hd
      cases hc
  | bot => cases hf
  | unary op f ih =>
    obtain ⟨c, hc, hd⟩ := h.exists_common_head hf hg heq
    cases g with
    | prop n' => exact absurd (hd.symm.trans hc.1) (by decide)
    | bot => cases hg
    | unary op' g =>
      obtain ⟨inner, hinner, rfl⟩ := Option.map_eq_some_iff.1 hf
      obtain ⟨inner', hinner', rfl⟩ := Option.map_eq_some_iff.1 hg
      rw [List.append_assoc, List.append_assoc] at heq
      obtain rfl := h.unary _ _ _ _ heq
      obtain ⟨rfl, hend⟩ := ih hinner hinner' hrest hrest' (List.append_cancel_left heq)
      exact ⟨rfl, hend⟩
    | binary op' g₁ g₂ => exact absurd hd hc.2
  | binary op f₁ f₂ ih₁ ih₂ =>
    obtain ⟨c, hc, hd⟩ := h.exists_common_head hf hg heq
    cases g with
    | prop n' =>
      cases hc
      cases hd
    | bot => cases hg
    | unary op' g => exact absurd hc hd.2
    | binary op' g₁ g₂ =>
      obtain ⟨left, right, hleft, hright, rfl⟩ := Formula.write?_binary_eq_some hf
      obtain ⟨left', right', hleft', hright', rfl⟩ := Formula.write?_binary_eq_some hg
      simp only [List.cons_append, List.append_assoc, List.nil_append] at heq
      -- A blank ends the left operand, and the parenthesis ends the right one.
      obtain ⟨rfl, hop⟩ := ih₁ hleft hleft' (endsName_cons (by decide) _)
        (endsName_cons (by decide) _) (List.cons.inj heq).2
      have hop := (List.cons.inj hop).2
      obtain rfl := h.binary _ _ _ _ hop
      obtain ⟨rfl, hclosing⟩ := ih₂ hright hright' (endsName_cons (by decide) _)
        (endsName_cons (by decide) _) (List.cons.inj (List.append_cancel_left hop)).2
      exact ⟨rfl, (List.cons.inj hclosing).2⟩

theorem Legible.write?_inj (h : a.Legible) (hf : f.write? a = some s) (hg : g.write? a = some s) :
    f = g :=
  have hnil : EndsName [] := fun c tail heq => by cases heq
  (h.eq_of_write?_append hf hg hnil hnil rfl).1

end Alphabet

/-! ## Trees that are built -/

namespace Node

/-- The printed form of a tree is the one that the alphabet writes for its formula. -/
structure RenderedIn (a : Alphabet) (t : Node) (f : Formula) (ascii text : List Char) : Prop where
  tree : t = ofFormula f
  plain : (Argument.tree t).toAscii = .ok ascii
  plain_written : f.write? .ascii = some ascii
  printed : (Argument.tree t).write a = .ok text
  written : f.write? a = some text

theorem Built.exists_renderedIn (a : Alphabet) {t : Node} (h : t.Built) :
    ∃ f ascii text, RenderedIn a t f ascii text := by
  obtain ⟨f, hf, rfl⟩ := built_iff.1 h
  obtain ⟨ascii, hascii⟩ := Formula.exists_write? .ascii hf
  obtain ⟨text, htext, hsubstitute⟩ := a.exists_write?_of_ascii hascii
  have hplain : (Argument.tree (ofFormula f)).toAscii = .ok ascii := by
    rw [Argument.toAscii, toFormula_eq_ok_iff.2 (treeOf_ofFormula f), ok_bind, Formula.toAscii, hascii]
    rfl
  refine ⟨f, ascii, text, rfl, hplain, hascii, ?_, htext⟩
  rw [Argument.write, hplain]
  have hwhole := hsubstitute []
  rw [List.append_nil] at hwhole
  rw [Except.map, hwhole, show a.substitute [] = [] from rfl, List.append_nil]

/-- **Replacing the symbols gives the written form of the other alphabet**, and in LaTeX as in Unicode
no two formulas are written alike. -/
theorem renderings {a : Alphabet} (ha : a = .latex ∨ a = .unicode) :
    (∀ t : Node, t.Built → ∃ f ascii text, RenderedIn a t f ascii text) ∧
      ∀ t u : Node, t.Built → u.Built → (Argument.tree t).write a = (Argument.tree u).write a →
        t = u := by
  have hlegible : a.Legible := by
    rcases ha with rfl | rfl
    · exact Alphabet.legible_latex
    · exact Alphabet.legible_unicode
  refine ⟨fun t ht => ht.exists_renderedIn a, fun t u ht hu hwrite => ?_⟩
  obtain ⟨f, ascii, text, hf⟩ := ht.exists_renderedIn a
  obtain ⟨g, ascii', text', hg⟩ := hu.exists_renderedIn a
  rw [hf.printed, hg.printed] at hwrite
  obtain rfl := Except.ok.inj hwrite
  rw [hf.tree, hg.tree, hlegible.write?_inj hf.written hg.written]

/-- A variable may be named like a command. -/
theorem renderings_named_like_command :
    (ofFormula (.neg (.prop ⟨['l', 'n', 'o', 't'], rfl⟩))).Built ∧
      (ofFormula (.neg (.neg (.prop (.ofChar 'p' rfl))))).Built ∧
      (∃ f ascii text,
        RenderedIn .latex (ofFormula (.neg (.prop ⟨['l', 'n', 'o', 't'], rfl⟩))) f ascii text) ∧
      (Argument.tree (ofFormula (.neg (.prop ⟨['l', 'n', 'o', 't'], rfl⟩)))).write .latex ≠
        (Argument.tree (ofFormula (.neg (.neg (.prop (.ofChar 'p' rfl)))))).write .latex := by
  have ht : (ofFormula (.neg (.prop ⟨['l', 'n', 'o', 't'], rfl⟩))).Built :=
    built_iff.2 ⟨_, rfl, rfl⟩
  have hu : (ofFormula (.neg (.neg (.prop (.ofChar 'p' rfl))))).Built := built_iff.2 ⟨_, rfl, rfl⟩
  obtain ⟨hrendered, hinjective⟩ := renderings (a := .latex) (Or.inl rfl)
  refine ⟨ht, hu, hrendered _ ht, fun heq => ?_⟩
  have htrees := hinjective _ _ ht hu heq
  cases htrees

end Node

end KripkeLogic
