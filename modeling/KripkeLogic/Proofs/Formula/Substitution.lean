import KripkeLogic.Proofs.Formula.Lexemes

/-!
# Replacing a variable in a text

Where every token that is one name is replaced by a text in parentheses, the formula is the one in
which the variable is replaced by the formula of that text.
-/

namespace KripkeLogic

open Grammar Outcome

/-! ## Derivations -/

def Symbol.subst (x : Name) (new : List Symbol) (s : Symbol) : List Symbol :=
  if s = .name x then new else [s]

theorem Apart.flatMap_subst {n : Name} {symbols : List Symbol} (h : Apart (.name n) symbols)
    (x m : Name) (new : List Symbol) : Apart (.name m) (symbols.flatMap (Symbol.subst x new)) := by
  cases symbols with
  | nil => trivial
  | cons s symbols => cases s <;> first | exact h.elim | trivial

namespace Grammar.Tree

def subst (x : Name) (new : Tree .operand) {level : Level} : Tree level → Tree level
  | name n => if n = x then new else name n
  | prefixed op t => prefixed op (subst x new t)
  | paren t => paren (subst x new t)
  | single t => single (subst x new t)
  | binary left right => binary (subst x new left) (subst x new right)

variable {x : Name} {new : Tree .operand}

theorem yield_subst {level : Level} (t : Tree level) :
    (subst x new t).yield = t.yield.flatMap (Symbol.subst x new.yield) := by
  induction t with
  | name n => by_cases hn : n = x <;> simp [subst, yield, Symbol.subst, hn]
  | prefixed op t ih => simp [subst, yield, Symbol.subst, ih]
  | paren t ih => simp [subst, yield, Symbol.subst, ih]
  | single t ih => exact ih
  | binary left right ihl ihr => simp [subst, yield, Symbol.subst, ihl, ihr]

theorem formula_subst {level : Level} (t : Tree level) : (subst x new t).formula =
    t.formula.subst fun n => if n = x then new.formula else .prop n := by
  induction t with
  | name n => by_cases hn : n = x <;> simp [subst, formula, Formula.subst, hn]
  | prefixed op t ih => simp [subst, formula, Formula.subst, ih]
  | paren t ih => exact ih
  | single t ih => exact ih
  | binary left right ihl ihr => simp [subst, formula, Formula.subst, ihl, ihr]

end Grammar.Tree

/-! ## Parts of a derivation -/

/-- The derivation has a part with the symbols before it and the symbols after it. -/
inductive Grammar.Tree.Occurs {a : Level} (s : Tree a) :
    {b : Level} → List Symbol → List Symbol → Tree b → Prop
  | whole : s.Occurs [] [] s
  | prefixed {op : UnaryOp} {t : Tree .operand} {before after : List Symbol}
      (h : s.Occurs before after t) : s.Occurs (.op (.unary op) :: before) after (.prefixed op t)
  | paren {t : Tree (.chain .equi)} {before after : List Symbol} (h : s.Occurs before after t) :
      s.Occurs (.opening :: before) (after ++ [.closing]) (.paren t)
  | single {op : BinaryOp} {t : Tree (tighter op)} {before after : List Symbol}
      (h : s.Occurs before after t) : s.Occurs before after (.single t : Tree (.chain op))
  | left {op : BinaryOp} {left : Tree (tighter op)} {right : Tree (.chain op)}
      {before after : List Symbol} (h : s.Occurs before after left) :
      s.Occurs before (after ++ .op (.binary op) :: right.yield) (.binary left right)
  | right {op : BinaryOp} {left : Tree (tighter op)} {right : Tree (.chain op)}
      {before after : List Symbol} (h : s.Occurs before after right) :
      s.Occurs (left.yield ++ .op (.binary op) :: before) after (.binary left right)

namespace Grammar.Tree

/-- **A part can be exchanged for one of the same formula.** -/
theorem Occurs.exists_exchange {a b : Level} {s s' : Tree a} {t : Tree b}
    {before after : List Symbol} (h : s.Occurs before after t) (hs : s'.formula = s.formula) :
    ∃ t' : Tree b, t'.yield = before ++ (s'.yield ++ after) ∧ t'.formula = t.formula := by
  induction h with
  | whole => exact ⟨s', by simp, hs⟩
  | @prefixed op t before after h ih =>
    obtain ⟨t', hyield, hformula⟩ := ih
    exact ⟨.prefixed op t', by simp [yield, hyield], by simp [formula, hformula]⟩
  | paren h ih =>
    obtain ⟨t', hyield, hformula⟩ := ih
    exact ⟨.paren t', by simp [yield, hyield], by simp [formula, hformula]⟩
  | single h ih =>
    obtain ⟨t', hyield, hformula⟩ := ih
    exact ⟨.single t', hyield, hformula⟩
  | @left op left right before after h ih =>
    obtain ⟨left', hyield, hformula⟩ := ih
    exact ⟨.binary left' right, by simp [yield, hyield], by simp [formula, hformula]⟩
  | @right op left right before after h ih =>
    obtain ⟨right', hyield, hformula⟩ := ih
    exact ⟨.binary left right', by simp [yield, hyield], by simp [formula, hformula]⟩

theorem exists_paren {level : Level} (s : Tree level) : ∃ s' : Tree level,
    s'.yield = .opening :: (s.yield ++ [.closing]) ∧ s'.formula = s.formula := by
  obtain ⟨inner, hinner, hinnerf, -⟩ := exists_loose (power_equi_le level) s
  obtain ⟨s', hs, hsf, -⟩ := exists_loose (power_le_operand level) (paren inner)
  refine ⟨s', ?_, ?_⟩
  · rw [hs, yield, hinner]
  · rw [hsf, formula, hinnerf]

end Grammar.Tree

/-! ## Texts -/

/-- The token is the name, and the position is that of one of its characters. -/
def Token.isNameAt (x : Name) (p : Nat) (token : Token) : Bool :=
  token.symbol = .name x && token.position ≤ p && p < token.position + x.chars.length

/-- What stands for a character: the new text for the first character of a token that is the name, and
nothing for the others of it. -/
def replacement (x : Name) (new : List Char) (ts : List Token) (c : Char × Nat) : List Char :=
  match ts.find? (Token.isNameAt x c.2) with
  | some token => if token.position = c.2 then new else []
  | none => [c.1]

/-- The text with a new one in place of every token that is the name. -/
def replaceName (x : Name) (new text : List Char) : List Char :=
  match Token.scan text with
  | .ok ts => text.zipIdx.flatMap (replacement x new ts)
  | .error _ => text

def parens (text : List Char) : List Char := '(' :: (text ++ [')'])

section Replacement

variable {x : Name} {new chars : List Char} {s : Symbol} {ts : List Token} {p i : Nat} {c : Char}

theorem replacement_of_none (h : ∀ token ∈ ts, ¬ Token.isNameAt x i token = true) :
    replacement x new ts (c, i) = [c] := by
  have hnone : ts.find? (Token.isNameAt x i) = none := List.find?_eq_none.2 h
  rw [replacement, hnone]

theorem not_isNameAt_of_lt {token : Token} (h : i < token.position) :
    ¬ Token.isNameAt x i token = true := by
  simp only [Token.isNameAt, Bool.and_eq_true, decide_eq_true_eq]
  omega

theorem not_isNameAt_of_le (hs : Lexeme chars s) (hi : p + chars.length ≤ i) :
    ¬ Token.isNameAt x i ⟨s, p⟩ = true := by
  simp only [Token.isNameAt, Bool.and_eq_true, decide_eq_true_eq]
  rintro ⟨⟨rfl, -⟩, hlt⟩
  cases hs
  omega

theorem replacement_cons (h : ¬ Token.isNameAt x i ⟨s, p⟩ = true) :
    replacement x new (⟨s, p⟩ :: ts) (c, i) = replacement x new ts (c, i) := by
  rw [replacement, replacement, List.find?_cons_of_neg h]

theorem replacement_finish (stop : Nat) :
    replacement x new (ts ++ [⟨.finish, stop⟩]) = replacement x new ts := by
  funext c
  have hfinish : [(⟨.finish, stop⟩ : Token)].find? (Token.isNameAt x c.2) = none := rfl
  rw [replacement, replacement, List.find?_append, hfinish, Option.or_none]

theorem flatMap_replacement_name :
    (x.chars.zipIdx p).flatMap (replacement x new (⟨.name x, p⟩ :: ts)) = new := by
  have hat : ∀ i, p ≤ i → i < p + x.chars.length →
      (⟨.name x, p⟩ :: ts).find? (Token.isNameAt x i) = some ⟨.name x, p⟩ := by
    intro i hp hi
    exact List.find?_cons_of_pos (by simp [Token.isNameAt, hp, hi])
  obtain ⟨c, tail, hx⟩ := List.exists_cons_of_ne_nil x.ne_nil
  rw [hx, List.length_cons] at hat
  have hfirst : replacement x new (⟨.name x, p⟩ :: ts) (c, p) = new := by
    rw [replacement, hat p (Nat.le_refl _) (by omega)]
    exact if_pos rfl
  have hothers : (tail.zipIdx (p + 1)).flatMap (replacement x new (⟨.name x, p⟩ :: ts)) = [] := by
    rw [List.flatMap_eq_nil_iff]
    rintro ⟨d, i⟩ hd
    have hle := List.le_snd_of_mem_zipIdx hd
    have hlt := List.snd_lt_of_mem_zipIdx hd
    simp only at hle hlt
    rw [replacement, hat i (by omega) (by omega)]
    exact if_neg (show p ≠ i by omega)
  rw [hx, List.zipIdx_cons, List.flatMap_cons, hfirst, hothers, List.append_nil]

theorem flatMap_replacement_other (hs : s ≠ .name x)
    (hts : ∀ token ∈ ts, p + chars.length ≤ token.position) :
    (chars.zipIdx p).flatMap (replacement x new (⟨s, p⟩ :: ts)) = chars := by
  apply flatMap_zipIdx_eq_self
  intro c i _ hi
  apply replacement_of_none
  rw [List.forall_mem_cons]
  refine ⟨by simp [Token.isNameAt, hs], fun token htoken => ?_⟩
  exact not_isNameAt_of_lt (Nat.lt_of_lt_of_le hi (hts token htoken))

end Replacement

/-- Replacing the name in a text does the same to its symbols. No token of the new text runs into one
of the old, as names do not stand beside the name. -/
theorem Spelled.replace {x : Name} {new : List Char} {symbols : List Symbol}
    (hnew : Spelled new symbols) {p : Nat} {text : List Char} {ts : List Token}
    (h : Divided p text ts) : Spelled ((text.zipIdx p).flatMap (replacement x new ts))
      ((ts.map Token.symbol).flatMap (Symbol.subst x symbols)) := by
  induction h with
  | nil => exact .nil
  | @blank p c text ts hc h ih =>
    have hkept : replacement x new ts (c, p) = [c] :=
      replacement_of_none fun token htoken =>
        not_isNameAt_of_lt (Token.le_position_of_divided h token htoken)
    rw [List.zipIdx_cons, List.flatMap_cons, hkept]
    exact ih.blank hc
  | @token p chars text s ts hs h apart ih =>
    have hlater : (text.zipIdx (p + chars.length)).flatMap (replacement x new (⟨s, p⟩ :: ts)) =
        (text.zipIdx (p + chars.length)).flatMap (replacement x new ts) := by
      apply List.flatMap_congr
      rintro ⟨c, i⟩ hc
      exact replacement_cons (not_isNameAt_of_le hs (List.le_snd_of_mem_zipIdx hc))
    rw [List.zipIdx_append, List.flatMap_append, hlater, List.map_cons, List.flatMap_cons]
    by_cases hx : s = .name x
    · subst hx
      cases hs
      rw [flatMap_replacement_name, Symbol.subst, if_pos rfl]
      exact hnew.append ih fun m => apart.flatMap_subst x m symbols
    · rw [flatMap_replacement_other hx (Token.le_position_of_divided h), Symbol.subst, if_neg hx]
      refine ih.lexeme hs ?_
      cases s with
      | name n => exact apart.flatMap_subst x n symbols
      | op o | opening | closing | finish => trivial

theorem Spelled.parens_append {text after : List Char} {symbols symbols' : List Symbol}
    (h : Spelled text symbols) (h' : Spelled after symbols') :
    Spelled (parens text ++ after) (.opening :: (symbols ++ .closing :: symbols')) := by
  rw [parens, List.cons_append, List.append_assoc]
  exact h.enclose h'

/-- The text in the middle is that of a part of the derivation, and no token goes across its
ends. -/
structure PartBetween (before part after : List Char) {level : Level} (s : Tree level)
    (t : Tree (.chain .equi)) (symbols symbols' : List Symbol) : Prop where
  whole : Formula.Derives (before ++ (part ++ after)) t
  occurs : s.Occurs symbols symbols' t
  head : Spelled before symbols
  middle : Spelled part s.yield
  last : Spelled after symbols'

namespace Formula

theorem derives_replaceName {x : Name} {new text : List Char} {e : Tree .operand}
    {t : Tree (.chain .equi)} (hnew : Spelled new e.yield) (h : Derives text t) :
    Derives (replaceName x new text) (Tree.subst x e t) := by
  obtain ⟨ts, hts, hsymbols⟩ := h
  obtain ⟨body, hbody, rfl⟩ := Token.scan_eq_ok_iff.1 hts
  rw [List.map_append] at hsymbols
  rw [derives_iff_spelled, Tree.yield_subst, ← List.append_cancel_right hsymbols, replaceName, hts]
  simp only [replacement_finish]
  exact hnew.replace hbody

theorem spelled_parens {text : List Char} {t : Tree (.chain .equi)} (h : Derives text t) :
    Spelled (parens text) (Tree.paren t).yield :=
  (derives_iff_spelled.1 h).enclose .nil

theorem exists_derives_parens {before part after : List Char} {level : Level} {s : Tree level}
    {t : Tree (.chain .equi)} {symbols symbols' : List Symbol}
    (h : PartBetween before part after s t symbols symbols') :
    ∃ t', Derives (before ++ (parens part ++ after)) t' ∧ t'.formula = t.formula := by
  obtain ⟨s', hs, hsf⟩ := s.exists_paren
  obtain ⟨t', hyield, hformula⟩ := h.occurs.exists_exchange hsf
  refine ⟨t', ?_, hformula⟩
  rw [derives_iff_spelled, hyield, hs, List.cons_append, List.append_assoc]
  exact h.head.append (h.middle.parens_append h.last) fun _ => trivial

/-- **Replacing a name by a text in parentheses replaces the variable by the formula of the text**,
and parentheses around an operand or the whole formula add nothing. -/
theorem parse_replaceName (limit : Option Nat) :
    (∀ x new text f g, parseWith limit text = .ok f → parseWith limit new = .ok g →
      parseWith limit (replaceName x (parens new) text) ≠ .error .tooDeep →
        parseWith limit (replaceName x (parens new) text) =
          .ok (f.subst fun n => if n = x then g else .prop n)) ∧
    (∀ before part after (level : Level) (s : Tree level) t symbols symbols' f,
      PartBetween before part after s t symbols symbols' →
      parseWith limit (before ++ (part ++ after)) = .ok f →
      parseWith limit (before ++ (parens part ++ after)) ≠ .error .tooDeep →
        parseWith limit (before ++ (parens part ++ after)) = .ok f) ∧
    ∀ text f, parseWith limit text = .ok f → parseWith limit (parens text) ≠ .error .tooDeep →
      parseWith limit (parens text) = .ok f := by
  refine ⟨fun x new text f g hf hg hdeep => ?_,
    fun before part after level s t symbols symbols' f h hf hdeep => ?_, fun text f hf hdeep => ?_⟩
  · obtain ⟨t, ht, rfl⟩ := derives_of_parse hf
    obtain ⟨u, hu, rfl⟩ := derives_of_parse hg
    have hreplaced := derives_replaceName (x := x) (spelled_parens hu) ht
    rw [parse_of_derives hdeep hreplaced, Tree.formula_subst]
    rfl
  · obtain ⟨t₀, ht₀, rfl⟩ := derives_of_parse hf
    obtain rfl := ht₀.unique h.whole
    obtain ⟨t', ht', hsame⟩ := exists_derives_parens h
    rw [parse_of_derives hdeep ht', hsame]
  · obtain ⟨t, ht, rfl⟩ := derives_of_parse hf
    obtain ⟨t', hyield, hsame⟩ := t.exists_paren
    have ht' : Derives (parens text) t' := by
      rw [derives_iff_spelled, hyield]
      exact spelled_parens ht
    rw [parse_of_derives hdeep ht', hsame]

theorem parse_replaceName_prefixed :
    parse ['~', 'p', 'q', '-', '>', 'p', 'q', '1'] =
        .ok (.impl (.neg (.prop ⟨['p', 'q'], rfl⟩)) (.prop ⟨['p', 'q', '1'], rfl⟩)) ∧
      replaceName ⟨['p', 'q'], rfl⟩ (parens ['a', '|', 'b'])
          ['~', 'p', 'q', '-', '>', 'p', 'q', '1'] =
        ['~', '(', 'a', '|', 'b', ')', '-', '>', 'p', 'q', '1'] ∧
      parse ['~', '(', 'a', '|', 'b', ')', '-', '>', 'p', 'q', '1'] =
        .ok (.impl (.neg (.disj (.prop (.ofChar 'a' rfl)) (.prop (.ofChar 'b' rfl))))
          (.prop ⟨['p', 'q', '1'], rfl⟩)) ∧
      parse ['(', 'p', '&', 'q', ')', '-', '>', 'p'] = parse ['p', '&', 'q', '-', '>', 'p'] ∧
      parse ['(', '~', 'p', ')'] = parse ['~', 'p'] := by
  obtain ⟨hreplace, hpart, hwhole⟩ := parse_replaceName (some Parser.depthLimit)
  have hbetween : PartBetween [] ['p', '&', 'q'] ['-', '>', 'p']
      (.binary (.name (.ofChar 'p' rfl)) (.single (.name (.ofChar 'q' rfl))) : Tree (.chain .conj))
      (.single (.binary (.single (.binary (.name (.ofChar 'p' rfl))
        (.single (.name (.ofChar 'q' rfl))))) (.single (.single (.single
          (.name (.ofChar 'p' rfl)))))))
      [] _ :=
    { whole := ⟨_, rfl, rfl⟩
      occurs := .single (.left (.single .whole))
      head := .nil
      middle := Token.exists_scan_iff.1 ⟨_, rfl, rfl⟩
      last := Token.exists_scan_iff.1 ⟨_, rfl, rfl⟩ }
  have hdeep : ∀ {text f}, parse text = .ok f → parse text ≠ .error .tooDeep := by
    intro text f h hdeep
    rw [h] at hdeep
    cases hdeep
  refine ⟨rfl, rfl, ?_, ?_, ?_⟩
  · exact hreplace ⟨['p', 'q'], rfl⟩ ['a', '|', 'b'] ['~', 'p', 'q', '-', '>', 'p', 'q', '1'] _ _ rfl
      rfl (hdeep rfl)
  · exact hpart _ _ _ _ _ _ _ _ _ hbetween rfl (hdeep rfl)
  · exact hwhole ['~', 'p'] _ rfl (hdeep rfl)

end Formula

end KripkeLogic
