import KripkeLogic.Proofs.Formula.Viable

/-! # Prefix operators before operands -/

namespace KripkeLogic

open Grammar Outcome

instance (s : Symbol) : Decidable (Expected.operand.Meets s) :=
  match s with
  | .name n => isTrue (Or.inl ⟨n, rfl⟩)
  | .op (.unary op) => isTrue (Or.inr (Or.inl ⟨op, rfl⟩))
  | .opening => isTrue (Or.inr (Or.inr rfl))
  | .op (.binary _) | .closing | .finish =>
    isFalse (by rintro (⟨_, h⟩ | ⟨_, h⟩ | h) <;> cases h)

def Formula.prefixes (ops : List UnaryOp) (f : Formula) : Formula := ops.foldr unary f

def Symbol.prefixes (ops : List UnaryOp) : List Symbol := ops.map fun op => .op (.unary op)

/-! ## Derivations -/

namespace Grammar.Tree

variable {level : Level}

/-- The formula of a derivation with operators before its operands. `w i` are those before the
operand that starts with symbol number `i`, where the first number is given. -/
def wrapped (w : Nat → List UnaryOp) (i : Nat) {level : Level} : Tree level → Formula
  | name n => (Formula.prop n).prefixes (w i)
  | prefixed op t => (Formula.unary op (t.wrapped w (i + 1))).prefixes (w i)
  | paren t => (t.wrapped w (i + 1)).prefixes (w i)
  | single t => t.wrapped w i
  | @binary op left right =>
    .binary op (left.wrapped w i) (right.wrapped w (i + left.yield.length + 1))

def prefixes (ops : List UnaryOp) (t : Tree .operand) : Tree .operand := ops.foldr prefixed t

def decorate (w : Nat → List UnaryOp) (i : Nat) {level : Level} : Tree level → Tree level
  | name n => prefixes (w i) (name n)
  | prefixed op t => prefixes (w i) (prefixed op (t.decorate w (i + 1)))
  | paren t => prefixes (w i) (paren (t.decorate w (i + 1)))
  | single t => single (t.decorate w i)
  | binary left right =>
    binary (left.decorate w i) (right.decorate w (i + left.yield.length + 1))

theorem formula_prefixes (ops : List UnaryOp) (t : Tree .operand) :
    (prefixes ops t).formula = t.formula.prefixes ops := by
  induction ops with
  | nil => rfl
  | cons op ops ih => exact congrArg (Formula.unary op) ih

theorem yield_prefixes (ops : List UnaryOp) (t : Tree .operand) :
    (prefixes ops t).yield = Symbol.prefixes ops ++ t.yield := by
  induction ops with
  | nil => rfl
  | cons op ops ih => exact congrArg (.op (.unary op) :: ·) ih

theorem nesting_prefixes (ops : List UnaryOp) (t : Tree .operand) :
    (prefixes ops t).nesting = t.nesting := by
  induction ops with
  | nil => rfl
  | cons op ops ih => exact ih

variable (w : Nat → List UnaryOp) (i : Nat) (t : Tree level)

theorem formula_decorate : (t.decorate w i).formula = t.wrapped w i := by
  induction t generalizing i with
  | name n => rw [decorate, formula_prefixes, formula, wrapped]
  | prefixed op t ih => rw [decorate, formula_prefixes, formula, ih, wrapped]
  | paren t ih => rw [decorate, formula_prefixes, formula, ih, wrapped]
  | single t ih => exact ih i
  | binary left right ihl ihr => rw [decorate, formula, ihl, ihr, wrapped]

theorem nesting_decorate : (t.decorate w i).nesting = t.nesting := by
  induction t generalizing i with
  | name n => rw [decorate, nesting_prefixes]
  | prefixed op t ih => rw [decorate, nesting_prefixes, nesting, ih, nesting]
  | paren t ih => rw [decorate, nesting_prefixes, nesting, ih, nesting]
  | single t ih => exact ih i
  | binary left right ihl ihr => rw [decorate, nesting, ihl, ihr, nesting]

def mark (w : Nat → List UnaryOp) (s : Symbol × Nat) : List Symbol :=
  if Expected.operand.Meets s.1 then Symbol.prefixes (w s.2) ++ [s.1] else [s.1]

theorem yield_decorate : (t.decorate w i).yield = (t.yield.zipIdx i).flatMap (mark w) := by
  induction t generalizing i with
  | name n => simp [decorate, yield_prefixes, yield, mark, Expected.Meets]
  | prefixed op t ih => simp [decorate, yield_prefixes, yield, mark, Expected.Meets, ih]
  | paren t ih =>
    simp [decorate, yield_prefixes, yield, mark, Expected.Meets, ih, List.zipIdx_append]
  | single t ih => exact ih i
  | binary left right ihl ihr =>
    simp [decorate, yield, mark, Expected.Meets, ihl, ihr, List.zipIdx_append]

end Grammar.Tree

/-! ## Texts -/

def insertion (extra : Nat → List UnaryOp) (c : Char × Nat) : List Char :=
  (extra c.2).flatMap Alphabet.ascii.unary ++ [c.1]

/-- The text with operators before the characters at some positions. -/
def insertBefore (extra : Nat → List UnaryOp) (text : List Char) : List Char :=
  text.zipIdx.flatMap (insertion extra)

/-- Operators are put only where a token starts an operand. -/
def BeforeOperands (ts : List Token) (extra : Nat → List UnaryOp) : Prop :=
  ∀ p, extra p ≠ [] → ∃ token ∈ ts, token.position = p ∧ Expected.operand.Meets token.symbol

def operatorsAt (ts : List Token) (extra : Nat → List UnaryOp) (i : Nat) : List UnaryOp :=
  (ts[i]?).elim [] fun token => extra token.position

def Token.mark (extra : Nat → List UnaryOp) (token : Token) : List Symbol :=
  Symbol.prefixes (extra token.position) ++ [token.symbol]

section Insertion

variable {extra : Nat → List UnaryOp} {text : List Char} {ts : List Token} {p : Nat}

theorem insertion_of_nil {q : Nat} (h : extra q = []) (c : Char) : insertion extra (c, q) = [c] := by
  rw [insertion, h]
  rfl

theorem Apart.flatMap_mark {n : Name} (h : Apart (.name n) (ts.map Token.symbol)) :
    Apart (.name n) (ts.flatMap (Token.mark extra)) := by
  cases ts with
  | nil => trivial
  | cons token ts =>
    obtain ⟨s, q⟩ := token
    rw [List.flatMap_cons, Token.mark]
    cases extra q with
    | nil => cases s <;> first | exact h.elim | trivial
    | cons op ops => trivial

theorem Spelled.prefixes (ops : List UnaryOp) {symbols : List Symbol} (h : Spelled text symbols) :
    Spelled (ops.flatMap Alphabet.ascii.unary ++ text) (Symbol.prefixes ops ++ symbols) := by
  induction ops with
  | nil => exact h
  | cons op ops ih =>
    rw [List.flatMap_cons, List.append_assoc]
    exact ih.op (.unary op)

theorem Spelled.insert (h : Divided p text ts)
    (hextra : ∀ q, p ≤ q → extra q ≠ [] → ∃ token ∈ ts, token.position = q) :
    Spelled ((text.zipIdx p).flatMap (insertion extra)) (ts.flatMap (Token.mark extra)) := by
  induction h with
  | nil => exact .nil
  | @blank p c text ts hc h ih =>
    have hnone : extra p = [] := by
      by_contra hsome
      obtain ⟨token, htoken, hp⟩ := hextra p (Nat.le_refl p) hsome
      have hle := Token.le_position_of_divided h token htoken
      omega
    rw [List.zipIdx_cons, List.flatMap_cons, insertion_of_nil hnone]
    exact (ih fun q hq => hextra q (Nat.le_of_succ_le hq)).blank hc
  | @token p chars text s ts hs h apart ih =>
    obtain ⟨c, tail, rfl, -⟩ := hs.exists_cons
    -- Operators behind the first character of the token stand before a later token.
    have hlater : ∀ q, p < q → extra q ≠ [] → ∃ token ∈ ts, token.position = q := by
      intro q hq hsome
      obtain ⟨token, htoken, rfl⟩ := hextra q (Nat.le_of_lt hq) hsome
      rcases List.mem_cons.1 htoken with rfl | htoken
      · exact absurd hq (Nat.lt_irrefl _)
      · exact ⟨token, htoken, rfl⟩
    have hinner : (tail.zipIdx (p + 1)).flatMap (insertion extra) = tail := by
      apply flatMap_zipIdx_eq_self
      intro d q hq hlt
      apply insertion_of_nil
      by_contra hsome
      obtain ⟨token, htoken, rfl⟩ := hlater q hq hsome
      have hle := Token.le_position_of_divided h token htoken
      rw [List.length_cons] at hle
      omega
    have hrest := ih fun q hq => hlater q (by rw [List.length_cons] at hq; omega)
    have hlexeme := hrest.lexeme hs ?_
    · have hwhole := hlexeme.prefixes (extra p)
      rw [List.zipIdx_append, List.zipIdx_cons, List.cons_append, List.flatMap_cons,
        List.flatMap_append, hinner, insertion, List.flatMap_cons, Token.mark]
      simpa using hwhole
    · cases s with
      | name n => exact apart.flatMap_mark
      | op o | opening | closing | finish => trivial

end Insertion

/-! ## Formulas -/

namespace Formula

variable {extra : Nat → List UnaryOp} {text : List Char} {ts body : List Token}

theorem meets_of_ne_nil (hts : Token.scan text = .ok ts) (h : BeforeOperands ts extra)
    {token : Token} (htoken : token ∈ ts) (hsome : extra token.position ≠ []) :
    Expected.operand.Meets token.symbol := by
  obtain ⟨other, hother, hp, hmeets⟩ := h _ hsome
  obtain ⟨i, hi⟩ := List.mem_iff_getElem?.1 htoken
  obtain ⟨j, hj⟩ := List.mem_iff_getElem?.1 hother
  obtain rfl := Token.eq_of_position_eq hts hj hi hp
  rw [hi] at hj
  cases hj
  exact hmeets

theorem flatMap_mark (hts : Token.scan text = .ok ts) (h : BeforeOperands ts extra)
    (hbody : body <+: ts) : body.flatMap (Token.mark extra) =
      (body.map Token.symbol).zipIdx.flatMap (Tree.mark (operatorsAt ts extra)) := by
  have hmark : ∀ c ∈ body.zipIdx, Token.mark extra c.1 =
      Tree.mark (operatorsAt ts extra) (Prod.map Token.symbol id c) := by
    rintro ⟨token, i⟩ hc
    obtain ⟨hi, htoken⟩ := List.getElem?_eq_some_iff.1 (List.mem_zipIdx_iff_getElem?.1 hc)
    have hat : ts[i]? = some token := by rw [List.prefix_iff_getElem?.1 hbody i hi, htoken]
    have hoperators : operatorsAt ts extra i = extra token.position := by
      rw [operatorsAt, hat]
      rfl
    by_cases hmeets : Expected.operand.Meets token.symbol
    · simp [Token.mark, Tree.mark, hoperators, hmeets]
    · have hnone : extra token.position = [] := by
        by_contra hsome
        exact hmeets (meets_of_ne_nil hts h (List.mem_of_getElem? hat) hsome)
      simp [Token.mark, Tree.mark, hmeets, hnone, Symbol.prefixes]
  calc body.flatMap (Token.mark extra)
      = (body.zipIdx.map Prod.fst).flatMap (Token.mark extra) := by rw [List.zipIdx_map_fst]
    _ = body.zipIdx.flatMap fun c => Token.mark extra c.1 := List.flatMap_map ..
    _ = body.zipIdx.flatMap fun c =>
          Tree.mark (operatorsAt ts extra) (Prod.map Token.symbol id c) := List.flatMap_congr hmark
    _ = (body.map Token.symbol).zipIdx.flatMap (Tree.mark (operatorsAt ts extra)) := by
      rw [List.zipIdx_map, List.flatMap_map]

theorem derives_insertBefore {t : Tree (.chain .equi)} (ht : Derives text t)
    (hts : Token.scan text = .ok ts) (h : BeforeOperands ts extra) :
    Derives (insertBefore extra text) (t.decorate (operatorsAt ts extra) 0) := by
  obtain ⟨body, hbody, rfl⟩ := Token.scan_eq_ok_iff.1 hts
  have hyield : body.map Token.symbol = t.yield :=
    (Spelled.of_divided hbody).unique (derives_iff_spelled.1 ht)
  have hplaces : ∀ q, 0 ≤ q → extra q ≠ [] → ∃ token ∈ body, token.position = q := by
    intro q _ hsome
    obtain ⟨token, htoken, hq, hmeets⟩ := h q hsome
    rcases List.mem_append.1 htoken with htoken | hfinish
    · exact ⟨token, htoken, hq⟩
    · obtain rfl := List.mem_singleton.1 hfinish
      rcases hmeets with ⟨_, h⟩ | ⟨_, h⟩ | h <;> cases h
  rw [derives_iff_spelled, Tree.yield_decorate, ← hyield,
    ← flatMap_mark hts h (List.prefix_append _ _)]
  exact Spelled.insert hbody hplaces

/-- **Prefix operators before the operands of a formula that is read apply to just these operands,
the outermost first**, and never nest too deeply. -/
theorem parse_insertBefore (limit : Option Nat) {f : Formula} (hts : Token.scan text = .ok ts)
    (h : parseWith limit text = .ok f) : ∃ t, Derives text t ∧ t.formula = f ∧
      ∀ extra, BeforeOperands ts extra →
        parseWith limit (insertBefore extra text) = .ok (t.wrapped (operatorsAt ts extra) 0) := by
  obtain ⟨t, ht, hf⟩ := derives_of_parse h
  refine ⟨t, ht, hf, fun extra hextra => ?_⟩
  have hfits : Fits limit t.nesting := by
    by_contra hdeep
    rw [parseWith_of_derives ht, if_neg hdeep] at h
    cases h
  rw [parseWith_of_derives (derives_insertBefore ht hts hextra), Tree.nesting_decorate,
    if_pos hfits, Tree.formula_decorate]

def nestedPrefixes : Nat → List UnaryOp
  | 0 => [.neg]
  | 3 => [.nec, .poss]
  | 4 => [.neg, .neg]
  | _ => []

theorem parse_insertBefore_nested :
    parse ['p', '-', '>', '(', 'q', ')'] =
        .ok (.impl (.prop (.ofChar 'p' rfl)) (.prop (.ofChar 'q' rfl))) ∧
      insertBefore nestedPrefixes ['p', '-', '>', '(', 'q', ')'] =
        ['~', 'p', '-', '>', '[', ']', '<', '>', '(', '~', '~', 'q', ')'] ∧
      parse ['~', 'p', '-', '>', '[', ']', '<', '>', '(', '~', '~', 'q', ')'] =
        .ok (.impl (.neg (.prop (.ofChar 'p' rfl)))
          (.nec (.poss (.neg (.neg (.prop (.ofChar 'q' rfl))))))) := by
  have hts : Token.scan ['p', '-', '>', '(', 'q', ')'] = .ok [⟨.name (.ofChar 'p' rfl), 0⟩,
      ⟨.op (.binary .impl), 1⟩, ⟨.opening, 3⟩, ⟨.name (.ofChar 'q' rfl), 4⟩, ⟨.closing, 5⟩,
      ⟨.finish, 6⟩] := rfl
  have hparse : parse ['p', '-', '>', '(', 'q', ')'] =
      .ok (.impl (.prop (.ofChar 'p' rfl)) (.prop (.ofChar 'q' rfl))) := rfl
  have hplaces : BeforeOperands [⟨.name (.ofChar 'p' rfl), 0⟩, ⟨.op (.binary .impl), 1⟩,
      ⟨.opening, 3⟩, ⟨.name (.ofChar 'q' rfl), 4⟩, ⟨.closing, 5⟩, ⟨.finish, 6⟩]
      nestedPrefixes := by
    intro p hp
    unfold nestedPrefixes at hp
    split at hp
    · exact ⟨⟨.name (.ofChar 'p' rfl), 0⟩, by simp, rfl, Or.inl ⟨_, rfl⟩⟩
    · exact ⟨⟨.opening, 3⟩, by simp, rfl, Or.inr (Or.inr rfl)⟩
    · exact ⟨⟨.name (.ofChar 'q' rfl), 4⟩, by simp, rfl, Or.inl ⟨_, rfl⟩⟩
    · exact absurd rfl hp
  have hknown : Derives ['p', '-', '>', '(', 'q', ')']
      (.single (.binary (.single (.single (.name (.ofChar 'p' rfl))))
        (.single (.single (.single (.paren (.single (.single (.single (.single
          (.name (.ofChar 'q' rfl)))))))))))) := ⟨_, hts, rfl⟩
  obtain ⟨t, ht, -, hinsert⟩ := parse_insertBefore (some Parser.depthLimit) hts hparse
  obtain rfl := ht.unique hknown
  exact ⟨hparse, rfl, hinsert nestedPrefixes hplaces⟩

end Formula

end KripkeLogic
