import KripkeLogic.Proofs.Formula.Lexemes

/-! # Written forms are read back -/

namespace KripkeLogic

open Grammar Outcome

namespace Formula

def symbols : Formula → List Symbol
  | prop n => [.name n]
  | bot => []
  | unary op f => .op (.unary op) :: f.symbols
  | binary op f g => .opening :: (f.symbols ++ .op (.binary op) :: (g.symbols ++ [.closing]))

/-- How deep the written form nests: an operator weighs three for its parentheses, and one more in
its right operand. -/
def nesting : Formula → Nat
  | prop _ => 0
  | bot => 0
  | unary _ f => f.nesting
  | binary _ f g => 3 + max f.nesting (1 + g.nesting)

theorem write?_binary_eq_some {a : Alphabet} {op : BinaryOp} {f g : Formula} {text : List Char}
    (h : (binary op f g).write? a = some text) : ∃ left right, f.write? a = some left ∧
      g.write? a = some right ∧
      text = '(' :: (left ++ ' ' :: (a.binary op ++ ' ' :: (right ++ [')']))) := by
  simp only [write?, Option.bind_eq_bind, Option.bind_eq_some_iff, Option.pure_def,
    Option.some.injEq] at h
  obtain ⟨left, hleft, right, hright, rfl⟩ := h
  exact ⟨left, right, hleft, hright, rfl⟩

theorem spelled_write? {f : Formula} {text : List Char} (h : f.write? .ascii = some text) :
    Spelled text f.symbols := by
  induction f generalizing text with
  | prop n =>
    cases h
    exact .name n
  | bot => cases h
  | unary op f ih =>
    obtain ⟨inner, hinner, rfl⟩ := Option.map_eq_some_iff.1 h
    exact (ih hinner).op (.unary op)
  | binary op f g ihf ihg =>
    obtain ⟨left, right, hleft, hright, rfl⟩ := write?_binary_eq_some h
    have hblank : Text.isBlank ' ' = true := by decide
    have hlater := (((ihg hright).blank hblank).op (.binary op)).blank hblank
    have hinner := (ihf hleft).append hlater fun _ => trivial
    simpa [symbols, Alphabet.symbol] using hinner.enclose .nil

theorem exists_operand_binary (op : BinaryOp) (left right : Tree .operand) :
    ∃ t : Tree .operand, t.formula = .binary op left.formula right.formula ∧
      t.yield = .opening :: (left.yield ++ .op (.binary op) :: (right.yield ++ [.closing])) ∧
      t.nesting = 3 + max left.nesting (1 + right.nesting) := by
  obtain ⟨left', hleft, hleftf, hleftn⟩ :=
    Tree.exists_loose (b := tighter op) (power_le_operand _) left
  obtain ⟨right', hright, hrightf, hrightn⟩ :=
    Tree.exists_loose (b := .chain op) (power_le_operand _) right
  obtain ⟨t, ht, htf, htn⟩ :=
    Tree.exists_loose (power_equi_le (.chain op)) (Tree.binary left' right')
  refine ⟨.paren t, ?_, ?_, ?_⟩
  · rw [Tree.formula, htf, Tree.formula, hleftf, hrightf]
  · rw [Tree.yield, ht, Tree.yield, hleft, hright, List.append_assoc, List.cons_append]
  · rw [Tree.nesting, htn, Tree.nesting, hleftn, hrightn]

theorem exists_operand {f : Formula} (h : f.botFree = true) :
    ∃ t : Tree .operand, t.formula = f ∧ t.yield = f.symbols ∧ t.nesting = f.nesting := by
  induction f with
  | prop n => exact ⟨.name n, rfl, rfl, rfl⟩
  | bot => cases h
  | unary op f ih =>
    obtain ⟨t, rfl, ht, hn⟩ := ih h
    exact ⟨.prefixed op t, rfl, by rw [Tree.yield, ht, symbols], hn⟩
  | binary op f g ihf ihg =>
    rw [botFree, Bool.and_eq_true] at h
    obtain ⟨s, rfl, hs, hsn⟩ := ihf h.1
    obtain ⟨t, rfl, ht, htn⟩ := ihg h.2
    obtain ⟨whole, hformula, hyield, hnesting⟩ := exists_operand_binary op s t
    exact ⟨whole, hformula, by rw [hyield, hs, ht, symbols], by rw [hnesting, hsn, htn, nesting]⟩

theorem derives_write? {f : Formula} {text : List Char} (h : f.write? .ascii = some text) :
    ∃ t, Derives text t ∧ t.formula = f ∧ t.nesting = f.nesting := by
  have hfree : f.botFree = true := by rw [← write?_isSome .ascii, h]; rfl
  obtain ⟨s, hf, hs, hn⟩ := exists_operand hfree
  obtain ⟨t, hyield, hformula, hnesting⟩ := Tree.exists_loose (power_equi_le .operand) s
  refine ⟨t, ?_, hformula.trans hf, hnesting.trans hn⟩
  rw [derives_iff_spelled, hyield, hs]
  exact spelled_write? h

/-- The written form is read back unless it nests too deeply. -/
theorem parseWith_write? {f : Formula} {text : List Char} (h : f.write? .ascii = some text)
    (limit : Option Nat) :
    parseWith limit text = if Fits limit f.nesting then .ok f else .error .tooDeep := by
  obtain ⟨t, ht, rfl, hnesting⟩ := derives_write? h
  rw [parseWith_of_derives ht, hnesting]

end Formula

end KripkeLogic
