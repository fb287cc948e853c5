import KripkeLogic.Argument
import KripkeLogic.Proofs.Formula.Written

/-!
# Written forms and the limit on nesting

A written form is read back exactly if it stays within the limit.
-/

namespace KripkeLogic

open Grammar Outcome

namespace Formula

def chain (op : BinaryOp) (x : Name) : Nat → Formula
  | 0 => prop x
  | k + 1 => binary op (prop x) (chain op x k)

def chainText (op : BinaryOp) (x : Name) : Nat → List Char
  | 0 => x.chars
  | k + 1 => x.chars ++ (Alphabet.ascii.symbol (.binary op) ++ chainText op x k)

def chainSymbols (op : BinaryOp) (x : Name) : Nat → List Symbol
  | 0 => [.name x]
  | k + 1 => .name x :: .op (.binary op) :: chainSymbols op x k

/-! ## Written forms -/

theorem botFree_formula {level : Level} (t : Tree level) :
    t.formula.botFree = true := by
  induction t with
  | name n => rfl
  | prefixed op t ih => exact ih
  | paren t ih => exact ih
  | single t ih => exact ih
  | binary left right ihl ihr => rw [Tree.formula, botFree, ihl, ihr]; rfl

theorem exists_write?_of_parse {limit : Option Nat} {text : List Char} {f : Formula}
    (h : parseWith limit text = .ok f) :
    ∃ canonical, f.write? .ascii = some canonical ∧ f.toAscii = .ok canonical := by
  obtain ⟨t, -, rfl⟩ := derives_of_parse h
  obtain ⟨canonical, hcanonical⟩ := exists_write? .ascii (botFree_formula t)
  exact ⟨canonical, hcanonical, by rw [toAscii, hcanonical]⟩

/-- **The written form of what was read is read back** as the same formula, unless it nests too
deeply. -/
theorem written_form_read {text : List Char} {f : Formula} (h : parse text = .ok f) :
    ∃ canonical, f.toAscii = .ok canonical ∧
      (∀ n, parseWith (some n) canonical = if f.nesting ≤ n then .ok f else .error .tooDeep) ∧
      ∃ w : Wff, (Argument.value (.text text)).toWff = .ok w ∧ w.formula = f ∧
        w.ascii = canonical ∧ (Argument.value (.text canonical)).toWff =
          if f.nesting ≤ Parser.depthLimit then .ok w else .error (.parse .tooDeep) := by
  obtain ⟨canonical, hcanonical, hascii⟩ := exists_write?_of_parse h
  have hwff : Argument.wffOf (.ofFormula f) f = .ok ⟨.ofFormula f, f, canonical, .own⟩ := by
    rw [Argument.wffOf, hascii]
  have hparse : ∀ n, parseWith (some n) canonical =
      if f.nesting ≤ n then .ok f else .error .tooDeep :=
    fun n => parseWith_write? hcanonical (some n)
  refine ⟨canonical, hascii, hparse, ⟨.ofFormula f, f, canonical, .own⟩, ?_, rfl, rfl, ?_⟩
  · rw [Argument.toWff, h]
    exact hwff
  · rw [Argument.toWff, parse, hparse]
    split
    · exact hwff
    · rfl

theorem written_form_read_impl : ∃ f, parse ['p', '-', '>', '[', ']', 'p'] = .ok f ∧
    f.nesting ≤ Parser.depthLimit ∧
    f.toAscii = .ok ['(', 'p', ' ', '-', '>', ' ', '[', ']', 'p', ')'] ∧
    parse ['(', 'p', ' ', '-', '>', ' ', '[', ']', 'p', ')'] = .ok f := by
  have hparse : parse ['p', '-', '>', '[', ']', 'p'] =
      .ok (.impl (.prop (.ofChar 'p' rfl)) (.nec (.prop (.ofChar 'p' rfl)))) := rfl
  obtain ⟨canonical, hascii, hread, -⟩ := written_form_read hparse
  cases hascii
  exact ⟨_, hparse, by decide, rfl, hread Parser.depthLimit⟩

/-! ## Chains -/

variable (op : BinaryOp) (x : Name)

theorem nesting_chain (k : Nat) : (chain op x k).nesting = 4 * k := by
  induction k with
  | zero => rfl
  | succ k ih =>
    rw [chain, nesting, nesting, ih]
    omega

theorem spelled_chain (k : Nat) : Spelled (chainText op x k) (chainSymbols op x k) := by
  induction k with
  | zero => exact .name x
  | succ k ih => exact (ih.op (.binary op)).lexeme (.name x) trivial

theorem exists_chain (k : Nat) : ∃ t : Tree (.chain op),
    t.yield = chainSymbols op x k ∧ t.formula = chain op x k ∧ t.nesting = k := by
  induction k with
  | zero => exact Tree.exists_loose (power_le_operand _) (Tree.name x)
  | succ k ih =>
    obtain ⟨left, hleft, hleftf, hleftn⟩ :=
      Tree.exists_loose (b := tighter op) (power_le_operand _) (Tree.name x)
    obtain ⟨right, hright, hrightf, hrightn⟩ := ih
    refine ⟨.binary left right, ?_, ?_, ?_⟩
    · rw [Tree.yield, hleft, hright]
      rfl
    · rw [Tree.formula, hleftf, hrightf]
      rfl
    · rw [Tree.nesting, hleftn, hrightn, Tree.nesting, Nat.zero_max, Nat.add_comm]

theorem parse_chain {k : Nat} (hk : k ≤ Parser.depthLimit) :
    parse (chainText op x k) = .ok (chain op x k) := by
  obtain ⟨s, hs, hsf, hsn⟩ := exists_chain op x k
  obtain ⟨t, ht, htf, htn⟩ := Tree.exists_loose (power_equi_le _) s
  have hderives : Derives (chainText op x k) t := by
    rw [derives_iff_spelled, ht, hs]
    exact spelled_chain op x k
  rw [parse, parseWith_of_derives hderives, htn, hsn, if_pos (fits_some_iff.2 hk), htf, hsf]

/-- A chain of 400 conjunctions is read, but its written form nests too deeply. -/
theorem chain_not_read_back :
    parse (chainText .conj (.ofChar 'p' rfl) 400) = .ok (chain .conj (.ofChar 'p' rfl) 400) ∧
      ∃ canonical, (chain .conj (.ofChar 'p' rfl) 400).toAscii = .ok canonical ∧
        parse canonical = .error .tooDeep := by
  have hparse := parse_chain .conj (.ofChar 'p' rfl) (k := 400) (by decide)
  obtain ⟨canonical, hcanonical, hascii⟩ := exists_write?_of_parse hparse
  refine ⟨hparse, canonical, hascii, ?_⟩
  rw [parse, parseWith_write? hcanonical, nesting_chain]
  rfl

end Formula

end KripkeLogic
