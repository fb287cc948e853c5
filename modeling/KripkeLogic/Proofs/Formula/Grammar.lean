import KripkeLogic.Formula.Parser

/-!
# The grammar of formulas

Chains of one binary operator group to the right, and their operands bind tighter:

    equi    ::= impl    | impl    '<->' equi
    impl    ::= disj    | disj    '->'  impl
    disj    ::= conj    | conj    '|'   disj
    conj    ::= operand | operand '&'   conj
    operand ::= NAME | '~' operand | '[]' operand | '<>' operand | '(' equi ')'
-/

namespace KripkeLogic.Grammar

inductive Level
  | operand
  | chain (op : BinaryOp)
deriving DecidableEq

def tighter : BinaryOp → Level
  | .conj => .operand
  | .disj => .chain .conj
  | .impl => .chain .disj
  | .equi => .chain .impl

def Level.power : Level → Nat
  | operand => 5
  | chain op => op.power

theorem power_tighter (op : BinaryOp) : (tighter op).power = op.power + 1 := by
  cases op <;> rfl

theorem power_lt_operand (op : BinaryOp) : op.power < Level.operand.power := by
  cases op <;> decide

theorem power_le_operand (level : Level) : level.power ≤ Level.operand.power := by
  cases level with
  | operand => exact Nat.le_refl _
  | chain op => exact Nat.le_of_lt (power_lt_operand op)

theorem power_equi_le (level : Level) : (Level.chain .equi).power ≤ level.power := by
  cases level with
  | operand => decide
  | chain op => cases op <;> decide

theorem power_injective {a b : Level} (h : a.power = b.power) : a = b := by
  rcases a with _ | a <;> rcases b with _ | b
  · rfl
  · cases b <;> cases h
  · cases a <;> cases h
  · cases a <;> cases b <;> first | rfl | cases h

/-- A derivation from a nonterminal. -/
inductive Tree : Level → Type
  | name (n : Name) : Tree .operand
  | prefixed (op : UnaryOp) (t : Tree .operand) : Tree .operand
  | paren (t : Tree (.chain .equi)) : Tree .operand
  | single {op : BinaryOp} (t : Tree (tighter op)) : Tree (.chain op)
  | binary {op : BinaryOp} (left : Tree (tighter op)) (right : Tree (.chain op)) : Tree (.chain op)

namespace Tree

def yield {level : Level} : Tree level → List Symbol
  | name n => [.name n]
  | prefixed op t => .op (.unary op) :: t.yield
  | paren t => .opening :: (t.yield ++ [.closing])
  | single t => t.yield
  | @binary op left right => left.yield ++ .op (.binary op) :: right.yield

/-- Parentheses and chains of one leave no trace. -/
def formula {level : Level} : Tree level → Formula
  | name n => .prop n
  | prefixed op t => .unary op t.formula
  | paren t => t.formula
  | single t => t.formula
  | @binary op left right => .binary op left.formula right.formula

/-- How deep the parser nests in a derivation. A parenthesis weighs three and a right operand one. -/
def nesting {level : Level} : Tree level → Nat
  | name _ => 0
  | prefixed _ t => t.nesting
  | paren t => 3 + t.nesting
  | single t => t.nesting
  | binary left right => max left.nesting (1 + right.nesting)

/-! ## Unambiguity -/

def Stops (power : Nat) (rest : List Symbol) : Prop :=
  ∀ op tail, rest = .op (.binary op) :: tail → op.power < power

theorem Stops.mono {p q : Nat} {rest : List Symbol} (h : Stops p rest) (hpq : p ≤ q) :
    Stops q rest := by
  intro op tail hrest
  have := h op tail hrest
  omega

theorem stops_closing (p : Nat) (rest : List Symbol) : Stops p (.closing :: rest) := by
  intro op tail h
  cases h

theorem stops_op {op : BinaryOp} (rest : List Symbol) :
    Stops (tighter op).power (.op (.binary op) :: rest) := by
  rw [power_tighter]
  intro op' tail h
  cases h
  omega

theorem not_stops_op {op : BinaryOp} {rest : List Symbol} :
    ¬ Stops op.power (.op (.binary op) :: rest) := by
  intro h
  have := h op rest rfl
  omega

theorem eq_of_yield_append {level : Level} (t t' : Tree level) {rest rest' : List Symbol}
    (hs : Stops level.power rest) (hs' : Stops level.power rest')
    (h : t.yield ++ rest = t'.yield ++ rest') : t = t' ∧ rest = rest' := by
  induction t generalizing rest rest' with
  | name n =>
    cases t' with
    | name m =>
      cases h
      exact ⟨rfl, rfl⟩
    | prefixed op s => cases h
    | paren s => cases h
  | prefixed op t ih =>
    cases t' with
    | name m => cases h
    | prefixed op' s =>
      simp only [yield, List.cons_append, List.cons.injEq] at h
      obtain ⟨hop, h⟩ := h
      cases hop
      obtain ⟨rfl, rfl⟩ := ih s hs hs' h
      exact ⟨rfl, rfl⟩
    | paren s => cases h
  | paren t ih =>
    cases t' with
    | name m => cases h
    | prefixed op s => cases h
    | paren s =>
      simp only [yield, List.cons_append, List.append_assoc, List.nil_append, List.cons.injEq,
        true_and] at h
      obtain ⟨rfl, hrest⟩ := ih s (stops_closing _ _) (stops_closing _ _) h
      cases hrest
      exact ⟨rfl, rfl⟩
  | @single op t ih =>
    have hle : op.power ≤ (tighter op).power := by rw [power_tighter]; omega
    cases t' with
    | single s =>
      obtain ⟨rfl, rfl⟩ := ih s (hs.mono hle) (hs'.mono hle) h
      exact ⟨rfl, rfl⟩
    | binary left right =>
      simp only [yield, List.append_assoc, List.cons_append] at h
      obtain ⟨-, rfl⟩ := ih left (hs.mono hle) (stops_op _) h
      exact absurd hs not_stops_op
  | @binary op left right ihl ihr =>
    have hle : op.power ≤ (tighter op).power := by rw [power_tighter]; omega
    cases t' with
    | single s =>
      simp only [yield, List.append_assoc, List.cons_append] at h
      obtain ⟨-, rfl⟩ := ihl s (stops_op _) (hs'.mono hle) h
      exact absurd hs' not_stops_op
    | binary left' right' =>
      simp only [yield, List.append_assoc, List.cons_append] at h
      obtain ⟨rfl, hrest⟩ := ihl left' (stops_op _) (stops_op _) h
      obtain ⟨rfl, rfl⟩ := ihr right' hs hs' (List.cons.inj hrest).2
      exact ⟨rfl, rfl⟩

/-- **No list of symbols has two derivations.** -/
theorem yield_injective {level : Level} {t t' : Tree level} (h : t.yield = t'.yield) : t = t' := by
  have hnil : Stops level.power [] := fun op tail hrest => by cases hrest
  refine (eq_of_yield_append t t' hnil hnil ?_).1
  rw [h]

/-! ## Chains of one -/

theorem exists_loose {a b : Level} (h : b.power ≤ a.power) (t : Tree a) :
    ∃ t' : Tree b, t'.yield = t.yield ∧ t'.formula = t.formula ∧ t'.nesting = t.nesting := by
  obtain ⟨n, hn⟩ : ∃ n, b.power + n = a.power := ⟨a.power - b.power, by omega⟩
  clear h
  induction n generalizing b with
  | zero =>
    obtain rfl := power_injective hn
    exact ⟨t, rfl, rfl, rfl⟩
  | succ n ih =>
    cases b with
    | operand =>
      have hle := power_le_operand a
      omega
    | chain op =>
      obtain ⟨t', hyield, hformula, hnesting⟩ := ih (b := tighter op) (by
        rw [power_tighter]
        simp only [Level.power] at hn ⊢
        omega)
      exact ⟨.single t', hyield, hformula, hnesting⟩

end Tree

end KripkeLogic.Grammar
