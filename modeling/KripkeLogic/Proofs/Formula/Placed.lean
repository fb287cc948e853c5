import KripkeLogic.Formula.Placed

/-!
# How deep a comparison goes

The calls that it takes to find equal formulas equal make an ultrametric.
-/

namespace KripkeLogic

def Formula.height : Formula → Nat
  | prop _ => 1
  | bot => 1
  | unary _ a => a.height + 1
  | binary _ a b => max a.height b.height + 1

theorem Formula.height_pos (f : Formula) : 0 < f.height := by
  cases f <;> exact Nat.succ_pos _

namespace Placed

section Shapes

variable {a : Placed} {f g : Formula}

theorem eq_prop {x : Name} (h : a.formula = .prop x) : ∃ i, a = prop i x := by
  cases a <;> cases h
  exact ⟨_, rfl⟩

theorem eq_bot (h : a.formula = .bot) : ∃ i, a = bot i := by
  cases a <;> cases h
  exact ⟨_, rfl⟩

theorem eq_unary {op : UnaryOp} (h : a.formula = .unary op f) :
    ∃ i b, a = unary i op b ∧ b.formula = f := by
  cases a <;> cases h
  exact ⟨_, _, rfl, rfl⟩

theorem eq_binary {op : BinaryOp} (h : a.formula = .binary op f g) :
    ∃ i b b', a = binary i op b b' ∧ b.formula = f ∧ b'.formula = g := by
  cases a <;> cases h
  exact ⟨_, _, _, rfl, rfl, rfl⟩

end Shapes

theorem isOne_comm {a b : Placed} : a.IsOne b ↔ b.IsOne a := by
  constructor
  all_goals
    rintro ⟨hplace, rfl⟩
    exact ⟨hplace, rfl⟩

theorem distance_of_isOne {a b : Placed} (h : a.IsOne b) : a.distance b = 0 := by
  unfold distance
  exact if_pos h

theorem distance_self {a : Placed} (h : a.place.isSome = true) : a.distance a = 0 :=
  distance_of_isOne ⟨h, rfl⟩

section Nodes

variable {i j : Option Place} {op op' : UnaryOp} {bop bop' : BinaryOp} {a a' b b' : Placed}

theorem distance_prop {x y : Name} (h : ¬ (prop i x).IsOne (prop j y)) :
    (prop i x).distance (prop j y) = 3 := if_neg h

theorem distance_bot (h : ¬ (bot i).IsOne (bot j)) : (bot i).distance (bot j) = 3 := if_neg h

theorem distance_unary (h : ¬ (unary i op a).IsOne (unary j op' b)) :
    (unary i op a).distance (unary j op' b) = a.distance b + 3 := by
  rw [distance, if_neg h]

theorem distance_binary (h : ¬ (binary i bop a a').IsOne (binary j bop' b b')) :
    (binary i bop a a').distance (binary j bop' b b') =
      max (a.distance b) (a'.distance b') + 3 := by
  rw [distance, if_neg h]

end Nodes

theorem distance_comm (a b : Placed) : a.distance b = b.distance a := by
  induction a generalizing b with
  | prop i x | bot i => cases b <;> simp only [distance, isOne_comm]
  | unary i op a ih => cases b <;> simp only [distance, isOne_comm, ih]
  | binary i op a a' iha iha' => cases b <;> simp only [distance, isOne_comm, iha, iha']

theorem distance_le_max_of {a b c : Placed} (h : ¬ a.IsOne b → ¬ b.IsOne c → ¬ a.IsOne c →
    a.distance c ≤ max (a.distance b) (b.distance c)) :
    a.distance c ≤ max (a.distance b) (b.distance c) := by
  by_cases hab : a.IsOne b
  · rw [hab.2]
    exact Nat.le_max_right _ _
  by_cases hbc : b.IsOne c
  · rw [hbc.2]
    exact Nat.le_max_left _ _
  by_cases hac : a.IsOne c
  · rw [distance_of_isOne hac]
    exact Nat.zero_le _
  exact h hab hbc hac

/-- Formulas that are equal to a third are compared no deeper than both are with it. -/
theorem distance_le_max {a b c : Placed} (hab : a.formula = b.formula)
    (hbc : b.formula = c.formula) : a.distance c ≤ max (a.distance b) (b.distance c) := by
  induction a generalizing b c with
  | prop i x =>
    obtain ⟨j, rfl⟩ := eq_prop hab.symm
    obtain ⟨k, rfl⟩ := eq_prop hbc.symm
    refine distance_le_max_of fun hone _ hac => ?_
    rw [distance_prop hac, distance_prop hone]
    exact Nat.le_max_left _ _
  | bot i =>
    obtain ⟨j, rfl⟩ := eq_bot hab.symm
    obtain ⟨k, rfl⟩ := eq_bot hbc.symm
    refine distance_le_max_of fun hone _ hac => ?_
    rw [distance_bot hac, distance_bot hone]
    exact Nat.le_max_left _ _
  | unary i op a ih =>
    obtain ⟨j, b, rfl, hb⟩ := eq_unary hab.symm
    obtain ⟨k, c, rfl, hc⟩ := eq_unary hbc.symm
    have := ih hb.symm hc.symm
    refine distance_le_max_of fun hone hone' hac => ?_
    rw [distance_unary hone, distance_unary hone', distance_unary hac]
    omega
  | binary i op a a' iha iha' =>
    obtain ⟨j, b, b', rfl, hb, hb'⟩ := eq_binary hab.symm
    obtain ⟨k, c, c', rfl, hc, hc'⟩ := eq_binary hbc.symm
    have := iha hb.symm hc.symm
    have := iha' hb'.symm hc'.symm
    refine distance_le_max_of fun hone hone' hac => ?_
    rw [distance_binary hone, distance_binary hone', distance_binary hac]
    omega

theorem distance_le_height (a b : Placed) : a.distance b ≤ 3 * a.formula.height := by
  induction a generalizing b with
  | prop i x | bot i =>
    unfold distance
    split
    · exact Nat.zero_le _
    · cases b <;> exact Nat.le_refl 3
  | unary i op a ih =>
    unfold distance
    split
    · exact Nat.zero_le _
    · cases b with
      | unary j op' b =>
        have := ih b
        simp only [formula, Formula.height]
        omega
      | prop | bot | binary =>
        simp only [formula, Formula.height]
        omega
  | binary i op a a' iha iha' =>
    unfold distance
    split
    · exact Nat.zero_le _
    · cases b with
      | binary j op' b b' =>
        have := iha b
        have := iha' b'
        simp only [formula, Formula.height]
        omega
      | prop | bot | unary =>
        simp only [formula, Formula.height]
        omega

end Placed

namespace Formula

@[simp] theorem formula_placed (places : Nat → Place) (i : Nat) (f : Formula) :
    (f.placed places i).formula = f := by
  induction f generalizing i with
  | prop x | bot => rfl
  | unary op a ih => rw [placed, Placed.formula, ih]
  | binary op a b iha ihb => rw [placed, Placed.formula, iha, ihb]

theorem place_placed (places : Nat → Place) (i : Nat) (f : Formula) :
    (f.placed places i).place = some (places i) := by
  cases f <;> rfl

/-- A variable under so many negations. -/
def deep (n : Nat) : Formula := Nat.repeat neg n (.prop ⟨['p'], rfl⟩)

theorem height_deep (n : Nat) : (deep n).height = n + 1 := by
  induction n with
  | zero => rfl
  | succ n ih => exact congrArg (· + 1) ih

theorem botFree_deep (n : Nat) : (deep n).botFree = true := by
  induction n with
  | zero => rfl
  | succ n ih => exact ih

end Formula

end KripkeLogic
