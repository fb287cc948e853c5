import KripkeLogic.Access.Modal

/-!
# Forward confluence

Whenever `i ≤ k` and `i R j`, some `m` has `j ≤ m` and `k R m`.
-/

namespace KripkeLogic.Access

variable {n : Nat}

/-- The pairs `(j, k)` for which no such `m` is there. -/
def violations (P R : Access n) : Access n :=
  let open' := compose R.transpose P
  let closed := compose P R.transpose
  ofFn fun j k => open'.holds j k && !closed.holds j k

def isConfluent (P R : Access n) : Bool :=
  let broken := violations P R
  (List.finRange n).all fun j => (List.finRange n).all fun k => !broken.holds j k

theorem holds_violations {P R : Access n} {j k : Fin n} :
    (violations P R).holds j k ↔
      (∃ i, R.holds i j ∧ P.holds i k) ∧ ¬ ∃ m, P.holds j m ∧ R.holds k m := by
  simp only [violations, holds_ofFn, Bool.and_eq_true, Bool.not_eq_true', ← Bool.not_eq_true,
    holds_compose, holds_transpose]

end KripkeLogic.Access
