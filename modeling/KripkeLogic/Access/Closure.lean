import KripkeLogic.Access.Basic

/-! # Transitive closure -/

namespace KripkeLogic.Access

variable {n : Nat}

/-- Adds the pairs that are joined by way of world `k`. -/
def through (A : Access n) (k : Fin n) : Access n :=
  ofFn fun i j => A.holds i j || (A.holds i k && A.holds k j)

/-- One pass over all worlds in their order. -/
def closure (A : Access n) : Access n := (List.finRange n).foldl through A

@[simp] theorem holds_through (A : Access n) (k i j : Fin n) :
    (A.through k).holds i j = (A.holds i j || (A.holds i k && A.holds k j)) := by
  simp [through]

end KripkeLogic.Access
