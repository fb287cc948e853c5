import KripkeLogic.Access.Basic

/-! # Composition, box and diamond -/

namespace KripkeLogic.Access

variable {n : Nat}

def compose (A B : Access n) : Access n :=
  let worlds := List.finRange n
  ofFn fun i j => worlds.any fun k => A.holds i k && B.holds k j

def transpose (A : Access n) : Access n := ofFn fun i j => A.holds j i

def withReflexive (A : Access n) (live : Vector Bool n) : Access n :=
  ofFn fun i j => A.holds i j || (i = j && trueAt live i)

def necessity (values : Vector Bool n) (A : Access n) : Vector Bool n :=
  let worlds := List.finRange n
  Vector.ofFn fun i => worlds.all fun j => !A.holds i j || trueAt values j

def possibility (values : Vector Bool n) (A : Access n) : Vector Bool n :=
  let worlds := List.finRange n
  Vector.ofFn fun i => worlds.any fun j => A.holds i j && trueAt values j

/-- Two steps make no pair that one step does not make. -/
def isTransitive (A : Access n) : Bool :=
  let twice := compose A A
  (List.finRange n).all fun i => (List.finRange n).all fun j => !twice.holds i j || A.holds i j

theorem holds_compose {A B : Access n} {i j : Fin n} :
    (compose A B).holds i j ↔ ∃ k, A.holds i k ∧ B.holds k j := by
  simp [compose]

@[simp] theorem holds_transpose (A : Access n) (i j : Fin n) :
    A.transpose.holds i j = A.holds j i := by
  simp [transpose]

theorem holds_withReflexive {A : Access n} {live : Vector Bool n} {i j : Fin n} :
    (A.withReflexive live).holds i j ↔ A.holds i j ∨ (i = j ∧ trueAt live i) := by
  simp [withReflexive]

theorem necessity_iff {values : Vector Bool n} {A : Access n} {i : Fin n} :
    trueAt (necessity values A) i ↔ ∀ j, A.holds i j → trueAt values j := by
  simp only [necessity, trueAt_ofFn, List.all_eq_true, List.mem_finRange, true_implies,
    Bool.or_eq_true, Bool.not_eq_true']
  grind

theorem possibility_iff {values : Vector Bool n} {A : Access n} {i : Fin n} :
    trueAt (possibility values A) i ↔ ∃ j, A.holds i j ∧ trueAt values j := by
  simp [possibility]

end KripkeLogic.Access
