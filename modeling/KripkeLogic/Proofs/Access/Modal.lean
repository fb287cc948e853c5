import KripkeLogic.Access.Modal

/-! # Box and diamond along two steps -/

namespace KripkeLogic.Access

variable {n : Nat}

theorem eq_of_trueAt {u v : Vector Bool n} (h : ∀ i, trueAt u i = true ↔ trueAt v i = true) :
    u = v := by
  refine Vector.ext fun i hi => ?_
  rw [Bool.eq_iff_iff]
  exact h ⟨i, hi⟩

theorem necessity_compose (v : Vector Bool n) (A B : Access n) :
    necessity v (A.compose B) = necessity (necessity v B) A := by
  apply eq_of_trueAt
  intro i
  simp only [necessity_iff, holds_compose]
  constructor
  · intro h j hij k hjk
    exact h k ⟨j, hij, hjk⟩
  · rintro h k ⟨j, hij, hjk⟩
    exact h j hij k hjk

theorem possibility_compose (v : Vector Bool n) (A B : Access n) :
    possibility v (A.compose B) = possibility (possibility v B) A := by
  apply eq_of_trueAt
  intro i
  simp only [possibility_iff, holds_compose]
  constructor
  · rintro ⟨k, ⟨j, hij, hjk⟩, hk⟩
    exact ⟨j, hij, k, hjk, hk⟩
  · rintro ⟨j, hij, k, hjk, hk⟩
    exact ⟨k, ⟨j, hij, hjk⟩, hk⟩

end KripkeLogic.Access
