import KripkeLogic.Access.Modal
import KripkeLogic.Proofs.Model.Consistency

/-! # The test for transitivity -/

namespace KripkeLogic

namespace Access

variable {n : Nat} {A : Access n}

theorem isTransitive_iff : A.isTransitive = true ↔ A.Transitive := by
  have htwice : A.isTransitive = true ↔
      ∀ i j, (A.compose A).holds i j = true → A.holds i j = true := by
    simp only [isTransitive, List.all_eq_true, List.mem_finRange, true_implies, Bool.or_eq_true,
      Bool.not_eq_true', ← Bool.not_eq_true, ← imp_iff_not_or]
  rw [htwice]
  simp only [holds_compose]
  constructor
  · intro h k i j hik hkj
    exact h i j ⟨k, hik, hkj⟩
  · rintro h i j ⟨k, hik, hkj⟩
    exact h k i j hik hkj

theorem closure_eq_self_iff : A.closure = A ↔ A.Transitive := by
  constructor
  · intro h
    rw [← h]
    exact transitive_closure A
  · intro h
    apply Within.antisymm
    · exact closure_within (fun _ _ hij => hij) h
    · exact within_closure A

theorem isTransitive_closure (A : Access n) : A.closure.isTransitive = true :=
  isTransitive_iff.2 (transitive_closure A)

end Access

namespace Model

/-- **A relation passes the test exactly if its closure is the relation itself.** So every closure
passes, and both closures of a model do at the end of every history. -/
theorem transitivity_run :
    (∀ (n : Nat) (A : Access n), A.isTransitive = true ↔ A.closure = A) ∧
    (∀ (n : Nat) (A : Access n), A.closure.isTransitive = true) ∧
    ∀ (events : List Event) (k : EdgeKind), ((run events).closure k).isTransitive = true ∧
      ((run events).closure k).Transitive := by
  refine ⟨fun n A => ?_, fun n A => Access.isTransitive_closure A, fun events k => ?_⟩
  · rw [Access.isTransitive_iff, Access.closure_eq_self_iff]
  · rw [(consistent_run events).fresh k]
    exact ⟨Access.isTransitive_closure _, Access.transitive_closure _⟩

end Model

end KripkeLogic
