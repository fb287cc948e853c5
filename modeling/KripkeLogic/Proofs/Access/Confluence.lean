import KripkeLogic.Access.Confluence
import KripkeLogic.Proofs.Access.Closure
import Mathlib.Logic.Basic

/-!
# Diamonds

A diamond is a step of the preorder and a step of the relation that start at one world.
-/

namespace KripkeLogic.Access

variable {n : Nat} {P R E : Access n}

/-- The diamonds over the entries of `E` are closed by steps of `P` and `R`. -/
def ClosesOver (P R E : Access n) : Prop :=
  ∀ i j k, E.holds i k = true → R.holds i j = true →
    ∃ m, P.holds j m = true ∧ R.holds k m = true

theorem isConfluent_iff : isConfluent P R = true ↔ ClosesOver P R P := by
  simp only [isConfluent, List.all_eq_true, List.mem_finRange, true_implies, Bool.not_eq_true',
    ← Bool.not_eq_true, holds_violations, not_and, not_not]
  constructor
  · intro h i j k hik hij
    exact h j k ⟨i, hij, hik⟩
  · rintro h j k ⟨i, hij, hik⟩
    exact h i j k hik hij

theorem ClosesOver.mono {E' : Access n} (hE : E'.Within E) (h : ClosesOver P R E) :
    ClosesOver P R E' :=
  fun i j k hik hij => h i j k (hE i k hik) hij

/-- The steps of `P` are the paths over entries of `E`. -/
def Generates (E P : Access n) : Prop := ∀ i k, P.holds i k = true ↔ E.Path i k

theorem generates_closure (E : Access n) : E.Generates E.closure := fun _ _ => holds_closure

theorem Generates.within (h : E.Generates P) : E.Within P :=
  fun i k hik => (h i k).2 (.single hik)

theorem Generates.transitive (h : E.Generates P) : P.Transitive :=
  fun j i k hij hjk => (h i k).2 (((h i j).1 hij).trans ((h j k).1 hjk))

theorem ClosesOver.exists_of_path (hP : P.Transitive) (h : ClosesOver P R E) {i j k : Fin n}
    (hik : E.Path i k) (hij : R.holds i j = true) :
    ∃ m, P.holds j m = true ∧ R.holds k m = true := by
  induction hik with
  | single hik => exact h _ _ _ hik hij
  | tail _ hkl ih =>
    obtain ⟨m, hjm, hkm⟩ := ih
    obtain ⟨m', hmm', hlm'⟩ := h _ _ _ hkl hkm
    exact ⟨m', hP m j m' hjm hmm', hlm'⟩

theorem Generates.closesOver_iff (hE : E.Generates P) : ClosesOver P R P ↔ ClosesOver P R E := by
  constructor
  · exact ClosesOver.mono hE.within
  · intro h i j k hik hij
    exact h.exists_of_path hE.transitive ((hE i k).1 hik) hij

/-- **The check finds exactly the diamonds that nothing closes.** If the preorder is generated by
some entries, those over the entries decide. -/
theorem confluence_check (P R : Access n) :
    (∀ j k, (violations P R).holds j k = true ↔
      (∃ i, P.holds i k = true ∧ R.holds i j = true) ∧
        ¬ ∃ m, P.holds j m = true ∧ R.holds k m = true) ∧
    (isConfluent P R = true ↔ ClosesOver P R P) ∧
    ∀ E : Access n, E.Generates P → (isConfluent P R = true ↔ ClosesOver P R E) := by
  refine ⟨fun j k => ?_, isConfluent_iff, fun E hE => isConfluent_iff.trans hE.closesOver_iff⟩
  simp only [holds_violations, and_comm]

def ladder : Access 3 := ofList [(0, 0), (1, 1), (2, 2), (0, 1), (1, 2)]

def toTop : Access 3 := ofList [(0, 0), (1, 1), (2, 2), (0, 2), (1, 2)]

theorem confluence_check_ladder : ladder.closure.holds 0 2 = true ∧ ladder.holds 0 2 = false ∧
    ladder.Generates ladder.closure ∧ ClosesOver ladder.closure toTop ladder ∧
    isConfluent ladder.closure toTop = true := by
  have hover : ClosesOver ladder.closure toTop ladder := by
    intro i j k hik hij
    have hladder : isConfluent ladder toTop = true := by decide
    obtain ⟨m, hjm, hkm⟩ := isConfluent_iff.1 hladder i j k hik hij
    exact ⟨m, within_closure ladder j m hjm, hkm⟩
  have hladder := generates_closure ladder
  exact ⟨by decide, by decide, hladder, hover,
    ((confluence_check _ _).2.2 ladder hladder).2 hover⟩

end KripkeLogic.Access
