/-!
# Limits

Calls that go as deep as their arguments fail when too many are under way inside one another.
-/

namespace KripkeLogic

/-- So many calls may be under way inside one another, if there is a limit. -/
def Fits : Option Nat → Nat → Prop
  | none, _ => True
  | some n, depth => depth ≤ n

instance (limit : Option Nat) (depth : Nat) : Decidable (Fits limit depth) :=
  match limit with
  | none => inferInstanceAs (Decidable True)
  | some n => inferInstanceAs (Decidable (depth ≤ n))

theorem fits_none (depth : Nat) : Fits none depth := trivial

theorem fits_zero (limit : Option Nat) : Fits limit 0 := by
  cases limit with
  | none => trivial
  | some n => exact Nat.zero_le n

theorem fits_some_iff {n depth : Nat} : Fits (some n) depth ↔ depth ≤ n := Iff.rfl

theorem Fits.mono {limit : Option Nat} {d e : Nat} (h : Fits limit e) (hde : d ≤ e) :
    Fits limit d := by
  cases limit with
  | none => trivial
  | some n => exact Nat.le_trans hde h

theorem fits_max_iff {limit : Option Nat} {d e : Nat} :
    Fits limit (max d e) ↔ Fits limit d ∧ Fits limit e := by
  cases limit with
  | none => exact (and_self_iff (a := True)).symm
  | some n => exact Nat.max_le

/-- What stops a call though nothing is wrong with what it was given. -/
inductive Breakdown
  /-- An integer has too many digits to be shown. -/
  | longInteger
  | tooDeep
deriving DecidableEq

end KripkeLogic
