/-! # Assignments -/

namespace KripkeLogic

structure Assignment where
  names : List (List Char)
  sorted : names.Pairwise (· < ·)
deriving DecidableEq

namespace Assignment

theorem lt_of_not_lt_of_ne {x y : List Char} (h : ¬ x < y) (hne : x ≠ y) : y < x :=
  Decidable.byContradiction fun h' => hne (List.le_antisymm (List.not_lt.1 h') (List.not_lt.1 h))

def insertName (x : List Char) : List (List Char) → List (List Char)
  | [] => [x]
  | y :: ys => if x < y then x :: y :: ys else if x = y then y :: ys else y :: insertName x ys

theorem mem_insertName {x y : List Char} {ys : List (List Char)} :
    y ∈ insertName x ys ↔ y = x ∨ y ∈ ys := by
  induction ys with
  | nil => simp [insertName]
  | cons z zs ih =>
    simp only [insertName]
    split
    · simp
    · split
      · simp_all
      · simp only [List.mem_cons, ih]
        constructor
        · rintro (h | h | h) <;> simp [h]
        · rintro (h | h | h) <;> simp [h]

theorem pairwise_insertName {x : List Char} {ys : List (List Char)} (h : ys.Pairwise (· < ·)) :
    (insertName x ys).Pairwise (· < ·) := by
  induction ys with
  | nil => simp [insertName]
  | cons z zs ih =>
    obtain ⟨hz, hzs⟩ := List.pairwise_cons.1 h
    simp only [insertName]
    split
    · rename_i hx
      refine List.pairwise_cons.2 ⟨fun w hw => ?_, h⟩
      rcases List.mem_cons.1 hw with rfl | hw
      · exact hx
      · exact List.lt_trans hx (hz w hw)
    · split
      · exact h
      · rename_i hx hne
        refine List.pairwise_cons.2 ⟨fun w hw => ?_, ih hzs⟩
        rcases mem_insertName.1 hw with rfl | hw
        · exact lt_of_not_lt_of_ne hx hne
        · exact hz w hw

def empty : Assignment := ⟨[], .nil⟩

def insert (x : List Char) (a : Assignment) : Assignment :=
  ⟨insertName x a.names, pairwise_insertName a.sorted⟩

def erase (x : List Char) (a : Assignment) : Assignment :=
  ⟨a.names.filter (· ≠ x), a.sorted.filter _⟩

def ofList (xs : List (List Char)) : Assignment := xs.foldl (fun a x => a.insert x) empty

instance : Membership (List Char) Assignment := ⟨fun a x => x ∈ a.names⟩

instance (x : List Char) (a : Assignment) : Decidable (x ∈ a) :=
  inferInstanceAs (Decidable (x ∈ a.names))

theorem mem_def {x : List Char} {a : Assignment} : x ∈ a ↔ x ∈ a.names := Iff.rfl

@[simp] theorem not_mem_empty (x : List Char) : x ∉ empty := by simp [mem_def, empty]

@[simp] theorem mem_insert {x y : List Char} {a : Assignment} : y ∈ a.insert x ↔ y = x ∨ y ∈ a :=
  mem_insertName

@[simp] theorem mem_erase {x y : List Char} {a : Assignment} : y ∈ a.erase x ↔ y ∈ a ∧ y ≠ x := by
  simp [mem_def, erase]

theorem mem_ofList {xs : List (List Char)} {y : List Char} : y ∈ ofList xs ↔ y ∈ xs := by
  suffices h : ∀ a : Assignment,
      y ∈ xs.foldl (fun a x => a.insert x) a ↔ y ∈ a ∨ y ∈ xs by simpa [ofList] using h empty
  intro a
  induction xs generalizing a with
  | nil => simp
  | cons x xs ih => simp [ih, or_assoc, or_left_comm]

def subset (a b : Assignment) : Bool := a.names.all fun x => x ∈ b

theorem subset_iff {a b : Assignment} : a.subset b ↔ ∀ x ∈ a, x ∈ b := by
  simp [subset, mem_def]

end Assignment

end KripkeLogic
