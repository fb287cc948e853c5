import KripkeLogic.Proofs.Outcome
import KripkeLogic.Value

/-! # Equality, order and display of values -/

namespace KripkeLogic.Value

/-! ## Equality by meaning -/

theorem same_text {v : Value} {x : List Char} : v.same (.text x) = true ↔ v = .text x := by
  cases v with
  | text cs => simp [same]
  | real r =>
    cases h : r.toInt? <;> simp [same, sameNumber, toInt?, h]
  | _ => simp [same, sameNumber, toInt?]

theorem same_int {n : Int} {v : Value} : (Value.int n).same v = true ↔ v.toInt? = some n := by
  have h : (Value.int n).same v = ((int n).toInt?.isSome && (int n).toInt? == v.toInt?) := by
    cases v <;> simp only [same, sameNumber]
  rw [h, toInt?, Option.isSome_some, Bool.true_and, beq_iff_eq, eq_comm]

theorem exists_int {v : Value} (h : v.kind = .int) : ∃ n, v = .int n := by
  cases v <;> first | exact ⟨_, rfl⟩ | cases h

theorem same_field {k l : List Char} {v w : Value} :
    (Value.object [(k, v)]).same (.object [(l, w)]) = true ↔ k = l ∧ v.same w = true := by
  by_cases h : k = l
  · subst h
    simp [same, sameFields]
  · simp [same, sameFields, List.lookup_cons, beq_false_of_ne h, h]

theorem same_pair {v v' w w' : Value} :
    (Value.list [v, v']).same (.list [w, w']) = true ↔ v.same w = true ∧ v'.same w' = true := by
  simp [same, sameItems]

/-! ## Sorting texts -/

theorem insertSorted?_text (x : List Char) {ws : List Value} (h : ∀ w ∈ ws, ∃ y, w = .text y) :
    ∃ out, insertSorted? (.text x) ws = some out ∧ ∀ v, v ∈ out ↔ v = .text x ∨ v ∈ ws := by
  induction ws with
  | nil => exact ⟨[.text x], rfl, fun v => by simp⟩
  | cons w ws ih =>
    obtain ⟨⟨y, rfl⟩, hws⟩ := List.forall_mem_cons.1 h
    obtain ⟨out, hout, hmem⟩ := ih hws
    by_cases hxy : x = y
    · refine ⟨.text y :: ws, ?_, fun v => by simp [hxy]⟩
      simp [insertSorted?, same, hxy]
    · by_cases hlt : x < y
      · refine ⟨.text x :: .text y :: ws, ?_, fun v => by simp⟩
        simp [insertSorted?, same, hxy, precedes?, hlt]
      · refine ⟨.text y :: out, ?_, fun v => ?_⟩
        · simp [insertSorted?, same, hxy, precedes?, hlt, hout]
        · simp only [List.mem_cons, hmem, or_left_comm]

theorem sortDistinct?_texts (xs : List (List Char)) :
    ∃ out, sortDistinct? (xs.map .text) = some out ∧ ∀ v, v ∈ out ↔ ∃ x ∈ xs, v = .text x := by
  suffices h : ∀ ws : List Value, (∀ w ∈ ws, ∃ y, w = .text y) →
      ∃ out, (xs.map Value.text).foldlM (fun sorted v => insertSorted? v sorted) ws = some out ∧
        ∀ v, v ∈ out ↔ (∃ x ∈ xs, v = .text x) ∨ v ∈ ws by
    simpa [sortDistinct?] using h [] (by simp)
  induction xs with
  | nil => exact fun ws _ => ⟨ws, rfl, by simp⟩
  | cons x xs ih =>
    intro ws hws
    obtain ⟨next, hnext, hmem⟩ := insertSorted?_text x hws
    have htexts : ∀ w ∈ next, ∃ y, w = .text y := by
      intro w hw
      rcases (hmem w).1 hw with rfl | hw
      · exact ⟨x, rfl⟩
      · exact hws w hw
    obtain ⟨out, hout, hall⟩ := ih next htexts
    refine ⟨out, ?_, fun v => ?_⟩
    · rw [List.map_cons, List.foldlM_cons, hnext]
      exact hout
    · simp only [hall, hmem, List.exists_mem_cons_iff, or_assoc, or_left_comm]

/-! ## Display -/

mutual

def levels : Value → Nat
  | list items => levelsItems items + 1
  | object fields => levelsFields fields + 1
  | _ => 1

def levelsItems : List Value → Nat
  | [] => 0
  | v :: vs => max (levels v) (levelsItems vs)

def levelsFields : List (List Char × Value) → Nat
  | [] => 0
  | (_, v) :: fields => max (levels v) (levelsFields fields)

end

mutual

def integers : Value → List Int
  | int n => [n]
  | list items => integersItems items
  | object fields => integersFields fields
  | _ => []

def integersItems : List Value → List Int
  | [] => []
  | v :: vs => integers v ++ integersItems vs

def integersFields : List (List Char × Value) → List Int
  | [] => []
  | (_, v) :: fields => integers v ++ integersFields fields

end

/-- Some of the integers has more digits than are shown. -/
def TooLong (ns : List Int) : Prop := ∃ n ∈ ns, showInt n = .error .longInteger

theorem tooLong_append_iff {ms ns : List Int} : TooLong (ms ++ ns) ↔ TooLong ms ∨ TooLong ns := by
  simp only [TooLong, List.mem_append, or_and_right, exists_or]

open Outcome

theorem levels_pos (v : Value) : 0 < v.levels := by
  cases v <;> exact Nat.succ_pos _

mutual

theorem limited_display (v : Value) (limit : Option Nat) (depth depth' : Nat) :
    Limited limit (depth + v.levels) .tooDeep (v.display limit depth) (v.display none depth') := by
  by_cases hfits : Fits limit (depth + 1)
  · match v with
    | null | bool b | int n | real x | text cs =>
      left
      rw [display, display, if_pos hfits, if_pos (fits_none _)]
    | list items =>
      rw [display, display, if_pos hfits, if_pos (fits_none _)]
      have hitems := limited_displayItems items limit (depth + 1) (depth' + 1)
      exact (hitems.bind fun _ => .refl _).mono (by simp only [levels]; omega)
    | object fields =>
      rw [display, display, if_pos hfits, if_pos (fits_none _)]
      have hfields := limited_displayFields fields limit (depth + 1) (depth' + 1)
      exact (hfields.bind fun _ => .refl _).mono (by simp only [levels]; omega)
  · have hpos := v.levels_pos
    refine Or.inr ⟨?_, fun h => hfits (h.mono (by omega))⟩
    unfold display
    exact if_neg hfits

theorem limited_displayItems (vs : List Value) (limit : Option Nat) (depth depth' : Nat) :
    Limited limit (depth + levelsItems vs) .tooDeep (displayItems vs limit depth)
      (displayItems vs none depth') := by
  match vs with
  | [] => exact Or.inl rfl
  | v :: vs =>
    have hv := limited_display v limit depth depth'
    have hvs := limited_displayItems vs limit depth depth'
    rw [displayItems, displayItems, levelsItems]
    exact (hv.mono (by omega)).bind fun _ => (hvs.mono (by omega)).bind fun _ => .refl _

theorem limited_displayFields (fields : List (List Char × Value)) (limit : Option Nat)
    (depth depth' : Nat) : Limited limit (depth + levelsFields fields) .tooDeep
      (displayFields fields limit depth) (displayFields fields none depth') := by
  match fields with
  | [] => exact Or.inl rfl
  | (key, v) :: fields =>
    have hv := limited_display v limit depth depth'
    have hfields := limited_displayFields fields limit depth depth'
    rw [displayFields, displayFields, levelsFields]
    exact (hv.mono (by omega)).bind fun _ => (hfields.mono (by omega)).bind fun _ => .refl _

end

/-! ### Without a limit -/

theorem showInt_eq_error_iff {n : Int} {b : Breakdown} :
    showInt n = .error b ↔ b = .longInteger ∧ showInt n = .error .longInteger := by
  unfold showInt
  split
  · exact ⟨fun h => ⟨(Except.error.inj h).symm, rfl⟩, fun h => by rw [h.1]⟩
  · exact iff_of_false (fun h => by cases h) fun h => by cases h.2

theorem showInt_of_le {n : Nat} (h : Nat.pow 10 digitLimit ≤ n) :
    showInt (Int.ofNat n) = .error .longInteger := if_pos h

theorem showInt_pow : showInt (Int.ofNat (Nat.pow 10 digitLimit)) = .error .longInteger :=
  showInt_of_le (Nat.le_refl (Nat.pow 10 digitLimit))

mutual

/-- Without a limit nothing but a long integer keeps a value from being shown. -/
theorem display_eq_error_iff (v : Value) (depth : Nat) (b : Breakdown) :
    v.display none depth = .error b ↔ b = .longInteger ∧ TooLong v.integers := by
  match v with
  | null | bool b' | real x | text cs =>
    rw [display, if_pos (fits_none _)]
    simp [integers, TooLong]
  | int n =>
    rw [display, if_pos (fits_none _), showInt_eq_error_iff]
    simp only [integers, TooLong, List.mem_singleton, exists_eq_left]
  | list items =>
    rw [display, if_pos (fits_none _), integers, ← displayItems_eq_error_iff items (depth + 1)]
    exact bind_pure_eq_error_iff
  | object fields =>
    rw [display, if_pos (fits_none _), integers, ← displayFields_eq_error_iff fields (depth + 1)]
    exact bind_pure_eq_error_iff

theorem displayItems_eq_error_iff (vs : List Value) (depth : Nat) (b : Breakdown) :
    displayItems vs none depth = .error b ↔ b = .longInteger ∧ TooLong (integersItems vs) := by
  match vs with
  | [] => simp [displayItems, integersItems, TooLong]
  | v :: vs =>
    rw [displayItems, integersItems, tooLong_append_iff]
    exact sequence_eq_error_iff (display_eq_error_iff v depth) (displayItems_eq_error_iff vs depth) b

theorem displayFields_eq_error_iff (fields : List (List Char × Value)) (depth : Nat)
    (b : Breakdown) : displayFields fields none depth = .error b ↔
      b = .longInteger ∧ TooLong (integersFields fields) := by
  match fields with
  | [] => simp [displayFields, integersFields, TooLong]
  | (key, v) :: fields =>
    rw [displayFields, integersFields, tooLong_append_iff]
    exact sequence_eq_error_iff (display_eq_error_iff v depth)
      (displayFields_eq_error_iff fields depth) b

end

end KripkeLogic.Value
