/-! # Separated fields -/

namespace KripkeLogic.Text

def cut (c : Char) : List Char → List (List Char)
  | [] => [[]]
  | x :: xs =>
    if x = c then [] :: cut c xs
    else
      match cut c xs with
      | [] => [[x]]
      | f :: fs => (x :: f) :: fs

def join (c : Char) : List (List Char) → List Char
  | [] => []
  | [f] => f
  | f :: fs => f ++ c :: join c fs

def cutClosed? (c : Char) : List Char → Option (List (List Char))
  | [] => some []
  | x :: xs =>
    if x = c then (cutClosed? c xs).map ([] :: ·)
    else
      match cutClosed? c xs with
      | some (f :: fs) => some ((x :: f) :: fs)
      | _ => none

def cutLast? (c : Char) : List Char → Option (List Char × List Char)
  | [] => none
  | x :: xs =>
    match cutLast? c xs with
    | some (before, after) => some (x :: before, after)
    | none => if x = c then some ([], xs) else none

theorem cut_ne_nil (c : Char) (t : List Char) : cut c t ≠ [] := by
  fun_cases cut c t <;> simp

theorem cut_of_not_mem {c : Char} {f : List Char} (h : c ∉ f) : cut c f = [f] := by
  induction f with
  | nil => rfl
  | cons x xs ih =>
    simp only [List.mem_cons, not_or] at h
    simp [cut, Ne.symm h.1, ih h.2]

theorem cut_append {c : Char} {f t : List Char} (h : c ∉ f) :
    cut c (f ++ c :: t) = f :: cut c t := by
  induction f with
  | nil => simp [cut]
  | cons x xs ih =>
    simp only [List.mem_cons, not_or] at h
    simp [cut, Ne.symm h.1, ih h.2]

theorem join_cut (c : Char) (t : List Char) : join c (cut c t) = t := by
  induction t with
  | nil => rfl
  | cons x xs ih =>
    rcases h : cut c xs with _ | ⟨f, fs⟩
    · exact absurd h (cut_ne_nil c xs)
    · rw [h] at ih
      by_cases hx : x = c
      · simp [cut, hx, h, join, ih]
      · cases fs <;> simp_all [cut, join]

theorem cut_join {c : Char} {fs : List (List Char)} (h : fs ≠ []) (hc : ∀ f ∈ fs, c ∉ f) :
    cut c (join c fs) = fs := by
  induction fs with
  | nil => exact absurd rfl h
  | cons f fs ih =>
    simp only [List.mem_cons, forall_eq_or_imp] at hc
    cases fs with
    | nil => simpa [join] using cut_of_not_mem hc.1
    | cons g gs =>
      rw [join, cut_append hc.1, ih (by simp) hc.2]
      simp

theorem cutLast?_eq_none_iff {c : Char} {t : List Char} : cutLast? c t = none ↔ c ∉ t := by
  induction t with
  | nil => simp [cutLast?]
  | cons x xs ih =>
    rcases h : cutLast? c xs with _ | ⟨a, b⟩
    · simp [cutLast?, h, ih.1 h, eq_comm]
    · have : c ∈ xs := by
        rcases Decidable.em (c ∈ xs) with hm | hm
        · exact hm
        · rw [ih.2 hm] at h; cases h
      simp [cutLast?, h, this]

theorem cutLast?_eq_some_iff {c : Char} {t a b : List Char} :
    cutLast? c t = some (a, b) ↔ t = a ++ c :: b ∧ c ∉ b := by
  induction t generalizing a with
  | nil => simp [cutLast?]
  | cons x xs ih =>
    rcases h : cutLast? c xs with _ | ⟨a', b'⟩
    · have hn := cutLast?_eq_none_iff.1 h
      simp only [cutLast?, h, Option.ite_none_right_eq_some, Option.some.injEq, Prod.mk.injEq]
      constructor
      · rintro ⟨rfl, rfl, rfl⟩; exact ⟨rfl, hn⟩
      · rintro ⟨ht, hb⟩
        cases a with
        | nil => simp_all
        | cons y a =>
          simp only [List.cons_append, List.cons.injEq] at ht
          exact absurd (by simp [ht.2]) hn
    · simp only [cutLast?, h, Option.some.injEq, Prod.mk.injEq]
      constructor
      · rintro ⟨rfl, rfl⟩
        have := (ih (a := a')).1 h
        exact ⟨by simp [← this.1], this.2⟩
      · rintro ⟨ht, hb⟩
        cases a with
        | nil =>
          simp only [List.nil_append, List.cons.injEq] at ht
          have hn := cutLast?_eq_none_iff.2 hb
          rw [← ht.2, h] at hn; cases hn
        | cons y a =>
          simp only [List.cons_append, List.cons.injEq] at ht
          have := (ih (a := a)).2 ⟨ht.2, hb⟩
          rw [h] at this
          simp only [Option.some.injEq, Prod.mk.injEq] at this
          simp [ht.1, this.1, this.2]

end KripkeLogic.Text
