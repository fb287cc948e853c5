import KripkeLogic.Proofs.Model.History
import KripkeLogic.Proofs.Value

/-! # What updates prescribe -/

namespace KripkeLogic

open Outcome

namespace Updates

def Legal (pairs : List (Value × Value)) : Prop :=
  ∀ p ∈ pairs, ∃ x, p.1 = .text x ∧ isName x = true

def given? (pairs : List (Value × Value)) (x : List Char) : Option Value :=
  (pairs.find? fun p => p.1.same (.text x)).map Prod.snd

/-- Only a truth value decides on a variable. -/
def Decided (given : Option Value) (before : Prop) : Prop :=
  match given with
  | some (.bool b) => b = true
  | _ => before

/-- The variable is to be true at a state that has the assignment. The last value counts. -/
def Prescribes (pairs : List (Value × Value)) (a : Assignment) (x : List Char) : Prop :=
  Decided (given? pairs.reverse x) (x ∈ a)

/-! ## Entries -/

variable {us : Updates} {x y : List Char} {v : Value} {p : Value × Value}

theorem given?_cons_self (h : p.1 = .text x) : given? (p :: us) x = some p.2 := by
  have hsame : p.1.same (.text x) = true := Value.same_text.2 h
  simp only [given?, List.find?_cons, hsame, Option.map_some]

theorem given?_cons_of_ne (h : p.1 ≠ .text x) : given? (p :: us) x = given? us x := by
  have hsame : p.1.same (.text x) = false := by
    rw [← Bool.not_eq_true, Value.same_text]
    exact h
  simp only [given?, List.find?_cons, hsame]

theorem given?_append (us vs : Updates) (x : List Char) :
    given? (us ++ vs) x = (given? us x).or (given? vs x) := by
  unfold given?
  rw [List.find?_append]
  cases us.find? fun p => p.1.same (.text x) <;> rfl

theorem given?_eq_none (h : ∀ u ∈ us, u.1 ≠ .text x) : given? us x = none := by
  unfold given?
  rw [Option.map_eq_none_iff, List.find?_eq_none]
  intro u hu hsame
  exact h u hu (Value.same_text.1 hsame)

theorem given?_map {f : Value × Value → Value × Value} (hf : ∀ u, (f u).1 = u.1) :
    given? (us.map f) x = (us.find? fun u => u.1.same (.text x)).map fun u => (f u).2 := by
  unfold given?
  rw [List.find?_map, Option.map_map]
  simp only [Function.comp_def, hf]

/-! ## Names that are given again -/

theorem any_same_iff : (us.any fun u => u.1.same (.text y)) = true ↔ .text y ∈ us.map Prod.fst := by
  simp only [List.any_eq_true, Value.same_text, List.mem_map]

def replaced (y : List Char) (v : Value) (u : Value × Value) : Value × Value :=
  if u.1.same (.text y) then (u.1, v) else u

theorem fst_replaced (y : List Char) (v : Value) (u : Value × Value) : (replaced y v u).1 = u.1 := by
  unfold replaced
  split <;> rfl

theorem put_of_mem (h : .text y ∈ us.map Prod.fst) : put us (.text y) v = us.map (replaced y v) :=
  if_pos (any_same_iff.2 h)

theorem put_of_not_mem (h : .text y ∉ us.map Prod.fst) :
    put us (.text y) v = us ++ [(.text y, v)] :=
  if_neg fun hc => h (any_same_iff.1 hc)

theorem given?_put_self : given? (put us (.text x) v) x = some v := by
  by_cases h : .text x ∈ us.map Prod.fst
  · rw [put_of_mem h, given?_map (fst_replaced x v)]
    have hfound : (us.find? fun u => u.1.same (.text x)).isSome = true :=
      List.find?_isSome.2 (List.any_eq_true.1 (any_same_iff.2 h))
    obtain ⟨u, hu⟩ := Option.isSome_iff_exists.1 hfound
    have hsame := List.find?_some hu
    rw [hu, Option.map_some, replaced, if_pos hsame]
  · have hnone : ∀ u ∈ us, u.1 ≠ .text x := fun u hu hx => h (List.mem_map.2 ⟨u, hu, hx⟩)
    rw [put_of_not_mem h, given?_append, given?_eq_none hnone, Option.none_or, given?_cons_self rfl]

theorem given?_put_of_ne (hne : y ≠ x) : given? (put us (.text y) v) x = given? us x := by
  by_cases h : .text y ∈ us.map Prod.fst
  · rw [put_of_mem h, given?_map (fst_replaced y v), given?]
    apply Option.map_congr
    intro u hu
    have hsame := List.find?_some hu
    have hx : u.1 = .text x := Value.same_text.1 hsame
    rw [replaced, if_neg]
    rw [Value.same_text, hx]
    intro heq
    cases heq
    exact hne rfl
  · rw [put_of_not_mem h, given?_append, given?_cons_of_ne (fun heq => by cases heq; exact hne rfl)]
    cases given? us x <;> rfl

theorem nodup_put (h : (us.map Prod.fst).Nodup) : ((put us (.text y) v).map Prod.fst).Nodup := by
  by_cases hy : .text y ∈ us.map Prod.fst
  · rw [put_of_mem hy, List.map_map]
    simpa only [Function.comp_def, fst_replaced] using h
  · rw [put_of_not_mem hy, List.map_append]
    refine List.nodup_append.2 ⟨h, by simp, ?_⟩
    rintro w hw z hz rfl
    obtain rfl : w = .text y := List.mem_singleton.1 hz
    exact hy hw

theorem Legal.put (h : Legal us) (hy : isName y = true) : Legal (put us (.text y) v) := by
  intro u hu
  by_cases hmem : .text y ∈ us.map Prod.fst
  · rw [put_of_mem hmem] at hu
    obtain ⟨w, hw, rfl⟩ := List.mem_map.1 hu
    rw [fst_replaced]
    exact h w hw
  · rw [put_of_not_mem hmem, List.mem_append, List.mem_singleton] at hu
    rcases hu with hu | rfl
    · exact h u hu
    · exact ⟨y, rfl, hy⟩

theorem foldl_put {pairs : List (Value × Value)} (h : Legal pairs) (hus : Legal us)
    (hnodup : (us.map Prod.fst).Nodup) :
    let out := pairs.foldl (fun us p => Updates.put us p.1 p.2) us
    Legal out ∧ (out.map Prod.fst).Nodup ∧
      ∀ x, given? out x = (given? pairs.reverse x).or (given? us x) := by
  induction pairs generalizing us with
  | nil => exact ⟨hus, hnodup, fun x => rfl⟩
  | cons p pairs ih =>
    obtain ⟨⟨y, hp, hy⟩, hpairs⟩ := List.forall_mem_cons.1 h
    obtain ⟨name, v⟩ := p
    obtain rfl : name = .text y := hp
    obtain ⟨hlegal, hdistinct, hentry⟩ := ih hpairs (hus.put hy) (nodup_put hnodup)
    refine ⟨hlegal, hdistinct, fun x => ?_⟩
    rw [List.foldl_cons, hentry, List.reverse_cons, given?_append, Option.or_assoc]
    by_cases hx : y = x
    · subst hx
      rw [given?_put_self, given?_cons_self rfl, Option.some_or]
    · rw [given?_put_of_ne hx, given?_cons_of_ne (fun heq => by cases heq; exact hx rfl)]
      rfl

theorem ofList_eq_ok {pairs : List (Value × Value)} (h : Legal pairs) :
    ∃ us, ofList pairs = .ok us ∧ Legal us ∧ (us.map Prod.fst).Nodup ∧
      ∀ x, given? us x = given? pairs.reverse x := by
  have hkeys : (pairs.all fun p => p.1.isKey) = true := by
    rw [List.all_eq_true]
    intro p hp
    obtain ⟨x, hx, -⟩ := h p hp
    rw [hx]
    rfl
  have hnil : Legal [] := fun p hp => by cases hp
  obtain ⟨hlegal, hdistinct, hentry⟩ := foldl_put h hnil List.nodup_nil
  refine ⟨_, if_pos hkeys, hlegal, hdistinct, fun x => ?_⟩
  rw [hentry]
  exact Option.or_none

/-! ## What is carried out -/

theorem check_eq_ok (h : Legal us) : ∃ ups, us.check = .ok ups := by
  induction us with
  | nil => exact ⟨[], rfl⟩
  | cons u us ih =>
    obtain ⟨⟨y, hu, hy⟩, hus⟩ := List.forall_mem_cons.1 h
    obtain ⟨name, v⟩ := u
    obtain rfl : name = .text y := hu
    obtain ⟨ups, hups⟩ := ih hus
    rw [check, if_pos hy, hups, ok_bind]
    split
    · exact ⟨_, rfl⟩
    · exact ⟨_, rfl⟩

def decision (y : List Char) : Value → List (List Char × Bool)
  | .bool b => [(y, b)]
  | _ => []

theorem check_cons_eq_ok {ups : List (List Char × Bool)} (h : check (p :: us) = .ok ups) :
    ∃ y rest, p.1 = .text y ∧ isName y = true ∧ check us = .ok rest ∧
      ups = decision y p.2 ++ rest := by
  obtain ⟨name, v⟩ := p
  unfold check at h
  split at h
  · rename_i y
    split at h
    · rename_i hy
      obtain ⟨rest, hrest, h⟩ := bind_eq_ok_iff.1 h
      refine ⟨y, rest, rfl, hy, hrest, ?_⟩
      split at h
      · cases h
        rfl
      · rename_i hv
        cases h
        cases v with
        | bool b => exact absurd rfl (hv b)
        | _ => rfl
    · cases h
  · cases h

theorem mem_update_decision (a : Assignment) :
    x ∈ a.update (decision y v) ↔ if y = x then Decided (some v) (x ∈ a) else x ∈ a := by
  cases v with
  | bool b =>
    by_cases h : y = x
    · subst h
      cases b <;> simp [decision, Assignment.update, Decided]
    · cases b <;> simp [decision, Assignment.update, h, Ne.symm h]
  | _ => simp [decision, Assignment.update, Decided]

theorem mem_update_iff {ups : List (List Char × Bool)} (hus : us.check = .ok ups)
    (hnodup : (us.map Prod.fst).Nodup) (a : Assignment) :
    x ∈ a.update ups ↔ Decided (given? us x) (x ∈ a) := by
  induction us generalizing ups a with
  | nil =>
    cases hus
    rfl
  | cons u us ih =>
    obtain ⟨y, rest, hu, -, hrest, rfl⟩ := check_cons_eq_ok hus
    rw [List.map_cons, List.nodup_cons] at hnodup
    obtain ⟨hfresh, hnodup⟩ := hnodup
    have happend : a.update (decision y u.2 ++ rest) = (a.update (decision y u.2)).update rest :=
      List.foldl_append
    rw [happend, ih hrest hnodup, mem_update_decision]
    by_cases hx : y = x
    · subst hx
      have hnone : given? us y = none := by
        apply given?_eq_none
        intro w hw hy
        exact hfresh (List.mem_map.2 ⟨w, hw, hy.trans hu.symm⟩)
      rw [hnone, given?_cons_self hu, if_pos rfl]
      rfl
    · have hne : u.1 ≠ .text x := by
        rw [hu]
        intro heq
        cases heq
        exact hx rfl
      rw [given?_cons_of_ne hne, if_neg hx]

/-! ## Names that are not given -/

theorem name_of_mem_put {name : Value} (h : p ∈ put us name v) :
    p.1 = name ∨ ∃ u ∈ us, u.1 = p.1 := by
  unfold put at h
  split at h
  · obtain ⟨u, hu, rfl⟩ := List.mem_map.1 h
    refine Or.inr ⟨u, hu, ?_⟩
    split <;> rfl
  · rcases List.mem_append.1 h with h | h
    · exact Or.inr ⟨p, h, rfl⟩
    · rw [List.mem_singleton.1 h]
      exact Or.inl rfl

theorem name_of_mem_foldl_put {pairs : List (Value × Value)}
    (h : p ∈ pairs.foldl (fun us p => put us p.1 p.2) us) :
    (∃ u ∈ us, u.1 = p.1) ∨ ∃ u ∈ pairs, u.1 = p.1 := by
  induction pairs generalizing us with
  | nil => exact Or.inl ⟨p, h, rfl⟩
  | cons r pairs ih =>
    rcases ih h with ⟨u, hu, heq⟩ | ⟨u, hu, heq⟩
    · rcases name_of_mem_put hu with hname | ⟨w, hw, hname⟩
      · exact Or.inr ⟨r, List.mem_cons_self, hname.symm.trans heq⟩
      · exact Or.inl ⟨w, hw, hname.trans heq⟩
    · exact Or.inr ⟨u, List.mem_cons_of_mem _ hu, heq⟩

theorem name_of_ofList {pairs : List (Value × Value)} (h : ofList pairs = .ok us) (hp : p ∈ us) :
    ∃ u ∈ pairs, u.1 = p.1 := by
  unfold ofList at h
  split at h
  · cases h
    refine (name_of_mem_foldl_put hp).resolve_left ?_
    rintro ⟨u, hu, -⟩
    cases hu
  · cases h

theorem mem_update_of_ne {ups : List (List Char × Bool)} (hus : us.check = .ok ups)
    (hx : ∀ u ∈ us, u.1 ≠ .text x) (a : Assignment) : x ∈ a.update ups ↔ x ∈ a := by
  induction us generalizing ups a with
  | nil =>
    cases hus
    rfl
  | cons u us ih =>
    obtain ⟨y, rest, hu, -, hrest, rfl⟩ := check_cons_eq_ok hus
    obtain ⟨hfirst, hothers⟩ := List.forall_mem_cons.1 hx
    have happend : a.update (decision y u.2 ++ rest) = (a.update (decision y u.2)).update rest :=
      List.foldl_append
    have hne : y ≠ x := fun heq => hfirst (hu.trans (congrArg Value.text heq))
    rw [happend, ih hrest hothers, mem_update_decision, if_neg hne]

end Updates

end KripkeLogic
