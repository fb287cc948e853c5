import KripkeLogic.Model.Assignment
import KripkeLogic.Model.EdgeKind
import KripkeLogic.Proofs.Record
import Mathlib.Data.List.Dedup

/-! # Normal forms of records -/

namespace KripkeLogic

namespace Record

def sortedNames (xs : List (List Char)) : List (List Char) :=
  xs.dedup.mergeSort fun x y => !decide (y < x)

namespace Draft

def targets (d : Draft) : EdgeKind → List (List Char)
  | .preorder => d.preorders
  | .relation => d.relations

/-- The indices of a kind, each where it comes first. The loop of slot `i` is last if it is not
listed. -/
def successors (i : Nat) (d : Draft) (k : EdgeKind) : List Nat :=
  let ts := ((d.targets k).map Text.decimalValue).eraseDups
  if k = .preorder ∧ i ∉ ts then ts ++ [i] else ts

def normal (i : Nat) (d : Draft) : Draft where
  names := sortedNames d.names
  preorders := (d.successors i .preorder).map (Nat.toDigits 10)
  relations := (d.successors i .relation).map (Nat.toDigits 10)

end Draft

def normal (ds : List (Option Draft)) : List (Option Draft) :=
  ds.mapIdx fun i o => o.map (Draft.normal i)

/-! ## Names -/

theorem pairwise_sortedNames (xs : List (List Char)) : (sortedNames xs).Pairwise (· < ·) := by
  have hsorted : (sortedNames xs).Pairwise fun x y => (!decide (y < x)) = true := by
    refine List.pairwise_mergeSort (fun x y z hxy hyz => ?_) (fun x y => ?_) _
    · simp only [Bool.not_eq_true', decide_eq_false_iff_not, List.not_lt] at hxy hyz ⊢
      exact List.le_trans hxy hyz
    · simp only [Bool.or_eq_true, Bool.not_eq_true', decide_eq_false_iff_not, List.not_lt]
      exact List.le_total x y
  have hnodup : (sortedNames xs).Nodup := by
    rw [sortedNames, (List.mergeSort_perm _ _).nodup_iff]
    exact List.nodup_dedup xs
  refine (hsorted.and hnodup).imp fun {x y} h => ?_
  obtain ⟨hle, hne⟩ := h
  rw [Bool.not_eq_true', decide_eq_false_iff_not] at hle
  exact Assignment.lt_of_not_lt_of_ne hle hne.symm

theorem mem_sortedNames {x : List Char} {xs : List (List Char)} : x ∈ sortedNames xs ↔ x ∈ xs := by
  rw [sortedNames, List.mem_mergeSort, List.mem_dedup]

/-! ## Records -/

variable {ds : List (Option Draft)} {i : Nat} {d : Draft} {k : EdgeKind}

theorem value_normal (i : Nat) (d : Draft) : (d.normal i).value =
    ⟨sortedNames d.names, (d.successors i .preorder).map Int.ofNat,
      (d.successors i .relation).map Int.ofNat⟩ := by
  have hread : ∀ ts : List Nat, (ts.map (Nat.toDigits 10)).map
      (fun x => (Text.decimalValue x : Int)) = ts.map Int.ofNat := by
    intro ts
    rw [List.map_map]
    exact List.map_congr_left fun t _ => congrArg Int.ofNat (Text.decimalValue_toDigits t)
  rw [Draft.value, Draft.normal, hread, hread]

theorem drafted_value_normal (i : Nat) (d : Draft) : (d.normal i).value.drafted = d.normal i := by
  have hwrite : ∀ ts : List Nat, (ts.map Int.ofNat).map writeIndex = ts.map (Nat.toDigits 10) :=
    map_writeIndex id
  rw [value_normal, drafted, hwrite, hwrite, Draft.normal]

theorem getElem?_normal (ds : List (Option Draft)) (i : Nat) :
    (normal ds)[i]? = (ds[i]?).map (Option.map (Draft.normal i)) :=
  List.getElem?_mapIdx

theorem encode_values_normal (ds : List (Option Draft)) :
    encode (values (normal ds)) = textOf (normal ds) := by
  rw [encode_eq_textOf, values, List.map_map]
  refine congrArg textOf (List.ext_getElem? fun i => ?_)
  rw [List.getElem?_map, getElem?_normal, Option.map_map]
  refine Option.map_congr fun o _ => ?_
  cases o with
  | none => rfl
  | some d => exact congrArg some (drafted_value_normal i d)

theorem legal_normal (h : d.Legal) (i : Nat) : (d.normal i).Legal :=
  ⟨fun x hx => h.names x (mem_sortedNames.1 hx), isIndex_of_mem_map id _, isIndex_of_mem_map id _⟩

theorem follows_normal {text : List Char} (h : Follows text ds) :
    Follows (textOf (normal ds)) (normal ds) := by
  refine ⟨fun d hd => ?_, rfl⟩
  obtain ⟨i, hi⟩ := List.mem_iff_getElem?.1 hd
  rw [getElem?_normal, Option.map_eq_some_iff] at hi
  obtain ⟨o, ho, hod⟩ := hi
  obtain ⟨d', rfl, rfl⟩ := Option.map_eq_some_iff.1 hod
  exact legal_normal (h.legal d' (List.mem_of_getElem? ho)) i

/-! ## Indices -/

theorem mem_successors_iff {t : Nat} : t ∈ d.successors i k ↔
    (∃ x ∈ d.targets k, Text.decimalValue x = t) ∨ (k = .preorder ∧ t = i) := by
  have hlisted : t ∈ ((d.targets k).map Text.decimalValue).eraseDups ↔
      ∃ x ∈ d.targets k, Text.decimalValue x = t := by
    rw [List.mem_eraseDups, List.mem_map]
  rw [← hlisted]
  simp only [Draft.successors]
  split
  · rename_i hk
    simp [hk.1]
  · rename_i hk
    rw [not_and, not_not] at hk
    constructor
    · exact Or.inl
    · rintro (ht | ⟨hpreorder, rfl⟩)
      · exact ht
      · exact hk hpreorder

theorem mem_indices {x : List Char} :
    x ∈ indices ds ↔ ∃ (i : Nat) (d : Draft), ds[i]? = some (some d) ∧ ∃ k, x ∈ d.targets k := by
  have hkinds : ∀ d : Draft, x ∈ d.indices ↔ ∃ k, x ∈ d.targets k := fun d => by
    rw [Draft.indices, List.mem_append]
    constructor
    · rintro (h | h)
      · exact ⟨.preorder, h⟩
      · exact ⟨.relation, h⟩
    · rintro ⟨_ | _, h⟩
      · exact Or.inl h
      · exact Or.inr h
  simp only [mem_indices_iff, ← hkinds]
  constructor
  · rintro ⟨d, hd, hx⟩
    obtain ⟨i, hi⟩ := List.mem_iff_getElem?.1 hd
    exact ⟨i, d, hi, hx⟩
  · rintro ⟨i, d, hd, hx⟩
    exact ⟨d, List.mem_of_getElem? hd, hx⟩

theorem targets_normal (i : Nat) (d : Draft) (k : EdgeKind) :
    (d.normal i).targets k = (d.successors i k).map (Nat.toDigits 10) := by
  cases k <;> rfl

theorem short_normal_iff (hshort : ∀ x ∈ indices ds, x.length ≤ digitLimit) :
    (∀ x ∈ indices (normal ds), x.length ≤ digitLimit) ↔
      ∀ (i : Nat) (d : Draft), ds[i]? = some (some d) → i < Nat.pow 10 digitLimit := by
  have hpos : 0 < digitLimit := by decide
  constructor
  · intro h i d hd
    have hnormal : (normal ds)[i]? = some (some (d.normal i)) := by
      rw [getElem?_normal, hd]
      rfl
    have hloop : Nat.toDigits 10 i ∈ (d.normal i).targets .preorder := by
      rw [targets_normal]
      exact List.mem_map_of_mem (mem_successors_iff.2 (Or.inr ⟨rfl, rfl⟩))
    exact (Text.length_toDigits_le_iff hpos).1
      (h _ (mem_indices.2 ⟨i, d.normal i, hnormal, .preorder, hloop⟩))
  · intro h x hx
    obtain ⟨i, d', hd', k, hx⟩ := mem_indices.1 hx
    rw [getElem?_normal, Option.map_eq_some_iff] at hd'
    obtain ⟨o, hd, hod⟩ := hd'
    obtain ⟨d, rfl, rfl⟩ := Option.map_eq_some_iff.1 hod
    rw [targets_normal] at hx
    obtain ⟨t, ht, rfl⟩ := List.mem_map.1 hx
    rw [Text.length_toDigits_le_iff hpos]
    rcases mem_successors_iff.1 ht with ⟨y, hy, rfl⟩ | ⟨-, rfl⟩
    · exact Text.decimalValue_lt_of_length_le (hshort y (mem_indices.2 ⟨i, d, hd, k, hy⟩))
    · exact h _ d hd

end Record

end KripkeLogic
