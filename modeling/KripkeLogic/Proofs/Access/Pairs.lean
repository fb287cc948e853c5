import KripkeLogic.Proofs.Access.Closure
import Mathlib.Data.List.Basic
import Mathlib.Tactic.Tauto

/-!
# Pairs of indices

A relation is made from pairs of indices and gives its pairs back.
-/

namespace KripkeLogic

/-! ## The library -/

namespace Indexing

def Words (p : Int × Int) : Prop := isWord p.1 = true ∧ isWord p.2 = true

def unpack (w : Int64 × Int64) : Int × Int := (w.1.toInt, w.2.toInt)

/-- What is known of the library. Packing keeps the numbers or fails. Entries are set pair by pair,
and an index means the same item as in any other sequence. -/
structure Lawful (lib : Indexing) : Prop where
  pack_words : ∀ pairs, (∀ p ∈ pairs, Words p) →
    ∃ packed, lib.pack pairs = .ok packed ∧ packed.map unpack = pairs
  pack_large : ∀ pairs, ∀ p ∈ pairs, ¬ Words p → lib.pack pairs = .error .overflow
  assign_nil : ∀ n A, lib.assign n A [] = .ok A
  assign_cons : ∀ n A s t i j packed, item? n s.toInt = some i → item? n t.toInt = some j →
    lib.assign n A ((s, t) :: packed) = lib.assign n (A.insert (i, j)) packed
  assign_outside : ∀ n A packed, ∀ w ∈ packed, item? n w.1.toInt = none ∨ item? n w.2.toInt = none →
    lib.assign n A packed = .error .badIndex

variable {n : Nat}

theorem unpack_pack {p : Int × Int} (h : Words p) :
    unpack (Int64.ofInt p.1, Int64.ofInt p.2) = p := by
  simp only [Words, isWord, Bool.and_eq_true, decide_eq_true_eq] at h
  simp only [unpack]
  rw [Int64.toInt_ofInt_of_le (by omega) (by omega), Int64.toInt_ofInt_of_le (by omega) (by omega)]

theorem assignItems_outside (A : Access n) {packed : List (Int64 × Int64)}
    (h : ∃ w ∈ packed, item? n w.1.toInt = none ∨ item? n w.2.toInt = none) :
    assignItems n A packed = .error .badIndex := by
  fun_induction assignItems n A packed with
  | case1 A => simp at h
  | case2 A s t packed i j hj hi ih =>
    refine ih (((List.exists_mem_cons_iff _ _ _).1 h).resolve_left ?_)
    simp only [hi, hj, reduceCtorEq, or_self, not_false_eq_true]
  | case3 A s t packed hnone => rfl

theorem lawful_standard : standard.Lawful where
  pack_words pairs h := by
    have hall : (pairs.all fun p => isWord p.1 && isWord p.2) = true := by
      simpa [Words] using h
    refine ⟨_, if_pos hall, ?_⟩
    rw [List.map_map]
    exact (List.map_congr_left fun p hp => unpack_pack (h p hp)).trans (List.map_id _)
  pack_large pairs p hp hlarge := by
    refine if_neg fun hall => hlarge ?_
    simpa [Words] using List.all_eq_true.1 hall p hp
  assign_nil n A := rfl
  assign_cons n A s t i j packed hi hj := by
    simp only [standard, assignItems, hi, hj]
  assign_outside n A packed w hw h := assignItems_outside A ⟨w, hw, h⟩

end Indexing

namespace Access

open Indexing

variable {n : Nat}

/-! ## Indices -/

/-- No world has the index. -/
def Outside (n : Nat) (c : Int) : Prop := c < -n ∨ n ≤ c

/-- The index from the start that means the same world. -/
def fromStart (n : Nat) (c : Int) : Int := if c < 0 then c + n else c

theorem item?_eq_none_iff {c : Int} : item? n c = none ↔ Outside n c := by
  unfold item? Outside
  split
  · simp only [reduceCtorEq, false_iff]
    omega
  · split
    · simp only [reduceCtorEq, false_iff]
      omega
    · simp only [true_iff]
      omega

theorem item?_eq_some_iff {c : Int} {i : Fin n} : item? n c = some i ↔ fromStart n c = i := by
  have hi := i.isLt
  unfold item? fromStart
  split
  · simp only [Option.some.injEq, Fin.ext_iff]
    split <;> omega
  · split
    · simp only [Option.some.injEq, Fin.ext_iff]
      split <;> omega
    · simp only [reduceCtorEq, false_iff]
      split <;> omega

theorem exists_item?_iff {c : Int} : (∃ i, item? n c = some i) ↔ ¬ Outside n c := by
  rw [← item?_eq_none_iff, ← Option.ne_none_iff_exists']

/-! ## Lists of pairs -/

def OutsidePair (n : Nat) (p : Int × Int) : Prop := Outside n p.1 ∨ Outside n p.2

/-- The pair means the worlds `s` and `t`. -/
def Means (n : Nat) (p : Int × Int) (s t : Nat) : Prop :=
  fromStart n p.1 = s ∧ fromStart n p.2 = t

variable {lib : Indexing} {p : Int × Int} {pairs : List (Int × Int)} {A : Access n}

theorem lt_of_means {s t : Nat} (hin : ¬ OutsidePair n p) (h : Means n p s t) : s < n ∧ t < n := by
  simp only [OutsidePair, Outside] at hin
  simp only [Means, fromStart] at h
  constructor <;> split at h <;> omega

theorem exists_assign (h : lib.Lawful) {packed : List (Int64 × Int64)}
    (hinside : ∀ w ∈ packed, ¬ OutsidePair n (unpack w)) (A : Access n) :
    ∃ B, lib.assign n A packed = .ok B ∧ ∀ i j : Fin n, B.holds i j = true ↔
      A.holds i j = true ∨ ∃ w ∈ packed, Means n (unpack w) i j := by
  induction packed generalizing A with
  | nil => exact ⟨A, h.assign_nil n A, by simp⟩
  | cons w packed ih =>
    obtain ⟨hw, hrest⟩ := List.forall_mem_cons.1 hinside
    rw [OutsidePair, not_or, ← exists_item?_iff, ← exists_item?_iff] at hw
    obtain ⟨⟨i, hi⟩, ⟨j, hj⟩⟩ := hw
    obtain ⟨B, hB, hholds⟩ := ih hrest (A.insert (i, j))
    refine ⟨B, (h.assign_cons n A _ _ i j packed hi hj).trans hB, fun i' j' => ?_⟩
    have hhead : Means n (unpack w) i' j' ↔ (i', j') = (i, j) := by
      rw [Means, item?_eq_some_iff.1 hi, item?_eq_some_iff.1 hj, Prod.mk.injEq, Fin.ext_iff,
        Fin.ext_iff]
      omega
    rw [hholds, List.exists_mem_cons_iff, hhead, holds_insert, Bool.or_eq_true, beq_iff_eq, or_assoc]

theorem assign_of_outside (h : lib.Lawful) {packed : List (Int64 × Int64)}
    (houtside : ∃ w ∈ packed, OutsidePair n (unpack w)) (A : Access n) :
    lib.assign n A packed = .error .badIndex := by
  obtain ⟨w, hw, hout⟩ := houtside
  rw [OutsidePair, ← item?_eq_none_iff, ← item?_eq_none_iff] at hout
  exact h.assign_outside n A packed w hw hout

/-! ## Relations -/

theorem ofPairs_large (h : lib.Lawful) (hp : p ∈ pairs) (hlarge : ¬ Words p) :
    ofPairs lib n pairs = .error .overflow := by
  have hne : pairs.isEmpty = false := List.isEmpty_eq_false_iff_exists_mem.2 ⟨p, hp⟩
  rw [ofPairs, hne, h.pack_large pairs p hp hlarge]
  rfl

theorem ofPairs_eq_assign (h : lib.Lawful) (hwords : ∀ p ∈ pairs, Words p) :
    ∃ packed, packed.map unpack = pairs ∧
      ofPairs lib n pairs = lib.assign n (empty n) packed := by
  cases pairs with
  | nil => exact ⟨[], rfl, (h.assign_nil n (empty n)).symm⟩
  | cons p pairs =>
    obtain ⟨packed, hpack, hmap⟩ := h.pack_words _ hwords
    refine ⟨packed, hmap, ?_⟩
    rw [ofPairs, List.isEmpty_cons, hpack]
    rfl

theorem ofPairs_outside (h : lib.Lawful) (hwords : ∀ p ∈ pairs, Words p)
    (houtside : ∃ p ∈ pairs, OutsidePair n p) : ofPairs lib n pairs = .error .badIndex := by
  obtain ⟨packed, rfl, hassign⟩ := ofPairs_eq_assign (n := n) h hwords
  simp only [List.mem_map, exists_exists_and_eq_and] at houtside
  rw [hassign, assign_of_outside h houtside]

theorem exists_ofPairs (h : lib.Lawful) (hwords : ∀ p ∈ pairs, Words p)
    (hinside : ∀ p ∈ pairs, ¬ OutsidePair n p) : ∃ A, ofPairs lib n pairs = .ok A ∧
      ∀ s t, (s, t) ∈ A.edges ↔ ∃ p ∈ pairs, Means n p s t := by
  obtain ⟨packed, rfl, hassign⟩ := ofPairs_eq_assign (n := n) h hwords
  rw [List.forall_mem_map] at hinside
  obtain ⟨A, hA, hholds⟩ := exists_assign h hinside (empty n)
  refine ⟨A, hassign.trans hA, fun s t => ?_⟩
  simp only [mem_edges, hholds, holds_empty, Bool.false_eq_true, false_or, List.mem_map,
    exists_exists_and_eq_and]
  constructor
  · rintro ⟨-, -, hmeans⟩
    exact hmeans
  · rintro ⟨w, hw, hmeans⟩
    obtain ⟨hs, ht⟩ := lt_of_means (hinside w hw) hmeans
    exact ⟨hs, ht, w, hw, hmeans⟩

theorem eq_of_edges {A B : Access n} (h : ∀ s t, (s, t) ∈ A.edges ↔ (s, t) ∈ B.edges) : A = B := by
  ext i j
  have hij := h i j
  simp only [mem_edges, Fin.eta, Fin.isLt, exists_true_left] at hij
  rwa [Bool.eq_iff_iff]

/-! ## Pairs that are given back -/

def indices (A : Access n) : List (Int × Int) := A.edges.map fun e => (e.1, e.2)

theorem not_outsidePair_of_mem_indices (h : p ∈ A.indices) : ¬ OutsidePair n p := by
  obtain ⟨⟨s, t⟩, he, rfl⟩ := List.mem_map.1 h
  obtain ⟨hs, ht, -⟩ := mem_edges.1 he
  simp only [OutsidePair, Outside]
  omega

theorem words_of_not_outsidePair (hn : n ≤ 9223372036854775808) (h : ¬ OutsidePair n p) :
    Words p := by
  simp only [OutsidePair, Outside] at h
  simp only [Words, isWord, Bool.and_eq_true, decide_eq_true_eq]
  omega

theorem exists_mem_indices_iff {s t : Nat} :
    (∃ p ∈ A.indices, Means n p s t) ↔ (s, t) ∈ A.edges := by
  have hmeans : ∀ e : Nat × Nat, Means n (e.1, e.2) s t ↔ e = (s, t) := by
    rintro ⟨s', t'⟩
    simp only [Means, fromStart, Prod.mk.injEq]
    omega
  constructor
  · rintro ⟨p, hp, hst⟩
    obtain ⟨e, he, rfl⟩ := List.mem_map.1 hp
    rwa [← (hmeans e).1 hst]
  · intro h
    exact ⟨_, List.mem_map_of_mem h, (hmeans _).2 rfl⟩

theorem ofPairs_of_mem_iff (hlib : lib.Lawful) (hn : n ≤ 9223372036854775808)
    (h : ∀ p, p ∈ pairs ↔ p ∈ A.indices) : ofPairs lib n pairs = .ok A := by
  have hinside : ∀ p ∈ pairs, ¬ OutsidePair n p := fun p hp =>
    not_outsidePair_of_mem_indices ((h p).1 hp)
  obtain ⟨B, hB, hedges⟩ := exists_ofPairs hlib
    (fun p hp => words_of_not_outsidePair hn (hinside p hp)) hinside
  have heq : B = A := by
    apply eq_of_edges
    intro s t
    simp only [hedges, h, exists_mem_indices_iff]
  rw [hB, heq]

theorem ofPairs_cases (h : lib.Lawful) (pairs : List (Int × Int)) :
    (ofPairs lib n pairs = .error .overflow ∧ ∃ p ∈ pairs, ¬ Words p) ∨
      (ofPairs lib n pairs = .error .badIndex ∧ (∀ p ∈ pairs, Words p) ∧
        ∃ p ∈ pairs, OutsidePair n p) ∨
      ((∃ A, ofPairs lib n pairs = .ok A) ∧ (∀ p ∈ pairs, Words p) ∧
        ∀ p ∈ pairs, ¬ OutsidePair n p) := by
  by_cases hlarge : ∃ p ∈ pairs, ¬ Words p
  · obtain ⟨p, hp, hp'⟩ := hlarge
    exact Or.inl ⟨ofPairs_large h hp hp', p, hp, hp'⟩
  · have hwords : ∀ p ∈ pairs, Words p := fun p hp =>
      Classical.byContradiction fun hp' => hlarge ⟨p, hp, hp'⟩
    by_cases houtside : ∃ p ∈ pairs, OutsidePair n p
    · exact Or.inr (Or.inl ⟨ofPairs_outside h hwords houtside, hwords, houtside⟩)
    · have hinside : ∀ p ∈ pairs, ¬ OutsidePair n p := fun p hp hp' => houtside ⟨p, hp, hp'⟩
      obtain ⟨A, hA, -⟩ := exists_ofPairs h hwords hinside
      exact Or.inr (Or.inr ⟨⟨A, hA⟩, hwords, hinside⟩)

/-- What becomes of pairs of indices for `n` worlds. -/
structure Inverse (lib : Indexing) (n : Nat) : Prop where
  overflow : ∀ pairs, ofPairs lib n pairs = .error .overflow ↔ ∃ p ∈ pairs, ¬ Words p
  outside : ∀ pairs, ofPairs lib n pairs = .error .badIndex ↔
    (∀ p ∈ pairs, Words p) ∧ ∃ p ∈ pairs, OutsidePair n p
  made : ∀ pairs, (∀ p ∈ pairs, Words p) → (∀ p ∈ pairs, ¬ OutsidePair n p) →
    ∃ A, ofPairs lib n pairs = .ok A ∧ ∀ s t, (s, t) ∈ A.edges ↔ ∃ p ∈ pairs, Means n p s t
  restored : n ≤ 9223372036854775808 → ∀ A : Access n, ∀ pairs,
    (∀ p, p ∈ pairs ↔ p ∈ A.indices) → ofPairs lib n pairs = .ok A

/-- **Pairs and relations are inverse to one another.** Pairs are refused if a number is too large or
an index lies outside. Otherwise the relation has the pairs that are meant, and no others. A relation
comes back from its own pairs, in whatever order they are given. -/
theorem pairs_inverse (h : lib.Lawful) (n : Nat) : Inverse lib n := by
  refine ⟨fun pairs => ?_, fun pairs => ?_, fun _ => exists_ofPairs h, fun hn A pairs =>
    ofPairs_of_mem_iff h hn⟩
  · rcases ofPairs_cases h pairs with ⟨hout, hlarge⟩ | ⟨hout, hwords, -⟩ | ⟨⟨A, hout⟩, hwords, -⟩
    · exact iff_of_true hout hlarge
    · rw [hout]
      simpa using hwords
    · rw [hout]
      simpa using hwords
  · rcases ofPairs_cases h pairs with ⟨hout, p, hp, hlarge⟩ | ⟨hout, hwords⟩ | ⟨⟨A, hout⟩, -, hinside⟩
    · rw [hout]
      exact iff_of_false (by simp) fun hwords => hlarge (hwords.1 p hp)
    · exact iff_of_true hout hwords
    · rw [hout]
      exact iff_of_false (by simp) fun ⟨_, p, hp, houtside⟩ => hinside p hp houtside

/-- Two pairs of worlds under several names. -/
def aliased : List (Int × Int) := [(0, -1), (-3, 2), (1, 1), (-2, 1), (0, -1)]

def unaliased : Access 3 := ofEdges 3 [(0, 2), (1, 1)]

theorem pairs_inverse_aliased : Indexing.standard.Lawful ∧ (∀ p ∈ aliased, Words p) ∧
    (∀ p ∈ aliased, ¬ OutsidePair 3 p) ∧ ofPairs .standard 3 aliased = .ok unaliased ∧
    (∀ s t, (s, t) ∈ unaliased.edges ↔ ∃ p ∈ aliased, Means 3 p s t) ∧
    ofPairs .standard 3 ((0, 3) :: aliased) = .error .badIndex ∧
    ofPairs .standard 3 ((0, -9223372036854775809) :: aliased) = .error .overflow ∧
    (∀ p, p ∈ [(1, 1), (0, 2), (1, 1)] ↔ p ∈ unaliased.indices) ∧
    ofPairs .standard 3 [(1, 1), (0, 2), (1, 1)] = .ok unaliased := by
  have hwords : ∀ p ∈ aliased, Words p := by
    simp [aliased, Words, isWord]
  have hinside : ∀ p ∈ aliased, ¬ OutsidePair 3 p := by
    simp [aliased, OutsidePair, Outside]
  have hindices : ∀ p, p ∈ [(1, 1), (0, 2), (1, 1)] ↔ p ∈ unaliased.indices := by
    intro p
    have heq : unaliased.indices = [(0, 2), (1, 1)] := by decide
    rw [heq]
    simp only [List.mem_cons, List.not_mem_nil, or_false]
    tauto
  obtain ⟨hoverflow, houtside, hmade, hback⟩ := pairs_inverse lawful_standard 3
  obtain ⟨A, hA, hedges⟩ := hmade aliased hwords hinside
  obtain rfl : A = unaliased := by
    cases hA
    decide
  refine ⟨lawful_standard, hwords, hinside, hA, hedges, ?_, ?_, hindices,
    hback (by decide) _ _ hindices⟩
  · refine (houtside _).2 ⟨List.forall_mem_cons.2 ⟨by simp [Words, isWord], hwords⟩, (0, 3),
      List.mem_cons_self, by simp [OutsidePair, Outside]⟩
  · exact (hoverflow _).2 ⟨(0, -9223372036854775809), List.mem_cons_self, by simp [Words, isWord]⟩

/-- Every world is accessible from the last of more worlds than there are indices in words. -/
def wide : Access 9223372036854775809 := ofFn fun i _ => i.val == 9223372036854775808

/-- An index that is too large is not refused as one outside, and not all the pairs of a relation
between so many worlds can be packed. -/
theorem pairs_overflow : Indexing.standard.Lawful ∧
    OutsidePair 2 (9223372036854775808, 0) ∧
    ofPairs .standard 2 [(9223372036854775808, 0)] = .error .overflow ∧
    ofPairs .standard 9223372036854775809 wide.indices = .error .overflow := by
  have hlarge : ¬ Words (9223372036854775808, 0) := by simp [Words, isWord]
  have hmem : (9223372036854775808, 0) ∈ wide.indices := by
    have hedge : (9223372036854775808, 0) ∈ wide.edges :=
      mem_edges.2 ⟨by decide, by decide, by simp only [wide, holds_ofFn, BEq.rfl]⟩
    exact List.mem_map.2 ⟨_, hedge, by simp⟩
  exact ⟨lawful_standard, by simp [OutsidePair, Outside],
    ofPairs_large lawful_standard List.mem_cons_self hlarge,
    ofPairs_large lawful_standard hmem hlarge⟩

end Access

end KripkeLogic
