import KripkeLogic.Access.Closure
import Mathlib.Logic.Relation

/-!
# The closure is reachability

One pass over the worlds joins two of them exactly when a nonempty path of entries does.
-/

namespace KripkeLogic

/-- A nonempty path of edges leads from one number to the other. -/
def Joined (es : List (Nat × Nat)) : Nat → Nat → Prop := Relation.TransGen fun i j => (i, j) ∈ es

namespace Access

variable {n : Nat}

def Path (A : Access n) : Fin n → Fin n → Prop := Relation.TransGen fun i j => A.holds i j = true

/-! ## One pivot -/

/-- Two steps by way of `k` make no pair that is not there. -/
def ClosedAt (A : Access n) (k : Fin n) : Prop :=
  ∀ i j, A.holds i k = true → A.holds k j = true → A.holds i j = true

theorem through_of_holds (A : Access n) (k : Fin n) {i j : Fin n} (h : A.holds i j = true) :
    (A.through k).holds i j = true := by
  rw [holds_through, h, Bool.true_or]

theorem closedAt_through (A : Access n) (k : Fin n) : (A.through k).ClosedAt k := by
  intro i j hik hkj
  simp only [holds_through, Bool.or_eq_true, Bool.and_eq_true] at hik hkj ⊢
  have hi : A.holds i k = true := hik.elim id And.left
  have hj : A.holds k j = true := hkj.elim id And.right
  exact Or.inr ⟨hi, hj⟩

theorem closedAt_through_of (A : Access n) (k l : Fin n) (h : A.ClosedAt l) :
    (A.through k).ClosedAt l := by
  intro i j hil hlj
  simp only [holds_through, Bool.or_eq_true, Bool.and_eq_true] at hil hlj ⊢
  rcases hil with hil | ⟨hik, hkl⟩ <;> rcases hlj with hlj | ⟨hlk, hkj⟩
  · exact Or.inl (h i j hil hlj)
  · exact Or.inr ⟨h i k hil hlk, hkj⟩
  · exact Or.inr ⟨hik, h k j hkl hlj⟩
  · exact Or.inr ⟨hik, hkj⟩

theorem path_of_through (A : Access n) (k : Fin n) {i j : Fin n}
    (h : (A.through k).holds i j = true) : A.Path i j := by
  rw [holds_through, Bool.or_eq_true, Bool.and_eq_true] at h
  rcases h with h | ⟨hik, hkj⟩
  · exact .single h
  · exact .tail (.single hik) hkj

/-! ## The whole pass -/

theorem foldl_of_holds (A : Access n) (ks : List (Fin n)) {i j : Fin n}
    (h : A.holds i j = true) : (ks.foldl through A).holds i j = true := by
  induction ks generalizing A with
  | nil => exact h
  | cons k ks ih => exact ih _ (through_of_holds A k h)

theorem closedAt_foldl_of (A : Access n) (ks : List (Fin n)) (l : Fin n) (h : A.ClosedAt l) :
    (ks.foldl through A).ClosedAt l := by
  induction ks generalizing A with
  | nil => exact h
  | cons k ks ih => exact ih _ (closedAt_through_of A k l h)

theorem closedAt_foldl (A : Access n) (ks : List (Fin n)) (l : Fin n) (h : l ∈ ks) :
    (ks.foldl through A).ClosedAt l := by
  induction ks generalizing A with
  | nil => cases h
  | cons k ks ih =>
    rcases List.mem_cons.1 h with rfl | h
    · exact closedAt_foldl_of _ ks l (closedAt_through A l)
    · exact ih _ h

theorem path_of_foldl (A : Access n) (ks : List (Fin n)) {i j : Fin n}
    (h : (ks.foldl through A).holds i j = true) : A.Path i j := by
  induction ks generalizing A i j with
  | nil => exact .single h
  | cons k ks ih =>
    -- A path of entries after one pivot unfolds into one of entries before it.
    exact Relation.TransGen.closed (fun _ _ => path_of_through A k) i j (ih _ h)

theorem closure_closedAt (A : Access n) (k : Fin n) : A.closure.ClosedAt k :=
  closedAt_foldl A _ k (List.mem_finRange k)

/-- **Warshall's pass computes reachability.** -/
theorem holds_closure {A : Access n} {i j : Fin n} : A.closure.holds i j = true ↔ A.Path i j := by
  constructor
  · exact path_of_foldl A _
  · intro h
    induction h with
    | single h => exact foldl_of_holds A _ h
    | tail _ h ih => exact closure_closedAt A _ _ _ ih (foldl_of_holds A _ h)

/-! ## Edges between numbers -/

theorem mem_edges {A : Access n} {i j : Nat} :
    (i, j) ∈ A.edges ↔ ∃ (hi : i < n) (hj : j < n), A.holds ⟨i, hi⟩ ⟨j, hj⟩ = true := by
  simp only [edges, List.mem_map, Prod.exists, Prod.mk.injEq, mem_toList]
  constructor
  · rintro ⟨a, b, h, rfl, rfl⟩
    exact ⟨a.isLt, b.isLt, h⟩
  · rintro ⟨hi, hj, h⟩
    exact ⟨_, _, h, rfl, rfl⟩

variable {es : List (Nat × Nat)}

theorem joined_of_path {i j : Fin n} (h : (ofEdges n es).Path i j) : Joined es i j :=
  Relation.TransGen.lift Fin.val (fun _ _ h => holds_ofEdges.1 h) i j h

end Access

theorem Joined.ends {es : List (Nat × Nat)} {p : Nat → Prop} (hp : ∀ e ∈ es, p e.1 ∧ p e.2)
    {i j : Nat} (h : Joined es i j) : p i ∧ p j := by
  induction h with
  | single h => exact hp _ h
  | tail _ h ih => exact ⟨ih.1, (hp _ h).2⟩

theorem Joined.carry {es : List (Nat × Nat)} {p : Nat → Prop} (hp : ∀ e ∈ es, p e.1 → p e.2)
    {i j : Nat} (h : Joined es i j) (hi : p i) : p j := by
  induction h with
  | single he => exact hp _ he hi
  | tail _ he ih => exact hp _ he ih

theorem transGen_self_iff {α : Type} {r : α → α → Prop} {a : α} :
    Relation.TransGen r a a ↔
      r a a ∨ ∃ b, b ≠ a ∧ Relation.TransGen r a b ∧ Relation.TransGen r b a := by
  constructor
  · intro h
    obtain ⟨b, hab, hba⟩ := Relation.TransGen.head'_iff.1 h
    by_cases hb : b = a
    · exact Or.inl (hb ▸ hab)
    · refine Or.inr ⟨b, hb, .single hab, ?_⟩
      exact (Relation.reflTransGen_iff_eq_or_transGen.1 hba).resolve_left (Ne.symm hb)
  · rintro (h | ⟨b, -, hab, hba⟩)
    · exact .single h
    · exact hab.trans hba

theorem joined_self_iff {es : List (Nat × Nat)} {i : Nat} :
    Joined es i i ↔ (i, i) ∈ es ∨ ∃ j, j ≠ i ∧ Joined es i j ∧ Joined es j i :=
  transGen_self_iff

namespace Access

variable {n : Nat} {es : List (Nat × Nat)}

theorem path_of_joined (hes : ∀ e ∈ es, e.1 < n ∧ e.2 < n) {i j : Nat} (h : Joined es i j) :
    ∃ (hi : i < n) (hj : j < n), (ofEdges n es).Path ⟨i, hi⟩ ⟨j, hj⟩ := by
  induction h with
  | single h =>
    obtain ⟨hi, hj⟩ := hes _ h
    exact ⟨hi, hj, .single (holds_ofEdges.2 h)⟩
  | tail _ h ih =>
    obtain ⟨hi, hb, hpath⟩ := ih
    obtain ⟨-, hj⟩ := hes _ h
    exact ⟨hi, hj, .tail hpath (holds_ofEdges.2 h)⟩

theorem mem_edges_closure (hes : ∀ e ∈ es, e.1 < n ∧ e.2 < n) {i j : Nat} :
    (i, j) ∈ (ofEdges n es).closure.edges ↔ Joined es i j := by
  simp only [mem_edges, holds_closure]
  constructor
  · rintro ⟨_, _, h⟩
    exact joined_of_path h
  · exact path_of_joined hes

/-! ## The least transitive relation -/

def Within (A B : Access n) : Prop := ∀ i j, A.holds i j = true → B.holds i j = true

def Transitive (A : Access n) : Prop := ∀ k, A.ClosedAt k

variable {A B : Access n}

theorem Within.antisymm (hAB : A.Within B) (hBA : B.Within A) : A = B := by
  ext i j
  rw [Bool.eq_iff_iff]
  exact ⟨hAB i j, hBA i j⟩

theorem within_closure (A : Access n) : A.Within A.closure :=
  fun _ _ h => foldl_of_holds A _ h

theorem transitive_closure (A : Access n) : A.closure.Transitive := closure_closedAt A

theorem closure_within (hAB : A.Within B) (hB : B.Transitive) : A.closure.Within B := by
  intro i j h
  rw [holds_closure] at h
  induction h with
  | single h => exact hAB _ _ h
  | tail _ h ih => exact hB _ _ _ ih (hAB _ _ h)

theorem closure_closure (A : Access n) : A.closure.closure = A.closure := by
  apply Within.antisymm
  · exact closure_within (fun _ _ h => h) (transitive_closure A)
  · exact within_closure _

theorem closure_mono (hAB : A.Within B) : A.closure.Within B.closure := by
  apply closure_within
  · exact fun i j h => within_closure B i j (hAB i j h)
  · exact transitive_closure B

/-- What the closure `C` of the relation `A` has to be. -/
structure Closes (A C : Access n) : Prop where
  path : ∀ i j, C.holds i j = true ↔ A.Path i j
  contains : A.Within C
  transitive : C.Transitive
  least : ∀ B, A.Within B → B.Transitive → C.Within B
  idempotent : C.closure = C
  monotone : ∀ B, A.Within B → C.Within B.closure
  /-- A world is joined to itself by an entry or by a cycle. -/
  diagonal : ∀ i, C.holds i i = true ↔
    A.holds i i = true ∨ ∃ j, j ≠ i ∧ A.Path i j ∧ A.Path j i

/-- **One pass gives the least transitive relation that contains the entries.** -/
theorem closes_closure (A : Access n) : A.Closes A.closure := by
  refine ⟨fun i j => holds_closure, within_closure A, transitive_closure A,
    fun B => closure_within, closure_closure A, fun B => closure_mono, fun i => ?_⟩
  rw [holds_closure]
  exact transGen_self_iff

end Access

end KripkeLogic
