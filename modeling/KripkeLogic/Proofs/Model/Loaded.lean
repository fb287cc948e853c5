import KripkeLogic.Proofs.Model.Slots
import KripkeLogic.Proofs.Record.Grammar

/-! # Models that are read -/

namespace KripkeLogic

open Outcome

def Record.targets (r : Record) : EdgeKind → List Int
  | .preorder => r.preorders
  | .relation => r.relations

namespace Model

/-! ## Edges -/

theorem mem_foldl_addNew {es fs : List (Nat × Nat)} {e : Nat × Nat} :
    e ∈ fs.foldl addNew es ↔ e ∈ es ∨ e ∈ fs := by
  induction fs generalizing es with
  | nil => simp
  | cons f fs ih => rw [List.foldl_cons, ih, mem_addNew, List.mem_cons, or_assoc]

theorem nodup_addNew {es : List (Nat × Nat)} (h : es.Nodup) (e : Nat × Nat) :
    (addNew es e).Nodup := by
  unfold addNew
  split
  · exact h
  · rename_i he
    rw [List.contains_iff_mem] at he
    refine List.nodup_append.2 ⟨h, by simp, ?_⟩
    rintro a ha b hb rfl
    rw [List.mem_singleton] at hb
    exact he (hb ▸ ha)

theorem nodup_foldl_addNew {es : List (Nat × Nat)} (h : es.Nodup) (fs : List (Nat × Nat)) :
    (fs.foldl addNew es).Nodup := by
  induction fs generalizing es with
  | nil => exact h
  | cons f fs ih => exact ih (nodup_addNew h f)

/-- An edge to `t` may stand: `t` is a live state, and no variable is lost up the preorder. -/
def Admits (m : Model) (k : EdgeKind) (s : Nat) (t : Int) : Prop :=
  0 ≤ t ∧ m.isLive t.toNat = true ∧
    (k = .preorder → ∀ x ∈ m.assignmentAt s, x ∈ m.assignmentAt t.toNat)

theorem target_eq_ok_iff {m : Model} {k : EdgeKind} {s j : Nat} {t : Int} :
    m.target k s t = .ok j ↔ m.Admits k s t ∧ t.toNat = j := by
  unfold target Admits
  rw [← Assignment.subset_iff]
  split
  · rename_i h
    constructor
    · intro he; cases he
    · rintro ⟨⟨h0, hl, -⟩, -⟩
      rcases h with h | h
      · omega
      · rw [hl] at h; cases h
  · rename_i h
    rw [not_or, Int.not_lt, Bool.not_eq_false] at h
    split
    · rename_i hk
      constructor
      · intro he; cases he
      · rintro ⟨⟨-, -, hs⟩, -⟩
        rw [hs hk.1] at hk
        cases hk.2
    · rename_i hk
      rw [not_and, Bool.not_eq_false] at hk
      exact ⟨fun he => ⟨⟨h.1, h.2, hk⟩, by cases he; rfl⟩, fun he => by rw [he.2]⟩

theorem loadEdges_eq_ok_iff {m : Model} {k : EdgeKind} {s : Nat} {ts : List Int}
    {es es' : List (Nat × Nat)} :
    m.loadEdges k s ts es = .ok es' ↔
      (∀ t ∈ ts, m.Admits k s t) ∧ (ts.map fun t => (s, t.toNat)).foldl addNew es = es' := by
  induction ts generalizing es with
  | nil => simp [loadEdges]
  | cons t ts ih =>
    simp only [loadEdges, bind_eq_ok_iff, target_eq_ok_iff, ih, List.forall_mem_cons, List.map_cons,
      List.foldl_cons]
    constructor
    · rintro ⟨j, ⟨ht, rfl⟩, hts, he⟩
      exact ⟨⟨ht, hts⟩, he⟩
    · rintro ⟨⟨ht, hts⟩, he⟩
      exact ⟨_, ⟨ht, rfl⟩, hts, he⟩

/-! ## Records in a row -/

/-- The edges that a record lists for slot `s`. A live state has its loop in the preorder. -/
def listedBy (k : EdgeKind) (s : Nat) (r : Record) : List (Nat × Nat) :=
  ((r.targets k).map fun t => (s, t.toNat)) ++ if k = .preorder then [(s, s)] else []

def listed (k : EdgeKind) : Nat → List (Option Record) → List (Nat × Nat)
  | _, [] => []
  | s, none :: rs => listed k (s + 1) rs
  | s, some r :: rs => listedBy k s r ++ listed k (s + 1) rs

def AdmitsAll (m : Model) (s : Nat) (r : Record) : Prop :=
  ∀ k, ∀ t ∈ r.targets k, m.Admits k s t

theorem mem_listedBy {k : EdgeKind} {s a b : Nat} {r : Record} :
    (a, b) ∈ listedBy k s r ↔
      a = s ∧ ((∃ t ∈ r.targets k, t.toNat = b) ∨ (k = .preorder ∧ b = s)) := by
  unfold listedBy
  split
  · rename_i hk
    simp only [List.mem_append, List.mem_map, Prod.mk.injEq, List.mem_singleton, hk, true_and]
    constructor
    · rintro (⟨t, ht, rfl, rfl⟩ | ⟨rfl, rfl⟩)
      · exact ⟨rfl, Or.inl ⟨t, ht, rfl⟩⟩
      · exact ⟨rfl, Or.inr rfl⟩
    · rintro ⟨rfl, ⟨t, ht, rfl⟩ | rfl⟩
      · exact Or.inl ⟨t, ht, rfl, rfl⟩
      · exact Or.inr ⟨rfl, rfl⟩
  · rename_i hk
    simp only [List.append_nil, List.mem_map, Prod.mk.injEq, hk, false_and, or_false]
    constructor
    · rintro ⟨t, ht, rfl, rfl⟩
      exact ⟨rfl, t, ht, rfl⟩
    · rintro ⟨rfl, t, ht, rfl⟩
      exact ⟨t, ht, rfl, rfl⟩

theorem mem_listed {k : EdgeKind} {s : Nat} {rs : List (Option Record)} {e : Nat × Nat} :
    e ∈ listed k s rs ↔ ∃ i r, rs[i]? = some (some r) ∧ e ∈ listedBy k (s + i) r := by
  induction rs generalizing s with
  | nil => simp [listed]
  | cons o rs ih =>
    constructor
    · intro h
      cases o with
      | none =>
        obtain ⟨i, r, hr, he⟩ := ih.1 h
        exact ⟨i + 1, r, by simpa using hr, by rwa [Nat.add_right_comm] at he⟩
      | some q =>
        rcases List.mem_append.1 h with h | h
        · exact ⟨0, q, rfl, h⟩
        · obtain ⟨i, r, hr, he⟩ := ih.1 h
          exact ⟨i + 1, r, by simpa using hr, by rwa [Nat.add_right_comm] at he⟩
    · rintro ⟨i, r, hr, he⟩
      cases i with
      | zero =>
        obtain rfl : o = some r := by simpa using hr
        exact List.mem_append_left _ he
      | succ i =>
        have hrest : e ∈ listed k (s + 1) rs :=
          ih.2 ⟨i, r, by simpa using hr, by rwa [Nat.add_right_comm]⟩
        cases o with
        | none => exact hrest
        | some q => exact List.mem_append_right _ hrest

theorem loadRecords_eq_ok_iff {m : Model} {s : Nat} {rs : List (Option Record)}
    {ps es : List (Nat × Nat)} {out : List (Nat × Nat) × List (Nat × Nat)} :
    m.loadRecords s rs ps es = .ok out ↔
      (∀ i r, rs[i]? = some (some r) → m.AdmitsAll (s + i) r) ∧
        out = ((listed .preorder s rs).foldl addNew ps, (listed .relation s rs).foldl addNew es) := by
  induction rs generalizing s ps es with
  | nil =>
    simp only [loadRecords, listed, List.getElem?_nil, reduceCtorEq, false_implies, implies_true,
      true_and, List.foldl_nil, Except.ok.injEq]
    exact eq_comm
  | cons o rs ih =>
    have hshift : (∀ i r, (o :: rs)[i]? = some (some r) → m.AdmitsAll (s + i) r) ↔
        (∀ r, o = some r → m.AdmitsAll s r) ∧
          ∀ i r, rs[i]? = some (some r) → m.AdmitsAll (s + 1 + i) r := by
      constructor
      · intro h
        refine ⟨fun r hr => h 0 r (by rw [hr]; rfl), fun i r hr => ?_⟩
        rw [Nat.add_right_comm]
        exact h (i + 1) r (by simpa using hr)
      · rintro ⟨h0, hs⟩ i r hr
        cases i with
        | zero => exact h0 r (by simpa using hr)
        | succ i =>
          have := hs i r (by simpa using hr)
          rwa [Nat.add_right_comm] at this
    rw [hshift]
    cases o with
    | none => simp [loadRecords, listed, ih]
    | some r =>
      simp only [loadRecords, listed, bind_eq_ok_iff, loadEdges_eq_ok_iff, ih, List.foldl_append,
        listedBy, Record.targets, Option.some.injEq, forall_eq']
      constructor
      · rintro ⟨_, ⟨hp, rfl⟩, _, ⟨hr, rfl⟩, hrest, rfl⟩
        refine ⟨⟨fun k => ?_, hrest⟩, by simp⟩
        cases k
        · exact hp
        · exact hr
      · rintro ⟨⟨hall, hrest⟩, rfl⟩
        exact ⟨_, ⟨hall .preorder, rfl⟩, _, ⟨hall .relation, rfl⟩, hrest, by simp⟩

/-! ## Whole models -/

theorem size_slots (rs : List (Option Record)) : (rs.map slotOf).toArray.size = rs.length := by
  rw [List.size_toArray, List.length_map]

def slotsOf (rs : List (Option Record)) : Vector (Option Assignment) rs.length :=
  ⟨(rs.map slotOf).toArray, size_slots rs⟩

def statesOf (rs : List (Option Record)) : Model := ofEdges (slotsOf rs) [] []

theorem slot_statesOf (rs : List (Option Record)) (i : Nat) :
    (statesOf rs).slot i = (rs[i]?).bind slotOf := by
  unfold statesOf slotsOf
  rw [slot_ofEdges]
  simp only [Vector.getElem?_mk, List.getElem?_toArray, List.getElem?_map]
  cases rs[i]? <;> rfl

theorem ofRecords_eq_ok_iff {rs : List (Option Record)} {m : Model} :
    ofRecords rs = .ok m ↔
      (∀ i r, rs[i]? = some (some r) → (statesOf rs).AdmitsAll i r) ∧
        m = ofEdges (slotsOf rs) ((listed .preorder 0 rs).foldl addNew [])
          ((listed .relation 0 rs).foldl addNew []) := by
  unfold ofRecords
  simp only [bind_eq_ok_iff, pure_eq_ok_iff]
  constructor
  · rintro ⟨out, hout, rfl⟩
    obtain ⟨hall, rfl⟩ := loadRecords_eq_ok_iff.1 hout
    refine ⟨fun i r hr => ?_, rfl⟩
    rw [← Nat.zero_add i]
    exact hall i r hr
  · rintro ⟨hall, rfl⟩
    refine ⟨_, loadRecords_eq_ok_iff.2 ⟨fun i r hr => ?_, rfl⟩, rfl⟩
    rw [Nat.zero_add]
    exact hall i r hr

theorem ofText_eq_ok_iff {text : Value} {m : Model} :
    ofText text = .ok m ↔ ∃ cs rs, text = .text cs ∧ Record.decode cs = .ok rs ∧ ofRecords rs = .ok m := by
  unfold ofText Record.decodeValue
  constructor
  · intro h
    split at h
    · rename_i rs hrs
      split at hrs
      · exact ⟨_, rs, rfl, hrs, h⟩
      · split at hrs <;> cases hrs
    · cases h
  · rintro ⟨cs, rs, rfl, hrs, h⟩
    simp only [hrs]
    exact h

end Model

end KripkeLogic
