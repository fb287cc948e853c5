import KripkeLogic.Proofs.Access.Closure
import KripkeLogic.Proofs.Model.History

/-! # The invariant of a model -/

namespace KripkeLogic.Model

/-- What every event keeps. Variables are compared along edges only; paths follow from that. -/
structure Consistent (m : Model) : Prop where
  live : ∀ k, ∀ e ∈ m.edges k, m.isLive e.1 = true ∧ m.isLive e.2 = true
  nodup : ∀ k, (m.edges k).Nodup
  monotone : ∀ e ∈ m.edges .preorder, ∀ x ∈ m.assignmentAt e.1, x ∈ m.assignmentAt e.2
  fresh : ∀ k, m.closure k = (m.adjacency k).closure
  legal : ∀ i, ∀ x ∈ m.assignmentAt i, isName x = true

/-! ## Single edits -/

theorem fresh_ofEdges {n : Nat} (slots : Vector (Option Assignment) n) (ps rs : List (Nat × Nat))
    (k : EdgeKind) : (ofEdges slots ps rs).closure k = ((ofEdges slots ps rs).adjacency k).closure := by
  cases k <;> rfl

theorem fresh_recompute {m : Model} (h : ∀ k, m.closure k = (m.adjacency k).closure)
    (k l : EdgeKind) : (m.recompute k).closure l = ((m.recompute k).adjacency l).closure := by
  have := h l
  cases k <;> cases l
  · rfl
  · exact this
  · exact this
  · rfl

theorem fresh_setEdges {m : Model} (h : ∀ k, m.closure k = (m.adjacency k).closure)
    (k l : EdgeKind) (es : List (Nat × Nat)) :
    (m.setEdges k es).closure l = ((m.setEdges k es).adjacency l).closure := by
  have := h l
  cases k <;> cases l
  · rfl
  · exact this
  · exact this
  · rfl

theorem consistent_empty : empty.Consistent where
  live k e he := by cases k <;> cases he
  nodup k := by cases k <;> exact List.nodup_nil
  monotone e he := by cases he
  fresh := fresh_ofEdges _ _ _
  legal i x hx := absurd hx (not_mem_assignmentAt (by simp [isLive_eq, empty]) x)

namespace Consistent

variable {m : Model}

theorem ne_of_mem (h : m.Consistent) {k : EdgeKind} {e : Nat × Nat} (he : e ∈ m.edges k) {i : Nat}
    (hi : m.isLive i = false) : e.1 ≠ i ∧ e.2 ≠ i :=
  (h.live k e he).imp (ne_of_isLive · hi) (ne_of_isLive · hi)

theorem addState (h : m.Consistent) {a : Assignment} (ha : ∀ x ∈ a, isName x = true) :
    (m.addState a).Consistent := by
  have hold : ∀ k, ∀ e ∈ m.edges k, e.1 ≠ m.size ∧ e.2 ≠ m.size :=
    fun k e he => h.ne_of_mem he (isLive_size m)
  have hmem : ∀ k, ∀ e ∈ (m.addState a).edges k, e ∈ m.edges k ∨ e = (m.size, m.size) := by
    intro k e he
    rw [edges_addState] at he
    cases k
    · exact (List.mem_append.1 he).imp id List.mem_singleton.1
    · exact Or.inl he
  refine ⟨fun k e he => ?_, fun k => ?_, fun e he x hx => ?_, fresh_ofEdges _ _ _, fun i x hx => ?_⟩
  · rw [isLive_addState, isLive_addState]
    rcases hmem k e he with he | rfl
    · rw [if_neg (hold k e he).1, if_neg (hold k e he).2]
      exact h.live k e he
    · rw [if_pos rfl]
      exact ⟨rfl, rfl⟩
  · rw [edges_addState]
    cases k
    · refine List.nodup_append.2 ⟨h.nodup .preorder, by simp, ?_⟩
      rintro e he f hf rfl
      rw [List.mem_singleton] at hf
      exact (hold .preorder e he).1 (by rw [hf])
    · exact h.nodup .relation
  · rw [assignmentAt_addState] at hx ⊢
    rcases hmem .preorder e he with he | rfl
    · rw [if_neg (hold .preorder e he).1] at hx
      rw [if_neg (hold .preorder e he).2]
      exact h.monotone e he x hx
    · exact hx
  · rw [assignmentAt_addState] at hx
    split at hx
    · exact ha x hx
    · exact h.legal i x hx

theorem removeState (h : m.Consistent) {i : Nat} (hi : m.isLive i = true) :
    (m.removeState i).Consistent := by
  refine ⟨fun k e he => ?_, fun k => ?_, fun e he x hx => ?_, fun k => ?_, fun j x hx => ?_⟩
  · obtain ⟨he, h1, h2⟩ := (mem_edges_removeState hi).1 he
    rw [isLive_removeState, isLive_removeState, if_neg (Ne.symm h1), if_neg (Ne.symm h2)]
    exact h.live k e he
  · exact (edges_removeState_sublist m i k).nodup (h.nodup k)
  · obtain ⟨he, h1, h2⟩ := (mem_edges_removeState hi).1 he
    rw [assignmentAt_removeState, if_neg (Ne.symm h1)] at hx
    rw [assignmentAt_removeState, if_neg (Ne.symm h2)]
    exact h.monotone e he x hx
  · unfold Model.removeState
    rw [if_pos hi]
    exact fresh_ofEdges _ _ _ k
  · rw [assignmentAt_removeState] at hx
    split at hx
    · exact absurd hx (Assignment.not_mem_empty x)
    · exact h.legal j x hx

theorem setAssignment (h : m.Consistent) {i : Nat} {a : Assignment} (hi : m.isLive i = true)
    (ha : ∀ x ∈ a, x ∈ m.assignmentAt i ∨ isName x = true) (hfits : m.fits i a = true) :
    (m.setAssignment i a).Consistent := by
  simp only [fits, Bool.and_eq_true, List.all_eq_true, mem_successors, mem_predecessors,
    Bool.or_eq_true, decide_eq_true_eq, Assignment.subset_iff] at hfits
  obtain ⟨hup, hdown⟩ := hfits
  refine ⟨fun k e he => ?_, fun k => ?_, fun e he x hx => ?_, fun k => ?_, fun j x hx => ?_⟩
  · rw [isLive_setAssignment hi, isLive_setAssignment hi]
    exact h.live k e (by simpa using he)
  · rw [edges_setAssignment]
    exact h.nodup k
  · obtain ⟨s, t⟩ := e
    rw [edges_setAssignment] at he
    rw [assignmentAt_setAssignment hi] at hx ⊢
    -- Only an edge that starts or ends at the state itself is new to check.
    split at hx <;> split
    · exact hx
    · rename_i hs ht
      subst hs
      exact (hup t he).resolve_left (Ne.symm ht) x hx
    · rename_i hs ht
      subst ht
      exact (hdown s he).resolve_left (Ne.symm hs) x hx
    · exact h.monotone (s, t) he x hx
  · have := h.fresh k
    cases k <;> exact this
  · rw [assignmentAt_setAssignment hi] at hx
    split at hx
    · rename_i hij
      subst hij
      exact (ha x hx).elim (h.legal i x) id
    · exact h.legal j x hx

theorem setEdges (h : m.Consistent) {k : EdgeKind} {es : List (Nat × Nat)}
    (hlive : ∀ e ∈ es, m.isLive e.1 = true ∧ m.isLive e.2 = true) (hnodup : es.Nodup)
    (hmono : k = .preorder → ∀ e ∈ es, ∀ x ∈ m.assignmentAt e.1, x ∈ m.assignmentAt e.2) :
    (m.setEdges k es).Consistent := by
  refine ⟨fun l e he => ?_, fun l => ?_, fun e he x hx => ?_,
    fun l => fresh_setEdges h.fresh k l es, fun j x hx => ?_⟩
  · rw [edges_setEdges] at he
    rw [isLive_setEdges, isLive_setEdges]
    split at he
    · exact hlive e he
    · exact h.live l e he
  · rw [edges_setEdges]
    split
    · exact hnodup
    · exact h.nodup l
  · rw [edges_setEdges] at he
    rw [assignmentAt_setEdges] at hx ⊢
    split at he
    · rename_i hk
      exact hmono hk e he x hx
    · exact h.monotone e he x hx
  · rw [assignmentAt_setEdges] at hx
    exact h.legal j x hx

theorem addEdge (h : m.Consistent) {k : EdgeKind} {s t : Nat} (hs : m.isLive s = true)
    (ht : m.isLive t = true) (hnew : (s, t) ∉ m.edges k)
    (hmono : k = .preorder → ∀ x ∈ m.assignmentAt s, x ∈ m.assignmentAt t) :
    (m.setEdges k (m.edges k ++ [(s, t)])).Consistent := by
  have hmem : ∀ e ∈ m.edges k ++ [(s, t)], e ∈ m.edges k ∨ e = (s, t) := by
    intro e he
    simpa using he
  apply h.setEdges
  · intro e he
    rcases hmem e he with he | rfl
    · exact h.live k e he
    · exact ⟨hs, ht⟩
  · refine List.nodup_append.2 ⟨h.nodup k, by simp, ?_⟩
    rintro e he f hf rfl
    rw [List.mem_singleton] at hf
    exact hnew (hf ▸ he)
  · rintro rfl e he
    rcases hmem e he with he | rfl
    · exact h.monotone e he
    · exact hmono rfl

theorem removeEdge (h : m.Consistent) (k : EdgeKind) (s t : Nat) :
    (m.setEdges k ((m.edges k).erase (s, t))).Consistent := by
  apply h.setEdges
  · intro e he
    exact h.live k e (List.mem_of_mem_erase he)
  · exact (h.nodup k).erase _
  · rintro rfl e he
    exact h.monotone e (List.mem_of_mem_erase he)

theorem recompute (h : m.Consistent) (k : EdgeKind) : (m.recompute k).Consistent := by
  refine ⟨fun l e he => ?_, fun l => ?_, fun e he x hx => ?_, fun l => fresh_recompute h.fresh k l,
    fun j x hx => ?_⟩
  · rw [edges_recompute] at he
    rw [isLive_recompute, isLive_recompute]
    exact h.live l e he
  · rw [edges_recompute]
    exact h.nodup l
  · rw [edges_recompute] at he
    rw [assignmentAt_recompute] at hx ⊢
    exact h.monotone e he x hx
  · rw [assignmentAt_recompute] at hx
    exact h.legal j x hx

end Consistent

/-! ## Paths -/

namespace Consistent

variable {m : Model}

theorem lt_size (h : m.Consistent) (k : EdgeKind) :
    ∀ e ∈ m.edges k, e.1 < m.size ∧ e.2 < m.size := by
  intro e he
  obtain ⟨h1, h2⟩ := h.live k e he
  exact ⟨lt_size_of_isLive h1, lt_size_of_isLive h2⟩

theorem mem_closure (h : m.Consistent) {k : EdgeKind} {s t : Nat} :
    (s, t) ∈ (m.closure k).edges ↔ Joined (m.edges k) s t := by
  rw [h.fresh k]
  exact Access.mem_edges_closure (h.lt_size k)

theorem live_of_joined (h : m.Consistent) {k : EdgeKind} {s t : Nat}
    (hst : Joined (m.edges k) s t) : m.isLive s = true ∧ m.isLive t = true :=
  hst.ends (p := fun i => m.isLive i = true) (h.live k)

theorem ne_of_mem_closure (h : m.Consistent) {k : EdgeKind} {e : Nat × Nat}
    (he : e ∈ (m.closure k).edges) {i : Nat} (hi : m.isLive i = false) : e.1 ≠ i ∧ e.2 ≠ i :=
  (h.live_of_joined (h.mem_closure.1 he)).imp (ne_of_isLive · hi) (ne_of_isLive · hi)

theorem grows (h : m.Consistent) {s t : Nat} (hst : Joined (m.edges .preorder) s t) :
    ∀ x ∈ m.assignmentAt s, x ∈ m.assignmentAt t := by
  intro x
  exact hst.carry (p := fun i => x ∈ m.assignmentAt i) fun e he => h.monotone e he x

end Consistent

/-! ## Models that are read -/

theorem mem_edges_of_ofRecords {rs : List (Option Record)} {m : Model} (h : ofRecords rs = .ok m)
    {k : EdgeKind} {e : Nat × Nat} : e ∈ m.edges k ↔ e ∈ listed k 0 rs := by
  obtain ⟨-, rfl⟩ := ofRecords_eq_ok_iff.1 h
  rw [edges_ofEdges]
  cases k <;> simp [mem_foldl_addNew]

theorem slot_of_ofRecords {rs : List (Option Record)} {m : Model} (h : ofRecords rs = .ok m)
    (i : Nat) : m.slot i = (rs[i]?).bind slotOf := by
  obtain ⟨-, rfl⟩ := ofRecords_eq_ok_iff.1 h
  rw [slot_ofEdges, ← slot_ofEdges (slotsOf rs) [] []]
  exact slot_statesOf rs i

theorem consistent_ofRecords {rs : List (Option Record)} {m : Model} (h : ofRecords rs = .ok m)
    (hnames : ∀ r, some r ∈ rs → ∀ x ∈ r.names, isName x = true) : m.Consistent := by
  have hslot : ∀ i, m.slot i = (statesOf rs).slot i :=
    fun i => (slot_of_ofRecords h i).trans (slot_statesOf rs i).symm
  have hlive : ∀ i, m.isLive i = (statesOf rs).isLive i := fun i => by simp only [isLive_eq, hslot]
  have hat : ∀ i, m.assignmentAt i = (statesOf rs).assignmentAt i :=
    fun i => by simp only [assignmentAt_eq, hslot]
  obtain ⟨hadmits, hm⟩ := ofRecords_eq_ok_iff.1 h
  -- Every edge starts at the state of its record and leads where the record admits it.
  have hedge : ∀ k s t, (s, t) ∈ m.edges k → m.isLive s = true ∧
      (s = t ∨ (statesOf rs).Admits k s t) := by
    intro k s t he
    obtain ⟨i, r, hr, he⟩ := mem_listed.1 ((mem_edges_of_ofRecords h).1 he)
    rw [Nat.zero_add] at he
    obtain ⟨rfl, hcase⟩ := mem_listedBy.1 he
    refine ⟨by rw [hlive, isLive_eq, slot_statesOf, hr]; rfl, ?_⟩
    rcases hcase with ⟨j, hj, rfl⟩ | ⟨-, rfl⟩
    · right
      have hj := hadmits _ r hr k j hj
      have hnat : (j.toNat : Int) = j := Int.toNat_of_nonneg hj.1
      rwa [hnat]
    · exact Or.inl rfl
  refine ⟨fun k e he => ?_, fun k => ?_, fun e he x hx => ?_, fun k => ?_, fun i x hx => ?_⟩
  · obtain ⟨hs, ht⟩ := hedge k e.1 e.2 he
    refine ⟨hs, ?_⟩
    rcases ht with ht | ht
    · rwa [← ht]
    · rw [hlive]
      exact ht.2.1
  · rw [hm, edges_ofEdges]
    cases k <;> exact nodup_foldl_addNew List.nodup_nil _
  · obtain ⟨-, ht⟩ := hedge .preorder e.1 e.2 he
    rcases ht with ht | ht
    · rwa [← ht]
    · rw [hat] at hx ⊢
      exact ht.2.2 rfl x hx
  · rw [hm]
    exact fresh_ofEdges _ _ _ k
  · rw [hat, assignmentAt_eq, slot_statesOf] at hx
    cases hr : rs[i]? with
    | none =>
      rw [hr] at hx
      exact absurd hx (Assignment.not_mem_empty x)
    | some o =>
      rw [hr] at hx
      cases o with
      | none => exact absurd hx (Assignment.not_mem_empty x)
      | some r => exact hnames r (List.mem_of_getElem? hr) x (Assignment.mem_ofList.1 hx)

theorem consistent_ofText {text : Value} {m : Model} (h : ofText text = .ok m) : m.Consistent := by
  obtain ⟨cs, rs, -, hrs, h⟩ := ofText_eq_ok_iff.1 h
  exact consistent_ofRecords h fun r hr => Record.names_of_decode hrs hr

/-! ## Histories -/

theorem Consistent.change {m m' : Model} {e : Event} (h : m.Consistent) (hc : m.Change e m') :
    m'.Consistent := by
  cases hc with
  | stay => exact h
  | addState a legal => exact h.addState legal
  | removeState i state => exact h.removeState (state?_eq_some_iff.1 state).2
  | setAssignment i a state legal fits =>
    exact h.setAssignment (state?_eq_some_iff.1 state).2 legal fits
  | addEdge k s t named first second new monotone =>
    have hs := (state?_eq_some_iff.1 first).2
    have ht := (state?_eq_some_iff.1 second).2
    exact h.addEdge hs ht new monotone
  | removeEdge k s t => exact h.removeEdge k s t
  | recompute k => exact h.recompute k
  | imported loaded => exact consistent_ofText loaded
  | load loaded => exact consistent_ofText loaded
  | refresh => exact (h.recompute .preorder).recompute .relation

theorem consistent_run (events : List Event) : (run events).Consistent :=
  run_induction consistent_empty (fun m e h => h.change (change_after m e)) events

/-- What a reader of a model may rely on. -/
structure Invariant (m : Model) : Prop where
  /-- Edges join live states, and no pair is stored twice. -/
  edges : ∀ k, (∀ e ∈ m.edges k, m.isLive e.1 = true ∧ m.isLive e.2 = true) ∧ (m.edges k).Nodup
  /-- A variable that is true at a state is true at all states above it. -/
  monotone : ∀ s t, (s, t) ∈ (m.closure .preorder).edges →
    ∀ x ∈ m.assignmentAt s, x ∈ m.assignmentAt t
  /-- A removed slot has no variables and is in no pair and no list of successors. -/
  removed : ∀ i, m.isLive i = false → (∀ x, x ∉ m.assignmentAt i) ∧
    ∀ k, (∀ e ∈ m.edges k, e.1 ≠ i ∧ e.2 ≠ i) ∧
      (∀ e ∈ (m.closure k).edges, e.1 ≠ i ∧ e.2 ≠ i) ∧ ∀ j, i ∉ m.successors k j
  /-- Each closure is reachability by the present edges, as a square matrix over all slots. -/
  closures : ∀ k, (∀ s t, (s, t) ∈ (m.closure k).edges ↔ Joined (m.edges k) s t) ∧
    (m.closure k).rows.toArray.size = m.size ∧
      ∀ row ∈ (m.closure k).rows, row.toArray.size = m.size
  /-- Names are nonempty runs of ASCII letters and digits. -/
  names : ∀ i, ∀ x ∈ m.assignmentAt i, isName x = true

/-- **The invariant holds at the end of every history.** -/
theorem invariant_run (events : List Event) : (run events).Invariant := by
  have h := consistent_run events
  refine ⟨fun k => ⟨h.live k, h.nodup k⟩, fun s t hst => h.grows (h.mem_closure.1 hst),
    fun i hi => ⟨not_mem_assignmentAt hi, fun k => ⟨fun e he => h.ne_of_mem he hi, ?_, ?_⟩⟩,
    fun k => ⟨fun s t => h.mem_closure, Vector.size_toArray _, fun row _ => Vector.size_toArray row⟩,
    h.legal⟩
  · rintro ⟨s, t⟩ he
    obtain ⟨hs, ht⟩ := h.live_of_joined (h.mem_closure.1 he)
    constructor
    · rintro rfl
      rw [hi] at hs
      cases hs
    · rintro rfl
      rw [hi] at ht
      cases ht
  · intro j hj
    exact (h.ne_of_mem (mem_successors.1 hj) hi).2 rfl

end KripkeLogic.Model
