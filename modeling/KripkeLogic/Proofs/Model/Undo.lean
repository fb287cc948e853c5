import KripkeLogic.Proofs.Model.Insertion
import KripkeLogic.Proofs.Model.Loops

/-!
# Edge edits can be undone

An edge that is added and removed again leaves no trace.
-/

namespace KripkeLogic.Model

open Outcome

variable {m m' : Model} {k : EdgeKind} {s t : Nat} {kind : Value}

/-! ## Edges set twice -/

@[simp] theorem setEdges_setEdges (m : Model) (k : EdgeKind) (es fs : List (Nat × Nat)) :
    (m.setEdges k es).setEdges k fs = m.setEdges k fs := by
  cases k <;> rfl

theorem Consistent.setEdges_self (h : m.Consistent) (k : EdgeKind) :
    m.setEdges k (m.edges k) = m := by
  have hset : m.setEdges k (m.edges k) = m.recompute k := by cases k <;> rfl
  rw [hset, h.recompute_eq]

theorem Consistent.removeEdge_of_added (h : m.Consistent) (hnew : (s, t) ∉ m.edges k) :
    (m.setEdges k (m.edges k ++ [(s, t)])).removeEdge k s t = some m := by
  have herase : (m.edges k ++ [(s, t)]).erase (s, t) = m.edges k := by
    simp [List.erase_append_right _ hnew]
  have hlast : (s, t) ∈ m.edges k ++ [(s, t)] := by simp
  rw [Model.removeEdge, edges_setEdges, if_pos rfl, if_pos hlast, setEdges_setEdges, herase,
    h.setEdges_self]

theorem Consistent.addEdge_of_removed (h : m.Consistent) (hmem : (s, t) ∈ m.edges k) :
    (m.setEdges k ((m.edges k).erase (s, t))).addEdge k s t =
      some (m.setEdges k ((m.edges k).erase (s, t) ++ [(s, t)])) := by
  have hgone : (s, t) ∉ (m.edges k).erase (s, t) := (h.nodup k).not_mem_erase
  -- The variables at the ends have grown along the edge all the time, so it cannot be refused.
  have hkept : ¬ (k = .preorder ∧
      (m.assignmentAt s).subset (m.assignmentAt t) = false) := by
    rintro ⟨rfl, hlost⟩
    have hsub := Assignment.subset_iff.2 (h.monotone (s, t) hmem)
    simp [hlost] at hsub
  simp [Model.addEdge, edges_setEdges, hgone, hkept]

theorem reordered_erase_append (hmem : (s, t) ∈ m.edges k) :
    Reordered m (m.setEdges k ((m.edges k).erase (s, t) ++ [(s, t)])) := by
  refine ⟨by cases k <;> rfl, fun l e => ?_⟩
  rw [edges_setEdges]
  split
  · next hkl =>
    subst hkl
    have hperm := List.perm_cons_erase hmem
    rw [hperm.mem_iff]
    simp [or_comm]
  · rfl

/-! ## The calls -/

theorem equalIndex?_int (s : Nat) : equalIndex? (.int s) = some s :=
  equalIndex?_eq_some_iff.2 rfl

theorem callRemoveEdge_of_removeEdge (hk : EdgeKind.ofValue kind = .ok k)
    (hloop : ¬ (k = .preorder ∧ s = t)) (hremove : m.removeEdge k s t = some m') :
    m.callRemoveEdge (.int s) (.int t) kind = .ok (true, m') := by
  have hspared : ¬ (k = .preorder ∧ (Value.int s).same (.int t) = true ∧
      (m.state? (.int s)).isSome = true) := by
    rintro ⟨hpre, hsame, -⟩
    have hts : (t : Int) = s := Option.some.inj (Value.same_int.1 hsame)
    exact hloop ⟨hpre, by omega⟩
  simp only [callRemoveEdge, hk, ok_bind, if_neg hspared, equalIndex?_int, hremove]
  rfl

/-- The values name an edge, as far as numbers equal the ends of one. -/
def HasEdge (m : Model) (k : EdgeKind) (source target : Value) : Prop :=
  ∃ e ∈ m.edges k, equalIndex? source = some e.1 ∧ equalIndex? target = some e.2

/-- An edge that was added can be removed, which gives the model before it. An edge that was removed
can be added, which gives the model before it but for the order of edges. -/
structure Undoable (m : Model) : Prop where
  added : ∀ source target kind k m', EdgeKind.ofValue kind = .ok k → ¬ m.HasEdge k source target →
    m.perform (.addEdge source target kind) = (.ok (.flag true), m') →
    m'.perform (.removeEdge source target kind) = (.ok (.flag true), m)
  removed : ∀ (s t : Int) kind m',
    m.perform (.removeEdge (.int s) (.int t) kind) = (.ok (.flag true), m') →
    ∃ m'', m'.perform (.addEdge (.int s) (.int t) kind) = (.ok (.flag true), m'') ∧ SameButOrder m m''

theorem Consistent.removeEdge_after_addEdge (h : m.Consistent)
    (hloops : ∀ i, m.isLive i = true → (i, i) ∈ m.edges .preorder) {source target : Value}
    (hk : EdgeKind.ofValue kind = .ok k) (hnew : ¬ m.HasEdge k source target)
    (hcall : m.callAddEdge source target kind = .ok (true, m')) :
    m'.callRemoveEdge source target kind = .ok (true, m) := by
  obtain ⟨s, t, hs, ht, hadd⟩ := (callAddEdge_true_iff hk).1 hcall
  obtain ⟨rfl, hslive⟩ := state?_eq_some_iff.1 hs
  obtain ⟨rfl, -⟩ := state?_eq_some_iff.1 ht
  have hst : (s, t) ∉ m.edges k := fun hmem =>
    hnew ⟨(s, t), hmem, equalIndex?_int s, equalIndex?_int t⟩
  rcases addEdge_cases hadd with ⟨hmem, -⟩ | ⟨-, -, rfl⟩
  · exact absurd hmem hst
  · refine callRemoveEdge_of_removeEdge hk ?_ (h.removeEdge_of_added hst)
    -- The guard of loops does not stand in the way, as the loop of a live state is not new.
    rintro ⟨rfl, rfl⟩
    exact hst (hloops s hslive)

theorem Consistent.addEdge_after_removeEdge (h : m.Consistent) {s t : Int}
    (hcall : m.callRemoveEdge (.int s) (.int t) kind = .ok (true, m')) :
    ∃ m'', m'.callAddEdge (.int s) (.int t) kind = .ok (true, m'') ∧ SameButOrder m m'' := by
  obtain ⟨k, i, j, hk, hi, hj, -, hremove⟩ := of_accepted (callRemoveEdge_cases hcall)
  obtain rfl : s = i := Option.some.inj (equalIndex?_eq_some_iff.1 hi)
  obtain rfl : t = j := Option.some.inj (equalIndex?_eq_some_iff.1 hj)
  obtain ⟨hmem, rfl⟩ := removeEdge_eq_some_iff.1 hremove
  have hlive := h.live k (i, j) hmem
  have hadd := h.addEdge_of_removed hmem
  have hback : (m.setEdges k ((m.edges k).erase (i, j))).callAddEdge (.int i) (.int j) kind =
      .ok (true, m.setEdges k ((m.edges k).erase (i, j) ++ [(i, j)])) := by
    refine (callAddEdge_true_iff hk).2 ⟨i, j, state?_int ?_, state?_int ?_, hadd⟩
    · simp [hlive]
    · simp [hlive]
  refine ⟨_, hback, (reordered_erase_append hmem).sameButOrder h ?_⟩
  exact (h.removeEdge k i j).change (callAddEdge_eq_ok hback)

/-- **Edge edits can be undone, where edges have only been removed by integers.** -/
theorem undoable_run {events : List Event} (h : ∀ e ∈ events, e.ByIndex) : (run events).Undoable := by
  have hm := consistent_run events
  refine ⟨fun source target kind k m' hk hnew hadd => ?_, fun s t kind m' hremove => ?_⟩
  · have hcall := flag_eq_ok_iff.1 hadd
    exact flag_eq_ok_iff.2 (hm.removeEdge_after_addEdge (fun i => loop_of_byIndex h) hk hnew hcall)
  · obtain ⟨m'', hcall, hsame⟩ := hm.addEdge_after_removeEdge (flag_eq_ok_iff.1 hremove)
    exact ⟨m'', flag_eq_ok_iff.2 hcall, hsame⟩

def oneEdgeLess : List Event :=
  unequalStates ++
    [.operate (.addEdge (.int 0) (.int 1) (.text EdgeKind.preorder.word)),
      .operate (.addEdge (.int 0) (.int 1) Operation.defaultKind),
      .operate (.addEdge (.int 1) (.int 0) Operation.defaultKind),
      .operate (.removeEdge (.int 0) (.int 1) Operation.defaultKind)]

theorem undoable_oneEdgeLess : (∀ e ∈ oneEdgeLess, e.ByIndex) ∧
    (run oneEdgeLess).edges .preorder = [(0, 0), (1, 1), (0, 1)] ∧
    (run oneEdgeLess).edges .relation = [(1, 0)] ∧
    ∃ m', (run oneEdgeLess).perform (.addEdge (.int 0) (.int 1) Operation.defaultKind) =
        (.ok (.flag true), m') ∧ m'.edges .relation = [(1, 0), (0, 1)] ∧
      m'.perform (.removeEdge (.int 0) (.int 1) Operation.defaultKind) =
        (.ok (.flag true), run oneEdgeLess) := by
  have hints : ∀ e ∈ oneEdgeLess, e.ByIndex := by
    simp [oneEdgeLess, unequalStates, Event.ByIndex, Value.kind]
  have hnew : ¬ (run oneEdgeLess).HasEdge .relation (.int 0) (.int 1) := by
    rintro ⟨e, he, hs, -⟩
    obtain rfl : e = (1, 0) := List.mem_singleton.1 he
    cases hs
  refine ⟨hints, rfl, rfl, _, rfl, rfl, ?_⟩
  exact (undoable_run hints).added (.int 0) (.int 1) Operation.defaultKind .relation _ rfl hnew rfl

end KripkeLogic.Model
