import KripkeLogic.Proofs.Model.Edits
import KripkeLogic.Proofs.Model.Loops
import KripkeLogic.Proofs.Model.Shared

/-! # Removed states -/

namespace KripkeLogic

open Outcome

def Event.Replaces : Event → Prop
  | .operate (.importText text) => ∃ m', Model.ofText text = .ok m'
  | .load text => ∃ m', Model.ofText text = .ok m'
  | _ => False

namespace Model

variable {m m' : Model} {e : Event} {i j : Nat} {indices : List Nat}

/-- The slot was given to a state, and the state was removed. -/
structure Vacant (m : Model) (i : Nat) : Prop where
  given : i < m.size
  dead : m.isLive i = false

/-! ## Single events -/

theorem vacant_removeState (hi : m.isLive i = true) : (m.removeState i).Vacant i where
  given := by
    rw [size_removeState]
    exact lt_size_of_isLive hi
  dead := by rw [isLive_removeState, if_pos rfl]

theorem Change.size_le (hc : m.Change e m') (hkeep : ¬ e.Replaces) : m.size ≤ m'.size := by
  cases hc with
  | addState => exact Nat.le_succ _
  | imported loaded | load loaded => exact absurd ⟨_, loaded⟩ hkeep
  | stay | removeState | setAssignment | addEdge | removeEdge | recompute | refresh =>
    simp [Model.refresh]

theorem Change.vacant (hc : m.Change e m') (hkeep : ¬ e.Replaces) (hi : m.Vacant i) :
    m'.Vacant i := by
  refine ⟨Nat.lt_of_lt_of_le hi.given (hc.size_le hkeep), ?_⟩
  have hdead := hi.dead
  cases hc with
  | stay => exact hdead
  | addState => rwa [isLive_addState, if_neg (Nat.ne_of_lt hi.given)]
  | removeState =>
    rw [isLive_removeState]
    split
    · rfl
    · exact hdead
  | setAssignment j a state => rwa [isLive_setAssignment (state?_eq_some_iff.1 state).2]
  | addEdge => rwa [isLive_setEdges]
  | removeEdge => rwa [isLive_setEdges]
  | recompute => rwa [isLive_recompute]
  | imported loaded | load loaded => exact absurd ⟨_, loaded⟩ hkeep
  | refresh => rwa [Model.refresh, isLive_recompute, isLive_recompute]

/-! ## New indices -/

def newIndex? (m : Model) : Event → Option Nat
  | .operate op =>
    match m.perform op with
    | (.ok (.index i), _) => some i
    | _ => none
  | _ => none

def newIndices (m : Model) : List Event → List Nat
  | [] => []
  | e :: events => (m.newIndex? e).toList ++ (m.after e).newIndices events

theorem index_of_perform {op : Operation} (h : m.perform op = (.ok (.index j), m')) :
    j = m.size ∧ m'.size = m.size + 1 := by
  cases op with
  | addState pairs =>
    obtain ⟨i, hi, h⟩ := settle_eq_ok_iff.1 h
    cases h
    obtain ⟨a, -, hm⟩ := callAddState_eq_ok hi
    exact ⟨index_of_callAddState hi, by rw [hm, size_addState]⟩
  | removeState => cases h
  | edit | addEdge | removeEdge | importText =>
    obtain ⟨b, -, h⟩ := settle_eq_ok_iff.1 h
    cases h
  | recompute =>
    obtain ⟨a, hclosure, ha⟩ := settle_eq_ok_iff.1 h
    obtain ⟨k, -, hk⟩ := map_eq_ok_iff.1 hclosure
    cases hk
    cases ha

theorem size_of_newIndex? (h : m.newIndex? e = some j) : j = m.size ∧ (m.after e).size = m.size + 1 := by
  unfold newIndex? at h
  split at h
  · split at h
    · rename_i hp
      cases h
      rw [after_of_ok hp]
      exact index_of_perform hp
    · cases h
  · cases h

/-- The indices increase, and each is greater than the index of every slot of the model. -/
structure NewFor (m : Model) (indices : List Nat) : Prop where
  increase : indices.Pairwise (· < ·)
  greater : ∀ j ∈ indices, ∀ s < m.size, s < j

theorem NewFor.not_mem (h : m.NewFor indices) (hi : i < m.size) : i ∉ indices :=
  fun hmem => Nat.lt_irrefl i (h.greater i hmem i hi)

theorem newFor_newIndices {events : List Event} (hkeep : ∀ e ∈ events, ¬ e.Replaces) :
    m.NewFor (m.newIndices events) := by
  induction events generalizing m with
  | nil => exact ⟨.nil, fun j hj => by cases hj⟩
  | cons e events ih =>
    obtain ⟨he, hevents⟩ := List.forall_mem_cons.1 hkeep
    have hrest : (m.after e).NewFor ((m.after e).newIndices events) := ih hevents
    rw [newIndices]
    cases hnew : m.newIndex? e with
    | none =>
      refine ⟨hrest.increase, fun j hj s hs => hrest.greater j hj s ?_⟩
      exact Nat.lt_of_lt_of_le hs ((change_after m e).size_le he)
    | some i =>
      obtain ⟨rfl, hsize⟩ := size_of_newIndex? hnew
      have hgreater : ∀ j ∈ (m.after e).newIndices events, m.size < j :=
        fun j hj => hrest.greater j hj m.size (by omega)
      refine ⟨List.pairwise_cons.2 ⟨hgreater, hrest.increase⟩, fun j hj s hs => ?_⟩
      rcases List.mem_cons.1 hj with rfl | hj
      · exact hs
      · exact Nat.lt_trans hs (hgreater j hj)

/-! ## Nothing is found at a vacant slot -/

theorem state?_eq_none {v : Value} (hi : m.isLive i = false) (hv : equalIndex? v = some i) :
    m.state? v = none := by
  rw [Option.eq_none_iff_forall_ne_some]
  intro j hj
  obtain ⟨rfl, hlive⟩ := state?_eq_some_iff.1 hj
  rw [equalIndex?_eq_some_iff, Value.toInt?, Option.some.injEq, Int.natCast_inj] at hv
  exact ne_of_isLive hlive hi hv

theorem recordAt_eq_none (hi : m.isLive i = false) : m.recordAt i = none := by
  rw [isLive, Option.isSome_eq_false_iff, Option.isNone_iff_eq_none] at hi
  rw [recordAt, hi, Option.map_none]

/-- What is found at the index of a removed state, whatever value stands for the index. -/
structure Removed (m : Model) (i : Nat) : Prop where
  state : ∀ v, equalIndex? v = some i → m.state? v = none
  addEdge : ∀ source target kind, equalIndex? source = some i ∨ equalIndex? target = some i →
    ¬ m.Accepts (.addEdge source target kind)
  edit : ∀ index pairs, equalIndex? index = some i → ¬ m.Accepts (.edit index pairs)
  edges : ∀ k, ∀ e ∈ m.edges k, e.1 ≠ i ∧ e.2 ≠ i
  closure : ∀ k, ∀ e ∈ (m.closure k).edges, e.1 ≠ i ∧ e.2 ≠ i
  neighbours : ∀ k j, i ∉ m.successors k j ∧ i ∉ m.predecessors k j
  /-- In the text of the model, nothing stands before the semicolon of its record. -/
  record : ∃ records, Text.cutClosed? ';' m.encode = some records ∧ records[i]? = some []

theorem Vacant.removed (hi : m.Vacant i) (h : m.Consistent) : m.Removed i := by
  refine ⟨fun v => state?_eq_none hi.dead, fun source target kind hends => ?addEdge,
    fun index pairs hindex => ?edit, fun k e he => h.ne_of_mem he hi.dead,
    fun k e he => h.ne_of_mem_closure he hi.dead,
    fun k j => ⟨fun hj => ?successors, fun hj => ?predecessors⟩,
    m.records.map Record.writeSlot, ?text, ?record⟩
  case addEdge =>
    rintro ⟨m', hp⟩
    obtain ⟨k, s, t, -, hs, ht, -⟩ := of_accepted (callAddEdge_cases (flag_eq_ok_iff.1 hp))
    rcases hends with hend | hend
    · cases (state?_eq_none hi.dead hend).symm.trans hs
    · cases (state?_eq_none hi.dead hend).symm.trans ht
  case edit =>
    rintro ⟨m', hp⟩
    obtain ⟨j, us, ups, -, -, hj, -⟩ := of_accepted (callEdit_cases (flag_eq_ok_iff.1 hp))
    cases (state?_eq_none hi.dead hindex).symm.trans hj
  case successors => exact (h.ne_of_mem (mem_successors.1 hj) hi.dead).2 rfl
  case predecessors => exact (h.ne_of_mem (mem_predecessors.1 hj) hi.dead).1 rfl
  case text => exact Record.cutClosed?_encode fun r => h.legal_drafted_records
  case record =>
    rw [List.getElem?_map, getElem?_records, if_pos hi.given, recordAt_eq_none hi.dead]
    rfl

/-! ## Histories -/

theorem vacant_run {events later : List Event} (hi : (run events).Vacant i)
    (hkeep : ∀ e ∈ later, ¬ e.Replaces) : (run (events ++ later)).Vacant i := by
  induction later using List.reverseRecOn with
  | nil => rwa [List.append_nil]
  | append_singleton later e ih =>
    rw [← List.append_assoc, run_snoc]
    have hbefore := ih fun e' he' => hkeep e' (List.mem_append_left _ he')
    have he := hkeep e (List.mem_append_right _ List.mem_cons_self)
    exact (change_after _ e).vacant he hbefore

/-- **Removed indices stay removed**, and the indices that are given out from then on grow beyond all
earlier ones, until another model takes the place of this one. -/
theorem removed_run (events later : List Event) {index : Value} {i : Nat}
    (hindex : (run events).state? index = some i) (hkeep : ∀ e ∈ later, ¬ e.Replaces) :
    (run (events ++ [.operate (.removeState index)] ++ later)).Removed i ∧
      i ∉ (run (events ++ [.operate (.removeState index)])).newIndices later ∧
      (run events).NewFor ((run (events ++ [.operate (.removeState index)])).newIndices later) := by
  obtain ⟨rfl, hlive⟩ := state?_eq_some_iff.1 hindex
  have hremoved : run (events ++ [.operate (.removeState (.int i))]) = (run events).removeState i := by
    rw [run_snoc, after_of_ok rfl, callRemoveState, hindex]
  have hvacant : (run (events ++ [.operate (.removeState (.int i))])).Vacant i := by
    rw [hremoved]
    exact vacant_removeState hlive
  have hnew := newFor_newIndices (m := (run events).removeState i) hkeep
  refine ⟨(vacant_run hvacant hkeep).removed (consistent_run _), ?_⟩
  rw [hremoved]
  refine ⟨hnew.not_mem ?_, hnew.increase, fun j hj s hs => hnew.greater j hj s ?_⟩
  · exact (vacant_removeState hlive).given
  · rwa [size_removeState]

/-- New states, calls for the old index by way of `true`, which equals 1, and a text that is refused. -/
def afterRemoval : List Event :=
  [.operate (.addState []), .operate (.addEdge (.bool true) (.int 2) Operation.defaultKind),
    .operate (.importText (.text ['A'])), .operate (.edit (.bool true) []), .operate (.addState [])]

theorem removed_twoStates : (run twoStates).state? (.int 1) = some 1 ∧
    (∀ e ∈ afterRemoval, ¬ e.Replaces) ∧
    (run (twoStates ++ [.operate (.removeState (.int 1))] ++ afterRemoval)).Removed 1 ∧
    (run (twoStates ++ [.operate (.removeState (.int 1))])).newIndices afterRemoval = [2, 3] ∧
    (run twoStates).NewFor [2, 3] := by
  have hindex : (run twoStates).state? (.int 1) = some 1 := by decide
  have hrefused : ∀ m', ofText (.text ['A']) ≠ .ok m' := by
    intro m' hloaded
    cases hloaded
  have hkeep : ∀ e ∈ afterRemoval, ¬ e.Replaces := by
    simp [afterRemoval, Event.Replaces, hrefused]
  obtain ⟨hremoved, -, hnew⟩ := removed_run twoStates afterRemoval hindex hkeep
  exact ⟨hindex, hkeep, hremoved, rfl, hnew⟩

end Model

end KripkeLogic
