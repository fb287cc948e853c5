import KripkeLogic.Proofs.Evaluation.Reordering
import KripkeLogic.Proofs.Model.Loops
import KripkeLogic.Proofs.Record
import Mathlib.Data.List.Sort

/-!
# Models are shared as text

The text of a model is read to a model that differs at most in the order of edges from different
sources, and nobody who looks at the model or evaluates in it sees that order.
-/

namespace KripkeLogic

open Outcome

namespace Assignment

theorem ext_mem {a b : Assignment} (h : ∀ x, x ∈ a ↔ x ∈ b) : a = b := by
  obtain ⟨xs, hxs⟩ := a
  obtain ⟨ys, hys⟩ := b
  obtain rfl : xs = ys := hxs.eq_of_mem_iff hys h
  rfl

theorem ofList_names (a : Assignment) : ofList a.names = a := ext_mem fun _ => mem_ofList

end Assignment

namespace Model

/-! ## Edges in their order -/

section AddNew

variable {es fs : List (Nat × Nat)} {e : Nat × Nat} {q : Nat × Nat → Bool}

theorem filter_addNew :
    (addNew es e).filter q = if q e then addNew (es.filter q) e else es.filter q := by
  have hcontains : q e = true → ((es.filter q).contains e = es.contains e) := by
    intro he
    rw [Bool.eq_iff_iff, List.contains_iff_mem, List.contains_iff_mem, List.mem_filter]
    exact and_iff_left he
  unfold addNew
  split
  · split
    · rename_i hmem hq
      rw [if_pos (by rwa [hcontains hq])]
    · rfl
  · rw [List.filter_append, List.filter_singleton]
    split
    · rename_i hmem hq
      rw [if_neg (by rwa [hcontains hq]), hq]
      rfl
    · rename_i hq
      rw [Bool.not_eq_true] at hq
      rw [hq]
      exact List.append_nil _

theorem filter_foldl_addNew :
    (fs.foldl addNew es).filter q = (fs.filter q).foldl addNew (es.filter q) := by
  induction fs generalizing es with
  | nil => rfl
  | cons f fs ih =>
    rw [List.foldl_cons, ih, filter_addNew, List.filter_cons]
    split <;> rfl

theorem addNew_of_mem (h : e ∈ es) : addNew es e = es := if_pos (List.contains_iff_mem.2 h)

theorem addNew_of_not_mem (h : e ∉ es) : addNew es e = es ++ [e] :=
  if_neg fun hc => h (List.contains_iff_mem.1 hc)

theorem foldl_addNew_of_nodup (h : (es ++ fs).Nodup) : fs.foldl addNew es = es ++ fs := by
  induction fs generalizing es with
  | nil => exact (List.append_nil es).symm
  | cons f fs ih =>
    have hf : f ∉ es := fun hmem => (List.nodup_append.1 h).2.2 f hmem f List.mem_cons_self rfl
    rw [List.append_cons] at h
    rw [List.foldl_cons, addNew_of_not_mem hf, ih h, List.append_assoc, List.singleton_append]

end AddNew

def edgesFrom (m : Model) (k : EdgeKind) (i : Nat) : List (Nat × Nat) :=
  (m.edges k).filter fun e => e.1 = i

variable {m m' : Model} {k : EdgeKind} {i : Nat} {e : Nat × Nat}

theorem mem_edgesFrom : e ∈ m.edgesFrom k i ↔ e ∈ m.edges k ∧ e.1 = i := by
  rw [edgesFrom, List.mem_filter, decide_eq_true_eq]

theorem map_successors (m : Model) (k : EdgeKind) (i : Nat) :
    (m.successors k i).map (fun t => (i, t)) = m.edgesFrom k i := by
  rw [successors, List.map_map]
  refine (List.map_congr_left fun e he => ?_).trans (List.map_id _)
  obtain rfl := (mem_edgesFrom.1 he).2
  rfl

theorem source_of_mem_listedBy {s : Nat} {r : Record} (h : e ∈ listedBy k s r) : e.1 = s :=
  (mem_listedBy.1 h).1

theorem filter_listedBy {s : Nat} {r : Record} (hs : s ≠ i) :
    (listedBy k s r).filter (fun e => e.1 = i) = [] := by
  rw [List.filter_eq_nil_iff]
  intro e he hi
  rw [source_of_mem_listedBy he, decide_eq_true_eq] at hi
  exact hs hi

theorem filter_listed (k : EdgeKind) (s i : Nat) (rs : List (Option Record)) :
    (listed k s rs).filter (fun e => e.1 = s + i) =
      match rs[i]? with
      | some (some r) => listedBy k (s + i) r
      | _ => [] := by
  induction rs generalizing s i with
  | nil => rfl
  | cons o rs ih =>
    cases i with
    | zero =>
      have hlater : (listed k (s + 1) rs).filter (fun e => e.1 = s + 0) = [] := by
        rw [List.filter_eq_nil_iff]
        intro e he hs
        obtain ⟨j, r, -, he⟩ := mem_listed.1 he
        rw [source_of_mem_listedBy he, decide_eq_true_eq] at hs
        omega
      cases o with
      | none => exact hlater
      | some r =>
        rw [listed, List.filter_append, hlater, List.append_nil, List.filter_eq_self.2]
        · rfl
        · intro e he
          rw [source_of_mem_listedBy he, decide_eq_true_eq]
          rfl
    | succ i =>
      have hlater := ih (s + 1) i
      rw [Nat.add_right_comm, Nat.add_assoc] at hlater
      cases o with
      | none => exact hlater
      | some r =>
        rw [listed, List.filter_append, filter_listedBy (by omega), List.nil_append]
        exact hlater

theorem edgesFrom_of_ofRecords {rs : List (Option Record)} (h : ofRecords rs = .ok m) (k : EdgeKind)
    (i : Nat) : m.edgesFrom k i =
      match rs[i]? with
      | some (some r) => (listedBy k i r).foldl addNew []
      | _ => [] := by
  have hedges : m.edges k = (listed k 0 rs).foldl addNew [] := by
    obtain ⟨-, rfl⟩ := ofRecords_eq_ok_iff.1 h
    rw [edges_ofEdges]
    cases k <;> rfl
  have hlisted := filter_listed k 0 i rs
  rw [Nat.zero_add] at hlisted
  rw [edgesFrom, hedges, filter_foldl_addNew, hlisted]
  split <;> rfl

/-! ## The records of a model -/

theorem slotOf_recordAt (m : Model) (i : Nat) : slotOf (m.recordAt i) = m.slot i := by
  have hrecord : m.recordAt i = (m.slot i).map _ := rfl
  rw [hrecord]
  cases m.slot i with
  | none => rfl
  | some a => exact congrArg some a.ofList_names

theorem getElem?_records (m : Model) (i : Nat) :
    m.records[i]? = if i < m.size then some (m.recordAt i) else none := by
  rw [records, List.getElem?_map]
  split
  · rename_i hi
    rw [List.getElem?_range hi]
    rfl
  · rename_i hi
    rw [List.getElem?_eq_none (by rw [List.length_range]; omega)]
    rfl

theorem slot_eq_none_of_le (h : m.size ≤ i) : m.slot i = none := by
  rw [slot, Vector.getElem?_eq_none h]
  rfl

theorem slot_statesOf_records (m : Model) (i : Nat) : (statesOf m.records).slot i = m.slot i := by
  rw [slot_statesOf, getElem?_records]
  split
  · exact slotOf_recordAt m i
  · rename_i hi
    exact (slot_eq_none_of_le (Nat.not_lt.1 hi)).symm

theorem toList_slotsOf_records (m : Model) : (slotsOf m.records).toList = m.slots.toList := by
  have hlist : (slotsOf m.records).toList = m.records.map slotOf := by
    simp [slotsOf]
  refine hlist.trans (List.ext_getElem? fun i => ?_)
  rw [List.getElem?_map, getElem?_records, Vector.getElem?_toList]
  split
  · rename_i hi
    rw [Option.map_some, slotOf_recordAt, slot, Vector.getElem?_eq_getElem hi]
    rfl
  · rename_i hi
    rw [Vector.getElem?_eq_none (Nat.not_lt.1 hi)]
    rfl

theorem of_getElem?_records {r : Record} (h : m.records[i]? = some (some r)) :
    m.isLive i = true ∧ r.names = (m.assignmentAt i).names ∧
      ∀ k, r.targets k = (m.successors k i).map Int.ofNat := by
  rw [getElem?_records, Option.ite_none_right_eq_some, Option.some.injEq] at h
  obtain ⟨a, ha, rfl⟩ := Option.map_eq_some_iff.1 h.2
  have hslot : m.slot i = some a := ha
  refine ⟨?_, ?_, fun k => ?_⟩
  · rw [isLive_eq, hslot]
    rfl
  · rw [assignmentAt_eq, hslot]
    rfl
  · cases k <;> rfl

theorem exists_record (h : m.isLive i = true) : ∃ r, m.records[i]? = some (some r) := by
  have hrecord : (m.recordAt i).isSome = true := by
    rw [recordAt, Option.isSome_map]
    exact h
  obtain ⟨r, hr⟩ := Option.isSome_iff_exists.1 hrecord
  exact ⟨r, by rw [getElem?_records, if_pos (lt_size_of_isLive h), hr]⟩

namespace Consistent

theorem legal_records (h : m.Consistent) (hsize : m.size ≤ Nat.pow 10 Record.digitLimit) {r : Record}
    (hr : some r ∈ m.records) : r.Legal := by
  obtain ⟨i, hi⟩ := List.mem_iff_getElem?.1 hr
  obtain ⟨-, hnames, htargets⟩ := of_getElem?_records hi
  have hread : ∀ k, ∀ t ∈ r.targets k, Record.Readable t := by
    intro k t ht
    rw [htargets] at ht
    obtain ⟨j, hj, rfl⟩ := List.mem_map.1 ht
    have hlt := (h.lt_size k _ (mem_successors.1 hj)).2
    exact ⟨Int.natCast_nonneg j, Nat.lt_of_lt_of_le hlt hsize⟩
  refine ⟨fun x hx => ?_, hread .preorder, hread .relation⟩
  rw [hnames] at hx
  exact h.legal i x hx

theorem legal_drafted_records (h : m.Consistent) {r : Record} (hr : some r ∈ m.records) :
    r.drafted.Legal := by
  obtain ⟨i, hi⟩ := List.mem_iff_getElem?.1 hr
  obtain ⟨-, hnames, htargets⟩ := of_getElem?_records hi
  have hnonneg : ∀ k, ∀ t ∈ r.targets k, 0 ≤ t := by
    intro k t ht
    rw [htargets] at ht
    obtain ⟨j, -, rfl⟩ := List.mem_map.1 ht
    exact Int.natCast_nonneg j
  apply Record.legal_drafted_of_nonneg _ (hnonneg .preorder) (hnonneg .relation)
  intro x hx
  rw [hnames] at hx
  exact h.legal i x hx

theorem admitsAll_records (h : m.Consistent) {r : Record} (hr : m.records[i]? = some (some r)) :
    (statesOf m.records).AdmitsAll i r := by
  intro k t ht
  obtain ⟨-, -, htargets⟩ := of_getElem?_records hr
  rw [htargets] at ht
  obtain ⟨j, hj, rfl⟩ := List.mem_map.1 ht
  have he := mem_successors.1 hj
  have hlive : (statesOf m.records).isLive j = true := by
    rw [isLive_eq, slot_statesOf_records, ← isLive_eq]
    exact (h.live k _ he).2
  refine ⟨Int.natCast_nonneg j, hlive, ?_⟩
  rintro rfl x hx
  rw [assignmentAt_eq, slot_statesOf_records, ← assignmentAt_eq] at hx ⊢
  exact h.monotone _ he x hx

theorem nodup_edgesFrom (h : m.Consistent) (k : EdgeKind) (i : Nat) : (m.edgesFrom k i).Nodup :=
  (h.nodup k).filter _

theorem foldl_listedBy (h : m.Consistent) {r : Record} (hr : m.records[i]? = some (some r))
    (hloop : (i, i) ∈ m.edges .preorder) (k : EdgeKind) :
    (listedBy k i r).foldl addNew [] = m.edgesFrom k i := by
  obtain ⟨-, -, htargets⟩ := of_getElem?_records hr
  have hown : (r.targets k).map (fun t => (i, t.toNat)) = m.edgesFrom k i := by
    rw [htargets, List.map_map]
    exact m.map_successors k i
  have hadd : (m.edgesFrom k i).foldl addNew [] = m.edgesFrom k i := by
    rw [foldl_addNew_of_nodup (h.nodup_edgesFrom k i), List.nil_append]
  rw [listedBy, hown, List.foldl_append, hadd]
  split
  · rename_i hk
    subst hk
    exact addNew_of_mem (mem_edgesFrom.2 ⟨hloop, rfl⟩)
  · rfl

/-- The records of a model are read to a model with the same edges from every source. -/
theorem exists_ofRecords (h : m.Consistent)
    (hloops : ∀ i, m.isLive i = true → (i, i) ∈ m.edges .preorder) :
    ∃ m', ofRecords m.records = .ok m' ∧ m'.slots.toList = m.slots.toList ∧
      ∀ k i, m'.edgesFrom k i = m.edgesFrom k i := by
  obtain ⟨m', hm'⟩ : ∃ m', ofRecords m.records = .ok m' :=
    ⟨_, ofRecords_eq_ok_iff.2 ⟨fun i r hr => h.admitsAll_records hr, rfl⟩⟩
  refine ⟨m', hm', ?_, fun k i => ?_⟩
  · obtain ⟨-, rfl⟩ := ofRecords_eq_ok_iff.1 hm'
    exact m.toList_slotsOf_records
  · rw [edgesFrom_of_ofRecords hm']
    split
    · rename_i r hr
      exact h.foldl_listedBy hr (hloops i (of_getElem?_records hr).1) k
    · rename_i hnone
      -- No record stands for a removed slot, and no edge starts there.
      symm
      rw [List.eq_nil_iff_forall_not_mem]
      intro e he
      obtain ⟨hmem, rfl⟩ := mem_edgesFrom.1 he
      obtain ⟨r, hr⟩ := exists_record (h.live k e hmem).1
      exact hnone r hr

end Consistent

/-! ## Models that look the same -/

/-- Nobody who looks at the models or evaluates in them can tell one from the other, but by the
order of edges from different sources. -/
structure LooksLike (m m' : Model) : Prop where
  states : m'.slots.toList = m.slots.toList
  successors : ∀ k i, m'.successors k i = m.successors k i
  edges : ∀ k, (m'.edges k).Perm (m.edges k)
  closures : ∀ k, (m'.closure k).edges = (m.closure k).edges
  confluent : m'.isConfluent = m.isConfluent
  evaluated : ∀ (ev : Evaluator) (arg : Argument), (ev.evaluate m' arg).1 = (ev.evaluate m arg).1
  text : m'.encode = m.encode

theorem looksLike_of_edgesFrom (h : m.Consistent) (h' : m'.Consistent)
    (hslots : m'.slots.toList = m.slots.toList)
    (hfrom : ∀ k i, m'.edgesFrom k i = m.edgesFrom k i) : m.LooksLike m' := by
  have hmem : ∀ k e, e ∈ m'.edges k ↔ e ∈ m.edges k := by
    intro k e
    have hiff := @mem_edgesFrom m' k e.1 e
    rw [hfrom, mem_edgesFrom, and_iff_left rfl, and_iff_left rfl] at hiff
    exact hiff.symm
  have hreordered : Reordered m m' := ⟨hslots, hmem⟩
  have hsuccessors : ∀ k i, m'.successors k i = m.successors k i := fun k i =>
    congrArg (List.map Prod.snd) (hfrom k i)
  have hrecords : m'.records = m.records := by
    have hsize : m'.size = m.size := by simpa using congrArg List.length hslots
    have hrecord : ∀ i, m'.recordAt i = m.recordAt i := by
      intro i
      have hslot : m'.slots[i]? = m.slots[i]? := by
        rw [← Vector.getElem?_toList, hslots, Vector.getElem?_toList]
      rw [recordAt, recordAt, hslot, hsuccessors, hsuccessors]
    rw [records, records, hsize]
    exact List.map_congr_left fun i _ => hrecord i
  exact ⟨hslots, hsuccessors, fun k =>
    (List.perm_ext_iff_of_nodup (h'.nodup k) (h.nodup k)).2 (hmem k),
    hreordered.closure_edges h h', hreordered.isConfluent h h', hreordered.evaluate h h',
    congrArg Record.encode hrecords⟩

/-- **A model that is shared as text comes back.** Its text is read, by any other model too, and
what is read looks like the model. -/
theorem shared_run (events : List Event) (hindex : ∀ e ∈ events, e.ByIndex)
    (hsize : (run events).size < Nat.pow 10 Record.digitLimit) :
    ∃ m', ofText (.text (run events).encode) = .ok m' ∧
      (∀ other : Model, other.importText (.text (run events).encode) = .ok (true, m')) ∧
      (run events).LooksLike m' := by
  have h := consistent_run events
  obtain ⟨m', hm', hslots, hfrom⟩ := h.exists_ofRecords fun i => loop_of_byIndex hindex
  have hdecode : Record.decode (run events).encode = .ok (run events).records :=
    Record.decode_encode fun r => h.legal_records (Nat.le_of_lt hsize)
  have htext : ofText (.text (run events).encode) = .ok m' :=
    ofText_eq_ok_iff.2 ⟨_, _, rfl, hdecode, hm'⟩
  refine ⟨m', htext, fun other => ?_,
    looksLike_of_edgesFrom h (consistent_ofText htext) hslots hfrom⟩
  rw [importText, htext]

def twoStates : List Event :=
  [.operate (.addState [(.text ['P', '1'], .bool true)]), .operate (.addState []),
    .operate (.addEdge (.int 1) (.int 0) (.text EdgeKind.preorder.word)),
    .operate (.addEdge (.int 1) (.int 1) Operation.defaultKind),
    .operate (.addEdge (.int 0) (.int 1) Operation.defaultKind),
    .operate (.removeEdge (.int 1) (.int 1) Operation.defaultKind)]

theorem shared_twoStates : (∀ e ∈ twoStates, e.ByIndex) ∧
    (run twoStates).size < Nat.pow 10 Record.digitLimit ∧
    ∃ m', ofText (.text (run twoStates).encode) = .ok m' ∧ (run twoStates).LooksLike m' := by
  have hindex : ∀ e ∈ twoStates, e.ByIndex := by
    simp [twoStates, Event.ByIndex, Value.kind]
  have hsmall : ∀ k, 0 < k → (run twoStates).size < Nat.pow 10 k := by
    intro k hk
    have hten : (run twoStates).size < 10 := by decide
    exact Nat.lt_of_lt_of_le hten (Nat.le_self_pow (Nat.ne_of_gt hk) 10)
  have hsize := hsmall Record.digitLimit (by decide)
  obtain ⟨m', htext, -, hlooks⟩ := shared_run twoStates hindex hsize
  exact ⟨hindex, hsize, m', htext, hlooks⟩

end Model

end KripkeLogic
