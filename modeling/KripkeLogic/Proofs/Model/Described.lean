import KripkeLogic.Proofs.Model.Imported
import KripkeLogic.Proofs.Model.Shared
import KripkeLogic.Proofs.Record.NormalForm

/-!
# The model that a text describes

A text describes a model if every index that it lists names a live slot and no preorder edge loses a
name.
-/

namespace KripkeLogic

open Outcome

theorem Assignment.names_ofList (xs : List (List Char)) :
    (ofList xs).names = Record.sortedNames xs := by
  refine (ofList xs).sorted.eq_of_mem_iff (Record.pairwise_sortedNames xs) fun x => ?_
  rw [Record.mem_sortedNames]
  exact mem_ofList

namespace Record

variable {ds : List (Option Draft)} {i : Nat}

/-- Every listed index names a live slot, and no preorder edge loses a name. -/
structure Describes (ds : List (Option Draft)) : Prop where
  live : ∀ (i : Nat) (d : Draft), ds[i]? = some (some d) → ∀ k, ∀ x ∈ d.targets k,
    ∃ d', ds[Text.decimalValue x]? = some (some d')
  grows : ∀ (i : Nat) (d : Draft), ds[i]? = some (some d) → ∀ x ∈ d.preorders,
    ∀ d', ds[Text.decimalValue x]? = some (some d') → ∀ y ∈ d.names, y ∈ d'.names

theorem targets_value (d : Draft) (k : EdgeKind) :
    d.value.targets k = (d.targets k).map fun x => (Text.decimalValue x : Int) := by
  cases k <;> rfl

theorem getElem?_values {r : Record} :
    (values ds)[i]? = some (some r) ↔ ∃ d, ds[i]? = some (some d) ∧ d.value = r := by
  rw [values, List.getElem?_map, Option.map_eq_some_iff]
  constructor
  · rintro ⟨o, ho, hr⟩
    obtain ⟨d, rfl, rfl⟩ := Option.map_eq_some_iff.1 hr
    exact ⟨d, ho, rfl⟩
  · rintro ⟨d, hd, rfl⟩
    exact ⟨some d, hd, rfl⟩

end Record

namespace Model

open Record

variable {ds : List (Option Draft)} {i : Nat} {d : Draft} {k : EdgeKind} {m : Model}

theorem slot_statesOf_values (ds : List (Option Draft)) (i : Nat) :
    (statesOf (values ds)).slot i = (ds[i]?).bind (Option.map fun d => .ofList d.names) := by
  rw [slot_statesOf, values, List.getElem?_map]
  rcases ds[i]? with _ | _ | d <;> rfl

theorem isLive_statesOf_values :
    (statesOf (values ds)).isLive i = true ↔ ∃ d, ds[i]? = some (some d) := by
  rw [isLive_eq, slot_statesOf_values]
  rcases ds[i]? with _ | _ | d <;> simp

theorem mem_assignmentAt_statesOf_values (hd : ds[i]? = some (some d)) {x : List Char} :
    x ∈ (statesOf (values ds)).assignmentAt i ↔ x ∈ d.names := by
  rw [assignmentAt_eq, slot_statesOf_values, hd]
  exact Assignment.mem_ofList

theorem describes_iff : Describes ds ↔
    ∀ i r, (values ds)[i]? = some (some r) → (statesOf (values ds)).AdmitsAll i r := by
  constructor
  · intro h i r hr k t ht
    obtain ⟨d, hd, rfl⟩ := getElem?_values.1 hr
    rw [targets_value] at ht
    obtain ⟨x, hx, rfl⟩ := List.mem_map.1 ht
    obtain ⟨d', hd'⟩ := h.live i d hd k x hx
    refine ⟨Int.natCast_nonneg _, isLive_statesOf_values.2 ⟨d', hd'⟩, ?_⟩
    rintro rfl y hy
    rw [mem_assignmentAt_statesOf_values hd] at hy
    exact (mem_assignmentAt_statesOf_values hd').2 (h.grows i d hd x hx d' hd' y hy)
  · intro h
    have hadmits : ∀ i d, ds[i]? = some (some d) → ∀ k, ∀ x ∈ d.targets k,
        (statesOf (values ds)).Admits k i (Text.decimalValue x : Int) := by
      intro i d hd k x hx
      refine h i d.value (getElem?_values.2 ⟨d, hd, rfl⟩) k _ ?_
      rw [targets_value]
      exact List.mem_map_of_mem hx
    refine ⟨fun i d hd k x hx => ?_, fun i d hd x hx d' hd' y hy => ?_⟩
    · obtain ⟨-, hlive, -⟩ := hadmits i d hd k x hx
      exact isLive_statesOf_values.1 hlive
    · obtain ⟨-, -, hgrows⟩ := hadmits i d hd .preorder x hx
      have hsource := (mem_assignmentAt_statesOf_values hd).2 hy
      exact (mem_assignmentAt_statesOf_values hd').1 (hgrows rfl y hsource)

theorem exists_ofRecords_values : (∃ m, ofRecords (values ds) = .ok m) ↔ Describes ds := by
  rw [describes_iff]
  constructor
  · rintro ⟨m, hm⟩
    exact (ofRecords_eq_ok_iff.1 hm).1
  · intro h
    exact ⟨_, ofRecords_eq_ok_iff.2 ⟨h, rfl⟩⟩

/-! ## Successors -/

theorem foldl_addNew_map (i : Nat) (ts : List Nat) :
    (ts.map (Prod.mk i)).foldl addNew [] = ts.eraseDups.map (Prod.mk i) := by
  induction ts using List.reverseRecOn with
  | nil => rfl
  | append_singleton ts t ih =>
    rw [List.map_append, List.foldl_append, ih, List.eraseDups_append, List.map_append]
    by_cases ht : t ∈ ts
    · have hmem : (i, t) ∈ ts.eraseDups.map (Prod.mk i) :=
        List.mem_map_of_mem (List.mem_eraseDups.2 ht)
      rw [List.map_singleton, List.foldl_cons, List.foldl_nil, addNew_of_mem hmem]
      simp [List.removeAll, ht]
    · have hmem : (i, t) ∉ ts.eraseDups.map (Prod.mk i) := by simpa using ht
      rw [List.map_singleton, List.foldl_cons, List.foldl_nil, addNew_of_not_mem hmem]
      simp [List.removeAll, ht, List.eraseDups_cons]

theorem edgesFrom_of_values (h : ofRecords (values ds) = .ok m) (hd : ds[i]? = some (some d))
    (k : EdgeKind) : m.edgesFrom k i = (d.successors i k).map (Prod.mk i) := by
  have hown : (d.value.targets k).map (fun t => (i, t.toNat)) =
      ((d.targets k).map Text.decimalValue).map (Prod.mk i) := by
    rw [targets_value, List.map_map, List.map_map]
    rfl
  rw [edgesFrom_of_ofRecords h, getElem?_values.2 ⟨d, hd, rfl⟩]
  simp only [listedBy, hown, List.foldl_append, foldl_addNew_map, Draft.successors]
  by_cases hk : k = .preorder
  · rw [if_pos hk, List.foldl_cons, List.foldl_nil]
    by_cases hi : i ∈ ((d.targets k).map Text.decimalValue).eraseDups
    · rw [if_neg fun h => h.2 hi, addNew_of_mem (List.mem_map_of_mem hi)]
    · rw [if_pos ⟨hk, hi⟩, addNew_of_not_mem (by simpa using hi), List.map_append]
      rfl
  · rw [if_neg hk, if_neg fun h => hk h.1]
    rfl

theorem successors_of_values (h : ofRecords (values ds) = .ok m) (hd : ds[i]? = some (some d))
    (k : EdgeKind) : m.successors k i = d.successors i k := by
  have hfrom := congrArg (List.map Prod.snd) (edgesFrom_of_values h hd k)
  rw [List.map_map] at hfrom
  exact hfrom.trans (List.map_id _)

theorem size_of_values (h : ofRecords (values ds) = .ok m) : m.size = ds.length := by
  obtain ⟨-, rfl⟩ := ofRecords_eq_ok_iff.1 h
  exact List.length_map _

theorem slot_of_values (h : ofRecords (values ds) = .ok m) (i : Nat) :
    m.slot i = (ds[i]?).bind (Option.map fun d => .ofList d.names) := by
  rw [slot_of_ofRecords h, ← slot_statesOf, slot_statesOf_values]

theorem records_of_values (h : ofRecords (values ds) = .ok m) : m.records = values (normal ds) := by
  refine List.ext_getElem? fun i => ?_
  have hslot := slot_of_values h i
  have hrecord : m.recordAt i = (m.slot i).map fun a => ⟨a.names,
    (m.successors .preorder i).map Int.ofNat, (m.successors .relation i).map Int.ofNat⟩ := rfl
  rw [getElem?_records, size_of_values h, hrecord, hslot, values, List.getElem?_map, getElem?_normal]
  rcases hi : ds[i]? with _ | _ | d
  · rw [if_neg (by simpa using hi)]
    rfl
  · rw [if_pos (List.getElem?_eq_some_iff.1 hi).1]
    rfl
  · rw [if_pos (List.getElem?_eq_some_iff.1 hi).1, successors_of_values h hi,
      successors_of_values h hi]
    simp [value_normal, Assignment.names_ofList]

theorem encode_of_values (h : ofRecords (values ds) = .ok m) : m.encode = textOf (normal ds) := by
  rw [encode, records_of_values h, encode_values_normal]

theorem mem_edges_of_values (h : ofRecords (values ds) = .ok m) {k : EdgeKind} {i j : Nat} :
    (i, j) ∈ m.edges k ↔ ∃ d, ds[i]? = some (some d) ∧ j ∈ d.successors i k := by
  have hown : (i, j) ∈ m.edges k ↔ (i, j) ∈ m.edgesFrom k i := by
    rw [mem_edgesFrom]
    exact (and_iff_left rfl).symm
  rw [hown]
  constructor
  · intro he
    rcases hi : ds[i]? with _ | _ | d
    · rw [edgesFrom_of_ofRecords h, values, List.getElem?_map, hi] at he
      cases he
    · rw [edgesFrom_of_ofRecords h, values, List.getElem?_map, hi] at he
      cases he
    · rw [edgesFrom_of_values h hi] at he
      exact ⟨d, rfl, by simpa using he⟩
  · rintro ⟨d, hd, hj⟩
    rw [edgesFrom_of_values h hd]
    exact List.mem_map_of_mem hj

/-! ## Edges in the order of their sources -/

theorem foldl_addNew_sublist (es fs : List (Nat × Nat)) :
    (fs.foldl addNew es).Sublist (es ++ fs) := by
  induction fs generalizing es with
  | nil => simp
  | cons f fs ih =>
    have hadd : (addNew es f).Sublist (es ++ [f]) := by
      unfold addNew
      split
      · exact List.sublist_append_left es [f]
      · exact List.Sublist.refl _
    rw [List.foldl_cons, List.append_cons]
    exact (ih _).trans (hadd.append_right fs)

theorem pairwise_listed (k : EdgeKind) (s : Nat) (rs : List (Option Record)) :
    (listed k s rs).Pairwise fun e f => e.1 ≤ f.1 := by
  induction rs generalizing s with
  | nil => exact .nil
  | cons o rs ih =>
    cases o with
    | none => exact ih (s + 1)
    | some r =>
      refine List.pairwise_append.2 ⟨?_, ih (s + 1), fun e he f hf => ?_⟩
      · refine List.pairwise_of_forall_mem_list fun e he f hf => ?_
        rw [source_of_mem_listedBy he, source_of_mem_listedBy hf]
      · obtain ⟨j, r', -, hf⟩ := mem_listed.1 hf
        rw [source_of_mem_listedBy he, source_of_mem_listedBy hf]
        omega

theorem pairwise_edges_of_ofRecords {rs : List (Option Record)} (h : ofRecords rs = .ok m)
    (k : EdgeKind) : (m.edges k).Pairwise fun e f => e.1 ≤ f.1 := by
  obtain ⟨-, rfl⟩ := ofRecords_eq_ok_iff.1 h
  have hlisted := (pairwise_listed k 0 rs).sublist (foldl_addNew_sublist [] _)
  cases k <;> exact hlisted

section Sources

variable {es es' : List (Nat × Nat)}

theorem mem_iff_of_filter_source
    (h : ∀ i, es.filter (fun e => e.1 = i) = es'.filter fun e => e.1 = i) (e : Nat × Nat) :
    e ∈ es ↔ e ∈ es' := by
  have hown : ∀ fs : List (Nat × Nat), e ∈ fs ↔ e ∈ fs.filter fun f => f.1 = e.1 := by simp
  rw [hown, h, ← hown]

theorem eq_of_filter_source (h : es.Pairwise fun e f => e.1 ≤ f.1)
    (h' : es'.Pairwise fun e f => e.1 ≤ f.1)
    (hfrom : ∀ i, es.filter (fun e => e.1 = i) = es'.filter fun e => e.1 = i) : es = es' := by
  have hmem := mem_iff_of_filter_source hfrom
  induction es generalizing es' with
  | nil =>
    symm
    rw [List.eq_nil_iff_forall_not_mem]
    intro e he
    exact List.not_mem_nil ((hmem e).2 he)
  | cons e es ih =>
    cases es' with
    | nil => exact absurd ((hmem e).1 List.mem_cons_self) List.not_mem_nil
    | cons f es' =>
      obtain ⟨hall, hes⟩ := List.pairwise_cons.1 h
      obtain ⟨hall', hes'⟩ := List.pairwise_cons.1 h'
      -- Each of the first edges is among the others, so neither source comes before the other.
      have hle : f.1 ≤ e.1 := by
        rcases List.mem_cons.1 ((hmem e).1 List.mem_cons_self) with rfl | he
        · exact Nat.le_refl _
        · exact hall' e he
      have hge : e.1 ≤ f.1 := by
        rcases List.mem_cons.1 ((hmem f).2 List.mem_cons_self) with rfl | hf
        · exact Nat.le_refl _
        · exact hall f hf
      have hfirst := hfrom e.1
      rw [List.filter_cons_of_pos (by simp), List.filter_cons_of_pos (by simp; omega)] at hfirst
      obtain ⟨rfl, -⟩ := List.cons.inj hfirst
      have hrest : ∀ i, es.filter (fun g => g.1 = i) = es'.filter fun g => g.1 = i := by
        intro i
        have hi := hfrom i
        simp only [List.filter_cons] at hi
        split at hi
        · exact (List.cons.inj hi).2
        · exact hi
      rw [ih hes hes' hrest (mem_iff_of_filter_source hrest)]

end Sources

/-! ## Reading the normal form -/

theorem ofRecords_records {rs : List (Option Record)} (h : ofRecords rs = .ok m)
    (hm : m.Consistent) (hloops : ∀ i, m.isLive i = true → (i, i) ∈ m.edges .preorder) :
    ofRecords m.records = .ok m := by
  obtain ⟨m', hm', hslots, hfrom⟩ := hm.exists_ofRecords hloops
  have hconsistent : m'.Consistent := by
    refine consistent_ofRecords hm' fun r hr x hx => ?_
    obtain ⟨i, hi⟩ := List.mem_iff_getElem?.1 hr
    obtain ⟨-, hnames, -⟩ := of_getElem?_records hi
    exact hm.legal i x (by rwa [hnames] at hx)
  have hedges : ∀ k, m'.edges k = m.edges k := fun k =>
    eq_of_filter_source (pairwise_edges_of_ofRecords hm' k) (pairwise_edges_of_ofRecords h k)
      (hfrom k)
  have hreordered : Reordered m m' := ⟨hslots, fun k e => by rw [hedges]⟩
  obtain ⟨ps, es, rfl, -⟩ := hreordered.exists_eq hm hconsistent
  obtain rfl : ps = m.preorders := hedges .preorder
  obtain rfl : es = m.relations := hedges .relation
  exact hm'

/-! ## Descriptions -/

variable {text : List Char}

/-- A text is read if it follows the grammar, no index is too long and every edge may stand. -/
theorem ofText_eq_ok_iff_follows : ofText (.text text) = .ok m ↔ ∃ ds, Follows text ds ∧
    (∀ x ∈ Record.indices ds, x.length ≤ digitLimit) ∧ ofRecords (values ds) = .ok m := by
  rw [ofText_eq_ok_iff]
  constructor
  · rintro ⟨_, rs, hcs, hrs, hm⟩
    cases hcs
    obtain ⟨ds, hds, hshort, rfl⟩ := Record.decode_eq_ok_iff.1 hrs
    exact ⟨ds, hds, hshort, hm⟩
  · rintro ⟨ds, hds, hshort, hm⟩
    exact ⟨text, values ds, rfl, Record.decode_eq_ok_iff.2 ⟨ds, hds, hshort, rfl⟩, hm⟩

theorem live_of_values (h : ofRecords (values ds) = .ok m) :
    m.isLive i = true ↔ ∃ d, ds[i]? = some (some d) := by
  rw [isLive_eq, slot_of_values h]
  rcases ds[i]? with _ | _ | d <;> simp

/-- The model is the one that the records describe, and its text is their normal form. That text
is read to the same model, unless the loop of a state is an index that is too long. -/
structure Described (ds : List (Option Draft)) (m : Model) : Prop where
  size : m.size = ds.length
  live : ∀ i, m.isLive i = true ↔ ∃ d, ds[i]? = some (some d)
  names : ∀ (i : Nat) (d : Draft), ds[i]? = some (some d) →
    ∀ x, x ∈ m.assignmentAt i ↔ x ∈ d.names
  relations : ∀ i j, (i, j) ∈ m.edges .relation ↔
    ∃ d, ds[i]? = some (some d) ∧ ∃ x ∈ d.relations, Text.decimalValue x = j
  preorders : ∀ i j, (i, j) ∈ m.edges .preorder ↔
    ∃ d, ds[i]? = some (some d) ∧ ((∃ x ∈ d.preorders, Text.decimalValue x = j) ∨ j = i)
  text : m.encode = textOf (normal ds)
  again : (ofText (.text m.encode) = .ok m ∧
      ∀ other : Model, other.importText (.text m.encode) = .ok (true, m)) ↔
    ∀ i, m.isLive i = true → i < Nat.pow 10 digitLimit

theorem described_of_values (hfollows : Follows text ds)
    (hshort : ∀ x ∈ Record.indices ds, x.length ≤ digitLimit) (h : ofRecords (values ds) = .ok m) :
    m.Described ds := by
  have htext : ofText (.text text) = .ok m :=
    ofText_eq_ok_iff_follows.2 ⟨ds, hfollows, hshort, h⟩
  refine ⟨size_of_values h, fun i => live_of_values h, fun i d hd x => ?_, fun i j => ?_,
    fun i j => ?_, encode_of_values h, ?_⟩
  · rw [assignmentAt_eq, slot_of_values h, hd]
    exact Assignment.mem_ofList
  · rw [mem_edges_of_values h]
    simp [mem_successors_iff, Draft.targets]
  · rw [mem_edges_of_values h]
    simp [mem_successors_iff, Draft.targets]
  · have hrecords : ofRecords (values (normal ds)) = .ok m := by
      rw [← records_of_values h]
      exact ofRecords_records h (consistent_ofText htext) fun i => loop_of_ofText htext
    have hnormal := follows_normal hfollows
    have hlimit : (∀ i, m.isLive i = true → i < Nat.pow 10 digitLimit) ↔
        ∀ x ∈ Record.indices (normal ds), x.length ≤ digitLimit := by
      rw [short_normal_iff hshort]
      simp only [live_of_values h, forall_exists_index]
    rw [encode_of_values h, hlimit]
    constructor
    · rintro ⟨hagain, -⟩
      obtain ⟨ds', hds', hall, -⟩ := ofText_eq_ok_iff_follows.1 hagain
      rwa [hds'.unique hnormal] at hall
    · intro hall
      have hagain := ofText_eq_ok_iff_follows.2 ⟨_, hnormal, hall, hrecords⟩
      exact ⟨hagain, fun other => importText_of_ok hagain⟩

/-- **Reading accepts exactly the texts that describe a model, and gives that model.** Any other
text is refused. -/
theorem ofText_iff_describes
    (hshort : ∀ ds, Follows text ds → ∀ x ∈ Record.indices ds, x.length ≤ digitLimit) :
    ((∃ m, ofText (.text text) = .ok m) ↔ ∃ ds, Follows text ds ∧ Describes ds) ∧
      (∀ m, ofText (.text text) = .ok m → (∃ ds, Follows text ds ∧ m.Described ds) ∧
        ∀ other : Model, other.importText (.text text) = .ok (true, m)) ∧
      ∀ e, ofText (.text text) = .error e → (∀ digits, e ≠ .record (.longIndex digits)) ∧
        ∀ other : Model, other.importText (.text text) = .ok (false, other) := by
  refine ⟨⟨?_, ?_⟩, fun m hm => ⟨?_, fun other => importText_of_ok hm⟩, fun e he => ?_⟩
  · rintro ⟨m, hm⟩
    obtain ⟨ds, hds, -, hm⟩ := ofText_eq_ok_iff_follows.1 hm
    exact ⟨ds, hds, exists_ofRecords_values.1 ⟨m, hm⟩⟩
  · rintro ⟨ds, hds, hdescribes⟩
    obtain ⟨m, hm⟩ := exists_ofRecords_values.2 hdescribes
    exact ⟨m, ofText_eq_ok_iff_follows.2 ⟨ds, hds, hshort ds hds, hm⟩⟩
  · obtain ⟨ds, hds, hall, hm⟩ := ofText_eq_ok_iff_follows.1 hm
    exact ⟨ds, hds, described_of_values hds hall hm⟩
  · have hnot : ∀ digits, e ≠ .record (.longIndex digits) := by
      rintro digits rfl
      obtain ⟨ds, x, hds, hx, -⟩ := Record.decode_eq_longIndex_iff.1 (ofText_eq_record_iff.1 he)
      have hlong := List.find?_some hx
      rw [tooLong, decide_eq_true_eq] at hlong
      exact absurd (hshort ds hds x (List.mem_of_find?_eq_some hx)) (Nat.not_le.2 hlong)
    exact ⟨hnot, fun other => importText_of_refused he hnot fun b hb =>
      decode_ne_broken (ofText_eq_record_iff.1 (hb ▸ he))⟩

/-- Names and indices are repeated, one digit is of another script, and loops are missing. -/
def disordered : List Char :=
  ['A', 'q', ',', 'p', ',', 'q', 'P', '0', '2', ',', '2', 'R', '2', ';', ';',
    'A', 'p', ',', 'q', 'P', 'R', '٠', ',', '0', ';']

theorem describes_disordered :
    (∀ ds, Follows disordered ds → ∀ x ∈ Record.indices ds, x.length ≤ digitLimit) ∧
      ∃ ds m, Follows disordered ds ∧ ofText (.text disordered) = .ok m ∧ m.Described ds ∧
        m.encode = ['A', 'p', ',', 'q', 'P', '2', ',', '0', 'R', '2', ';', ';',
          'A', 'p', ',', 'q', 'P', '2', 'R', '0', ';'] := by
  have hdrafts : drafts? disordered = some [some ⟨[['q'], ['p'], ['q']], [['0', '2'], ['2']],
      [['2']]⟩, none, some ⟨[['p'], ['q']], [], [['٠'], ['0']]⟩] := by
    decide +kernel
  have hshort : ∀ ds, Follows disordered ds → ∀ x ∈ Record.indices ds, x.length ≤ digitLimit := by
    intro ds hds
    rw [← (drafts?_eq_some_iff.1 hdrafts).unique hds]
    decide
  have htext : (ofText (.text disordered)).map encode =
      .ok ['A', 'p', ',', 'q', 'P', '2', ',', '0', 'R', '2', ';', ';',
        'A', 'p', ',', 'q', 'P', '2', 'R', '0', ';'] := rfl
  obtain ⟨m, hm, hencode⟩ := map_eq_ok_iff.1 htext
  obtain ⟨-, hbuilt, -⟩ := ofText_iff_describes hshort
  obtain ⟨⟨ds, hds, hdescribed⟩, -⟩ := hbuilt m hm
  exact ⟨hshort, ds, m, hds, hm, hdescribed, hencode⟩

end Model

end KripkeLogic
