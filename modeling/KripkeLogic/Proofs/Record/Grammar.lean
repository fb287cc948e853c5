import KripkeLogic.Proofs.Outcome
import KripkeLogic.Record

/-!
# The grammar of records

A text follows the grammar in one way at most, and that is how it is read. Names may hold the
letters `A`, `P` and `R`: the last `R` of a record comes before its relation, as indices are digits.
-/

namespace KripkeLogic

open Outcome

namespace Text

variable {c d : Char}

theorem mem_join {fs : List (List Char)} (h : c ∈ join d fs) : c = d ∨ ∃ f ∈ fs, c ∈ f := by
  fun_induction join d fs with
  | case1 => cases h
  | case2 f => exact Or.inr ⟨f, List.mem_cons_self, h⟩
  | case3 f fs hne ih =>
    rcases List.mem_append.1 h with h | h
    · exact Or.inr ⟨f, List.mem_cons_self, h⟩
    · rcases List.mem_cons.1 h with h | h
      · exact Or.inl h
      · refine (ih h).imp_right ?_
        rintro ⟨g, hg, hc⟩
        exact ⟨g, List.mem_cons_of_mem f hg, hc⟩

theorem cutClosed?_append {f t : List Char} (h : c ∉ f) :
    cutClosed? c (f ++ c :: t) = (cutClosed? c t).map (f :: ·) := by
  induction f with
  | nil => rw [List.nil_append, cutClosed?, if_pos rfl]
  | cons x f ih =>
    rw [List.mem_cons, not_or] at h
    rw [List.cons_append, cutClosed?, if_neg (Ne.symm h.1), ih h.2]
    cases cutClosed? c t <;> rfl

theorem cutClosed?_flatMap {fs : List (List Char)} (h : ∀ f ∈ fs, c ∉ f) :
    cutClosed? c (fs.flatMap (· ++ [c])) = some fs := by
  induction fs with
  | nil => rfl
  | cons f fs ih =>
    obtain ⟨hf, hfs⟩ := List.forall_mem_cons.1 h
    rw [List.flatMap_cons, List.append_assoc, List.singleton_append, cutClosed?_append hf, ih hfs]
    rfl

theorem cutClosed?_eq_some_iff {t : List Char} {fs : List (List Char)} :
    cutClosed? c t = some fs ↔ (∀ f ∈ fs, c ∉ f) ∧ t = fs.flatMap (· ++ [c]) := by
  constructor
  · intro h
    induction t generalizing fs with
    | nil =>
      cases h
      exact ⟨fun f hf => (List.not_mem_nil hf).elim, rfl⟩
    | cons x t ih =>
      rw [cutClosed?] at h
      split at h
      · rename_i hx
        obtain ⟨gs, hgs, rfl⟩ := Option.map_eq_some_iff.1 h
        obtain ⟨hmem, rfl⟩ := ih hgs
        subst hx
        exact ⟨List.forall_mem_cons.2 ⟨List.not_mem_nil, hmem⟩, rfl⟩
      · rename_i hx
        split at h
        · rename_i f gs hgs
          cases h
          obtain ⟨hmem, rfl⟩ := ih hgs
          obtain ⟨hf, hmem⟩ := List.forall_mem_cons.1 hmem
          have hcons : c ∉ x :: f := by
            rw [List.mem_cons, not_or]
            exact ⟨Ne.symm hx, hf⟩
          exact ⟨List.forall_mem_cons.2 ⟨hcons, hmem⟩, rfl⟩
        · cases h
  · rintro ⟨hmem, rfl⟩
    exact cutClosed?_flatMap hmem

end Text

namespace Record

/-! ## Items -/

theorem join_items (segment : List Char) : Text.join ',' (items segment) = segment := by
  unfold items
  split
  · rename_i h
    exact h.symm
  · exact Text.join_cut ',' segment

theorem items_join {fs : List (List Char)} (hne : ∀ f ∈ fs, f ≠ []) (hcomma : ∀ f ∈ fs, ',' ∉ f) :
    items (Text.join ',' fs) = fs := by
  cases fs with
  | nil => rfl
  | cons f fs =>
    have hjoin : Text.join ',' (f :: fs) ≠ [] := by
      have hf := hne f List.mem_cons_self
      cases fs with
      | nil => exact hf
      | cons g fs => simp [Text.join, hf]
    rw [items, if_neg hjoin, Text.cut_join (List.cons_ne_nil f fs) hcomma]

variable {x : List Char} {xs : List (List Char)} {c : Char}

theorem not_mem_of_isName (h : isName x = true) (hc : isNameChar c = false) : c ∉ x := by
  intro hmem
  rw [Name.isNameChar_of_mem (n := ⟨x, h⟩) hmem] at hc
  cases hc

theorem items_names (h : ∀ x ∈ xs, isName x = true) : items (Text.join ',' xs) = xs :=
  items_join (fun x hx => Name.ne_nil ⟨x, h x hx⟩) fun x hx => not_mem_of_isName (h x hx) rfl

theorem isIndex_iff : isIndex x = true ↔ x ≠ [] ∧ ∀ c ∈ x, Text.isDecimal c = true := by
  simp [isIndex]

theorem not_mem_of_isIndex (h : isIndex x = true) (hc : Text.isDecimal c = false) : c ∉ x := by
  intro hmem
  rw [(isIndex_iff.1 h).2 c hmem] at hc
  cases hc

theorem items_indices (h : ∀ x ∈ xs, isIndex x = true) : items (Text.join ',' xs) = xs :=
  items_join (fun x hx => (isIndex_iff.1 (h x hx)).1) fun x hx =>
    not_mem_of_isIndex (h x hx) (by decide)

theorem not_mem_join_indices (h : ∀ x ∈ xs, isIndex x = true) (hcomma : c ≠ ',')
    (hc : Text.isDecimal c = false) : c ∉ Text.join ',' xs := by
  intro hmem
  obtain hmem | ⟨x, hx, hmem⟩ := Text.mem_join hmem
  · exact hcomma hmem
  · exact not_mem_of_isIndex (h x hx) hc hmem

/-! ## Single records -/

namespace Draft

structure Legal (d : Draft) : Prop where
  names : ∀ x ∈ d.names, isName x = true
  preorders : ∀ x ∈ d.preorders, isIndex x = true
  relations : ∀ x ∈ d.relations, isIndex x = true

def write (d : Draft) : List Char :=
  'A' :: (Text.join ',' d.names ++ 'P' :: (Text.join ',' d.preorders ++
    'R' :: Text.join ',' d.relations))

theorem not_mem_write {d : Draft} (h : d.Legal) : ';' ∉ d.write := by
  have hnames : ';' ∉ Text.join ',' d.names := by
    intro hmem
    obtain hmem | ⟨x, hx, hmem⟩ := Text.mem_join hmem
    · cases hmem
    · exact not_mem_of_isName (h.names x hx) rfl hmem
  have hpreorders := not_mem_join_indices (c := ';') h.preorders (by decide) (by decide)
  have hrelations := not_mem_join_indices (c := ';') h.relations (by decide) (by decide)
  simp [write, hnames, hpreorders, hrelations]

end Draft

theorem draft?_write {d : Draft} (h : d.Legal) : draft? d.write = some d := by
  let names := Text.join ',' d.names
  let preorders := Text.join ',' d.preorders
  let relations := Text.join ',' d.relations
  have hwrite : d.write = 'A' :: (names ++ 'P' :: preorders ++ 'R' :: relations) := by
    simp [Draft.write, names, preorders, relations]
  have hR : Text.cutLast? 'R' (names ++ 'P' :: preorders ++ 'R' :: relations) =
      some (names ++ 'P' :: preorders, relations) :=
    Text.cutLast?_eq_some_iff.2 ⟨rfl, not_mem_join_indices h.relations (by decide) (by decide)⟩
  have hP : Text.cutLast? 'P' (names ++ 'P' :: preorders) = some (names, preorders) :=
    Text.cutLast?_eq_some_iff.2 ⟨rfl, not_mem_join_indices h.preorders (by decide) (by decide)⟩
  simp only [hwrite, draft?, hR, hP, Option.bind_eq_bind, Option.bind_some, names, preorders,
    relations, items_names h.names, items_indices h.preorders, items_indices h.relations,
    List.all_eq_true.2 h.names, List.all_eq_true.2 h.preorders, List.all_eq_true.2 h.relations]
  rfl

theorem draft?_eq_some_iff {chunk : List Char} {d : Draft} :
    draft? chunk = some d ↔ d.Legal ∧ chunk = d.write := by
  constructor
  · intro h
    unfold draft? at h
    split at h
    · simp only [Option.bind_eq_bind, Option.bind_eq_some_iff, Option.ite_none_right_eq_some,
        Bool.and_eq_true, Option.some.injEq] at h
      obtain ⟨⟨front, relations⟩, hR, ⟨names, preorders⟩, hP, ⟨⟨hnames, hpre⟩, hrel⟩, rfl⟩ := h
      obtain ⟨rfl, -⟩ := Text.cutLast?_eq_some_iff.1 hR
      obtain ⟨rfl, -⟩ := Text.cutLast?_eq_some_iff.1 hP
      refine ⟨⟨List.all_eq_true.1 hnames, List.all_eq_true.1 hpre, List.all_eq_true.1 hrel⟩, ?_⟩
      simp [Draft.write, join_items]
    · cases h
  · rintro ⟨h, rfl⟩
    exact draft?_write h

/-! ## Whole texts -/

def slotText : Option Draft → List Char
  | none => []
  | some d => d.write

def textOf (ds : List (Option Draft)) : List Char := ds.flatMap fun o => slotText o ++ [';']

structure Follows (text : List Char) (ds : List (Option Draft)) : Prop where
  legal : ∀ d, some d ∈ ds → d.Legal
  text_eq : text = textOf ds

theorem draftSlot?_eq_some_iff {chunk : List Char} {o : Option Draft} :
    draftSlot? chunk = some o ↔ (∀ d, o = some d → d.Legal) ∧ chunk = slotText o := by
  unfold draftSlot?
  cases o with
  | none =>
    split
    · rename_i h
      simp [h, slotText]
    · rename_i h
      simp [h, slotText]
  | some d =>
    have hne : d.write ≠ [] := List.cons_ne_nil _ _
    split
    · rename_i h
      subst h
      simp [slotText, hne.symm]
    · simp [slotText, draft?_eq_some_iff]

/-- **A text is read as the records that it follows the grammar with**, so these are unique. -/
theorem drafts?_eq_some_iff {text : List Char} {ds : List (Option Draft)} :
    drafts? text = some ds ↔ Follows text ds := by
  unfold drafts?
  simp only [Option.bind_eq_bind, Option.bind_eq_some_iff, Text.cutClosed?_eq_some_iff]
  constructor
  · rintro ⟨chunks, ⟨-, rfl⟩, hread⟩
    have hslots := forall₂_of_mapM_some hread
    clear hread
    induction hslots with
    | nil => exact ⟨fun d hd => (List.not_mem_nil hd).elim, rfl⟩
    | @cons chunk o chunks ds hslot _ ih =>
      obtain ⟨hlegal, rfl⟩ := draftSlot?_eq_some_iff.1 hslot
      refine ⟨fun d hd => ?_, ?_⟩
      · rcases List.mem_cons.1 hd with hd | hd
        · exact hlegal d hd.symm
        · exact ih.legal d hd
      · rw [List.flatMap_cons, ih.text_eq]
        rfl
  · rintro ⟨hlegal, rfl⟩
    refine ⟨ds.map slotText, ⟨?_, by rw [List.flatMap_map]; rfl⟩, ?_⟩
    · intro f hf
      obtain ⟨o, ho, rfl⟩ := List.mem_map.1 hf
      cases o with
      | none => exact List.not_mem_nil
      | some d => exact Draft.not_mem_write (hlegal d ho)
    · have hread : (ds.map slotText).mapM draftSlot? = pure (ds.map id) :=
        mapM_map_eq_pure fun o ho =>
          draftSlot?_eq_some_iff.2 ⟨fun d hd => hlegal d (hd ▸ ho), rfl⟩
      rwa [List.map_id] at hread

section Slots

variable {α β : Type} {os : List (Option α)}

theorem some_mem_map_iff {f : α → β} {b : β} :
    some b ∈ os.map (Option.map f) ↔ ∃ a, some a ∈ os ∧ f a = b := by
  rw [List.mem_map]
  constructor
  · rintro ⟨o, ho, hob⟩
    obtain ⟨a, rfl, hab⟩ := Option.map_eq_some_iff.1 hob
    exact ⟨a, ho, hab⟩
  · rintro ⟨a, ha, rfl⟩
    exact ⟨some a, ha, rfl⟩

theorem follows_textOf_map {f : α → Draft} (h : ∀ a, some a ∈ os → (f a).Legal) :
    Follows (textOf (os.map (Option.map f))) (os.map (Option.map f)) := by
  refine ⟨fun d hd => ?_, rfl⟩
  obtain ⟨a, ha, rfl⟩ := some_mem_map_iff.1 hd
  exact h a ha

end Slots

theorem Follows.unique {text : List Char} {ds ds' : List (Option Draft)} (h : Follows text ds)
    (h' : Follows text ds') : ds = ds' := by
  rw [← drafts?_eq_some_iff] at h h'
  rw [h] at h'
  exact Option.some.inj h'

/-! ## Indices are read -/

def tooLong (x : List Char) : Bool := digitLimit < x.length

def unlessLong {α : Type} (xs : List (List Char)) (a : α) : Except RecordError α :=
  match xs.find? tooLong with
  | some x => .error (.longIndex x.length)
  | none => .ok a

section UnlessLong

variable {α β : Type} {ys : List (List Char)}

theorem unlessLong_bind {a : α} {b : β} {f : α → Except RecordError β}
    (h : f a = unlessLong ys b) : (unlessLong xs a >>= f) = unlessLong (xs ++ ys) b := by
  unfold unlessLong at h ⊢
  rw [List.find?_append]
  cases xs.find? tooLong with
  | none => exact h
  | some x => rfl

theorem unlessLong_map (a : α) (f : α → β) :
    (unlessLong xs a >>= fun a => pure (f a)) = unlessLong xs (f a) := by
  unfold unlessLong
  cases xs.find? tooLong <;> rfl

theorem mapM_unlessLong {f : α → Except RecordError β} {g : α → List (List Char)} {r : α → β}
    {as : List α} (h : ∀ a, f a = unlessLong (g a) (r a)) :
    as.mapM f = unlessLong (as.flatMap g) (as.map r) := by
  induction as with
  | nil => rfl
  | cons a as ih =>
    rw [List.mapM_cons, h, List.flatMap_cons, List.map_cons]
    refine unlessLong_bind ?_
    rw [ih]
    exact unlessLong_map _ _

theorem unlessLong_eq_ok_iff {a b : α} :
    unlessLong xs a = .ok b ↔ (∀ x ∈ xs, x.length ≤ digitLimit) ∧ a = b := by
  unfold unlessLong
  split
  · rename_i x hx
    have hlong := List.find?_some hx
    rw [tooLong, decide_eq_true_eq] at hlong
    constructor
    · intro h
      cases h
    · rintro ⟨h, -⟩
      exact absurd (h x (List.mem_of_find?_eq_some hx)) (Nat.not_le.2 hlong)
  · rename_i hnone
    rw [List.find?_eq_none] at hnone
    have hall : ∀ x ∈ xs, x.length ≤ digitLimit := by
      intro x hx
      simpa [tooLong] using hnone x hx
    rw [Except.ok.injEq, and_iff_right hall]

end UnlessLong

theorem readIndex_eq (x : List Char) : readIndex x = unlessLong [x] (Text.decimalValue x : Int) := by
  unfold readIndex unlessLong tooLong
  rw [List.find?_singleton]
  split <;> rename_i h <;> simp [h]

namespace Draft

def value (d : Draft) : Record where
  names := d.names
  preorders := d.preorders.map fun x => (Text.decimalValue x : Int)
  relations := d.relations.map fun x => (Text.decimalValue x : Int)

def indices (d : Draft) : List (List Char) := d.preorders ++ d.relations

theorem read_eq (d : Draft) : d.read = unlessLong d.indices d.value := by
  have hread : ∀ xs : List (List Char), xs.mapM readIndex =
      unlessLong xs (xs.map fun x => (Text.decimalValue x : Int)) := by
    intro xs
    rw [mapM_unlessLong readIndex_eq, List.flatMap_singleton']
  rw [read, hread]
  refine unlessLong_bind ?_
  rw [hread]
  exact unlessLong_map _ _

end Draft

def indices (ds : List (Option Draft)) : List (List Char) :=
  ds.flatMap fun o => (o.map Draft.indices).getD []

theorem mem_indices_iff {ds : List (Option Draft)} {x : List Char} :
    x ∈ indices ds ↔ ∃ d, some d ∈ ds ∧ x ∈ d.indices := by
  rw [indices, List.mem_flatMap]
  constructor
  · rintro ⟨_ | d, hd, hx⟩
    · cases hx
    · exact ⟨d, hd, hx⟩
  · rintro ⟨d, hd, hx⟩
    exact ⟨some d, hd, hx⟩

def values (ds : List (Option Draft)) : List (Option Record) := ds.map (Option.map Draft.value)

theorem readSlot_eq (o : Option Draft) :
    readSlot o = unlessLong ((o.map Draft.indices).getD []) (o.map Draft.value) := by
  cases o with
  | none => rfl
  | some d =>
    rw [readSlot, Draft.read_eq, Option.map_some, Option.getD_some, Option.map_some]
    unfold unlessLong
    split <;> rfl

theorem decode_of_follows {text : List Char} {ds : List (Option Draft)} (h : Follows text ds) :
    decode text = unlessLong (indices ds) (values ds) := by
  rw [decode, drafts?_eq_some_iff.2 h]
  exact mapM_unlessLong readSlot_eq

theorem decode_of_not_follows {text : List Char} (h : ∀ ds, ¬ Follows text ds) :
    decode text = .error (.malformed (.text text)) := by
  unfold decode
  split
  · rename_i ds hds
    exact absurd (drafts?_eq_some_iff.1 hds) (h ds)
  · rfl

theorem decode_eq_ok_iff {text : List Char} {rs : List (Option Record)} :
    decode text = .ok rs ↔ ∃ ds, Follows text ds ∧
      (∀ x ∈ indices ds, x.length ≤ digitLimit) ∧ values ds = rs := by
  constructor
  · intro h
    by_cases hfollows : ∃ ds, Follows text ds
    · obtain ⟨ds, hds⟩ := hfollows
      rw [decode_of_follows hds, unlessLong_eq_ok_iff] at h
      exact ⟨ds, hds, h⟩
    · rw [decode_of_not_follows (not_exists.1 hfollows)] at h
      cases h
  · rintro ⟨ds, hds, h⟩
    rw [decode_of_follows hds, unlessLong_eq_ok_iff]
    exact h

theorem names_of_decode {text : List Char} {rs : List (Option Record)} (h : decode text = .ok rs)
    {r : Record} (hr : some r ∈ rs) : ∀ x ∈ r.names, isName x = true := by
  obtain ⟨ds, hds, -, rfl⟩ := decode_eq_ok_iff.1 h
  obtain ⟨d, hd, rfl⟩ := some_mem_map_iff.1 hr
  exact (hds.legal d hd).names

end Record

end KripkeLogic
