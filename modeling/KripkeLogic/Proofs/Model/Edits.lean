import KripkeLogic.Proofs.Model.Consistency
import KripkeLogic.Proofs.Model.Updates

/-!
# Edits are all or nothing

An edit is refused exactly if some variable would be lost along a path of the preorder, although
only the direct neighbours are looked at.
-/

namespace KripkeLogic.Model

open Outcome

/-! ## Growth along paths -/

def GrowsAlong (es : List (Nat × Nat)) (holds : Nat → List Char → Prop) : Prop :=
  ∀ s t, Joined es s t → ∀ x, holds s x → holds t x

theorem growsAlong_iff {es : List (Nat × Nat)} {holds : Nat → List Char → Prop} :
    GrowsAlong es holds ↔ ∀ e ∈ es, ∀ x, holds e.1 x → holds e.2 x := by
  constructor
  · intro h e he
    exact h e.1 e.2 (.single he)
  · intro h s t hst x
    exact hst.carry (p := fun i => holds i x) fun e he => h e he x

variable {m m' : Model}

theorem Consistent.growsAlong_append (h : m.Consistent) {s t : Nat} :
    GrowsAlong (m.edges .preorder ++ [(s, t)]) (fun i x => x ∈ m.assignmentAt i) ↔
      (m.assignmentAt s).subset (m.assignmentAt t) = true := by
  rw [growsAlong_iff, Assignment.subset_iff]
  constructor
  · intro hgrows
    exact hgrows (s, t) (List.mem_append_right _ List.mem_cons_self)
  · intro hsub e he
    rcases List.mem_append.1 he with he | he
    · exact h.monotone e he
    · obtain rfl := List.mem_singleton.1 he
      exact hsub

theorem Consistent.growsAlong_setAssignment (h : m.Consistent) {i : Nat} {a : Assignment}
    (hi : m.isLive i = true) (ha : ∀ x ∈ a, x ∈ m.assignmentAt i ∨ isName x = true) :
    GrowsAlong (m.edges .preorder) (fun j x => x ∈ (m.setAssignment i a).assignmentAt j) ↔
      m.fits i a = true := by
  rw [growsAlong_iff]
  constructor
  · intro hgrows
    simp only [assignmentAt_setAssignment hi] at hgrows
    simp only [fits, Bool.and_eq_true, List.all_eq_true, mem_successors, mem_predecessors,
      Bool.or_eq_true, decide_eq_true_eq, Assignment.subset_iff]
    refine ⟨fun j hj => or_iff_not_imp_left.2 fun hne x hx => ?_,
      fun j hj => or_iff_not_imp_left.2 fun hne x hx => ?_⟩
    · have hup := hgrows (i, j) hj x
      rw [if_pos rfl, if_neg (Ne.symm hne)] at hup
      exact hup hx
    · have hdown := hgrows (j, i) hj x
      rw [if_pos rfl, if_neg (Ne.symm hne)] at hdown
      exact hdown hx
  · intro hfits e he
    exact (h.setAssignment hi ha hfits).monotone e (by rwa [edges_setAssignment])

/-! ## Accepted and refused operations -/

def Accepts (m : Model) (op : Operation) : Prop := ∃ m', m.perform op = (.ok (.flag true), m')

def Refuses (m : Model) (op : Operation) : Prop :=
  (∃ m', m.perform op = (.ok (.flag false), m')) ∨ ∃ err, (m.perform op).1 = .error err

theorem flag_eq_ok_iff {ε : Type} {call : Except ε (Bool × Model)} {f : ε → OperationError}
    {b : Bool} : m.settle .flag f call = (.ok (.flag b), m') ↔ call = .ok (b, m') := by
  rw [settle_eq_ok_iff]
  constructor
  · rintro ⟨c, hcall, hc⟩
    cases hc
    exact hcall
  · intro hcall
    exact ⟨b, hcall, rfl⟩

theorem of_accepted {p q : Prop} (h : (true = false ∧ p) ∨ (true = true ∧ q)) : q := by
  rcases h with ⟨hb, -⟩ | ⟨-, hq⟩
  · cases hb
  · exact hq

theorem of_refused {p q : Prop} (h : (false = false ∧ p) ∨ (false = true ∧ q)) : p := by
  rcases h with ⟨-, hp⟩ | ⟨hb, -⟩
  · exact hp
  · cases hb

theorem Refuses.after {op : Operation} (h : m.Refuses op) : m.after (.operate op) = m := by
  rcases h with ⟨m', h⟩ | ⟨err, h⟩
  · rw [after_of_ok h]
    cases op with
    | addState =>
      obtain ⟨i, -, hi⟩ := settle_eq_ok_iff.1 h
      cases hi
    | removeState => cases h
    | edit => exact of_refused (callEdit_cases (flag_eq_ok_iff.1 h))
    | addEdge => exact of_refused (callAddEdge_cases (flag_eq_ok_iff.1 h))
    | removeEdge => exact of_refused (callRemoveEdge_cases (flag_eq_ok_iff.1 h))
    | recompute =>
      obtain ⟨a, hclosure, ha⟩ := settle_eq_ok_iff.1 h
      obtain ⟨k, -, hk⟩ := map_eq_ok_iff.1 hclosure
      cases hk
      cases ha
    | importText => exact of_refused (importText_cases (flag_eq_ok_iff.1 h))
  · exact after_of_error h

/-! ## What stays -/

structure SameBut (m m' : Model) (k : EdgeKind) : Prop where
  slots : m'.slots.toList = m.slots.toList
  others : ∀ l, l ≠ k → m'.edges l = m.edges l ∧ (m'.closure l).edges = (m.closure l).edges

theorem sameBut_setEdges (m : Model) (k : EdgeKind) (es : List (Nat × Nat)) :
    m.SameBut (m.setEdges k es) k := by
  refine ⟨by cases k <;> rfl, fun l hl => ?_⟩
  cases k <;> cases l
  · exact absurd rfl hl
  · exact ⟨rfl, rfl⟩
  · exact ⟨rfl, rfl⟩
  · exact absurd rfl hl

structure SameButAt (m m' : Model) (i : Nat) : Prop where
  size : m'.size = m.size
  slots : ∀ j, j ≠ i → m'.slot j = m.slot j
  edges : ∀ k, m'.edges k = m.edges k ∧ (m'.closure k).edges = (m.closure k).edges

theorem sameButAt_setAssignment {i : Nat} (hi : m.isLive i = true) (a : Assignment) :
    m.SameButAt (m.setAssignment i a) i := by
  refine ⟨rfl, fun j hj => ?_, fun k => ⟨edges_setAssignment m i a k, by cases k <;> rfl⟩⟩
  rw [slot_setAssignment (lt_size_of_isLive hi), if_neg (Ne.symm hj)]

/-! ## Edges -/

variable {source target kind index : Value} {k : EdgeKind} {pairs : List (Value × Value)}

theorem callAddEdge_true_iff (hk : EdgeKind.ofValue kind = .ok k) :
    m.callAddEdge source target kind = .ok (true, m') ↔ ∃ s t, m.state? source = some s ∧
      m.state? target = some t ∧ m.addEdge k s t = some m' := by
  constructor
  · intro h
    obtain ⟨l, s, t, hl, hs, ht, hadd⟩ := of_accepted (callAddEdge_cases h)
    obtain rfl : k = l := Except.ok.inj (hk.symm.trans hl)
    exact ⟨s, t, hs, ht, hadd⟩
  · rintro ⟨s, t, hs, ht, hadd⟩
    simp only [callAddEdge, hk, ok_bind, hs, ht, hadd]
    rfl

theorem Consistent.isSome_addEdge_preorder (h : m.Consistent) {s t : Nat} :
    (∃ m', m.addEdge .preorder s t = some m') ↔
      (m.assignmentAt s).subset (m.assignmentAt t) = true := by
  rw [← Option.isSome_iff_exists, Model.addEdge]
  split
  · -- An edge that is there already loses nothing.
    rename_i hmem
    exact iff_of_true rfl (Assignment.subset_iff.2 (h.monotone _ hmem))
  · split
    · rename_i hlost
      rw [hlost.2]
      rfl
    · rename_i hkept
      rw [not_and, Bool.not_eq_false] at hkept
      exact iff_of_true rfl (hkept rfl)

theorem exists_addEdge_relation (m : Model) (s t : Nat) :
    ∃ m', m.addEdge .relation s t = some m' := by
  rw [← Option.isSome_iff_exists, addEdge]
  split
  · rfl
  · rw [if_neg fun h => by cases h.1]
    rfl

theorem accepts_addEdge_iff (hk : EdgeKind.ofValue kind = .ok k) :
    m.Accepts (.addEdge source target kind) ↔ ∃ s t, m.state? source = some s ∧
      m.state? target = some t ∧ ∃ m', m.addEdge k s t = some m' := by
  constructor
  · rintro ⟨m', h⟩
    obtain ⟨s, t, hs, ht, hadd⟩ := (callAddEdge_true_iff hk).1 (flag_eq_ok_iff.1 h)
    exact ⟨s, t, hs, ht, m', hadd⟩
  · rintro ⟨s, t, hs, ht, m', hadd⟩
    exact ⟨m', flag_eq_ok_iff.2 ((callAddEdge_true_iff hk).2 ⟨s, t, hs, ht, hadd⟩)⟩

theorem added_of_perform (hk : EdgeKind.ofValue kind = .ok k)
    (hp : m.perform (.addEdge source target kind) = (.ok (.flag true), m')) :
    ∃ s t, m.state? source = some s ∧ m.state? target = some t ∧ m.SameBut m' k ∧
      m'.edges k = if (s, t) ∈ m.edges k then m.edges k else m.edges k ++ [(s, t)] := by
  obtain ⟨s, t, hs, ht, hadd⟩ := (callAddEdge_true_iff hk).1 (flag_eq_ok_iff.1 hp)
  refine ⟨s, t, hs, ht, ?_⟩
  obtain ⟨hmem, rfl⟩ | ⟨hnew, -, rfl⟩ := addEdge_cases hadd
  · exact ⟨⟨rfl, fun l _ => ⟨rfl, rfl⟩⟩, (if_pos hmem).symm⟩
  · refine ⟨sameBut_setEdges m k _, ?_⟩
    rw [edges_setEdges, if_pos rfl, if_neg hnew]

theorem removed_of_perform (hk : EdgeKind.ofValue kind = .ok k)
    (hp : m.perform (.removeEdge source target kind) = (.ok (.flag true), m')) :
    ∃ s t, equalIndex? source = some s ∧ equalIndex? target = some t ∧ m.SameBut m' k ∧
      (s, t) ∈ m.edges k ∧ m'.edges k = (m.edges k).erase (s, t) := by
  obtain ⟨l, s, t, hl, hs, ht, -, hremove⟩ :=
    of_accepted (callRemoveEdge_cases (flag_eq_ok_iff.1 hp))
  obtain rfl : k = l := Except.ok.inj (hk.symm.trans hl)
  obtain ⟨hmem, rfl⟩ := removeEdge_eq_some_iff.1 hremove
  refine ⟨s, t, hs, ht, sameBut_setEdges m k _, hmem, ?_⟩
  rw [edges_setEdges, if_pos rfl]

/-! ## Editing an assignment -/

theorem callEdit_of_fits {us : Updates} {ups : List (List Char × Bool)} {i : Nat}
    (hus : Updates.ofList pairs = .ok us) (hups : us.check = .ok ups) (hi : m.state? index = some i)
    (hfits : m.fits i ((m.assignmentAt i).update ups) = true) :
    m.callEdit index pairs = .ok (true, m.setAssignment i ((m.assignmentAt i).update ups)) := by
  rw [callEdit, hus, ok_bind, hi]
  simp only [hups, ok_bind, editAssignment, if_pos hfits]
  rfl

/-- The variables at the states, with those that the updates prescribe at one of them. -/
def Edited (m : Model) (i : Nat) (pairs : List (Value × Value)) (j : Nat) (x : List Char) : Prop :=
  if i = j then Updates.Prescribes pairs (m.assignmentAt i) x else x ∈ m.assignmentAt j

theorem edited_iff {us : Updates} {ups : List (List Char × Bool)} {i : Nat}
    (hpairs : Updates.Legal pairs) (hus : Updates.ofList pairs = .ok us) (hups : us.check = .ok ups)
    (hi : m.isLive i = true) (j : Nat) (x : List Char) :
    m.Edited i pairs j x ↔
      x ∈ (m.setAssignment i ((m.assignmentAt i).update ups)).assignmentAt j := by
  obtain ⟨us', hus', -, hnodup, hentry⟩ := Updates.ofList_eq_ok hpairs
  obtain rfl : us = us' := Except.ok.inj (hus.symm.trans hus')
  rw [assignmentAt_setAssignment hi, Edited]
  split
  · rw [Updates.mem_update_iff hups hnodup, hentry, Updates.Prescribes]
  · rfl

theorem Consistent.accepts_edit_iff (h : m.Consistent) (hpairs : Updates.Legal pairs) :
    m.Accepts (.edit index pairs) ↔ ∃ i, m.state? index = some i ∧
      GrowsAlong (m.edges .preorder) (m.Edited i pairs) := by
  have hgrows : ∀ {us : Updates} {ups : List (List Char × Bool)} {i : Nat},
      Updates.ofList pairs = .ok us → us.check = .ok ups → m.state? index = some i →
      (GrowsAlong (m.edges .preorder) (m.Edited i pairs) ↔
        m.fits i ((m.assignmentAt i).update ups) = true) := by
    intro us ups i hus hups hi
    have hlive := (state?_eq_some_iff.1 hi).2
    rw [← h.growsAlong_setAssignment hlive (Assignment.legal_update hups _)]
    simp only [GrowsAlong, edited_iff hpairs hus hups hlive]
  constructor
  · rintro ⟨m', haccept⟩
    obtain ⟨i, us, ups, hus, hups, hi, hedited⟩ :=
      of_accepted (callEdit_cases (flag_eq_ok_iff.1 haccept))
    exact ⟨i, hi, (hgrows hus hups hi).2 (editAssignment_eq_some_iff.1 hedited).1⟩
  · rintro ⟨i, hi, hgrow⟩
    obtain ⟨us, hus, hlegal, -, -⟩ := Updates.ofList_eq_ok hpairs
    obtain ⟨ups, hups⟩ := Updates.check_eq_ok hlegal
    have hfits := (hgrows hus hups hi).1 hgrow
    exact ⟨_, flag_eq_ok_iff.2 (callEdit_of_fits hus hups hi hfits)⟩

theorem edited_of_perform (hp : m.perform (.edit index pairs) = (.ok (.flag true), m')) :
    ∃ i, m.state? index = some i ∧ m.SameButAt m' i ∧ m'.isLive i = true ∧
      (Updates.Legal pairs → ∀ x, x ∈ m'.assignmentAt i ↔ m.Edited i pairs i x) := by
  obtain ⟨i, us, ups, hus, hups, hi, hedited⟩ := of_accepted (callEdit_cases (flag_eq_ok_iff.1 hp))
  obtain ⟨-, rfl⟩ := editAssignment_eq_some_iff.1 hedited
  have hlive := (state?_eq_some_iff.1 hi).2
  refine ⟨i, hi, sameButAt_setAssignment hlive _, ?_, fun hpairs x => ?_⟩
  · rw [isLive_setAssignment hlive, hlive]
  · exact (edited_iff hpairs hus hups hlive i x).symm

/-! ## All operations -/

/-- What a caller may rely on who edits the model. -/
structure AllOrNothing (m : Model) : Prop where
  /-- A preorder edge is accepted between live states unless some path would lose a variable. -/
  preorder : ∀ source target kind, EdgeKind.ofValue kind = .ok .preorder →
    (m.Accepts (.addEdge source target kind) ↔ ∃ s t, m.state? source = some s ∧
      m.state? target = some t ∧
      GrowsAlong (m.edges .preorder ++ [(s, t)]) fun i x => x ∈ m.assignmentAt i)
  relation : ∀ source target kind, EdgeKind.ofValue kind = .ok .relation →
    (m.Accepts (.addEdge source target kind) ↔
      ∃ s t, m.state? source = some s ∧ m.state? target = some t)
  /-- An assignment is accepted at a live state if variables still grow along the closure then. -/
  edit : ∀ index pairs, Updates.Legal pairs → (m.Accepts (.edit index pairs) ↔
    ∃ i, m.state? index = some i ∧ ∀ s t, (s, t) ∈ (m.closure .preorder).edges →
      ∀ x, m.Edited i pairs s x → m.Edited i pairs t x)
  /-- What is refused or fails leaves states, edges and closures as they are. -/
  refused : ∀ op, m.Refuses op → m.after (.operate op) = m
  added : ∀ source target kind k m', EdgeKind.ofValue kind = .ok k →
    m.perform (.addEdge source target kind) = (.ok (.flag true), m') →
    ∃ s t, m.state? source = some s ∧ m.state? target = some t ∧ m.SameBut m' k ∧
      m'.edges k = if (s, t) ∈ m.edges k then m.edges k else m.edges k ++ [(s, t)]
  removed : ∀ source target kind k m', EdgeKind.ofValue kind = .ok k →
    m.perform (.removeEdge source target kind) = (.ok (.flag true), m') →
    ∃ s t, equalIndex? source = some s ∧ equalIndex? target = some t ∧ m.SameBut m' k ∧
      (s, t) ∈ m.edges k ∧ m'.edges k = (m.edges k).erase (s, t)
  edited : ∀ index pairs m', m.perform (.edit index pairs) = (.ok (.flag true), m') →
    ∃ i, m.state? index = some i ∧ m.SameButAt m' i ∧ m'.isLive i = true ∧
      (Updates.Legal pairs → ∀ x, x ∈ m'.assignmentAt i ↔ m.Edited i pairs i x)

/-- **Edits are all or nothing, at the end of every history.** -/
theorem allOrNothing_run (events : List Event) : (run events).AllOrNothing := by
  have h := consistent_run events
  refine ⟨fun source target kind hk => ?_, fun source target kind hk => ?_,
    fun index pairs hpairs => ?_, fun op => Refuses.after,
    fun source target kind k m' => added_of_perform,
    fun source target kind k m' => removed_of_perform, fun index pairs m' => edited_of_perform⟩
  · rw [accepts_addEdge_iff hk]
    simp only [h.growsAlong_append, h.isSome_addEdge_preorder]
  · rw [accepts_addEdge_iff hk]
    simp only [exists_addEdge_relation, and_true]
  · rw [h.accepts_edit_iff hpairs]
    simp only [GrowsAlong, h.mem_closure]

end KripkeLogic.Model
