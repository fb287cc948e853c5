import KripkeLogic.Proofs.Model.Consistency
import KripkeLogic.Proofs.Value

/-!
# Loops of the preorder

A removal spares the loop of a live state if its source is the index of the state.
-/

namespace KripkeLogic

open Model Outcome

/-! ## Endpoints -/

theorem equalIndex?_eq_some_iff {v : Value} {i : Nat} :
    equalIndex? v = some i ↔ v.toInt? = some (i : Int) := by
  unfold equalIndex?
  split
  · rename_i n hn
    rw [hn, Option.ite_none_right_eq_some, Option.some.injEq, Option.some.injEq]
    omega
  · rename_i hn
    rw [hn]
    simp

theorem isKey_of_equalIndex? {v : Value} {i : Nat} (h : equalIndex? v = some i) :
    v.isKey = true := by
  cases v <;> first | rfl | cases h

/-! ## Events at a loop -/

/-- The event removes the pair `(i, i)` from the preorder, by a source that is no index. -/
def Event.DropsLoop (i : Nat) : Event → Prop
  | .operate (.removeEdge source target kind) =>
    EdgeKind.ofValue kind = .ok .preorder ∧ equalIndex? source = some i ∧
      equalIndex? target = some i ∧ source.kind ≠ .int
  | _ => False

def Event.ByIndex : Event → Prop
  | .operate (.removeEdge source target _) => source.kind = .int ∧ target.kind = .int
  | _ => True

theorem Event.DropsLoop.not_byIndex {i : Nat} {e : Event} (h : e.DropsLoop i) : ¬ e.ByIndex := by
  unfold DropsLoop at h
  split at h
  · exact fun hint => h.2.2.2 hint.1
  · exact h.elim

namespace Model

variable {m : Model} {e : Event} {i : Nat}

/-- The event makes the loop at `i`: with the state, by itself, or with a new model. -/
def SetsLoop (m : Model) (i : Nat) : Event → Prop
  | .operate (.addState _) => i = m.size
  | .operate (.addEdge source target kind) =>
    EdgeKind.ofValue kind = .ok .preorder ∧ source = .int i ∧ target = .int i
  | .operate (.importText text) => ∃ m', ofText text = .ok m'
  | .load text => ∃ m', ofText text = .ok m'
  | _ => False

theorem loop_of_ofText {text : Value} (h : ofText text = .ok m) (hi : m.isLive i = true) :
    (i, i) ∈ m.edges .preorder := by
  obtain ⟨cs, rs, -, -, h⟩ := ofText_eq_ok_iff.1 h
  rw [isLive_eq, slot_of_ofRecords h] at hi
  rw [mem_edges_of_ofRecords h, mem_listed]
  cases hr : rs[i]? with
  | none =>
    rw [hr] at hi
    cases hi
  | some o =>
    cases o with
    | none =>
      rw [hr] at hi
      cases hi
    | some r =>
      refine ⟨i, r, hr, ?_⟩
      rw [Nat.zero_add]
      exact mem_listedBy.2 ⟨rfl, Or.inr ⟨rfl, rfl⟩⟩

/-! ## Single events -/

theorem state?_int (hi : m.isLive i = true) : m.state? (.int i) = some i :=
  state?_eq_some_iff.2 ⟨rfl, hi⟩

theorem callAddEdge_loop {kind : Value} (hk : EdgeKind.ofValue kind = .ok .preorder)
    (hi : m.isLive i = true) : ∃ m', m.callAddEdge (.int i) (.int i) kind = .ok (true, m') ∧
      (i, i) ∈ m'.edges .preorder := by
  have hself : (m.assignmentAt i).subset (m.assignmentAt i) = true :=
    Assignment.subset_iff.2 fun _ hx => hx
  obtain ⟨m', hadd, hmem⟩ : ∃ m', m.addEdge .preorder i i = some m' ∧ (i, i) ∈ m'.edges .preorder := by
    unfold addEdge
    split
    · exact ⟨m, rfl, ‹_›⟩
    · refine ⟨_, if_neg (by simp [hself]), ?_⟩
      rw [edges_setEdges, if_pos rfl]
      exact List.mem_append_right _ List.mem_cons_self
  refine ⟨m', ?_, hmem⟩
  simp only [callAddEdge, hk, ok_bind, state?_int hi, hadd]
  rfl

theorem state?_of_ne_int {v : Value} (h : v.kind ≠ .int) : m.state? v = none := by
  rw [Option.eq_none_iff_forall_ne_some]
  intro j hj
  obtain ⟨rfl, -⟩ := state?_eq_some_iff.1 hj
  exact h rfl

theorem callRemoveEdge_of_drops {source target kind : Value} {k : EdgeKind} {s t : Nat}
    (hk : EdgeKind.ofValue kind = .ok k) (hs : equalIndex? source = some s)
    (ht : equalIndex? target = some t) (hkind : source.kind ≠ .int) :
    ∃ b m', m.callRemoveEdge source target kind = .ok (b, m') ∧
      m'.edges k = (m.edges k).erase (s, t) := by
  have hstate := state?_of_ne_int (m := m) hkind
  have hcall : ∀ r, m.removeEdge k s t = r →
      m.callRemoveEdge source target kind = .ok (r.isSome, r.getD m) := by
    intro r hr
    simp only [callRemoveEdge, hk, ok_bind, hstate, isKey_of_equalIndex? hs,
      isKey_of_equalIndex? ht, hs, ht, hr]
    cases r <;> simp <;> rfl
  by_cases hmem : (s, t) ∈ m.edges k
  · refine ⟨_, _, hcall _ (if_pos hmem), ?_⟩
    rw [Option.getD_some, edges_setEdges, if_pos rfl]
  · exact ⟨_, _, hcall _ (if_neg hmem), (List.erase_of_not_mem hmem).symm⟩

theorem Change.isLive_of_addEdge {source target kind : Value} {m' : Model}
    (hc : m.Change (.operate (.addEdge source target kind)) m') : m'.isLive i = m.isLive i := by
  cases hc with
  | stay => rfl
  | addEdge k s t => exact isLive_setEdges _ _ _ _

theorem Change.loop_of_addState {pairs : List (Value × Value)} {m' : Model}
    (hc : m.Change (.operate (.addState pairs)) m') (hi : m'.isLive m.size = true) :
    (m.size, m.size) ∈ m'.edges .preorder := by
  cases hc with
  | stay =>
    rw [isLive_size] at hi
    cases hi
  | addState a =>
    rw [edges_addState]
    exact List.mem_append_right _ List.mem_cons_self

theorem loop_of_setsLoop (hs : m.SetsLoop i e) (hi : (m.after e).isLive i = true) :
    (i, i) ∈ (m.after e).edges .preorder := by
  unfold SetsLoop at hs
  split at hs
  · subst hs
    exact (change_after m _).loop_of_addState hi
  · rename_i source target kind
    obtain ⟨hk, rfl, rfl⟩ := hs
    rw [(change_after m _).isLive_of_addEdge] at hi
    obtain ⟨m', hcall, hmem⟩ := callAddEdge_loop hk hi
    have hp : m.perform (.addEdge (.int i) (.int i) kind) = (.ok (.flag true), m') := by
      simp only [perform, hcall]
      rfl
    rw [after_of_ok hp]
    exact hmem
  · rename_i text
    obtain ⟨m', hm⟩ := hs
    have hp : m.perform (.importText text) = (.ok (.flag true), m') := by
      simp only [perform, importText, hm]
      rfl
    rw [after_of_ok hp] at hi ⊢
    exact loop_of_ofText hm hi
  · obtain ⟨m', hm⟩ := hs
    simp only [after, hm] at hi ⊢
    exact loop_of_ofText hm hi
  · exact hs.elim

theorem not_loop_of_dropsLoop (h : m.Consistent) (hd : e.DropsLoop i) :
    (i, i) ∉ (m.after e).edges .preorder := by
  unfold Event.DropsLoop at hd
  split at hd
  · rename_i source target kind
    obtain ⟨hk, hs, ht, hkind⟩ := hd
    obtain ⟨b, m', hcall, hedges⟩ := callRemoveEdge_of_drops (m := m) hk hs ht hkind
    have hp : m.perform (.removeEdge source target kind) = (.ok (.flag b), m') := by
      simp only [perform, hcall]
      rfl
    rw [after_of_ok hp, hedges]
    exact (h.nodup .preorder).not_mem_erase
  · exact hd.elim

theorem Change.kept {m' : Model} (hc : m.Change e m') (hs : ¬ m.SetsLoop i e)
    (hi : m'.isLive i = true) : m.isLive i = true ∧
      (¬ e.DropsLoop i → ((i, i) ∈ m'.edges .preorder ↔ (i, i) ∈ m.edges .preorder)) := by
  cases hc with
  | stay => exact ⟨hi, fun _ => Iff.rfl⟩
  | addState a =>
    have hne : i ≠ m.size := hs
    rw [isLive_addState, if_neg hne] at hi
    refine ⟨hi, fun _ => ?_⟩
    rw [edges_addState]
    simp [edges, hne]
  | removeState j state =>
    rw [isLive_removeState] at hi
    split at hi
    · cases hi
    · rename_i hne
      refine ⟨hi, fun _ => ?_⟩
      rw [mem_edges_removeState (state?_eq_some_iff.1 state).2]
      exact ⟨And.left, fun h => ⟨h, Ne.symm hne, Ne.symm hne⟩⟩
  | setAssignment j a state =>
    rw [isLive_setAssignment (state?_eq_some_iff.1 state).2] at hi
    rw [edges_setAssignment]
    exact ⟨hi, fun _ => Iff.rfl⟩
  | addEdge k s t named first second =>
    rw [isLive_setEdges] at hi
    refine ⟨hi, fun _ => ?_⟩
    rw [edges_setEdges]
    split
    · rename_i hk
      subst hk
      rw [List.mem_append, List.mem_singleton]
      refine ⟨fun h => h.resolve_right fun heq => ?_, Or.inl⟩
      obtain ⟨rfl, rfl⟩ := Prod.mk.inj heq
      exact hs ⟨named, (state?_eq_some_iff.1 first).1, (state?_eq_some_iff.1 second).1⟩
    · rfl
  | removeEdge k s t named first second old spared =>
    rw [isLive_setEdges] at hi
    refine ⟨hi, fun hd => ?_⟩
    rw [edges_setEdges]
    split
    · rename_i source target kind hk
      subst hk
      refine ⟨List.mem_of_mem_erase, fun h => (List.mem_erase_of_ne fun heq => ?_).2 h⟩
      obtain ⟨rfl, rfl⟩ := Prod.mk.inj heq
      -- The source is an integer, so it is the index of a live state and the loop is spared.
      refine hd ⟨named, first, second, fun hkind => spared ⟨rfl, ?_⟩⟩
      obtain ⟨n, rfl⟩ := Value.exists_int hkind
      obtain rfl : n = i := Option.some.inj (equalIndex?_eq_some_iff.1 first)
      exact ⟨Value.same_int.2 (equalIndex?_eq_some_iff.1 second), by rw [state?_int hi]; rfl⟩
    · rfl
  | recompute k =>
    rw [isLive_recompute] at hi
    rw [edges_recompute]
    exact ⟨hi, fun _ => Iff.rfl⟩
  | imported loaded => exact absurd ⟨_, loaded⟩ hs
  | load loaded => exact absurd ⟨_, loaded⟩ hs
  | refresh =>
    rw [Model.refresh, isLive_recompute, isLive_recompute] at hi
    rw [Model.refresh, edges_recompute, edges_recompute]
    exact ⟨hi, fun _ => Iff.rfl⟩

/-! ## Histories -/

/-- The loop at `i` was dropped at some moment and has not been set since. -/
inductive Dropped (i : Nat) : List Event → Prop
  | now {events : List Event} {e : Event} (drops : e.DropsLoop i) : Dropped i (events ++ [e])
  | before {events : List Event} {e : Event} (dropped : Dropped i events)
      (unset : ¬ (run events).SetsLoop i e) : Dropped i (events ++ [e])

theorem dropped_snoc {events : List Event} :
    Dropped i (events ++ [e]) ↔ e.DropsLoop i ∨ Dropped i events ∧ ¬ (run events).SetsLoop i e := by
  constructor
  · intro h
    generalize hx : events ++ [e] = history at h
    cases h with
    | now drops =>
      obtain ⟨rfl, rfl⟩ := List.append_singleton_inj.1 hx
      exact Or.inl drops
    | before dropped unset =>
      obtain ⟨rfl, rfl⟩ := List.append_singleton_inj.1 hx
      exact Or.inr ⟨dropped, unset⟩
  · rintro (drops | ⟨dropped, unset⟩)
    · exact .now drops
    · exact .before dropped unset

theorem not_dropsLoop_of_setsLoop (hs : m.SetsLoop i e) : ¬ e.DropsLoop i := by
  unfold SetsLoop at hs
  split at hs
  · exact id
  · exact id
  · exact id
  · exact id
  · exact hs.elim

theorem loop_iff_not_dropped (events : List Event) (i : Nat)
    (hi : (run events).isLive i = true) :
    (i, i) ∈ (run events).edges .preorder ↔ ¬ Dropped i events := by
  induction events using List.reverseRecOn with
  | nil => cases hi
  | append_singleton events e ih =>
    rw [run_snoc] at hi ⊢
    rw [dropped_snoc, not_or, not_and, not_not]
    by_cases hs : (run events).SetsLoop i e
    · exact iff_of_true (loop_of_setsLoop hs hi) ⟨not_dropsLoop_of_setsLoop hs, fun _ => hs⟩
    · obtain ⟨hlive, hkept⟩ := (change_after (run events) e).kept hs hi
      by_cases hd : e.DropsLoop i
      · exact iff_of_false (not_loop_of_dropsLoop (consistent_run events) hd) fun h => h.1 hd
      · rw [hkept hd, ih hlive]
        exact ⟨fun h => ⟨hd, fun hdropped => absurd hdropped h⟩,
          fun h hdropped => hs (h.2 hdropped)⟩

theorem Dropped.exists_dropsLoop {events : List Event} (h : Dropped i events) :
    ∃ e ∈ events, e.DropsLoop i := by
  induction h with
  | now drops => exact ⟨_, List.mem_append_right _ List.mem_cons_self, drops⟩
  | before _ _ ih =>
    obtain ⟨e, he, hd⟩ := ih
    exact ⟨e, List.mem_append_left _ he, hd⟩

theorem loop_of_byIndex {events : List Event} (h : ∀ e ∈ events, e.ByIndex)
    (hi : (run events).isLive i = true) : (i, i) ∈ (run events).edges .preorder := by
  refine (loop_iff_not_dropped events i hi).2 fun hdropped => ?_
  obtain ⟨e, he, hd⟩ := hdropped.exists_dropsLoop
  exact hd.not_byIndex (h e he)

/-- **A live state lacks its loop exactly if the loop was dropped and not set since.** It is below
itself in the closure as long as it has its loop or is on a cycle, and the closure is transitive. -/
theorem reflexivity_run (events : List Event) :
    (∀ i, (run events).isLive i = true →
      ((i, i) ∈ (run events).edges .preorder ↔ ¬ Dropped i events) ∧
      ((i, i) ∈ ((run events).closure .preorder).edges ↔
        ¬ Dropped i events ∨ ∃ j, j ≠ i ∧ (i, j) ∈ ((run events).closure .preorder).edges ∧
          (j, i) ∈ ((run events).closure .preorder).edges)) ∧
    ∀ s t u, (s, t) ∈ ((run events).closure .preorder).edges →
      (t, u) ∈ ((run events).closure .preorder).edges →
      (s, u) ∈ ((run events).closure .preorder).edges := by
  have h := consistent_run events
  refine ⟨fun i hi => ?_, fun s t u hst htu => ?_⟩
  · have hloop := loop_iff_not_dropped events i hi
    refine ⟨hloop, ?_⟩
    simp only [h.mem_closure]
    rw [joined_self_iff, hloop]
  · rw [h.mem_closure] at hst htu ⊢
    exact hst.trans htu

/-- Adds state 0 and removes its loop by way of `false`, which equals 0. -/
def lossOfLoop : List Event :=
  [.operate (.addState []),
    .operate (.removeEdge (.bool false) (.bool false) (.text EdgeKind.preorder.word))]

theorem loop_lost : (run lossOfLoop).isLive 0 = true ∧ (0, 0) ∉ (run lossOfLoop).edges .preorder ∧
    (0, 0) ∉ ((run lossOfLoop).closure .preorder).edges := by
  decide

theorem dropped_lossOfLoop : (run lossOfLoop).isLive 0 = true ∧ Dropped 0 lossOfLoop := by
  have hlive : (run lossOfLoop).isLive 0 = true := by decide
  refine ⟨hlive, ?_⟩
  by_contra hkept
  have hloop := ((reflexivity_run lossOfLoop).1 0 hlive).1.2 hkept
  exact absurd hloop (by decide)

end Model

end KripkeLogic
