import KripkeLogic.Proofs.Evaluation.Reordering
import KripkeLogic.Proofs.Model.Edits

/-! # The order of insertions -/

namespace KripkeLogic

open Outcome

/-- A call for an edge of one of the two kinds, between any values. -/
def Operation.AddsEdge (op : Operation) : Prop :=
  ∃ source target kind k, op = .addEdge source target kind ∧ EdgeKind.ofValue kind = .ok k

namespace Model

def answer (m : Model) (op : Operation) : Except OperationError Answer := (m.perform op).1

def answers (m : Model) : List Operation → List (Except OperationError Answer)
  | [] => []
  | op :: ops => m.answer op :: (m.after (.operate op)).answers ops

def afterAll (m : Model) (ops : List Operation) : Model :=
  ops.foldl (fun m op => m.after (.operate op)) m

def Inserts (m : Model) (op : Operation) (k : EdgeKind) (e : Nat × Nat) : Prop :=
  ∃ source target kind, op = .addEdge source target kind ∧ EdgeKind.ofValue kind = .ok k ∧
    m.state? source = some e.1 ∧ m.state? target = some e.2 ∧ m.Accepts op

/-- Nobody can tell the models apart but by the order of their edges. -/
structure SameButOrder (m m' : Model) : Prop extends Reordered m m' where
  closures : ∀ k, (m'.closure k).edges = (m.closure k).edges
  confluent : m'.isConfluent = m.isConfluent
  evaluated : ∀ (ev : Evaluator) (arg : Argument), (ev.evaluate m' arg).1 = (ev.evaluate m arg).1

variable {m m' : Model} {op : Operation} {ops ops' : List Operation}

theorem Reordered.sameButOrder (h : Reordered m m') (hm : m.Consistent) (hm' : m'.Consistent) :
    SameButOrder m m' :=
  ⟨h, h.closure_edges hm hm', h.isConfluent hm hm', h.evaluate hm hm'⟩

/-! ## One call -/

theorem slot_eq_of_slots (h : m'.slots.toList = m.slots.toList) (i : Nat) : m'.slot i = m.slot i := by
  rw [slot, slot, ← Vector.getElem?_toList, h, Vector.getElem?_toList]

theorem state?_eq_of_slots (h : m'.slots.toList = m.slots.toList) (v : Value) :
    m'.state? v = m.state? v := by
  have hlive : ∀ i, m'.isLive i = m.isLive i := fun i => by
    rw [isLive_eq, isLive_eq, slot_eq_of_slots h]
  cases v <;> simp only [state?, hlive]

theorem accepts_congr (hm : m.Consistent) (hm' : m'.Consistent)
    (hslots : m'.slots.toList = m.slots.toList) {source target kind : Value} {k : EdgeKind}
    (hk : EdgeKind.ofValue kind = .ok k) :
    m'.Accepts (.addEdge source target kind) ↔ m.Accepts (.addEdge source target kind) := by
  have hadd : ∀ s t, (∃ m'', m'.addEdge k s t = some m'') ↔ ∃ m'', m.addEdge k s t = some m'' := by
    intro s t
    cases k with
    | preorder =>
      rw [hm.isSome_addEdge_preorder, hm'.isSome_addEdge_preorder, assignmentAt_eq, assignmentAt_eq,
        slot_eq_of_slots hslots, slot_eq_of_slots hslots, ← assignmentAt_eq, ← assignmentAt_eq]
    | relation => exact iff_of_true (exists_addEdge_relation m' s t) (exists_addEdge_relation m s t)
  rw [accepts_addEdge_iff hk, accepts_addEdge_iff hk]
  simp only [state?_eq_of_slots hslots, hadd]

theorem answer_cases (hop : op.AddsEdge) :
    (m.Accepts op ∧ m.answer op = .ok (.flag true)) ∨
      (¬ m.Accepts op ∧ m.Refuses op ∧ m.answer op = .ok (.flag false)) := by
  obtain ⟨source, target, kind, k, rfl, hk⟩ := hop
  obtain ⟨b, m', hcall⟩ : ∃ b m', m.callAddEdge source target kind = .ok (b, m') := by
    simp only [callAddEdge, hk, ok_bind]
    split
    · split <;> exact ⟨_, _, rfl⟩
    · exact ⟨_, _, rfl⟩
  have hp : m.perform (.addEdge source target kind) = (.ok (.flag b), m') := flag_eq_ok_iff.2 hcall
  have hanswer : m.answer (.addEdge source target kind) = .ok (.flag b) := congrArg Prod.fst hp
  cases b with
  | true => exact Or.inl ⟨⟨m', hp⟩, hanswer⟩
  | false =>
    refine Or.inr ⟨?_, Or.inl ⟨m', hp⟩, hanswer⟩
    rintro ⟨m'', hp'⟩
    cases hp.symm.trans hp'

theorem answer_congr (hm : m.Consistent) (hm' : m'.Consistent)
    (hslots : m'.slots.toList = m.slots.toList) (hop : op.AddsEdge) : m'.answer op = m.answer op := by
  have haccept : m'.Accepts op ↔ m.Accepts op := by
    obtain ⟨source, target, kind, k, rfl, hk⟩ := hop
    exact accepts_congr hm hm' hslots hk
  obtain ⟨h, hanswer⟩ | ⟨h, -, hanswer⟩ := answer_cases (m := m) hop <;>
    obtain ⟨h', hanswer'⟩ | ⟨h', -, hanswer'⟩ := answer_cases (m := m') hop
  · rw [hanswer, hanswer']
  · exact absurd (haccept.2 h) h'
  · exact absurd (haccept.1 h') h
  · rw [hanswer, hanswer']

theorem inserts_congr (hm : m.Consistent) (hm' : m'.Consistent)
    (hslots : m'.slots.toList = m.slots.toList) {k : EdgeKind} {e : Nat × Nat} :
    m'.Inserts op k e ↔ m.Inserts op k e := by
  refine exists_congr fun source => exists₂_congr fun target kind => ?_
  refine and_congr_right ?_
  rintro rfl
  refine and_congr_right fun hk => ?_
  rw [state?_eq_of_slots hslots, state?_eq_of_slots hslots, accepts_congr hm hm' hslots hk]

theorem after_of_addsEdge (hop : op.AddsEdge) :
    (m.after (.operate op)).slots.toList = m.slots.toList ∧
      ∀ l e, e ∈ (m.after (.operate op)).edges l ↔ e ∈ m.edges l ∨ m.Inserts op l e := by
  obtain ⟨haccept, -⟩ | ⟨hnot, hrefused, -⟩ := answer_cases (m := m) hop
  · obtain ⟨source, target, kind, k, rfl, hk⟩ := hop
    obtain ⟨m', hp⟩ := haccept
    obtain ⟨s, t, hs, ht, hsame, hedges⟩ := added_of_perform hk hp
    have hinserts : ∀ l e, m.Inserts (.addEdge source target kind) l e ↔ l = k ∧ e = (s, t) := by
      intro l e
      constructor
      · rintro ⟨_, _, _, hop, hl, hs', ht', -⟩
        cases hop
        rw [hk, Except.ok.injEq] at hl
        rw [hs, Option.some.injEq] at hs'
        rw [ht, Option.some.injEq] at ht'
        exact ⟨hl.symm, Prod.ext hs'.symm ht'.symm⟩
      · rintro ⟨rfl, rfl⟩
        exact ⟨_, _, _, rfl, hk, hs, ht, m', hp⟩
    rw [after_of_ok hp]
    refine ⟨hsame.slots, fun l e => ?_⟩
    rw [hinserts]
    by_cases hl : l = k
    · subst hl
      rw [hedges]
      split
      · simp only [true_and]
        exact (or_iff_left_of_imp fun he => he ▸ ‹_›).symm
      · simp
    · rw [(hsame.others l hl).1]
      simp [hl]
  · rw [hrefused.after]
    refine ⟨rfl, fun l e => (or_iff_left ?_).symm⟩
    rintro ⟨_, _, _, -, -, -, -, haccept⟩
    exact hnot haccept

/-! ## Many calls -/

theorem run_append (events : List Event) (ops : List Operation) :
    run (events ++ ops.map .operate) = (run events).afterAll ops := by
  rw [run, List.foldl_append, List.foldl_map]
  rfl

/-- Calls are answered as if each came first, and together they add the edges of all. -/
theorem afterAll_of_addsEdge (hm : m.Consistent) (hops : ∀ op ∈ ops, op.AddsEdge) :
    m.answers ops = ops.map m.answer ∧ (m.afterAll ops).slots.toList = m.slots.toList ∧
      ∀ k e, e ∈ (m.afterAll ops).edges k ↔ e ∈ m.edges k ∨ ∃ op ∈ ops, m.Inserts op k e := by
  induction ops generalizing m with
  | nil => exact ⟨rfl, rfl, by simp [afterAll]⟩
  | cons op ops ih =>
    obtain ⟨hop, hops⟩ := List.forall_mem_cons.1 hops
    obtain ⟨hslots, hedges⟩ := after_of_addsEdge (m := m) hop
    have hm' : (m.after (.operate op)).Consistent := hm.change (change_after m _)
    obtain ⟨hanswers, hslots', hedges'⟩ := ih hm' hops
    -- The calls that follow find the same states, so they do the same as in the first model.
    refine ⟨?_, hslots'.trans hslots, fun k e => ?_⟩
    · rw [answers, hanswers, List.map_cons]
      congr 1
      exact List.map_congr_left fun op' hop' => answer_congr hm hm' hslots (hops op' hop')
    · refine (hedges' k e).trans ?_
      rw [hedges, or_assoc]
      simp only [inserts_congr hm hm' hslots, List.exists_mem_cons_iff]

/-- **Edges may be added in any order.** Every call is answered alike in both orders, as if it came
first, and the models in the end differ in nothing but the order of their edges. -/
theorem insertion_run (events : List Event) (hops : ∀ op ∈ ops, op.AddsEdge)
    (hperm : ops.Perm ops') :
    (run events).answers ops = ops.map (run events).answer ∧
      (run events).answers ops' = ops'.map (run events).answer ∧
      (∀ k e, e ∈ (run (events ++ ops.map .operate)).edges k ↔
        e ∈ (run events).edges k ∨ ∃ op ∈ ops, (run events).Inserts op k e) ∧
      SameButOrder (run (events ++ ops.map .operate)) (run (events ++ ops'.map .operate)) := by
  have hm := consistent_run events
  have hops' : ∀ op ∈ ops', op.AddsEdge := fun op hop => hops op (hperm.mem_iff.2 hop)
  obtain ⟨hanswers, hslots, hedges⟩ := afterAll_of_addsEdge hm hops
  obtain ⟨hanswers', hslots', hedges'⟩ := afterAll_of_addsEdge hm hops'
  have hend := consistent_run (events ++ ops.map .operate)
  have hend' := consistent_run (events ++ ops'.map .operate)
  rw [run_append] at hend hend' ⊢
  rw [run_append]
  refine ⟨hanswers, hanswers', hedges, Reordered.sameButOrder ⟨?_, fun k e => ?_⟩ hend hend'⟩
  · rw [hslots, hslots']
  · rw [hedges, hedges']
    simp only [hperm.mem_iff]

def unequalStates : List Event :=
  [.operate (.addState []), .operate (.addState [(.text ['p'], .bool true)])]

/-- Both relation edges and both preorder edges, one of which is refused, and one to no state. -/
def bothWays : List Operation :=
  [.addEdge (.int 0) (.int 1) Operation.defaultKind,
    .addEdge (.int 1) (.int 0) (.text EdgeKind.preorder.word),
    .addEdge (.int 0) (.int 1) (.text EdgeKind.preorder.word),
    .addEdge (.int 0) (.int 7) Operation.defaultKind,
    .addEdge (.int 1) (.int 0) Operation.defaultKind]

theorem insertion_bothWays : (∀ op ∈ bothWays, op.AddsEdge) ∧ bothWays.Perm bothWays.reverse ∧
    (run (unequalStates ++ bothWays.map .operate)).edges .relation = [(0, 1), (1, 0)] ∧
    (run (unequalStates ++ bothWays.reverse.map .operate)).edges .relation = [(1, 0), (0, 1)] ∧
    SameButOrder (run (unequalStates ++ bothWays.map .operate))
      (run (unequalStates ++ bothWays.reverse.map .operate)) := by
  have hops : ∀ op ∈ bothWays, op.AddsEdge := by
    simp only [bothWays, List.forall_mem_cons, List.not_mem_nil, false_imp_iff, implies_true, and_true]
    exact ⟨⟨_, _, _, _, rfl, rfl⟩, ⟨_, _, _, _, rfl, rfl⟩, ⟨_, _, _, _, rfl, rfl⟩,
      ⟨_, _, _, _, rfl, rfl⟩, ⟨_, _, _, _, rfl, rfl⟩⟩
  have hperm : bothWays.Perm bothWays.reverse := (List.reverse_perm bothWays).symm
  exact ⟨hops, hperm, rfl, rfl, (insertion_run unequalStates hops hperm).2.2.2⟩

end Model

end KripkeLogic
