import KripkeLogic.Evaluation.Evaluator
import KripkeLogic.Model.Operation
import KripkeLogic.Proofs.Model.Loaded
import Mathlib.Data.List.Induction

/-!
# Histories of a model

A history is any list of events, with any values as arguments. `Change` says once what an event can
do to a model, so that an invariant is one case analysis.
-/

namespace KripkeLogic

open Outcome

inductive Event
  | operate (op : Operation)
  /-- The model that a text describes takes the place of the old one. -/
  | load (text : Value)
  /-- An evaluator evaluates in the model, whatever it did before. -/
  | evaluate (ev : Evaluator) (arg : Argument) (limit : Option Nat := none)

namespace Model

def after (m : Model) : Event → Model
  | .operate op => (m.perform op).2
  | .load text =>
    match ofText text with
    | .ok m' => m'
    | .error _ => m
  | .evaluate ev arg limit => (ev.evaluate m arg limit).2.2

theorem after_of_ok {m m' : Model} {op : Operation} {answer : Answer}
    (h : m.perform op = (.ok answer, m')) : m.after (.operate op) = m' := by
  rw [after, h]

/-- The model at the end of a history that starts with the empty model. -/
def run (events : List Event) : Model := events.foldl after empty

theorem run_snoc (events : List Event) (e : Event) : run (events ++ [e]) = (run events).after e := by
  rw [run, List.foldl_append]
  rfl

theorem run_induction {p : Model → Prop} (hempty : p empty) (hstep : ∀ m e, p m → p (m.after e))
    (events : List Event) : p (run events) := by
  induction events using List.reverseRecOn with
  | nil => exact hempty
  | append_singleton events e ih =>
    rw [run_snoc]
    exact hstep _ e ih

end Model

/-! ## Updates -/

namespace Updates

theorem isName_of_check {us : Updates} {out : List (List Char × Bool)} (h : us.check = .ok out) :
    ∀ u ∈ out, isName u.1 = true := by
  induction us generalizing out with
  | nil =>
    rw [check, Except.ok.injEq] at h
    subst h
    simp
  | cons u us ih =>
    unfold check at h
    split at h
    · rename_i hname
      split at h
      · rename_i cs hcs
        obtain ⟨rest, hrest, h⟩ := bind_eq_ok_iff.1 h
        split at h
        · rw [pure_eq_ok_iff] at h
          subst h
          intro v hv
          rcases List.mem_cons.1 hv with rfl | hv
          · exact hcs
          · exact ih hrest v hv
        · rw [pure_eq_ok_iff] at h
          subst h
          exact ih hrest
      · cases h
    · cases h

end Updates

theorem Assignment.mem_of_mem_update {a : Assignment} {us : List (List Char × Bool)} {x : List Char}
    (h : x ∈ a.update us) : x ∈ a ∨ ∃ u ∈ us, u.1 = x := by
  unfold update at h
  induction us generalizing a with
  | nil => exact Or.inl h
  | cons u us ih =>
    rcases ih h with h | ⟨v, hv, rfl⟩
    · simp only at h
      split at h
      · rcases mem_insert.1 h with rfl | h
        · exact Or.inr ⟨u, List.mem_cons_self, rfl⟩
        · exact Or.inl h
      · exact Or.inl (mem_erase.1 h).1
    · exact Or.inr ⟨v, List.mem_cons_of_mem _ hv, rfl⟩

theorem Assignment.legal_update {us : Updates} {ups : List (List Char × Bool)}
    (hups : us.check = .ok ups) (a : Assignment) : ∀ x ∈ a.update ups, x ∈ a ∨ isName x = true := by
  intro x hx
  refine (mem_of_mem_update hx).imp_right ?_
  rintro ⟨u, hu, rfl⟩
  exact Updates.isName_of_check hups u hu

namespace Model

/-! ## Edits and calls that are carried out -/

section Calls

variable {m m' : Model} {k : EdgeKind} {b : Bool}

theorem addEdge_cases {s t : Nat} (h : m.addEdge k s t = some m') :
    ((s, t) ∈ m.edges k ∧ m' = m) ∨ ((s, t) ∉ m.edges k ∧
      (k = .preorder → ∀ x ∈ m.assignmentAt s, x ∈ m.assignmentAt t) ∧
      m' = m.setEdges k (m.edges k ++ [(s, t)])) := by
  unfold addEdge at h
  split at h
  · rename_i hmem
    cases h
    exact Or.inl ⟨hmem, rfl⟩
  · rename_i hnew
    split at h
    · cases h
    · rename_i hmono
      cases h
      rw [not_and, Bool.not_eq_false, Assignment.subset_iff] at hmono
      exact Or.inr ⟨hnew, hmono, rfl⟩

theorem removeEdge_eq_some_iff {s t : Nat} : m.removeEdge k s t = some m' ↔
    (s, t) ∈ m.edges k ∧ m' = m.setEdges k ((m.edges k).erase (s, t)) := by
  rw [removeEdge, Option.ite_none_right_eq_some, Option.some.injEq, eq_comm (a := m')]

theorem editAssignment_eq_some_iff {i : Nat} {a : Assignment} :
    m.editAssignment i a = some m' ↔ m.fits i a = true ∧ m' = m.setAssignment i a := by
  rw [editAssignment, Option.ite_none_right_eq_some, Option.some.injEq, eq_comm (a := m')]

theorem callAddEdge_cases {source target kind : Value}
    (h : m.callAddEdge source target kind = .ok (b, m')) :
    (b = false ∧ m' = m) ∨ (b = true ∧ ∃ k s t, EdgeKind.ofValue kind = .ok k ∧
      m.state? source = some s ∧ m.state? target = some t ∧ m.addEdge k s t = some m') := by
  simp only [callAddEdge, bind_eq_ok_iff] at h
  obtain ⟨k, hk, h⟩ := h
  split at h
  · rename_i s t hs ht
    split at h
    · rename_i edited hedited
      cases h
      exact Or.inr ⟨rfl, k, s, t, hk, hs, ht, hedited⟩
    · cases h
      exact Or.inl ⟨rfl, rfl⟩
  · cases h
    exact Or.inl ⟨rfl, rfl⟩

theorem callRemoveEdge_cases {source target kind : Value}
    (h : m.callRemoveEdge source target kind = .ok (b, m')) :
    (b = false ∧ m' = m) ∨ (b = true ∧ ∃ k s t, EdgeKind.ofValue kind = .ok k ∧
      equalIndex? source = some s ∧ equalIndex? target = some t ∧
      ¬ (k = .preorder ∧ source.same target = true ∧ (m.state? source).isSome = true) ∧
      m.removeEdge k s t = some m') := by
  simp only [callRemoveEdge, bind_eq_ok_iff] at h
  obtain ⟨k, hk, h⟩ := h
  split at h
  · cases h
    exact Or.inl ⟨rfl, rfl⟩
  · rename_i hspared
    split at h
    · obtain ⟨_, h, -⟩ := bind_eq_ok_iff.1 h
      cases h
    · split at h
      · rename_i s t hs ht
        split at h
        · rename_i edited hedited
          cases h
          exact Or.inr ⟨rfl, k, s, t, hk, hs, ht, hspared, hedited⟩
        · cases h
          exact Or.inl ⟨rfl, rfl⟩
      · cases h
        exact Or.inl ⟨rfl, rfl⟩

theorem callEdit_cases {index : Value} {pairs : List (Value × Value)}
    (h : m.callEdit index pairs = .ok (b, m')) :
    (b = false ∧ m' = m) ∨ (b = true ∧ ∃ i us ups, Updates.ofList pairs = .ok us ∧
      us.check = .ok ups ∧ m.state? index = some i ∧
      m.editAssignment i ((m.assignmentAt i).update ups) = some m') := by
  simp only [callEdit, bind_eq_ok_iff] at h
  obtain ⟨us, hus, h⟩ := h
  split at h
  · cases h
    exact Or.inl ⟨rfl, rfl⟩
  · rename_i i hi
    obtain ⟨ups, hups, h⟩ := bind_eq_ok_iff.1 h
    split at h
    · rename_i edited hedited
      cases h
      exact Or.inr ⟨rfl, i, us, ups, hus, hups, hi, hedited⟩
    · cases h
      exact Or.inl ⟨rfl, rfl⟩

theorem importText_cases {text : Value} (h : m.importText text = .ok (b, m')) :
    (b = false ∧ m' = m) ∨ (b = true ∧ ofText text = .ok m') := by
  unfold importText at h
  split at h
  · rename_i hloaded
    cases h
    exact Or.inr ⟨rfl, hloaded⟩
  · cases h
  · cases h
  · cases h
    exact Or.inl ⟨rfl, rfl⟩

end Calls

/-! ## What an event can do -/

/-- The possible effects of an event on a model. -/
inductive Change (m : Model) : Event → Model → Prop
  | stay (e : Event) : Change m e m
  | addState {pairs : List (Value × Value)} (a : Assignment) (legal : ∀ x ∈ a, isName x = true) :
      Change m (.operate (.addState pairs)) (m.addState a)
  | removeState {index : Value} (i : Nat) (state : m.state? index = some i) :
      Change m (.operate (.removeState index)) (m.removeState i)
  | setAssignment {index : Value} {pairs : List (Value × Value)} (i : Nat) (a : Assignment)
      (state : m.state? index = some i)
      (legal : ∀ x ∈ a, x ∈ m.assignmentAt i ∨ isName x = true) (fits : m.fits i a = true) :
      Change m (.operate (.edit index pairs)) (m.setAssignment i a)
  | addEdge {source target kind : Value} (k : EdgeKind) (s t : Nat)
      (named : EdgeKind.ofValue kind = .ok k) (first : m.state? source = some s)
      (second : m.state? target = some t) (new : (s, t) ∉ m.edges k)
      (monotone : k = .preorder → ∀ x ∈ m.assignmentAt s, x ∈ m.assignmentAt t) :
      Change m (.operate (.addEdge source target kind)) (m.setEdges k (m.edges k ++ [(s, t)]))
  | removeEdge {source target kind : Value} (k : EdgeKind) (s t : Nat)
      (named : EdgeKind.ofValue kind = .ok k) (first : equalIndex? source = some s)
      (second : equalIndex? target = some t) (old : (s, t) ∈ m.edges k)
      (spared : ¬ (k = .preorder ∧ source.same target = true ∧ (m.state? source).isSome = true)) :
      Change m (.operate (.removeEdge source target kind)) (m.setEdges k ((m.edges k).erase (s, t)))
  | recompute {kind : Value} (k : EdgeKind) :
      Change m (.operate (.recompute kind)) (m.recompute k)
  | imported {text : Value} {m' : Model} (loaded : ofText text = .ok m') :
      Change m (.operate (.importText text)) m'
  | load {text : Value} {m' : Model} (loaded : ofText text = .ok m') : Change m (.load text) m'
  | refresh {ev : Evaluator} {arg : Argument} {limit : Option Nat} :
      Change m (.evaluate ev arg limit) m.refresh

theorem state?_eq_some_iff {m : Model} {v : Value} {i : Nat} :
    m.state? v = some i ↔ v = .int i ∧ m.isLive i = true := by
  unfold state?
  split
  · rename_i n
    simp only [Option.ite_none_right_eq_some, Option.some.injEq, Value.int.injEq]
    constructor
    · rintro ⟨⟨h0, hl⟩, rfl⟩
      exact ⟨by omega, hl⟩
    · rintro ⟨rfl, hl⟩
      exact ⟨⟨by omega, hl⟩, rfl⟩
  · rename_i h
    constructor
    · intro he; cases he
    · rintro ⟨rfl, -⟩
      exact absurd rfl (h _)

theorem callAddState_eq_ok {m m' : Model} {pairs : List (Value × Value)} {i : Nat}
    (h : m.callAddState pairs = .ok (i, m')) :
    ∃ a : Assignment, (∀ x ∈ a, isName x = true) ∧ m' = m.addState a := by
  simp only [callAddState, bind_eq_ok_iff, pure_eq_ok_iff, Prod.mk.injEq] at h
  obtain ⟨_, _, us, hus, rfl, rfl⟩ := h
  refine ⟨_, fun x hx => ?_, rfl⟩
  exact (Assignment.legal_update hus _ x hx).resolve_left (Assignment.not_mem_empty x)

theorem index_of_callAddState {m m' : Model} {pairs : List (Value × Value)} {i : Nat}
    (h : m.callAddState pairs = .ok (i, m')) : i = m.size := by
  simp only [callAddState, bind_eq_ok_iff, pure_eq_ok_iff, Prod.mk.injEq] at h
  obtain ⟨_, _, _, _, rfl, -⟩ := h
  rfl

theorem callEdit_eq_ok {m m' : Model} {index : Value} {pairs : List (Value × Value)} {b : Bool}
    (h : m.callEdit index pairs = .ok (b, m')) : m.Change (.operate (.edit index pairs)) m' := by
  obtain ⟨-, rfl⟩ | ⟨-, i, us, ups, -, hups, hi, hedited⟩ := callEdit_cases h
  · exact .stay _
  · obtain ⟨hfits, rfl⟩ := editAssignment_eq_some_iff.1 hedited
    exact .setAssignment i _ hi (Assignment.legal_update hups _) hfits

theorem callAddEdge_eq_ok {m m' : Model} {source target kind : Value} {b : Bool}
    (h : m.callAddEdge source target kind = .ok (b, m')) :
    m.Change (.operate (.addEdge source target kind)) m' := by
  obtain ⟨-, rfl⟩ | ⟨-, k, s, t, hk, hs, ht, hadd⟩ := callAddEdge_cases h
  · exact .stay _
  · obtain ⟨-, rfl⟩ | ⟨hnew, hmono, rfl⟩ := addEdge_cases hadd
    · exact .stay _
    · exact .addEdge k s t hk hs ht hnew hmono

theorem callRemoveEdge_eq_ok {m m' : Model} {source target kind : Value} {b : Bool}
    (h : m.callRemoveEdge source target kind = .ok (b, m')) :
    m.Change (.operate (.removeEdge source target kind)) m' := by
  obtain ⟨-, rfl⟩ | ⟨-, k, s, t, hk, hs, ht, hspared, hremove⟩ := callRemoveEdge_cases h
  · exact .stay _
  · obtain ⟨hmem, rfl⟩ := removeEdge_eq_some_iff.1 hremove
    exact .removeEdge k s t hk hs ht hmem hspared

theorem importText_eq_ok {m m' : Model} {text : Value} {b : Bool}
    (h : m.importText text = .ok (b, m')) : m.Change (.operate (.importText text)) m' := by
  obtain ⟨-, rfl⟩ | ⟨-, hloaded⟩ := importText_cases h
  · exact .stay _
  · exact .imported hloaded

section Outcomes

variable {m m' : Model} {α ε : Type} {call : Except ε (α × Model)} {g : α → Answer}
  {f : ε → OperationError} {answer : Answer} {err : OperationError}

theorem settle_eq_ok_iff : m.settle g f call = (.ok answer, m') ↔
    ∃ a, call = .ok (a, m') ∧ g a = answer := by
  cases call with
  | error e => simp [settle]
  | ok r => simp [settle, Prod.ext_iff, and_comm]

theorem settle_eq_error (h : (m.settle g f call).1 = .error err) : (m.settle g f call).2 = m := by
  cases call with
  | error e => rfl
  | ok r => cases h

/-- **A call that fails leaves the model as it was.** -/
theorem perform_eq_error {op : Operation} (h : (m.perform op).1 = .error err) :
    (m.perform op).2 = m := by
  cases op with
  | removeState index => cases h
  | addState | edit | addEdge | removeEdge | recompute | importText => exact settle_eq_error h

theorem after_of_error {op : Operation} (h : (m.perform op).1 = .error err) :
    m.after (.operate op) = m := perform_eq_error h

theorem change_of_perform {op : Operation} (h : m.perform op = (.ok answer, m')) :
    m.Change (.operate op) m' := by
  cases op with
  | addState pairs =>
    obtain ⟨i, h, -⟩ := settle_eq_ok_iff.1 h
    obtain ⟨a, hlegal, rfl⟩ := callAddState_eq_ok h
    exact .addState a hlegal
  | removeState index =>
    cases h
    unfold callRemoveState
    split
    · rename_i i hi
      exact .removeState i hi
    · exact .stay _
  | edit index pairs =>
    obtain ⟨b, h, -⟩ := settle_eq_ok_iff.1 h
    exact callEdit_eq_ok h
  | addEdge source target kind =>
    obtain ⟨b, h, -⟩ := settle_eq_ok_iff.1 h
    exact callAddEdge_eq_ok h
  | removeEdge source target kind =>
    obtain ⟨b, h, -⟩ := settle_eq_ok_iff.1 h
    exact callRemoveEdge_eq_ok h
  | recompute kind =>
    obtain ⟨a, h, -⟩ := settle_eq_ok_iff.1 h
    obtain ⟨k, -, h⟩ := map_eq_ok_iff.1 h
    cases h
    exact .recompute k
  | importText text =>
    obtain ⟨b, h, -⟩ := settle_eq_ok_iff.1 h
    exact importText_eq_ok h

end Outcomes

theorem evaluate_model (ev : Evaluator) (m : Model) (arg : Argument) (limit : Option Nat) :
    (ev.evaluate m arg limit).2.2 = m ∨ (ev.evaluate m arg limit).2.2 = m.refresh := by
  rw [Evaluator.evaluate_model]
  split
  · exact Or.inl rfl
  · exact Or.inr rfl

theorem change_after (m : Model) (e : Event) : m.Change e (m.after e) := by
  cases e with
  | operate op =>
    cases h : (m.perform op).1 with
    | error err =>
      rw [after_of_error h]
      exact .stay _
    | ok answer => exact change_of_perform (Prod.ext h rfl)
  | load text =>
    simp only [after]
    split
    · rename_i h
      exact .load h
    · exact .stay _
  | evaluate ev arg limit =>
    rcases evaluate_model ev m arg limit with h | h
    · rw [after, h]
      exact .stay _
    · rw [after, h]
      exact .refresh

end Model

end KripkeLogic
