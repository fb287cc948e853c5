import KripkeLogic.Proofs.Model.History
import KripkeLogic.Session

/-! # Sessions make histories -/

namespace KripkeLogic

namespace Model

def Reached (m : Model) : Prop := ∃ events, run events = m

variable {m : Model}

theorem Reached.after (h : m.Reached) (e : Event) : (m.after e).Reached := by
  obtain ⟨events, rfl⟩ := h
  exact ⟨events ++ [e], run_snoc events e⟩

theorem Reached.ofText {text : Value} (h : ofText text = .ok m) : m.Reached := by
  refine ⟨[.load text], ?_⟩
  rw [run, List.foldl_cons, List.foldl_nil, Model.after, h]

theorem Reached.evaluate (h : m.Reached) (rules : Rules) (arg : Argument) (limit : Option Nat) :
    (m.evaluate rules arg limit).2.Reached :=
  h.after (.evaluate { rules := rules } arg limit)

theorem Reached.truth (h : m.Reached) (state : Value) (arg : Argument) (rules : Rules)
    (limit : Option Nat) : (m.truth state arg rules limit).2.Reached := by
  have heval := h.evaluate rules arg limit
  unfold Model.truth
  split
  · exact h
  · split <;> simp_all

theorem Reached.evaluateAll (h : m.Reached) (rules : Rules) (arg : Argument) (limit : Option Nat) :
    (m.evaluateAll rules arg limit).2.Reached := by
  have heval := h.evaluate rules arg limit
  unfold Model.evaluateAll
  split <;> simp_all

end Model

namespace Session

open Model

def play (commands : List Command) : Session := commands.foldl (fun s c => (s.step c).2) {}

/-- The models of a session are ends of histories. -/
structure Sound (s : Session) : Prop where
  model : s.model.Reached
  left : ∀ f ∈ s.followers, ∀ m, f.2.left = some m → m.Reached

variable {s : Session}

theorem Sound.withModel (h : s.Sound) {m : Model} (hm : m.Reached) : (s.withModel m).Sound :=
  ⟨hm, h.left⟩

theorem Sound.setFollower (h : s.Sound) (id : Value) {f : Follower}
    (hf : ∀ m, f.left = some m → m.Reached) : (s.setFollower id f).Sound := by
  refine ⟨h.model, fun g hg => ?_⟩
  rcases List.mem_cons.1 hg with rfl | hg
  · exact hf
  · exact h.left g (List.mem_filter.1 hg).1

theorem Sound.leave (h : s.Sound) {m : Model} (hm : m.Reached) : (s.leave m).Sound := by
  refine ⟨hm, fun g hg m' hleft => ?_⟩
  obtain ⟨f, hf, rfl⟩ := List.mem_map.1 hg
  cases hl : f.2.left with
  | none =>
    simp only [hl, Option.getD_none, Option.some.injEq] at hleft
    exact hleft ▸ h.model
  | some m'' =>
    simp only [hl, Option.getD_some, Option.some.injEq] at hleft
    exact hleft ▸ h.left f hf m'' hl

theorem reached_answerTruth {m : Model} (h : m.Reached) (state : Value) (formula : Argument)
    (rules other : Option Value) (limit : Option Nat) :
    (answerTruth m state formula rules other limit).2.Reached := by
  unfold answerTruth
  split
  · exact h
  · exact h
  · exact h.truth _ _ _ _

theorem reached_answerEvaluate {m : Model} (h : m.Reached) (formula : Argument)
    (rules : Option Value) (limit : Option Nat) :
    (answerEvaluate m formula rules limit).2.Reached := by
  unfold answerEvaluate
  split
  · exact h
  · exact h.evaluate _ _ _

theorem reached_answerEvaluateAll {m : Model} (h : m.Reached) (formula : Argument)
    (rules : Option Value) (limit : Option Nat) :
    (answerEvaluateAll m formula rules limit).2.Reached := by
  unfold answerEvaluateAll
  split
  · exact h
  · exact h.evaluateAll _ _ _

theorem Sound.makeEvaluator (h : s.Sound) (id : Value) (rules other : Option Value) :
    (s.makeEvaluator id rules other).2.Sound := by
  unfold Session.makeEvaluator
  split
  · exact h
  · exact h
  · exact h.setFollower id fun m hm => by cases hm

theorem Sound.follower (h : s.Sound) {id : Value} {f : Follower} (hf : s.follower? id = some f) :
    ∀ m, f.left = some m → m.Reached := by
  obtain ⟨g, hg, rfl⟩ := Option.map_eq_some_iff.1 hf
  exact h.left g (List.mem_of_find?_eq_some hg)

theorem Sound.runEvaluator (h : s.Sound) (id : Value) (formula : Argument) (limit : Option Nat) :
    (s.runEvaluator id formula limit).2.Sound := by
  unfold Session.runEvaluator
  split
  · exact h
  · rename_i f hf
    have hleft := h.follower hf
    have hmodel : (f.left.getD s.model).Reached := by
      cases hl : f.left with
      | none => exact h.model
      | some m => exact hleft m hl
    have hafter := hmodel.after (.evaluate f.evaluator formula limit)
    simp only
    split
    · refine h.setFollower id fun m hm => ?_
      cases hm
      exact hafter
    · exact (h.withModel hafter).setFollower id fun m hm => by cases hm

theorem Sound.step (h : s.Sound) (c : Command) (limit : Option Nat) :
    (s.step c limit).2.Sound := by
  cases c with
  | operate op => exact h.withModel (h.model.after (.operate op))
  | ask q => exact h
  | fromText text =>
    simp only [Session.step]
    split
    · rename_i m hm
      exact h.leave (Reached.ofText hm)
    · exact h
  | truth state formula rules other => exact h.withModel (reached_answerTruth h.model _ _ _ _ _)
  | evaluate formula rules => exact h.withModel (reached_answerEvaluate h.model _ _ _)
  | evaluateAll formula rules => exact h.withModel (reached_answerEvaluateAll h.model _ _ _)
  | makeEvaluator id rules other => exact h.makeEvaluator id rules other
  | runEvaluator id formula => exact h.runEvaluator id formula limit

/-- **The models of a session are ends of histories**, after any commands. -/
theorem sound_play (commands : List Command) : (play commands).Sound := by
  induction commands using List.reverseRecOn with
  | nil => exact ⟨⟨[], rfl⟩, fun f hf => by cases hf⟩
  | append_singleton commands c ih =>
    rw [play, List.foldl_append]
    exact ih.step c none

end Session

end KripkeLogic
