import KripkeLogic.Proofs.Evaluation.Forcing

/-! # Persistence -/

namespace KripkeLogic

/-- Variables, falsum, negations and boxes, joined by conjunction, disjunction and diamond. -/
inductive Formula.Persistent : Formula → Prop
  | prop (x : Name) : Persistent (.prop x)
  | bot : Persistent .bot
  | neg (a : Formula) : Persistent (.neg a)
  | nec (a : Formula) : Persistent (.nec a)
  | conj {a b : Formula} (ha : Persistent a) (hb : Persistent b) : Persistent (.conj a b)
  | disj {a b : Formula} (ha : Persistent a) (hb : Persistent b) : Persistent (.disj a b)
  | poss {a : Formula} (ha : Persistent a) : Persistent (.poss a)

namespace Model

variable {m : Model} {rules : Rules} {w v : Nat}

/-! ## Formulas that look up the preorder -/

theorem Forces.neg_up {a : Formula} (hwv : m.Below w v) (h : m.Forces rules (.neg a) w) :
    m.Forces rules (.neg a) v :=
  fun u hvu => h u (hwv.trans hvu)

theorem Forces.nec_up {a : Formula} (hwv : m.Below w v) (h : m.Forces rules (.nec a) w) :
    m.Forces rules (.nec a) v :=
  fun u j hvu huj => h u j (hwv.trans hvu) huj

theorem Forces.poss_up {a : Formula} (hlocal : rules.localDiamond = true)
    (hclosed : ¬ m.Broken rules) (hwv : m.Below w v)
    (ha : ∀ i j, m.Below i j → m.Forces rules a i → m.Forces rules a j)
    (h : m.Forces rules (.poss a) w) : m.Forces rules (.poss a) v := by
  simp only [Forces, if_pos hlocal] at h ⊢
  obtain ⟨j, hwj, hj⟩ := h
  obtain ⟨n, hjn, hvn⟩ : ∃ n, m.Below j n ∧ m.Sees rules v n := by
    by_contra hnone
    exact hclosed ⟨w, j, v, hwv, hwj, hnone⟩
  exact ⟨n, hvn, ha j n hjn hj⟩

theorem Forces.up (h : m.Consistent) (hlocal : rules.localDiamond = true)
    (hclosed : ¬ m.Broken rules) {f : Formula} (hf : f.Persistent) (hwv : m.Below w v)
    (hw : m.Forces rules f w) : m.Forces rules f v := by
  induction hf generalizing w v with
  | prop x => exact h.grows hwv _ hw
  | bot => exact hw
  | neg a => exact hw.neg_up hwv
  | nec a => exact hw.nec_up hwv
  | conj _ _ iha ihb => exact ⟨iha hwv hw.1, ihb hwv hw.2⟩
  | disj _ _ iha ihb => exact hw.imp (iha hwv) (ihb hwv)
  | poss _ iha => exact hw.poss_up hlocal hclosed hwv fun i j => iha

/-! ## Persistence of values -/

/-- **Persistent formulas stay true up the preorder** wherever evaluation under the confluent rule
and the local diamond is not refused. -/
theorem persistent_run (events : List Event) (ev : Evaluator) (hconfluent : ev.rules.confluent = true)
    (hlocal : ev.rules.localDiamond = true) {arg : Argument} {f : Formula}
    (hread : arg.toFormula = .ok f) (hf : f.Persistent)
    (hanswer : (ev.evaluate (run events) arg).1 ≠ .error .notConfluent) :
    ∃ values, (ev.evaluate (run events) arg).1 = .ok values ∧
      ∀ w v, (w, v) ∈ ((run events).closure .preorder).edges →
        values[w]? = some true → values[v]? = some true := by
  have h := consistent_run events
  obtain ⟨hpermitted, values, hvalues, -, hforces⟩ := h.answers ev hread hanswer
  have hclosed : ¬ (run events).Broken ev.rules := fun hbroken => hpermitted ⟨hconfluent, hbroken⟩
  refine ⟨values, hvalues, fun w v hwv hw => ?_⟩
  have hbelow : (run events).Below w v := h.mem_closure.1 hwv
  obtain ⟨hw', hv'⟩ := h.lt_size_of_below hbelow
  rw [hforces v hv']
  exact ((hforces w hw').1 hw).up h hlocal hclosed hf hbelow

def sharedStep : List Event :=
  [.operate (.addState []), .operate (.addState [(.text ['p'], .bool true)]),
    .operate (.addEdge (.int 0) (.int 1) (.text EdgeKind.preorder.word)),
    .operate (.addEdge (.int 0) (.int 1) (.text EdgeKind.relation.word)),
    .operate (.addEdge (.int 1) (.int 1) (.text EdgeKind.relation.word))]

theorem persistent_sharedStep :
    (0, 1) ∈ ((run sharedStep).closure .preorder).edges ∧
      ∃ values, (Evaluator.evaluate { rules := ⟨true, true, true⟩ } (run sharedStep)
        (.value (.text ['<', '>', 'p']))).1 = .ok values ∧
        ∀ w v, (w, v) ∈ ((run sharedStep).closure .preorder).edges →
          values[w]? = some true → values[v]? = some true := by
  refine ⟨by decide, persistent_run sharedStep _ rfl rfl (f := .poss (.prop (.ofChar 'p' rfl))) rfl
    (.poss (.prop _)) ?_⟩
  rw [(consistent_run sharedStep).evaluate_eq _ rfl, if_pos (by decide)]
  simp

end Model

end KripkeLogic
