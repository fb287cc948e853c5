import KripkeLogic.Evaluation.Evaluator
import KripkeLogic.Proofs.Formula.Placed

/-!
# Work comes to an end

The loop is cut into its turns. It ends with an empty stack, or in a comparison of equal formulas
that are too deep. It never looks up a value that is not there.
-/

namespace KripkeLogic

/-! ## The formulas that are needed -/

namespace Formula

def parts : Formula → List Formula
  | prop x => [prop x]
  | bot => [bot]
  | unary op a => unary op a :: a.parts
  | binary op a b => binary op a b :: (a.parts ++ b.parts)

/-- A part of the formula, or what a negation in it stands for. -/
def Needs (f g : Formula) : Prop := g ∈ f.parts ∨ ∃ a, neg a ∈ f.parts ∧ (g = impl a bot ∨ g = bot)

theorem needs_unary_iff {op : UnaryOp} {a g : Formula} : (unary op a).Needs g ↔
    g = unary op a ∨ (op = .neg ∧ (g = impl a bot ∨ g = bot)) ∨ a.Needs g := by
  simp only [Needs, parts, List.mem_cons, unary.injEq]
  constructor
  · rintro ((rfl | hg) | ⟨b, ⟨rfl, rfl⟩ | hb, hg⟩)
    · exact Or.inl rfl
    · exact Or.inr (Or.inr (Or.inl hg))
    · exact Or.inr (Or.inl ⟨rfl, hg⟩)
    · exact Or.inr (Or.inr (Or.inr ⟨b, hb, hg⟩))
  · rintro (rfl | ⟨rfl, hg⟩ | hg | ⟨b, hb, hg⟩)
    · exact Or.inl (Or.inl rfl)
    · exact Or.inr ⟨a, Or.inl ⟨rfl, rfl⟩, hg⟩
    · exact Or.inl (Or.inr hg)
    · exact Or.inr ⟨b, Or.inr hb, hg⟩

theorem needs_binary_iff {op : BinaryOp} {a b g : Formula} : (binary op a b).Needs g ↔
    g = binary op a b ∨ a.Needs g ∨ b.Needs g := by
  simp only [Needs, parts, List.mem_cons, List.mem_append, reduceCtorEq, false_or]
  constructor
  · rintro ((rfl | hg | hg) | ⟨c, hc | hc, hg⟩)
    · exact Or.inl rfl
    · exact Or.inr (Or.inl (Or.inl hg))
    · exact Or.inr (Or.inr (Or.inl hg))
    · exact Or.inr (Or.inl (Or.inr ⟨c, hc, hg⟩))
    · exact Or.inr (Or.inr (Or.inr ⟨c, hc, hg⟩))
  · rintro (rfl | (hg | ⟨c, hc, hg⟩) | (hg | ⟨c, hc, hg⟩))
    · exact Or.inl (Or.inl rfl)
    · exact Or.inl (Or.inr (Or.inl hg))
    · exact Or.inr ⟨c, Or.inl hc, hg⟩
    · exact Or.inl (Or.inr (Or.inr hg))
    · exact Or.inr ⟨c, Or.inr hc, hg⟩

end Formula

namespace Placed

/-- The formulas in memory that the work for one of them deals with. -/
def uses : Placed → List Placed
  | prop i x => [prop i x]
  | bot i => [bot i]
  | unary i .neg a => unary i .neg a :: negated a :: bot (some .falsum) :: a.uses
  | unary i op a => unary i op a :: a.uses
  | binary i op a b => binary i op a b :: (a.uses ++ b.uses)

theorem mem_uses_self (p : Placed) : p ∈ p.uses := by
  cases p with
  | unary i op a => cases op <;> exact List.mem_cons_self
  | prop | bot | binary => exact List.mem_cons_self

theorem operand_mem_uses {p q o : Placed} (hq : q ∈ p.uses) (ho : o ∈ q.operands) : o ∈ p.uses := by
  induction p with
  | prop i x | bot i =>
    rw [uses, List.mem_singleton] at hq
    rw [hq] at ho
    cases ho
  | unary i op a ih =>
    cases op with
    | neg =>
      simp only [uses, List.mem_cons] at hq ⊢
      rcases hq with rfl | rfl | rfl | hq
      · simp only [operands, List.mem_singleton] at ho
        exact Or.inr (Or.inl ho)
      · simp only [negated, operands, List.mem_cons, List.not_mem_nil, or_false] at ho
        rcases ho with rfl | rfl
        · exact Or.inr (Or.inr (Or.inr (mem_uses_self _)))
        · exact Or.inr (Or.inr (Or.inl rfl))
      · cases ho
      · exact Or.inr (Or.inr (Or.inr (ih hq)))
    | nec | poss =>
      simp only [uses, List.mem_cons] at hq ⊢
      rcases hq with rfl | hq
      · simp only [operands, List.mem_singleton] at ho
        exact Or.inr (ho ▸ mem_uses_self _)
      · exact Or.inr (ih hq)
  | binary i op a b iha ihb =>
    simp only [uses, List.mem_cons, List.mem_append] at hq ⊢
    rcases hq with rfl | hq | hq
    · simp only [operands, List.mem_cons, List.not_mem_nil, or_false] at ho
      rcases ho with rfl | rfl
      · exact Or.inr (Or.inl (mem_uses_self _))
      · exact Or.inr (Or.inr (mem_uses_self _))
    · exact Or.inr (Or.inl (iha hq))
    · exact Or.inr (Or.inr (ihb hq))

theorem exists_use_iff {p : Placed} {g : Formula} :
    (∃ q ∈ p.uses, q.formula = g) ↔ p.formula.Needs g := by
  induction p with
  | prop i x | bot i => simp [uses, formula, Formula.Needs, Formula.parts, eq_comm]
  | unary i op a ih =>
    rw [formula, Formula.needs_unary_iff, ← ih]
    cases op <;> simp [uses, negated, formula, eq_comm, or_assoc]
  | binary i op a b iha ihb =>
    rw [formula, Formula.needs_binary_iff, ← iha, ← ihb]
    simp [uses, formula, eq_comm, or_and_right, exists_or]

/-- Whatever equal formulas the work deals with can be compared within the limit. -/
def Comparable (limit : Option Nat) (p : Placed) : Prop :=
  ∀ a ∈ p.uses, ∀ b ∈ p.uses, a.formula = b.formula → Fits limit (a.distance b)

instance (limit : Option Nat) (p : Placed) : Decidable (p.Comparable limit) :=
  inferInstanceAs (Decidable (∀ _ ∈ _, ∀ _ ∈ _, _ → _))

theorem comparable_none (p : Placed) : Comparable none p := fun _ _ _ _ _ => fits_none _

theorem height_le_of_mem_uses {p q : Placed} (hq : q ∈ p.uses) :
    q.formula.height ≤ p.formula.height := by
  induction p with
  | prop i x | bot i =>
    rw [uses, List.mem_singleton] at hq
    exact hq ▸ Nat.le_refl _
  | unary i op a ih =>
    have hpos := a.formula.height_pos
    cases op with
    | neg =>
      simp only [uses, List.mem_cons] at hq
      rcases hq with rfl | rfl | rfl | hq
      · exact Nat.le_refl _
      · simp only [negated, formula, Formula.height]
        omega
      · simp only [formula, Formula.height]
        omega
      · exact Nat.le_succ_of_le (ih hq)
    | nec | poss =>
      simp only [uses, List.mem_cons] at hq
      rcases hq with rfl | hq
      · exact Nat.le_refl _
      · exact Nat.le_succ_of_le (ih hq)
  | binary i op a b iha ihb =>
    simp only [uses, List.mem_cons, List.mem_append] at hq
    rcases hq with rfl | hq | hq
    · exact Nat.le_refl _
    · have := iha hq
      simp only [formula, Formula.height]
      omega
    · have := ihb hq
      simp only [formula, Formula.height]
      omega

theorem comparable_of_height {limit : Option Nat} {p : Placed}
    (h : Fits limit (3 * p.formula.height)) : Comparable limit p := by
  intro a ha b _ _
  have hdist := distance_le_height a b
  have hheight := height_le_of_mem_uses ha
  exact h.mono (by omega)

theorem exists_operand {k x o : Placed} (h : k.formula = x.formula) (ho : o ∈ x.operands) :
    ∃ o' ∈ k.operands, o'.formula = o.formula ∧ (o' = o ∨ o'.distance o ≤ k.distance x) := by
  by_cases hone : k.IsOne x
  · exact ⟨o, hone.2 ▸ ho, rfl, Or.inl rfl⟩
  cases x with
  | prop j x | bot j => cases ho
  | unary j op b =>
    obtain ⟨i, a, rfl, ha⟩ := eq_unary h
    rw [distance_unary hone]
    cases op with
    | neg =>
      simp only [operands, List.mem_singleton] at ho ⊢
      subst ho
      refine ⟨_, rfl, congrArg (Formula.impl · .bot) ha, Or.inr ?_⟩
      have hnone : ¬ a.negated.IsOne b.negated := fun hone => by cases hone.1
      refine Nat.le_of_eq ((distance_binary hnone).trans ?_)
      rw [distance_self rfl, Nat.max_zero]
    | nec | poss =>
      simp only [operands, List.mem_singleton] at ho ⊢
      exact ⟨a, rfl, ho ▸ ha, Or.inr (ho ▸ Nat.le_add_right _ 3)⟩
  | binary j op b b' =>
    obtain ⟨i, a, a', rfl, ha, ha'⟩ := eq_binary h
    rw [distance_binary hone]
    simp only [operands, List.mem_cons, List.not_mem_nil, or_false] at ho ⊢
    rcases ho with rfl | rfl
    · exact ⟨a, Or.inl rfl, ha, Or.inr (by omega)⟩
    · exact ⟨a', Or.inr rfl, ha', Or.inr (by omega)⟩

end Placed

namespace Setting

section Lookup

variable {limit : Option Nat} {n : Nat} {cache : Cache n} {p : Placed} {ps : List Placed}

def Found (limit : Option Nat) (cache : Cache n) (p : Placed) : Prop :=
  ∃ key v, cache[p.formula]? = some (key, v) ∧ Fits limit (key.distance p)

def Lost (limit : Option Nat) (cache : Cache n) (p : Placed) : Prop :=
  ∃ key v, cache[p.formula]? = some (key, v) ∧ ¬ Fits limit (key.distance p)

theorem find_eq_none_iff : find limit cache p = .ok none ↔ cache[p.formula]? = none := by
  unfold find
  split
  · next h => exact iff_of_true rfl h
  · next h =>
    rw [h]
    split <;> simp

theorem find_eq_some_iff : (∃ v, find limit cache p = .ok (some v)) ↔ Found limit cache p := by
  unfold find Found
  split
  · next h => simp [h]
  · next key v h =>
    rw [h]
    split
    · next hfits => exact iff_of_true ⟨v, rfl⟩ ⟨key, v, rfl, hfits⟩
    · next hfits =>
      refine iff_of_false (by simp) ?_
      rintro ⟨_, _, heq, hfits'⟩
      cases heq
      exact hfits hfits'

theorem find_eq_error_iff {e : WorkError} :
    find limit cache p = .error e ↔ e = .tooDeep ∧ Lost limit cache p := by
  unfold find Lost
  split
  · next h => simp [h]
  · next key v h =>
    rw [h]
    split
    · next hfits =>
      refine iff_of_false (by simp) ?_
      rintro ⟨-, _, _, heq, hfits'⟩
      cases heq
      exact hfits' hfits
    · next hfits =>
      rw [Except.error.injEq, eq_comm]
      exact (and_iff_left ⟨key, v, rfl, hfits⟩).symm

theorem mem_iff_found_or_lost : p.formula ∈ cache ↔ Found limit cache p ∨ Lost limit cache p := by
  rw [Std.HashMap.mem_iff_isSome_getElem?, Option.isSome_iff_exists, Prod.exists]
  constructor
  · rintro ⟨key, v, hkey⟩
    by_cases hfits : Fits limit (key.distance p)
    · exact Or.inl ⟨key, v, hkey, hfits⟩
    · exact Or.inr ⟨key, v, hkey, hfits⟩
  · rintro (⟨key, v, hkey, -⟩ | ⟨key, v, hkey, -⟩) <;> exact ⟨key, v, hkey⟩

theorem Found.mem (h : Found limit cache p) : p.formula ∈ cache :=
  mem_iff_found_or_lost.2 (Or.inl h)

def missing (cache : Cache n) (ps : List Placed) : List Placed :=
  ps.filter fun o => !decide (o.formula ∈ cache)

theorem pending_cases (limit : Option Nat) (cache : Cache n) (ps : List Placed) :
    (pending limit cache ps = .ok (missing cache ps) ∧
      ∀ o ∈ ps, o.formula ∈ cache → Found limit cache o) ∨
    (pending limit cache ps = .error .tooDeep ∧ ∃ o ∈ ps, Lost limit cache o) := by
  induction ps with
  | nil => exact Or.inl ⟨rfl, by simp⟩
  | cons o ps ih =>
    rw [pending]
    cases hfind : find limit cache o with
    | error e =>
      obtain ⟨rfl, hlost⟩ := find_eq_error_iff.1 hfind
      exact Or.inr ⟨rfl, o, List.mem_cons_self, hlost⟩
    | ok found =>
      rcases ih with ⟨hpending, hfound⟩ | ⟨hpending, q, hq, hlost⟩
      · left
        rw [hpending]
        cases found with
        | none =>
          have hnew := find_eq_none_iff.1 hfind
          have hnot : o.formula ∉ cache := by
            rw [Std.HashMap.mem_iff_isSome_getElem?, hnew]
            simp
          refine ⟨by simp [missing, hnot, bind, Except.bind, pure, Except.pure], fun q hq hmem => ?_⟩
          rcases List.mem_cons.1 hq with rfl | hq
          · exact absurd hmem hnot
          · exact hfound q hq hmem
        | some v =>
          have hf : Found limit cache o := find_eq_some_iff.1 ⟨v, hfind⟩
          refine ⟨by simp [missing, hf.mem, bind, Except.bind, pure, Except.pure], fun q hq hmem => ?_⟩
          rcases List.mem_cons.1 hq with rfl | hq
          · exact hf
          · exact hfound q hq hmem
      · right
        rw [hpending]
        exact ⟨rfl, q, List.mem_cons_of_mem _ hq, hlost⟩

theorem mem_missing {o : Placed} : o ∈ missing cache ps ↔ o ∈ ps ∧ o.formula ∉ cache := by
  simp [missing]

theorem pending_eq_ok {qs : List Placed} (h : pending limit cache ps = .ok qs) :
    qs = missing cache ps ∧ ∀ o ∈ ps, o.formula ∈ cache → Found limit cache o := by
  rcases pending_cases limit cache ps with ⟨hpending, hfound⟩ | ⟨hpending, -⟩
  · rw [h, Except.ok.injEq] at hpending
    exact ⟨hpending, hfound⟩
  · rw [h] at hpending
    cases hpending

theorem found_of_pending_nil (h : pending limit cache ps = .ok []) :
    ∀ o ∈ ps, Found limit cache o := by
  obtain ⟨hnil, hfound⟩ := pending_eq_ok h
  intro o ho
  refine hfound o ho (Classical.byContradiction fun hmem => ?_)
  exact List.not_mem_nil (hnil ▸ mem_missing.2 ⟨ho, hmem⟩)

theorem fetch_eq_ok (h : Found limit cache p) : ∃ v, fetch limit cache p = .ok v := by
  obtain ⟨v, hv⟩ := find_eq_some_iff.2 h
  exact ⟨v, by rw [fetch, hv]; rfl⟩

end Lookup

/-! ## Turns of the loop -/

section Turns

variable {s : Setting} {limit : Option Nat} {p q : Placed} {ps rest stack stack' : List Placed}
  {cache cache' cache'' : Cache s.size}

theorem combine_eq_ok (h : ∀ o ∈ p.operands, Found limit cache o) :
    ∃ v, s.combine limit cache p = .ok v := by
  cases p with
  | prop i x | bot i => exact ⟨_, rfl⟩
  | unary i op a =>
    cases op with
    | neg =>
      obtain ⟨v, hv⟩ := fetch_eq_ok (h a.negated (by simp [Placed.operands]))
      exact ⟨_, by rw [combine, hv]; rfl⟩
    | nec | poss =>
      obtain ⟨v, hv⟩ := fetch_eq_ok (h a (by simp [Placed.operands]))
      exact ⟨s.ofUnary _ v, by simp only [combine, hv]; rfl⟩
  | binary i op a b =>
    obtain ⟨u, hu⟩ := fetch_eq_ok (h a (by simp [Placed.operands]))
    obtain ⟨v, hv⟩ := fetch_eq_ok (h b (by simp [Placed.operands]))
    exact ⟨_, by rw [combine, hu, hv]; rfl⟩

theorem turn_eq_error {e : WorkError} (h : s.turn limit p rest cache = .error e) :
    e = .tooDeep ∧ ∃ q ∈ p :: p.operands, Lost limit cache q := by
  unfold turn at h
  cases hfind : find limit cache p with
  | error e' =>
    rw [hfind] at h
    cases h
    obtain ⟨he, hlost⟩ := find_eq_error_iff.1 hfind
    exact ⟨he, p, List.mem_cons_self, hlost⟩
  | ok found =>
    rw [hfind] at h
    cases found with
    | some v => cases h
    | none =>
      rcases pending_cases limit cache p.operands with ⟨hpending, -⟩ | ⟨hpending, q, hq, hlost⟩
      · cases hwaiting : missing cache p.operands with
        | nil =>
          obtain ⟨v, hv⟩ := combine_eq_ok (s := s) (found_of_pending_nil (hwaiting ▸ hpending))
          simp [hpending, hwaiting, hv, bind, Except.bind, pure, Except.pure] at h
        | cons first others =>
          simp [hpending, hwaiting, bind, Except.bind, pure, Except.pure] at h
      · simp only [hpending, bind, Except.bind, Except.error.injEq] at h
        exact ⟨h.symm, q, List.mem_cons_of_mem _ hq, hlost⟩

/-- So many turns lead from one stack and cache to others. -/
inductive Turns (s : Setting) (limit : Option Nat) :
    Nat → List Placed → Cache s.size → List Placed → Cache s.size → Prop
  | none (stack : List Placed) (cache : Cache s.size) : Turns s limit 0 stack cache stack cache
  | more {n : Nat} {p : Placed} {rest stack stack' : List Placed} {cache cache' cache'' : Cache s.size}
      (first : s.turn limit p rest cache = .ok (stack, cache'))
      (others : Turns s limit n stack cache' stack' cache'') :
      Turns s limit (n + 1) (p :: rest) cache stack' cache''

theorem Turns.trans {k n : Nat} {stack'' : List Placed} (h : Turns s limit k stack cache stack' cache')
    (h' : Turns s limit n stack' cache' stack'' cache'') :
    Turns s limit (k + n) stack cache stack'' cache'' := by
  induction h with
  | none => rwa [Nat.zero_add]
  | more first _ ih =>
    rw [Nat.add_right_comm]
    exact .more first (ih h')

theorem Turns.run_eq {n : Nat} (h : Turns s limit n stack cache stack' cache') (fuel : Nat) :
    s.run limit (n + fuel) stack cache = s.run limit fuel stack' cache' := by
  induction h with
  | none => rw [Nat.zero_add]
  | more first _ ih => rw [Nat.add_right_comm, run, first, ← ih]

/-- What the work for the formulas on top of the stack comes to within so many turns. -/
inductive Works (s : Setting) (limit : Option Nat) (ps rest : List Placed) (cache : Cache s.size)
    (bound : Nat) : Prop
  | done {n : Nat} {cache' : Cache s.size} (few : n ≤ bound)
      (turns : Turns s limit n (ps ++ rest) cache rest cache')
      (kept : ∀ p ∈ ps, p.formula ∈ cache') (more : ∀ f ∈ cache, f ∈ cache')
  | stopped {n : Nat} {q : Placed} {stack : List Placed} {cache' : Cache s.size} (few : n < bound)
      (turns : Turns s limit n (ps ++ rest) cache (q :: stack) cache')
      (stop : s.turn limit q stack cache' = .error .tooDeep)

theorem Works.nil (s : Setting) (limit : Option Nat) (rest : List Placed) (cache : Cache s.size) :
    Works s limit [] rest cache 0 :=
  .done (Nat.le_refl 0) (.none rest cache) (fun _ hp => by cases hp) fun _ hf => hf

theorem Works.append {qs : List Placed} {a b : Nat} (h : Works s limit ps (qs ++ rest) cache a)
    (h' : ∀ cache', (∀ p ∈ ps, p.formula ∈ cache') → (∀ f ∈ cache, f ∈ cache') →
      Works s limit qs rest cache' b) : Works s limit (ps ++ qs) rest cache (a + b) := by
  cases h with
  | stopped few turns stop =>
    rw [← List.append_assoc] at turns
    exact .stopped (by omega) turns stop
  | @done n cache' few turns kept more =>
    rw [← List.append_assoc] at turns
    cases h' cache' kept more with
    | stopped few' turns' stop => exact .stopped (by omega) (turns.trans turns') stop
    | done few' turns' kept' more' =>
      refine .done (by omega) (turns.trans turns') (fun p hp => ?_) fun f hf => more' f (more f hf)
      rcases List.mem_append.1 hp with hp | hp
      · exact more' _ (kept p hp)
      · exact kept' p hp

theorem works_or_pushed (limit : Option Nat) (p : Placed) (rest : List Placed) (cache : Cache s.size) :
    Works s limit [p] rest cache 1 ∨ (missing cache p.operands ≠ [] ∧
      s.turn limit p rest cache =
        .ok ((missing cache p.operands).reverse ++ p :: rest, cache)) := by
  cases h : s.turn limit p rest cache with
  | error e =>
    obtain ⟨rfl, -⟩ := turn_eq_error h
    exact Or.inl (.stopped Nat.zero_lt_one (.none _ cache) h)
  | ok out =>
    obtain ⟨stack, cache'⟩ := out
    have hturn := Turns.more h (.none stack cache')
    cases turned_of_turn h with
    | found hv =>
      refine Or.inl (.done (Nat.le_refl 1) hturn (fun q hq => ?_) fun f hf => hf)
      rw [List.mem_singleton.1 hq]
      exact (find_eq_some_iff.1 ⟨_, hv⟩).mem
    | kept hnew hnone hv =>
      refine Or.inl (.done (Nat.le_refl 1) hturn (fun q hq => ?_) fun f hf => ?_)
      · rw [List.mem_singleton.1 hq]
        exact Std.HashMap.mem_insert_self
      · exact Std.HashMap.mem_insert.2 (Or.inr hf)
    | pushed hnew hsome =>
      rw [← (pending_eq_ok hsome).1]
      exact Or.inr ⟨List.cons_ne_nil _ _, rfl⟩

theorem works_of_operands (hops : ∀ o ∈ p.operands, o.formula ∈ cache) :
    Works s limit [p] rest cache 1 := by
  refine (works_or_pushed _ p rest cache).resolve_right fun h => h.1 ?_
  refine List.eq_nil_iff_forall_not_mem.2 fun o ho => ?_
  obtain ⟨ho, hmem⟩ := mem_missing.1 ho
  exact hmem (hops o ho)

/-! ## The number of turns -/

def totalCost : List Placed → Nat
  | [] => 0
  | p :: ps => cost p.formula + totalCost ps

theorem totalCost_append (ps qs : List Placed) :
    totalCost (ps ++ qs) = totalCost ps + totalCost qs := by
  induction ps with
  | nil => simp [totalCost]
  | cons p ps ih =>
    rw [List.cons_append, totalCost, totalCost, ih]
    omega

theorem totalCost_reverse (ps : List Placed) : totalCost ps.reverse = totalCost ps := by
  induction ps with
  | nil => rfl
  | cons p ps ih =>
    rw [List.reverse_cons, totalCost_append, ih]
    simp only [totalCost]
    omega

theorem totalCost_missing_le (cache : Cache s.size) (ps : List Placed) :
    totalCost (missing cache ps) ≤ totalCost ps := by
  induction ps with
  | nil => exact Nat.le_refl _
  | cons p ps ih =>
    unfold missing at ih ⊢
    rw [List.filter_cons]
    split <;> simp only [totalCost] <;> omega

theorem totalCost_operands_lt (p : Placed) : totalCost p.operands + 1 < cost p.formula := by
  cases p with
  | unary i op a =>
    cases op <;> simp only [Placed.operands, Placed.negated, Placed.formula, totalCost, cost] <;> omega
  | prop | bot | binary => simp only [Placed.operands, Placed.formula, totalCost, cost] <;> omega

theorem cost_le_totalCost (hp : p ∈ ps) : cost p.formula ≤ totalCost ps := by
  induction ps with
  | nil => cases hp
  | cons q ps ih =>
    simp only [totalCost]
    rcases List.mem_cons.1 hp with rfl | hp
    · omega
    · have := ih hp
      omega

theorem works_list (h : ∀ p ∈ ps, ∀ rest cache, Works s limit [p] rest cache (cost p.formula))
    (rest : List Placed) (cache : Cache s.size) : Works s limit ps rest cache (totalCost ps) := by
  induction ps generalizing cache with
  | nil => exact .nil s limit rest cache
  | cons p ps ih =>
    have hhead := h p List.mem_cons_self (ps ++ rest) cache
    exact hhead.append fun cache' _ _ => ih (fun q hq => h q (List.mem_cons_of_mem _ hq)) cache'

theorem Works.mono {a b : Nat} (h : Works s limit ps rest cache a) (hab : a ≤ b) :
    Works s limit ps rest cache b := by
  cases h with
  | done few turns kept more => exact .done (Nat.le_trans few hab) turns kept more
  | stopped few turns stop => exact .stopped (Nat.lt_of_lt_of_le few hab) turns stop

/-- The work for a formula takes no more turns than its cost, whatever else is there. -/
theorem works (s : Setting) (limit : Option Nat) (p : Placed) (rest : List Placed)
    (cache : Cache s.size) : Works s limit [p] rest cache (cost p.formula) := by
  have hcost := totalCost_operands_lt p
  rcases works_or_pushed limit p rest cache with h | ⟨-, hturn⟩
  · exact h.mono (by omega)
  · have hfew := totalCost_missing_le cache p.operands
    have hops : Works s limit (missing cache p.operands).reverse ([p] ++ rest) cache _ :=
      works_list (fun o ho rest cache => works s limit o rest cache) (p :: rest) cache
    -- When the missing operands are done, all operands are there.
    have hall := hops.append fun cache' hkept hmore => works_of_operands (by
      intro o ho
      by_cases hmem : o.formula ∈ cache
      · exact hmore _ hmem
      · exact hkept o (List.mem_reverse.2 (mem_missing.2 ⟨ho, hmem⟩)))
    rw [totalCost_reverse] at hall
    cases hall with
    | done few turns kept more =>
      rw [List.append_assoc] at turns
      exact .done (by omega) (.more hturn turns) (fun q hq => kept q (List.mem_append_right _ hq)) more
    | stopped few turns stop =>
      rw [List.append_assoc] at turns
      exact .stopped (by omega) (.more hturn turns) stop
termination_by cost p.formula
decreasing_by
  have hlt := cost_le_totalCost (mem_missing.1 (List.mem_reverse.1 ho)).1
  omega

/-! ## What every turn keeps -/

/-- The work for `p` as it stands: what waits and what is kept belongs to the work, the operands of
what is kept can be found, and `p` is not forgotten. -/
structure Serves (limit : Option Nat) (p : Placed) (stack : List Placed) (cache : Cache s.size) :
    Prop where
  waiting : ∀ q ∈ stack, q ∈ p.uses
  kept : ∀ (f : Formula) key v, cache[f]? = some (key, v) → key ∈ p.uses ∧ key.formula = f
  closed : ∀ (f : Formula) key v, cache[f]? = some (key, v) →
    ∀ o ∈ key.operands, Found limit cache o
  root : p ∈ stack ∨ Found limit cache p

theorem serves_start (limit : Option Nat) (p : Placed) : Serves limit p [p] (∅ : Cache s.size) := by
  refine ⟨fun q hq => ?_, fun f key v h => ?_, fun f key v h => ?_, Or.inl List.mem_cons_self⟩
  · rw [List.mem_singleton.1 hq]
    exact p.mem_uses_self
  · simp at h
  · simp at h

theorem Found.insert {v : Vector Bool s.size} (hnew : cache[q.formula]? = none)
    (h : Found limit cache p) : Found limit (cache.insert q.formula (q, v)) p := by
  obtain ⟨key, u, hkey, hfits⟩ := h
  refine ⟨key, u, ?_, hfits⟩
  rw [Std.HashMap.getElem?_insert, if_neg, hkey]
  intro heq
  rw [eq_of_beq heq, hkey] at hnew
  cases hnew

theorem Serves.turn (h : Serves limit p (q :: rest) cache) (hplace : p.place.isSome = true)
    (hturn : s.turn limit q rest cache = .ok (stack, cache')) : Serves limit p stack cache' := by
  have huse := h.waiting q List.mem_cons_self
  cases turned_of_turn hturn with
  | found hv =>
    have hfound := find_eq_some_iff.1 ⟨_, hv⟩
    refine ⟨fun x hx => h.waiting x (List.mem_cons_of_mem _ hx), h.kept, h.closed, ?_⟩
    rcases h.root with hp | hp
    · rcases List.mem_cons.1 hp with rfl | hp
      · exact Or.inr hfound
      · exact Or.inl hp
    · exact Or.inr hp
  | @kept v hnew hnone hv =>
    have hnew := find_eq_none_iff.1 hnew
    have hops := found_of_pending_nil hnone
    refine ⟨fun x hx => h.waiting x (List.mem_cons_of_mem _ hx), fun f key u hf => ?_,
      fun f key u hf o ho => ?_, ?_⟩
    · rw [Std.HashMap.getElem?_insert] at hf
      split at hf
      · next heq =>
        cases hf
        exact ⟨huse, eq_of_beq heq⟩
      · exact h.kept f key u hf
    · rw [Std.HashMap.getElem?_insert] at hf
      split at hf
      · cases hf
        exact (hops o ho).insert hnew
      · exact (h.closed f key u hf o ho).insert hnew
    · rcases h.root with hp | hp
      · rcases List.mem_cons.1 hp with rfl | hp
        · refine Or.inr ⟨p, v, Std.HashMap.getElem?_insert_self, ?_⟩
          rw [Placed.distance_self hplace]
          exact fits_zero limit
        · exact Or.inl hp
      · exact Or.inr (hp.insert hnew)
  | pushed hnew hsome =>
    rw [(pending_eq_ok hsome).1]
    refine ⟨fun x hx => ?_, h.kept, h.closed, h.root.imp_left (List.mem_append_right _)⟩
    rcases List.mem_append.1 hx with hx | hx
    · exact Placed.operand_mem_uses huse (mem_missing.1 (List.mem_reverse.1 hx)).1
    · exact h.waiting x hx

theorem Serves.turns {n : Nat} (h : Serves limit p stack cache) (hplace : p.place.isSome = true)
    (hturns : Turns s limit n stack cache stack' cache') : Serves limit p stack' cache' := by
  induction hturns with
  | none => exact h
  | more first _ ih => exact ih (h.turn hplace first)

/-! ## What is compared -/

theorem Serves.turn_ne_error {e : WorkError} (h : Serves limit p (q :: rest) cache)
    (hcomp : p.Comparable limit) : s.turn limit q rest cache ≠ .error e := by
  intro hturn
  obtain ⟨-, x, hx, key, v, hkey, hdeep⟩ := turn_eq_error hturn
  have huse := h.waiting q List.mem_cons_self
  have hxuse : x ∈ p.uses := by
    rcases List.mem_cons.1 hx with rfl | hx
    · exact huse
    · exact Placed.operand_mem_uses huse hx
  obtain ⟨hkuse, hsame⟩ := h.kept _ key v hkey
  exact hdeep (hcomp key hkuse x hxuse hsame)

theorem Serves.operand (h : Serves limit p stack cache) {o : Placed} (hq : Found limit cache q)
    (ho : o ∈ q.operands) : Found limit cache o := by
  obtain ⟨key, v, hkey, hfits⟩ := hq
  obtain ⟨o', ho', hsame, hclose⟩ := Placed.exists_operand (h.kept _ key v hkey).2 ho
  obtain ⟨key', u, hkey', hfits'⟩ := h.closed _ key v hkey o' ho'
  refine ⟨key', u, hsame ▸ hkey', ?_⟩
  rcases hclose with rfl | hclose
  · exact hfits'
  · have hle := Placed.distance_le_max (h.kept _ key' u hkey').2 hsame
    exact (fits_max_iff.2 ⟨hfits', hfits.mono hclose⟩).mono hle

theorem Serves.uses (h : Serves limit p stack cache) {o : Placed} (hq : Found limit cache q)
    (ho : o ∈ q.uses) : Found limit cache o := by
  induction q with
  | prop i x | bot i => exact List.mem_singleton.1 ho ▸ hq
  | unary i op a ih =>
    cases op with
    | neg =>
      have himpl := h.operand hq (o := a.negated) (by simp [Placed.operands])
      have hbot := h.operand himpl (o := .bot (some .falsum))
        (by simp [Placed.negated, Placed.operands])
      simp only [Placed.uses, List.mem_cons] at ho
      rcases ho with rfl | rfl | rfl | ho
      · exact hq
      · exact himpl
      · exact hbot
      · exact ih (h.operand himpl (by simp [Placed.negated, Placed.operands])) ho
    | nec | poss =>
      simp only [Placed.uses, List.mem_cons] at ho
      rcases ho with rfl | ho
      · exact hq
      · exact ih (h.operand hq (by simp [Placed.operands])) ho
  | binary i op a b iha ihb =>
    simp only [Placed.uses, List.mem_cons, List.mem_append] at ho
    rcases ho with rfl | ho | ho
    · exact hq
    · exact iha (h.operand hq (by simp [Placed.operands])) ho
    · exact ihb (h.operand hq (by simp [Placed.operands])) ho

theorem Serves.found (h : Serves limit p [] cache) : ∀ q ∈ p.uses, Found limit cache q :=
  fun _ hq => h.uses (h.root.resolve_left List.not_mem_nil) hq

theorem Serves.comparable (h : Serves limit p [] cache) : p.Comparable limit := by
  intro a ha b hb hsame
  obtain ⟨key, v, hkey, hfits⟩ := h.found a ha
  obtain ⟨key', v', hkey', hfits'⟩ := h.found b hb
  rw [← hsame, hkey] at hkey'
  cases hkey'
  have hle := Placed.distance_le_max (h.kept _ key v hkey).2.symm (hsame ▸ (h.kept _ key v hkey).2)
  rw [Placed.distance_comm a key] at hle
  exact (fits_max_iff.2 ⟨hfits, hfits'⟩).mono hle

theorem Serves.needs (h : Serves limit p stack cache) {g : Formula} (hg : g ∈ cache) :
    p.formula.Needs g := by
  rw [Std.HashMap.mem_iff_isSome_getElem?, Option.isSome_iff_exists, Prod.exists] at hg
  obtain ⟨key, v, hkey⟩ := hg
  obtain ⟨huse, hsame⟩ := h.kept g key v hkey
  exact Placed.exists_use_iff.1 ⟨key, huse, hsame⟩

theorem Serves.mem_iff (h : Serves limit p [] cache) {g : Formula} :
    g ∈ cache ↔ p.formula.Needs g := by
  refine ⟨h.needs, fun hg => ?_⟩
  obtain ⟨q, hq, rfl⟩ := Placed.exists_use_iff.2 hg
  exact (h.found q hq).mem

/-! ## The end -/

/-- What the loop comes to that begins with `p` and an empty cache. -/
structure Ends (s : Setting) (limit : Option Nat) (p : Placed)
    (outcome : Except WorkError Unit × Cache s.size) : Prop where
  /-- Where all comparisons are possible, what is needed for the formula is kept, and the formula
  gets its value. -/
  finished : p.Comparable limit → outcome.1 = .ok () ∧
    (∃ n, n ≤ cost p.formula ∧ Turns s limit n [p] ∅ [] outcome.2) ∧
    (∀ g, g ∈ outcome.2 ↔ p.formula.Needs g) ∧
    ((Pass.start s).evaluate limit p).1 = .ok (s.value p.formula)
  /-- Else some turn fails there. -/
  stopped : ¬ p.Comparable limit → outcome.1 = .error .tooDeep ∧
    (∃ n q stack, n < cost p.formula ∧ Turns s limit n [p] ∅ (q :: stack) outcome.2 ∧
      s.turn limit q stack outcome.2 = .error .tooDeep) ∧
    (∀ g ∈ outcome.2, p.formula.Needs g) ∧
    ((Pass.start s).evaluate limit p).1 = .error .tooDeep
  values : ∀ (g : Formula) key v, outcome.2[g]? = some (key, v) → key.formula = g ∧ v = s.value g
  /-- All comparisons are possible within three calls for each level. -/
  shallow : Fits limit (3 * p.formula.height) → p.Comparable limit

theorem pass_evaluate_fst (s : Setting) (limit : Option Nat) (p : Placed) :
    ((Pass.start s).evaluate limit p).1 = ((s.run limit (cost p.formula) [p] ∅).1 >>= fun _ =>
      fetch limit (s.run limit (cost p.formula) [p] ∅).2 p) := rfl

theorem ends_run (s : Setting) (limit : Option Nat) {p : Placed} (hplace : p.place.isSome = true) :
    s.Ends limit p (s.run limit (cost p.formula) [p] ∅) := by
  have hstart := serves_start (s := s) limit p
  have heval := pass_evaluate_fst s limit p
  have hsound : s.Sound (s.run limit (cost p.formula) [p] ∅).2 := Sound.empty.run
  cases works s limit p [] ∅ with
  | @done n cache few turns kept more =>
    have hserves := hstart.turns hplace turns
    have hrun : s.run limit (cost p.formula) [p] ∅ = (.ok (), cache) := by
      rw [← Nat.add_sub_cancel' few]
      exact (turns.run_eq _).trans (by rw [run])
    rw [hrun] at heval hsound ⊢
    obtain ⟨v, hv⟩ := fetch_eq_ok (hserves.found p p.mem_uses_self)
    rw [hv, hsound.fetch_eq hv] at heval
    exact ⟨fun _ => ⟨rfl, ⟨n, few, turns⟩, fun g => hserves.mem_iff, heval⟩,
      fun hdeep => absurd hserves.comparable hdeep, fun g key v => hsound g (key, v),
      Placed.comparable_of_height⟩
  | @stopped n q stack cache few turns stop =>
    have hserves := hstart.turns hplace turns
    have hrun : s.run limit (cost p.formula) [p] ∅ = (.error .tooDeep, cache) := by
      obtain ⟨fuel, hfuel⟩ := Nat.exists_eq_add_of_lt few
      rw [hfuel, Nat.add_assoc]
      exact (turns.run_eq _).trans (by rw [run, stop])
    rw [hrun] at heval hsound ⊢
    exact ⟨fun hcomp => absurd stop (hserves.turn_ne_error hcomp),
      fun _ => ⟨rfl, ⟨n, q, stack, few, turns, stop⟩, fun g => hserves.needs, heval⟩,
      fun g key v => hsound g (key, v), Placed.comparable_of_height⟩

end Turns

end Setting

theorem Evaluator.evaluate_fst (ev : Evaluator) (m : Model) (arg : Argument) (limit : Option Nat) :
    (ev.evaluate m arg limit).1 =
      match arg.toFormula limit with
      | .error e => .error (.formula e)
      | .ok f =>
        match m.refresh.setting? ev.rules with
        | none => .error .notConfluent
        | some s =>
          if (arg.placed f).Comparable limit then .ok (s.value f).toList
          else .error (.work .tooDeep) := by
  unfold evaluate
  cases arg.toFormula limit with
  | error e => rfl
  | ok f =>
    have hplace : (arg.placed f).place.isSome = true := by
      rw [Argument.placed, Formula.place_placed]
      rfl
    simp only [prepare]
    cases m.refresh.setting? ev.rules with
    | none => rfl
    | some s =>
      have hends := s.ends_run limit hplace
      simp only [lookUp]
      split
      · next hcomp =>
        have hvalue := (hends.finished hcomp).2.2.2
        rw [hvalue, Argument.placed, Formula.formula_placed]
        rfl
      · next hdeep =>
        have hstop := (hends.stopped hdeep).2.2.2
        rw [hstop]
        rfl

end KripkeLogic
