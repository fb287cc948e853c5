import KripkeLogic.Proofs.Formula.Grammar
import KripkeLogic.Proofs.Formula.Tokens

/-! # The parser and the grammar -/

namespace KripkeLogic.Parser

open Grammar Outcome

/-- No operator on top of the stack is to be applied before one of power `p` comes. -/
def Bound (p : Nat) : Stack → Prop
  | .prefixed _ :: _ => False
  | .pending _ op :: _ => op.power ≤ p
  | _ => True

theorem Bound.mono {p q : Nat} {s : Stack} (h : Bound p s) (hpq : p ≤ q) : Bound q s := by
  unfold Bound at h ⊢
  split
  · exact h
  · exact Nat.le_trans h hpq
  · trivial

theorem settle_of_bound {p : Nat} {f : Formula} {s : Stack} (h : Bound p s) :
    settle p f s = (f, s) := by
  unfold settle
  split
  · rename_i left op s
    rw [if_neg]
    exact Nat.not_lt.2 h
  · rfl

theorem complete_of_bound {p : Nat} {f : Formula} {s : Stack} (h : Bound p s) :
    complete f s = .holding f s := by
  unfold complete
  split
  · exact h.elim
  · rfl

/-! ## Single tokens -/

section Steps

variable {limit : Option Nat} {token : Token} {s s' : Stack} {f g : Formula}

theorem step_name {n : Name} (h : token.symbol = .name n) :
    step limit token (.wanting s) = .ok (.inl (complete (.prop n) s)) := by
  simp only [step, h]

theorem step_unary {op : UnaryOp} (h : token.symbol = .op (.unary op)) :
    step limit token (.wanting s) = .ok (.inl (.wanting (.prefixed op :: s))) := by
  simp only [step, h]

theorem step_opening (h : token.symbol = .opening) :
    step limit token (.wanting s) = (push limit .opened s).map .inl := by
  simp only [step, h]

theorem step_binary {op : BinaryOp} (h : token.symbol = .op (.binary op))
    (hs : settle op.power f s = (g, s')) :
    step limit token (.holding f s) = (push limit (.pending g op) s').map .inl := by
  simp only [step, h, hs]

theorem step_closing (h : token.symbol = .closing) (hs : settle 0 f s = (g, .opened :: s')) :
    step limit token (.holding f s) = .ok (.inl (complete g s')) := by
  simp only [step, h, hs]

theorem step_finish (h : token.symbol = .finish) (hs : settle 0 f s = (g, [])) :
    step limit token (.holding f s) = .ok (.inr g) := by
  simp only [step, h, hs]

theorem run_cons {st st' : State} (h : step limit token st = .ok (.inl st')) (rest : List Token) :
    run limit st (token :: rest) = run limit st' rest := by
  rw [run, h]

theorem run_cons_finish {st : State} (h : step limit token st = .ok (.inr f)) (rest : List Token) :
    run limit st (token :: rest) = .ok f := by
  rw [run, h]

theorem run_cons_error {st : State} {e : ParseError} (h : step limit token st = .error e)
    (rest : List Token) : run limit st (token :: rest) = .error e := by
  rw [run, h]

end Steps

/-! ## Derivations are read -/

def Ready : Level → Stack → Prop
  | .operand, _ => True
  | .chain op, s => Bound op.power s

def Settles (f : Formula) (s : Stack) : Level → State → Prop
  | .operand, st => st = complete f s
  | .chain op, st => ∃ f' s', st = .holding f' s' ∧ ∀ p, p < op.power → settle p f' s' = settle p f s

theorem Ready.tighter {op : BinaryOp} {s : Stack} (h : Bound op.power s) : Ready (tighter op) s := by
  have hle : op.power ≤ (Grammar.tighter op).power := by rw [power_tighter]; omega
  have hb := h.mono hle
  cases op
  · trivial
  · exact hb
  · exact hb
  · exact hb

theorem Settles.holding {op : BinaryOp} {f : Formula} {s : Stack} {st : State}
    (h : Settles f s (tighter op) st) (hs : Bound op.power s) :
    ∃ f' s', st = .holding f' s' ∧ ∀ p, p ≤ op.power → settle p f' s' = settle p f s := by
  have hchain : ∀ op', tighter op = .chain op' → ∃ f' s', st = .holding f' s' ∧
      ∀ p, p ≤ op.power → settle p f' s' = settle p f s := by
    intro op' hop
    have hpower := power_tighter op
    rw [hop] at h hpower
    obtain ⟨f', s', hst, hsettle⟩ := h
    refine ⟨f', s', hst, fun p hp => hsettle p ?_⟩
    simp only [Level.power] at hpower
    omega
  cases op
  · refine ⟨f, s, ?_, fun p hp => rfl⟩
    rw [← complete_of_bound hs]
    exact h
  · exact hchain _ rfl
  · exact hchain _ rfl
  · exact hchain _ rfl

section Limit

variable {limit : Option Nat} {frame : Frame} {s : Stack} {token : Token} {st st' st'' : State}
  {ts ts' : List Token} {d e : Nat}

theorem push_of_fits (h : Fits limit (Stack.depth (frame :: s))) :
    push limit frame s = .ok (.wanting (frame :: s)) := if_pos h

theorem push_of_not_fits (h : ¬ Fits limit (Stack.depth (frame :: s))) :
    push limit frame s = .error .tooDeep := if_neg h

/-- The tokens lead from one state to the other, or nest too deeply if the depth is not within the
limit. -/
def Leads (limit : Option Nat) (st : State) (ts : List Token) (depth : Nat) (st' : State) : Prop :=
  ∀ rest, (Fits limit depth → run limit st (ts ++ rest) = run limit st' rest) ∧
    (¬ Fits limit depth → run limit st (ts ++ rest) = .error .tooDeep)

theorem Leads.of_step (h : step limit token st = .ok (.inl st')) (hd : Fits limit d) :
    Leads limit st [token] d st' :=
  fun rest => ⟨fun _ => run_cons h rest, fun hdeep => absurd hd hdeep⟩

theorem Leads.of_push (h : step limit token st = (push limit frame s).map .inl) :
    Leads limit st [token] (Stack.depth (frame :: s)) (.wanting (frame :: s)) := by
  refine fun rest => ⟨fun hfits => run_cons ?_ rest, fun hdeep => run_cons_error ?_ rest⟩
  · rw [h, push_of_fits hfits]
    rfl
  · rw [h, push_of_not_fits hdeep]
    rfl

theorem Leads.trans (h : Leads limit st ts d st') (h' : Fits limit d → Leads limit st' ts' e st'') :
    Leads limit st (ts ++ ts') (max d e) st'' := by
  intro rest
  rw [fits_max_iff, List.append_assoc]
  by_cases hd : Fits limit d
  · rw [(h _).1 hd]
    exact ⟨fun he => (h' hd rest).1 he.2, fun hdeep => (h' hd rest).2 fun he => hdeep ⟨hd, he⟩⟩
  · rw [(h _).2 hd]
    exact ⟨fun he => absurd he.1 hd, fun _ => rfl⟩

end Limit

/-- The tokens of a derivation, read where it may start, leave a state that settles like its
formula, unless they nest too deeply. -/
theorem run_yield {level : Level} (t : Tree level) (limit : Option Nat) {s : Stack}
    (hs : Ready level s) {ts : List Token} (hts : ts.map Token.symbol = t.yield) :
    ∃ st, Settles t.formula s level st ∧
      (Fits limit (Stack.depth s) → Leads limit (.wanting s) ts (Stack.depth s + t.nesting) st) := by
  induction t generalizing s ts with
  | name n =>
    obtain ⟨token, _, rfl, hname, hnil⟩ := List.map_eq_cons_iff.1 hts
    obtain rfl := List.map_eq_nil_iff.1 hnil
    exact ⟨_, rfl, Leads.of_step (step_name hname)⟩
  | prefixed op t ih =>
    obtain ⟨token, tail, rfl, hop, htail⟩ := List.map_eq_cons_iff.1 hts
    obtain ⟨st, hst, hrun⟩ := ih (s := .prefixed op :: s) trivial htail
    have hdepth : Stack.depth (.prefixed op :: s) = Stack.depth s := Nat.zero_add _
    rw [hdepth] at hrun
    refine ⟨st, hst, fun hfits => ?_⟩
    have hlead := (Leads.of_step (step_unary hop) hfits).trans fun _ => hrun hfits
    rwa [Nat.max_eq_right (Nat.le_add_right _ _)] at hlead
  | paren t ih =>
    obtain ⟨opening, tail, rfl, hopening, htail⟩ := List.map_eq_cons_iff.1 hts
    obtain ⟨inner, last, rfl, hinner, hlast⟩ := List.map_eq_append_iff.1 htail
    obtain ⟨closing, _, rfl, hclosing, hnil⟩ := List.map_eq_cons_iff.1 hlast
    obtain rfl := List.map_eq_nil_iff.1 hnil
    obtain ⟨st, ⟨f', s', rfl, hsettle⟩, hrun⟩ := ih (s := .opened :: s) trivial hinner
    have hclosed : settle 0 f' s' = (t.formula, .opened :: s) := hsettle 0 (by decide)
    have hdepth : Stack.depth (.opened :: s) = 3 + Stack.depth s := rfl
    rw [hdepth] at hrun
    refine ⟨_, rfl, fun _ => ?_⟩
    have hopened : Leads limit (.wanting s) [opening] (Stack.depth (.opened :: s))
        (.wanting (.opened :: s)) := Leads.of_push (step_opening hopening)
    have hlead := hopened.trans fun hfits =>
      (hrun hfits).trans fun hfits => Leads.of_step (step_closing hclosing hclosed) hfits
    have hmax : max (3 + Stack.depth s) (max (3 + Stack.depth s + t.nesting)
        (3 + Stack.depth s + t.nesting)) = Stack.depth s + (Tree.paren t).nesting := by
      rw [Tree.nesting]
      omega
    rwa [hdepth, hmax] at hlead
  | @single op t ih =>
    obtain ⟨st, hst, hrun⟩ := ih (Ready.tighter hs) hts
    obtain ⟨f', s', rfl, hsettle⟩ := hst.holding hs
    exact ⟨_, ⟨f', s', rfl, fun p hp => hsettle p (Nat.le_of_lt hp)⟩, hrun⟩
  | @binary op left right ihl ihr =>
    obtain ⟨before, tail, rfl, hbefore, htail⟩ := List.map_eq_append_iff.1 hts
    obtain ⟨token, later, rfl, hop, hlater⟩ := List.map_eq_cons_iff.1 htail
    obtain ⟨st, hst, hrunl⟩ := ihl (Ready.tighter hs) hbefore
    obtain ⟨f', s', rfl, hsettle⟩ := hst.holding hs
    have hleft : settle op.power f' s' = (left.formula, s) := by
      rw [hsettle op.power (Nat.le_refl _), settle_of_bound hs]
    have hpushed : Leads limit (.holding f' s') [token]
        (Stack.depth (.pending left.formula op :: s)) (.wanting (.pending left.formula op :: s)) :=
      Leads.of_push (step_binary hop hleft)
    -- The right operand is read with the operator on the stack, and settles into it.
    obtain ⟨st, ⟨f', s', rfl, hsettle⟩, hrunr⟩ :=
      ihr (s := .pending left.formula op :: s) (Nat.le_refl _) hlater
    have hdepth : Stack.depth (.pending left.formula op :: s) = 1 + Stack.depth s := rfl
    rw [hdepth] at hrunr
    refine ⟨_, ⟨f', s', rfl, fun p hp => ?_⟩, fun hfits => ?_⟩
    · rw [hsettle p hp, settle, if_pos hp]
      rfl
    · have hlead := (hrunl hfits).trans fun _ => hpushed.trans hrunr
      have hmax : max (Stack.depth s + left.nesting) (max (1 + Stack.depth s)
          (1 + Stack.depth s + right.nesting)) =
          Stack.depth s + (Tree.binary left right).nesting := by
        rw [Tree.nesting]
        omega
      rwa [hdepth, hmax] at hlead

theorem run_of_tree (t : Tree (.chain .equi)) (limit : Option Nat) {ts : List Token}
    (hts : ts.map Token.symbol = t.yield ++ [.finish]) :
    (Fits limit t.nesting → run limit (.wanting []) ts = .ok t.formula) ∧
      (¬ Fits limit t.nesting → run limit (.wanting []) ts = .error .tooDeep) := by
  obtain ⟨body, last, rfl, hbody, hlast⟩ := List.map_eq_append_iff.1 hts
  obtain ⟨token, tail, rfl, hfinish, -⟩ := List.map_eq_cons_iff.1 hlast
  obtain ⟨st, ⟨f', s', rfl, hsettle⟩, hrun⟩ := run_yield t limit (s := []) trivial hbody
  have hwhole : settle 0 f' s' = (t.formula, []) := hsettle 0 (by decide)
  have hlead := hrun (fits_zero limit) (token :: tail)
  have hdepth : Stack.depth [] + t.nesting = t.nesting := Nat.zero_add _
  rw [hdepth] at hlead
  rwa [run_cons_finish (step_finish hfinish hwhole)] at hlead

/-! ## What is read is a derivation -/

/-- The symbols that lead to a stack. Left operands are derivations, and no operator on the stack
binds looser than the one below it. -/
inductive Waits : Stack → List Symbol → Prop
  | nil : Waits [] []
  | prefixed {s : Stack} {read : List Symbol} (op : UnaryOp) (h : Waits s read) :
      Waits (.prefixed op :: s) (read ++ [.op (.unary op)])
  | opened {s : Stack} {read : List Symbol} (h : Waits s read) :
      Waits (.opened :: s) (read ++ [.opening])
  | pending {s : Stack} {read : List Symbol} {op : BinaryOp} (left : Tree (tighter op))
      (h : Waits s read) (bound : Bound op.power s) :
      Waits (.pending left.formula op :: s) (read ++ left.yield ++ [.op (.binary op)])

/-- The last symbols that were read derive the formula, the others lead to the stack. -/
def Leaves (level : Level) (p : Nat) (read : List Symbol) (held : Formula × Stack) : Prop :=
  ∃ before, ∃ t : Tree level, Waits held.2 before ∧ Bound p held.2 ∧ t.formula = held.1 ∧
    before ++ t.yield = read

/-- The symbols that lead to a state. What is held is always an operand. -/
def Reads : State → List Symbol → Prop
  | .wanting s, read => Waits s read
  | .holding f s, read => Leaves .operand Level.operand.power read (f, s)

theorem reads_complete {s : Stack} {read : List Symbol} (h : Waits s read) (t : Tree .operand) :
    Reads (complete t.formula s) (read ++ t.yield) := by
  induction h generalizing t with
  | nil => exact ⟨[], t, .nil, trivial, rfl, rfl⟩
  | prefixed op h ih =>
    have h' := ih (.prefixed op t)
    rw [Tree.yield, List.append_cons] at h'
    exact h'
  | opened h => exact ⟨_, t, .opened h, trivial, rfl, rfl⟩
  | pending left h bound => exact ⟨_, t, .pending left h bound, power_le_operand (.chain _), rfl, rfl⟩

theorem leaves_of_bound {a b : Level} {p : Nat} (hba : b.power ≤ a.power) {s : Stack}
    {read : List Symbol} (h : Waits s read) (t : Tree a) (hs : Bound p s) :
    Leaves b p (read ++ t.yield) (settle p t.formula s) := by
  obtain ⟨t', hyield, hformula, -⟩ := Tree.exists_loose hba t
  rw [settle_of_bound hs]
  exact ⟨read, t', h, hs, hformula, by rw [hyield]⟩

theorem leaves_settle {a b : Level} {p : Nat} (hb : b.power = p + 1) {s : Stack}
    {read : List Symbol} (h : Waits s read) (t : Tree a) (hp : p < a.power)
    (hs : Bound a.power s) : Leaves b p (read ++ t.yield) (settle p t.formula s) := by
  induction h generalizing a with
  | nil => exact leaves_of_bound (by omega) .nil t trivial
  | prefixed op h => exact hs.elim
  | opened h => exact leaves_of_bound (by omega) (.opened h) t trivial
  | @pending s read op left h bound ih =>
    by_cases hop : p < op.power
    · -- The operator on the stack binds tighter, so it takes what is held as its right operand.
      obtain ⟨right, hyield, hformula, -⟩ := Tree.exists_loose (b := .chain op) hs t
      have hsettle : settle p t.formula (.pending left.formula op :: s) =
          settle p (Tree.binary left right).formula s := by
        rw [settle, if_pos hop, ← hformula]
        rfl
      have hread : read ++ left.yield ++ [.op (.binary op)] ++ t.yield =
          read ++ (Tree.binary left right).yield := by
        rw [Tree.yield, hyield]
        simp
      rw [hsettle, hread]
      exact ih (.binary left right) hop bound
    · exact leaves_of_bound (by omega) (.pending left h bound) t (Nat.not_lt.1 hop)

theorem push_eq_ok {limit : Option Nat} {frame : Frame} {s : Stack} {st : State}
    (h : push limit frame s = .ok st) : st = .wanting (frame :: s) := by
  unfold push at h
  split at h
  · cases h
    rfl
  · cases h

theorem step_sound {limit : Option Nat} {token : Token} {st st' : State} {read : List Symbol}
    (h : step limit token st = .ok (.inl st')) (hr : Reads st read) :
    Reads st' (read ++ [token.symbol]) := by
  unfold step at h
  split at h
  · rename_i s
    split at h
    · rename_i op hop
      cases h
      rw [hop]
      exact .prefixed op hr
    · rename_i hopening
      obtain ⟨_, hpush, h⟩ := map_eq_ok_iff.1 h
      cases h
      rw [push_eq_ok hpush, hopening]
      exact .opened hr
    · rename_i n hname
      cases h
      rw [hname]
      exact reads_complete hr (.name n)
    · cases h
  · rename_i f s
    obtain ⟨before, t, hwaits, hbound, rfl, rfl⟩ := hr
    split at h
    · rename_i op hop
      obtain ⟨_, hpush, h⟩ := map_eq_ok_iff.1 h
      cases h
      obtain ⟨read, left, hleft, hbound, hf, hread⟩ :=
        leaves_settle (power_tighter op) hwaits t (power_lt_operand op) hbound
      rw [push_eq_ok hpush, hop, ← hread, ← hf]
      exact .pending left hleft hbound
    · rename_i hclosing
      split at h
      · rename_i inner s' hsettle
        cases h
        obtain ⟨read, t', hopened, -, hf, hread⟩ :=
          leaves_settle (b := .chain .equi) (p := 0) rfl hwaits t (by decide) hbound
        rw [hsettle] at hopened hf
        obtain rfl : t'.formula = inner := hf
        rw [hclosing, ← hread]
        cases hopened with
        | @opened _ read h =>
          have hcomplete := reads_complete h (.paren t')
          rw [Tree.yield, Tree.formula] at hcomplete
          simpa using hcomplete
      · cases h
    · split at h <;> cases h
    · cases h

theorem step_sound_finish {limit : Option Nat} {token : Token} {st : State} {f : Formula}
    {read : List Symbol} (h : step limit token st = .ok (.inr f)) (hr : Reads st read) :
    token.symbol = .finish ∧ ∃ t : Tree (.chain .equi), t.yield = read ∧ t.formula = f := by
  unfold step at h
  split at h
  · split at h
    · cases h
    · obtain ⟨_, -, h⟩ := map_eq_ok_iff.1 h
      cases h
    · cases h
    · cases h
  · rename_i g s
    obtain ⟨before, t, hwaits, hbound, rfl, rfl⟩ := hr
    split at h
    · obtain ⟨_, -, h⟩ := map_eq_ok_iff.1 h
      cases h
    · split at h <;> cases h
    · rename_i hfinish
      split at h
      · rename_i whole hsettle
        cases h
        obtain ⟨read, t', hnil, -, hf, hread⟩ :=
          leaves_settle (b := .chain .equi) (p := 0) rfl hwaits t (by decide) hbound
        rw [hsettle] at hnil hf
        cases hnil
        exact ⟨hfinish, t', hread, hf⟩
      · cases h
    · cases h

theorem run_sound {limit : Option Nat} {last : Token} {body : List Token}
    (hbody : ∀ token ∈ body, token.symbol ≠ .finish) {st : State} {read : List Symbol}
    (hr : Reads st read) {f : Formula} (h : run limit st (body ++ [last]) = .ok f) :
    ∃ t : Tree (.chain .equi), t.yield = read ++ body.map Token.symbol ∧ t.formula = f := by
  induction body generalizing st read with
  | nil =>
    rw [List.nil_append, run] at h
    split at h
    · cases h
    · rename_i hstep
      cases h
      rw [List.map_nil, List.append_nil]
      exact (step_sound_finish hstep hr).2
    · cases h
  | cons token body ih =>
    obtain ⟨htoken, hbody⟩ := List.forall_mem_cons.1 hbody
    rw [List.cons_append, run] at h
    split at h
    · rename_i st' hstep
      obtain ⟨t, hyield, hf⟩ := ih hbody (step_sound hstep hr) h
      refine ⟨t, ?_, hf⟩
      rw [hyield, List.map_cons, List.append_assoc]
      rfl
    · rename_i hstep
      exact absurd (step_sound_finish hstep hr).1 htoken
    · cases h

/-! ## Refusals -/

theorem push_limited (limit : Option Nat) (frame : Frame) (s : Stack) :
    push limit frame s = .error .tooDeep ∨ push limit frame s = push none frame s := by
  by_cases h : Fits limit (Stack.depth (frame :: s))
  · exact Or.inr (if_pos h)
  · exact Or.inl (if_neg h)

/-- A limit only makes a difference where it is hit. -/
theorem step_limited (limit : Option Nat) (token : Token) (st : State) :
    step limit token st = .error .tooDeep ∨ step limit token st = step none token st := by
  cases st with
  | wanting s =>
    simp only [step]
    split
    · exact Or.inr rfl
    · rcases push_limited limit .opened s with h | h
      · left
        rw [h]
        rfl
      · right
        rw [h]
    · exact Or.inr rfl
    · exact Or.inr rfl
  | holding f s =>
    simp only [step]
    split
    · rename_i op hop
      rcases push_limited limit (.pending (settle op.power f s).1 op) (settle op.power f s).2 with h | h
      · left
        rw [h]
        rfl
      · right
        rw [h]
    · exact Or.inr rfl
    · exact Or.inr rfl
    · exact Or.inr rfl

theorem run_limited (limit : Option Nat) (st : State) (ts : List Token) :
    run limit st ts = .error .tooDeep ∨ run limit st ts = run none st ts := by
  induction ts generalizing st with
  | nil => exact Or.inr rfl
  | cons token ts ih =>
    rcases step_limited limit token st with h | h
    · left
      rw [run, h]
    · rw [run, run, h]
      split
      · exact ih _
      · exact Or.inr rfl
      · exact Or.inr rfl

theorem push_eq_error {limit : Option Nat} {frame : Frame} {s : Stack} {e : ParseError}
    (h : push limit frame s = .error e) : e = .tooDeep := by
  unfold push at h
  split at h
  · cases h
  · cases h
    rfl

def State.awaited : State → Expected
  | wanting _ => .operand
  | holding _ s => if .opened ∈ s then .closing else .finish

theorem step_eq_error {limit : Option Nat} {token : Token} {st : State} {e : ParseError}
    (h : step limit token st = .error e) : e = .tooDeep ∨ e = .expected st.awaited token := by
  unfold step at h
  split at h
  · split at h
    · cases h
    · left
      exact push_eq_error (map_eq_error_iff.1 h)
    · cases h
    · cases h
      exact Or.inr rfl
  · split at h
    · left
      exact push_eq_error (map_eq_error_iff.1 h)
    · split at h <;> cases h
      exact Or.inr rfl
    · split at h <;> cases h
      exact Or.inr rfl
    · cases h
      exact Or.inr rfl

theorem step_finish_ne {limit : Option Nat} {token : Token} (hlast : token.symbol = .finish)
    (st st' : State) : step limit token st ≠ .ok (.inl st') := by
  intro h
  cases st with
  | wanting s =>
    simp only [step, hlast] at h
    cases h
  | holding f s =>
    simp only [step, hlast] at h
    split at h <;> cases h

theorem run_eq_error {limit : Option Nat} {last : Token} (hlast : last.symbol = .finish)
    {body : List Token} {st : State} {e : ParseError} (h : run limit st (body ++ [last]) = .error e) :
    e = .tooDeep ∨ e.position?.isSome = true := by
  induction body generalizing st with
  | nil =>
    rw [List.nil_append, run] at h
    split at h
    · rename_i hstep
      exact absurd hstep (step_finish_ne hlast _ _)
    · cases h
    · rename_i hstep
      cases h
      exact (step_eq_error hstep).imp_right fun he => by rw [he]; rfl
  | cons token body ih =>
    rw [List.cons_append, run] at h
    split at h
    · exact ih h
    · cases h
    · rename_i hstep
      cases h
      exact (step_eq_error hstep).imp_right fun he => by rw [he]; rfl

end KripkeLogic.Parser

/-! ## Texts -/

namespace KripkeLogic.Formula

open Grammar Outcome

/-- The text is that of a derivation, apart from blanks and the end. -/
def Derives (text : List Char) (t : Tree (.chain .equi)) : Prop :=
  ∃ ts, Token.scan text = .ok ts ∧ ts.map Token.symbol = t.yield ++ [.finish]

variable {limit : Option Nat} {text : List Char} {t : Tree (.chain .equi)} {f : Formula}
  {e : ParseError}

theorem parseWith_of_derives (h : Derives text t) (limit : Option Nat) :
    parseWith limit text = if Fits limit t.nesting then .ok t.formula else .error .tooDeep := by
  obtain ⟨ts, hts, hsymbols⟩ := h
  obtain ⟨hread, hdeep⟩ := Parser.run_of_tree t limit hsymbols
  rw [parseWith, hts, ok_bind]
  split
  · exact hread ‹_›
  · exact hdeep ‹_›

theorem parse_of_derives (hdeep : parseWith limit text ≠ .error .tooDeep) (h : Derives text t) :
    parseWith limit text = .ok t.formula := by
  have hparse := parseWith_of_derives h limit
  split at hparse
  · exact hparse
  · exact absurd hparse hdeep

theorem derives_of_parse (h : parseWith limit text = .ok f) :
    ∃ t, Derives text t ∧ t.formula = f := by
  obtain ⟨ts, hts, hrun⟩ := bind_eq_ok_iff.1 h
  obtain ⟨body, last, rfl, hlast, hbody⟩ := Token.finished_scan hts
  have hstart : Parser.Reads (.wanting []) [] := Parser.Waits.nil
  obtain ⟨t, hyield, hf⟩ := Parser.run_sound hbody hstart hrun
  refine ⟨t, ⟨_, hts, ?_⟩, hf⟩
  rw [hyield, List.map_append, List.nil_append, List.map_singleton, hlast]

theorem parse_eq_error (h : parseWith limit text = .error e) :
    e = .tooDeep ∨ e.position?.isSome = true := by
  unfold parseWith at h
  cases hts : Token.scan text with
  | error e' =>
    rw [hts] at h
    cases h
    exact Or.inr (Token.scan_eq_error hts)
  | ok ts =>
    rw [hts] at h
    obtain ⟨body, last, rfl, hlast, -⟩ := Token.finished_scan hts
    exact Parser.run_eq_error hlast h

/-- **Parsing accepts exactly the grammar and builds its one derivation**, whatever the limit on
nesting. What is not derived is refused at a position. -/
theorem parse_iff_derives (limit : Option Nat) {text : List Char}
    (hdeep : parseWith limit text ≠ .error .tooDeep) :
    (∀ f, parseWith limit text = .ok f ↔ ∃ t, Derives text t ∧ t.formula = f) ∧
      (∀ t t', Derives text t → Derives text t' → t = t') ∧
      ((∀ t, ¬ Derives text t) →
        ∃ e, parseWith limit text = .error e ∧ e.position?.isSome = true) := by
  refine ⟨fun f => ⟨derives_of_parse, ?_⟩, ?_, fun hnone => ?_⟩
  · rintro ⟨t, ht, rfl⟩
    exact parse_of_derives hdeep ht
  · rintro t t' ⟨ts, hts, h⟩ ⟨ts', hts', h'⟩
    rw [hts] at hts'
    cases hts'
    rw [h] at h'
    exact Tree.yield_injective (List.append_cancel_right h')
  · cases h : parseWith limit text with
    | ok f =>
      obtain ⟨t, ht, -⟩ := derives_of_parse h
      exact absurd ht (hnone t)
    | error e =>
      rw [h] at hdeep
      refine ⟨e, rfl, (parse_eq_error h).resolve_left ?_⟩
      rintro rfl
      exact hdeep rfl

theorem derives_grouped_right :
    parse ['p', '-', '>', 'q', '-', '>', 'p'] ≠ .error .tooDeep ∧
      ∃ t, Derives ['p', '-', '>', 'q', '-', '>', 'p'] t ∧
        t.formula = .impl (.prop (.ofChar 'p' rfl)) (.impl (.prop (.ofChar 'q' rfl))
          (.prop (.ofChar 'p' rfl))) ∧
        ∀ t', Derives ['p', '-', '>', 'q', '-', '>', 'p'] t' → t = t' := by
  have hdeep : parse ['p', '-', '>', 'q', '-', '>', 'p'] ≠ .error .tooDeep := by
    intro h
    cases h
  obtain ⟨hparse, hunique, -⟩ := parse_iff_derives (some Parser.depthLimit) hdeep
  obtain ⟨t, ht, hf⟩ := (hparse _).1 rfl
  exact ⟨hdeep, t, ht, hf, fun t' => hunique t t' ht⟩

end KripkeLogic.Formula
