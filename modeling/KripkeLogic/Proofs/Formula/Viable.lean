import KripkeLogic.Proofs.Formula.Lexemes

/-!
# Where a text stops being a formula

Whatever the parser has read without an error is the beginning of a formula.
-/

namespace KripkeLogic

open Grammar Outcome

/-! ## Derivations as texts -/

namespace Grammar.Tree

theorem exists_spelled {level : Level} (t : Tree level) : ∃ text, Spelled text t.yield := by
  induction t with
  | name n => exact ⟨_, .name n⟩
  | prefixed op t ih =>
    obtain ⟨inner, hinner⟩ := ih
    exact ⟨_, hinner.op (.unary op)⟩
  | paren t ih =>
    obtain ⟨inner, hinner⟩ := ih
    exact ⟨_, hinner.enclose .nil⟩
  | single t ih => exact ih
  | @binary op left right ihl ihr =>
    obtain ⟨before, hbefore⟩ := ihl
    obtain ⟨after, hafter⟩ := ihr
    exact ⟨_, hbefore.append (hafter.op (.binary op)) fun _ => trivial⟩

theorem exists_derives (t : Tree (.chain .equi)) : ∃ text, Formula.Derives text t := by
  obtain ⟨text, htext⟩ := t.exists_spelled
  exact ⟨text, Formula.derives_iff_spelled.2 htext⟩

end Grammar.Tree

/-! ## Beginnings of formulas -/

/-- The tokens of a formula, with the finishing one, begin with the symbols. -/
def Viable (read : List Symbol) : Prop :=
  ∃ text t, Formula.Derives text t ∧ read <+: t.yield ++ [.finish]

theorem Viable.start {read more : List Symbol} (h : Viable more) (hstart : read <+: more) :
    Viable read := by
  obtain ⟨text, t, htext, hmore⟩ := h
  exact ⟨text, t, htext, hstart.trans hmore⟩

def Expected.Meets : Expected → Symbol → Prop
  | operand, s => (∃ n, s = .name n) ∨ (∃ op, s = .op (.unary op)) ∨ s = .opening
  | closing, s => s = .closing
  | finish, s => s = .finish

theorem Expected.exists_meets (what : Expected) : ∃ s, what.Meets s := by
  cases what with
  | operand => exact ⟨.opening, Or.inr (Or.inr rfl)⟩
  | closing => exact ⟨.closing, rfl⟩
  | finish => exact ⟨.finish, rfl⟩

/-- A formula may start with the tokens before number `i`, but not with that one too. Each symbol
that is asked for can stand in its place. -/
structure StuckAt (ts : List Token) (i : Nat) (what : Expected) : Prop where
  viable : Viable ((ts.take i).map Token.symbol)
  stuck : ¬ Viable ((ts.take (i + 1)).map Token.symbol)
  asked : ∀ s, what.Meets s → Viable ((ts.take i).map Token.symbol ++ [s])

namespace Parser

variable {s : Stack} {st : State} {read : List Symbol}

theorem Waits.exists_whole (h : Waits s read) {level : Level} (t : Tree level)
    (ht : level = .operand ∨ Bound level.power s) : ∃ whole : Tree (.chain .equi),
      whole.yield = read ++ t.yield ++ List.replicate (s.count .opened) .closing := by
  induction h generalizing level with
  | nil =>
    obtain ⟨whole, hyield, -⟩ := Tree.exists_loose (power_equi_le level) t
    exact ⟨whole, by simp [hyield]⟩
  | prefixed op _ ih =>
    -- Nothing but an operand can stand behind a prefix.
    obtain rfl := ht.resolve_right id
    obtain ⟨whole, hwhole⟩ := ih (.prefixed op t) (Or.inl rfl)
    exact ⟨whole, by simpa [Tree.yield] using hwhole⟩
  | opened _ ih =>
    obtain ⟨inner, hinner, -⟩ := Tree.exists_loose (power_equi_le level) t
    obtain ⟨whole, hwhole⟩ := ih (.paren inner) (Or.inl rfl)
    exact ⟨whole, by simpa [Tree.yield, hinner, List.replicate_succ] using hwhole⟩
  | @pending _ _ op left _ bound ih =>
    have hpower : (Level.chain op).power ≤ level.power := by
      rcases ht with rfl | ht
      · exact power_le_operand _
      · exact ht
    obtain ⟨right, hright, -⟩ := Tree.exists_loose hpower t
    obtain ⟨whole, hwhole⟩ := ih (.binary left right) (Or.inr bound)
    exact ⟨whole, by simpa [Tree.yield, hright] using hwhole⟩

theorem Waits.viable_append (h : Waits s read) (t : Tree .operand) :
    Viable (read ++ t.yield ++ List.replicate (s.count .opened) .closing ++ [.finish]) := by
  obtain ⟨whole, hyield⟩ := h.exists_whole t (Or.inl rfl)
  obtain ⟨text, htext⟩ := whole.exists_derives
  exact ⟨text, whole, htext, [], by rw [hyield, List.append_nil]⟩

theorem Waits.viable_name (h : Waits s read) (n : Name) : Viable (read ++ [.name n]) := by
  refine (h.viable_append (.name n)).start ?_
  exact ⟨List.replicate (s.count .opened) .closing ++ [.finish], by simp [Tree.yield]⟩

theorem Waits.viable (h : Waits s read) : Viable read :=
  (h.viable_name (.ofChar 'p' rfl)).start (List.prefix_append _ _)

theorem viable_of_meets (h : Reads st read) {next : Symbol} (hnext : st.awaited.Meets next) :
    Viable (read ++ [next]) := by
  cases st with
  | wanting s =>
    have hwaits : Waits s read := h
    rcases hnext with ⟨n, rfl⟩ | ⟨op, rfl⟩ | rfl
    · exact hwaits.viable_name n
    · exact (Waits.prefixed op hwaits).viable
    · exact (Waits.opened hwaits).viable
  | holding f s =>
    obtain ⟨before, t, hwaits, -, -, rfl⟩ := h
    have hviable := hwaits.viable_append t
    by_cases hopen : .opened ∈ s
    · have hawaited : (State.holding f s).awaited = .closing := if_pos hopen
      rw [hawaited] at hnext
      obtain rfl : next = .closing := hnext
      obtain ⟨n, hn⟩ := Nat.exists_eq_add_one.2 (List.count_pos_iff.2 hopen)
      rw [hn, List.replicate_succ] at hviable
      exact hviable.start ⟨List.replicate n .closing ++ [.finish], by simp⟩
    · have hawaited : (State.holding f s).awaited = .finish := if_neg hopen
      rw [hawaited] at hnext
      obtain rfl : next = .finish := hnext
      rw [List.count_eq_zero.2 hopen, List.replicate_zero, List.append_nil] at hviable
      exact hviable

theorem viable_of_reads (h : Reads st read) : Viable read := by
  obtain ⟨next, hnext⟩ := st.awaited.exists_meets
  exact (viable_of_meets h hnext).start (List.prefix_append _ _)

/-! ## Refusals -/

structure RefusedAt (st : State) (before : List Token) (token : Token) (refusing : State) :
    Prop where
  reached : ∀ rest, run none st (before ++ rest) = run none refusing rest
  refused : step none token refusing = .error (.expected refusing.awaited token)

theorem exists_refused {ts : List Token} {e : ParseError} {p : Nat} (hr : Reads st read)
    (h : run none st ts = .error e) (hp : e.position? = some p) :
    ∃ before token after refusing, ts = before ++ token :: after ∧
      e = .expected refusing.awaited token ∧ Reads refusing (read ++ before.map Token.symbol) ∧
      RefusedAt st before token refusing := by
  induction ts generalizing st read with
  | nil =>
    cases h
    cases hp
  | cons token ts ih =>
    rw [run] at h
    split at h
    · rename_i next hstep
      obtain ⟨before, refused, after, refusing, rfl, he, hreads, hreached, hrefused⟩ :=
        ih (step_sound hstep hr) h
      refine ⟨token :: before, refused, after, refusing, rfl, he, by simpa using hreads,
        fun rest => ?_, hrefused⟩
      rw [List.cons_append, run_cons hstep]
      exact hreached rest
    · cases h
    · rename_i hstep
      cases h
      have he := (step_eq_error hstep).resolve_left (by rintro rfl; cases hp)
      rw [he] at hstep
      exact ⟨[], token, ts, st, rfl, he, by simpa using hr, fun rest => rfl, hstep⟩

/-- No formula goes on with a token that is refused. -/
theorem RefusedAt.not_viable {before : List Token} {token : Token} {refusing : State}
    (h : RefusedAt (.wanting []) before token refusing) :
    ¬ Viable ((before ++ [token]).map Token.symbol) := by
  rintro ⟨text, t, -, later, hlater⟩
  have hsymbols : (before ++ token :: later.map fun s => ⟨s, 0⟩).map Token.symbol =
      t.yield ++ [.finish] := by
    rw [← hlater]
    simp [Function.comp_def]
  have hread := (run_of_tree t none hsymbols).1 (fits_none _)
  rw [h.reached, run_cons_error h.refused] at hread
  cases hread

end Parser

namespace Formula

theorem run_of_parse_error {limit : Option Nat} {text : List Char} {ts : List Token}
    {e : ParseError} {p : Nat} (hts : Token.scan text = .ok ts)
    (h : parseWith limit text = .error e) (hp : e.position? = some p) :
    Parser.run none (.wanting []) ts = .error e := by
  rw [parseWith, hts, ok_bind] at h
  rcases Parser.run_limited limit (.wanting []) ts with hdeep | hsame
  · rw [hdeep] at h
    cases h
    cases hp
  · rw [← hsame, h]

/-- **An error stands at the first token that no formula goes on with**, and what it asks for is
what some formula goes on with. -/
theorem refused_at_first (limit : Option Nat) {text : List Char} {ts : List Token}
    {e : ParseError} {p : Nat} (hts : Token.scan text = .ok ts)
    (h : parseWith limit text = .error e) (hp : e.position? = some p) :
    ∃ i what token, e = .expected what token ∧ token.position = p ∧ ts[i]? = some token ∧
      (∀ j other, ts[j]? = some other → other.position = p → j = i) ∧ StuckAt ts i what := by
  have hstart : Parser.Reads (.wanting []) [] := Parser.Waits.nil
  obtain ⟨before, token, after, refusing, rfl, rfl, hreads, hrefused⟩ :=
    Parser.exists_refused hstart (run_of_parse_error hts h hp) hp
  have hat : (before ++ token :: after)[before.length]? = some token := by simp
  have hbefore : (before ++ token :: after).take before.length = before := by simp
  have hupto : (before ++ token :: after).take (before.length + 1) = before ++ [token] := by
    simp [List.take_append, List.take_of_length_le]
  have hposition : token.position = p := Option.some.inj hp
  rw [List.nil_append] at hreads
  refine ⟨before.length, refusing.awaited, token, rfl, hposition, hat, fun j other hother hsame => ?_,
    ⟨?_, ?_, fun s hs => ?_⟩⟩
  · exact Token.eq_of_position_eq hts hother hat (hsame.trans hposition.symm)
  · rw [hbefore]
    exact Parser.viable_of_reads hreads
  · rw [hupto]
    exact hrefused.not_viable
  · rw [hbefore]
    exact Parser.viable_of_meets hreads hs

theorem refused_at_first_operand :
    Token.scan ['(', 'p', ' ', '&', ')'] =
        .ok [⟨.opening, 0⟩, ⟨.name (.ofChar 'p' rfl), 1⟩, ⟨.op (.binary .conj), 3⟩, ⟨.closing, 4⟩,
          ⟨.finish, 5⟩] ∧
      parse ['(', 'p', ' ', '&', ')'] = .error (.expected .operand ⟨.closing, 4⟩) ∧
      StuckAt [⟨.opening, 0⟩, ⟨.name (.ofChar 'p' rfl), 1⟩, ⟨.op (.binary .conj), 3⟩, ⟨.closing, 4⟩,
          ⟨.finish, 5⟩] 3 .operand := by
  have hscan : Token.scan ['(', 'p', ' ', '&', ')'] =
      .ok [⟨.opening, 0⟩, ⟨.name (.ofChar 'p' rfl), 1⟩, ⟨.op (.binary .conj), 3⟩, ⟨.closing, 4⟩,
        ⟨.finish, 5⟩] := rfl
  have hparse : parse ['(', 'p', ' ', '&', ')'] = .error (.expected .operand ⟨.closing, 4⟩) := rfl
  obtain ⟨i, what, token, herror, -, -, hunique, hstuck⟩ :=
    refused_at_first (some Parser.depthLimit) hscan hparse rfl
  obtain rfl : 3 = i := hunique 3 ⟨.closing, 4⟩ rfl rfl
  cases herror
  exact ⟨hscan, hparse, hstuck⟩

end Formula

end KripkeLogic
