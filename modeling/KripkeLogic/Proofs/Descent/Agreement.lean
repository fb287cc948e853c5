import KripkeLogic.Proofs.Descent.Bounds
import KripkeLogic.Proofs.Node.ObjectForm
import KripkeLogic.Proofs.Node.Validation

/-!
# The descent and the parser

The descent goes from token to token as the parser does, so that it gives the tree of the formula
that the parser reads, or the same error.
-/

namespace KripkeLogic

open Outcome

/-! ## The parser at the end of an operand -/

namespace Parser

variable {limit : Option Nat} {token : Token} {f g : Formula} {s : Stack} {op : BinaryOp}

theorem settle_pending {p : Nat} (h : p < op.power) :
    settle p g (.pending f op :: s) = settle p (.binary op f g) s := by
  rw [settle, if_pos h]

theorem settle_opened : settle 0 f (.opened :: s) = (f, .opened :: s) := settle_of_bound trivial

theorem refuse_pending : refuse token (.pending f op :: s) = refuse token s := by
  simp [refuse]

theorem step_pending (h : ∀ op', token.symbol = .op (.binary op') → op'.power < op.power) :
    step limit token (.holding g (.pending f op :: s)) =
      step limit token (.holding (.binary op f g) s) := by
  have hzero : 0 < op.power := by cases op <;> decide
  simp only [step]
  split
  · rename_i op' hop'
    rw [settle_pending (h op' hop')]
  · rw [settle_pending hzero, refuse_pending]
  · rw [settle_pending hzero, refuse_pending]
  · rw [refuse_pending]

theorem step_refused (hs : settle 0 f s = (f, s)) (hop : ∀ op, token.symbol ≠ .op (.binary op))
    (hclosing : s.head? = some .opened → token.symbol ≠ .closing)
    (hfinish : s = [] → token.symbol ≠ .finish) :
    step limit token (.holding f s) = .error (refuse token s) := by
  simp only [step, hs]
  split
  · rename_i op hbinary
    exact absurd hbinary (hop op)
  · rename_i hsymbol
    split
    · rename_i heq
      obtain ⟨-, rfl⟩ := Prod.mk.inj heq
      exact absurd hsymbol (hclosing rfl)
    · rfl
  · rename_i hsymbol
    split
    · rename_i heq
      obtain ⟨-, rfl⟩ := Prod.mk.inj heq
      exact absurd hsymbol (hfinish rfl)
    · rfl
  · rfl

theorem step_opened (hop : ∀ op, token.symbol ≠ .op (.binary op)) (hne : token.symbol ≠ .closing) :
    step limit token (.holding f (.opened :: s)) = .error (.expected .closing token) := by
  rw [step_refused settle_opened hop (fun _ => hne) (by simp), refuse, if_pos List.mem_cons_self]

theorem step_bare (hop : ∀ op, token.symbol ≠ .op (.binary op)) (hne : token.symbol ≠ .finish) :
    step limit token (.holding f []) = .error (.expected .finish token) := by
  rw [step_refused rfl hop (by simp) (fun _ => hne), refuse, if_neg List.not_mem_nil]

theorem step_misplaced (hname : ∀ n, token.symbol ≠ .name n) (hopening : token.symbol ≠ .opening)
    (hop : ∀ op, token.symbol ≠ .op (.unary op)) :
    step limit token (.wanting s) = .error (.expected .operand token) := by
  -- The last case of a step asks for just these three.
  simp only [step]

theorem depth_prefixes (ops : List UnaryOp) :
    Stack.depth (ops.map .prefixed ++ s) = Stack.depth s := by
  induction ops with
  | nil => rfl
  | cons op ops ih => rw [List.map_cons, List.cons_append, Stack.depth, ih, Frame.depth, Nat.zero_add]

theorem complete_prefixes (ops : List UnaryOp) (f : Formula) :
    complete f (ops.map .prefixed ++ s) = complete (ops.foldl (fun g op => .unary op g) f) s := by
  induction ops generalizing f with
  | nil => rfl
  | cons op ops ih => rw [List.map_cons, List.cons_append, complete, ih, List.foldl_cons]

end Parser

/-! ## The descent follows the parser -/

namespace Descent

open KripkeLogic.Parser (Stack State Bound)

section Follows

variable {limit : Option Nat} {tokens : List Token} {token : Token} {i j : Nat} {f g : Formula}
  {s : Stack} {st st' : State} {op : BinaryOp} {r : Except ParseError Node}

theorem drop_of_getElem? (h : tokens[i]? = some token) :
    tokens.drop i = token :: tokens.drop (i + 1) := by
  obtain ⟨hi, rfl⟩ := List.getElem?_eq_some_iff.1 h
  exact List.drop_eq_getElem_cons hi

variable (limit tokens) in
def rest (st : State) (i : Nat) : Except ParseError Formula := Parser.run limit st (tokens.drop i)

theorem rest_of_none (h : tokens[i]? = none) : rest limit tokens st i = .error .unfinished := by
  rw [rest, List.drop_eq_nil_of_le (List.getElem?_eq_none_iff.1 h)]
  rfl

theorem rest_of_step (h : tokens[i]? = some token)
    (hstep : Parser.step limit token st = .ok (.inl st')) :
    rest limit tokens st i = rest limit tokens st' (i + 1) := by
  rw [rest, drop_of_getElem? h, Parser.run_cons hstep, rest]

theorem rest_of_error {e : ParseError} (h : tokens[i]? = some token)
    (hstep : Parser.step limit token st = .error e) : rest limit tokens st i = .error e := by
  rw [rest, drop_of_getElem? h, Parser.run_cons_error hstep]

/-- No operator comes next that binds at least as tightly as `power`. -/
def StopsAt (tokens : List Token) (power j : Nat) : Prop :=
  ∀ token op, tokens[j]? = some token → token.symbol = .op (.binary op) → op.power < power

theorem stopsAt_iff {power : Nat} (htoken : tokens[j]? = some token) : StopsAt tokens power j ↔
    ∀ op, token.symbol = .op (.binary op) → op.power < power := by
  simp only [StopsAt, htoken, Option.some.injEq]
  exact ⟨fun h op => h token op rfl, fun h token' op heq => heq ▸ h op⟩

theorem StopsAt.not_binary (h : StopsAt tokens 0 j) (htoken : tokens[j]? = some token)
    (op : BinaryOp) : token.symbol ≠ .op (.binary op) :=
  fun hop => Nat.not_lt_zero _ ((stopsAt_iff htoken).1 h op hop)

theorem rest_pending (h : StopsAt tokens op.power i) :
    rest limit tokens (.holding g (.pending f op :: s)) i =
      rest limit tokens (.holding (.binary op f g) s) i := by
  cases htoken : tokens[i]? with
  | none => rw [rest_of_none htoken, rest_of_none htoken]
  | some token =>
    have hstep : Parser.step limit token (.holding g (.pending f op :: s)) =
        Parser.step limit token (.holding (.binary op f g) s) :=
      Parser.step_pending ((stopsAt_iff htoken).1 h)
    rw [rest, rest, drop_of_getElem? htoken, Parser.run, Parser.run, hstep]

variable (limit tokens) in
/-- From the state and the index the parser goes the way of the outcome. After a result it has
completed the formula of the tree on the stack `s`. -/
def Follows (st : State) (i : Nat) (s : Stack) (r : Except ParseError Node) (j : Nat) : Prop :=
  match r with
  | .ok a => ∃ f, a = .ofFormula f ∧
      rest limit tokens st i = rest limit tokens (Parser.complete f s) j
  | .error e => rest limit tokens st i = .error e

theorem Follows.of_eq {i' : Nat} (h : Follows limit tokens st' i' s r j)
    (heq : rest limit tokens st i = rest limit tokens st' i') : Follows limit tokens st i s r j := by
  cases r with
  | ok a =>
    obtain ⟨f, hf, hrest⟩ := h
    exact ⟨f, hf, heq.trans hrest⟩
  | error e => exact heq.trans h

variable (limit tokens) in
/-- So does a call that takes all operators from `power` on. -/
structure FollowsTo (power : Nat) (st : State) (i : Nat) (s : Stack) (r : Except ParseError Node)
    (j : Nat) : Prop where
  follows : Follows limit tokens st i s r j
  stops : ∀ a, r = .ok a → StopsAt tokens power j

theorem FollowsTo.of_eq {power i' : Nat} (h : FollowsTo limit tokens power st' i' s r j)
    (heq : rest limit tokens st i = rest limit tokens st' i') :
    FollowsTo limit tokens power st i s r j :=
  ⟨h.follows.of_eq heq, h.stops⟩

theorem followsTo_error {power : Nat} {e : ParseError} (h : rest limit tokens st i = .error e) :
    FollowsTo limit tokens power st i s (.error e) j := by
  refine ⟨h, ?_⟩
  intro a ha
  cases ha

theorem foldl_unaryNode (ops : List UnaryOp) (f : Formula) :
    ops.foldl unaryNode (.ofFormula f) = .ofFormula (ops.foldl (fun g op => .unary op g) f) := by
  induction ops generalizing f with
  | nil => rfl
  | cons op ops ih => exact ih (.unary op f)

theorem ends_closing (hstop : StopsAt tokens 0 j) :
    Ends (expect tokens .closing .closing >>= fun _ => pure (Node.ofFormula f)) j
      (Follows limit tokens (.holding f (.opened :: s)) j s) := by
  have hexpect : Ends (expect tokens .closing .closing) j fun r k =>
      match r with
      | .ok _ => rest limit tokens (.holding f (.opened :: s)) j =
          rest limit tokens (Parser.complete f s) k
      | .error e => rest limit tokens (.holding f (.opened :: s)) j = .error e := by
    apply ends_expect
    · exact rest_of_none
    · intro token htoken hclosing
      exact rest_of_step htoken (Parser.step_closing hclosing Parser.settle_opened)
    · intro token htoken hne
      exact rest_of_error htoken (Parser.step_opened (hstop.not_binary htoken) hne)
  exact Ends.bind hexpect (fun e k he => he) fun _ k hrest => ends_pure ⟨f, rfl, hrest⟩

theorem ends_finish (hstop : StopsAt tokens 0 j) :
    Ends (expect tokens .finish .finish >>= fun _ => pure (Node.ofFormula f)) j fun r _ =>
      r = (rest limit tokens (.holding f []) j).map .ofFormula := by
  have hexpect : Ends (expect tokens .finish .finish) j fun r _ =>
      rest limit tokens (.holding f []) j = r.map fun _ => f := by
    apply ends_expect
    · exact rest_of_none
    · intro token htoken hfinish
      rw [rest, drop_of_getElem? htoken]
      exact Parser.run_cons_finish (Parser.step_finish hfinish rfl) _
    · intro token htoken hne
      exact rest_of_error htoken (Parser.step_bare (hstop.not_binary htoken) hne)
  refine Ends.bind hexpect ?_ ?_
  · intro e k hrest
    rw [hrest]
    rfl
  · intro _ k hrest
    rw [hrest]
    exact ends_pure rfl

theorem enter_bind_of_fits {depth : Nat} (h : Fits limit depth) (x : Descent Node) :
    (enter limit depth >>= fun _ => x) = x := by
  rw [enter, if_pos h]
  rfl

theorem enter_bind_of_not_fits {depth : Nat} (h : ¬ Fits limit depth) (x : Descent Node) :
    (enter limit depth >>= fun _ => x) = fail .tooDeep := by
  rw [enter, if_neg h]
  rfl

variable (limit tokens) in
structure FollowsAt (fuel : Nat) : Prop where
  binary : ∀ power s i, Bound power s → Fits limit (Stack.depth s) →
    Ends (binary limit tokens fuel (Stack.depth s) power) i
      (FollowsTo limit tokens power (.wanting s) i s)
  tooDeep : ∀ depth power i, ¬ Fits limit depth →
    Ends (Descent.binary limit tokens fuel depth power) i fun r _ => r = .error .tooDeep
  operators : ∀ power s f i, Bound power s →
    Ends (operators limit tokens fuel (Stack.depth s) power (.ofFormula f)) i
      (FollowsTo limit tokens power (.holding f s) i s)
  unary : ∀ prefixes s i,
    Ends (unary limit tokens fuel (Stack.depth s) prefixes) i
      (Follows limit tokens (.wanting (prefixes.map .prefixed ++ s)) i s)
  operand : ∀ s i, (∀ token op, tokens[i]? = some token → token.symbol ≠ .op (.unary op)) →
    Ends (operand limit tokens fuel (Stack.depth s)) i (Follows limit tokens (.wanting s) i s)

theorem followsAt_zero : FollowsAt limit tokens 0 :=
  ⟨fun _ _ _ _ _ => ends_cutOff, fun _ _ _ _ => ends_cutOff, fun _ _ _ _ _ => ends_cutOff,
    fun _ _ _ => ends_cutOff, fun _ _ _ => ends_cutOff⟩

theorem FollowsAt.pushed {fuel : Nat} {frame : Parser.Frame} (h : FollowsAt limit tokens fuel)
    (power : Nat) (htoken : tokens[i]? = some token)
    (hstep : Parser.step limit token st = (Parser.push limit frame s).map .inl)
    (hbound : Bound power (frame :: s)) :
    Ends (Descent.binary limit tokens fuel (Stack.depth (frame :: s)) power) (i + 1)
      (FollowsTo limit tokens power st i (frame :: s)) := by
  by_cases hfits : Fits limit (Stack.depth (frame :: s))
  · rw [Parser.push_of_fits hfits] at hstep
    refine (h.binary power (frame :: s) (i + 1) hbound hfits).mono fun r j hr => ?_
    exact hr.of_eq (rest_of_step htoken hstep)
  · rw [Parser.push_of_not_fits hfits] at hstep
    refine (h.tooDeep _ power (i + 1) hfits).mono fun r j hr => ?_
    rw [hr]
    exact followsTo_error (rest_of_error htoken hstep)

theorem FollowsAt.turn {fuel power : Nat} (h : FollowsAt limit tokens fuel) (hs : Bound power s)
    (hpower : power ≤ op.power) (htoken : tokens[i]? = some token)
    (hop : token.symbol = .op (.binary op)) :
    Ends (Descent.binary limit tokens fuel (Stack.depth s + 1) op.power >>= fun right =>
      Descent.operators limit tokens fuel (Stack.depth s) power (binaryNode op (.ofFormula f) right))
      (i + 1) (FollowsTo limit tokens power (.holding f s) i s) := by
  have hsettle := Parser.settle_of_bound (f := f) (hs.mono hpower)
  have hdepth : Stack.depth s + 1 = Stack.depth (.pending f op :: s) := Nat.add_comm _ _
  rw [hdepth]
  have hright := h.pushed op.power htoken (Parser.step_binary hop hsettle) (Nat.le_refl _)
  refine Ends.bind hright (fun e j he => followsTo_error he.follows) ?_
  rintro right j ⟨⟨g, rfl, hrest⟩, hstop⟩
  refine (h.operators power s (.binary op f g) j hs).mono fun r k hr => hr.of_eq ?_
  rw [hrest]
  exact rest_pending (hstop _ rfl)

theorem FollowsAt.parenthesis {fuel : Nat} (h : FollowsAt limit tokens fuel)
    (htoken : tokens[i]? = some token) (hopening : token.symbol = .opening) :
    Ends (Descent.binary limit tokens fuel (Stack.depth s + 3) 0 >>= fun inner =>
      expect tokens .closing .closing >>= fun _ => pure inner)
      (i + 1) (Follows limit tokens (.wanting s) i s) := by
  have hdepth : Stack.depth s + 3 = Stack.depth (.opened :: s) := Nat.add_comm _ _
  rw [hdepth]
  have hinner := h.pushed 0 htoken (Parser.step_opening (s := s) hopening) trivial
  refine Ends.bind hinner (fun e j he => he.follows) ?_
  rintro a j ⟨⟨f, rfl, hrest⟩, hstop⟩
  exact (ends_closing (hstop _ rfl)).mono fun r k hr => hr.of_eq hrest

theorem FollowsAt.succ {fuel : Nat} (h : FollowsAt limit tokens fuel) :
    FollowsAt limit tokens (fuel + 1) := by
  constructor
  case binary =>
    intro power s i hs hfits
    rw [Descent.binary, enter_bind_of_fits hfits]
    refine Ends.bind (h.unary [] s i) (fun e j he => followsTo_error he) ?_
    rintro left j ⟨f, rfl, hrest⟩
    rw [Parser.complete_of_bound hs] at hrest
    exact (h.operators power s f j hs).mono fun r k hr => hr.of_eq hrest
  case tooDeep =>
    intro depth power i hdeep
    rw [Descent.binary, enter_bind_of_not_fits hdeep]
    exact ends_fail rfl
  case operators =>
    intro power s f i hs
    rw [Descent.operators]
    refine ends_current (fun hnone => followsTo_error (rest_of_none hnone)) ?_
    intro token htoken
    have hself : Follows limit tokens (.holding f s) i s (.ok (.ofFormula f)) i :=
      ⟨f, rfl, by rw [Parser.complete_of_bound hs]⟩
    split
    · rename_i op hop
      split
      · rename_i hlt
        refine ends_pure ⟨hself, fun _ _ => (stopsAt_iff htoken).2 fun op' hop' => ?_⟩
        obtain rfl : op = op' := by simpa [hop] using hop'
        exact hlt
      · rename_i hge
        exact ends_advance htoken (h.turn hs (Nat.not_lt.1 hge) htoken hop)
    · rename_i hother
      refine ends_pure ⟨hself, fun _ _ => (stopsAt_iff htoken).2 fun op' hop' => ?_⟩
      exact (hother op' hop').elim
  case unary =>
    intro prefixes s i
    rw [Descent.unary]
    refine ends_current rest_of_none ?_
    intro token htoken
    split
    · rename_i op hop
      refine ends_advance htoken ((h.unary (op :: prefixes) s (i + 1)).mono fun r j hr => ?_)
      exact hr.of_eq (rest_of_step htoken (Parser.step_unary hop))
    · rename_i hother
      have hoperand := h.operand (prefixes.map .prefixed ++ s) i fun token' op htoken' hop => by
        rw [htoken] at htoken'
        cases htoken'
        exact hother op hop
      rw [Parser.depth_prefixes] at hoperand
      refine Ends.bind hoperand (fun e j he => he) ?_
      rintro a j ⟨f, rfl, hrest⟩
      exact ends_pure ⟨_, foldl_unaryNode prefixes f, by rw [hrest, Parser.complete_prefixes]⟩
  case operand =>
    intro s i hunary
    rw [Descent.operand]
    refine ends_current rest_of_none ?_
    intro token htoken
    split
    · rename_i n hname
      refine ends_advance htoken (ends_pure ⟨.prop n, rfl, ?_⟩)
      exact rest_of_step htoken (Parser.step_name hname)
    · rename_i hopening
      exact ends_advance htoken (h.parenthesis htoken hopening)
    · rename_i hname hopening
      apply ends_fail
      exact rest_of_error htoken (Parser.step_misplaced hname hopening fun op => hunary token op htoken)

variable (limit tokens) in
theorem followsAt (fuel : Nat) : FollowsAt limit tokens fuel := by
  induction fuel with
  | zero => exact followsAt_zero
  | succ fuel ih => exact ih.succ

/-- The whole descent gives the tree of what the parser reads, or its error. -/
theorem ends_parse (fuel : Nat) : Ends (parse limit tokens fuel) 0 fun r _ =>
    r = (Parser.run limit (.wanting []) tokens).map .ofFormula := by
  have hbinary := (followsAt limit tokens fuel).binary 0 [] 0 trivial (fits_zero limit)
  have hstart : rest limit tokens (.wanting []) 0 = Parser.run limit (.wanting []) tokens := rfl
  refine Ends.bind hbinary ?_ ?_
  · rintro e j ⟨he, -⟩
    have herror : rest limit tokens (.wanting []) 0 = .error e := he
    rw [← hstart, herror]
    rfl
  · rintro a j ⟨⟨f, rfl, hrest⟩, hstop⟩
    rw [← hstart, hrest]
    exact ends_finish (hstop _ rfl)

end Follows

end Descent

/-! ## The tree -/

namespace Node

/-- The checks let the tree through, falsum does not occur, and nothing but variables has a name. -/
structure WellBuilt (n : Node) : Prop where
  checked : ∃ f, n.validate = .ok f
  noFalsum : ¬ n.HasFalsum
  named : ∀ label children name, node (.known label) children name ∈ n.preorder →
    label ≠ .prop → name = noName

theorem noName_of_mem_preorder {f : Formula} {label : Label} {children : List Node} {name : Value}
    (h : node (.known label) children name ∈ (ofFormula f).preorder) (hlabel : label ≠ .prop) :
    name = noName := by
  induction f with
  | prop n =>
    simp only [ofFormula, preorder, preorderAll, List.mem_singleton, node.injEq, Tag.known.injEq] at h
    exact absurd h.1 hlabel
  | bot =>
    simp only [ofFormula, preorder, preorderAll, List.mem_singleton, node.injEq] at h
    exact h.2.2
  | unary op f ih =>
    simp only [ofFormula, preorder, preorderAll, List.append_nil, List.mem_cons, node.injEq] at h
    rcases h with ⟨-, -, hname⟩ | h
    · exact hname
    · exact ih h
  | binary op f g ihf ihg =>
    simp only [ofFormula, preorder, preorderAll, List.append_nil, List.mem_cons, List.mem_append,
      node.injEq] at h
    rcases h with ⟨-, -, hname⟩ | h | h
    · exact hname
    · exact ihf h
    · exact ihg h

theorem wellBuilt_ofFormula {f : Formula} (h : f.botFree = true) : (ofFormula f).WellBuilt := by
  have htree := treeOf_ofFormula f
  refine ⟨⟨f, validate_eq_ok_iff.2 htree⟩, ?_, fun _ _ _ => noName_of_mem_preorder⟩
  rw [htree.hasFalsum_iff, h]
  decide

end Node

namespace Descent

variable {limit : Option Nat} {tokens : List Token} {text : List Char}

theorem botFree_of_run (hfin : Token.Finished tokens) {f : Formula}
    (h : Parser.run limit (.wanting []) tokens = .ok f) : f.botFree = true := by
  obtain ⟨body, last, rfl, -, hbody⟩ := hfin
  have hstart : Parser.Reads (.wanting []) [] := Parser.Waits.nil
  obtain ⟨t, -, rfl⟩ := Parser.run_sound hbody hstart h
  exact Formula.botFree_formula t

/-! ## The whole descent -/

/-- Nothing was read past the last token. The finishing token was passed last, or not at all. -/
structure Finishes (tokens : List Token) {α : Type} (r : Except ParseError α) (j : Nat) : Prop where
  reads : r ≠ .error .unfinished
  passed : ∀ a, r = .ok a → Before tokens (j - 1) ∧ j = tokens.length
  refused : ∀ e, r = .error e → Before tokens j

theorem finishes_error {α : Type} {e : ParseError} {j : Nat} (he : e ≠ .unfinished)
    (hj : Before tokens j) : Finishes tokens (.error e : Except ParseError α) j :=
  ⟨by simpa using he, nofun, fun _ _ => hj⟩

theorem Before.succ_eq_length (hfin : Token.Finished tokens) {j : Nat} {token : Token}
    (hj : Before tokens j) (htoken : tokens[j]? = some token) (hfinish : token.symbol = .finish) :
    j + 1 = tokens.length := by
  obtain ⟨body, last, rfl, -, hbody⟩ := hfin
  have hlt := hj.1
  rw [List.length_append, List.length_singleton] at hlt ⊢
  by_contra hne
  have hbefore : j < body.length := by omega
  rw [List.getElem?_append_left hbefore] at htoken
  exact hbody token (List.mem_of_getElem? htoken) hfinish

theorem ends_expect_finish (hfin : Token.Finished tokens) {j : Nat} (hj : Before tokens j) :
    Ends (expect tokens .finish .finish) j (Finishes tokens) := by
  apply ends_expect
  · intro hnone
    exact absurd hnone hj.getElem?_ne_none
  · intro token htoken hfinish
    exact ⟨nofun, fun _ _ => ⟨hj, hj.succ_eq_length hfin htoken hfinish⟩, nofun⟩
  · intro token _ _
    exact finishes_error nofun hj

theorem finishes_parse (hfin : Token.Finished tokens) (fuel : Nat) :
    Ends (parse limit tokens fuel) 0 (Finishes tokens) := by
  have hbinary := (insideAt hfin limit fuel).binary 0 0 0 (before_zero hfin)
  refine Ends.bind hbinary ?_ ?_
  · rintro e j ⟨he, hj⟩
    exact finishes_error (by simpa using he) hj
  · rintro a j ⟨-, hj⟩
    refine Ends.bind (ends_expect_finish hfin hj) ?_ ?_
    · intro e k hk
      exact finishes_error (by simpa using hk.reads) (hk.refused e rfl)
    · intro t k hk
      exact ends_pure ⟨nofun, fun _ _ => hk.passed t rfl, nofun⟩

variable (limit) in
theorem comes_parse {fuel : Nat} (h : 3 * tokens.length + 3 ≤ fuel) :
    Comes (parse limit tokens fuel) 0 fun _ => True := by
  refine ((comesAt fuel).binary 0 0 0 (by omega)).bind fun a j _ => ?_
  exact comes_expect.bind fun _ _ _ => comes_pure trivial

structure Concludes (limit : Option Nat) (text : List Char) (tokens : List Token)
    (r : Except ParseError Node) (j : Nat) : Prop where
  finishes : Finishes tokens r j
  agrees : r = (Formula.parseWith limit text).map .ofFormula
  tree : ∀ a, r = .ok a → a.WellBuilt

/-- **The descent never reads past the tokens of a text.** No call but the last one passes the
finishing token. With or without a limit on depth, three calls inside one another for each token that
is left are enough to come to an end. -/
theorem descent_inside (h : Token.scan text = .ok tokens) (limit : Option Nat) :
    (∀ fuel, InsideAt limit tokens fuel ∧ ComesAt limit tokens fuel) ∧
    ∀ fuel, 3 * tokens.length + 3 ≤ fuel → ∃ r j, parse limit tokens fuel 0 = some (r, j) ∧
      Concludes limit text tokens r j := by
  have hfin := Token.finished_scan h
  refine ⟨fun fuel => ⟨insideAt hfin limit fuel, comesAt fuel⟩, fun fuel hfuel => ?_⟩
  obtain ⟨r, j, hout, -⟩ := comes_parse limit hfuel
  have hresult := ends_parse fuel r j hout
  have hparse : Formula.parseWith limit text = Parser.run limit (.wanting []) tokens := by
    rw [Formula.parseWith, h, ok_bind]
  refine ⟨r, j, hout, finishes_parse hfin fuel r j hout, by rw [hparse, hresult], fun a ha => ?_⟩
  rw [hresult, map_eq_ok_iff] at ha
  obtain ⟨f, hf, rfl⟩ := ha
  exact Node.wellBuilt_ofFormula (botFree_of_run hfin hf)

theorem descent_inside_prefixed : ∃ tokens,
    Token.scan ['~', '(', 'p', '&', ' ', 'q', ')'] = .ok tokens ∧ tokens.length = 7 ∧
    ∃ a, parse none tokens 24 0 = some (.ok a, 7) ∧ a.WellBuilt := by
  have hscan : ∃ tokens, Token.scan ['~', '(', 'p', '&', ' ', 'q', ')'] = .ok tokens ∧
      tokens.length = 7 :=
    ⟨_, rfl, rfl⟩
  obtain ⟨tokens, htokens, hlength⟩ := hscan
  obtain ⟨-, hends⟩ := descent_inside htokens none
  obtain ⟨r, j, hout, hfinishes, hagrees, htree⟩ := hends 24 (by rw [hlength])
  obtain rfl := hagrees
  obtain ⟨-, hj⟩ := hfinishes.passed _ rfl
  rw [hj, hlength] at hout
  exact ⟨tokens, htokens, hlength, _, hout, htree _ rfl⟩

end Descent

end KripkeLogic
