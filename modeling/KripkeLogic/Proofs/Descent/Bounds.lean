import KripkeLogic.Proofs.Descent.Calls
import KripkeLogic.Proofs.Formula.Tokens

/-!
# Bounds of the descent

Whatever the tokens of a text are, the descent reads none past the last one and leaves the finishing
one to the very end.
-/

namespace KripkeLogic.Descent

variable {α β : Type}

/-! ## The descent stays inside -/

/-- The index is that of a token, and the finishing one has not been passed. -/
def Before (tokens : List Token) (i : Nat) : Prop :=
  i < tokens.length ∧ ∀ token ∈ tokens.take i, token.symbol ≠ .finish

def Kept (tokens : List Token) (r : Except ParseError α) (j : Nat) : Prop :=
  r ≠ .error .unfinished ∧ Before tokens j

def Inside (tokens : List Token) (x : Descent α) : Prop :=
  ∀ i, Before tokens i → Ends x i (Kept tokens)

section Inside

variable {limit : Option Nat} {tokens : List Token} {token : Token} {i j : Nat} {x : Descent α}
  {f : α → Descent β}

theorem before_zero (h : Token.Finished tokens) : Before tokens 0 := by
  obtain ⟨body, last, rfl, -, -⟩ := h
  exact ⟨by simp, by simp⟩

theorem Before.getElem?_ne_none (h : Before tokens i) : tokens[i]? ≠ none := by
  rw [ne_eq, List.getElem?_eq_none_iff, Nat.not_le]
  exact h.1

theorem Before.next (hfin : Token.Finished tokens) (h : Before tokens i)
    (htoken : tokens[i]? = some token) (hne : token.symbol ≠ .finish) : Before tokens (i + 1) := by
  obtain ⟨body, last, rfl, hlast, -⟩ := hfin
  obtain ⟨hi, hbefore⟩ := h
  have hlt : i ≠ body.length := by
    rintro rfl
    rw [List.getElem?_concat_length] at htoken
    cases htoken
    exact hne hlast
  refine ⟨?_, ?_⟩
  · rw [List.length_append, List.length_singleton] at hi ⊢
    omega
  · rw [List.take_add_one, htoken]
    intro t ht
    rcases List.mem_append.1 ht with ht | ht
    · exact hbefore t ht
    · obtain rfl : t = token := by simpa using ht
      exact hne

theorem kept_ok {a : α} (h : Before tokens i) : Kept tokens (.ok a) i := ⟨by simp, h⟩

theorem kept_error {e : ParseError} (he : e ≠ .unfinished) (h : Before tokens i) :
    Kept tokens (.error e : Except ParseError α) i :=
  ⟨by simpa using he, h⟩

theorem inside_pure (a : α) : Inside tokens (pure a : Descent α) := fun _ hi => ends_pure (kept_ok hi)

theorem Inside.bind (hx : Inside tokens x) (hf : ∀ a, Inside tokens (f a)) :
    Inside tokens (x >>= f) := by
  intro i hi
  refine Ends.bind (hx i hi) ?_ ?_
  · rintro e j ⟨he, hj⟩
    exact kept_error (by simpa using he) hj
  · rintro a j ⟨-, hj⟩
    exact hf a j hj

theorem inside_enter (depth : Nat) : Inside tokens (enter limit depth) := by
  intro i hi
  unfold enter
  split
  · exact ends_pure (kept_ok hi)
  · exact ends_fail (kept_error (by simp) hi)

theorem inside_current {g : Token → Descent α} (h : ∀ i token, Before tokens i →
    tokens[i]? = some token → Ends (g token) i (Kept tokens)) :
    Inside tokens (current tokens >>= g) := by
  intro i hi
  apply ends_current
  · intro hnone
    exact absurd hnone hi.getElem?_ne_none
  · intro token htoken
    exact h i token hi htoken

theorem inside_advance (hfin : Token.Finished tokens) {g : Token → Descent α} (hi : Before tokens i)
    (htoken : tokens[i]? = some token) (hne : token.symbol ≠ .finish)
    (hg : ∀ token, Inside tokens (g token)) : Ends (advance tokens >>= g) i (Kept tokens) :=
  ends_advance htoken (hg token (i + 1) (hi.next hfin htoken hne))

theorem inside_expect (hfin : Token.Finished tokens) {symbol : Symbol} {what : Expected}
    (hne : symbol ≠ .finish) : Inside tokens (expect tokens symbol what) := by
  intro i hi
  apply ends_expect
  · intro hnone
    exact absurd hnone hi.getElem?_ne_none
  · intro token htoken hsymbol
    exact kept_ok (hi.next hfin htoken (by rwa [hsymbol]))
  · intro token _ _
    exact kept_error (by simp) hi

variable (limit tokens) in
structure InsideAt (fuel : Nat) : Prop where
  binary : ∀ depth power, Inside tokens (binary limit tokens fuel depth power)
  operators : ∀ depth power left, Inside tokens (operators limit tokens fuel depth power left)
  unary : ∀ depth prefixes, Inside tokens (unary limit tokens fuel depth prefixes)
  operand : ∀ depth, Inside tokens (operand limit tokens fuel depth)

theorem insideAt_zero : InsideAt limit tokens 0 :=
  ⟨fun _ _ _ _ => ends_cutOff, fun _ _ _ _ _ => ends_cutOff, fun _ _ _ _ => ends_cutOff,
    fun _ _ _ => ends_cutOff⟩

theorem InsideAt.succ (hfin : Token.Finished tokens) {fuel : Nat}
    (h : InsideAt limit tokens fuel) : InsideAt limit tokens (fuel + 1) := by
  constructor
  case binary =>
    intro depth power
    rw [Descent.binary]
    exact (inside_enter depth).bind fun _ => (h.unary depth []).bind (h.operators depth power)
  case operators =>
    intro depth power left
    rw [Descent.operators]
    apply inside_current
    intro i token hi htoken
    split
    · rename_i op hop
      split
      · exact inside_pure left i hi
      · apply inside_advance hfin hi htoken (by simp [hop])
        exact fun _ => (h.binary _ _).bind fun _ => h.operators _ _ _
    · exact inside_pure left i hi
  case unary =>
    intro depth prefixes
    rw [Descent.unary]
    apply inside_current
    intro i token hi htoken
    split
    · rename_i op hop
      exact inside_advance hfin hi htoken (by simp [hop]) fun _ => h.unary _ _
    · exact (h.operand depth).bind (fun _ => inside_pure _) i hi
  case operand =>
    intro depth
    rw [Descent.operand]
    apply inside_current
    intro i token hi htoken
    split
    · rename_i n hname
      exact inside_advance hfin hi htoken (by simp [hname]) fun _ => inside_pure _
    · rename_i hopening
      apply inside_advance hfin hi htoken (by simp [hopening])
      intro _
      refine (h.binary _ _).bind fun inner => ?_
      exact (inside_expect hfin (by simp)).bind fun _ => inside_pure inner
    · exact ends_fail (kept_error (by simp) hi)

theorem insideAt (hfin : Token.Finished tokens) (limit : Option Nat) (fuel : Nat) :
    InsideAt limit tokens fuel := by
  induction fuel with
  | zero => exact insideAt_zero
  | succ fuel ih => exact ih.succ hfin

end Inside

/-! ## The descent comes to an end -/

section Comes

variable {limit : Option Nat} {tokens : List Token}

variable (limit tokens) in
/-- The calls with so much fuel come to an end where the tokens that are left are few enough. At one
token no more than three calls are opened inside one another. -/
structure ComesAt (fuel : Nat) : Prop where
  binary : ∀ depth power i, 3 * (tokens.length - i) + 3 ≤ fuel →
    Comes (binary limit tokens fuel depth power) i (i < ·)
  operators : ∀ depth power left i, 3 * (tokens.length - i) + 1 ≤ fuel →
    Comes (operators limit tokens fuel depth power left) i (i ≤ ·)
  unary : ∀ depth prefixes i, 3 * (tokens.length - i) + 2 ≤ fuel →
    Comes (unary limit tokens fuel depth prefixes) i (i < ·)
  operand : ∀ depth i, 3 * (tokens.length - i) + 1 ≤ fuel →
    Comes (operand limit tokens fuel depth) i (i < ·)

theorem ComesAt.succ {fuel : Nat} (h : ComesAt limit tokens fuel) :
    ComesAt limit tokens (fuel + 1) := by
  constructor
  case binary =>
    intro depth power i hfuel
    rw [Descent.binary]
    refine (comes_enter depth).bind fun _ j hj => ?_
    subst hj
    refine (h.unary depth [] j (by omega)).bind fun left k hjk => ?_
    exact (h.operators depth power left k (by omega)).mono fun l hkl => Nat.lt_of_lt_of_le hjk hkl
  case operators =>
    intro depth power left i hfuel
    rw [Descent.operators]
    apply comes_current
    intro token hi htoken
    split
    · rename_i op hop
      split
      · exact comes_pure (Nat.le_refl i)
      · apply comes_advance htoken
        refine (h.binary _ _ _ (by omega)).bind fun right j hij => ?_
        exact (h.operators _ _ _ j (by omega)).mono fun k hjk => by omega
    · exact comes_pure (Nat.le_refl i)
  case unary =>
    intro depth prefixes i hfuel
    rw [Descent.unary]
    apply comes_current
    intro token hi htoken
    split
    · rename_i op hop
      apply comes_advance htoken
      exact (h.unary _ _ (i + 1) (by omega)).mono fun j hij => Nat.lt_of_succ_lt hij
    · exact (h.operand depth i (by omega)).bind fun _ j hij => comes_pure hij
  case operand =>
    intro depth i hfuel
    rw [Descent.operand]
    apply comes_current
    intro token hi htoken
    split
    · exact comes_advance htoken (comes_pure (Nat.lt_succ_self i))
    · apply comes_advance htoken
      refine (h.binary _ _ _ (by omega)).bind fun inner j hij => ?_
      exact comes_expect.bind fun _ k hjk => comes_pure (by omega)
    · exact comes_fail

theorem comesAt (fuel : Nat) : ComesAt limit tokens fuel := by
  induction fuel with
  | zero => exact ⟨by omega, by omega, by omega, by omega⟩
  | succ fuel ih => exact ih.succ

end Comes

end KripkeLogic.Descent
