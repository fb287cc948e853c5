import KripkeLogic.Formula.Parser
import KripkeLogic.Node.Basic

/-!
# Reading by descent

A formula can be read by calls that nest as its parts do and share one index into the tokens.
-/

namespace KripkeLogic

/-- A call takes the index of the next token to a result or an error and the index it stops at. It
takes it to nothing if it is cut off. -/
def Descent (α : Type) : Type := Nat → Option (Except ParseError α × Nat)

namespace Descent

variable {α β : Type}

instance : Monad Descent where
  pure a := fun i => some (.ok a, i)
  bind x f := fun i =>
    match x i with
    | some (.ok a, j) => f a j
    | some (.error e, j) => some (.error e, j)
    | none => none

def cutOff : Descent α := fun _ => none

def fail (e : ParseError) : Descent α := fun i => some (.error e, i)

def enter (limit : Option Nat) (depth : Nat) : Descent Unit :=
  if Fits limit depth then pure () else fail .tooDeep

section Calls

variable (limit : Option Nat) (tokens : List Token)

def current : Descent Token := fun i =>
  match tokens[i]? with
  | some token => some (.ok token, i)
  | none => some (.error .unfinished, i)

def advance : Descent Token := fun i =>
  match tokens[i]? with
  | some token => some (.ok token, i + 1)
  | none => some (.error .unfinished, i)

def expect (symbol : Symbol) (what : Expected) : Descent Token := do
  let token ← current tokens
  if token.symbol = symbol then advance tokens else fail (.expected what token)

def unaryNode (a : Node) (op : UnaryOp) : Node := .node (.known (.unary op)) [a] Node.noName

def binaryNode (op : BinaryOp) (a b : Node) : Node :=
  .node (.known (.binary op)) [a, b] Node.noName

/-! The first number bounds the calls that are open at one time. Without it the recursion has no
structure to follow, since all calls read the same tokens. -/

mutual

/-- An operand, and the operators after it that bind at least as tightly as `power`. -/
def binary : Nat → Nat → Nat → Descent Node
  | 0, _, _ => cutOff
  | fuel + 1, depth, power => do
    enter limit depth
    let left ← unary fuel depth []
    operators fuel depth power left
termination_by structural fuel => fuel

/-- One turn for each operator. An operator of the same power is left to the right operand. -/
def operators : Nat → Nat → Nat → Node → Descent Node
  | 0, _, _, _ => cutOff
  | fuel + 1, depth, power, left => do
    let token ← current tokens
    match token.symbol with
    | .op (.binary op) =>
      if op.power < power then pure left
      else do
        let _ ← advance tokens
        let right ← binary fuel (depth + 1) op.power
        operators fuel depth power (binaryNode op left right)
    | _ => pure left
termination_by structural fuel => fuel

/-- One turn for each prefix. The last one that is read applies first. -/
def unary : Nat → Nat → List UnaryOp → Descent Node
  | 0, _, _ => cutOff
  | fuel + 1, depth, prefixes => do
    let token ← current tokens
    match token.symbol with
    | .op (.unary op) => do
      let _ ← advance tokens
      unary fuel depth (op :: prefixes)
    | _ => do
      let result ← operand fuel depth
      pure (prefixes.foldl unaryNode result)
termination_by structural fuel => fuel

def operand : Nat → Nat → Descent Node
  | 0, _ => cutOff
  | fuel + 1, depth => do
    let token ← current tokens
    match token.symbol with
    | .name n => do
      let _ ← advance tokens
      pure (.node (.known .prop) [] (.text n.chars))
    | .opening => do
      let _ ← advance tokens
      let inner ← binary fuel (depth + 3) 0
      let _ ← expect tokens .closing .closing
      pure inner
    | _ => fail (.expected .operand token)
termination_by structural fuel => fuel

end

def parse (fuel : Nat) : Descent Node := do
  let result ← binary limit tokens fuel 0 0
  let _ ← expect tokens .finish .finish
  pure result

end Calls

/-! ## What a call comes to -/

/-- Wherever the call stops that starts at `i`, it is as `q` says. -/
def Ends (x : Descent α) (i : Nat) (q : Except ParseError α → Nat → Prop) : Prop :=
  ∀ r j, x i = some (r, j) → q r j

/-- The call stops. If it has a result, the index is as `q` says. -/
def Comes (x : Descent α) (i : Nat) (q : Nat → Prop) : Prop :=
  ∃ r j, x i = some (r, j) ∧ ∀ a, r = .ok a → q j

variable {limit : Option Nat} {tokens : List Token} {token : Token} {symbol : Symbol}
  {what : Expected} {i j : Nat} {x : Descent α} {f : α → Descent β} {g : Token → Descent α}

theorem bind_apply : (x >>= f) i =
    match x i with
    | some (.ok a, j) => f a j
    | some (.error e, j) => some (.error e, j)
    | none => none :=
  rfl

theorem bind_of_ok {a : α} (h : x i = some (.ok a, j)) : (x >>= f) i = f a j := by
  rw [bind_apply, h]

theorem bind_of_error {e : ParseError} (h : x i = some (.error e, j)) :
    (x >>= f) i = some (.error e, j) := by
  rw [bind_apply, h]

theorem current_of_some (h : tokens[i]? = some token) : current tokens i = some (.ok token, i) := by
  rw [current, h]

theorem current_of_none (h : tokens[i]? = none) :
    current tokens i = some (.error .unfinished, i) := by
  rw [current, h]

theorem advance_of_some (h : tokens[i]? = some token) :
    advance tokens i = some (.ok token, i + 1) := by
  rw [advance, h]

section Ends

variable {p q : Except ParseError α → Nat → Prop}

theorem ends_of_eq {r : Except ParseError α} (h : x i = some (r, j)) (hq : q r j) : Ends x i q := by
  intro r' j' h'
  rw [h] at h'
  cases h'
  exact hq

theorem ends_pure {a : α} (h : q (.ok a) i) : Ends (pure a) i q := ends_of_eq rfl h

theorem ends_fail {e : ParseError} (h : q (.error e) i) : Ends (fail e) i q := ends_of_eq rfl h

theorem ends_cutOff : Ends cutOff i q := by
  intro r j h
  cases h

theorem Ends.mono (hx : Ends x i p) (hpq : ∀ r j, p r j → q r j) : Ends x i q :=
  fun r j h => hpq r j (hx r j h)

theorem Ends.bind {q : Except ParseError β → Nat → Prop} (hx : Ends x i p)
    (herror : ∀ e j, p (.error e) j → q (.error e) j)
    (hok : ∀ a j, p (.ok a) j → Ends (f a) j q) : Ends (x >>= f) i q := by
  intro r j h
  rw [bind_apply] at h
  split at h
  · rename_i a k hout
    exact hok a k (hx _ k hout) r j h
  · rename_i e k hout
    cases h
    exact herror e _ (hx _ _ hout)
  · cases h

theorem ends_current (hnone : tokens[i]? = none → q (.error .unfinished) i)
    (hsome : ∀ token, tokens[i]? = some token → Ends (g token) i q) :
    Ends (current tokens >>= g) i q := by
  cases htoken : tokens[i]? with
  | none => exact ends_of_eq (bind_of_error (current_of_none htoken)) (hnone htoken)
  | some token =>
    intro r j h
    rw [bind_of_ok (current_of_some htoken)] at h
    exact hsome token htoken r j h

theorem ends_advance (htoken : tokens[i]? = some token) (h : Ends (g token) (i + 1) q) :
    Ends (advance tokens >>= g) i q := by
  intro r j hout
  rw [bind_of_ok (advance_of_some htoken)] at hout
  exact h r j hout

theorem ends_expect {q : Except ParseError Token → Nat → Prop}
    (hnone : tokens[i]? = none → q (.error .unfinished) i)
    (hsome : ∀ token, tokens[i]? = some token → token.symbol = symbol → q (.ok token) (i + 1))
    (hne : ∀ token, tokens[i]? = some token → token.symbol ≠ symbol →
      q (.error (.expected what token)) i) : Ends (expect tokens symbol what) i q := by
  refine ends_current hnone fun token htoken => ?_
  split
  · exact ends_of_eq (advance_of_some htoken) (hsome token htoken ‹_›)
  · exact ends_fail (hne token htoken ‹_›)

end Ends

section Comes

variable {p q : Nat → Prop}

theorem comes_pure {a : α} (h : q i) : Comes (pure a : Descent α) i q := ⟨_, _, rfl, fun _ _ => h⟩

theorem comes_fail {e : ParseError} : Comes (fail e : Descent α) i q := ⟨_, _, rfl, nofun⟩

theorem Comes.mono (hx : Comes x i p) (hpq : ∀ j, p j → q j) : Comes x i q := by
  obtain ⟨r, j, h, hr⟩ := hx
  exact ⟨r, j, h, fun a ha => hpq j (hr a ha)⟩

theorem Comes.bind (hx : Comes x i p) (hf : ∀ a j, p j → Comes (f a) j q) :
    Comes (x >>= f) i q := by
  obtain ⟨r, j, h, hr⟩ := hx
  cases r with
  | ok a =>
    obtain ⟨r', k, hout, hr'⟩ := hf a j (hr a rfl)
    exact ⟨r', k, by rw [bind_of_ok h, hout], hr'⟩
  | error e => exact ⟨_, _, bind_of_error h, nofun⟩

theorem comes_enter (depth : Nat) : Comes (enter limit depth) i (· = i) := by
  unfold enter
  split
  · exact comes_pure rfl
  · exact comes_fail

theorem comes_current
    (h : ∀ token, i < tokens.length → tokens[i]? = some token → Comes (g token) i q) :
    Comes (current tokens >>= g) i q := by
  cases htoken : tokens[i]? with
  | none => exact ⟨_, _, bind_of_error (current_of_none htoken), nofun⟩
  | some token =>
    obtain ⟨r, j, hout, hr⟩ := h token (List.getElem?_eq_some_iff.1 htoken).1 htoken
    exact ⟨r, j, by rw [bind_of_ok (current_of_some htoken), hout], hr⟩

theorem comes_advance (htoken : tokens[i]? = some token) (h : Comes (g token) (i + 1) q) :
    Comes (advance tokens >>= g) i q := by
  obtain ⟨r, j, hout, hr⟩ := h
  exact ⟨r, j, by rw [bind_of_ok (advance_of_some htoken), hout], hr⟩

theorem comes_expect : Comes (expect tokens symbol what) i (i < ·) := by
  refine comes_current fun token _ htoken => ?_
  split
  · exact ⟨_, _, advance_of_some htoken, fun _ _ => Nat.lt_succ_self i⟩
  · exact comes_fail

end Comes

end Descent

end KripkeLogic
