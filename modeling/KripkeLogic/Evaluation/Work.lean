import KripkeLogic.Evaluation.Setting
import KripkeLogic.Formula.Placed
import Std.Data.HashMap

/-!
# Work on a stack

Formulas of any depth are evaluated without recursion.
-/

namespace KripkeLogic

/-- The values of formulas at the slots, each with the one in memory that it was found for. -/
abbrev Cache (n : Nat) := Std.HashMap Formula (Placed × Vector Bool n)

inductive WorkError
  /-- Equal formulas are too deep to be compared. -/
  | tooDeep
  /-- A value is looked up that is not there. -/
  | missing
  | unfinished

namespace Placed

/-- What a negation stands for, made anew for every use. -/
def negated (a : Placed) : Placed := binary none .impl a (bot (some .falsum))

def operands : Placed → List Placed
  | prop _ _ => []
  | bot _ => []
  | unary _ .neg a => [negated a]
  | unary _ _ a => [a]
  | binary _ _ a b => [a, b]

end Placed

namespace Setting

section Lookup

variable (limit : Option Nat) {n : Nat} (cache : Cache n)

/-- Looks a formula up, which compares it with an equal one that is there. -/
def find (p : Placed) : Except WorkError (Option (Vector Bool n)) :=
  match cache[p.formula]? with
  | none => .ok none
  | some (key, v) => if Fits limit (key.distance p) then .ok (some v) else .error .tooDeep

def pending : List Placed → Except WorkError (List Placed)
  | [] => .ok []
  | p :: ps => do
    let found ← find limit cache p
    let others ← pending ps
    return if found.isSome then others else p :: others

def fetch (p : Placed) : Except WorkError (Vector Bool n) := do
  match ← find limit cache p with
  | some v => return v
  | none => throw .missing

end Lookup

variable (s : Setting) (limit : Option Nat)

def combine (cache : Cache s.size) : Placed → Except WorkError (Vector Bool s.size)
  | .prop _ x => .ok (s.ofName x)
  | .bot _ => .ok (nowhere s.size)
  | .unary _ .neg a => do return s.ofUnary .neg (← fetch limit cache a.negated)
  | .unary _ op a => do return s.ofUnary op (← fetch limit cache a)
  | .binary _ op a b => do
    let u ← fetch limit cache a
    let v ← fetch limit cache b
    return ofBinary op u v

/-- A turn with `p` on top of the stack: drops it if it has a value, gives it one if all its operands
have theirs, and puts the others on top of it if not. -/
def turn (p : Placed) (rest : List Placed) (cache : Cache s.size) :
    Except WorkError (List Placed × Cache s.size) := do
  match ← find limit cache p with
  | some _ => return (rest, cache)
  | none =>
    match ← pending limit cache p.operands with
    | [] => return (rest, cache.insert p.formula (p, ← s.combine limit cache p))
    | first :: others => return ((first :: others).reverse ++ p :: rest, cache)

/-- Takes turns until the stack is empty. What was kept stays if a turn fails. -/
def run : Nat → List Placed → Cache s.size → Except WorkError Unit × Cache s.size
  | _, [], cache => (.ok (), cache)
  | 0, _ :: _, cache => (.error .unfinished, cache)
  | fuel + 1, p :: rest, cache =>
    match s.turn limit p rest cache with
    | .ok (stack, cache) => run fuel stack cache
    | .error e => (.error e, cache)

def cost : Formula → Nat
  | .prop _ => 2
  | .bot => 2
  | .unary .neg a => cost a + 6
  | .unary _ a => cost a + 2
  | .binary _ a b => cost a + cost b + 2

/-! ### What is kept is right -/

/-- Every value stands under its own formula and is right. -/
def Sound (cache : Cache s.size) : Prop :=
  ∀ f e, cache[f]? = some e → e.1.formula = f ∧ e.2 = s.value f

variable {s limit} {cache cache' : Cache s.size} {p : Placed} {v : Vector Bool s.size}

theorem Sound.empty : s.Sound ∅ := by
  intro f e h
  simp at h

theorem Sound.insert (h : s.Sound cache) (hv : v = s.value p.formula) :
    s.Sound (cache.insert p.formula (p, v)) := by
  intro f e hf
  rw [Std.HashMap.getElem?_insert] at hf
  split at hf
  · next heq =>
    cases hf
    exact ⟨eq_of_beq heq, by rw [hv, eq_of_beq heq]⟩
  · exact h f e hf

theorem eq_of_find {n : Nat} {cache : Cache n} {v : Vector Bool n}
    (hv : find limit cache p = .ok (some v)) : ∃ key, cache[p.formula]? = some (key, v) := by
  unfold find at hv
  split at hv
  · cases hv
  · next key w hkey =>
    split at hv
    · cases hv
      exact ⟨key, hkey⟩
    · cases hv

theorem Sound.fetch_eq (h : s.Sound cache) (hv : fetch limit cache p = .ok v) :
    v = s.value p.formula := by
  unfold fetch at hv
  cases hfind : find limit cache p with
  | error e =>
    rw [hfind] at hv
    cases hv
  | ok found =>
    rw [hfind] at hv
    cases found with
    | none => cases hv
    | some w =>
      cases hv
      obtain ⟨key, hkey⟩ := eq_of_find hfind
      exact (h _ _ hkey).2

theorem Sound.combine_eq (h : s.Sound cache) (hv : s.combine limit cache p = .ok v) :
    v = s.value p.formula := by
  cases p with
  | prop place x =>
    cases hv
    rfl
  | bot place =>
    cases hv
    rfl
  | unary place op a =>
    cases op with
    | neg =>
      cases ha : fetch limit cache a.negated with
      | error e => simp [combine, ha, bind, Except.bind] at hv
      | ok u =>
        simp only [combine, ha, bind, Except.bind, pure, Except.pure, Except.ok.injEq] at hv
        rw [← hv, h.fetch_eq ha]
        rfl
    | nec | poss =>
      cases ha : fetch limit cache a with
      | error e => simp [combine, ha, bind, Except.bind] at hv
      | ok u =>
        simp only [combine, ha, bind, Except.bind, pure, Except.pure, Except.ok.injEq] at hv
        rw [← hv, h.fetch_eq ha]
        rfl
  | binary place op a b =>
    cases ha : fetch limit cache a with
    | error e => simp [combine, ha, bind, Except.bind] at hv
    | ok u =>
      cases hb : fetch limit cache b with
      | error e => simp [combine, ha, hb, bind, Except.bind] at hv
      | ok w =>
        simp only [combine, ha, hb, bind, Except.bind, pure, Except.pure, Except.ok.injEq] at hv
        rw [← hv, h.fetch_eq ha, h.fetch_eq hb]
        rfl

inductive Turned (s : Setting) (limit : Option Nat) (p : Placed) (rest : List Placed)
    (cache : Cache s.size) : List Placed → Cache s.size → Prop
  | found {v : Vector Bool s.size} (h : find limit cache p = .ok (some v)) :
      Turned s limit p rest cache rest cache
  | kept {v : Vector Bool s.size} (hnew : find limit cache p = .ok none)
      (hnone : pending limit cache p.operands = .ok [])
      (hv : s.combine limit cache p = .ok v) :
      Turned s limit p rest cache rest (cache.insert p.formula (p, v))
  | pushed {first : Placed} {others : List Placed} (hnew : find limit cache p = .ok none)
      (hsome : pending limit cache p.operands = .ok (first :: others)) :
      Turned s limit p rest cache ((first :: others).reverse ++ p :: rest) cache

theorem turned_of_turn {rest stack : List Placed}
    (h : s.turn limit p rest cache = .ok (stack, cache')) :
    Turned s limit p rest cache stack cache' := by
  unfold turn at h
  cases hfind : find limit cache p with
  | error e =>
    rw [hfind] at h
    cases h
  | ok found =>
    rw [hfind] at h
    cases found with
    | some v =>
      cases h
      exact .found hfind
    | none =>
      cases hpending : pending limit cache p.operands with
      | error e => simp [hpending, bind, Except.bind] at h
      | ok waiting =>
        cases waiting with
        | nil =>
          cases hv : s.combine limit cache p with
          | error e => simp [hpending, hv, bind, Except.bind] at h
          | ok v =>
            simp only [hpending, hv, bind, Except.bind, pure, Except.pure, Except.ok.injEq,
              Prod.mk.injEq] at h
            obtain ⟨rfl, rfl⟩ := h
            exact .kept hfind hpending hv
        | cons first others =>
          simp only [hpending, bind, Except.bind, pure, Except.pure, Except.ok.injEq,
            Prod.mk.injEq] at h
          obtain ⟨rfl, rfl⟩ := h
          exact .pushed hfind hpending

theorem Sound.turn {rest stack : List Placed} (h : s.Sound cache)
    (hturn : s.turn limit p rest cache = .ok (stack, cache')) : s.Sound cache' := by
  cases turned_of_turn hturn with
  | found hv => exact h
  | kept hnew hnone hv => exact h.insert (h.combine_eq hv)
  | pushed hnew hsome => exact h

theorem Sound.run {fuel : Nat} {stack : List Placed} (h : s.Sound cache) :
    s.Sound (s.run limit fuel stack cache).2 := by
  fun_induction Setting.run s limit fuel stack cache with
  | case1 fuel cache => exact h
  | case2 p rest cache => exact h
  | case3 fuel p rest cache stack cache' hturn ih => exact ih (h.turn hturn)
  | case4 fuel p rest cache e hturn => exact h

end Setting

end KripkeLogic
