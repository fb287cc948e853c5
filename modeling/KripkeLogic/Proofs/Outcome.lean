import KripkeLogic.Limit
import Mathlib.Data.List.Forall2

/-! # Calls that may fail -/

namespace KripkeLogic.Outcome

variable {α β ε δ : Type}

@[simp] theorem ok_bind {a : α} {f : α → Except ε β} : (.ok a >>= f) = f a := rfl

theorem bind_eq_ok_iff {x : Except ε α} {f : α → Except ε β} {b : β} :
    (x >>= f) = .ok b ↔ ∃ a, x = .ok a ∧ f a = .ok b := by
  constructor
  · intro h
    cases x with
    | error e => cases h
    | ok a => exact ⟨a, rfl, h⟩
  · rintro ⟨a, rfl, h⟩
    exact h

theorem bind_eq_error_iff {x : Except ε α} {f : α → Except ε β} {e : ε} :
    (x >>= f) = .error e ↔ x = .error e ∨ ∃ a, x = .ok a ∧ f a = .error e := by
  cases x with
  | error e' =>
    constructor
    · intro h
      cases h
      exact Or.inl rfl
    · rintro (h | ⟨a, h, -⟩)
      · cases h
        rfl
      · cases h
  | ok a =>
    constructor
    · intro h
      exact Or.inr ⟨a, rfl, h⟩
    · rintro (h | ⟨a', h, hf⟩)
      · cases h
      · cases h
        exact hf

theorem bind_pure_eq_error_iff {x : Except ε α} {f : α → β} {e : ε} :
    (x >>= fun a => pure (f a)) = .error e ↔ x = .error e := by
  rw [bind_eq_error_iff, or_iff_left]
  rintro ⟨a, -, h⟩
  cases h

theorem pure_eq_ok_iff {a b : α} : (pure a : Except ε α) = .ok b ↔ a = b := by
  constructor
  · intro h; cases h; rfl
  · rintro rfl; rfl

theorem mapError_eq_ok_iff {x : Except ε α} {f : ε → δ} {a : α} :
    x.mapError f = .ok a ↔ x = .ok a := by
  constructor
  · intro h
    cases x with
    | error e => cases h
    | ok b => cases h; rfl
  · rintro rfl; rfl

theorem mapError_eq_error_iff {x : Except ε α} {f : ε → δ} {e : δ} :
    x.mapError f = .error e ↔ ∃ e', x = .error e' ∧ f e' = e := by
  cases x <;> simp [Except.mapError]

theorem map_eq_ok_iff {x : Except ε α} {f : α → β} {b : β} :
    x.map f = .ok b ↔ ∃ a, x = .ok a ∧ f a = b := by
  constructor
  · intro h
    cases x with
    | error e => cases h
    | ok a => cases h; exact ⟨a, rfl, rfl⟩
  · rintro ⟨a, rfl, rfl⟩; rfl

theorem map_eq_error_iff {x : Except ε α} {f : α → β} {e : ε} :
    x.map f = .error e ↔ x = .error e := by
  constructor
  · intro h
    cases x with
    | error e => cases h; rfl
    | ok a => cases h
  · rintro rfl; rfl

theorem forall₂_of_mapM_some {f : α → Option β} {xs : List α} {ys : List β}
    (h : xs.mapM f = some ys) : List.Forall₂ (fun x y => f x = some y) xs ys := by
  induction xs generalizing ys with
  | nil =>
    rw [List.mapM_nil] at h
    cases h
    exact .nil
  | cons x xs ih =>
    simp only [List.mapM_cons, Option.bind_eq_bind, Option.bind_eq_some_iff] at h
    obtain ⟨y, hy, zs, hzs, h⟩ := h
    cases h
    exact .cons hy (ih hzs)

theorem mapM_map_eq_pure {γ : Type} {m : Type → Type} [Monad m] [LawfulMonad m] {xs : List α}
    {f : α → β} {g : β → m γ} {r : α → γ} (h : ∀ x ∈ xs, g (f x) = pure (r x)) :
    (xs.map f).mapM g = pure (xs.map r) := by
  induction xs with
  | nil => rw [List.map_nil, List.mapM_nil, List.map_nil]
  | cons x xs ih =>
    obtain ⟨hx, hxs⟩ := List.forall_mem_cons.1 h
    rw [List.map_cons, List.mapM_cons, hx, pure_bind, ih hxs, pure_bind, List.map_cons]

theorem sequence_eq_error_iff {γ : Type} {x : Except ε α} {y : Except ε β} {f : α → β → γ}
    {fault : ε} {p q : Prop} (hx : ∀ e, x = .error e ↔ e = fault ∧ p)
    (hy : ∀ e, y = .error e ↔ e = fault ∧ q) (e : ε) :
    (x >>= fun a => y >>= fun b => pure (f a b)) = .error e ↔ e = fault ∧ (p ∨ q) := by
  cases x with
  | error e' =>
    obtain ⟨rfl, hp⟩ := (hx e').1 rfl
    exact ⟨fun h => by cases h; exact ⟨rfl, Or.inl hp⟩, fun h => by rw [h.1]; rfl⟩
  | ok a =>
    have hp : ¬ p := fun hp => by cases (hx fault).2 ⟨rfl, hp⟩
    rw [ok_bind, or_iff_right hp, ← hy, bind_pure_eq_error_iff]

/-! ## Limits -/

/-- The outcome `x` under a limit is the outcome `y` without one, unless calls go too deep. -/
def Limited (limit : Option Nat) (depth : Nat) (deep : ε) (x y : Except ε α) : Prop :=
  x = y ∨ (x = .error deep ∧ ¬ Fits limit depth)

namespace Limited

variable {limit : Option Nat} {depth depth' : Nat} {deep : ε} {x y : Except ε α}

theorem mono (h : Limited limit depth deep x y) (hle : depth ≤ depth') :
    Limited limit depth' deep x y :=
  h.imp_right fun ⟨hx, hdeep⟩ => ⟨hx, fun hfits => hdeep (hfits.mono hle)⟩

theorem bind {f g : α → Except ε β} (h : Limited limit depth deep x y)
    (hf : ∀ a, Limited limit depth deep (f a) (g a)) :
    Limited limit depth deep (x >>= f) (y >>= g) := by
  rcases h with rfl | ⟨rfl, hdeep⟩
  · cases x with
    | error e => exact Or.inl rfl
    | ok a => exact hf a
  · exact Or.inr ⟨rfl, hdeep⟩

theorem refl (x : Except ε α) : Limited limit depth deep x x := Or.inl rfl

end Limited

end KripkeLogic.Outcome
