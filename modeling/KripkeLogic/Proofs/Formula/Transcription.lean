import KripkeLogic.Proofs.Formula.Lexemes
import KripkeLogic.Proofs.Formula.Renderings

/-! # Transcribing a text -/

namespace KripkeLogic.Alphabet

variable {a : Alphabet} {text out : List Char}

/-! ## One symbol at a time -/

/-- What a scan from the left makes of a text: the longest symbol that comes next is replaced, and
a character where none comes next is kept. -/
inductive Transcribed (a : Alphabet) : List Char → List Char → Prop
  | nil : Transcribed a [] []
  | symbol (o : Operator) {rest out : List Char}
      (longest : ∀ o', ascii.symbol o' <+: ascii.symbol o ++ rest →
        (ascii.symbol o').length ≤ (ascii.symbol o).length)
      (h : Transcribed a rest out) : Transcribed a (ascii.symbol o ++ rest) (a.symbol o ++ out)
  | kept (c : Char) {rest out : List Char} (none : ∀ o, ¬ ascii.symbol o <+: c :: rest)
      (h : Transcribed a rest out) : Transcribed a (c :: rest) (c :: out)

theorem prefixFree_ascii : PrefixFree ascii.symbol := by
  intro o o' rest rest' h
  rcases o with op | op <;> rcases o' with op' | op' <;> cases op <;> cases op' <;>
    simp_all [symbol, ascii]

theorem substitute_kept (a : Alphabet) {c : Char} {rest : List Char}
    (h : ∀ o, ¬ ascii.symbol o <+: c :: rest) : a.substitute (c :: rest) = c :: a.substitute rest := by
  unfold substitute
  rw [List.map_cons]
  rcases Token.split_cons_cases c () (rest.map (·, ())) with
    ⟨o, taken, later, heq, hsymbol, -⟩ | hsplit
  · -- The characters that were taken for a symbol stand at the beginning of the text.
    have hchars := congrArg (List.map Prod.fst) heq
    simp only [List.map_cons, List.map_map, List.map_append, hsymbol, Function.comp_def,
      List.map_id'] at hchars
    exact absurd ⟨_, hchars.symm⟩ (h o)
  · rw [hsplit]
    rfl

theorem transcribed_substitute (a : Alphabet) (text : List Char) :
    a.Transcribed text (a.substitute text) := by
  induction hn : text.length using Nat.strong_induction_on generalizing text with
  | _ n ih =>
  subst hn
  cases text with
  | nil => exact .nil
  | cons c rest =>
    by_cases h : ∃ o, ascii.symbol o <+: c :: rest
    · obtain ⟨o, later, heq⟩ := h
      have hlength := congrArg List.length heq
      have hpos := List.length_pos_iff.2 (Token.symbol_ne_nil o)
      rw [List.length_append] at hlength
      rw [← heq, substitute_symbol]
      refine .symbol o ?_ (ih _ (by omega) later rfl)
      -- No symbol begins another one, so only this one comes next.
      rintro o' ⟨later', heq'⟩
      rw [prefixFree_ascii o' o later' later heq']
    · rw [not_exists] at h
      rw [substitute_kept a h]
      exact .kept c h (ih _ (by simp) rest rfl)

theorem Transcribed.eq_substitute (h : a.Transcribed text out) : out = a.substitute text := by
  induction h with
  | nil => rfl
  | symbol o _ _ ih => rw [substitute_symbol, ih]
  | kept c hnone _ ih => rw [substitute_kept a hnone, ih]

theorem transcribed_iff : a.Transcribed text out ↔ out = a.substitute text := by
  constructor
  · exact Transcribed.eq_substitute
  · rintro rfl
    exact transcribed_substitute a text

/-! ## No symbol is left -/

def SymbolFree (text : List Char) : Prop := ∀ o, ¬ ascii.symbol o <:+: text

def Foreign (a : Alphabet) : Prop :=
  ∀ o, a.symbol o ≠ [] ∧ ∀ o', ∀ c ∈ a.symbol o, c ∉ ascii.symbol o'

def marks : List Char := ['~', '[', ']', '<', '>', '&', '|', '-']

theorem symbol_subset_marks (o : Operator) : ascii.symbol o ⊆ marks := by
  rcases o with op | op <;> cases op <;> simp [symbol, ascii, marks]

theorem foreign_of_not_mem_marks (hne : ∀ o, a.symbol o ≠ [])
    (h : ∀ o, ∀ c ∈ a.symbol o, c ∉ marks) : Foreign a :=
  fun o => ⟨hne o, fun o' c hc hmem => h o c hc (symbol_subset_marks o' hmem)⟩

theorem foreign_latex : Foreign latex := by
  refine foreign_of_not_mem_marks (fun o => ?_) (fun o => ?_)
  · rcases o with op | op <;> cases op <;> exact List.cons_ne_nil _ _
  · rcases o with op | op <;> cases op <;> simp [symbol, latex, command, marks]

theorem foreign_unicode : Foreign unicode := by
  refine foreign_of_not_mem_marks (fun o => ?_) (fun o => ?_)
  · rcases o with op | op <;> cases op <;> exact List.cons_ne_nil _ _
  · rcases o with op | op <;> cases op <;> simp [symbol, unicode, marks]

theorem Transcribed.isPrefix (ha : a.Foreign) (h : a.Transcribed text out) {o : Operator}
    {s : List Char} (hs : ∀ c ∈ s, c ∈ ascii.symbol o) (hout : s <+: out) : s <+: text := by
  induction h generalizing s with
  | nil => exact hout
  | symbol o' _ _ _ =>
    cases s with
    | nil => exact List.nil_prefix
    | cons c s =>
      obtain ⟨d, tail, hd⟩ := List.exists_cons_of_ne_nil (ha o').1
      rw [hd, List.cons_append, List.cons_prefix_cons] at hout
      exact absurd (hs c (by simp)) ((ha o').2 o c (by simp [hd, hout.1]))
  | kept d _ _ ih =>
    cases s with
    | nil => exact List.nil_prefix
    | cons c s =>
      rw [List.cons_prefix_cons] at hout ⊢
      exact ⟨hout.1, ih (fun c hc => hs c (by simp [hc])) hout.2⟩

theorem infix_of_foreign {s w out : List Char} (hs : s ≠ []) (hw : ∀ c ∈ w, c ∉ s)
    (h : s <:+: w ++ out) : s <:+: out := by
  induction w with
  | nil => exact h
  | cons c w ih =>
    rw [List.cons_append, List.infix_cons_iff] at h
    rcases h with h | h
    · obtain ⟨d, tail, rfl⟩ := List.exists_cons_of_ne_nil hs
      rw [List.cons_prefix_cons] at h
      exact absurd (by simp [h.1]) (hw c (by simp))
    · exact ih (fun d hd => hw d (by simp [hd])) h

theorem Transcribed.symbolFree (ha : a.Foreign) (h : a.Transcribed text out) : SymbolFree out := by
  induction h with
  | nil =>
    intro o ho
    exact Token.symbol_ne_nil o (List.infix_nil.1 ho)
  | symbol o' _ _ ih =>
    intro o ho
    exact ih o (infix_of_foreign (Token.symbol_ne_nil o) ((ha o').2 o) ho)
  | kept c hnone h ih =>
    intro o ho
    rcases List.infix_cons_iff.1 ho with ho | ho
    · exact hnone o ((Transcribed.kept c hnone h).isPrefix ha (fun _ hd => hd) ho)
    · exact ih o ho

theorem SymbolFree.transcribed (a : Alphabet) (h : SymbolFree text) : a.Transcribed text text := by
  induction text with
  | nil => exact .nil
  | cons c rest ih =>
    refine .kept c (fun o ho => h o ho.isInfix) (ih fun o ho => h o ?_)
    exact List.infix_cons_iff.2 (Or.inr ho)

/-! ## Any text -/

/-- What a reader may rely on who sees nothing but the result. -/
structure Transcribes (a : Alphabet) (text : List Char) : Prop where
  symbolFree : SymbolFree (a.substitute text)
  idempotent : a.substitute (a.substitute text) = a.substitute text
  greedy : ∀ out, a.Transcribed text out ↔ out = a.substitute text

theorem Foreign.transcribes (ha : a.Foreign) (text : List Char) : a.Transcribes text := by
  have hfree : SymbolFree (a.substitute text) := (transcribed_substitute a text).symbolFree ha
  exact ⟨hfree, (hfree.transcribed a).eq_substitute.symm, fun out => transcribed_iff⟩

/-- **Replacing the symbols of a text leaves none**, so that doing it again changes nothing. -/
theorem transcription (text : List Char) : latex.Transcribes text ∧ unicode.Transcribes text :=
  ⟨foreign_latex.transcribes text, foreign_unicode.transcribes text⟩

example : unicode.substitute ['<', '-', '<', '-', '>', '>', '[', '[', ']', ']'] =
    ['<', '-', '↔', '>', '[', '□', ']'] := by decide

end KripkeLogic.Alphabet
