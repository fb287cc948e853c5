import KripkeLogic.Proofs.Formula.Parsing
import Mathlib.Order.Bounds.Basic
import Mathlib.Order.Nat

/-!
# Blanks in a text

A text is read as its characters that are not blank, and an error is told at the place where its
character stands in the text.
-/

namespace KripkeLogic

open Outcome

def Text.ink (text : List Char) : List Char := text.filter fun c => !isBlank c

namespace Text

variable {c : Char}

theorem ink_append (text text' : List Char) : ink (text ++ text') = ink text ++ ink text' :=
  List.filter_append text text'

theorem ink_blank (hc : isBlank c = true) (text : List Char) : ink (c :: text) = ink text :=
  List.filter_cons_of_neg (by simp [hc])

theorem ink_cons (hc : isBlank c = false) (text : List Char) : ink (c :: text) = c :: ink text :=
  List.filter_cons_of_pos (by simp [hc])

end Text

def Resumes (gap text : List Char) : Prop :=
  ∃ d after, text = gap ++ d :: after ∧ isNameChar d = true ∧ ∀ x ∈ gap, Text.isBlank x = true

def SplitsName (text : List Char) (p : Nat) : Prop :=
  ∃ before c gap rest, text = before ++ c :: rest ∧ before.length + 1 = p ∧ isNameChar c = true ∧
    gap ≠ [] ∧ Resumes gap rest

/-! ## Names that are split -/

section Splits

variable {c : Char} {cs gap text : List Char} {p q : Nat}

theorem resumes_cons_blank (hc : Text.isBlank c = true) :
    Resumes gap (c :: cs) ↔ ∃ tail, gap = c :: tail ∧ Resumes tail cs := by
  constructor
  · rintro ⟨d, after, h, hd, hgap⟩
    cases gap with
    | nil =>
      obtain ⟨rfl, -⟩ := List.cons.inj h
      rw [Token.not_isBlank_of_isNameChar hd] at hc
      cases hc
    | cons x tail =>
      obtain ⟨rfl, rfl⟩ := List.cons.inj h
      exact ⟨tail, rfl, d, after, rfl, hd, fun y hy => hgap y (List.mem_cons_of_mem _ hy)⟩
  · rintro ⟨tail, rfl, d, after, rfl, hd, htail⟩
    exact ⟨d, after, rfl, hd, List.forall_mem_cons.2 ⟨hc, htail⟩⟩

theorem resumes_cons_ink (hc : Text.isBlank c = false) :
    Resumes gap (c :: cs) ↔ gap = [] ∧ isNameChar c = true := by
  constructor
  · rintro ⟨d, after, h, hd, hgap⟩
    cases gap with
    | nil =>
      obtain ⟨rfl, -⟩ := List.cons.inj h
      exact ⟨rfl, hd⟩
    | cons x tail =>
      obtain ⟨rfl, -⟩ := List.cons.inj h
      rw [hgap _ List.mem_cons_self] at hc
      cases hc
  · rintro ⟨rfl, hname⟩
    exact ⟨c, cs, rfl, hname, by simp⟩

theorem splitsName_cons : SplitsName (c :: cs) p ↔
    (p = 1 ∧ isNameChar c = true ∧ ∃ gap, gap ≠ [] ∧ Resumes gap cs) ∨
      ∃ q, p = q + 1 ∧ SplitsName cs q := by
  constructor
  · rintro ⟨before, d, gap, rest, h, hp, hd, hgap, hrest⟩
    cases before with
    | nil =>
      obtain ⟨rfl, rfl⟩ := List.cons.inj h
      exact Or.inl ⟨hp.symm, hd, gap, hgap, hrest⟩
    | cons x before =>
      obtain ⟨rfl, rfl⟩ := List.cons.inj h
      exact Or.inr ⟨before.length + 1, hp.symm, before, d, gap, rest, rfl, rfl, hd, hgap, hrest⟩
  · rintro (⟨rfl, hc, gap, hgap, hrest⟩ | ⟨q, rfl, before, d, gap, rest, rfl, rfl, hd, hgap, hrest⟩)
    · exact ⟨[], c, gap, cs, rfl, rfl, hc, hgap, hrest⟩
    · exact ⟨c :: before, d, gap, rest, rfl, rfl, hd, hgap, hrest⟩

theorem not_splitsName_nil : ¬ SplitsName [] p := by
  rintro ⟨before, c, gap, rest, h, -⟩
  cases before <;> cases h

/-- The places where the scan of a text may find a split name, when it has come to position `p`
and a character of a name ended at `start`, with nothing but blanks since then. -/
def SplitsFrom (start : Option Nat) (p : Nat) (text : List Char) (q : Nat) : Prop :=
  (start = some q ∧ ∃ gap, q < p + gap.length ∧ Resumes gap text) ∨
    ∃ r, q = p + r ∧ SplitsName text r

variable {start : Option Nat}

theorem not_splitsFrom_nil : ¬ SplitsFrom start p [] q := by
  rintro (⟨-, gap, -, d, after, h, -⟩ | ⟨r, -, h⟩)
  · cases gap <;> cases h
  · exact not_splitsName_nil h

theorem isNameChar_of_isBlank (hc : Text.isBlank c = true) : isNameChar c = false := by
  by_contra h
  rw [Bool.not_eq_false] at h
  rw [Token.not_isBlank_of_isNameChar h] at hc
  cases hc

theorem splitsFrom_blank (hc : Text.isBlank c = true) :
    SplitsFrom start p (c :: cs) q ↔ SplitsFrom start (p + 1) cs q := by
  simp only [SplitsFrom, resumes_cons_blank hc, splitsName_cons, isNameChar_of_isBlank hc,
    Bool.false_eq_true, false_and, and_false, false_or]
  refine or_congr (and_congr_right fun _ => ?_) ?_
  · constructor
    · rintro ⟨_, hq, tail, rfl, htail⟩
      exact ⟨tail, by rw [List.length_cons] at hq; omega, htail⟩
    · rintro ⟨tail, hq, htail⟩
      exact ⟨c :: tail, by rw [List.length_cons]; omega, tail, rfl, htail⟩
  · constructor
    · rintro ⟨_, rfl, r, rfl, hr⟩
      exact ⟨r, by omega, hr⟩
    · rintro ⟨r, rfl, hr⟩
      exact ⟨r + 1, by omega, r, rfl, hr⟩

theorem splitsFrom_name (hc : isNameChar c = true) : SplitsFrom start p (c :: cs) q ↔
    (start = some q ∧ q < p) ∨ SplitsFrom (some (p + 1)) (p + 1) cs q := by
  simp only [SplitsFrom, resumes_cons_ink (Token.not_isBlank_of_isNameChar hc), splitsName_cons, hc,
    and_true, true_and]
  refine or_congr (and_congr_right fun _ => ?_) ?_
  · simp
  · constructor
    · rintro ⟨_, rfl, ⟨rfl, gap, hgap, hrest⟩ | ⟨r, rfl, hr⟩⟩
      · have hlength := List.length_pos_of_ne_nil hgap
        exact Or.inl ⟨rfl, gap, by omega, hrest⟩
      · exact Or.inr ⟨r, by omega, hr⟩
    · rintro (⟨hq, gap, hlt, hrest⟩ | ⟨r, rfl, hr⟩)
      · obtain rfl := Option.some.inj hq
        refine ⟨1, rfl, Or.inl ⟨rfl, gap, ?_, hrest⟩⟩
        rintro rfl
        exact absurd hlt (by simp)
      · exact ⟨r + 1, by omega, Or.inr ⟨r, rfl, hr⟩⟩

theorem splitsFrom_other (hblank : Text.isBlank c = false) (hname : isNameChar c = false) :
    SplitsFrom start p (c :: cs) q ↔ SplitsFrom none (p + 1) cs q := by
  simp only [SplitsFrom, resumes_cons_ink hblank, splitsName_cons, hname]
  constructor
  · rintro (⟨-, gap, -, -, h⟩ | ⟨_, rfl, ⟨-, h, -⟩ | ⟨r, rfl, hr⟩⟩)
    · cases h
    · cases h
    · exact Or.inr ⟨r, by omega, hr⟩
  · rintro (⟨h, -⟩ | ⟨r, rfl, hr⟩)
    · cases h
    · exact Or.inr ⟨r + 1, by omega, Or.inr ⟨r, rfl, hr⟩⟩

theorem SplitsFrom.le (h : SplitsFrom (some p) p text q) : p ≤ q := by
  rcases h with ⟨hq, -⟩ | ⟨r, rfl, -⟩
  · exact Nat.le_of_eq (Option.some.inj hq)
  · exact Nat.le_add_right p r

namespace Token

theorem splitName?_eq_some_iff_from (start : Option Nat) (p : Nat) (text : List Char) (q : Nat) :
    splitName? start p text = some q ↔ IsLeast {q | SplitsFrom start p text q} q := by
  induction text generalizing start p with
  | nil => exact iff_of_false (by simp [splitName?]) fun h => not_splitsFrom_nil h.1
  | cons c cs ih =>
    rw [splitName?_cons]
    by_cases hblank : Text.isBlank c = true
    · simp only [if_pos hblank, splitsFrom_blank hblank]
      exact ih start (p + 1)
    · rw [if_neg hblank]
      rw [Bool.not_eq_true] at hblank
      by_cases hname : isNameChar c = true
      · simp only [if_pos hname, splitsFrom_name hname]
        have hnext := ih (some (p + 1)) (p + 1)
        cases start with
        | none => simpa using hnext
        | some s =>
          by_cases hs : s < p
          · have hleast : IsLeast {q | (some s = some q ∧ q < p) ∨
                SplitsFrom (some (p + 1)) (p + 1) cs q} s := by
              refine ⟨Or.inl ⟨rfl, hs⟩, ?_⟩
              rintro r (⟨hr, -⟩ | hr)
              · exact Nat.le_of_eq (Option.some.inj hr)
              · have hle := hr.le
                omega
            simp only [if_pos hs]
            exact ⟨fun h => Option.some.inj h ▸ hleast, fun h => congrArg some (hleast.unique h)⟩
          · have hnone : ∀ q, ¬ (some s = some q ∧ q < p) := by
              rintro q ⟨hq, hlt⟩
              cases hq
              exact hs hlt
            simpa only [if_neg hs, hnone, false_or] using hnext
      · rw [if_neg hname]
        rw [Bool.not_eq_true] at hname
        simp only [splitsFrom_other hblank hname]
        exact ih none (p + 1)

theorem splitName?_eq_some_iff : splitName? none 0 text = some p ↔
    IsLeast {p | SplitsName text p} p := by
  have hfrom : ∀ q, SplitsFrom none 0 text q ↔ SplitsName text q := by
    intro q
    simp [SplitsFrom]
  rw [splitName?_eq_some_iff_from]
  simp only [hfrom]

theorem splitName?_eq_none_iff : splitName? none 0 text = none ↔ ∀ p, ¬ SplitsName text p := by
  constructor
  · intro h p hp
    -- Of the places where a name is split one is the first.
    classical
    have hfirst := Nat.isLeast_find ⟨p, hp⟩
    rw [splitName?_eq_some_iff.2 hfirst] at h
    cases h
  · intro h
    rw [Option.eq_none_iff_forall_ne_some]
    intro q hq
    exact h q (splitName?_eq_some_iff.1 hq).1

theorem not_splitsName_ink (text : List Char) : ¬ SplitsName (Text.ink text) p := by
  rintro ⟨before, c, gap, rest, h, -, -, hgap, d, after, rfl, -, hblank⟩
  obtain ⟨x, hx⟩ := List.exists_mem_of_ne_nil gap hgap
  have hmem : x ∈ Text.ink text := by
    rw [h]
    simp [hx]
  have hink := (List.mem_filter.1 hmem).2
  rw [hblank x hx] at hink
  cases hink

end Token

end Splits

/-! ## Places -/

namespace Text

/-- The character at position `p` is the one with number `n` among those that are not blank. -/
def NthInk (text : List Char) (n p : Nat) : Prop :=
  ∃ c, text[p]? = some c ∧ isBlank c = false ∧ (ink (text.take p)).length = n

def place (text : List Char) (n : Nat) : Nat :=
  ((Token.inked text)[n]?).elim text.length Prod.snd

variable {text : List Char}

theorem map_fst_inkedFrom (p : Nat) (text : List Char) :
    (Token.inkedFrom p text).map Prod.fst = ink text := by
  have hfilter : ((text.zipIdx p).map Prod.fst).filter (fun c => !isBlank c) =
      (Token.inkedFrom p text).map Prod.fst := List.filter_map
  rw [← hfilter, List.zipIdx_map_fst]
  rfl

theorem map_fst_inked (text : List Char) : (Token.inked text).map Prod.fst = ink text :=
  map_fst_inkedFrom 0 text

theorem inked_eq (text : List Char) :
    Token.inked text = (ink text).zipIdx.map (Prod.map id (place text)) := by
  rw [← map_fst_inked]
  apply List.ext_getElem?
  intro n
  simp only [List.getElem?_map, List.getElem?_zipIdx]
  cases h : (Token.inked text)[n]? with
  | none => rfl
  | some x => simp [place, h]

theorem inked_ink (text : List Char) : Token.inked (ink text) = (ink text).zipIdx := by
  unfold Token.inked
  rw [List.filter_eq_self]
  rintro ⟨c, n⟩ hc
  have hmem : c ∈ ink text := List.fst_mem_of_mem_zipIdx hc
  exact (List.mem_filter.1 hmem).2

theorem nthInk_of_inkedFrom {q n p : Nat} {c : Char}
    (h : (Token.inkedFrom q text)[n]? = some (c, p)) : ∃ i, p = q + i ∧ NthInk text n i := by
  induction text generalizing q n with
  | nil => cases h
  | cons d cs ih =>
    by_cases hd : isBlank d = true
    · rw [Token.inkedFrom_blank hd] at h
      obtain ⟨i, rfl, e, he, hblank, hn⟩ := ih h
      refine ⟨i + 1, by omega, e, he, hblank, ?_⟩
      rw [List.take_succ_cons, ink_blank hd]
      exact hn
    · rw [Bool.not_eq_true] at hd
      rw [Token.inkedFrom_cons hd] at h
      cases n with
      | zero =>
        cases h
        exact ⟨0, rfl, _, rfl, hd, rfl⟩
      | succ n =>
        obtain ⟨i, rfl, e, he, hblank, hn⟩ := ih h
        refine ⟨i + 1, by omega, e, he, hblank, ?_⟩
        rw [List.take_succ_cons, ink_cons hd, List.length_cons]
        exact congrArg (· + 1) hn

theorem nthInk_place {n : Nat} (h : n < (ink text).length) : NthInk text n (place text n) := by
  rw [← map_fst_inked, List.length_map] at h
  obtain ⟨i, hi, hnth⟩ := nthInk_of_inkedFrom (q := 0) (List.getElem?_eq_getElem h)
  have hplace : place text n = i := by
    rw [place, List.getElem?_eq_getElem h]
    exact hi.trans (Nat.zero_add i)
  rw [hplace]
  exact hnth

theorem place_eq_length {n : Nat} (h : (ink text).length ≤ n) : place text n = text.length := by
  rw [← map_fst_inked, List.length_map] at h
  rw [place, List.getElem?_eq_none h]
  rfl

end Text

/-! ## Positions play no part -/

def Token.move (g : Nat → Nat) (token : Token) : Token := { token with position := g token.position }

def ParseError.move (g : Nat → Nat) : ParseError → ParseError
  | splitName p => splitName (g p)
  | unexpected c p => unexpected c (g p)
  | expected what found => expected what (found.move g)
  | notText kind => notText kind
  | tooDeep => tooDeep
  | unfinished => unfinished

theorem ParseError.summary_move (g : Nat → Nat) (e : ParseError) : (e.move g).summary = e.summary := by
  cases e <;> rfl

theorem ParseError.position?_move (g : Nat → Nat) (e : ParseError) :
    (e.move g).position? = e.position?.map g := by
  cases e <;> rfl

namespace Piece

variable {α β : Type} {g : α → β}

theorem of_map_eq_cons {cs : List (Char × α)} {c : Char} {q : β} {rest : List (Char × β)}
    (h : cs.map (Prod.map id g) = (c, q) :: rest) :
    ∃ p tail, cs = (c, p) :: tail ∧ tail.map (Prod.map id g) = rest := by
  obtain ⟨⟨d, p⟩, tail, rfl, hd, htail⟩ := List.map_eq_cons_iff.1 h
  obtain ⟨rfl, -⟩ := Prod.mk.inj hd
  exact ⟨p, tail, rfl, htail⟩

theorem split_map (g : α → β) (cs : List (Char × α)) :
    split (cs.map (Prod.map id g)) = (split cs).map (Prod.map id g) := by
  fun_induction split cs with
  | case8 c p rest hequi himpl hposs hnec hneg hconj hdisj ih =>
    rw [List.map_cons, Prod.map_apply, split, ih]
    · rfl
    · intro _ _ _ h
      obtain ⟨p, tail, hrest, htail⟩ := of_map_eq_cons h
      obtain ⟨q, tail, rfl, -⟩ := of_map_eq_cons htail
      exact hequi p q tail hrest
    · intro _ _ h
      obtain ⟨p, tail, hrest, -⟩ := of_map_eq_cons h
      exact himpl p tail hrest
    · intro _ _ h
      obtain ⟨p, tail, hrest, -⟩ := of_map_eq_cons h
      exact hposs p tail hrest
    · intro _ _ h
      obtain ⟨p, tail, hrest, -⟩ := of_map_eq_cons h
      exact hnec p tail hrest
    · exact hneg
    · exact hconj
    · exact hdisj
  | _ => simp_all [split]

end Piece

namespace Token

variable (g : Nat → Nat)

theorem consName_move {c : Char} (hc : isNameChar c = true) (p : Nat) (ts : List Token) :
    consName c hc (g p) (ts.map (move g)) = (consName c hc p ts).map (move g) := by
  cases ts with
  | nil => rfl
  | cons token ts =>
    obtain ⟨symbol, q⟩ := token
    cases symbol <;> rfl

theorem ofPieces_move (stop : Nat) (pieces : List (Piece × Nat)) :
    ofPieces (g stop) (pieces.map (Prod.map id g)) =
      ((ofPieces stop pieces).map (List.map (move g))).mapError (.move g) := by
  induction pieces with
  | nil => rfl
  | cons piece pieces ih =>
    obtain ⟨piece, p⟩ := piece
    cases piece with
    | op o =>
      simp only [List.map_cons, Prod.map_apply, id, ofPieces, ih]
      cases ofPieces stop pieces <;> rfl
    | char c =>
      simp only [List.map_cons, Prod.map_apply, id, ofPieces, ih]
      split
      · cases ofPieces stop pieces <;> rfl
      · split
        · cases ofPieces stop pieces <;> rfl
        · split
          · cases ofPieces stop pieces with
            | error e => rfl
            | ok ts => exact congrArg Except.ok (consName_move g _ p ts)
          · rfl

end Token

namespace Parser

variable (g : Nat → Nat) (limit : Option Nat)

theorem push_move (frame : Frame) (s : Stack) :
    (push limit frame s).mapError (.move g) = push limit frame s := by
  unfold push
  split <;> rfl

theorem step_move (token : Token) (st : State) :
    step limit (token.move g) st = (step limit token st).mapError (.move g) := by
  have hpush : ∀ frame s, (push limit frame s).map (.inl : State → State ⊕ Formula) =
      ((push limit frame s).map .inl).mapError (.move g) := by
    intro frame s
    conv_lhs => rw [← push_move g limit frame s]
    cases push limit frame s <;> rfl
  cases st with
  | wanting s =>
    simp only [step, Token.move]
    split
    · rfl
    · exact hpush .opened s
    · rfl
    · rfl
  | holding f s =>
    simp only [step, Token.move]
    split
    · exact hpush _ _
    · split <;> rfl
    · split <;> rfl
    · rfl

theorem run_move (st : State) (ts : List Token) :
    run limit st (ts.map (Token.move g)) = (run limit st ts).mapError (.move g) := by
  induction ts generalizing st with
  | nil => rfl
  | cons token ts ih =>
    rw [List.map_cons, run, run, step_move]
    cases h : step limit token st with
    | error e => rfl
    | ok next =>
      cases next with
      | inl st => exact ih st
      | inr f => rfl

end Parser

/-! ## Texts -/

namespace Token

theorem scan_eq {text : List Char} (h : ∀ p, ¬ SplitsName text p) : scan text =
    ((scan (Text.ink text)).map (List.map (move (Text.place text)))).mapError
      (.move (Text.place text)) := by
  have hink : ∀ p, ¬ SplitsName (Text.ink text) p := fun p => not_splitsName_ink text
  rw [scan, scan, splitName?_eq_none_iff.2 h, splitName?_eq_none_iff.2 hink]
  simp only
  rw [Text.inked_ink, Text.inked_eq, Piece.split_map, ← Text.place_eq_length (Nat.le_refl _)]
  exact ofPieces_move _ _ _

end Token

namespace Formula

theorem parseWith_eq (limit : Option Nat) {text : List Char} (h : ∀ p, ¬ SplitsName text p) :
    parseWith limit text = (parseWith limit (Text.ink text)).mapError (.move (Text.place text)) := by
  rw [parseWith, parseWith, Token.scan_eq h]
  cases Token.scan (Text.ink text) with
  | error e => rfl
  | ok ts => exact Parser.run_move _ limit _ ts

/-- The two positions are those of one character, blanks aside, or the ends of the texts. -/
inductive SamePlace (text text' : List Char) : Nat → Nat → Prop
  | char {n p p' : Nat} (h : Text.NthInk text n p) (h' : Text.NthInk text' n p') :
      SamePlace text text' p p'
  | finish : SamePlace text text' text.length text'.length

/-- One formula, or errors of one wording at the same place of either text. -/
inductive SameOutcome (text text' : List Char) :
    Except ParseError Formula → Except ParseError Formula → Prop
  | read (f : Formula) : SameOutcome text text' (.ok f) (.ok f)
  | tooDeep : SameOutcome text text' (.error .tooDeep) (.error .tooDeep)
  | refused {e e' : ParseError} {p p' : Nat} (summary : e.summary = e'.summary)
      (position : e.position? = some p) (position' : e'.position? = some p')
      (same : SamePlace text text' p p') : SameOutcome text text' (.error e) (.error e')

theorem samePlace_place {text text' : List Char} (h : Text.ink text = Text.ink text') (n : Nat) :
    SamePlace text text' (Text.place text n) (Text.place text' n) := by
  by_cases hn : n < (Text.ink text).length
  · exact .char (Text.nthInk_place hn) (Text.nthInk_place (h ▸ hn))
  · rw [Text.place_eq_length (Nat.not_lt.1 hn), Text.place_eq_length (h ▸ Nat.not_lt.1 hn)]
    exact .finish

/-- **Blanks play no part, except that they must not split a name.** Where they do, the text is
refused at the first such place. -/
theorem parse_blanks (limit : Option Nat) :
    (∀ text text', Text.ink text = Text.ink text' → (∀ p, ¬ SplitsName text p) →
      (∀ p, ¬ SplitsName text' p) →
        SameOutcome text text' (parseWith limit text) (parseWith limit text')) ∧
    ∀ text p, SplitsName text p →
      ∃ q, IsLeast {q | SplitsName text q} q ∧ parseWith limit text = .error (.splitName q) := by
  refine ⟨fun text text' hink h h' => ?_, fun text p hp => ?_⟩
  · rw [parseWith_eq _ h, parseWith_eq _ h', ← hink]
    cases hparse : parseWith limit (Text.ink text) with
    | ok f => exact .read f
    | error e =>
      rcases parse_eq_error hparse with rfl | hposition
      · exact .tooDeep
      · obtain ⟨n, hn⟩ := Option.isSome_iff_exists.1 hposition
        have hplaced : ∀ t, (e.move (Text.place t)).position? = some (Text.place t n) := by
          intro t
          rw [ParseError.position?_move, hn]
          rfl
        have hsummary : (e.move (Text.place text)).summary = (e.move (Text.place text')).summary := by
          rw [ParseError.summary_move, ParseError.summary_move]
        exact .refused hsummary (hplaced text) (hplaced text') (samePlace_place hink n)
  · cases hsplit : Token.splitName? none 0 text with
    | none => exact absurd hp (Token.splitName?_eq_none_iff.1 hsplit p)
    | some q =>
      refine ⟨q, Token.splitName?_eq_some_iff.1 hsplit, ?_⟩
      rw [parseWith, Token.scan, hsplit]
      rfl

theorem parse_blanks_apart :
    (parse ['p', '&', '-', ' ', '>']).mapError ParseError.position? = .error (some 2) ∧
      (parse [' ', 'p', '&', '-', '>']).mapError ParseError.position? = .error (some 3) ∧
      SameOutcome ['p', '&', '-', ' ', '>'] [' ', 'p', '&', '-', '>']
        (parse ['p', '&', '-', ' ', '>']) (parse [' ', 'p', '&', '-', '>']) ∧
      SplitsName ['p', ' ', 'q'] 1 ∧ ∃ q, IsLeast {q | SplitsName ['p', ' ', 'q'] q} q ∧
        parse ['p', ' ', 'q'] = .error (.splitName q) := by
  have hwhole : ∀ p, ¬ SplitsName ['p', '&', '-', ' ', '>'] p :=
    Token.splitName?_eq_none_iff.1 (by decide)
  have hwhole' : ∀ p, ¬ SplitsName [' ', 'p', '&', '-', '>'] p :=
    Token.splitName?_eq_none_iff.1 (by decide)
  have hsplit : SplitsName ['p', ' ', 'q'] 1 :=
    ⟨[], 'p', [' '], [' ', 'q'], rfl, rfl, rfl, by simp, 'q', [], rfl, rfl,
      List.forall_mem_singleton.2 rfl⟩
  obtain ⟨hsame, hfirst⟩ := parse_blanks (some Parser.depthLimit)
  exact ⟨rfl, rfl, hsame _ _ rfl hwhole hwhole', hsplit, hfirst _ _ hsplit⟩

end Formula

end KripkeLogic
