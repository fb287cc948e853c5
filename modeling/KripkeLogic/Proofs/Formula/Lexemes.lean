import KripkeLogic.Proofs.Formula.Blanks
import Mathlib.Data.List.Basic

/-!
# How a text is divided into tokens

A text has tokens if it is divided into blanks, operator symbols, parentheses and names, where
blanks may stand inside an operator symbol and no two names follow each other.
-/

namespace KripkeLogic

open Outcome

inductive Lexeme : List Char → Symbol → Prop
  | op (o : Operator) {c : Char} {tail : List Char} (hc : Text.isBlank c = false)
      (hink : Text.ink (c :: tail) = Alphabet.ascii.symbol o) : Lexeme (c :: tail) (.op o)
  | opening : Lexeme ['('] .opening
  | closing : Lexeme [')'] .closing
  | name (n : Name) : Lexeme n.chars (.name n)

def Apart : Symbol → List Symbol → Prop
  | .name _, .name _ :: _ => False
  | _, _ => True

theorem Apart.name {n m : Name} {symbols : List Symbol} (h : Apart (.name n) symbols) :
    Apart (.name m) symbols := by
  cases symbols with
  | nil => trivial
  | cons s symbols => cases s <;> exact h

theorem Apart.append {s : Symbol} {symbols symbols' : List Symbol} (h : Apart s symbols)
    (h' : ∀ n, Apart (.name n) symbols') : Apart s (symbols ++ symbols') := by
  cases symbols with
  | nil =>
    cases s with
    | name n => exact h' n
    | op o | opening | closing | finish => trivial
  | cons s' symbols => cases s <;> cases s' <;> exact h

/-- The text, which starts at position `p`, is divided into the tokens and blanks. -/
inductive Divided : Nat → List Char → List Token → Prop
  | nil {p : Nat} : Divided p [] []
  | blank {p : Nat} {c : Char} {text : List Char} {ts : List Token} (hc : Text.isBlank c = true)
      (h : Divided (p + 1) text ts) : Divided p (c :: text) ts
  | token {p : Nat} {chars text : List Char} {s : Symbol} {ts : List Token} (hs : Lexeme chars s)
      (h : Divided (p + chars.length) text ts) (apart : Apart s (ts.map Token.symbol)) :
      Divided p (chars ++ text) (⟨s, p⟩ :: ts)

theorem Lexeme.exists_cons {chars : List Char} {s : Symbol} (h : Lexeme chars s) :
    ∃ c tail, chars = c :: tail ∧ Text.isBlank c = false := by
  cases h with
  | op o hc hink => exact ⟨_, _, rfl, hc⟩
  | opening => exact ⟨'(', [], rfl, by decide⟩
  | closing => exact ⟨')', [], rfl, by decide⟩
  | name n =>
    obtain ⟨c, tail, hn⟩ := List.exists_cons_of_ne_nil n.ne_nil
    have hc : isNameChar c = true := Name.isNameChar_of_mem (n := n) (by simp [hn])
    exact ⟨c, tail, hn, Token.not_isBlank_of_isNameChar hc⟩

theorem Symbol.lexeme {s : Symbol} (h : s ≠ .finish) : Lexeme s.text s := by
  cases s with
  | op o => rcases o with op | op <;> cases op <;> exact .op _ rfl rfl
  | opening => exact .opening
  | closing => exact .closing
  | name n => exact .name n
  | finish => exact absurd rfl h

theorem SplitsName.append {text : List Char} {q : Nat} (h : SplitsName text q)
    (before : List Char) : SplitsName (before ++ text) (before.length + q) := by
  obtain ⟨between, c, gap, rest, rfl, rfl, hname, hgap, hrest⟩ := h
  refine ⟨before ++ between, c, gap, rest, ?_, ?_, hname, hgap, hrest⟩
  · rw [List.append_assoc]
  · rw [List.length_append, Nat.add_assoc]

namespace Token

variable {c : Char} {text : List Char} {p stop : Nat} {ts : List Token}

theorem le_position_of_divided (h : Divided p text ts) : ∀ token ∈ ts, p ≤ token.position := by
  induction h with
  | nil => simp
  | blank _ _ ih => exact fun token htoken => Nat.le_of_succ_le (ih token htoken)
  | token _ _ _ ih =>
    rw [List.forall_mem_cons]
    exact ⟨Nat.le_refl _, fun token htoken => Nat.le_of_add_right_le (ih token htoken)⟩

/-! ## From the tokens to the division -/

theorem split_cons_cases {α : Type} (c : Char) (p : α) (cs : List (Char × α)) :
    (∃ o taken rest, (c, p) :: cs = taken ++ rest ∧ taken.map Prod.fst = Alphabet.ascii.symbol o ∧
      Piece.split ((c, p) :: cs) = (.op o, p) :: Piece.split rest) ∨
    Piece.split ((c, p) :: cs) = (.char c, p) :: Piece.split cs := by
  rw [Piece.split.eq_def]
  split <;> rename_i heq <;> cases heq
  · exact Or.inl ⟨.binary .equi, [_, _, _], _, rfl, rfl, rfl⟩
  · exact Or.inl ⟨.binary .impl, [_, _], _, rfl, rfl, rfl⟩
  · exact Or.inl ⟨.unary .poss, [_, _], _, rfl, rfl, rfl⟩
  · exact Or.inl ⟨.unary .nec, [_, _], _, rfl, rfl, rfl⟩
  · exact Or.inl ⟨.unary .neg, [_], _, rfl, rfl, rfl⟩
  · exact Or.inl ⟨.binary .conj, [_], _, rfl, rfl, rfl⟩
  · exact Or.inl ⟨.binary .disj, [_], _, rfl, rfl, rfl⟩
  · exact Or.inr rfl

theorem exists_of_inkedFrom_eq_append {taken rest : List (Char × Nat)}
    (h : inkedFrom p text = taken ++ rest) : ∃ chars text', text = chars ++ text' ∧
      Text.ink chars = taken.map Prod.fst ∧ inkedFrom (p + chars.length) text' = rest := by
  induction text generalizing p taken with
  | nil =>
    obtain ⟨rfl, rfl⟩ := List.append_eq_nil_iff.1 h.symm
    exact ⟨[], [], rfl, rfl, rfl⟩
  | cons c cs ih =>
    cases taken with
    | nil => exact ⟨[], c :: cs, rfl, rfl, h⟩
    | cons x taken =>
      by_cases hc : Text.isBlank c = true
      · rw [inkedFrom_blank hc] at h
        obtain ⟨chars, text', rfl, hink, hrest⟩ := ih h
        refine ⟨c :: chars, text', rfl, ?_, ?_⟩
        · rwa [Text.ink_blank hc]
        · rwa [List.length_cons, ← Nat.succ_add_eq_add_succ]
      · rw [Bool.not_eq_true] at hc
        rw [inkedFrom_cons hc, List.cons_append] at h
        obtain ⟨rfl, htail⟩ := List.cons.inj h
        obtain ⟨chars, text', rfl, hink, hrest⟩ := ih htail
        refine ⟨c :: chars, text', rfl, ?_, ?_⟩
        · rw [Text.ink_cons hc, hink]
          rfl
        · rwa [List.length_cons, ← Nat.succ_add_eq_add_succ]

theorem resumes_of_divided {n : Name} {q : Nat} (h : Divided p text (⟨.name n, q⟩ :: ts)) :
    ∃ gap, Resumes gap text := by
  generalize hts : (⟨.name n, q⟩ :: ts : List Token) = ts' at h
  induction h with
  | nil => cases hts
  | blank hc _ ih =>
    obtain ⟨gap, hgap⟩ := ih hts
    exact ⟨_, (resumes_cons_blank hc).2 ⟨gap, rfl, hgap⟩⟩
  | token hs _ _ =>
    cases hts
    cases hs
    obtain ⟨c, tail, hn⟩ := List.exists_cons_of_ne_nil n.ne_nil
    have hc : isNameChar c = true := Name.isNameChar_of_mem (n := n) (by simp [hn])
    rw [hn]
    exact ⟨[], (resumes_cons_ink (not_isBlank_of_isNameChar hc)).2 ⟨rfl, hc⟩⟩

theorem divided_consName (hwhole : ∀ q, ¬ SplitsName (c :: text) q) (hc : isNameChar c = true)
    (h : Divided (p + 1) text ts) : ∃ ts', Divided p (c :: text) ts' ∧
      consName c hc p (ts ++ [⟨.finish, stop⟩]) = ts' ++ [⟨.finish, stop⟩] := by
  have hstart : Apart (.name (.ofChar c hc)) (ts.map Token.symbol) →
      Divided p (c :: text) (⟨.name (.ofChar c hc), p⟩ :: ts) :=
    Divided.token (.name (.ofChar c hc)) h
  cases ts with
  | nil => exact ⟨_, hstart trivial, rfl⟩
  | cons token ts =>
    obtain ⟨s, q⟩ := token
    cases s with
    | name n =>
      refine ⟨⟨.name (n.cons c hc), p⟩ :: ts, ?_, rfl⟩
      cases h with
      | blank hblank htext =>
        -- Blanks before the name would split it from the character.
        obtain ⟨gap, hgap⟩ := resumes_of_divided htext
        have hresumes := (resumes_cons_blank hblank).2 ⟨gap, rfl, hgap⟩
        exact absurd (splitsName_cons.2 (Or.inl ⟨rfl, hc, _, List.cons_ne_nil _ _, hresumes⟩))
          (hwhole 1)
      | token hs htext apart =>
        cases hs
        refine Divided.token (.name (n.cons c hc)) ?_ apart.name
        rwa [Name.chars_cons, List.length_cons, ← Nat.succ_add_eq_add_succ]
    | op o | opening | closing | finish => exact ⟨_, hstart trivial, rfl⟩

theorem symbol_ne_nil (o : Operator) : Alphabet.ascii.symbol o ≠ [] := by
  rcases o with op | op <;> cases op <;> exact List.cons_ne_nil _ _

theorem divided_of_ofPieces (hwhole : ∀ q, ¬ SplitsName text q)
    (h : ofPieces stop (Piece.split (inkedFrom p text)) = .ok ts) :
    ∃ body, Divided p text body ∧ ts = body ++ [⟨.finish, stop⟩] := by
  induction hn : text.length using Nat.strong_induction_on generalizing text p ts with
  | _ n ih =>
  subst hn
  cases text with
  | nil =>
    cases h
    exact ⟨[], .nil, rfl⟩
  | cons c cs =>
    have hwhole' : ∀ q, ¬ SplitsName cs q := fun q hq => hwhole _ (hq.append [c])
    have hshorter : cs.length < (c :: cs).length := Nat.lt_succ_self _
    by_cases hc : Text.isBlank c = true
    · rw [inkedFrom_blank hc] at h
      obtain ⟨body, hbody, rfl⟩ := ih _ hshorter hwhole' h rfl
      exact ⟨body, .blank hc hbody, rfl⟩
    · rw [Bool.not_eq_true] at hc
      rw [inkedFrom_cons hc] at h
      obtain ⟨o, taken, rest, htaken, hsymbol, hsplit⟩ | hsplit :=
        split_cons_cases c p (inkedFrom (p + 1) cs)
      · obtain ⟨chars, text', htext, hink, hrest⟩ :=
          exists_of_inkedFrom_eq_append (p := p) ((inkedFrom_cons hc).trans htaken)
        rw [hsymbol] at hink
        rw [hsplit, ofPieces, ← hrest] at h
        obtain ⟨later, hlater, rfl⟩ := map_eq_ok_iff.1 h
        cases chars with
        | nil => exact absurd hink.symm (symbol_ne_nil o)
        | cons d tail =>
          obtain ⟨rfl, rfl⟩ := List.cons.inj htext
          have hwhole' : ∀ q, ¬ SplitsName text' q := fun q hq => hwhole _ (hq.append (c :: tail))
          have hless : text'.length < (c :: (tail ++ text')).length := by
            rw [List.length_cons, List.length_append]
            omega
          obtain ⟨body, hbody, rfl⟩ := ih text'.length hless hwhole' hlater rfl
          exact ⟨_, .token (.op o hc hink) hbody trivial, rfl⟩
      · rw [hsplit, ofPieces] at h
        split at h
        · rename_i hopening
          obtain ⟨rest, hrest, rfl⟩ := map_eq_ok_iff.1 h
          obtain ⟨body, hbody, rfl⟩ := ih _ hshorter hwhole' hrest rfl
          subst hopening
          exact ⟨_, .token .opening hbody trivial, rfl⟩
        · split at h
          · rename_i hclosing
            obtain ⟨rest, hrest, rfl⟩ := map_eq_ok_iff.1 h
            obtain ⟨body, hbody, rfl⟩ := ih _ hshorter hwhole' hrest rfl
            subst hclosing
            exact ⟨_, .token .closing hbody trivial, rfl⟩
          · split at h
            · rename_i hname
              obtain ⟨rest, hrest, rfl⟩ := map_eq_ok_iff.1 h
              obtain ⟨body, hbody, rfl⟩ := ih _ hshorter hwhole' hrest rfl
              exact divided_consName hwhole hname hbody
            · cases h

/-! ## From the division to the tokens -/

theorem isNameChar_of_mem_symbol {o : Operator} (h : c ∈ Alphabet.ascii.symbol o) :
    isNameChar c = false := by
  have hall : (Alphabet.ascii.symbol o).all (fun c => !isNameChar c) = true := by
    rcases o with op | op <;> cases op <;> rfl
  simpa using List.all_eq_true.1 hall c h

theorem isNameChar_of_mem_op {o : Operator} {chars : List Char}
    (hink : Text.ink chars = Alphabet.ascii.symbol o) (h : c ∈ chars) : isNameChar c = false := by
  by_contra hname
  rw [Bool.not_eq_false] at hname
  have hmem : c ∈ Text.ink chars := List.mem_filter.2 ⟨h, by simp [not_isBlank_of_isNameChar hname]⟩
  rw [hink] at hmem
  rw [isNameChar_of_mem_symbol hmem] at hname
  cases hname

theorem splitName?_other {gap : Option Nat} {cs : List Char} (hblank : Text.isBlank c = false)
    (hname : isNameChar c = false) : splitName? gap p (c :: cs) = splitName? none (p + 1) cs := by
  rw [splitName?_cons, if_neg (by simp [hblank]), if_neg (by simp [hname])]

theorem splitName?_none_append {cs : List Char} (hcs : ∀ c ∈ cs, isNameChar c = false) :
    splitName? none p (cs ++ text) = splitName? none (p + cs.length) text := by
  induction cs generalizing p with
  | nil => rfl
  | cons c cs ih =>
    obtain ⟨hc, hcs⟩ := List.forall_mem_cons.1 hcs
    rw [List.length_cons, ← Nat.succ_add_eq_add_succ, List.cons_append, ← ih hcs]
    by_cases hblank : Text.isBlank c = true
    · exact splitName?_blank hblank
    · rw [Bool.not_eq_true] at hblank
      exact splitName?_other hblank hc

theorem splitName?_of_divided (h : Divided p text ts) (gap : Option Nat)
    (hgap : gap = none ∨ ∀ n, Apart (.name n) (ts.map symbol)) : splitName? gap p text = none := by
  induction h generalizing gap with
  | nil => rfl
  | blank hc _ ih =>
    rw [splitName?_blank hc]
    exact ih gap hgap
  | @token p chars text s ts hs _ apart ih =>
    cases hs with
    | @op o c tail hc hink =>
      have hall : ∀ d ∈ c :: tail, isNameChar d = false := fun d hd => isNameChar_of_mem_op hink hd
      obtain ⟨hname, htail⟩ := List.forall_mem_cons.1 hall
      rw [List.cons_append, splitName?_other hc hname, splitName?_none_append htail,
        Nat.succ_add_eq_add_succ]
      exact ih none (Or.inl rfl)
    | opening => exact ih none (Or.inl rfl)
    | closing => exact ih none (Or.inl rfl)
    | name n =>
      -- The gap opens at the first character, moves along the name, and no name follows it.
      obtain rfl := hgap.resolve_right fun h => h n
      obtain ⟨c, cs, hn⟩ := List.exists_cons_of_ne_nil n.ne_nil
      have hall : ∀ d ∈ c :: cs, isNameChar d = true := fun d hd =>
        Name.isNameChar_of_mem (by rwa [hn])
      obtain ⟨hc, hcs⟩ := List.forall_mem_cons.1 hall
      have hlater := ih (some (p + n.chars.length)) (Or.inr fun m => apart.name)
      rw [hn] at hlater ⊢
      rw [List.cons_append, splitName?_name hc (fun start h => by cases h), splitName?_names hcs,
        Nat.succ_add_eq_add_succ]
      exact hlater

theorem inkedFrom_append (p : Nat) (before text : List Char) :
    inkedFrom p (before ++ text) = inkedFrom p before ++ inkedFrom (p + before.length) text := by
  unfold inkedFrom
  rw [List.zipIdx_append, List.filter_append]

theorem split_op_append {α : Type} {o : Operator} {q : α} {taken : List (Char × α)}
    (h : ((c, q) :: taken).map Prod.fst = Alphabet.ascii.symbol o) (rest : List (Char × α)) :
    Piece.split ((c, q) :: (taken ++ rest)) = (.op o, q) :: Piece.split rest := by
  rcases o with op | op <;> cases op
  all_goals obtain ⟨rfl, htaken⟩ := List.cons.inj h
  case unary.neg | binary.conj | binary.disj =>
    obtain rfl := List.map_eq_nil_iff.1 htaken
    rfl
  case unary.nec | unary.poss | binary.impl =>
    obtain ⟨⟨d, p⟩, tail, rfl, rfl, htail⟩ := List.map_eq_cons_iff.1 htaken
    obtain rfl := List.map_eq_nil_iff.1 htail
    rfl
  case binary.equi =>
    obtain ⟨⟨d, p⟩, tail, rfl, rfl, htail⟩ := List.map_eq_cons_iff.1 htaken
    obtain ⟨⟨e, p'⟩, last, rfl, rfl, hlast⟩ := List.map_eq_cons_iff.1 htail
    obtain rfl := List.map_eq_nil_iff.1 hlast
    rfl

theorem split_of_lexeme {o : Operator} {tail : List Char} (hc : Text.isBlank c = false)
    (hink : Text.ink (c :: tail) = Alphabet.ascii.symbol o) (p : Nat) (text : List Char) :
    Piece.split (inkedFrom p (c :: tail ++ text)) =
      (.op o, p) :: Piece.split (inkedFrom (p + (c :: tail).length) text) := by
  rw [inkedFrom_append, inkedFrom_cons hc, List.cons_append]
  apply split_op_append
  rw [← inkedFrom_cons hc, Text.map_fst_inkedFrom, hink]

theorem ofPieces_opening {pieces : List (Piece × Nat)} (h : ofPieces stop pieces = .ok ts) (p : Nat) :
    ofPieces stop ((.char '(', p) :: pieces) = .ok (⟨.opening, p⟩ :: ts) := by
  rw [ofPieces, h]
  rfl

theorem ofPieces_closing {pieces : List (Piece × Nat)} (h : ofPieces stop pieces = .ok ts) (p : Nat) :
    ofPieces stop ((.char ')', p) :: pieces) = .ok (⟨.closing, p⟩ :: ts) := by
  rw [ofPieces, h]
  rfl

theorem consName_of_apart (hc : isNameChar c = true) (p : Nat) {n : Name}
    (apart : Apart (.name n) (ts.map symbol)) :
    consName c hc p ts = ⟨.name (.ofChar c hc), p⟩ :: ts := by
  unfold consName
  split
  · exact apart.elim
  · rfl

theorem ofPieces_names {n : Name} (apart : Apart (.name n) (ts.map symbol))
    (h : ofPieces stop (Piece.split (inkedFrom (p + n.chars.length) text)) = .ok ts) :
    ofPieces stop (Piece.split (inkedFrom p (n.chars ++ text))) = .ok (⟨.name n, p⟩ :: ts) := by
  obtain ⟨cs, hn⟩ := n
  induction cs generalizing p with
  | nil => cases hn
  | cons c cs ih =>
    have hall : ∀ d ∈ c :: cs, isNameChar d = true := fun d hd =>
      Name.isNameChar_of_mem (n := ⟨c :: cs, hn⟩) hd
    obtain ⟨hc, hcs⟩ := List.forall_mem_cons.1 hall
    rw [List.cons_append, inkedFrom_cons (not_isBlank_of_isNameChar hc), split_cons_name hc]
    cases cs with
    | nil =>
      exact (ofPieces_name hc p h).trans (congrArg Except.ok (consName_of_apart hc p apart))
    | cons d ds =>
      have hrest : isName (d :: ds) = true := by
        rw [isName, List.all_eq_true.2 hcs]
        rfl
      have hlater := ih hrest apart.name (p := p + 1) (by
        rwa [Nat.succ_add_eq_add_succ])
      rw [ofPieces_name hc p hlater]
      rfl

theorem ofPieces_of_divided (h : Divided p text ts) (stop : Nat) :
    ofPieces stop (Piece.split (inkedFrom p text)) = .ok (ts ++ [⟨.finish, stop⟩]) := by
  induction h with
  | nil => rfl
  | blank hc _ ih => rw [inkedFrom_blank hc, ih]
  | @token p chars text s ts hs _ apart ih =>
    cases hs with
    | op o hc hink =>
      rw [split_of_lexeme hc hink, ofPieces, ih]
      rfl
    | opening => exact ofPieces_opening ih p
    | closing => exact ofPieces_closing ih p
    | name n =>
      have apart' : Apart (.name n) ((ts ++ [(⟨.finish, stop⟩ : Token)]).map symbol) := by
        rw [List.map_append]
        exact apart.append fun m => trivial
      exact ofPieces_names apart' ih

/-- **The tokens of a text are those of its division, and the finishing one.** -/
theorem scan_eq_ok_iff : scan text = .ok ts ↔
    ∃ body, Divided 0 text body ∧ ts = body ++ [⟨.finish, text.length⟩] := by
  constructor
  · intro h
    unfold scan at h
    split at h
    · cases h
    · rename_i hwhole
      exact divided_of_ofPieces (splitName?_eq_none_iff.1 hwhole) h
  · rintro ⟨body, hbody, rfl⟩
    rw [scan, splitName?_of_divided hbody none (Or.inl rfl)]
    exact ofPieces_of_divided hbody text.length

end Token

/-! ## Symbols without positions -/

theorem flatMap_zipIdx_eq_self {f : Char × Nat → List Char} {chars : List Char} {p : Nat}
    (h : ∀ c i, p ≤ i → i < p + chars.length → f (c, i) = [c]) :
    (chars.zipIdx p).flatMap f = chars := by
  have hkept : (chars.zipIdx p).flatMap f = (chars.zipIdx p).flatMap fun c => [c.1] := by
    apply List.flatMap_congr
    intro c hc
    exact h c.1 c.2 (List.le_snd_of_mem_zipIdx hc) (by have := List.snd_lt_of_mem_zipIdx hc; omega)
  rw [hkept, ← List.map_eq_flatMap, List.zipIdx_map_fst]

/-- The text is divided into tokens with the symbols, wherever it starts. -/
def Spelled (text : List Char) (symbols : List Symbol) : Prop :=
  ∀ p, ∃ ts, Divided p text ts ∧ ts.map Token.symbol = symbols

namespace Spelled

variable {c : Char} {chars text text' : List Char} {s : Symbol} {symbols symbols' : List Symbol}

theorem nil : Spelled [] [] := fun _ => ⟨[], .nil, rfl⟩

theorem blank (hc : Text.isBlank c = true) (h : Spelled text symbols) :
    Spelled (c :: text) symbols := by
  intro p
  obtain ⟨ts, hts, hsymbols⟩ := h (p + 1)
  exact ⟨ts, .blank hc hts, hsymbols⟩

theorem lexeme (hs : Lexeme chars s) (h : Spelled text symbols) (apart : Apart s symbols) :
    Spelled (chars ++ text) (s :: symbols) := by
  intro p
  obtain ⟨ts, hts, rfl⟩ := h (p + chars.length)
  exact ⟨_, .token hs hts apart, rfl⟩

theorem op (o : Operator) (h : Spelled text symbols) :
    Spelled (Alphabet.ascii.symbol o ++ text) (.op o :: symbols) :=
  h.lexeme (Symbol.lexeme (s := .op o) Symbol.noConfusion) trivial

theorem of_divided {p : Nat} {ts : List Token} (h : Divided p text ts) :
    Spelled text (ts.map Token.symbol) := by
  induction h with
  | nil => exact nil
  | blank hc _ ih => exact ih.blank hc
  | token hs _ apart ih => exact ih.lexeme hs apart

theorem divided_append {p : Nat} {ts : List Token} (h : Divided p text ts)
    (h' : Spelled text' symbols') (apart : ∀ n, Apart (.name n) symbols') :
    Spelled (text ++ text') (ts.map Token.symbol ++ symbols') := by
  induction h with
  | nil => exact h'
  | blank hc _ ih => exact ih.blank hc
  | token hs _ apart' ih =>
    rw [List.append_assoc]
    exact ih.lexeme hs (apart'.append apart)

theorem append (h : Spelled text symbols) (h' : Spelled text' symbols')
    (apart : ∀ n, Apart (.name n) symbols') : Spelled (text ++ text') (symbols ++ symbols') := by
  obtain ⟨ts, hts, rfl⟩ := h 0
  exact divided_append hts h' apart

theorem name (n : Name) : Spelled n.chars [.name n] := by
  have h := nil.lexeme (.name n) trivial
  rwa [List.append_nil] at h

theorem enclose (h : Spelled text symbols) (h' : Spelled text' symbols') :
    Spelled ('(' :: (text ++ ')' :: text')) (.opening :: (symbols ++ .closing :: symbols')) := by
  have hclosing : Spelled (')' :: text') (.closing :: symbols') := h'.lexeme .closing trivial
  exact (h.append hclosing fun _ => trivial).lexeme .opening trivial

end Spelled

theorem Token.exists_scan_iff {text : List Char} {symbols : List Symbol} :
    (∃ ts, scan text = .ok ts ∧ ts.map symbol = symbols ++ [.finish]) ↔ Spelled text symbols := by
  constructor
  · rintro ⟨ts, hts, hsymbols⟩
    obtain ⟨body, hbody, rfl⟩ := scan_eq_ok_iff.1 hts
    rw [List.map_append] at hsymbols
    rw [← List.append_cancel_right hsymbols]
    exact .of_divided hbody
  · intro h
    obtain ⟨body, hbody, rfl⟩ := h 0
    exact ⟨_, scan_eq_ok_iff.2 ⟨body, hbody, rfl⟩, by rw [List.map_append]; rfl⟩

theorem Spelled.unique {text : List Char} {symbols symbols' : List Symbol}
    (h : Spelled text symbols) (h' : Spelled text symbols') : symbols = symbols' := by
  obtain ⟨ts, hts, hsymbols⟩ := Token.exists_scan_iff.2 h
  obtain ⟨ts', hts', hsymbols'⟩ := Token.exists_scan_iff.2 h'
  rw [hts] at hts'
  cases hts'
  rw [hsymbols] at hsymbols'
  exact List.append_cancel_right hsymbols'

theorem Formula.derives_iff_spelled {text : List Char} {t : Grammar.Tree (.chain .equi)} :
    Derives text t ↔ Spelled text t.yield :=
  Token.exists_scan_iff

theorem Formula.Derives.unique {text : List Char} {t t' : Grammar.Tree (.chain .equi)}
    (h : Derives text t) (h' : Derives text t') : t = t' :=
  Grammar.Tree.yield_injective ((derives_iff_spelled.1 h).unique (derives_iff_spelled.1 h'))

end KripkeLogic
