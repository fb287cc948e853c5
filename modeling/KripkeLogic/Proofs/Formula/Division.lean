import KripkeLogic.Proofs.Formula.Lexemes

/-!
# Tokens and their text

The tokens of a text are its only division into symbols with the longest names, each at the place
where its first character stands.
-/

namespace KripkeLogic

open Outcome

/-- A name that stands between the texts could not be longer. -/
structure CutOff (before after : List Char) : Prop where
  left : ∀ c ∈ before.getLast?, isNameChar c = false
  right : ∀ c ∈ after.head?, isNameChar c = false

/-- The characters are symbols one after the other, where a name may follow a name. -/
def Lexable (chars : List Char) : Prop :=
  ∃ symbols : List Symbol, .finish ∉ symbols ∧ symbols.flatMap Symbol.text = chars

/-- The symbols one after the other are the characters, and no name could be longer. -/
structure Lexed (chars : List Char) (symbols : List Symbol) : Prop where
  covers : symbols.flatMap Symbol.text = chars
  proper : Symbol.finish ∉ symbols
  longest : ∀ before n after, symbols = before ++ .name n :: after →
    CutOff (before.flatMap Symbol.text) (after.flatMap Symbol.text)

/-! ## Characters -/

namespace Lexeme

variable {chars : List Char} {s : Symbol}

theorem ink_eq (h : Lexeme chars s) : Text.ink chars = s.text := by
  cases h with
  | op o hc hink => exact hink
  | opening | closing => rfl
  | name n =>
    apply List.filter_eq_self.2
    intro c hc
    rw [Token.not_isBlank_of_isNameChar (Name.isNameChar_of_mem hc)]
    rfl

theorem ne_finish (h : Lexeme chars s) : s ≠ .finish := by
  cases h <;> exact fun h => by cases h

theorem head?_eq (h : Lexeme chars s) : chars.head? = s.text.head? := by
  obtain ⟨c, tail, rfl, hc⟩ := h.exists_cons
  rw [← h.ink_eq, Text.ink_cons hc]
  rfl

end Lexeme

theorem Symbol.text_ne_nil {s : Symbol} (h : s ≠ .finish) : s.text ≠ [] := by
  obtain ⟨c, tail, hs, -⟩ := (Symbol.lexeme h).exists_cons
  rw [hs]
  exact List.cons_ne_nil c tail

theorem Apart.of_append {s : Symbol} {symbols symbols' : List Symbol}
    (h : Apart s (symbols ++ symbols')) : Apart s symbols := by
  cases symbols with
  | nil => cases s <;> trivial
  | cons s' symbols => cases s <;> cases s' <;> exact h

theorem Symbol.isNameChar_of_mem {s : Symbol} {c : Char} (h : ∀ n, s ≠ .name n) (hc : c ∈ s.text) :
    isNameChar c = false := by
  cases s with
  | op o => exact Token.isNameChar_of_mem_symbol hc
  | opening =>
    obtain rfl := List.mem_singleton.1 hc
    rfl
  | closing =>
    obtain rfl := List.mem_singleton.1 hc
    rfl
  | name n => exact absurd rfl (h n)
  | finish => cases hc

/-! ## From tokens to their text -/

section Divided

variable {p : Nat} {chars text : List Char} {ts before after : List Token} {token : Token}

theorem Divided.flatMap_text (h : Divided p text ts) :
    (ts.map Token.symbol).flatMap Symbol.text = Text.ink text := by
  induction h with
  | nil => rfl
  | blank hc _ ih =>
    rw [ih, Text.ink_blank hc]
  | token hs _ _ ih =>
    rw [List.map_cons, List.flatMap_cons, ih, Text.ink_append, hs.ink_eq]

theorem Divided.ne_finish (h : Divided p text ts) : ∀ token ∈ ts, token.symbol ≠ .finish := by
  induction h with
  | nil => simp
  | blank _ _ ih => exact ih
  | token hs _ _ ih => exact List.forall_mem_cons.2 ⟨hs.ne_finish, ih⟩

structure Stands (p : Nat) (text : List Char) (before : List Token) (token : Token)
    (after : List Token) (front chars back : List Char) : Prop where
  parted : text = front ++ (chars ++ back)
  position : token.position = p + front.length
  lexeme : Lexeme chars token.symbol
  lower : Divided p front before
  upper : Divided (p + front.length + chars.length) back after
  apart : Apart token.symbol (after.map Token.symbol)

theorem Divided.exists_stands (h : Divided p text (before ++ token :: after)) :
    ∃ front chars back, Stands p text before token after front chars back := by
  generalize hts : before ++ token :: after = ts at h
  induction h generalizing before with
  | nil => cases List.append_eq_nil_iff.1 hts |>.2
  | @blank p c text ts hc h ih =>
    obtain ⟨front, chars, back, hstands⟩ := ih hts
    have hlength : p + (c :: front).length = p + 1 + front.length :=
      (Nat.succ_add_eq_add_succ p front.length).symm
    refine ⟨c :: front, chars, back, ?_, ?_, hstands.lexeme, .blank hc hstands.lower, ?_,
      hstands.apart⟩
    · rw [hstands.parted, List.cons_append]
    · rw [hstands.position, hlength]
    · rw [hlength]
      exact hstands.upper
  | @token p chars text s ts hs h apart ih =>
    cases before with
    | nil =>
      obtain ⟨rfl, rfl⟩ := List.cons.inj hts
      exact ⟨[], chars, text, rfl, rfl, hs, .nil, h, apart⟩
    | cons first before =>
      rw [List.cons_append] at hts
      obtain ⟨rfl, rfl⟩ := List.cons.inj hts
      obtain ⟨front, chars', back, hstands⟩ := ih rfl
      have hfirst : Apart s (before.map Token.symbol) := by
        rw [List.map_append] at apart
        exact apart.of_append
      have hlength : p + (chars ++ front).length = p + chars.length + front.length := by
        rw [List.length_append, Nat.add_assoc]
      refine ⟨chars ++ front, chars', back, ?_, ?_, hstands.lexeme,
        .token hs hstands.lower hfirst, ?_, hstands.apart⟩
      · rw [hstands.parted, List.append_assoc]
      · rw [hstands.position, hlength]
      · rw [hlength]
        exact hstands.upper

theorem Divided.apart (h : Divided p text (before ++ token :: after)) :
    Apart token.symbol (after.map Token.symbol) := by
  obtain ⟨_, _, _, hstands⟩ := h.exists_stands
  exact hstands.apart

/-! ## Names -/

theorem CutOff.of_append {front before after : List Char} (h : CutOff (front ++ before) after) :
    CutOff before after := by
  refine ⟨fun c hc => h.left c ?_, h.right⟩
  rw [List.getLast?_append, hc]
  rfl

theorem CutOff.of_ink {before after : List Char} (h : CutOff (Text.ink before) (Text.ink after)) :
    CutOff before after := by
  constructor
  · intro c hc
    obtain ⟨init, rfl⟩ := List.getLast?_eq_some_iff.1 hc
    by_contra hname
    rw [Bool.not_eq_false] at hname
    have hlast : c ∈ (Text.ink (init ++ [c])).getLast? := by
      rw [Text.ink_append, Text.ink_cons (Token.not_isBlank_of_isNameChar hname)]
      exact List.getLast?_concat
    rw [h.left c hlast] at hname
    cases hname
  · intro c hc
    obtain ⟨tail, rfl⟩ := List.head?_eq_some_iff.1 hc
    by_contra hname
    rw [Bool.not_eq_false] at hname
    have hfirst : c ∈ (Text.ink (c :: tail)).head? := by
      rw [Text.ink_cons (Token.not_isBlank_of_isNameChar hname)]
      rfl
    rw [h.right c hfirst] at hname
    cases hname

theorem cutOff_of_apart {symbols symbols' : List Symbol} {n : Name}
    (hproper : Symbol.finish ∉ symbols ∧ Symbol.finish ∉ symbols')
    (hbefore : ∀ s ∈ symbols.getLast?, Apart s [.name n]) (hafter : Apart (.name n) symbols') :
    CutOff (symbols.flatMap Symbol.text) (symbols'.flatMap Symbol.text) := by
  constructor
  · intro c hc
    obtain rfl | ⟨init, s, rfl⟩ := symbols.eq_nil_or_concat'
    · cases hc
    · have hs : ∀ m, s ≠ .name m := by
        rintro m rfl
        exact hbefore _ List.getLast?_concat
      have htext : s.text ≠ [] := Symbol.text_ne_nil (by
        rintro rfl
        exact hproper.1 (List.mem_append_right _ List.mem_cons_self))
      rw [List.flatMap_append, List.flatMap_singleton, List.getLast?_append_of_ne_nil _ htext] at hc
      exact Symbol.isNameChar_of_mem hs (List.mem_of_getLast? hc)
  · intro c hc
    cases symbols' with
    | nil => cases hc
    | cons s symbols' =>
      have hs : ∀ m, s ≠ .name m := by
        rintro m rfl
        exact hafter
      have htext : s.text ≠ [] := Symbol.text_ne_nil (by
        rintro rfl
        exact hproper.2 List.mem_cons_self)
      rw [List.flatMap_cons, List.head?_append_of_ne_nil _ htext] at hc
      exact Symbol.isNameChar_of_mem hs (List.mem_of_head? hc)

theorem Divided.lexed (h : Divided p text ts) : Lexed (Text.ink text) (ts.map Token.symbol) := by
  have hproper : Symbol.finish ∉ ts.map Token.symbol := by
    intro hmem
    obtain ⟨token, htoken, hfinish⟩ := List.mem_map.1 hmem
    exact h.ne_finish token htoken hfinish
  refine ⟨h.flatMap_text, hproper, fun before n after hsymbols => ?_⟩
  rw [hsymbols, List.mem_append, List.mem_cons, not_or, not_or] at hproper
  obtain ⟨lower, upper, rfl, rfl, hupper⟩ := List.map_eq_append_iff.1 hsymbols
  obtain ⟨token, upper, rfl, htoken, rfl⟩ := List.map_eq_cons_iff.1 hupper
  apply cutOff_of_apart (n := n) ⟨hproper.1, hproper.2.2⟩
  · -- Looked at from the last token before it, the name is what follows.
    intro s hs
    obtain ⟨init, last, rfl, rfl⟩ : ∃ init last, lower = init ++ [last] ∧ last.symbol = s := by
      rw [List.getLast?_map] at hs
      obtain ⟨last, hlast, rfl⟩ := Option.map_eq_some_iff.1 hs
      obtain ⟨init, rfl⟩ := List.getLast?_eq_some_iff.1 hlast
      exact ⟨init, last, rfl, rfl⟩
    rw [List.append_assoc, List.singleton_append] at h
    have hapart : Apart last.symbol ([.name n] ++ upper.map Token.symbol) := by
      rw [← htoken]
      exact h.apart
    exact hapart.of_append
  · rw [← htoken]
    exact h.apart

end Divided

namespace Lexed

variable {chars : List Char} {s : Symbol} {symbols : List Symbol}

theorem tail (h : Lexed chars (s :: symbols)) : Lexed (symbols.flatMap Symbol.text) symbols := by
  refine ⟨rfl, fun hmem => h.proper (List.mem_cons_of_mem s hmem),
    fun before n after hsymbols => ?_⟩
  have hlongest := h.longest (s :: before) n after (by rw [hsymbols, List.cons_append])
  rw [List.flatMap_cons] at hlongest
  exact hlongest.of_append

theorem apart (h : Lexed chars (s :: symbols)) : Apart s symbols := by
  cases s with
  | name n =>
    cases symbols with
    | nil => trivial
    | cons s symbols =>
      cases s with
      | name m =>
        obtain ⟨c, tail, hm⟩ := List.exists_cons_of_ne_nil m.ne_nil
        have hc : isNameChar c = true := Name.isNameChar_of_mem (n := m) (by simp [hm])
        have hnext : c ∈ ((Symbol.name m :: symbols).flatMap Symbol.text).head? := by
          rw [List.flatMap_cons, Symbol.text, hm]
          rfl
        rw [(h.longest [] n _ rfl).right c hnext] at hc
        cases hc
      | op o | opening | closing | finish => trivial
  | op o | opening | closing | finish => trivial

theorem spelled (h : Lexed chars symbols) : Spelled chars symbols := by
  induction symbols generalizing chars with
  | nil =>
    rw [← h.covers]
    exact .nil
  | cons s symbols ih =>
    have hs : s ≠ .finish := by
      rintro rfl
      exact h.proper List.mem_cons_self
    rw [← h.covers, List.flatMap_cons]
    exact (ih h.tail).lexeme (Symbol.lexeme hs) h.apart

end Lexed

/-! ## Texts without tokens -/

namespace Token

variable {stop : Nat}

theorem exists_ofPieces_names {taken rest : List (Char × Nat)}
    (hnames : ∀ x ∈ taken, isNameChar x.1 = true)
    (h : ∃ ts, ofPieces stop (Piece.split rest) = .ok ts) :
    ∃ ts, ofPieces stop (Piece.split (taken ++ rest)) = .ok ts := by
  induction taken with
  | nil => exact h
  | cons x taken ih =>
    obtain ⟨c, p⟩ := x
    obtain ⟨hc, htaken⟩ := List.forall_mem_cons.1 hnames
    obtain ⟨ts, hts⟩ := ih htaken
    rw [List.cons_append, split_cons_name hc]
    exact ⟨_, ofPieces_name hc p hts⟩

theorem exists_ofPieces {symbols : List Symbol} (hproper : Symbol.finish ∉ symbols)
    {marked : List (Char × Nat)} (h : symbols.flatMap Symbol.text = marked.map Prod.fst) :
    ∃ ts, ofPieces stop (Piece.split marked) = .ok ts := by
  induction symbols generalizing marked with
  | nil =>
    obtain rfl := List.map_eq_nil_iff.1 h.symm
    exact ⟨_, rfl⟩
  | cons s symbols ih =>
    rw [List.mem_cons, not_or] at hproper
    rw [List.flatMap_cons] at h
    obtain ⟨taken, rest, rfl, htaken, hrest⟩ := List.map_eq_append_iff.1 h.symm
    obtain ⟨ts, hts⟩ := ih hproper.2 hrest.symm
    cases s with
    | op o =>
      obtain ⟨⟨c, p⟩, taken, rfl⟩ := List.exists_cons_of_ne_nil (l := taken) (by
        rintro rfl
        exact symbol_ne_nil o htaken.symm)
      rw [List.cons_append, split_op_append htaken, ofPieces, hts]
      exact ⟨_, rfl⟩
    | opening =>
      obtain ⟨⟨c, p⟩, rfl, rfl⟩ := List.map_eq_singleton_iff.1 htaken
      exact ⟨_, ofPieces_opening hts p⟩
    | closing =>
      obtain ⟨⟨c, p⟩, rfl, rfl⟩ := List.map_eq_singleton_iff.1 htaken
      exact ⟨_, ofPieces_closing hts p⟩
    | name n =>
      -- Its characters are read one by one, so it does not matter whether a name follows.
      refine exists_ofPieces_names (fun x hx => Name.isNameChar_of_mem (n := n) ?_) ⟨ts, hts⟩
      have hmem : x.1 ∈ taken.map Prod.fst := List.mem_map_of_mem hx
      rwa [htaken] at hmem
    | finish => exact absurd rfl hproper.1

theorem exists_scan_iff_lexable {text : List Char} : (∃ ts, scan text = .ok ts) ↔
    (∀ p, ¬ SplitsName text p) ∧ Lexable (Text.ink text) := by
  constructor
  · rintro ⟨ts, hts⟩
    obtain ⟨body, hbody, -⟩ := scan_eq_ok_iff.1 hts
    have hwhole := splitName?_eq_none_iff.1 (splitName?_of_divided hbody none (Or.inl rfl))
    exact ⟨hwhole, _, hbody.lexed.proper, hbody.lexed.covers⟩
  · rintro ⟨hwhole, symbols, hproper, hsymbols⟩
    rw [scan, splitName?_eq_none_iff.2 hwhole]
    exact exists_ofPieces hproper (hsymbols.trans (Text.map_fst_inked text).symm)

theorem exists_scan_error_iff {text : List Char} : (∃ e, scan text = .error e) ↔
    (∃ p, SplitsName text p) ∨ ¬ Lexable (Text.ink text) := by
  have hfails : (∃ e, scan text = .error e) ↔ ¬ ∃ ts, scan text = .ok ts := by
    cases scan text <;> simp
  rw [hfails, exists_scan_iff_lexable, not_and_or, not_forall]
  simp only [not_not]

/-! ## The whole text -/

/-- The tokens without the finishing one are the text, at its places. -/
structure Faithful (text : List Char) (body : List Token) : Prop where
  lexed : Lexed (Text.ink text) (body.map symbol)
  unique : ∀ symbols, Lexed (Text.ink text) symbols → symbols = body.map symbol
  increasing : (body.map position ++ [text.length]).Pairwise (· < ·)
  /-- A token stands where its first character does, behind the characters of those before it. -/
  placed : ∀ before token after, body = before ++ token :: after →
    text[token.position]? = token.symbol.text.head? ∧
      Text.ink (text.take token.position) = (before.map symbol).flatMap Symbol.text
  /-- The characters of a name follow each other in the text, and no other one belongs to them. -/
  names : ∀ n p, ⟨.name n, p⟩ ∈ body → ∃ before after,
    text = before ++ (n.chars ++ after) ∧ before.length = p ∧ CutOff before after

theorem placed_of_stands {text front chars back : List Char} {before after : List Token}
    {token : Token} (h : Stands 0 text before token after front chars back) :
    text[token.position]? = token.symbol.text.head? ∧
      Text.ink (text.take token.position) = (before.map symbol).flatMap Symbol.text := by
  have hposition : token.position = front.length := h.position.trans (Nat.zero_add _)
  obtain ⟨c, tail, hchars, -⟩ := h.lexeme.exists_cons
  constructor
  · rw [hposition, ← h.lexeme.head?_eq, h.parted, List.getElem?_append_right (Nat.le_refl _),
      Nat.sub_self, hchars]
    rfl
  · rw [hposition, h.parted, List.take_left, h.lower.flatMap_text]

theorem faithful_of_divided {text : List Char} {body : List Token} (h : Divided 0 text body) :
    Faithful text body := by
  refine ⟨h.lexed, fun symbols hsymbols => hsymbols.spelled.unique h.lexed.spelled, ?increasing,
    fun before token after hbody => ?placed, fun n p hname => ?names⟩
  case increasing =>
    have hscan := increasing_scan (scan_eq_ok_iff.2 ⟨body, h, rfl⟩)
    rwa [List.map_append] at hscan
  case placed =>
    subst hbody
    obtain ⟨front, chars, back, hstands⟩ := h.exists_stands
    exact placed_of_stands hstands
  case names =>
    obtain ⟨before, after, rfl⟩ := List.append_of_mem hname
    obtain ⟨front, chars, back, hstands⟩ := h.exists_stands
    have hlongest := h.lexed.longest (before.map symbol) n (after.map symbol) (by simp)
    rw [hstands.lower.flatMap_text, hstands.upper.flatMap_text] at hlongest
    obtain rfl : chars = n.chars := by
      cases hstands.lexeme
      rfl
    have hposition : p = front.length := hstands.position.trans (Nat.zero_add _)
    exact ⟨front, back, hstands.parted, hposition.symm, hlongest.of_ink⟩

/-- **Tokens are faithful to the text.** A text has none exactly if blanks stand between two
characters of names or what is not blank is no sequence of symbols. -/
theorem scan_faithful (text : List Char) :
    ((∃ e, scan text = .error e) ↔ (∃ p, SplitsName text p) ∨ ¬ Lexable (Text.ink text)) ∧
    ∀ ts, scan text = .ok ts →
      ∃ body, ts = body ++ [⟨.finish, text.length⟩] ∧ Faithful text body := by
  refine ⟨exists_scan_error_iff, fun ts hts => ?_⟩
  obtain ⟨body, hbody, rfl⟩ := scan_eq_ok_iff.1 hts
  exact ⟨body, rfl, faithful_of_divided hbody⟩

/-- The tokens of `p1 < ->q` but for the finishing one. -/
def blanksInside : List Token :=
  [⟨.name ⟨['p', '1'], rfl⟩, 0⟩, ⟨.op (.binary .equi), 3⟩, ⟨.name (.ofChar 'q' rfl), 7⟩]

theorem scan_faithful_blanksInside :
    scan ['p', '1', ' ', '<', ' ', '-', '>', 'q'] = .ok (blanksInside ++ [⟨.finish, 8⟩]) ∧
      Faithful ['p', '1', ' ', '<', ' ', '-', '>', 'q'] blanksInside := by
  have hscan : scan ['p', '1', ' ', '<', ' ', '-', '>', 'q'] =
      .ok (blanksInside ++ [⟨.finish, 8⟩]) := rfl
  obtain ⟨body, hbody, hfaithful⟩ := (scan_faithful _).2 _ hscan
  obtain rfl : blanksInside = body := List.append_cancel_right hbody
  exact ⟨hscan, hfaithful⟩

end Token

end KripkeLogic
