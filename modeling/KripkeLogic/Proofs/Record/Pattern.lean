import KripkeLogic.Proofs.Record
import Mathlib.Computability.Language

/-!
# The pattern of a model as text

Single records and the texts made of them are the words of regular expressions.
-/

namespace KripkeLogic

open scoped Computability

namespace Record

/-! ## The languages -/

def itemPattern (isItem : List Char → Bool) : Language Char := {x | isItem x = true}

def listPattern (isItem : List Char → Bool) : Language Char :=
  1 + itemPattern isItem * ({[',']} * itemPattern isItem)∗

def recordPattern : Language Char :=
  {['A']} * listPattern isName * {['P']} * listPattern isIndex * {['R']} * listPattern isIndex

def textPattern : Language Char := ((1 + recordPattern) * {[';']})∗

/-! ## Members of the languages -/

theorem mem_singleton {w x : List Char} : w ∈ ({x} : Language Char) ↔ w = x := Iff.rfl

theorem mem_kstar_iff_flatMap {β : Type} {l : Language Char} {p : β → Prop} {f : β → List Char}
    (h : ∀ w, w ∈ l ↔ ∃ b, p b ∧ w = f b) {w : List Char} :
    w ∈ l∗ ↔ ∃ bs : List β, (∀ b ∈ bs, p b) ∧ w = bs.flatMap f := by
  rw [Language.mem_kstar]
  constructor
  · rintro ⟨ws, rfl, hws⟩
    induction ws with
    | nil => exact ⟨[], by simp, rfl⟩
    | cons w ws ih =>
      obtain ⟨hw, htail⟩ := List.forall_mem_cons.1 hws
      obtain ⟨b, hb, rfl⟩ := (h w).1 hw
      obtain ⟨bs, hbs, hflat⟩ := ih htail
      exact ⟨b :: bs, List.forall_mem_cons.2 ⟨hb, hbs⟩, by rw [List.flatten_cons, hflat]; rfl⟩
  · rintro ⟨bs, hbs, rfl⟩
    refine ⟨bs.map f, rfl, fun w hw => ?_⟩
    obtain ⟨b, hb, rfl⟩ := List.mem_map.1 hw
    exact (h _).2 ⟨b, hbs b hb, rfl⟩

theorem join_cons (c : Char) (f : List Char) (fs : List (List Char)) :
    Text.join c (f :: fs) = f ++ fs.flatMap (c :: ·) := by
  induction fs generalizing f with
  | nil => simp [Text.join]
  | cons g gs ih => rw [Text.join, ih g, List.flatMap_cons, List.cons_append]; simp

theorem mem_listPattern {isItem : List Char → Bool} {w : List Char} : w ∈ listPattern isItem ↔
    ∃ xs : List (List Char), (∀ x ∈ xs, isItem x = true) ∧ w = Text.join ',' xs := by
  have hitem : ∀ w, w ∈ {[',']} * itemPattern isItem ↔ ∃ x, isItem x = true ∧ w = ',' :: x := by
    intro w
    rw [Language.mem_mul]
    constructor
    · rintro ⟨_, rfl, x, hx, rfl⟩
      exact ⟨x, hx, rfl⟩
    · rintro ⟨x, hx, rfl⟩
      exact ⟨[','], rfl, x, hx, rfl⟩
  rw [listPattern, Language.mem_add, Language.mem_one, Language.mem_mul]
  constructor
  · rintro (rfl | ⟨x, hx, tail, htail, rfl⟩)
    · exact ⟨[], by simp, rfl⟩
    · obtain ⟨xs, hxs, rfl⟩ := (mem_kstar_iff_flatMap hitem).1 htail
      exact ⟨x :: xs, List.forall_mem_cons.2 ⟨hx, hxs⟩, (join_cons ',' x xs).symm⟩
  · rintro ⟨_ | ⟨x, xs⟩, hxs, rfl⟩
    · exact Or.inl rfl
    · obtain ⟨hx, hxs⟩ := List.forall_mem_cons.1 hxs
      have htail := (mem_kstar_iff_flatMap hitem).2 ⟨xs, hxs, rfl⟩
      exact Or.inr ⟨x, hx, _, htail, (join_cons ',' x xs).symm⟩

theorem mem_recordPattern {w : List Char} :
    w ∈ recordPattern ↔ ∃ d : Draft, d.Legal ∧ w = d.write := by
  simp only [recordPattern, Language.mem_mul, mem_listPattern, mem_singleton]
  constructor
  · rintro ⟨_, ⟨_, ⟨_, ⟨_, ⟨_, rfl, _, ⟨names, hnames, rfl⟩, rfl⟩, _, rfl, rfl⟩, _,
      ⟨preorders, hpreorders, rfl⟩, rfl⟩, _, rfl, rfl⟩, _, ⟨relations, hrelations, rfl⟩, rfl⟩
    exact ⟨⟨names, preorders, relations⟩, ⟨hnames, hpreorders, hrelations⟩, by simp [Draft.write]⟩
  · rintro ⟨d, hd, rfl⟩
    refine ⟨_, ⟨_, ⟨_, ⟨_, ⟨_, rfl, _, ⟨d.names, hd.names, rfl⟩, rfl⟩, _, rfl, rfl⟩, _,
      ⟨d.preorders, hd.preorders, rfl⟩, rfl⟩, _, rfl, rfl⟩, _, ⟨d.relations, hd.relations, rfl⟩, ?_⟩
    simp [Draft.write]

theorem mem_textPattern {w : List Char} : w ∈ textPattern ↔ ∃ ds, Follows w ds := by
  have hslot : ∀ w, w ∈ ((1 + recordPattern) * {[';']} : Language Char) ↔
      ∃ o : Option Draft, (∀ d, o = some d → d.Legal) ∧ w = slotText o ++ [';'] := by
    intro w
    rw [Language.mem_mul]
    constructor
    · rintro ⟨chunk, hchunk, _, rfl, rfl⟩
      rw [Language.mem_add, Language.mem_one, mem_recordPattern] at hchunk
      rcases hchunk with rfl | ⟨d, hd, rfl⟩
      · exact ⟨none, by simp, rfl⟩
      · exact ⟨some d, by simpa using hd, rfl⟩
    · rintro ⟨_ | d, hd, rfl⟩
      · exact ⟨[], Or.inl rfl, [';'], rfl, rfl⟩
      · exact ⟨d.write, Or.inr (mem_recordPattern.2 ⟨d, hd d rfl, rfl⟩), [';'], rfl, rfl⟩
  rw [textPattern, mem_kstar_iff_flatMap hslot]
  constructor
  · rintro ⟨ds, hds, rfl⟩
    exact ⟨ds, fun d hd => hds _ hd d rfl, rfl⟩
  · rintro ⟨ds, hlegal, rfl⟩
    exact ⟨ds, fun o ho d hd => hlegal d (hd ▸ ho), rfl⟩

end Record

/-! ## Plain decimal indices -/

namespace Text

variable {c : Char} {x : List Char}

/-- ASCII digits, with no zero in front of others. -/
structure Plain (x : List Char) : Prop where
  digits : ∀ c ∈ x, c.isDigit = true
  leading : x.head? = some '0' → x = ['0']

theorem digitChar_of_isDigit (h : c.isDigit = true) :
    c.toNat - 48 < 10 ∧ Nat.digitChar (c.toNat - 48) = c := by
  have hc : 48 ≤ c.toNat ∧ c.toNat ≤ 57 := Char.isDigit_iff_toNat.1 h
  have hlt : c.toNat - 48 < 10 := by omega
  refine ⟨hlt, Char.toNat_inj.1 ?_⟩
  rw [Nat.toNat_digitChar_of_lt_ten hlt]
  omega

theorem toDigits_ofDigitChars (h : ∀ c ∈ x, c.isDigit = true) {n : Nat} (hn : 0 < n) :
    Nat.toDigits 10 (Nat.ofDigitChars 10 x n) = Nat.toDigits 10 n ++ x := by
  induction x generalizing n with
  | nil => simp
  | cons c x ih =>
    obtain ⟨hc, hx⟩ := List.forall_mem_cons.1 h
    obtain ⟨hlt, hchar⟩ := digitChar_of_isDigit hc
    calc Nat.toDigits 10 (Nat.ofDigitChars 10 (c :: x) n)
        = Nat.toDigits 10 (Nat.ofDigitChars 10 x (10 * n + (c.toNat - 48))) := by
          rw [Nat.ofDigitChars_cons]; rfl
      _ = Nat.toDigits 10 (10 * n + (c.toNat - 48)) ++ x := ih hx (by omega)
      _ = Nat.toDigits 10 n ++ [c] ++ x := by
          rw [← Nat.toDigits_append_toDigits (by decide) hn hlt, Nat.toDigits_of_lt_base hlt, hchar]
      _ = Nat.toDigits 10 n ++ c :: x := by simp

theorem plain_toDigits (n : Nat) : Plain (Nat.toDigits 10 n) := by
  refine ⟨fun c => isDigit_of_mem_toDigits, fun hhead => ?_⟩
  obtain ⟨tail, htail⟩ := List.head?_eq_some_iff.1 hhead
  have hvalue : decimalValue tail = n := by
    rw [← decimalValue_toDigits n, htail]
    rfl
  rcases Nat.eq_zero_or_pos tail.length with hnil | hpos
  · rw [htail, List.eq_nil_of_length_eq_zero hnil]
  · -- The digits behind the zero have the whole value, so it has no more digits than they are.
    have hlength : (Nat.toDigits 10 n).length ≤ tail.length := by
      rw [length_toDigits_le_iff hpos, ← hvalue]
      exact decimalValue_lt tail
    rw [htail, List.length_cons] at hlength
    omega

theorem toDigits_decimalValue_iff (hx : x ≠ []) :
    Nat.toDigits 10 (decimalValue x) = x ↔ Plain x := by
  constructor
  · intro h
    rw [← h]
    exact plain_toDigits _
  · intro h
    rw [decimalValue_of_isDigit h.digits]
    obtain ⟨c, tail, rfl⟩ := List.exists_cons_of_ne_nil hx
    obtain ⟨hc, htail⟩ := List.forall_mem_cons.1 h.digits
    obtain ⟨hlt, hchar⟩ := digitChar_of_isDigit hc
    rcases Nat.eq_zero_or_pos (c.toNat - 48) with hzero | hpos
    · rw [hzero] at hchar
      have hsingle : c :: tail = ['0'] := h.leading (congrArg some hchar.symm)
      rw [hsingle]
      rfl
    · have hfirst :
          Nat.ofDigitChars 10 (c :: tail) 0 = Nat.ofDigitChars 10 tail (c.toNat - 48) := by
        rw [Nat.ofDigitChars_cons, Nat.mul_zero, Nat.zero_add]
        rfl
      rw [hfirst, toDigits_ofDigitChars htail hpos, Nat.toDigits_of_lt_base hlt, hchar]
      rfl

end Text

/-! ## Normal form -/

namespace Record

namespace Draft

def plain (d : Draft) : Draft where
  names := d.names
  preorders := d.preorders.map fun x => Nat.toDigits 10 (Text.decimalValue x)
  relations := d.relations.map fun x => Nat.toDigits 10 (Text.decimalValue x)

theorem drafted_value (d : Draft) : d.value.drafted = d.plain := by
  rw [drafted, value, map_writeIndex, map_writeIndex, plain]

theorem Legal.plain {d : Draft} (h : d.Legal) : d.plain.Legal :=
  ⟨h.names, isIndex_of_mem_map Text.decimalValue _, isIndex_of_mem_map Text.decimalValue _⟩

theorem Legal.ne_nil {d : Draft} (h : d.Legal) {x : List Char} (hx : x ∈ d.indices) : x ≠ [] := by
  rcases List.mem_append.1 hx with hx | hx
  · exact (isIndex_iff.1 (h.preorders x hx)).1
  · exact (isIndex_iff.1 (h.relations x hx)).1

theorem plain_eq_self_iff {d : Draft} (h : d.Legal) :
    d.plain = d ↔ ∀ x ∈ d.indices, Text.Plain x := by
  have hmap : ∀ xs : List (List Char),
      xs.map (fun x => Nat.toDigits 10 (Text.decimalValue x)) = xs ↔
        ∀ x ∈ xs, Nat.toDigits 10 (Text.decimalValue x) = x := by
    intro xs
    conv_lhs => rhs; rw [← List.map_id xs]
    exact List.map_inj_left
  have hplain : d.plain = d ↔ ∀ x ∈ d.indices, Nat.toDigits 10 (Text.decimalValue x) = x := by
    obtain ⟨names, preorders, relations⟩ := d
    simp only [plain, mk.injEq, true_and, hmap, indices, List.forall_mem_append]
  rw [hplain]
  exact forall₂_congr fun x hx => Text.toDigits_decimalValue_iff (h.ne_nil hx)

end Draft

variable {text : List Char} {ds : List (Option Draft)}

theorem encode_values (ds : List (Option Draft)) :
    encode (values ds) = textOf (ds.map (Option.map Draft.plain)) := by
  rw [encode_eq_textOf, values, List.map_map]
  refine congrArg textOf (List.map_congr_left fun o _ => ?_)
  cases o with
  | none => rfl
  | some d => exact congrArg some d.drafted_value

theorem follows_encode_values (h : Follows text ds) :
    Follows (encode (values ds)) (ds.map (Option.map Draft.plain)) := by
  rw [encode_values]
  exact follows_textOf_map fun d hd => (h.legal d hd).plain

theorem encode_values_eq_self_iff (h : Follows text ds) :
    encode (values ds) = text ↔ ∀ x ∈ indices ds, Text.Plain x := by
  have hsame : encode (values ds) = text ↔ ds.map (Option.map Draft.plain) = ds := by
    constructor
    · intro heq
      exact (heq ▸ follows_encode_values h).unique h
    · intro heq
      rw [encode_values, heq, h.text_eq]
  have hslots : ds.map (Option.map Draft.plain) = ds ↔ ∀ d, some d ∈ ds → d.plain = d := by
    conv_lhs => rhs; rw [← List.map_id ds]
    rw [List.map_inj_left]
    constructor
    · intro hall d hd
      exact Option.some.inj (hall _ hd)
    · rintro hall (_ | d) hd
      · rfl
      · exact congrArg some (hall d hd)
  rw [hsame, hslots]
  constructor
  · intro hall x hx
    obtain ⟨d, hd, hxd⟩ := mem_indices_iff.1 hx
    exact (Draft.plain_eq_self_iff (h.legal d hd)).1 (hall d hd) x hxd
  · intro hall d hd
    exact (Draft.plain_eq_self_iff (h.legal d hd)).2 fun x hx =>
      hall x (mem_indices_iff.2 ⟨d, hd, hx⟩)

/-! ## Reading by the pattern -/

theorem cut_textOf (h : ∀ d, some d ∈ ds → d.Legal) :
    Text.cut ';' (textOf ds) = ds.map slotText ++ [[]] := by
  induction ds with
  | nil => rfl
  | cons o ds ih =>
    have hslot : ';' ∉ slotText o := by
      cases o with
      | none => exact List.not_mem_nil
      | some d => exact Draft.not_mem_write (h d List.mem_cons_self)
    have htext : textOf (o :: ds) = slotText o ++ ';' :: textOf ds := by simp [textOf]
    rw [htext, Text.cut_append hslot, ih fun d hd => h d (List.mem_cons_of_mem o hd)]
    rfl

/-- How a text of the pattern is divided, read and written again. -/
structure Division (text : List Char) (ds : List (Option Draft)) : Prop where
  follows : Follows text ds
  only : ∀ ds', Follows text ds' → ds' = ds
  /-- Nothing stands behind the last semicolon. -/
  chunks : Text.cut ';' text = ds.map slotText ++ [[]]
  matched : ∀ chunk ∈ ds.map slotText, chunk = [] ∨ chunk ∈ recordPattern
  decoded : decode text = .ok (values ds)
  again : decode (encode (values ds)) = decode text
  written : encode (values ds) = text ↔ ∀ x ∈ indices ds, Text.Plain x

theorem division_of_follows (h : Follows text ds)
    (hshort : ∀ x ∈ indices ds, x.length ≤ digitLimit) : Division text ds := by
  have hdecoded : decode text = .ok (values ds) := decode_eq_ok_iff.2 ⟨ds, h, hshort, rfl⟩
  refine ⟨h, fun ds' h' => h'.unique h, ?_, fun chunk hchunk => ?_, hdecoded, ?_,
    encode_values_eq_self_iff h⟩
  · rw [h.text_eq]
    exact cut_textOf h.legal
  · obtain ⟨_ | d, hd, rfl⟩ := List.mem_map.1 hchunk
    · exact Or.inl rfl
    · exact Or.inr (mem_recordPattern.2 ⟨d, h.legal d hd, rfl⟩)
  · rw [hdecoded]
    exact decode_encode (legal_of_decode hdecoded)

/-- **A text is read exactly if it matches the pattern**, as its one division into records. What is
written again has plain decimal indices. -/
theorem decode_pattern (hshort : ∀ ds, Follows text ds → ∀ x ∈ indices ds, x.length ≤ digitLimit) :
    ((∃ rs, decode text = .ok rs) ↔ text ∈ textPattern) ∧
      (text ∈ textPattern → ∃ ds, Division text ds) ∧
      (text ∉ textPattern → decode text = .error (.malformed (.text text))) := by
  refine ⟨?_, fun htext => ?_, fun htext => ?_⟩
  · rw [mem_textPattern]
    constructor
    · rintro ⟨rs, hrs⟩
      obtain ⟨ds, hds, -⟩ := decode_eq_ok_iff.1 hrs
      exact ⟨ds, hds⟩
    · rintro ⟨ds, hds⟩
      exact ⟨values ds, decode_eq_ok_iff.2 ⟨ds, hds, hshort ds hds, rfl⟩⟩
  · obtain ⟨ds, hds⟩ := mem_textPattern.1 htext
    exact ⟨ds, division_of_follows hds (hshort ds hds)⟩
  · exact decode_of_not_follows fun ds hds => htext (mem_textPattern.2 ⟨ds, hds⟩)

/-- A name that looks like markers, an index with zeros in front and one in Arabic digits. -/
def mixedText : List Char := ['A', 'A', 'P', 'P', '0', '0', '7', 'R', '\u0663', ';', ';']

theorem decode_pattern_mixedText :
    (∀ ds, Follows mixedText ds → ∀ x ∈ indices ds, x.length ≤ digitLimit) ∧
      decode mixedText = .ok [some ⟨[['A', 'P']], [7], [3]⟩, none] ∧
      mixedText ∈ textPattern ∧ ∃ ds, Division mixedText ds := by
  have hdrafts : drafts? mixedText =
      some [some ⟨[['A', 'P']], [['0', '0', '7']], [['\u0663']]⟩, none] := rfl
  have hshort : ∀ ds, Follows mixedText ds → ∀ x ∈ indices ds, x.length ≤ digitLimit := by
    intro ds hds
    rw [← drafts?_eq_some_iff, hdrafts] at hds
    cases hds
    exact List.forall_mem_cons.2 ⟨by decide, List.forall_mem_singleton.2 (by decide)⟩
  obtain ⟨haccepted, hdivided, -⟩ := decode_pattern hshort
  have hread : decode mixedText = .ok [some ⟨[['A', 'P']], [7], [3]⟩, none] := rfl
  have hmatch : mixedText ∈ textPattern := haccepted.1 ⟨_, hread⟩
  exact ⟨hshort, hread, hmatch, hdivided hmatch⟩

end Record

end KripkeLogic
