import KripkeLogic.Proofs.Record.Grammar

/-! # Records are read back -/

namespace KripkeLogic

open Outcome

namespace Text

variable {c : Char} {cs : List Char}

/-! ## Digits -/

theorem digitValue?_of_isDigit (h : c.isDigit = true) : digitValue? c = some (c.toNat - 48) := by
  have hc : 48 ≤ c.toNat ∧ c.toNat ≤ 57 := Char.isDigit_iff_toNat.1 h
  have hzero : (decide (48 ≤ c.toNat) && decide (c.toNat < 48 + 10)) = true := by
    rw [Bool.and_eq_true, decide_eq_true_eq, decide_eq_true_eq]
    omega
  rw [digitValue?, digitOf, digitZeros, List.find?_cons, hzero]
  rfl

theorem decimalValue_of_isDigit (h : ∀ c ∈ cs, c.isDigit = true) :
    decimalValue cs = Nat.ofDigitChars 10 cs 0 := by
  unfold decimalValue Nat.ofDigitChars
  suffices hfold : ∀ v, cs.foldl (fun v c => 10 * v + (digitValue? c).getD 0) v =
      cs.foldl (fun v c => 10 * v + (c.toNat - '0'.toNat)) v from hfold 0
  intro v
  induction cs generalizing v with
  | nil => rfl
  | cons c cs ih =>
    obtain ⟨hc, hcs⟩ := List.forall_mem_cons.1 h
    rw [List.foldl_cons, List.foldl_cons, digitValue?_of_isDigit hc]
    exact ih hcs _

theorem isDigit_of_mem_toDigits {n : Nat} (h : c ∈ Nat.toDigits 10 n) : c.isDigit = true :=
  Nat.isDigit_of_mem_toDigits (by omega) (by omega) h

theorem decimalValue_toDigits (n : Nat) : decimalValue (Nat.toDigits 10 n) = n := by
  rw [decimalValue_of_isDigit fun c => isDigit_of_mem_toDigits]
  exact Nat.ofDigitChars_toDigits (by omega) (by omega)

theorem length_toDigits_le_iff {n k : Nat} (hk : 0 < k) :
    (Nat.toDigits 10 n).length ≤ k ↔ n < Nat.pow 10 k :=
  Nat.length_toDigits_le_iff (by omega) hk

theorem decimalValue_lt (cs : List Char) : decimalValue cs < Nat.pow 10 cs.length := by
  have hfold : ∀ v, cs.foldl (fun v c => 10 * v + (digitValue? c).getD 0) v <
      (v + 1) * Nat.pow 10 cs.length := by
    induction cs with
    | nil => simp
    | cons c cs ih =>
      intro v
      have hdigit : (digitValue? c).getD 0 < 10 := by
        cases h : digitValue? c with
        | none => decide
        | some d => exact digitValue?_lt h
      have hle : 10 * v + (digitValue? c).getD 0 + 1 ≤ (v + 1) * 10 := by omega
      have hpow : Nat.pow 10 (c :: cs).length = 10 * Nat.pow 10 cs.length :=
        Nat.mul_comm (Nat.pow 10 cs.length) 10
      calc (c :: cs).foldl (fun v c => 10 * v + (digitValue? c).getD 0) v
          < (10 * v + (digitValue? c).getD 0 + 1) * Nat.pow 10 cs.length := ih _
        _ ≤ (v + 1) * 10 * Nat.pow 10 cs.length := Nat.mul_le_mul_right _ hle
        _ = (v + 1) * Nat.pow 10 (c :: cs).length := by rw [hpow, Nat.mul_assoc]
  simpa [decimalValue] using hfold 0

theorem decimalValue_lt_of_length_le {n : Nat} (h : cs.length ≤ n) :
    decimalValue cs < Nat.pow 10 n :=
  Nat.lt_of_lt_of_le (decimalValue_lt cs) (Nat.pow_le_pow_right (by omega) h)

end Text

namespace Record

/-! ## Indices -/

theorem isIndex_toDigits (n : Nat) : isIndex (Nat.toDigits 10 n) = true := by
  rw [isIndex_iff]
  constructor
  · exact List.ne_nil_of_length_pos Nat.length_toDigits_pos
  · intro c hc
    rw [Text.isDecimal, Text.digitValue?_of_isDigit (Text.isDigit_of_mem_toDigits hc)]
    rfl

theorem writeIndex_of_nonneg {t : Int} (h : 0 ≤ t) : writeIndex t = Nat.toDigits 10 t.natAbs :=
  if_neg (Int.not_lt.2 h)

section Decimals

variable {α : Type} (f : α → Nat) (xs : List α)

theorem isIndex_of_mem_map : ∀ x ∈ xs.map (fun a => Nat.toDigits 10 (f a)), isIndex x = true := by
  intro x hx
  obtain ⟨a, -, rfl⟩ := List.mem_map.1 hx
  exact isIndex_toDigits (f a)

theorem map_writeIndex :
    (xs.map fun a => (f a : Int)).map writeIndex = xs.map fun a => Nat.toDigits 10 (f a) := by
  rw [List.map_map]
  exact List.map_congr_left fun a _ => writeIndex_of_nonneg (Int.natCast_nonneg (f a))

end Decimals

/-- The index can be written and is short enough to be read. -/
def Readable (t : Int) : Prop := 0 ≤ t ∧ t.natAbs < Nat.pow 10 digitLimit

namespace Readable

variable {t : Int}

theorem length_le (h : Readable t) : (writeIndex t).length ≤ digitLimit := by
  rw [writeIndex_of_nonneg h.1]
  exact (Text.length_toDigits_le_iff (by decide)).2 h.2

theorem decimalValue_eq (h : Readable t) : (Text.decimalValue (writeIndex t) : Int) = t := by
  rw [writeIndex_of_nonneg h.1, Text.decimalValue_toDigits]
  exact Int.natAbs_of_nonneg h.1

end Readable

/-! ## Legal records -/

/-- The names can be told from the rest, and the indices can be read. -/
structure Legal (r : Record) : Prop where
  names : ∀ x ∈ r.names, isName x = true
  preorders : ∀ t ∈ r.preorders, Readable t
  relations : ∀ t ∈ r.relations, Readable t

def drafted (r : Record) : Draft :=
  ⟨r.names, r.preorders.map writeIndex, r.relations.map writeIndex⟩

variable {r : Record} {rs : List (Option Record)}

theorem legal_drafted_of_nonneg (hnames : ∀ x ∈ r.names, isName x = true)
    (hpreorders : ∀ t ∈ r.preorders, 0 ≤ t) (hrelations : ∀ t ∈ r.relations, 0 ≤ t) :
    r.drafted.Legal := by
  have hindex : ∀ {ts : List Int}, (∀ t ∈ ts, 0 ≤ t) →
      ∀ x ∈ ts.map writeIndex, isIndex x = true := by
    intro ts hts x hx
    obtain ⟨t, ht, rfl⟩ := List.mem_map.1 hx
    rw [writeIndex_of_nonneg (hts t ht)]
    exact isIndex_toDigits _
  exact ⟨hnames, hindex hpreorders, hindex hrelations⟩

theorem legal_drafted (h : r.Legal) : r.drafted.Legal :=
  legal_drafted_of_nonneg h.names (fun t ht => (h.preorders t ht).1)
    fun t ht => (h.relations t ht).1

theorem value_drafted (h : r.Legal) : r.drafted.value = r := by
  have hvalue : ∀ {ts : List Int}, (∀ t ∈ ts, Readable t) →
      (ts.map writeIndex).map (fun x => (Text.decimalValue x : Int)) = ts := by
    intro ts hts
    rw [List.map_map]
    exact (List.map_congr_left fun t ht => (hts t ht).decimalValue_eq).trans (List.map_id ts)
  rw [drafted, Draft.value, hvalue h.preorders, hvalue h.relations]

theorem length_le_of_legal (h : r.Legal) : ∀ x ∈ r.drafted.indices, x.length ≤ digitLimit := by
  intro x hx
  rcases List.mem_append.1 hx with hx | hx
  all_goals obtain ⟨t, ht, rfl⟩ := List.mem_map.1 hx
  · exact (h.preorders t ht).length_le
  · exact (h.relations t ht).length_le

theorem encode_eq_textOf (rs : List (Option Record)) :
    encode rs = textOf (rs.map (Option.map drafted)) := by
  rw [encode, textOf, List.flatMap_map]
  refine List.flatMap_congr fun o _ => ?_
  cases o <;> rfl

theorem cutClosed?_encode (h : ∀ r, some r ∈ rs → r.drafted.Legal) :
    Text.cutClosed? ';' (encode rs) = some (rs.map writeSlot) := by
  rw [Text.cutClosed?_eq_some_iff]
  refine ⟨fun f hf => ?_, by rw [encode, List.flatMap_map]⟩
  obtain ⟨o, ho, rfl⟩ := List.mem_map.1 hf
  cases o with
  | none => exact List.not_mem_nil
  | some r => exact Draft.not_mem_write (h r ho)

theorem follows_encode (h : ∀ r, some r ∈ rs → r.Legal) :
    Follows (encode rs) (rs.map (Option.map drafted)) := by
  rw [encode_eq_textOf]
  exact follows_textOf_map fun r hr => legal_drafted (h r hr)

/-- **Legal records are read back**, with the removed ones between them. -/
theorem decode_encode (h : ∀ r, some r ∈ rs → r.Legal) : decode (encode rs) = .ok rs := by
  refine decode_eq_ok_iff.2 ⟨_, follows_encode h, ?_, ?_⟩
  · intro x hx
    obtain ⟨d, hd, hx⟩ := mem_indices_iff.1 hx
    obtain ⟨r, hr, rfl⟩ := some_mem_map_iff.1 hd
    exact length_le_of_legal (h r hr) x hx
  · rw [values, List.map_map]
    refine (List.map_congr_left fun o ho => ?_).trans (List.map_id rs)
    cases o with
    | none => rfl
    | some r => exact congrArg some (value_drafted (h r ho))

theorem legal_value {d : Draft} (h : d.Legal) (hshort : ∀ x ∈ d.indices, x.length ≤ digitLimit) :
    d.value.Legal := by
  have hread : ∀ xs : List (List Char), (∀ x ∈ xs, x ∈ d.indices) →
      ∀ t ∈ xs.map (fun x => (Text.decimalValue x : Int)), Readable t := by
    intro xs hxs t ht
    obtain ⟨x, hx, rfl⟩ := List.mem_map.1 ht
    exact ⟨Int.natCast_nonneg _, Text.decimalValue_lt_of_length_le (hshort x (hxs x hx))⟩
  exact ⟨h.names, hread d.preorders fun x hx => List.mem_append_left _ hx,
    hread d.relations fun x hx => List.mem_append_right _ hx⟩

theorem legal_of_decode {text : List Char} (h : decode text = .ok rs) :
    ∀ r, some r ∈ rs → r.Legal := by
  obtain ⟨ds, hfollows, hshort, rfl⟩ := decode_eq_ok_iff.1 h
  intro r hr
  obtain ⟨d, hd, rfl⟩ := some_mem_map_iff.1 hr
  exact legal_value (hfollows.legal d hd) fun x hx => hshort x (mem_indices_iff.2 ⟨d, hd, hx⟩)

/-- **Records are read back exactly if they are legal**, and then what is written follows the
grammar with no other records. -/
theorem encode_unambiguous (rs : List (Option Record)) :
    (decode (encode rs) = .ok rs ↔ ∀ r, some r ∈ rs → r.Legal) ∧
      ((∀ r, some r ∈ rs → r.Legal) →
        ∀ ds, Follows (encode rs) ds ↔ ds = rs.map (Option.map drafted)) := by
  refine ⟨⟨legal_of_decode, decode_encode⟩, fun h ds => ⟨fun hds => ?_, ?_⟩⟩
  · exact hds.unique (follows_encode h)
  · rintro rfl
    exact follows_encode h

def markers : Record := ⟨[['A', 'P', '0', 'R'], ['P', '1', 'R', '2'], ['R']], [0, 12], [7, 7]⟩

theorem encode_unambiguous_markers : (∀ r, some r ∈ [none, some markers] → r.Legal) ∧
    decode (encode [none, some markers]) = .ok [none, some markers] ∧
    ∀ ds, Follows (encode [none, some markers]) ds ↔ ds = [none, some markers.drafted] := by
  have hindex : ∀ x : List Char, x.length ≤ 2 → Readable (Text.decimalValue x) := fun x hx =>
    ⟨Int.natCast_nonneg _, Text.decimalValue_lt_of_length_le (Nat.le_trans hx (by decide))⟩
  have hmarkers : markers.Legal := by
    refine ⟨List.forall_mem_cons.2 ⟨rfl, List.forall_mem_cons.2 ⟨rfl,
        List.forall_mem_singleton.2 rfl⟩⟩,
      List.forall_mem_cons.2 ⟨?_, List.forall_mem_singleton.2 ?_⟩,
      List.forall_mem_cons.2 ⟨?_, List.forall_mem_singleton.2 ?_⟩⟩
    · exact hindex ['0'] (by decide)
    · exact hindex ['1', '2'] (by decide)
    · exact hindex ['7'] (by decide)
    · exact hindex ['7'] (by decide)
  have hlegal : ∀ r, some r ∈ [none, some markers] → r.Legal := by
    intro r hr
    obtain rfl : r = markers := by simpa using hr
    exact hmarkers
  obtain ⟨hread, hunique⟩ := encode_unambiguous [none, some markers]
  exact ⟨hlegal, hread.2 hlegal, hunique hlegal⟩

end Record

end KripkeLogic
