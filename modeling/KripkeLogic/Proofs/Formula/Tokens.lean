import KripkeLogic.Formula.Token
import KripkeLogic.Proofs.Outcome

/-! # The tokens of a text -/

namespace KripkeLogic

open Outcome

theorem Piece.sublist_split {α : Type} (cs : List (Char × α)) :
    ((split cs).map Prod.snd).Sublist (cs.map Prod.snd) := by
  fun_induction split cs with
  | case1 p _ _ rest ih => exact ((ih.cons _).cons _).cons_cons p
  | case2 p _ rest ih | case3 p _ rest ih | case4 p _ rest ih => exact (ih.cons _).cons_cons p
  | case5 p rest ih | case6 p rest ih | case7 p rest ih => exact ih.cons_cons p
  | case8 c p rest _ _ _ _ _ _ _ ih => exact ih.cons_cons p
  | case9 => exact List.Sublist.slnil

namespace Token

/-- The finishing symbol comes at the end and nowhere else. -/
def Finished (ts : List Token) : Prop :=
  ∃ body last, ts = body ++ [last] ∧ last.symbol = .finish ∧ ∀ token ∈ body, token.symbol ≠ .finish

theorem Finished.cons {token : Token} {ts : List Token} (h : Finished ts)
    (htoken : token.symbol ≠ .finish) : Finished (token :: ts) := by
  obtain ⟨body, last, rfl, hlast, hbody⟩ := h
  exact ⟨token :: body, last, rfl, hlast, List.forall_mem_cons.2 ⟨htoken, hbody⟩⟩

theorem Finished.consName {c : Char} {hc : isNameChar c = true} {p : Nat} {ts : List Token}
    (h : Finished ts) : Finished (consName c hc p ts) := by
  unfold Token.consName
  split
  · obtain ⟨body, last, hts, hlast, hbody⟩ := h
    cases body with
    | nil =>
      cases hts
      cases hlast
    | cons token body =>
      cases hts
      obtain ⟨-, hbody⟩ := List.forall_mem_cons.1 hbody
      refine ⟨_ :: body, last, rfl, hlast, List.forall_mem_cons.2 ⟨?_, hbody⟩⟩
      exact fun hname => by cases hname
  · exact h.cons fun hname => by cases hname

theorem ofPieces_cons_eq_ok {stop : Nat} {piece : Piece} {p : Nat} {pieces : List (Piece × Nat)}
    {ts : List Token} (h : ofPieces stop ((piece, p) :: pieces) = .ok ts) :
    ∃ rest, ofPieces stop pieces = .ok rest ∧ ((∃ s, s ≠ .finish ∧ ts = ⟨s, p⟩ :: rest) ∨
      ∃ c, ∃ hc : isNameChar c = true, ts = consName c hc p rest) := by
  cases piece with
  | op o =>
    obtain ⟨rest, hrest, rfl⟩ := map_eq_ok_iff.1 h
    exact ⟨rest, hrest, Or.inl ⟨.op o, by simp, rfl⟩⟩
  | char c =>
    rw [ofPieces] at h
    split at h
    · obtain ⟨rest, hrest, rfl⟩ := map_eq_ok_iff.1 h
      exact ⟨rest, hrest, Or.inl ⟨.opening, by simp, rfl⟩⟩
    · split at h
      · obtain ⟨rest, hrest, rfl⟩ := map_eq_ok_iff.1 h
        exact ⟨rest, hrest, Or.inl ⟨.closing, by simp, rfl⟩⟩
      · split at h
        · rename_i hc
          obtain ⟨rest, hrest, rfl⟩ := map_eq_ok_iff.1 h
          exact ⟨rest, hrest, Or.inr ⟨c, hc, rfl⟩⟩
        · cases h

theorem finished_ofPieces {stop : Nat} {pieces : List (Piece × Nat)} {ts : List Token}
    (h : ofPieces stop pieces = .ok ts) : Finished ts := by
  induction pieces generalizing ts with
  | nil =>
    cases h
    exact ⟨[], _, rfl, rfl, by simp⟩
  | cons piece pieces ih =>
    obtain ⟨rest, hrest, ⟨s, hs, rfl⟩ | ⟨c, hc, rfl⟩⟩ := ofPieces_cons_eq_ok h
    · exact (ih hrest).cons hs
    · exact (ih hrest).consName

theorem finished_scan {text : List Char} {ts : List Token} (h : scan text = .ok ts) :
    Finished ts := by
  unfold scan at h
  split at h
  · cases h
  · exact finished_ofPieces h

theorem ofPieces_eq_error {stop : Nat} {pieces : List (Piece × Nat)} {e : ParseError}
    (h : ofPieces stop pieces = .error e) : e.position?.isSome = true := by
  induction pieces with
  | nil => cases h
  | cons piece pieces ih =>
    obtain ⟨piece, p⟩ := piece
    cases piece with
    | op o => exact ih (map_eq_error_iff.1 h)
    | char c =>
      rw [ofPieces] at h
      split at h
      · exact ih (map_eq_error_iff.1 h)
      · split at h
        · exact ih (map_eq_error_iff.1 h)
        · split at h
          · exact ih (map_eq_error_iff.1 h)
          · cases h
            rfl

theorem scan_eq_error {text : List Char} {e : ParseError} (h : scan text = .error e) :
    e.position?.isSome = true := by
  unfold scan at h
  split at h
  · cases h
    rfl
  · exact ofPieces_eq_error h

/-! ## Positions -/

theorem sublist_consName {c : Char} (hc : isNameChar c = true) (p : Nat) (ts : List Token) :
    ((consName c hc p ts).map position).Sublist (p :: ts.map position) := by
  unfold consName
  split
  · exact (List.sublist_cons_self _ _).cons_cons p
  · exact List.Sublist.refl _

theorem sublist_ofPieces {stop : Nat} {pieces : List (Piece × Nat)} {ts : List Token}
    (h : ofPieces stop pieces = .ok ts) :
    (ts.map position).Sublist (pieces.map Prod.snd ++ [stop]) := by
  induction pieces generalizing ts with
  | nil =>
    cases h
    exact List.Sublist.refl _
  | cons piece pieces ih =>
    obtain ⟨rest, hrest, ⟨s, -, rfl⟩ | ⟨c, hc, rfl⟩⟩ := ofPieces_cons_eq_ok h
    · exact (ih hrest).cons_cons _
    · exact (sublist_consName hc _ rest).trans ((ih hrest).cons_cons _)

theorem increasing_scan {text : List Char} {ts : List Token} (h : scan text = .ok ts) :
    (ts.map position).Pairwise (· < ·) := by
  unfold scan at h
  split at h
  · cases h
  · have hink : ((inked text).map Prod.snd).Sublist (List.range text.length) := by
      have hall : text.zipIdx.map Prod.snd = List.range text.length := by
        rw [List.zipIdx_map_snd, List.range_eq_range']
      rw [← hall]
      exact List.filter_sublist.map Prod.snd
    have hpieces := (Piece.sublist_split (inked text)).trans hink
    have hwhole : (ts.map position).Sublist (List.range (text.length + 1)) := by
      rw [List.range_succ]
      exact (sublist_ofPieces h).trans (hpieces.append_right _)
    exact List.pairwise_lt_range.sublist hwhole

theorem eq_of_position_eq {text : List Char} {ts : List Token} (h : scan text = .ok ts) {i j : Nat}
    {a b : Token} (ha : ts[i]? = some a) (hb : ts[j]? = some b) (heq : a.position = b.position) :
    i = j := by
  have hnodup : (ts.map position).Nodup := (increasing_scan h).imp Nat.ne_of_lt
  have hi : i < (ts.map position).length := by
    rw [List.length_map]
    exact (List.getElem?_eq_some_iff.1 ha).1
  refine (List.getElem?_inj hi hnodup).1 ?_
  rw [List.getElem?_map, List.getElem?_map, ha, hb, Option.map_some, Option.map_some, heq]

/-! ## Characters -/

section Characters

variable {c : Char} {cs : List Char}

theorem toNat_of_isNameChar (h : isNameChar c = true) : (48 ≤ c.toNat ∧ c.toNat ≤ 57) ∨
    (65 ≤ c.toNat ∧ c.toNat ≤ 90) ∨ (97 ≤ c.toNat ∧ c.toNat ≤ 122) := by
  have hclass : ((c.isUpper || c.isLower) || c.isDigit) = true := h
  rw [Bool.or_eq_true, Bool.or_eq_true, Char.isDigit_iff_toNat] at hclass
  rcases hclass with (hupper | hlower) | hdigit
  · have hrange : 'A'.val ≤ c.val ∧ c.val ≤ 'Z'.val := of_decide_eq_true hupper
    exact Or.inr (Or.inl hrange)
  · have hboth : (decide (c.val ≥ 'a'.val) && decide (c.val ≤ 'z'.val)) = true := hlower
    rw [Bool.and_eq_true, decide_eq_true_eq, decide_eq_true_eq] at hboth
    exact Or.inr (Or.inr hboth)
  · exact Or.inl hdigit

theorem not_isBlank_of_isNameChar (h : isNameChar c = true) : Text.isBlank c = false := by
  have hc := toNat_of_isNameChar h
  simp only [Text.isBlank, ← Bool.not_eq_true, Bool.or_eq_true, Bool.and_eq_true, decide_eq_true_eq,
    beq_iff_eq]
  omega

theorem ne_of_isNameChar {d : Char} (h : isNameChar c = true) (hd : isNameChar d = false) :
    c ≠ d := by
  rintro rfl
  rw [h] at hd
  cases hd

theorem split_cons_name {α : Type} (h : isNameChar c = true) (p : α) (cs : List (Char × α)) :
    Piece.split ((c, p) :: cs) = (.char c, p) :: Piece.split cs := by
  rw [Piece.split]
  all_goals
    intros
    subst_vars
    cases h

theorem ofPieces_name (hc : isNameChar c = true) (p : Nat) {stop : Nat}
    {pieces : List (Piece × Nat)} {ts : List Token} (h : ofPieces stop pieces = .ok ts) :
    ofPieces stop ((.char c, p) :: pieces) = .ok (consName c hc p ts) := by
  rw [ofPieces, if_neg (ne_of_isNameChar hc (by decide)), if_neg (ne_of_isNameChar hc (by decide)),
    dif_pos hc, h]
  rfl

def inkedFrom (p : Nat) (text : List Char) : List (Char × Nat) :=
  (text.zipIdx p).filter fun c => !Text.isBlank c.1

theorem inkedFrom_blank {p : Nat} (h : Text.isBlank c = true) :
    inkedFrom p (c :: cs) = inkedFrom (p + 1) cs := by
  simp only [inkedFrom, List.zipIdx_cons, List.filter_cons, h]
  rfl

theorem inkedFrom_cons {p : Nat} (h : Text.isBlank c = false) :
    inkedFrom p (c :: cs) = (c, p) :: inkedFrom (p + 1) cs := by
  simp only [inkedFrom, List.zipIdx_cons, List.filter_cons, h]
  rfl

theorem splitName?_cons (gap : Option Nat) (p : Nat) (c : Char) (cs : List Char) :
    splitName? gap p (c :: cs) =
      if Text.isBlank c then splitName? gap (p + 1) cs
      else if isNameChar c then
        match gap with
        | some start =>
          if start < p then some start else splitName? (some (p + 1)) (p + 1) cs
        | none => splitName? (some (p + 1)) (p + 1) cs
      else splitName? none (p + 1) cs := by
  cases gap <;> rfl

theorem splitName?_blank {gap : Option Nat} {p : Nat} (h : Text.isBlank c = true) :
    splitName? gap p (c :: cs) = splitName? gap (p + 1) cs := by
  rw [splitName?_cons, if_pos h]

theorem splitName?_name {gap : Option Nat} {p : Nat} (h : isNameChar c = true)
    (hgap : ∀ start, gap = some start → start = p) :
    splitName? gap p (c :: cs) = splitName? (some (p + 1)) (p + 1) cs := by
  rw [splitName?_cons, if_neg (by rw [not_isBlank_of_isNameChar h]; exact Bool.false_ne_true), if_pos h]
  cases gap with
  | none => rfl
  | some start =>
    obtain rfl := hgap start rfl
    exact if_neg (Nat.lt_irrefl start)

theorem splitName?_names {p : Nat} (hcs : ∀ c ∈ cs, isNameChar c = true) (text : List Char) :
    splitName? (some p) p (cs ++ text) = splitName? (some (p + cs.length)) (p + cs.length) text := by
  induction cs generalizing p with
  | nil => rfl
  | cons c cs ih =>
    obtain ⟨hc, hcs⟩ := List.forall_mem_cons.1 hcs
    have hgap : ∀ start, some p = some start → start = p := fun start h => (Option.some.inj h).symm
    rw [List.cons_append, splitName?_name hc hgap, ih hcs, List.length_cons, Nat.add_assoc,
      Nat.add_comm 1]

end Characters

end Token

end KripkeLogic
