import KripkeLogic.Proofs.Model.History
import KripkeLogic.Proofs.Record.Grammar

/-! # Texts that are refused -/

namespace KripkeLogic

open Outcome

namespace Record

/-- The text follows the grammar, and its first index that is too long has so many digits. -/
def LongIndex (text : List Char) (digits : Nat) : Prop :=
  ∃ ds x, Follows text ds ∧ (indices ds).find? tooLong = some x ∧ x.length = digits

variable {text : List Char}

theorem unlessLong_eq_error_iff {α : Type} {xs : List (List Char)} {a : α} {e : RecordError} :
    unlessLong xs a = .error e ↔ ∃ x, xs.find? tooLong = some x ∧ e = .longIndex x.length := by
  unfold unlessLong
  split
  · rename_i x hx
    rw [hx]
    simp [eq_comm]
  · rename_i hx
    rw [hx]
    simp

theorem decode_eq_error_iff {e : RecordError} : decode text = .error e ↔
    (e = .malformed (.text text) ∧ ∀ ds, ¬ Follows text ds) ∨
      ∃ digits, e = .longIndex digits ∧ LongIndex text digits := by
  by_cases hfollows : ∃ ds, Follows text ds
  · obtain ⟨ds, hds⟩ := hfollows
    rw [decode_of_follows hds, unlessLong_eq_error_iff]
    constructor
    · rintro ⟨x, hx, rfl⟩
      exact Or.inr ⟨_, rfl, ds, x, hds, hx, rfl⟩
    · rintro (⟨-, hnone⟩ | ⟨_, rfl, ds', x, hds', hx, rfl⟩)
      · exact absurd hds (hnone ds)
      · rw [hds.unique hds']
        exact ⟨x, hx, rfl⟩
  · rw [not_exists] at hfollows
    rw [decode_of_not_follows hfollows]
    constructor
    · intro h
      cases h
      exact Or.inl ⟨rfl, hfollows⟩
    · rintro (⟨rfl, -⟩ | ⟨_, -, ds, _, hds, -⟩)
      · rfl
      · exact absurd hds (hfollows ds)

theorem decode_eq_longIndex_iff {digits : Nat} :
    decode text = .error (.longIndex digits) ↔ LongIndex text digits := by
  rw [decode_eq_error_iff]
  constructor
  · rintro (⟨h, -⟩ | ⟨_, h, hlong⟩)
    · cases h
    · cases h
      exact hlong
  · intro hlong
    exact Or.inr ⟨digits, rfl, hlong⟩

/-! ## Many zeros -/

def zeros (n : Nat) : List Char := 'A' :: 'P' :: (List.replicate n '0' ++ ['R', ';'])

theorem follows_zeros {n : Nat} (hn : 0 < n) :
    Follows (zeros n) [some ⟨[], [List.replicate n '0'], []⟩] := by
  have hindex : isIndex (List.replicate n '0') = true := by
    rw [isIndex_iff]
    refine ⟨by simp; omega, fun c hc => ?_⟩
    rw [List.eq_of_mem_replicate hc]
    decide
  refine ⟨fun d hd => ?_, by simp [zeros, textOf, slotText, Draft.write, Text.join]⟩
  cases List.mem_singleton.1 hd
  exact ⟨by simp, by simpa using hindex, by simp⟩

end Record

namespace Model

variable {m : Model} {e : RecordError}

theorem target_ne_record {k : EdgeKind} {s : Nat} {t : Int} :
    m.target k s t ≠ .error (.record e) := by
  unfold target
  split
  · intro h
    cases h
  · split
    · intro h
      cases h
    · intro h
      cases h

theorem loadEdges_ne_record {k : EdgeKind} {s : Nat} {ts : List Int} {es : List (Nat × Nat)} :
    m.loadEdges k s ts es ≠ .error (.record e) := by
  intro h
  induction ts generalizing es with
  | nil => cases h
  | cons t ts ih =>
    rcases bind_eq_error_iff.1 h with ht | ⟨j, -, hts⟩
    · exact target_ne_record ht
    · exact ih hts

theorem loadRecords_ne_record {s : Nat} {rs : List (Option Record)} {ps es : List (Nat × Nat)} :
    m.loadRecords s rs ps es ≠ .error (.record e) := by
  intro h
  induction rs generalizing s ps es with
  | nil => cases h
  | cons o rs ih =>
    cases o with
    | none => exact ih h
    | some r =>
      rcases bind_eq_error_iff.1 h with hp | ⟨ps', -, h⟩
      · exact loadEdges_ne_record hp
      · rcases bind_eq_error_iff.1 h with hr | ⟨es', -, h⟩
        · exact loadEdges_ne_record hr
        · exact ih h

theorem ofRecords_ne_record {rs : List (Option Record)} : ofRecords rs ≠ .error (.record e) := by
  intro h
  rcases bind_eq_error_iff.1 h with hload | ⟨out, -, hout⟩
  · exact loadRecords_ne_record hload
  · cases hout

theorem ofText_eq_record_iff {text : List Char} :
    ofText (.text text) = .error (.record e) ↔ Record.decode text = .error e := by
  have hvalue : Record.decodeValue (.text text) = Record.decode text := rfl
  unfold ofText
  rw [hvalue]
  cases Record.decode text with
  | ok rs => simp [ofRecords_ne_record]
  | error err => simp

theorem decode_ne_broken {text : List Char} {b : Breakdown} :
    Record.decode text ≠ .error (.broken b) := by
  intro h
  rcases Record.decode_eq_error_iff.1 h with ⟨he, -⟩ | ⟨digits, he, -⟩ <;> cases he

/-! ## Imports -/

section Imports

variable {text : Value} {loaded : Model}

theorem importText_of_ok (h : ofText text = .ok loaded) :
    m.importText text = .ok (true, loaded) := by
  rw [importText, h]

theorem importText_of_long {digits : Nat}
    (h : ofText text = .error (.record (.longIndex digits))) :
    m.importText text = .error (.record (.longIndex digits)) := by
  rw [importText, h]

theorem importText_of_refused {err : LoadError} (h : ofText text = .error err)
    (hshort : ∀ digits, err ≠ .record (.longIndex digits)) (hshown : ∀ b, err ≠ .record (.broken b)) :
    m.importText text = .ok (false, m) := by
  unfold importText
  split
  · rename_i hloaded
    rw [h] at hloaded
    cases hloaded
  · rename_i digits hlong
    rw [h] at hlong
    cases hlong
    exact absurd rfl (hshort digits)
  · rename_i b hbroken
    rw [h] at hbroken
    cases hbroken
    exact absurd rfl (hshown b)
  · rfl

end Imports

structure Importing (m : Model) (text : List Char) : Prop where
  decoded : ∀ e, Record.decode text = .error e ↔
    (e = .malformed (.text text) ∧ ∀ ds, ¬ Record.Follows text ds) ∨
      ∃ digits, e = .longIndex digits ∧ Record.LongIndex text digits
  loaded : ∀ digits, ofText (.text text) = .error (.record (.longIndex digits)) ↔
    Record.LongIndex text digits
  failed : ∀ e, m.importText (.text text) = .error e ↔
    ∃ digits, e = .record (.longIndex digits) ∧ Record.LongIndex text digits
  refused : ∀ m', m.importText (.text text) = .ok (false, m') ↔
    m' = m ∧ (∃ e, ofText (.text text) = .error e) ∧ ∀ digits, ¬ Record.LongIndex text digits
  taken : ∀ m', m.importText (.text text) = .ok (true, m') ↔ ofText (.text text) = .ok m'

/-- **An import fails exactly at an index that is too long.** Any other text is taken over or
refused, and a refused one leaves the model as it was. -/
theorem importing (m : Model) (text : List Char) : m.Importing text := by
  have hlong : ∀ digits, ofText (.text text) = .error (.record (.longIndex digits)) ↔
      Record.LongIndex text digits := fun digits => by
    rw [ofText_eq_record_iff, Record.decode_eq_longIndex_iff]
  cases hof : ofText (.text text) with
  | ok loaded =>
    have himport := importText_of_ok (m := m) hof
    have hnone : ∀ digits, ¬ Record.LongIndex text digits := fun digits hl => by
      rw [← hlong, hof] at hl
      cases hl
    refine ⟨fun e => Record.decode_eq_error_iff, hlong, fun e => ?_, fun m' => ?_, fun m' => ?_⟩
    · simp [himport, hnone]
    · simp [himport, hof]
    · simp [himport, hof]
  | error err =>
    by_cases hl : ∃ digits, err = .record (.longIndex digits)
    · obtain ⟨digits, rfl⟩ := hl
      have himport := importText_of_long (m := m) hof
      have hsome : ∀ n, Record.LongIndex text n ↔ digits = n := fun n => by
        rw [← hlong, hof]
        simp
      refine ⟨fun e => Record.decode_eq_error_iff, hlong, fun e => ?_, fun m' => ?_, fun m' => ?_⟩
      · simp [himport, hsome, eq_comm]
      · simp [himport, hsome]
      · simp [himport, hof]
    · rw [not_exists] at hl
      have himport := importText_of_refused (m := m) hof hl fun b hb =>
        decode_ne_broken (ofText_eq_record_iff.1 (hb ▸ hof))
      have hnone : ∀ digits, ¬ Record.LongIndex text digits := fun digits hlong' => by
        rw [← hlong, hof] at hlong'
        exact hl digits (Except.error.inj hlong')
      refine ⟨fun e => Record.decode_eq_error_iff, hlong, fun e => ?_, fun m' => ?_, fun m' => ?_⟩
      · simp [himport, hnone]
      · simp [himport, hof, hnone, eq_comm]
      · simp [himport, hof]

theorem import_zeros {n : Nat} (hn : Record.digitLimit < n) (m : Model) :
    m.importText (.text (Record.zeros n)) = .error (.record (.longIndex n)) := by
  have hlong : Record.tooLong (List.replicate n '0') = true := by
    rw [Record.tooLong, List.length_replicate]
    exact decide_eq_true hn
  have hfollows := Record.follows_zeros (Nat.zero_lt_of_lt hn)
  have hfirst : Record.LongIndex (Record.zeros n) n :=
    ⟨_, List.replicate n '0', hfollows, List.find?_cons_of_pos hlong, List.length_replicate⟩
  exact importText_of_long (ofText_eq_record_iff.2 (Record.decode_eq_longIndex_iff.2 hfirst))

/-- A zero of 4301 digits is not refused. -/
theorem import_zeros_fails : (run []).importText (.text (Record.zeros 4301)) =
    .error (.record (.longIndex 4301)) :=
  import_zeros (by decide) _

end Model

end KripkeLogic
