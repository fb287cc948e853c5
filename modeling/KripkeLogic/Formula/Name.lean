/-! # Variable names -/

namespace KripkeLogic

def isNameChar (c : Char) : Bool := c.isAlphanum

def isName (cs : List Char) : Bool := !cs.isEmpty && cs.all isNameChar

/-- A nonempty run of ASCII letters and digits. -/
structure Name where
  chars : List Char
  legal : isName chars = true
deriving DecidableEq

namespace Name

theorem ext {a b : Name} (h : a.chars = b.chars) : a = b := by
  cases a; cases b; cases h; rfl

instance : Hashable Name := ⟨fun n => n.chars.foldl (fun h c => mixHash h c.val.toUInt64) 7⟩

def ofChars? (cs : List Char) : Option Name :=
  if h : isName cs = true then some ⟨cs, h⟩ else none

def ofChar (c : Char) (h : isNameChar c = true) : Name := ⟨[c], by simp [isName, h]⟩

def cons (c : Char) (h : isNameChar c = true) (n : Name) : Name :=
  ⟨c :: n.chars, by have := n.legal; simp_all [isName]⟩

@[simp] theorem chars_cons (c : Char) (h : isNameChar c = true) (n : Name) :
    (n.cons c h).chars = c :: n.chars := rfl

theorem ne_nil (n : Name) : n.chars ≠ [] := by
  have := n.legal
  rintro h
  simp [isName, h] at this

theorem isNameChar_of_mem {n : Name} {c : Char} (h : c ∈ n.chars) : isNameChar c = true := by
  have := n.legal
  simp only [isName, Bool.and_eq_true, List.all_eq_true] at this
  exact this.2 c h

theorem ofChars?_eq_some_iff {cs : List Char} {n : Name} : ofChars? cs = some n ↔ cs = n.chars := by
  unfold ofChars?
  constructor
  · intro h
    split at h
    · cases h; rfl
    · cases h
  · rintro rfl
    rw [dif_pos n.legal]

@[simp] theorem ofChars?_chars (n : Name) : ofChars? n.chars = some n := ofChars?_eq_some_iff.2 rfl

end Name

end KripkeLogic
