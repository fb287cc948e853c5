/-! # Accessibility -/

namespace KripkeLogic

/-- The entry in row `i` and column `j` says that `j` is accessible from `i`. -/
structure Access (n : Nat) where
  rows : Vector (Vector Bool n) n
deriving DecidableEq

namespace Access

variable {n : Nat}

def holds (A : Access n) (i j : Fin n) : Bool := (A.rows[i.val])[j.val]

def ofFn (f : Fin n → Fin n → Bool) : Access n :=
  ⟨Vector.ofFn fun i => Vector.ofFn fun j => f i j⟩

@[simp] theorem holds_ofFn (f : Fin n → Fin n → Bool) (i j : Fin n) :
    (ofFn f).holds i j = f i j := by
  simp [holds, ofFn]

@[ext] theorem ext {A B : Access n} (h : ∀ i j, A.holds i j = B.holds i j) : A = B := by
  obtain ⟨a⟩ := A
  obtain ⟨b⟩ := B
  congr 1
  refine Vector.ext fun i hi => Vector.ext fun j hj => ?_
  exact h ⟨i, hi⟩ ⟨j, hj⟩

def empty (n : Nat) : Access n := ofFn fun _ _ => false

@[simp] theorem holds_empty (i j : Fin n) : (empty n).holds i j = false := by simp [empty]

def insert (A : Access n) (e : Fin n × Fin n) : Access n :=
  ⟨A.rows.set e.1 ((A.rows[e.1.val]).set e.2 true)⟩

@[simp] theorem holds_insert (A : Access n) (e : Fin n × Fin n) (i j : Fin n) :
    (A.insert e).holds i j = (A.holds i j || (i, j) == e) := by
  obtain ⟨s, t⟩ := e
  by_cases hs : s = i
  · subst hs
    by_cases ht : t = j
    · subst ht; simp [holds, insert]
    · have : t.val ≠ j.val := fun h => ht (Fin.ext h)
      simp [holds, insert, this, Ne.symm ht]
  · have : s.val ≠ i.val := fun h => hs (Fin.ext h)
    simp [holds, insert, this, Ne.symm hs]

def trueAt (values : Vector Bool n) (i : Fin n) : Bool := values[i.val]

@[simp] theorem trueAt_ofFn (f : Fin n → Bool) (i : Fin n) : trueAt (Vector.ofFn f) i = f i := by
  simp [trueAt]

/-! ## Pairs -/

def ofList (es : List (Fin n × Fin n)) : Access n := es.foldl insert (empty n)

theorem holds_foldl_insert (A : Access n) (es : List (Fin n × Fin n)) (i j : Fin n) :
    (es.foldl insert A).holds i j = (A.holds i j || es.contains (i, j)) := by
  induction es generalizing A with
  | nil => simp
  | cons e es ih => simp only [List.foldl_cons, ih, holds_insert, List.contains_cons, Bool.or_assoc]

@[simp] theorem holds_ofList (es : List (Fin n × Fin n)) (i j : Fin n) :
    (ofList es).holds i j = es.contains (i, j) := by
  simp [ofList, holds_foldl_insert]

def toList (A : Access n) : List (Fin n × Fin n) :=
  let worlds := List.finRange n
  worlds.flatMap fun i => (worlds.filter fun j => A.holds i j).map fun j => (i, j)

@[simp] theorem mem_toList {A : Access n} {i j : Fin n} : (i, j) ∈ A.toList ↔ A.holds i j := by
  simp [toList]

def edge? (n : Nat) (e : Nat × Nat) : Option (Fin n × Fin n) :=
  if h : e.1 < n ∧ e.2 < n then some (⟨e.1, h.1⟩, ⟨e.2, h.2⟩) else none

theorem edge?_eq_some_iff {e : Nat × Nat} {f : Fin n × Fin n} :
    edge? n e = some f ↔ e = (f.1.val, f.2.val) := by
  obtain ⟨s, t⟩ := e
  obtain ⟨i, j⟩ := f
  simp only [edge?, Option.dite_none_right_eq_some, Option.some.injEq, Prod.mk.injEq]
  constructor
  · rintro ⟨_, rfl, rfl⟩; exact ⟨rfl, rfl⟩
  · rintro ⟨rfl, rfl⟩; exact ⟨⟨i.isLt, j.isLt⟩, rfl, rfl⟩

def ofEdges (n : Nat) (edges : List (Nat × Nat)) : Access n := ofList (edges.filterMap (edge? n))

theorem holds_ofEdges {edges : List (Nat × Nat)} {i j : Fin n} :
    (ofEdges n edges).holds i j ↔ (i.val, j.val) ∈ edges := by
  simp only [ofEdges, holds_ofList, List.contains_iff_mem, List.mem_filterMap, edge?_eq_some_iff]
  constructor
  · rintro ⟨_, h, rfl⟩; exact h
  · intro h; exact ⟨_, h, rfl⟩

def edges (A : Access n) : List (Nat × Nat) := A.toList.map fun e => (e.1.val, e.2.val)

end Access

/-! ## Sizes that do not fit -/

inductive AccessError
  | badSize
  | badIndex
  | sizeMismatch
  /-- A number is too large for a machine word. -/
  | overflow
deriving DecidableEq

/-- What is asked of the library that keeps the matrices. -/
structure Indexing where
  /-- Packs pairs of numbers into machine words. -/
  pack : List (Int × Int) → Except AccessError (List (Int64 × Int64))
  /-- Sets the entries at pairs of indices. -/
  assign : (n : Nat) → Access n → List (Int64 × Int64) → Except AccessError (Access n)

namespace Access

def sizeOf? (n : Int) : Except AccessError Nat :=
  if n < 0 then .error .badSize else .ok n.toNat

/-- The relation of some pairs of indices. If there are none, there is nothing to pack. -/
def ofPairs (lib : Indexing) (n : Nat) (pairs : List (Int × Int)) :
    Except AccessError (Access n) :=
  if pairs.isEmpty then .ok (empty n) else lib.pack pairs >>= lib.assign n (empty n)

end Access

namespace Indexing

/-- The item that an index means in a sequence of `n`. A negative index counts from the end. -/
def item? (n : Nat) (c : Int) : Option (Fin n) :=
  if h : 0 ≤ c ∧ c < n then some ⟨c.toNat, by omega⟩
  else if h : -n ≤ c ∧ c < 0 then some ⟨(c + n).toNat, by omega⟩
  else none

/-- The number fits into 64 bits with its sign. -/
def isWord (c : Int) : Bool := -9223372036854775808 ≤ c && c < 9223372036854775808

def packWords (pairs : List (Int × Int)) : Except AccessError (List (Int64 × Int64)) :=
  if pairs.all fun p => isWord p.1 && isWord p.2 then
    .ok (pairs.map fun p => (.ofInt p.1, .ofInt p.2))
  else .error .overflow

def assignItems (n : Nat) (A : Access n) : List (Int64 × Int64) → Except AccessError (Access n)
  | [] => .ok A
  | (s, t) :: pairs =>
    match item? n s.toInt, item? n t.toInt with
    | some i, some j => assignItems n (A.insert (i, j)) pairs
    | _, _ => .error .badIndex

def standard : Indexing := ⟨packWords, assignItems⟩

end Indexing

namespace Access

def resize {m : Nat} (n : Nat) (A : Access m) : Except AccessError (Access n) :=
  if h : m = n then .ok (h ▸ A) else .error .sizeMismatch

/-- Values for all worlds. A single value stands for all of them. -/
def fit (n : Nat) (values : List Bool) : Except AccessError (Vector Bool n) :=
  match values with
  | [b] => .ok (Vector.replicate n b)
  | _ => if h : values.length = n then .ok ⟨values.toArray, by simpa using h⟩ else .error .sizeMismatch

end Access

end KripkeLogic
