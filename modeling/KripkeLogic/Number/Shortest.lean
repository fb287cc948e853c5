import KripkeLogic.Number.Binary64

/-! # The shortest decimal that reads back as a double -/

namespace KripkeLogic.Binary64

/-- A positive double `significand * 2 ^ exponent` beside the decimal grid of step `10 ^ scale`:
four times the value and one grid step, in a common unit. -/
structure OnGrid where
  value : Nat
  below : Nat
  above : Nat
  step : Nat

/-- The reals that round to the double reach half a gap to either side. The gap below a power of
two is half as wide. -/
def onGrid (m : Nat) (e scale : Int) : OnGrid :=
  let unit := Nat.pow 2 (e - 2).toNat * Nat.pow 10 (-scale).toNat
  let narrow := m = Nat.pow 2 52 ∧ leastExponent < e
  { value := 4 * m * unit
    below := (4 * m - (if narrow then 1 else 2)) * unit
    above := (4 * m + 2) * unit
    step := Nat.pow 10 scale.toNat * Nat.pow 2 (2 - e).toNat }

/-- The ends of the interval belong to it when the significand is even. -/
def OnGrid.readsBack (g : OnGrid) (closed : Bool) (t : Nat) : Bool :=
  let x := t * g.step
  if closed then g.below ≤ x && x ≤ g.above else g.below < x && x < g.above

def OnGrid.nearest (g : OnGrid) (closed : Bool) : Option Nat :=
  let t := g.value / g.step
  let twice := 2 * (g.value % g.step)
  match g.readsBack closed t, g.readsBack closed (t + 1) with
  | true, true =>
    some (if twice < g.step ∨ (twice = g.step ∧ t % 2 = 0) then t else t + 1)
  | true, false => some t
  | false, true => some (t + 1)
  | false, false => none

/-- The decimal exponent of the leading digit: the greatest `k` with `10 ^ k` at most the value. -/
def leadingExponent (m : Nat) (e : Int) : Int :=
  let guess := (((m.log2 : Int) + e) * 30103) / 100000
  let reaches (k : Int) : Bool :=
    Nat.pow 10 k.toNat * Nat.pow 2 (-e).toNat ≤ m * Nat.pow 2 e.toNat * Nat.pow 10 (-k).toNat
  if reaches (guess + 1) then guess + 1 else if reaches guess then guess else guess - 1

/-- The fewest digits that read back, as an integer and a power of ten. Seventeen digits always
do. -/
def shortest (m : Nat) (e : Int) : Nat × Int :=
  let top := leadingExponent m e
  let found := (List.range 17).findSome? fun (n : Nat) =>
    ((onGrid m e (top - n)).nearest (m % 2 = 0)).map fun t => (t, top - (n : Int))
  found.getD (0, 0)

def trimZeros : List Char → Int → List Char × Int
  | [], scale => ([], scale)
  | d :: ds, scale => if d = '0' then trimZeros ds (scale + 1) else ((d :: ds).reverse, scale)

/-- Numbers from `10 ^ -4` up to `10 ^ 16` are written positionally, others with a signed
exponent of at least two digits. -/
def layOut (digits : List Char) (scale : Int) : List Char :=
  let top := scale + digits.length - 1
  if -4 ≤ top ∧ top < 16 then
    if top < 0 then '0' :: '.' :: (List.replicate (-top - 1).toNat '0' ++ digits)
    else
      let whole := digits.take (top + 1).toNat
      let fraction := digits.drop (top + 1).toNat
      whole ++ List.replicate ((top + 1).toNat - whole.length) '0' ++
        '.' :: (if fraction = [] then ['0'] else fraction)
  else
    let mantissa := digits.take 1 ++ (if digits.length ≤ 1 then [] else '.' :: digits.drop 1)
    let size := Nat.toDigits 10 top.natAbs
    mantissa ++ 'e' :: (if top < 0 then '-' else '+') :: (List.replicate (2 - size.length) '0' ++ size)

def text : Binary64 → List Char
  | infinite negative => (if negative then ['-'] else []) ++ ['i', 'n', 'f']
  | finite negative m e =>
    (if negative then ['-'] else []) ++
      if m = 0 then ['0', '.', '0']
      else
        let (t, scale) := shortest m e
        let (digits, scale) := trimZeros (Nat.toDigits 10 t).reverse scale
        layOut digits scale

end KripkeLogic.Binary64
