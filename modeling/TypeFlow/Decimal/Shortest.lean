import TypeFlow.Decimal.Binary

/-! The shortest decimal that reads back as a given binary number, and its layout.
A decimal reads back when it lies in the interval of the reals that round to the number;
the ends belong to the interval when the mantissa is even. -/

namespace TypeFlow.Decimal

/-- A decimal `digits * 10 ^ scale`. -/
structure Digits where
  digits : Nat
  scale : Int
  deriving DecidableEq

/-! ## Digits -/

/-- Compares `c * 10 ^ k` with `x * 2 ^ e`. -/
def compareScaled (c : Nat) (k : Int) (x : Nat) (e : Int) : Ordering :=
  compare (scaleUp 10 (scaleUp 2 c (-e)) k) (scaleUp 2 (scaleUp 10 x (-k)) e)

/-- The bounds of the interval around `m * 2 ^ e`, as multiples of `2 ^ (e - 2)`. The gap
below a power of two is half as wide. -/
def interval (m : Nat) (e : Int) : Nat × Nat :=
  (if 2 * m = mantissaBound ∧ minExponent < e then 4 * m - 1 else 4 * m - 2, 4 * m + 2)

/-- The decimal `c * 10 ^ k` lies in the interval around `m * 2 ^ e`. -/
def readsBack (m : Nat) (e : Int) (c : Nat) (k : Int) : Bool :=
  let (lo, hi) := interval m e
  let above := compareScaled c k lo (e - 2)
  let below := compareScaled c k hi (e - 2)
  if m % 2 = 0 then above ≠ .lt && below ≠ .gt else above = .gt && below = .lt

/-- The exponent of the leading decimal digit of `num / den`. -/
def leadingExponent (num den : Nat) : Int :=
  if den ≤ num then (Nat.toDigits 10 (num / den)).length - 1
  else
    let t := (Nat.toDigits 10 (den / num)).length
    if den ≤ num * Nat.pow 10 (t - 1) then 1 - (t : Int) else -(t : Int)

/-- The decimal on the grid of step `10 ^ k` that reads back as `m * 2 ^ e`: the nearer of its two
neighbours, the even one of two equally near ones, or the other one if that does not read back. -/
def onGrid (m : Nat) (e : Int) (k : Int) : Option Nat :=
  let num := scaleUp 10 (scaleUp 2 m e) (-k)
  let den := scaleUp 10 (scaleUp 2 1 (-e)) k
  let floor := num / den
  let near := roundDiv num den
  let far := if near = floor then floor + 1 else floor
  [near, far].find? fun c => readsBack m e c k

/-- Moves trailing zeros into the scale. -/
def trim : Nat → Nat → Int → Digits
  | fuel + 1, c, k => if c ≠ 0 ∧ c % 10 = 0 then trim fuel (c / 10) (k + 1) else ⟨c, k⟩
  | 0, c, k => ⟨c, k⟩

/-- The decimal of fewest digits that reads back as `m * 2 ^ e`, and the nearest of those.
Seventeen digits always suffice. -/
def shortest (m : Nat) (e : Int) : Digits :=
  let lead := leadingExponent (scaleUp 2 m e) (scaleUp 2 1 (-e))
  let found := (List.range 17).findSome? fun (p : Nat) =>
    let k := lead - p
    (onGrid m e k).map fun c => trim 17 c k
  found.getD ⟨m, 0⟩

/-! ## Layout -/

/-- How a decimal is written: positionally while its leading exponent lies in a range, and
with an exponent of at least so many digits otherwise. -/
structure Style where
  least : Int
  limit : Int
  exponentDigits : Nat

namespace Style

def zeros (n : Int) : String := "".pushn '0' n.toNat

/-- Pads a number with zeros on the left. -/
def padded (width : Nat) (n : Nat) : String :=
  let s := toString n
  "".pushn '0' (width - s.length) ++ s

/-- Writes a decimal. A number without fraction still shows a point and a zero, unless it has
an exponent. -/
def write (style : Style) (d : Digits) : String :=
  let ds := toString d.digits
  let lead := d.scale + ds.length - 1
  if style.least ≤ lead ∧ lead < style.limit then
    if 0 ≤ d.scale then ds ++ zeros d.scale ++ ".0"
    else if 0 ≤ lead then
      (ds.take (lead + 1).toNat).toString ++ "." ++ (ds.drop (lead + 1).toNat).toString
    else "0." ++ zeros (-lead - 1) ++ ds
  else
    let fraction := if ds.length = 1 then "" else "." ++ (ds.drop 1).toString
    let sign := if lead < 0 then "-" else "+"
    (ds.take 1).toString ++ fraction ++ "e" ++ sign ++ padded style.exponentDigits lead.natAbs

/-- Writes a binary number as its shortest decimal. -/
def writeBinary (style : Style) : Binary → String
  | .infinite negative => (if negative then "-" else "") ++ "inf"
  | .nan => "nan"
  | .finite negative m e =>
      (if negative then "-" else "") ++ if m = 0 then "0.0" else style.write (shortest m e)

end Style

end TypeFlow.Decimal
