/-! Binary numbers of 53 digits, and the rounding of decimals to them. -/

namespace TypeFlow.Decimal

/-- A number of the form `mantissa * 2 ^ exponent` with a sign, one beyond their range, or the
result of an operation that has none. -/
inductive Binary where
  | finite (negative : Bool) (mantissa : Nat) (exponent : Int)
  | infinite (negative : Bool)
  | nan
  deriving DecidableEq

/-- A mantissa has at most this many binary digits. -/
def precision : Nat := 53

/-- Mantissas are below this bound, and at least half of it unless the exponent is least. -/
def mantissaBound : Nat := Nat.pow 2 precision

def minExponent : Int := -1074

def maxExponent : Int := 971

/-- Multiplies by a power whose exponent is the positive part of an integer. -/
def scaleUp (base n : Nat) (e : Int) : Nat := n * Nat.pow base e.toNat

/-- The quotient rounded to the nearest integer, a tie to the even one. -/
def roundDiv (num den : Nat) : Nat :=
  let q := num / den
  let r := num % den
  if 2 * r < den then q
  else if 2 * r = den then q + q % 2
  else q + 1

namespace Binary

/-- The binary number nearest to `num / den`, of two equally near ones the even one. -/
def ofRatio (negative : Bool) (num den : Nat) : Binary :=
  if num = 0 then .finite negative 0 minExponent
  else
    let e₀ : Int := (num.log2 : Int) - den.log2 - precision
    let quotient (e : Int) : Nat × Nat := (scaleUp 2 num (-e), scaleUp 2 den e)
    let e₁ := if (quotient e₀).1 / (quotient e₀).2 < mantissaBound then e₀ else e₀ + 1
    let e := max e₁ minExponent
    let m := roundDiv (quotient e).1 (quotient e).2
    let (m, e) := if m = mantissaBound then (mantissaBound / 2, e + 1) else (m, e)
    if maxExponent < e then .infinite negative else .finite negative m e

/-- The binary number nearest to `digits * 10 ^ scale`. -/
def ofDecimal (negative : Bool) (digits : Nat) (scale : Int) : Binary :=
  ofRatio negative (scaleUp 10 digits scale) (scaleUp 10 1 (-scale))

end Binary

end TypeFlow.Decimal
