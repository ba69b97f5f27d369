import TypeFlow.Decimal.Binary

/-! Reading decimals: a sign, digits, a fraction and an exponent, all but the digits optional.
Numbers that have no digits are written as words. -/

namespace TypeFlow.Decimal

def isExponentMark (c : Char) : Bool := c = 'e' || c = 'E'

/-- The value of decimal digits. Other characters end the number before it is read. -/
def ofDigits (cs : List Char) : Nat := cs.foldl (fun n c => 10 * n + (c.toNat - '0'.toNat)) 0

/-- Reads an exponent after its mark. -/
def readExponent? : List Char → Option Int
  | '-' :: cs => if cs.all Char.isDigit && !cs.isEmpty then some (-(ofDigits cs)) else none
  | '+' :: cs => if cs.all Char.isDigit && !cs.isEmpty then some (ofDigits cs) else none
  | cs => if cs.all Char.isDigit && !cs.isEmpty then some (ofDigits cs) else none

/-- Reads a number after its sign, and rounds it to a binary number. -/
def readUnsigned? (negative : Bool) (cs : List Char) : Option Binary := do
  let whole := cs.takeWhile Char.isDigit
  let rest := cs.dropWhile Char.isDigit
  let (fraction, rest) := match rest with
    | '.' :: r => (r.takeWhile Char.isDigit, r.dropWhile Char.isDigit)
    | r => ([], r)
  guard !whole.isEmpty
  let exponent ← match rest with
    | [] => some 0
    | c :: r => if isExponentMark c then readExponent? r else none
  return .ofDecimal negative (ofDigits (whole ++ fraction)) (exponent - fraction.length)

/-- Reads a number, or a word that stands for one. -/
def read? (s : String) : Option Binary :=
  match s with
  | "Infinity" => some (.infinite false)
  | "-Infinity" => some (.infinite true)
  | "NaN" => some .nan
  | _ =>
      match s.toList with
      | '-' :: cs => readUnsigned? true cs
      | cs => readUnsigned? false cs

end TypeFlow.Decimal
