/-! Blank characters: those that the Unicode standard gives the property of white space, and
the four information separators. -/

namespace TypeFlow.Text

/-- The ranges of the codes of blank characters, in order. -/
def blankRanges : List (Nat × Nat) :=
  [(0x09, 0x0d), (0x1c, 0x20), (0x85, 0x85), (0xa0, 0xa0), (0x1680, 0x1680), (0x2000, 0x200a),
    (0x2028, 0x2029), (0x202f, 0x202f), (0x205f, 0x205f), (0x3000, 0x3000)]

def isBlank (c : Char) : Bool := blankRanges.any fun r => r.1 ≤ c.toNat && c.toNat ≤ r.2

/-- Drops the blanks at the end. -/
def trimEnd (cs : List Char) : List Char := (cs.reverse.dropWhile isBlank).reverse

example : (blankRanges.map fun r => r.2 - r.1 + 1).sum = 29 := by decide

end TypeFlow.Text
