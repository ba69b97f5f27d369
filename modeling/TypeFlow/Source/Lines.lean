/-! Lines of a text. A line ends after a carriage return, a line feed, or both in this order. -/

namespace TypeFlow.Source

/-- The positions after the line breaks of a text that starts at `i`. -/
def breaks : Nat → List Char → List Nat
  | i, '\r' :: '\n' :: cs => (i + 2) :: breaks (i + 2) cs
  | i, c :: cs => if c = '\r' ∨ c = '\n' then (i + 1) :: breaks (i + 1) cs else breaks (i + 1) cs
  | _, [] => []

/-- Where lines start, and where the text ends. -/
def bounds (text : List Char) : List Nat := 0 :: breaks 0 text ++ [text.length]

/-- The number of the line that a position lies in, counted from one, and the position within
that line. A negative position lies before the first line, in row zero, and is measured from
the end of the text. -/
def rowCol (text : List Char) (i : Int) : Nat × Int :=
  let row := (bounds text).dropLast.countP fun (b : Nat) => (b : Int) ≤ i
  let start := if row = 0 then text.length else (bounds text).getD (row - 1) 0
  (row, i - start)

/-- The text of a line with its line break. Row zero is read as the first line. -/
def lineOf (text : List Char) (row : Nat) : List Char :=
  let start := (bounds text).getD (row - 1) 0
  let stop := (bounds text).getD (row - 1 + 1) 0
  (text.take stop).drop start

end TypeFlow.Source
