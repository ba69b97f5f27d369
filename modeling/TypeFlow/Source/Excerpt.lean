import TypeFlow.Source.Lines
import TypeFlow.Text.Blank

/-! Excerpts of a text: a line with its number, and below it a mark and a caption. -/

namespace TypeFlow.Source

/-- A row number in six columns, at least one of them blank, and a bar. -/
def margin (row : Nat) : List Char :=
  let digits := ' ' :: (toString row).toList
  List.replicate (6 - digits.length) ' ' ++ digits ++ [' ', '|']

/-- The part of a line before a position. A negative position counts from the end. -/
def before (line : List Char) (i : Int) : List Char :=
  if 0 ≤ i then line.take i.toNat else line.take (line.length + i).toNat

/-- Keeps tabs, so that a mark stands below what it marks. -/
def blankOut (cs : List Char) : List Char := cs.map fun c => if c = '\t' then c else ' '

/-- The width of the mark: at least one, and not beyond the end of the line. -/
def markWidth (line : List Char) (col width : Int) : Nat :=
  (max 1 (min width (line.length - col))).toNat

/-- The excerpt of a text that marks the characters from `start` up to `stop`, as far as they
lie in the line in which they start. -/
def excerpt (text : String) (start stop : Int) (caption : String) : String :=
  let (row, col) := rowCol text.toList start
  let line := lineOf text.toList row
  String.ofList <|
    margin row ++ Text.trimEnd line ++ ['\n'] ++ blankOut (margin row ++ before line col) ++
      List.replicate (markWidth line col (stop - start)) '^' ++ [' '] ++ caption.toList

end TypeFlow.Source
