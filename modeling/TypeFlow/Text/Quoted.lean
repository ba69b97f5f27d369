/-! Quoted text. The quote is chosen so that it need not be escaped, where that is possible. -/

namespace TypeFlow.Text

/-- A single quote, unless the text holds one and holds no double quote. -/
def quoteOf (cs : List Char) : Char :=
  if cs.contains '\'' && !cs.contains '"' then '"' else '\''

/-- Writes one character between the given quotes. Control characters of the first 128 are
written by their codes, and a backslash stands before itself and before the quote. -/
def escapeChar (quote c : Char) : List Char :=
  if c = quote ∨ c = '\\' then ['\\', c]
  else if c = '\n' then ['\\', 'n']
  else if c = '\t' then ['\\', 't']
  else if c = '\r' then ['\\', 'r']
  else if c.toNat < 32 ∨ c.toNat = 127 then
    ['\\', 'x', Nat.digitChar (c.toNat / 16), Nat.digitChar (c.toNat % 16)]
  else [c]

/-- Writes a text between quotes. -/
def quoted (s : String) : String :=
  let quote := quoteOf s.toList
  String.ofList (quote :: s.toList.flatMap (escapeChar quote) ++ [quote])

end TypeFlow.Text
