import TypeFlow.Source.Excerpt

/-! The index of tokens. Tokens are numbered as they are inserted, and belong to the segment
that was started last before their insertion. -/

namespace TypeFlow

namespace Source

/-- A source text and its number. Two sources are the same if their numbers are. -/
structure Origin where
  number : Nat
  text : String
  deriving DecidableEq

/-- A run of tokens from one place. Its bound is the number of the last token before it. -/
structure Segment where
  bound : Int
  path : Option String
  source : Option Origin
  deriving DecidableEq

/-- Where something stands: positions in a source, if there is one. -/
structure Span where
  path : Option String
  source : Option Origin
  start : Int
  stop : Int
  deriving DecidableEq

/-- The segments and the positions of the tokens, both in the order of insertion. -/
structure TokenIndex where
  segments : List Segment
  tokens : List (Int × Int)
  sources : Nat
  deriving DecidableEq

/-- Reads a list by an index that counts from the end if it is negative. -/
def getWrapping? {α : Type} (xs : List α) (i : Int) : Option α :=
  if 0 ≤ i then xs[i.toNat]? else if -(xs.length : Int) ≤ i then xs[(xs.length + i).toNat]? else none

namespace TokenIndex

def empty : TokenIndex := ⟨[], [], 0⟩

/-- Starts a segment after the tokens inserted so far. -/
def startSegment (x : TokenIndex) (text : Option String) (path : Option String) : TokenIndex :=
  { x with
    segments := x.segments ++ [⟨(x.tokens.length : Int) - 1, path, text.map (⟨x.sources, ·⟩)⟩]
    sources := if text.isSome then x.sources + 1 else x.sources }

/-- Inserts a token, and gives its number. -/
def insertToken (x : TokenIndex) (start stop : Int) : TokenIndex × Nat :=
  ({ x with tokens := x.tokens ++ [(start, stop)] }, x.tokens.length)

/-- The index that holds only the built-in token, in a segment without source. -/
def initial : TokenIndex := ((empty.startSegment none none).insertToken 0 0).1

/-- Segments with a bound below a token's number start before that token, so the last of these
is the token's own. A number below every bound belongs to the last segment. -/
def segmentOf? (x : TokenIndex) (i : Int) : Option Segment :=
  getWrapping? x.segments ((x.segments.countP (·.bound < i) : Int) - 1)

/-- Where a token stands. -/
def lookup? (x : TokenIndex) (i : Int) : Option Span := do
  let s ← x.segmentOf? i
  let t ← getWrapping? x.tokens i
  return ⟨s.path, s.source, t.1, t.2⟩

/-- Where a range of tokens stands: the first token only, if the last is from elsewhere. -/
def lookupSpan? (x : TokenIndex) (first last : Int) : Option Span := do
  let l ← x.lookup? first
  let r ← x.lookup? last
  if l.source.map (·.number) = r.source.map (·.number) then
    return { l with stop := r.stop }
  else return l

end TokenIndex

/-- The excerpt that shows a span, if it has a source. -/
def Span.illustrate? (s : Span) (caption : String) : Option String :=
  s.source.map fun o => excerpt o.text s.start s.stop caption

end Source

end TypeFlow
