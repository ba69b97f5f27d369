import TypeFlow.Inference.Error
import TypeFlow.Source.TokenIndex

/-! Pictures of errors: the path from the outermost call down to the cause, each step with an
excerpt of the source that it points at, if it points at any. -/

namespace TypeFlow

/-- One step of an error: what it says, and the tokens it points at. -/
structure Remark where
  message : String
  span : Option (Int × Int)
  deriving DecidableEq

/-- The steps of an error, outermost first. -/
def InferenceError.remarks (e : InferenceError) : List Remark :=
  e.chain.map fun x => ⟨x.message, some x.site.span⟩

/-- An issue that was found, with its steps. -/
structure Issue where
  remarks : List Remark
  deriving DecidableEq

namespace Issue

def description (i : Issue) : String := (i.remarks.head?.map (·.message)).getD ""

def rootCause (i : Issue) : String := (i.remarks.getLast?.map (·.message)).getD ""

/-- The lines that show where a step points, and the path that stands above the excerpts from
there on. The path is repeated only when it changes. There is no picture of a token that is
not in the index. -/
def excerptLines? (index : Source.TokenIndex) (path : Option String) (r : Remark) :
    Option (Option String × List String) :=
  match r.span with
  | none => some (path, [])
  | some (first, last) => do
      let s ← index.lookupSpan? first last
      match s.illustrate? "here" with
      | none => return (path, [])
      | some text =>
          let head := if s.path = path then [] else ["   in " ++ s.path.getD "None"]
          return (s.path, head ++ [text])

/-- The lines of the steps from some depth on. Steps are numbered if there are several. -/
def stepLines? (index : Source.TokenIndex) (chained : Bool) (path : Option String) (depth : Nat) :
    List Remark → Option (List String)
  | [] => some []
  | r :: rest => do
      let head :=
        if chained then ["".pushn ' ' (2 * depth) ++ toString (depth + 1) ++ ". " ++ r.message]
        else []
      let (path, excerpt) ← excerptLines? index path r
      let lines ← stepLines? index chained path (depth + 1) rest
      return head ++ excerpt ++ lines

/-- The picture of an issue. -/
def text? (index : Source.TokenIndex) (i : Issue) : Option String := do
  let chained := 1 < i.remarks.length
  let title := if chained then i.description ++ ": " ++ i.rootCause else i.description
  let lines ← stepLines? index chained none 0 i.remarks
  return "\n".intercalate (title :: lines)

end Issue

end TypeFlow
