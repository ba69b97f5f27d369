import TypeFlow.Diagnostics.Picture

/-! Reports collect issues, up to a limit, and print them. -/

namespace TypeFlow

/-- The issues so far, whether notices are printed, and how many issues are too many. -/
structure Report where
  verbose : Bool := false
  limit : Option Int := some 3
  issues : List Issue := []

namespace Report

def ok (r : Report) : Bool := r.issues.isEmpty

/-- Adds an issue. The second part tells whether there are now exactly as many as are too
many; the issue is kept in any case. -/
def complain (r : Report) (i : Issue) : Report × Bool :=
  let r := { r with issues := r.issues ++ [i] }
  (r, r.limit == some (r.issues.length : Int))

/-- A line of words, if the report is verbose. -/
def info (r : Report) (words : List String) : String :=
  if r.verbose then " ".intercalate words ++ "\n" else ""

def tally (r : Report) : String :=
  "Type inference failed with " ++ toString r.issues.length ++ " issue" ++
    (if r.issues.length = 1 then "" else "s") ++ "."

/-- Prints numbered issues. The second part is false if an issue has no picture; printing stops
before it. -/
def printFrom (index : Source.TokenIndex) (n : Nat) : List Issue → String × Bool
  | [] => ("", true)
  | i :: rest =>
      match i.text? index with
      | none => ("\n", false)
      | some text =>
          let (more, done) := printFrom index (n + 1) rest
          ("\n[issue " ++ toString n ++ "] " ++ text ++ "\n" ++ more, done)

/-- Prints the tally and all issues, or nothing if there are none. -/
def console (index : Source.TokenIndex) (r : Report) : String × Bool :=
  if r.ok then ("", true)
  else
    let (text, done) := printFrom index 1 r.issues
    (r.tally ++ "\n" ++ text, done)

/-- The text of the failure that follows when there should have been no issues. -/
def failure (r : Report) (message : String) : String := r.tally ++ " " ++ message

end Report

end TypeFlow
