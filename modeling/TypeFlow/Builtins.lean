import TypeFlow.Graph.Update

/-! The primitive types and their methods. Arithmetic of an integer with a float gives a float;
each primitive but the void type can be compared with itself and printed. -/

namespace TypeFlow

/-- A built-in method: the type it belongs to, if any, and its signatures. -/
structure Builtin where
  owner : Option String
  name : String
  signatures : List (List String × String)

namespace Builtin

/-- The primitive types in the order in which they are listed. -/
def typeNames : List String := ["Bool", "Int", "Float", "Char", "String", "Void"]

/-- The types whose values can be compared and printed. -/
def valueTypes : List String := ["Bool", "Int", "Float", "Char", "String"]

def numbers : List String := ["Int", "Float"]

def arithmetic (number op : String) : Builtin :=
  ⟨some number, op, [(["Int"], number), (["Float"], "Float")]⟩

def comparison (number op : String) : Builtin :=
  ⟨some number, op, [(["Int"], "Bool"), (["Float"], "Bool")]⟩

/-- All built-in methods in the order of their definition. -/
def all : List Builtin :=
  (numbers.flatMap fun n =>
    (["+", "-", "*", "/"].map (arithmetic n)) ++ (["<", "<=", ">", ">="].map (comparison n))) ++
  (valueTypes.map fun t => ⟨some t, "==", [([t], "Bool")]⟩) ++
  [⟨some "Bool", "!", [([], "Bool")]⟩,
    ⟨some "Char", "ord", [([], "Int")]⟩,
    ⟨some "String", "length", [([], "Int")]⟩,
    ⟨some "String", "+", [(["String"], "String")]⟩,
    ⟨none, "puts", valueTypes.map fun t => ([t], "Void")⟩]

def arity (b : Builtin) : Nat := (b.signatures.head?.map (·.1.length)).getD 0

end Builtin

namespace Graph

/-- Adds a signature to a built-in method, if it has as many types as the method has
parameters. -/
def addSignature? (g : Graph) (method : NodeId) (params : List (Option Ty))
    (result : Option Ty) : Option Graph := do
  let m ← g.method? method
  guard (params.length = m.params.length)
  let owner := match m.source with
    | .builtin owner => owner.map Atom.prim
    | _ => none
  let (g, body) := g.addCell { role := .result, type := result }
  return (g.addInstance { method, params, owner, body }).1

/-- Adds a method that has no body, with numbered parameters. -/
def addBodiless (g : Graph) (name : String) (arity : Nat) (source : MethodSource) :
    Graph × NodeId :=
  let formals := (List.range arity).map fun i => ({ name := "arg" ++ toString i } : Param)
  g.addCell { role := .method { name, formals, source } }

/-- Adds a built-in method with its signatures. -/
def addBuiltin (g : Graph) (b : Builtin) : Graph :=
  let source := match b.owner with
    | some _ => .builtin b.owner
    | none => .external
  let (g, method) := g.addBodiless b.name b.arity source
  let g := b.signatures.foldl (fun g s =>
    (g.addSignature? method (s.1.map fun t => some (.prim t)) (some (.prim s.2))).getD g) g
  match b.owner with
  | some owner =>
      let table := (g.natives.lookup owner).getD []
      { g with natives := g.natives.put owner (table.put b.name method) }
  | none => { g with methods := g.methods.put b.name method }

/-- A graph that knows the primitive types and their methods. -/
def withBuiltins : Graph :=
  Builtin.all.foldl addBuiltin { natives := Builtin.typeNames.map fun n => (n, []) }

end Graph

end TypeFlow
