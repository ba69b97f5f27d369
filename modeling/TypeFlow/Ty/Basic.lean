/-! Types of a program, and the heap of object types they point into.
A union lists atoms only, so unions cannot nest. -/

namespace TypeFlow

/-- The identity of an object type. -/
abbrev ObjId := Nat

/-- A concrete type: a primitive is its name, an object type is its identity. -/
inductive Atom where
  | prim (name : String)
  | obj (id : ObjId)
  deriving DecidableEq

/-- What an expression may evaluate to. A union keeps its members as they were listed,
and the members that were pairwise unequal when it was built, which decide its equality. -/
inductive Ty where
  | one (atom : Atom)
  | union (members key : List Atom)
  deriving DecidableEq

namespace Ty

/-- The primitive type of a name. -/
def prim (name : String) : Ty := .one (.prim name)

/-- The type of what has no value. -/
def void : Ty := .prim "Void"

/-- The object type of an identity. -/
def obj (id : ObjId) : Ty := .one (.obj id)

/-- A union lists its members; any other type is its own only member. -/
def members : Ty → List Atom
  | .one a => [a]
  | .union ms _ => ms

/-- The concrete type of a type that is not a union. -/
def atom? : Ty → Option Atom
  | .one a => some a
  | .union _ _ => none

/-- More than one concrete type is possible. -/
def isMixed (t : Ty) : Bool := 1 < t.members.length

/-- A union has at least two members. -/
def WellFormed : Ty → Prop
  | .one _ => True
  | .union ms _ => 2 ≤ ms.length

instance : DecidablePred WellFormed
  | .one _ => .isTrue trivial
  | .union ms _ => inferInstanceAs (Decidable (2 ≤ ms.length))

@[simp] theorem members_one (a : Atom) : (Ty.one a).members = [a] := rfl

@[simp] theorem members_union (ms key : List Atom) : (Ty.union ms key).members = ms := rfl

end Ty

/-- The state of the object types at one moment: their names, and the types of their fields
in the order in which the fields appeared. Identities of objects lie below `size`. -/
structure Heap where
  size : Nat
  name : ObjId → String
  fields : ObjId → List (String × Option Ty)

namespace Heap

/-- The heap without object types. -/
def empty : Heap := ⟨0, fun _ => "", fun _ => []⟩

/-- An object type goes by the name of its class. -/
def atomName (h : Heap) : Atom → String
  | .prim n => n
  | .obj i => h.name i

/-- A union is written with its member names in the order of their code points. -/
def tyName (h : Heap) : Ty → String
  | .one a => h.atomName a
  | .union ms _ =>
      "Union[" ++ ", ".intercalate ((ms.map h.atomName).mergeSort fun a b => decide (a ≤ b)) ++ "]"

end Heap

end TypeFlow
