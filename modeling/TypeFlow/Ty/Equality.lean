import TypeFlow.Ty.Basic

/-! Equality of types is structural: primitives agree by name, object types by name and by
the present types of their fields, unions by the members they were built from.
A pair of object types that is already under comparison counts as equal, so that the search
ends on object types that refer to themselves. -/

namespace TypeFlow

/-! ## One level, given how object types compare -/

namespace Atom

/-- A primitive never equals an object type, not even one of the same name. -/
def sameBy (objects : ObjId → ObjId → Bool) : Atom → Atom → Bool
  | .prim a, .prim b => a == b
  | .obj a, .obj b => objects a b
  | _, _ => false

end Atom

namespace Ty

/-- Two unions are equal when they were built from equally many unequal members and each
member of the second equals a member of the first.

Hashes are left out. The hash of an object type is that of its name, so hashes that were kept for
the sets of members can tell two such unions apart only if members of some union have become equal
since that one was built. -/
def sameBy (objects : ObjId → ObjId → Bool) : Ty → Ty → Bool
  | .one a, .one b => a.sameBy objects b
  | .union _ ka, .union _ kb =>
      ka.length == kb.length && kb.all fun y => ka.any fun x => x.sameBy objects y
  | _, _ => false

/-- A missing type equals only a missing type. -/
def sameOptionBy (objects : ObjId → ObjId → Bool) : Option Ty → Option Ty → Bool
  | none, none => true
  | some a, some b => a.sameBy objects b
  | _, _ => false

end Ty

/-- Two lists of fields agree when they name the same fields and each field of the first has
the type that the second gives it. -/
def sameFieldsBy (objects : ObjId → ObjId → Bool) (fs gs : List (String × Option Ty)) : Bool :=
  fs.length == gs.length && fs.all fun f =>
    match gs.lookup f.1 with
    | some t => Ty.sameOptionBy objects f.2 t
    | none => false

/-! ## All levels -/

namespace Heap

/-- Compares two object types, opening at most `depth` pairs inside each other. -/
def sameObjectsWithin (h : Heap) : Nat → List (ObjId × ObjId) → ObjId → ObjId → Bool
  | 0, _, _, _ => true
  | depth + 1, assumed, a, b =>
      a == b || (h.name a == h.name b && (assumed.contains (a, b) ||
        sameFieldsBy (h.sameObjectsWithin depth ((a, b) :: assumed)) (h.fields a) (h.fields b)))

/-- Equality of two object types. A pair is opened once on each path, so that the number of
pairs bounds the depth. -/
def sameObjects (h : Heap) (a b : ObjId) : Bool :=
  h.sameObjectsWithin (h.size * h.size + 1) [] a b

/-- Equality of two concrete types. -/
def sameAtom (h : Heap) (a b : Atom) : Bool := a.sameBy h.sameObjects b

/-- Equality of two types. -/
def same (h : Heap) (a b : Ty) : Bool := a.sameBy h.sameObjects b

/-- Equality of two types that may be missing. -/
def sameOption (h : Heap) (a b : Option Ty) : Bool := Ty.sameOptionBy h.sameObjects a b

/-- Componentwise equality of two rows of types that may be missing. -/
def sameRow (h : Heap) : List (Option Ty) → List (Option Ty) → Bool
  | [], [] => true
  | a :: as, b :: bs => h.sameOption a b && h.sameRow as bs
  | _, _ => false

end Heap

end TypeFlow
