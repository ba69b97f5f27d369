import TypeFlow.Ty.Equality

/-! The comparison of types as a search that keeps one set of the pairs of object types that are
under comparison. A pair is put there before its fields are compared, and taken out afterwards; a
search for a member or a field stops at the first one that decides it. -/

namespace TypeFlow

/-- A search that may change the pairs under comparison. There is no answer if it would have to go
deeper than it may. -/
abbrev Search := StateT (List (ObjId × ObjId)) Option

namespace Atom

def searchBy (objects : ObjId → ObjId → Search Bool) : Atom → Atom → Search Bool
  | .prim a, .prim b => return a == b
  | .obj a, .obj b => objects a b
  | _, _ => return false

end Atom

namespace Ty

def searchBy (objects : ObjId → ObjId → Search Bool) : Ty → Ty → Search Bool
  | .one a, .one b => a.searchBy objects b
  | .union _ ka, .union _ kb =>
      if ka.length == kb.length then
        kb.allM fun y => ka.anyM fun x => x.searchBy objects y
      else return false
  | _, _ => return false

def searchOptionBy (objects : ObjId → ObjId → Search Bool) : Option Ty → Option Ty → Search Bool
  | none, none => return true
  | some a, some b => a.searchBy objects b
  | _, _ => return false

end Ty

def searchFieldsBy (objects : ObjId → ObjId → Search Bool) (fs gs : List (String × Option Ty)) :
    Search Bool :=
  if fs.length == gs.length then
    fs.allM fun f =>
      match gs.lookup f.1 with
      | some t => Ty.searchOptionBy objects f.2 t
      | none => return false
  else return false

namespace Heap

/-- Compares two object types, opening at most `depth` pairs inside each other. -/
def searchObjects (h : Heap) : Nat → ObjId → ObjId → Search Bool
  | 0, _, _ => failure
  | depth + 1, a, b => do
      if a == b then return true
      if h.name a != h.name b then return false
      if (← get).contains (a, b) then return true
      modify ((a, b) :: ·)
      let found ← searchFieldsBy (h.searchObjects depth) (h.fields a) (h.fields b)
      modify (·.erase (a, b))
      return found

/-- Compares two types, opening at most `depth` pairs of object types inside each other. -/
def search (h : Heap) (depth : Nat) (a b : Ty) : Search Bool := a.searchBy (h.searchObjects depth) b

end Heap

end TypeFlow
