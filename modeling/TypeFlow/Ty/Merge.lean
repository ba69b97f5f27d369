import TypeFlow.Ty.Equality

/-! Joining types. The members of the first type come first and keep their order;
of two equal members the earlier one stays. -/

namespace TypeFlow

namespace Heap

/-- Adds a member unless a kept one equals it. -/
def insertMember (h : Heap) (kept : List Atom) (x : Atom) : List Atom :=
  if kept.any (h.sameAtom · x) then kept else kept ++ [x]

/-- Keeps the first of any members that are equal. -/
def distinct (h : Heap) (xs : List Atom) : List Atom := xs.foldl h.insertMember []

/-- One member is itself; any others form a union of them. -/
def ofMembers : List Atom → Ty
  | [a] => .one a
  | xs => .union xs xs

/-- The join of two types: the first one itself if they are equal. -/
def merge (h : Heap) (a b : Ty) : Ty :=
  if h.same a b then a else ofMembers (h.distinct (a.members ++ b.members))

/-- The union of listed types, in their order and with repetitions kept. There is none of
fewer than two types, or of a type that is itself a union. -/
def union? (h : Heap) (ts : List Ty) : Option Ty :=
  if ts.length < 2 then none else (ts.mapM Ty.atom?).map fun ms => .union ms (h.distinct ms)

end Heap

end TypeFlow
