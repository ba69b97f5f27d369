import TypeFlow.Graph.Planting
import TypeFlow.Graph.Reach

/-! Copies of trees in the graph. A copy shares nothing that can change with what it is a copy of:
whatever the tree refers to is copied with it. References from outside stay as they are. -/

namespace TypeFlow

/-! ## Renaming -/

/-- New numbers for the pieces of a graph. -/
structure Renaming where
  cell : NodeId → NodeId
  object : ObjId → ObjId
  table : TableId → TableId
  inst : InstanceId → InstanceId

namespace Renaming

variable (r : Renaming)

def atom : Atom → Atom
  | .prim name => .prim name
  | .obj i => .obj (r.object i)

def ty : Ty → Ty
  | .one a => .one (r.atom a)
  | .union ms key => .union (ms.map r.atom) (key.map r.atom)

def row (ts : List (Option Ty)) : List (Option Ty) := ts.map (·.map r.ty)

def target : Target → Target
  | .dispatch d => .dispatch (r.cell d)
  | .inst i => .inst (r.inst i)

def site (s : Site) : Site :=
  { s with
    receiver := s.receiver.map r.cell
    args := s.args.map r.cell
    origin := r.cell s.origin
    target := s.target.map r.target }

def source : MethodSource → MethodSource
  | .written body root => .written body (r.cell root)
  | s => s

def param (p : Param) : Param := { p with type := p.type.map r.ty }

def method (m : Method) : Method :=
  { m with
    formals := m.formals.map r.param
    source := r.source m.source
    instances := m.instances.map fun e => (r.row e.1, r.inst e.2) }

def role : Role → Role
  | .call s => .call (r.site s)
  | .method m => .method (r.method m)
  | x => x

def cellOf (c : Cell) : Cell :=
  { c with
    role := r.role c.role
    type := c.type.map r.ty
    observers := c.observers.map fun o => (r.cell o.1, o.2) }

def names (t : Table String NodeId) : Table String NodeId := t.map fun e => (e.1, r.cell e.2)

def objectType (o : ObjectType) : ObjectType :=
  { o with methods := r.table o.methods, fields := r.names o.fields }

/-- The copy of an instance was never walked over by itself. -/
def instanceOf (x : Instance) : Instance where
  method := r.cell x.method
  params := r.row x.params
  owner := x.owner.map r.atom
  body := r.cell x.body

end Renaming

/-- The number of an element of a list when the list is put after `base` other things. Anything
else keeps its number. -/
def renumber (base : Nat) (kept : List Nat) (n : Nat) : Nat :=
  match kept.idxOf? n with
  | some k => base + k
  | none => n

/-! ## Copying -/

/-- No call was linked or resolved, no parameter was given a type, and no method was called. -/
def Role.isPristine : Role → Bool
  | .call s => !s.linked && s.target.isNone && !s.busy && !s.isNew
  | .method m => (m.formals.all fun p => p.type.isNone) && m.instances.isEmpty
  | _ => true

/-- Nothing has happened to a cell since its tree was planted. -/
def Cell.isPristine (c : Cell) : Bool :=
  c.type.isNone && c.observers.isEmpty && c.role.isPristine

namespace Graph

/-- Nothing has happened to the tree at an address since it was planted. -/
def isPristine (g : Graph) (root : NodeId) : Bool :=
  let extent := (g.cells[root]?.map (·.extent)).getD 0
  (List.range extent).all fun k => (g.cells[root + k]?.map Cell.isPristine).getD false

/-- Copies pieces of the graph, and gives their new numbers. They keep their order, so that the
tree below a node still follows it. -/
def copyPieces (g : Graph) (pieces : List Piece) : Graph × Renaming :=
  let cells := (List.range g.cells.size).filter fun n => pieces.contains (.cell n)
  let objects := (List.range g.objects.size).filter fun i => pieces.contains (.object i)
  let tables := (List.range g.tables.size).filter fun t => pieces.contains (.table t)
  let instances := (List.range g.instances.size).filter fun i => pieces.contains (.inst i)
  let r : Renaming := {
    cell := renumber g.cells.size cells
    object := renumber g.objects.size objects
    table := renumber g.tables.size tables
    inst := renumber g.instances.size instances }
  ({ g with
      cells := g.cells ++ ((cells.filterMap (g.cells[·]?)).map r.cellOf).toArray
      objects := g.objects ++ ((objects.filterMap (g.objects[·]?)).map r.objectType).toArray
      tables := g.tables ++ ((tables.filterMap (g.tables[·]?)).map r.names).toArray
      instances := g.instances ++
        ((instances.filterMap (g.instances[·]?)).map r.instanceOf).toArray }, r)

/-- Copies the tree at an address with all that has become of it, and gives the address of the
copy. A tree to which nothing has happened is planted once more. There is no copy of a tree that
refers to the program as a whole. -/
def copyTree? (g : Graph) (e : Expr) (root : NodeId) : Option (Graph × NodeId) :=
  if g.isPristine root then some (g.plant e)
  else
    (g.reach? (.cell root)).map fun pieces =>
      let (g, r) := g.copyPieces pieces
      (g, r.cell root)

theorem copyTree?_of_isPristine {g : Graph} {root : NodeId} (e : Expr)
    (h : g.isPristine root = true) : g.copyTree? e root = some (g.plant e) := by
  rw [copyTree?, if_pos h]

end Graph

end TypeFlow
