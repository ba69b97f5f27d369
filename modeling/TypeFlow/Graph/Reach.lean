import TypeFlow.Graph.Basic

/-! What can be reached from a piece of the graph by following references. A node of a tree refers
to the tree below it, and nothing refers to the walk that a variable belongs to.
Some pieces refer to the program as a whole: the calls that it is linked with, the dispatches, the
instances that it owns and the built-in methods. -/

namespace TypeFlow

/-- Something in the graph that others refer to. -/
inductive Piece where
  | cell (node : NodeId)
  | object (id : ObjId)
  | table (id : TableId)
  | inst (id : InstanceId)
  deriving DecidableEq

/-! ## References

Each list is missing if the program as a whole is among the references. -/

/-- Joins lists of references. -/
def joinPieces (xs : List (Option (List Piece))) : Option (List Piece) :=
  (xs.mapM id).map List.flatten

/-- A primitive type refers to its built-in methods. Only the void type has none. -/
def Atom.pieces? : Atom → Option (List Piece)
  | .prim name => if Ty.prim name = .void then some [] else none
  | .obj i => some [.object i]

def Ty.pieces? (t : Ty) : Option (List Piece) := joinPieces (t.members.map Atom.pieces?)

/-- The references of a row of types that may be missing. -/
def rowPieces? (ts : List (Option Ty)) : Option (List Piece) :=
  joinPieces ((ts.filterMap id).map Ty.pieces?)

namespace Site

def pieces? (s : Site) : Option (List Piece) :=
  let inputs := (s.origin :: s.receiver.toList ++ s.args).map Piece.cell
  if s.linked then none
  else
    match s.target with
    | none => some inputs
    | some (.inst i) => some (.inst i :: inputs)
    | some (.dispatch _) => none

end Site

namespace Method

def pieces? (m : Method) : Option (List Piece) :=
  match m.source with
  | .written _ root =>
      let rows := m.formals.map (·.type) :: m.instances.map (·.1)
      (joinPieces (rows.map rowPieces?)).map fun types =>
        .cell root :: types ++ m.instances.map fun e => .inst e.2
  | _ => none

end Method

def Role.pieces? : Role → Option (List Piece)
  | .call s => s.pieces?
  | .method m => m.pieces?
  | .dispatch _ => none
  | _ => some []

/-- The references of a cell at an address. -/
def Cell.pieces? (c : Cell) (n : NodeId) : Option (List Piece) :=
  let below := (List.range c.extent).map fun k => Piece.cell (n + k)
  let observers := c.observers.map fun o => Piece.cell o.1
  joinPieces [some below, some observers, rowPieces? [c.type], c.role.pieces?]

def Instance.pieces? (x : Instance) : Option (List Piece) :=
  x.owner.bind fun o => joinPieces [o.pieces?, rowPieces? x.params, some [.cell x.body]]

namespace Graph

/-- All pieces of the graph. -/
def pieces (g : Graph) : List Piece :=
  (List.range g.cells.size).map .cell ++ (List.range g.objects.size).map .object ++
    (List.range g.tables.size).map .table ++ (List.range g.instances.size).map .inst

/-- The references of a piece. -/
def links? (g : Graph) : Piece → Option (List Piece)
  | .cell n => g.cells[n]?.bind fun c => c.pieces? n
  | .object i => g.objects[i]?.map fun o => .table o.methods :: o.fields.map fun f => .cell f.2
  | .table t => g.tables[t]?.map fun ms => ms.map fun m => .cell m.2
  | .inst i => g.instances[i]?.bind Instance.pieces?

/-- Follows references from the pending pieces to those that remain, and adds them to the pieces
that were found. -/
def follow? (g : Graph) (remaining pending found : List Piece) : Option (List Piece) :=
  match pending with
  | [] => some found
  | p :: rest =>
      if _h : p ∈ remaining then
        match g.links? p with
        | none => none
        | some next => g.follow? (remaining.erase p) (next ++ rest) (p :: found)
      else g.follow? remaining rest found
termination_by (remaining.length, pending.length)
decreasing_by
  · have := List.length_pos_of_mem _h
    exact Prod.Lex.left _ _ (by rw [List.length_erase_of_mem _h]; omega)
  · exact Prod.Lex.right _ (by simp)

/-- All pieces that can be reached from a piece, itself included. -/
def reach? (g : Graph) (p : Piece) : Option (List Piece) := g.follow? g.pieces [p] []

end Graph

end TypeFlow
