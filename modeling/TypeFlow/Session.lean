import TypeFlow.Builtins
import TypeFlow.Inference.Machine

/-! Sessions: programs that share one graph. A session walks over them one after the other, and
can change the types of their nodes from outside. A step that fails leaves what it has done. -/

namespace TypeFlow

/-- Where a type that is given from outside comes from. -/
inductive TypeSource where
  | primitive (name : String)
  | cloneOf (className : String)
  deriving DecidableEq

inductive SessionStep where
  /-- Walks over a new tree, with the local variables of the session. -/
  | visit (tree : Expr)
  /-- Walks over a new tree, with local variables of its own. -/
  | fresh (tree : Expr)
  /-- Resolves a call again. -/
  | recalc (node : NodeId)
  /-- Merges a type into that of a node. -/
  | addType (node : NodeId) (type : Ty)
  /-- Replaces the type of a node. -/
  | setType (node : NodeId) (type : Ty)

/-- The graph, the trees in the order in which they were walked over, and the walk that holds
the shared local variables. -/
structure Session where
  graph : Graph
  trees : Array (Expr × NodeId)
  walk : WalkId

namespace Session

/-- A session without trees. -/
def start : Session :=
  let (graph, walk) := Graph.withBuiltins.addWalk {}
  { graph, trees := #[], walk }

/-- Plants a tree. -/
def plant (s : Session) (tree : Expr) : Session × NodeId :=
  let (graph, root) := s.graph.plant tree
  ({ s with graph, trees := s.trees.push (tree, root) }, root)

/-- Runs tasks on the graph of a session. -/
def run (s : Session) (budget : Nat) (tasks : List Task) : Session × Graph.Outcome :=
  let (graph, outcome) := Graph.run budget s.graph tasks
  ({ s with graph }, outcome)

def step (s : Session) (budget : Nat) : SessionStep → Session × Graph.Outcome
  | .visit tree =>
      let (s, root) := s.plant tree
      s.run budget [.visit s.walk tree root]
  | .fresh tree =>
      let (s, root) := s.plant tree
      let (graph, walk) := s.graph.addWalk {}
      { s with graph }.run budget [.visit walk tree root]
  | .recalc n => s.run budget [.resolve n]
  | .addType n t => s.run budget [.widen n t]
  | .setType n t => s.run budget [.store n t]

/-- The type that a source stands for. A class stands for a clone of its prototype. -/
def typeOf? (s : Session) : TypeSource → Option (Session × Ty)
  | .primitive name => some (s, .prim name)
  | .cloneOf name =>
      (s.graph.classes.lookup name).map fun i =>
        let (graph, j) := s.graph.cloneObject i
        ({ s with graph }, .obj j)

/-- The address of a node, given by the number of its tree and its place in preorder. -/
def node? (s : Session) (tree place : Nat) : Option NodeId := do
  let (e, root) ← s.trees[tree]?
  if place < e.size then some (root + place) else none

/-- Drops the notices that were read. -/
def clearNotices (s : Session) : Session := { s with graph := { s.graph with notices := #[] } }

end Session

/-- Infers the types of one program. -/
def inferTypes (budget : Nat) (tree : Expr) : Session × Graph.Outcome :=
  Session.start.step budget (.visit tree)

end TypeFlow
