import TypeFlow.Graph.Basic

/-! Trees in the graph. A tree takes one cell for each of its nodes, in preorder. -/

namespace TypeFlow

namespace Graph

/-- What a node of a tree stands for when the tree is new. -/
def freshRole (i : NodeId) : Expr → Role
  | e@(.call r n as p) =>
      .call {
        receiver := r.map fun _ => i + 1
        args := (Expr.spread (i + 1 + Expr.sizeOption r) as).map (·.1)
        name := n
        origin := i
        parens := p
        span := e.span }
  | .method n ps b =>
      .method {
        name := n.text
        formals := ps.map fun p => { name := p.text }
        source := .written b (i + 1) }
  | _ => .plain

/-- Adds untyped cells for all nodes of a tree, and gives its address. -/
def plant (g : Graph) (e : Expr) : Graph × NodeId :=
  let root := g.cells.size
  ({ g with cells := g.cells ++ ((e.nodes root).map fun n =>
      ({ role := freshRole n.1 n.2, extent := n.2.size } : Cell)).toArray }, root)

end Graph

end TypeFlow
