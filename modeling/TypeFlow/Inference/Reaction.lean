import TypeFlow.Inference.Task
import TypeFlow.Ty.Merge

/-! How types spread. A node that gets another type tells the observers that it has at that
moment, each of them the type that the node has when its turn comes. A node that subscribes
later is told at once, so that nobody misses a type. -/

namespace TypeFlow.Graph

/-- Gives a node a type, unless it has an equal one. -/
def storeType (g : Graph) (n : NodeId) (t : Ty) : Step :=
  let deliveries := (g.observers n).map fun o => Task.deliver n o.1 o.2
  match g.type n with
  | some old => if g.heap.same old t then g.next [] else (g.setType n t).next deliveries
  | none => (g.setType n t).next deliveries

/-- Merges a type into that of a node. -/
def widenType (g : Graph) (n : NodeId) (t : Ty) : Step :=
  match g.type n with
  | none => g.storeType n t
  | some old =>
      let joined := g.heap.merge old t
      if joined.WellFormed then g.storeType n joined else g.fail (.malformedUnion n)

/-- Makes one node observe another, and tells it the type that is already there. -/
def subscribe (g : Graph) (source observer : NodeId) (r : Reaction) : Step :=
  (g.addObserver source observer r).next <|
    match g.type source with
    | some t => [.react (some source) observer r (some t)]
    | none => []

/-- Only a call can resolve itself again. A recorder notes what it is told, and merges as other
nodes do. -/
def react (g : Graph) (source : Option NodeId) (n : NodeId) (r : Reaction) (t : Option Ty) :
    Step :=
  let heard : Heard := ⟨n, source, r, t⟩
  let widening := t.toList.map (Task.widen n)
  match r, g.role n with
  | .merge, .recorder => (g.hear heard).next widening
  | .merge, _ => g.next widening
  | .resolve, .recorder => (g.hear heard).next []
  | .resolve, .call _ => g.next [.resolve n]
  | .resolve, _ => g.fail (.cannotResolve n)
  | .other word, _ => g.fail (.unknownReaction word)

/-- Tells all observers of a node its type, even if it has none. -/
def notify (g : Graph) (n : NodeId) : Step :=
  g.next ((g.observers n).map fun o => .deliver n o.1 o.2)

end TypeFlow.Graph
