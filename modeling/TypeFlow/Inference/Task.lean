import TypeFlow.Graph.Update
import TypeFlow.Inference.Error

/-! The work that inference has left. Tasks wait on a stack: what a task gives rise to is done
before what was waiting. Two tasks only mark how far the work on a body has come. -/

namespace TypeFlow

inductive Task where
  /-- Walks over a tree that lies at an address. -/
  | visit (walk : WalkId) (expr : Expr) (node : NodeId)
  /-- Replaces the type of a node. -/
  | store (node : NodeId) (type : Ty)
  /-- Merges a type into that of a node. -/
  | widen (node : NodeId) (type : Ty)
  /-- Makes one node observe another. -/
  | subscribe (source observer : NodeId) (reaction : Reaction)
  /-- Tells an observer the type that a node has by then. -/
  | deliver (source observer : NodeId) (reaction : Reaction)
  /-- Lets an observer react to a type, which it may have from a node that it observes. -/
  | react (source : Option NodeId) (observer : NodeId) (reaction : Reaction) (type : Option Ty)
  /-- Tells all observers of a node its type. -/
  | notify (node : NodeId)
  /-- Connects an assignment with what it assigns to. -/
  | bind (walk : WalkId) (target : Place) (node : NodeId)
  /-- Finds out what a call calls. -/
  | resolve (call : NodeId)
  /-- Records what a call calls. -/
  | aim (call : NodeId) (target : Target)
  /-- Adds one of the calls that a dispatch stands for. -/
  | member (dispatch : NodeId) (receiver : Option Atom) (args : List Atom)
  /-- Records that a call makes a new object. -/
  | markNew (call : NodeId)
  /-- Ends the walk over an instance that a call began. -/
  | finish (call : NodeId) (inst : InstanceId)
  /-- Ends the walk over a class body, back to the class outside of it. -/
  | leave (walk : WalkId) (outer : Option ObjId)

/-- The graph after a task, and what the task leaves to do. -/
abbrev Step := Graph × Except Fault (List Task)

namespace Graph

def next (g : Graph) (tasks : List Task) : Step := (g, .ok tasks)

def fail (g : Graph) (fault : Fault) : Step := (g, .error fault)

end Graph

end TypeFlow
