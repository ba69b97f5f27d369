import TypeFlow.Inference.Machine

/-! Propagation by itself: variables and recorders that observe each other, without any program
around them. -/

namespace TypeFlow

inductive PropagationStep where
  | addSlot (name : Option String) (type : Option Ty)
  | addRecorder
  /-- Adds a variable of the same name and type, without observers. -/
  | clone (node : NodeId)
  | observe (source observer : NodeId) (reaction : Reaction)
  | setType (node : NodeId) (type : Option Ty)
  | addType (node : NodeId) (type : Option Ty)
  | react (node : NodeId) (reaction : Reaction) (type : Option Ty)
  | notify (node : NodeId)
  deriving DecidableEq

namespace Graph

/-- Adds an object type with a method table of its own. -/
def addObject (g : Graph) (name : String) : Graph × ObjId :=
  ({ g with
      tables := g.tables.push []
      objects := g.objects.push ⟨name, g.tables.size, []⟩ }, g.objects.size)

/-- Gives an object type a new field of a type. -/
def setField (g : Graph) (i : ObjId) (name : String) (t : Option Ty) : Graph :=
  let (g, v) := g.addSlot (some name) t
  g.putField i name v

/-- The name of a variable. -/
def slotName? (g : Graph) (n : NodeId) : Option (Option String) :=
  match g.role n with
  | .slot name => some name
  | _ => none

/-- What a step adds to the graph, and the tasks that it sets. A missing type sets none. -/
def begin (g : Graph) : PropagationStep → Graph × List Task
  | .addSlot name t => ((g.addSlot name t).1, [])
  | .addRecorder => ((g.addCell { role := .recorder }).1, [])
  | .clone n => ((g.addCell { role := g.role n, type := g.type n }).1, [])
  | .observe s o r => (g, [.subscribe s o r])
  | .setType n t => (g, t.toList.map (.store n))
  | .addType n t => (g, t.toList.map (.widen n))
  | .react n r t => (g, [.react none n r t])
  | .notify n => (g, [.notify n])

/-- Runs one step of propagation. -/
def propagate (g : Graph) (budget : Nat) (step : PropagationStep) : Graph × Outcome :=
  let (g, tasks) := g.begin step
  run budget g tasks

end Graph

end TypeFlow
