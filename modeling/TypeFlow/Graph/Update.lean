import TypeFlow.Graph.Basic

/-! Changes of the graph. Nothing is ever removed from it: cells, object types, instances and
walks are added at the end, so that their numbers keep their meaning. -/

namespace TypeFlow

namespace Graph

def setType (g : Graph) (n : NodeId) (t : Ty) : Graph :=
  { g with cells := g.cells.modify n fun c => { c with type := some t } }

/-- Subscribes an observer, or changes its reaction. -/
def addObserver (g : Graph) (n observer : NodeId) (r : Reaction) : Graph :=
  { g with cells := g.cells.modify n fun c => { c with observers := c.observers.put observer r } }

def modifySite (g : Graph) (n : NodeId) (f : Site → Site) : Graph :=
  { g with cells := g.cells.modify n fun c =>
      match c.role with
      | .call s => { c with role := .call (f s) }
      | _ => c }

def modifyMethod (g : Graph) (n : NodeId) (f : Method → Method) : Graph :=
  { g with cells := g.cells.modify n fun c =>
      match c.role with
      | .method m => { c with role := .method (f m) }
      | _ => c }

def modifyDispatch (g : Graph) (n : NodeId) (f : Dispatch → Dispatch) : Graph :=
  { g with cells := g.cells.modify n fun c =>
      match c.role with
      | .dispatch d => { c with role := .dispatch (f d) }
      | _ => c }

def modifyWalk (g : Graph) (w : WalkId) (f : Walk → Walk) : Graph :=
  { g with walks := g.walks.modify w f }

/-- Adds a cell, and gives its address. -/
def addCell (g : Graph) (c : Cell) : Graph × NodeId :=
  ({ g with cells := g.cells.push c }, g.cells.size)

/-- Adds a variable, with its type if it is known. -/
def addSlot (g : Graph) (name : Option String) (t : Option Ty) : Graph × NodeId :=
  g.addCell { role := .slot name, type := t }

/-- Adds a variable for each of several types. -/
def addSlots (g : Graph) : List (Option String × Ty) → Graph × List NodeId
  | [] => (g, [])
  | (name, t) :: rest =>
      let (g, n) := g.addSlot name (some t)
      let (g, ns) := g.addSlots rest
      (g, n :: ns)

def addWalk (g : Graph) (w : Walk) : Graph × WalkId :=
  ({ g with walks := g.walks.push w }, g.walks.size)

def notice (g : Graph) (n : Notice) : Graph := { g with notices := g.notices.push n }

def hear (g : Graph) (h : Heard) : Graph := { g with heard := g.heard.push h }

/-- Keeps an instance under the types of its parameters. -/
def addInstance (g : Graph) (i : Instance) : Graph × InstanceId :=
  let h := g.heap
  let id := g.instances.size
  ({ g with instances := g.instances.push i }.modifyMethod i.method fun m =>
      { m with instances := m.instances.putBy h.sameRow i.params id }, id)

/-- Adds a class by its prototype, an object type without fields, and an empty method table. -/
def addClass (g : Graph) (name : String) : Graph × ObjId :=
  ({ g with
      tables := g.tables.push []
      objects := g.objects.push ⟨name, g.tables.size, []⟩
      classes := g.classes.put name g.objects.size }, g.objects.size)

/-- Copies the fields of an object into cells of their own. -/
def copyFields (g : Graph) : Table String NodeId → Graph × Table String NodeId
  | [] => (g, [])
  | (name, v) :: rest =>
      let copy : Cell := { role := g.role v, type := g.type v }
      let (g, n) := g.addCell copy
      let (g, fields) := g.copyFields rest
      (g, (name, n) :: fields)

/-- Adds an object type like the given one, with fields of its own and the same methods. -/
def cloneObject (g : Graph) (i : ObjId) : Graph × ObjId :=
  match g.objects[i]? with
  | none => (g, i)
  | some o =>
      let (g, fields) := g.copyFields o.fields
      ({ g with objects := g.objects.push { o with fields } }, g.objects.size)

/-- Gives an object type a field. -/
def putField (g : Graph) (i : ObjId) (name : String) (v : NodeId) : Graph :=
  { g with objects := g.objects.modify i fun o => { o with fields := o.fields.put name v } }

/-- Gives a class, or the program if there is none, a method. -/
def putMethod (g : Graph) (klass : Option ObjId) (name : String) (m : NodeId) : Graph :=
  match klass.bind fun i => g.objects[i]? with
  | some o => { g with tables := g.tables.modify o.methods fun t => t.put name m }
  | none => { g with methods := g.methods.put name m }

end Graph

end TypeFlow
