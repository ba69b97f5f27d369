import TypeFlow.Builtins
import TypeFlow.Propagation

/-! A workbench for types: each step makes a type, changes an object type or asks something
about types made before. Types are referred to by the number of the step that made them. -/

namespace TypeFlow

/-- A type on the workbench. It has a method table of its own, and so has each of its members.
The table of a type with one member is that of the member. -/
structure Held where
  type : Ty
  methods : TableId
  memberMethods : List TableId
  deriving DecidableEq

namespace Held

/-- A concrete type with its method table. -/
def single (a : Atom) (methods : TableId) : Held := ⟨.one a, methods, [methods]⟩

/-- The members with their method tables. -/
def parts (h : Held) : List (Atom × TableId) := h.type.members.zip h.memberMethods

end Held

inductive WorkbenchStep where
  | prim (name : String)
  | object (name : String)
  | clone (a : Nat)
  | union (ts : List Nat)
  | merge (a : Nat) (b : Option Nat)
  | fold (ts : List Nat)
  | setField (a : Nat) (name : String) (b : Option Nat)
  | widenField (a : Nat) (name : String) (b : Option Nat)
  | equal (a : Nat) (b : Option Nat)
  | members (a : Nat)
  | name (a : Nat)
  | fields (a : Nat)
  | addMethod (a : Nat) (name : String) (arity : Nat)
  | findMethod (a : Nat) (name : String)
  | define (name : String) (arity : Nat) (frozen : Bool)
  | putInstance (name : String) (ts : List Nat)
  | getInstance (name : String) (ts : List Nat)
  | addSignature (name : String) (ts : List Nat) (result : Nat)
  | keys (name : String)
  deriving DecidableEq

inductive Answer where
  | type (type : Option Ty)
  | done
  | truth (b : Bool)
  | members (atoms : List Atom)
  | name (text : String)
  | fields (fields : List (String × Option Ty))
  | method (found : Option (String × Nat))
  | made (id : InstanceId)
  | inst (id : Option InstanceId)
  | keys (keys : List (List (Option Ty)))
  deriving DecidableEq

/-- Why a step is refused. -/
inductive Refusal where
  /-- A union needs two types that are not unions. -/
  | malformedUnion
  /-- A signature needs as many types as there are parameters. -/
  | wrongArity
  /-- There is no type, or it is not of the kind that the step is about. -/
  | wrongKind
  /-- Nothing is known by a name. -/
  | unknownName
  /-- Nothing can be merged from no types. -/
  | nothingToFold
  deriving DecidableEq

/-- The graph that holds the object types, what each step made, and the methods by name. -/
structure Workbench where
  graph : Graph := {}
  held : Array (Option Held) := #[]
  methods : Table String NodeId := []

namespace Graph

/-- Adds a written method with an empty body. -/
def addEmptyMethod (g : Graph) (name : String) (arity : Nat) : Graph × NodeId :=
  let (g, root) := g.plant (.block [])
  g.addBodiless name arity (.written (.block []) root)

/-- The program gives the method a body. -/
def isWritten (g : Graph) (n : NodeId) : Bool :=
  match g.method? n with
  | some { source := .written _ _, .. } => true
  | _ => false

end Graph

namespace Workbench

/-- The type that a step made. -/
def held? (w : Workbench) (i : Nat) : Option Held := w.held[i]?.join

def type? (w : Workbench) (i : Nat) : Option Ty := (w.held? i).map (·.type)

/-- The object type that a step made. -/
def object? (w : Workbench) (i : Nat) : Option ObjId :=
  match w.type? i with
  | some (.one (.obj o)) => some o
  | _ => none

/-- Keeps what a step made. -/
def hold (w : Workbench) (h : Option Held) : Workbench := { w with held := w.held.push h }

/-- Adds a method table. -/
def addTable (w : Workbench) : Workbench × TableId :=
  ({ w with graph := { w.graph with tables := w.graph.tables.push [] } }, w.graph.tables.size)

abbrev Reply := Workbench × Except Refusal Answer

/-- Answers a step that makes no type. -/
def answer (w : Workbench) (a : Answer) : Reply := (w.hold none, .ok a)

def refuse (w : Workbench) (r : Refusal) : Reply := (w.hold none, .error r)

/-- Answers a question about something that a step made, if it is there. -/
def ask {α : Type} (w : Workbench) (x : Option α) (f : α → Answer) : Reply :=
  match x with
  | some a => w.answer (f a)
  | none => w.refuse .wrongKind

/-- Answers a step that makes a type. -/
def make (w : Workbench) (h : Option Held) : Reply :=
  (w.hold h, .ok (.type (h.map (·.type))))

/-! ## Making types -/

/-- Every mention of a primitive has a method table of its own. -/
def prim (w : Workbench) (name : String) : Reply :=
  let (w, table) := w.addTable
  w.make (some (.single (.prim name) table))

/-- Answers with an object type. It has the table of its class. -/
def makeObject (w : Workbench) (i : ObjId) : Reply :=
  w.make ((w.graph.objects[i]?).map fun o => .single (.obj i) o.methods)

def clone (w : Workbench) (a : Nat) : Reply :=
  match w.object? a with
  | some i =>
      let (graph, j) := w.graph.cloneObject i
      { w with graph }.makeObject j
  | none => w.refuse .wrongKind

def union (w : Workbench) (ts : List Nat) : Reply :=
  match ts.mapM w.held? with
  | none => w.refuse .wrongKind
  | some hs =>
      match w.graph.heap.union? (hs.map (·.type)) with
      | some t =>
          let (w, table) := w.addTable
          w.make (some ⟨t, table, hs.map (·.methods)⟩)
      | none => w.refuse .malformedUnion

/-- Merges two types. The first one itself comes out if they are equal, and one of their members
itself if that is all; any other union is new, and has a new table. -/
def join (w : Workbench) (x y : Held) : Workbench × Held :=
  let h := w.graph.heap
  if h.same x.type y.type then (w, x)
  else
    let methodsOf (a : Atom) : TableId := ((x.parts ++ y.parts).lookup a).getD x.methods
    match h.merge x.type y.type with
    | .one a => (w, .single a (methodsOf a))
    | .union ms key =>
        let (w, table) := w.addTable
        (w, ⟨.union ms key, table, ms.map methodsOf⟩)

/-- Merges two types that may be missing. Two missing types merge to none. -/
def joinOption (w : Workbench) : Option Held → Option Held → Option (Workbench × Option Held)
  | some x, some y =>
      let (w, z) := w.join x y
      some (w, some z)
  | none, none => some (w, none)
  | _, _ => none

/-- Merges types from left to right. -/
def joinAll (w : Workbench) (x : Option Held) : List (Option Held) →
    Option (Workbench × Option Held)
  | [] => some (w, x)
  | y :: ys => (w.joinOption x y).bind fun p => p.1.joinAll p.2 ys

def merge (w : Workbench) (a : Nat) (b : Option Nat) : Reply :=
  match w.joinOption (w.held? a) (b.bind w.held?) with
  | some (w, h) => w.make h
  | none => w.refuse .wrongKind

def fold (w : Workbench) (ts : List Nat) : Reply :=
  match ts.map w.held? with
  | [] => w.refuse .nothingToFold
  | x :: xs =>
      match w.joinAll x xs with
      | some (w, h) => w.make h
      | none => w.refuse .wrongKind

/-! ## Fields -/

def setField (w : Workbench) (a : Nat) (name : String) (b : Option Nat) : Reply :=
  match w.object? a with
  | some i => { w with graph := w.graph.setField i name (b.bind w.type?) }.answer .done
  | none => w.refuse .wrongKind

/-- Merges a type into that of a field. A missing type changes nothing. -/
def widenField (w : Workbench) (a : Nat) (name : String) (b : Option Nat) : Reply :=
  match w.object? a with
  | none => w.refuse .wrongKind
  | some i =>
      match (w.graph.objects[i]?).bind fun o => o.fields.lookup name with
      | none => w.refuse .unknownName
      | some v =>
          match b.bind w.type? with
          | none => w.answer .done
          | some t => { w with graph := (w.graph.widenType v t).1 }.answer .done

/-! ## Methods -/

def addMethod (w : Workbench) (a : Nat) (name : String) (arity : Nat) : Reply :=
  match w.held? a with
  | none => w.refuse .wrongKind
  | some h =>
      let (graph, m) := w.graph.addEmptyMethod name arity
      { w with graph := { graph with
          tables := graph.tables.modify h.methods fun t => t.put name m } }.answer .done

def findMethod (w : Workbench) (a : Nat) (name : String) : Reply :=
  match w.held? a with
  | none => w.refuse .wrongKind
  | some h =>
      let found := (w.graph.tables[h.methods]?).bind fun t => t.lookup name
      w.answer (.method ((found.bind w.graph.method?).map fun m => (m.name, m.params.length)))

/-- Makes a method known by a name. A frozen one has no instances but its signatures. -/
def define (w : Workbench) (name : String) (arity : Nat) (frozen : Bool) : Reply :=
  let (graph, m) :=
    if frozen then w.graph.addBodiless name arity (.builtin none)
    else w.graph.addEmptyMethod name arity
  { w with graph, methods := w.methods.put name m }.answer .done

/-- Adds an instance with parameters of the given types. -/
def putInstance (w : Workbench) (name : String) (ts : List Nat) : Reply :=
  match w.methods.lookup name with
  | none => w.refuse .unknownName
  | some method =>
      let (graph, body) := w.graph.addCell { role := .plain }
      let (graph, i) := graph.addInstance { method, params := ts.map w.type?, owner := none, body }
      { w with graph }.answer (.made i)

def getInstance (w : Workbench) (name : String) (ts : List Nat) : Reply :=
  match w.methods.lookup name with
  | none => w.refuse .unknownName
  | some m =>
      w.answer <| .inst do
        let method ← w.graph.method? m
        Table.findBy? w.graph.heap.sameRow (ts.map w.type?) method.instances

/-- Adds a signature to a method that is not written. -/
def addSignature (w : Workbench) (name : String) (ts : List Nat) (result : Nat) : Reply :=
  match w.methods.lookup name with
  | none => w.refuse .unknownName
  | some m =>
      if w.graph.isWritten m then w.refuse .wrongKind
      else
        match w.graph.addSignature? m (ts.map w.type?) (w.type? result) with
        | some graph => { w with graph }.answer .done
        | none => w.refuse .wrongArity

def keys (w : Workbench) (name : String) : Reply :=
  match (w.methods.lookup name).bind w.graph.method? with
  | none => w.refuse .unknownName
  | some m => w.answer (.keys (m.instances.map (·.1)))

/-! ## Steps -/

def step (w : Workbench) : WorkbenchStep → Reply
  | .prim name => w.prim name
  | .object name =>
      let (graph, i) := w.graph.addObject name
      { w with graph }.makeObject i
  | .clone a => w.clone a
  | .union ts => w.union ts
  | .merge a b => w.merge a b
  | .fold ts => w.fold ts
  | .setField a name b => w.setField a name b
  | .widenField a name b => w.widenField a name b
  | .equal a b => w.answer (.truth (w.graph.heap.sameOption (w.type? a) (b.bind w.type?)))
  | .members a => w.ask (w.type? a) fun t => .members t.members
  | .name a => w.ask (w.type? a) fun t => .name (w.graph.heap.tyName t)
  | .fields a => w.ask (w.object? a) fun i => .fields (w.graph.heap.fields i)
  | .addMethod a name arity => w.addMethod a name arity
  | .findMethod a name => w.findMethod a name
  | .define name arity frozen => w.define name arity frozen
  | .putInstance name ts => w.putInstance name ts
  | .getInstance name ts => w.getInstance name ts
  | .addSignature name ts result => w.addSignature name ts result
  | .keys name => w.keys name

end Workbench

end TypeFlow
