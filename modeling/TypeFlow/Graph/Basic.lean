import TypeFlow.Expr.Span
import TypeFlow.Table
import TypeFlow.Ty.Equality

/-! The propagation graph: cells that hold types and observe each other, the object types whose
fields are cells, and what a program has defined so far. -/

namespace TypeFlow

abbrev NodeId := Nat
abbrev TableId := Nat
abbrev InstanceId := Nat
abbrev WalkId := Nat

/-- What an observer does with a type that it is told: merge it into its own, or resolve itself
again. Any other word is refused when it is used. -/
inductive Reaction where
  | merge
  | resolve
  | other (word : String)
  deriving DecidableEq

/-! ## What a cell stands for -/

/-- What a call was resolved to. -/
inductive Target where
  | dispatch (node : NodeId)
  | inst (id : InstanceId)
  deriving DecidableEq

/-- A call. Its name token is identified by the node that it was written at: a member of a
dispatch carries the token of the call that was dispatched. -/
structure Site where
  receiver : Option NodeId
  args : List NodeId
  name : Token
  origin : NodeId
  parens : Bool
  span : Int × Int
  linked : Bool := false
  target : Option Target := none
  busy : Bool := false
  isNew : Bool := false
  deriving DecidableEq

/-- A method is written in the program, or it is built in: on a type, or outside of all types.
The body of a written method is a tree at an address, and is never typed itself. -/
inductive MethodSource where
  | written (body : Expr) (root : NodeId)
  | builtin (owner : Option String)
  | external

/-- A parameter as it is declared, with its type if it has one. -/
structure Param where
  name : String
  type : Option Ty := none

/-- A method with its instances by the types of their parameters. Calls know all of these types;
an instance that is put in by hand may lack some. -/
structure Method where
  name : String
  formals : List Param
  source : MethodSource
  instances : Table (List (Option Ty)) InstanceId := []

/-- The names of the parameters. -/
def Method.params (m : Method) : List String := m.formals.map (·.name)

/-- One of several calls: a member for each choice of concrete types. -/
structure Dispatch where
  name : Token
  origin : NodeId
  receiver : Option Ty
  args : List Ty
  parens : Bool
  calls : Table (Option Atom × List Atom) NodeId := []

inductive Role where
  | plain
  | call (site : Site)
  | method (method : Method)
  | slot (name : Option String)
  | result
  | dispatch (dispatch : Dispatch)
  | recorder

/-- A node of the graph: its type as far as it is known, and its observers in the order in
which they first subscribed. A node of a tree is followed by the cells of the tree below it;
its extent counts them all, itself included. -/
structure Cell where
  role : Role
  type : Option Ty := none
  observers : Table NodeId Reaction := []
  extent : Nat := 1

/-! ## What cells belong to -/

/-- The type of the objects made at one place. Objects of a class share its method table. -/
structure ObjectType where
  name : String
  methods : TableId
  fields : Table String NodeId := []

/-- A method specialised to the types of its parameters. It has the receiver's type as owner,
or none if it was called without one. The body of a written method is walked over once, unless
the instance is a copy of another; that of any other method is a node that has the type of the
result. -/
structure Instance where
  method : NodeId
  params : List (Option Ty)
  owner : Option Atom
  body : NodeId
  walk : Option WalkId := none

/-- A walk over a program or over the body of an instance: its variables, the object type whose
method it walks, and the class whose body it is in. -/
structure Walk where
  vars : Table String NodeId := []
  self : Option ObjId := none
  klass : Option ObjId := none

/-- What inference reports while it runs. -/
inductive Notice where
  | specialize (owner : Option String) (name : String) (args : List String)
  | dispatch (name : String) (receiver : Option String) (args : List String)
  deriving DecidableEq

/-- What a recorder was told, and by which node, if it was one that it observes. -/
structure Heard where
  node : NodeId
  source : Option NodeId
  reaction : Reaction
  type : Option Ty
  deriving DecidableEq

structure Graph where
  cells : Array Cell := #[]
  objects : Array ObjectType := #[]
  tables : Array (Table String NodeId) := #[]
  instances : Array Instance := #[]
  walks : Array Walk := #[]
  methods : Table String NodeId := []
  natives : Table String (Table String NodeId) := []
  classes : Table String ObjId := []
  dispatches : List NodeId := []
  notices : Array Notice := #[]
  heard : Array Heard := #[]

namespace Notice

def line : Notice → String
  | specialize owner name args =>
      "Specialize " ++ (owner.map (· ++ "#")).getD "" ++ name ++
        "(" ++ ", ".intercalate args ++ ")"
  | dispatch name receiver args =>
      "Dispatch " ++ name ++ " over " ++ receiver.getD "None" ++ " [" ++ ", ".intercalate args ++ "]"

end Notice

namespace Graph

/-! ## Reading -/

def type (g : Graph) (n : NodeId) : Option Ty := g.cells[n]?.bind (·.type)

def observers (g : Graph) (n : NodeId) : Table NodeId Reaction :=
  (g.cells[n]?.map (·.observers)).getD []

def role (g : Graph) (n : NodeId) : Role := (g.cells[n]?.map (·.role)).getD .plain

def site? (g : Graph) (n : NodeId) : Option Site :=
  match g.role n with
  | .call s => some s
  | _ => none

def method? (g : Graph) (n : NodeId) : Option Method :=
  match g.role n with
  | .method m => some m
  | _ => none

def dispatch? (g : Graph) (n : NodeId) : Option Dispatch :=
  match g.role n with
  | .dispatch d => some d
  | _ => none

def walk (g : Graph) (w : WalkId) : Walk := g.walks[w]?.getD {}

/-- The object types as they are now. -/
def heap (g : Graph) : Heap where
  size := g.objects.size
  name i := (g.objects[i]?.map (·.name)).getD ""
  fields i := (g.objects[i]?.map fun o => o.fields.map fun f => (f.1, g.type f.2)).getD []

/-- The methods of a concrete type. -/
def methodsOf (g : Graph) : Atom → Table String NodeId
  | .prim n => (g.natives.lookup n).getD []
  | .obj i => (g.objects[i]?.bind fun o => g.tables[o.methods]?).getD []

end Graph

end TypeFlow
