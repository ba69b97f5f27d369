import TypeFlow.Graph.Planting
import TypeFlow.Inference.Task

/-! The walk over a tree. It gives literals their types and connects variables, assignments and
calls; everything else follows from that as types spread. -/

namespace TypeFlow

def LiteralKind.typeName : LiteralKind → String
  | .bool => "Bool"
  | .int => "Int"
  | .float => "Float"
  | .char => "Char"
  | .string => "String"

namespace Graph

/-- The variable of a name in a walk. It is made when it is first mentioned. -/
def variableOf (g : Graph) (w : WalkId) (name : String) : Graph × NodeId :=
  match (g.walk w).vars.lookup name with
  | some v => (g, v)
  | none =>
      let (g, v) := g.addSlot (some name) none
      (g.modifyWalk w fun x => { x with vars := x.vars.put name v }, v)

/-- The field of a name in an object type. It is made when it is first mentioned. -/
def fieldOf (g : Graph) (i : ObjId) (name : String) : Graph × NodeId :=
  match g.objects[i]?.bind fun o => o.fields.lookup name with
  | some v => (g, v)
  | none =>
      let (g, v) := g.addSlot (some name) none
      (g.putField i name v, v)

/-- What a place at an address stands for. Only methods of a class have instance variables. -/
def placeOf (g : Graph) (w : WalkId) (p : Place) (n : NodeId) : Graph × Except Fault NodeId :=
  match p.kind with
  | .localVar =>
      let (g, v) := g.variableOf w p.name.text
      (g, .ok v)
  | .instanceVar =>
      match (g.walk w).self with
      | some i =>
          let (g, v) := g.fieldOf i p.name.text
          (g, .ok v)
      | none =>
          (g, .error (.inference (.cause .misplacedInstanceVar
            ⟨n, .instanceVar, p.name.text, (p.name.spot, p.name.spot)⟩)))

/-- The type of a new object: the walk's own object type inside its class, so that a class can
make objects of itself, and a clone of the prototype anywhere else. -/
def instantiate (g : Graph) (w : WalkId) (name : Token) (const call : NodeId) : Step :=
  let own := (g.walk w).self.filter fun i => g.heap.name i == name.text
  match own with
  | some i => g.next [.store call (.obj i), .markNew call]
  | none =>
      match g.classes.lookup name.text with
      | some prototype =>
          let (g, i) := g.cloneObject prototype
          g.next [.store call (.obj i), .markNew call]
      | none =>
          g.fail (.inference (.cause (.unknownConstant name.text)
            ⟨const, .const, name.text, (name.spot, name.spot)⟩))

/-- Connects a call with its inputs before they are walked over. Nothing will ever tell a call
without inputs to resolve itself, so it does that at once. -/
def visitCall (g : Graph) (w : WalkId) (receiver : Option Expr) (args : List Expr) (n : NodeId) :
    Step :=
  let rs := receiver.toList.map fun r => (n + 1, r)
  let as := Expr.spread (n + 1 + Expr.sizeOption receiver) args
  let g := g.modifySite n fun s => { s with linked := true }
  g.next <|
    (as.map fun a => .subscribe a.1 n .resolve) ++
    (rs.map fun r => .subscribe r.1 n .resolve) ++
    (if rs.isEmpty && as.isEmpty then [.resolve n] else []) ++
    (rs ++ as).map fun x => .visit w x.2 x.1

/-- Makes a class known, and walks over its body. -/
def visitClass (g : Graph) (w : WalkId) (name : String) (body : Expr) (n : NodeId) : Step :=
  let (g, i) := match g.classes.lookup name with
    | some i => (g, i)
    | none => g.addClass name
  let outer := (g.walk w).klass
  (g.modifyWalk w fun x => { x with klass := some i }).next
    [.visit w body (n + 1), .leave w outer]

/-- Walks over one node. The body of a method is left alone until the method is called. -/
def visit (g : Graph) (w : WalkId) (e : Expr) (n : NodeId) : Step :=
  match e with
  | .literal l => g.next [.store n (.prim l.kind.typeName)]
  | .place p =>
      match g.placeOf w p n with
      | (g, .ok v) => g.next [.subscribe v n .merge]
      | (g, .error f) => g.fail f
  | .const _ => g.next []
  | .assign t v => g.next [.visit w v (n + 2), .subscribe (n + 2) n .merge, .bind w t n]
  | .block es =>
      let parts := Expr.spread (n + 1) es
      g.next <| (parts.map fun x => .visit w x.2 x.1) ++
        match parts.getLast? with
        | some x => [.subscribe x.1 n .merge]
        | none => [.store n .void]
  | .loop c b =>
      g.next [.visit w c (n + 1), .visit w b (n + 1 + c.size), .store n .void]
  | .cond c t f =>
      let yes := n + 1 + c.size
      let no := yes + t.size
      g.next <| [.visit w c (n + 1), .visit w t yes] ++
        (f.toList.map fun x => .visit w x no) ++ [.subscribe yes n .merge] ++
        if Expr.hasElse f then [.subscribe no n .merge] else []
  | .call (some (.const c)) name as _ =>
      if name.text == "new" then g.instantiate w c (n + 1) n
      else g.visitCall w (some (.const c)) as n
  | .call r _ as _ => g.visitCall w r as n
  | .method name _ _ => (g.putMethod (g.walk w).klass name.text n).next []
  | .klass name b => g.visitClass w name.text b n

/-- Connects an assignment at an address with what it assigns to, and that with the target. -/
def bind (g : Graph) (w : WalkId) (target : Place) (n : NodeId) : Step :=
  match g.placeOf w target (n + 1) with
  | (g, .ok v) => g.next [.subscribe n v .merge, .subscribe v (n + 1) .merge]
  | (g, .error f) => g.fail f

end Graph

end TypeFlow
