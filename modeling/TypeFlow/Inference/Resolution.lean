import TypeFlow.Graph.Copying
import TypeFlow.Inference.Task

/-! What a call calls. It is resolved once the types of its receiver and its arguments are
known, and again whenever one of them changes. -/

namespace TypeFlow

/-- All choices of one element from each list, the first list varying slowest. -/
def choices {α : Type} : List (List α) → List (List α)
  | [] => [[]]
  | xs :: rest => xs.flatMap fun x => (choices rest).map (x :: ·)

namespace Site

/-- Where an error of a call is told. -/
def errorSite (s : Site) (n : NodeId) : ErrorSite := ⟨n, .call, s.name.text, s.span⟩

end Site

namespace Graph

/-- The types of all inputs of a call, once they are known. -/
def inputs? (g : Graph) (s : Site) : Option (Option Ty × List Ty) := do
  let args ← s.args.mapM g.type
  match s.receiver with
  | none => return (none, args)
  | some r => return (some (← g.type r), args)

/-! ## Calls that may call several methods -/

/-- The dispatch that was made for a call when its inputs had equal types. Dispatches are found by
the equality of types alone, of several the one that was made first. A table that is searched by
hashes finds the same one unless members of some union have become equal since that one was built
(see `Ty.sameBy`). -/
def findDispatch? (g : Graph) (origin : NodeId) (receiver : Option Ty) (args : List Ty) :
    Option NodeId :=
  g.dispatches.find? fun n =>
    match g.dispatch? n with
    | some d =>
        d.origin == origin &&
          g.heap.sameRow (d.receiver :: d.args.map some) (receiver :: args.map some)
    | none => false

/-- Adds a dispatch without members. -/
def addDispatch (g : Graph) (s : Site) (receiver : Option Ty) (args : List Ty) : Graph × NodeId :=
  let (g, n) := g.addCell {
    role := .dispatch { name := s.name, origin := s.origin, receiver, args, parens := s.parens } }
  ({ g with dispatches := g.dispatches ++ [n] }, n)

/-- A member for each choice of concrete types, the receiver varying slowest. -/
def memberTasks (d : NodeId) (receiver : Option Ty) (args : List Ty) : List Task :=
  let receivers : List (Option Atom) := match receiver with
    | none => [none]
    | some t => t.members.map some
  receivers.flatMap fun r => (choices (args.map Ty.members)).map fun as => .member d r as

/-- Points a call with unions among its inputs at its dispatch. A new dispatch is known before
its members are, so that a call that comes back to the same unions finds it. -/
def resolveMixed (g : Graph) (c : NodeId) (s : Site) (receiver : Option Ty) (args : List Ty) :
    Step :=
  if !s.linked then g.fail (.unlinked c)
  else
    match g.findDispatch? s.origin receiver args with
    | some d => g.next [.subscribe d c .merge, .aim c (.dispatch d)]
    | none =>
        let h := g.heap
        let (g, d) := g.addDispatch s receiver args
        (g.notice (.dispatch s.name.text (receiver.map h.tyName) (args.map h.tyName))).next
          (memberTasks d receiver args ++ [.subscribe d c .merge, .aim c (.dispatch d)])

/-- Adds a member of a dispatch: a call over variables of exactly the chosen types. -/
def addMember (g : Graph) (dispatch : NodeId) (receiver : Option Atom) (args : List Atom) : Step :=
  match g.dispatch? dispatch with
  | none => g.fail (.dangling dispatch)
  | some d =>
      let (g, rs) := g.addSlots (receiver.toList.map fun a => (some "self", .one a))
      let (g, as) := g.addSlots (args.map fun a => (none, .one a))
      let (g, c) := g.addCell {
        role := .call {
          receiver := rs.head?
          args := as
          name := d.name
          origin := d.origin
          parens := d.parens
          span := (d.name.spot, d.name.spot)
          linked := true } }
      let h := g.heap
      let row (k : Option Atom × List Atom) : List (Option Ty) :=
        k.1.map Ty.one :: k.2.map fun a => some (.one a)
      let sameKey (x y : Option Atom × List Atom) : Bool := h.sameRow (row x) (row y)
      (g.modifyDispatch dispatch fun d =>
        { d with calls := d.calls.putBy sameKey (receiver, args) c }).next
        [.subscribe c dispatch .merge, .resolve c]

/-! ## Calls of one method -/

/-- The methods that a call chooses from: those of the receiver's type, or the program's. -/
def scopeOf (g : Graph) : Option Ty → Table String NodeId
  | none => g.methods
  | some (.one a) => g.methodsOf a
  | some (.union _ _) => []

/-- Adds the walk over an instance. Its inputs are variables of the walk, and the last of several
inputs of one name is the one that is seen. -/
def addWalkOver (g : Graph) (inputs : List (String × Ty)) (owner : Option Atom) :
    Graph × WalkId :=
  let (g, slots) := g.addSlots (inputs.map fun p => (some p.1, p.2))
  let vars := ((inputs.map (·.1)).zip slots).foldl (fun t p => Table.put t p.1 p.2) []
  let self := match owner with
    | some (.obj o) => some o
    | _ => none
  g.addWalk { vars, self }

/-- Makes an instance of a written method, whose body lies at an address, and begins to walk over
a copy of the body. The instance is known before that, so that a recursive call with the same
types finds it. -/
def specialize (g : Graph) (c : NodeId) (s : Site) (receiver : Option Ty) (args : List Ty)
    (method : NodeId) (m : Method) (body : Expr) (template : NodeId) : Step :=
  match g.copyTree? body template with
  | none => g.fail (.entangled method)
  | some (g, root) =>
      let owner := receiver.bind Ty.atom?
      let inputs := (receiver.toList.map fun t => ("self", t)) ++ m.params.zip args
      let (g, w) := g.addWalkOver inputs owner
      let (g, i) := g.addInstance ⟨method, args.map some, owner, root, some w⟩
      if !s.linked then g.fail (.unlinked c)
      else
        let h := g.heap
        ((g.notice (.specialize (receiver.map h.tyName) s.name.text
            (args.map h.tyName))).modifySite c fun s => { s with busy := true }).next
          [.visit w body root, .finish c i, .subscribe root c .merge, .aim c (.inst i)]

/-- Points a call with concrete inputs at the instance for them. A method that is built in has
no other instances than its signatures. -/
def resolveConcrete (g : Graph) (c : NodeId) (s : Site) (receiver : Option Ty) (args : List Ty) :
    Step :=
  let reject (cause : Cause) : Step := g.fail (.inference (.cause cause (s.errorSite c)))
  let owner := receiver.map g.heap.tyName
  if receiver.isNone && !s.linked then g.fail (.unlinked c)
  else
    match (g.scopeOf receiver).lookup s.name.text with
    | none => reject (.undefinedMethod s.name.text owner (!args.isEmpty || s.parens))
    | some method =>
        match g.method? method with
        | none => g.fail (.dangling method)
        | some m =>
            if m.params.length ≠ args.length then
              reject (.arity s.name.text args.length m.params.length)
            else
              match Table.findBy? g.heap.sameRow (args.map some) m.instances with
              | some i =>
                  match g.instances[i]? with
                  | some x => g.next [.subscribe x.body c .merge, .aim c (.inst i)]
                  | none => g.fail (.dangling method)
              | none =>
                  match m.source with
                  | .external => reject (.frozenCall s.name.text none (args.map g.heap.tyName))
                  | .builtin name =>
                      match owner.or name with
                      | some o => reject (.frozenCall s.name.text (some o) (args.map g.heap.tyName))
                      | none => g.fail (.dangling method)
                  | .written body template =>
                      g.specialize c s receiver args method m body template

/-- Finds out what a call calls, if all its inputs have types. -/
def resolve (g : Graph) (c : NodeId) : Step :=
  match g.site? c with
  | none => g.fail (.notACall c)
  | some s =>
      match g.inputs? s with
      | none => g.next []
      | some (receiver, args) =>
          if (receiver.toList ++ args).any Ty.isMixed then g.resolveMixed c s receiver args
          else g.resolveConcrete c s receiver args

end Graph

end TypeFlow
