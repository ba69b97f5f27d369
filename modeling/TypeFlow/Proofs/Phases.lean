import TypeFlow.Proofs.Courses
import TypeFlow.Proofs.Defining

/-! # First define, then do

While a program defines, nothing is called; once it does what it does, nothing more is defined, so
that all calls look for methods in the same tables. -/

namespace TypeFlow

/-! ## Tasks of the two phases -/

/-- A task of the walk over definitions. -/
def Task.IsDefining : Task → Prop
  | .visit w e _ => w = 0 ∧ e.Definitional
  | .leave w _ => w = 0
  | .store _ _ | .widen _ _ => True
  | .subscribe _ _ r | .deliver _ _ r | .react _ _ r _ => r = .merge
  | _ => False

/-- A task that defines nothing. -/
def Task.IsPlain : Task → Prop
  | .visit _ e _ => e.Plain
  | .bind _ p _ => p.kind = .localVar
  | .leave _ _ => False
  | _ => True

/-- What a waiting task makes of the tables, and of the class that the walk is in. -/
def Task.define (s : Graph × Option ObjId) : Task → Graph × Option ObjId
  | .visit _ e n => (s.1.define s.2 n e, s.2)
  | .leave _ outer => (s.1, outer)
  | _ => s

namespace Graph

/-- The tables and the class that the walk over the program is in. -/
def desk (g : Graph) : Graph × Option ObjId := (g.shelf, (g.walk 0).klass)

variable {L : Labels} {g g' : Graph} {task : Task} {ts : List Task}

theorem desk_storeType (n : NodeId) (t : Ty) : (g.storeType n t).1.desk = g.desk := by
  rcases g.storeType_cases n t with ⟨h, -⟩ | ⟨h, -⟩ <;> rw [h] <;> rfl

/-- Tasks that fill no table leave the desk as it is. -/
theorem foldl_define_self {s : Graph × Option ObjId} {ts : List Task}
    (h : ∀ t ∈ ts, Task.define s t = s) : ts.foldl Task.define s = s := by
  induction ts with
  | nil => rfl
  | cons t ts ih =>
      rw [List.foldl_cons, h t (List.mem_cons_self ..)]
      exact ih fun t ht => h t (List.mem_cons_of_mem _ ht)

theorem foldl_define_visits (k : Option ObjId) (w : WalkId) (g : Graph) (xs : List (Nat × Expr)) :
    (xs.map fun x => Task.visit w x.2 x.1).foldl Task.define (g, k) =
      (xs.foldl (fun g x => g.define k x.1 x.2) g, k) := by
  induction xs generalizing g with
  | nil => rfl
  | cons x xs ih => exact ih _

/-- The tasks that a task leaves go on with the definitions where the task stopped. -/
structure Defines (g : Graph) (task : Task) (g' : Graph) (ts : List Task) : Prop where
  defining : ∀ t ∈ ts, t.IsDefining
  desk : ts.foldl Task.define g'.desk = Task.define g.desk task

/-- Without calls that were taken up, nodes only merge what they observe. -/
theorem merge_of_observer (hS : Sound L g) (hfree : ∀ c, ¬ g.Linked c) {n o : NodeId}
    {r : Reaction} (h : (o, r) ∈ g.observers n) : r = .merge := by
  obtain ⟨-, -, hr⟩ := hS.edge h
  cases r with
  | merge => rfl
  | resolve => exact (hfree o hr.2.2).elim
  | other => exact hr.elim

theorem defines_storeType (hS : Sound L g) (hfree : ∀ c, ¬ g.Linked c) {n : NodeId} {t : Ty}
    (htask : Task.define g.desk task = g.desk) (hp : g.storeType n t = (g', .ok ts)) :
    g.Defines task g' ts := by
  have hdesk := g.desk_storeType n t
  rw [hp] at hdesk
  have hquiet : ∀ u ∈ ts, u.IsDefining ∧ ∀ s, Task.define s u = s := by
    intro u hu
    obtain ⟨o, r, ho, rfl⟩ := Graph.mem_storeType hp hu
    exact ⟨merge_of_observer hS hfree ho, fun _ => rfl⟩
  refine ⟨fun u hu => (hquiet u hu).1, ?_⟩
  rw [foldl_define_self fun u hu => (hquiet u hu).2 _, htask]
  exact hdesk

/-- A walk that is in a class puts methods there. -/
theorem defines_visit {e : Expr} (hd : e.Definitional) {n : Nat}
    (hwalk : ∃ x, g.walks[0]? = some x) (hp : g.visit 0 e n = (g', .ok ts)) :
    g.Defines (.visit 0 e n) g' ts := by
  cases hd with
  | @method nm ps b hb =>
      cases hp
      refine ⟨by simp, ?_⟩
      have hwalks : (g.putMethod (g.walk 0).klass nm.text n).walk 0 = g.walk 0 := by
        unfold putMethod
        cases (g.walk 0).klass.bind fun i => g.objects[i]? <;> rfl
      rw [List.foldl_nil, Task.define, desk, desk, shelf_putMethod, hwalks]
      rfl
  | @klass nm b hb =>
      obtain ⟨hshelf, hclass⟩ := g.shelf_declare nm.text
      have hvisit : g.visit 0 (.klass nm b) n =
          ((g.declare nm.text).1.modifyWalk 0 fun x =>
            { x with klass := some (g.declare nm.text).2 }).next
          [.visit 0 b (n + 1), .leave 0 (g.walk 0).klass] := by
        simp only [visit, visitClass, declare]
        cases g.classes.lookup nm.text <;> rfl
      have hwalk' : ∃ x, (g.declare nm.text).1.walks[0]? = some x := by
        unfold declare
        cases g.classes.lookup nm.text <;> exact hwalk
      obtain ⟨x, hx⟩ := hwalk'
      rw [hvisit] at hp
      cases hp
      refine ⟨by simpa [Task.IsDefining] using hb, ?_⟩
      have hdesk : ((g.declare nm.text).1.modifyWalk 0 fun x =>
          { x with klass := some (g.declare nm.text).2 }).desk =
            ((g.shelf.declare nm.text).1, some (g.shelf.declare nm.text).2) := by
        refine Prod.ext hshelf ?_
        rw [← hclass]
        simp [desk, walk, modifyWalk, Array.getElem?_modify, hx]
      rw [hdesk]
      rfl
  | @block es hes =>
      have hmore : ∀ u : Task, u.IsDefining → (∀ s, Task.define s u = s) →
          g.Defines (.visit 0 (.block es) n) g
            ((Expr.spread (n + 1) es).map (fun x => .visit 0 x.2 x.1) ++ [u]) := by
        intro u hu hquiet
        refine ⟨fun t ht => ?_, ?_⟩
        · rcases List.mem_append.mp ht with ht | ht
          · obtain ⟨x, hx, rfl⟩ := List.mem_map.mp ht
            exact ⟨rfl, hes x.2 (Expr.mem_spread hx).1⟩
          · cases List.mem_singleton.mp ht
            exact hu
        · rw [List.foldl_append, desk, foldl_define_visits, ← defineList_eq, List.foldl_cons,
            List.foldl_nil, hquiet]
          rfl
      simp only [visit] at hp
      cases hlast : (Expr.spread (n + 1) es).getLast? with
      | some x =>
          simp only [hlast] at hp
          cases hp
          exact hmore _ rfl fun _ => rfl
      | none =>
          simp only [hlast] at hp
          cases hp
          exact hmore _ trivial fun _ => rfl

/-- The walk over definitions goes on with definitions, and takes up no call. -/
theorem defines_perform (hS : Sound L g) (hok : task.OK L g) (hp : g.perform task = (g', .ok ts))
    (hwalk : ∃ x, g.walks[0]? = some x) (hfree : ∀ c, ¬ g.Linked c) (hd : task.IsDefining) :
    g.Defines task g' ts := by
  cases task with
  | visit w e n =>
      obtain ⟨rfl, hd⟩ := hd
      exact defines_visit hd hwalk hp
  | store n t => exact defines_storeType hS hfree rfl hp
  | widen n t =>
      rw [perform, hS.widenType_eq hok.2] at hp
      exact defines_storeType hS hfree rfl hp
  | subscribe s o r =>
      obtain rfl : r = .merge := hd
      simp only [perform, subscribe] at hp
      cases hp
      cases g.type s with
      | none => exact ⟨by simp, rfl⟩
      | some t => exact ⟨by simp [Task.IsDefining], rfl⟩
  | deliver s o r =>
      obtain rfl : r = .merge := hd
      have he : g.EdgeOK L s o .merge := hok
      rw [perform, hS.react_eq he] at hp
      cases hp
      cases g.type s with
      | none => exact ⟨by simp [reactionTasks], rfl⟩
      | some t => exact ⟨by simp [reactionTasks, Task.IsDefining], rfl⟩
  | react s o r t =>
      obtain rfl : r = .merge := hd
      obtain ⟨s', t', rfl, rfl, he, -⟩ := hok
      rw [perform, hS.react_eq he] at hp
      cases hp
      exact ⟨by simp [reactionTasks, Task.IsDefining], rfl⟩
  | leave w outer =>
      obtain rfl : w = 0 := hd
      obtain ⟨x, hx⟩ := hwalk
      cases hp
      refine ⟨by simp, Prod.ext rfl ?_⟩
      simp [desk, Task.define, walk, modifyWalk, Array.getElem?_modify, hx]
  | notify | bind | resolve | aim | member | markNew | finish => exact hd.elim

theorem not_linked_of_defining (hS : Sound L g) (hok : task.OK L g)
    (hp : g.perform task = (g', .ok ts)) (hfree : ∀ c, ¬ g.Linked c) (hd : task.IsDefining)
    (c : NodeId) : ¬ g'.Linked c := by
  intro hc
  rcases linked_step hS hok hp hc with hc | ⟨w, rc, nm, as, p, rfl, -⟩ | ⟨d, r, as, rfl, -⟩
  · exact hfree c hc
  · cases hd.2
  · exact hd

/-! ## Doing -/

theorem Booked.of_shelf {T : Graph} (h : Booked T g) (hs : g'.shelf = g.shelf) : Booked T g' where
  methods := (congrArg Graph.methods hs).trans h.methods
  natives := (congrArg Graph.natives hs).trans h.natives
  tables := (congrArg Graph.tables hs).trans h.tables
  classes := (congrArg Graph.classes hs).trans h.classes
  object ho := h.object ((congrArg Graph.objects hs) ▸ ho)

theorem shelf_addSlots (g : Graph) (slots : List (Option String × Ty)) :
    (g.addSlots slots).1.shelf = g.shelf := by
  induction slots generalizing g with
  | nil => rfl
  | cons s slots ih => exact ih _

theorem shelf_copyFields (g : Graph) (fields : Table String NodeId) :
    (g.copyFields fields).1.shelf = g.shelf := by
  induction fields generalizing g with
  | nil => rfl
  | cons f fields ih => exact ih _

theorem shelf_placeOf {p : Place} (hp : p.kind = .localVar) (w : WalkId) (n : NodeId) :
    (g.placeOf w p n).1.shelf = g.shelf := by
  unfold placeOf
  simp only [hp]
  cases hv : (g.walk w).vars.lookup p.name.text with
  | some v => rw [variableOf_known hv]
  | none =>
      rw [variableOf_new hv]
      rfl

theorem shelf_specialized (g : Graph) (c : NodeId) (s : Site) (method : NodeId)
    (params : List String) (body : Expr) (receiver : Option Ty) (args : List Ty) :
    (g.specialized c s method params body receiver args).shelf = g.shelf := by
  have h := (g.plant body).1.shelf_addSlots
    ((instanceInputs params receiver args).map fun p => (some p.1, p.2))
  have hbody : (g.withBody body (instanceInputs params receiver args)
      (receiver.bind Ty.atom?)).shelf = g.shelf := by
    rw [withBody, addWalkOver_eq]
    exact h
  exact hbody

/-- A new object is like the prototype of its class. -/
theorem Booked.cloneObject {T : Graph} (h : Booked T g) (i : ObjId) :
    Booked T (g.cloneObject i).1 := by
  unfold Graph.cloneObject
  cases hi : g.objects[i]? with
  | none => exact h
  | some o =>
      have hfields := h.of_shelf (g.shelf_copyFields o.fields)
      refine ⟨hfields.methods, hfields.natives, hfields.tables, hfields.classes, fun {j p} hp => ?_⟩
      simp only [Array.getElem?_push] at hp
      split at hp
      · cases hp
        obtain ⟨k, q, hk, hq, hmethods⟩ := h.object hi
        exact ⟨k, q, hk, hq, hmethods⟩
      · exact hfields.object hp

theorem booked_visit {T : Graph} (h : Booked T g) {w : WalkId} {e : Expr} {n : NodeId}
    (he : e.Plain) : Booked T (g.visit w e n).1 := by
  generalize hvisit : (g.visit w e n).1 = g'
  cases Graph.visits hvisit with
  | same => exact h
  | place => exact h.of_shelf (shelf_placeOf he.place w n)
  | method | entered | defined => exact Bool.noConfusion he.self
  | call => exact h.of_shelf rfl
  | clone => exact h.cloneObject _

/-- Nothing that a plain task does changes where calls find methods. -/
theorem booked_perform {T : Graph} (hS : Sound L g) (hok : task.OK L g) (h : Booked T g)
    (hplain : task.IsPlain) : Booked T (g.perform task).1 := by
  cases task with
  | visit w e n => exact booked_visit h hplain
  | store n t => exact h.of_shelf (congrArg Prod.fst (g.desk_storeType n t))
  | widen n t =>
      rw [perform, hS.widenType_eq hok.2]
      exact h.of_shelf (congrArg Prod.fst (g.desk_storeType n _))
  | subscribe | aim | markNew | finish => exact h.of_shelf rfl
  | deliver s o r =>
      have he : g.EdgeOK L s o r := hok
      rw [perform, hS.react_eq he]
      exact h
  | react s o r t =>
      obtain ⟨s', t', rfl, rfl, he, -⟩ := hok
      rw [perform, hS.react_eq he]
      exact h
  | notify => exact hok.elim
  | bind w p n =>
      rw [perform, g.graph_bind]
      exact h.of_shelf (shelf_placeOf hplain w (n + 1))
  | resolve c =>
      obtain ⟨s, -, -, hcases⟩ := resolves_resolve hS hok.1
      rw [perform]
      generalize L.resolved g c = L', g.resolve c = step at hcases
      cases hcases with
      | waiting | dispatch | undefined | arity | frozen | inst => exact h
      | newDispatch => exact h.of_shelf rfl
      | newInst => exact h.of_shelf (g.shelf_specialized ..)
  | member d r as =>
      obtain ⟨x, hd, -⟩ := hok
      obtain ⟨y, hy, -⟩ := dispatch_of_blank (hS.fits hd).1 rfl
      rw [perform, addMember_eq hy]
      exact h.of_shelf (g.shelf_addSlots (memberSlots r as))
  | leave => exact hplain.elim

end Graph

/-! ## Where nodes are from -/

/-- A walk comes to the nodes of the program, or to those of the body of an instance. -/
def Homed (P : Program) (L : Labels) (g : Graph) : Prop :=
  ∀ {n : Nat} {w r k e}, L n = some (.node w r k e) →
    w = 0 ∧ ⟨n, k, e⟩ ∈ P.tree.stops none rootOf ∨
      ∃ (i : InstanceId) (x : Instance) (ps : List String) (b : Expr), g.instances[i]? = some x ∧
        x.walk = some w ∧ P.Code x.method ps b ∧ r = x.body ∧ ⟨n, k, e⟩ ∈ b.stops none x.body

variable {P : Program} {L : Labels} {g g' : Graph} {task : Task} {ts rest : List Task}

theorem Program.Code.plain {m : NodeId} {ps : List String} {b : Expr} (h : P.Code m ps b) :
    b.Plain := by
  obtain ⟨k, nm, ps', hq, -⟩ := h.stop
  exact (P.code_of_stop hq).2

/-- All methods are those that the program defines. -/
theorem Homed.code (h : Homed P L g) {m : Nat} {w : WalkId} {r : NodeId} {k : Option String}
    {nm : Token} {ps : List Token} {b : Expr} (hm : L m = some (.node w r k (.method nm ps b))) :
    P.Code m (ps.map (·.text)) b := by
  rcases h hm with ⟨-, hq⟩ | ⟨i, x, ps', b', -, -, hcode, -, hq⟩
  · exact (P.code_of_stop hq).1
  · exact Bool.noConfusion (hcode.plain.stop hq).self

theorem Graph.Begins.code {c : NodeId} {s : Site} {receiver : Option Ty} {args : List Ty}
    {method : NodeId} {m : Method} {b : Expr}
    (h : g.Begins L task g' ts c s receiver args method m b) (hH : Homed P L g) :
    P.Code method m.params b := by
  obtain ⟨w, r, k, nm, ps, hl, hps⟩ := h.label
  rw [hps]
  exact hH.code hl

theorem homed_step (hS : Sound L g) (hok : task.OK L g) (hp : g.perform task = (g', .ok ts))
    (h : Homed P L g) : Homed P (L.performed g task) g' := by
  intro n w r k e hn
  rcases node_step hS hok hp hn with hn | ⟨c, s, receiver, args, method, m, b, hb, rfl, rfl, hq⟩
  · refine (h hn).imp_right ?_
    rintro ⟨i, x, ps, b, hi, hx⟩
    exact ⟨i, x, ps, b, (extends_of_perform hS hok hp).grows.inst hi, hx⟩
  · refine .inr ⟨g.instances.size, g.newInstance method receiver args, m.params, b, ?_, rfl,
      hb.code h, rfl, hq⟩
    rw [hb.graph]
    exact g.instances_specialized ..

theorem homed_loaded (P : Program) : Homed P (Labels.loaded P.tree) (Graph.loaded P.tree) := by
  intro n w r k e hn
  rcases label_loaded hn with ⟨heq, -⟩ | ⟨q, hq, hnode, heq⟩ <;> cases heq
  exact .inl ⟨rfl, hnode ▸ hq⟩

/-! ## Plain tasks lead to plain tasks -/

theorem plain_visit {w : WalkId} {e : Expr} {n : NodeId} (he : e.Plain)
    (hv : g.visit w e n = (g', .ok ts)) : ∀ t ∈ ts, t.IsPlain := by
  intro t ht
  cases follows_of_visit none hv ht with
  | part hp => exact he.stop (Expr.mem_stops_of_mem_parts hp)
  | target => exact he.target
  | left => exact Bool.noConfusion he.self
  | _ => trivial

/-- The body of a method is plain, so that nothing is defined when it is walked over. -/
theorem plain_perform (hS : Sound L g) (hok : task.OK L g) (hH : Homed P L g)
    (hp : g.perform task = (g', .ok ts)) (hplain : task.IsPlain) : ∀ t ∈ ts, t.IsPlain := by
  intro t ht
  cases leads_perform hS hok hp ht with
  | visited | assigned | entered => exact plain_visit hplain hp _ ht
  | began =>
      rcases begins_or_plain hS hok hp with ⟨c, s, receiver, args, method, m, b, hbegin⟩ | ⟨-, hnone⟩
      · rw [hbegin.tasks] at ht
        obtain ⟨-, rfl, -⟩ : _ ∧ _ = b ∧ _ := by simpa using ht
        exact (hbegin.code hH).plain
      · exact (hnone _ _ _ _ rfl ht).elim
  | _ => trivial

/-! ## The phases of a run -/

/-- What is left of the walk over a program once its definitions are made. -/
def Program.remaining (P : Program) : List Task :=
  ((Expr.spread P.mainAt P.stmts).map fun x => .visit 0 x.2 x.1) ++
    match P.lines.getLast? with
    | some x => [.subscribe x.1 rootOf .merge]
    | none => [.store rootOf .void]

/-- How far a run has come: it is about to begin, it defines, or it does what the program does. -/
inductive Phase (P : Program) (g : Graph) (ts : List Task) : Prop where
  | start : g = Graph.loaded P.tree → ts = [.visit 0 P.tree rootOf] → Phase P g ts
  | defining (ds : List Task) : ds ≠ [] → ts = ds ++ P.remaining → (∀ t ∈ ds, t.IsDefining) →
      (∃ x, g.walks[0]? = some x) → (∀ c, ¬ g.Linked c) →
      (ds.foldl Task.define g.desk).1 = P.tables → Phase P g ts
  | doing : Graph.Booked P.tables g → (∀ t ∈ ts, t.IsPlain) → Phase P g ts

theorem Program.plain_remaining (P : Program) : ∀ t ∈ P.remaining, t.IsPlain := by
  intro t ht
  rcases List.mem_append.mp ht with ht | ht
  · obtain ⟨x, hx, rfl⟩ := List.mem_map.mp ht
    exact P.plain x.2 (Expr.mem_spread hx).1
  · split at ht <;> cases List.mem_singleton.mp ht <;> trivial

/-- When nothing is left to define, the tables are as they will be. -/
theorem Phase.of_defining {ds : List Task} (hts : ts = ds ++ P.remaining)
    (hds : ∀ t ∈ ds, t.IsDefining) (hwalk : ∃ x, g.walks[0]? = some x)
    (hfree : ∀ c, ¬ g.Linked c) (hdesk : (ds.foldl Task.define g.desk).1 = P.tables) :
    Phase P g ts := by
  by_cases hnil : ds = []
  · subst hnil
    subst hts
    refine .doing ?_ P.plain_remaining
    have hshelf : g.shelf = P.tables := hdesk
    have hfiled := P.filed
    rw [← hshelf] at hfiled ⊢
    exact Graph.Filed.booked hfiled
  · exact .defining ds hnil hts hds hwalk hfree hdesk

theorem Program.visit_tree (P : Program) (g : Graph) :
    g.perform (.visit 0 P.tree rootOf) = (g, .ok
      ((Expr.spread (rootOf + 1) P.defs).map (fun x => .visit 0 x.2 x.1) ++ P.remaining)) := by
  unfold Program.remaining Program.mainAt Program.lines Program.tree
  generalize rootOf = root
  simp only [Graph.perform, Graph.visit, Graph.next]
  cases (Expr.spread (root + 1) (P.defs ++ P.stmts)).getLast? <;>
    simp [Expr.spread_append, Nat.add_assoc]

theorem desk_loaded (tree : Expr) : (Graph.loaded tree).desk = (Session.start.graph.shelf, none) := by
  have hwalk : Session.start.graph.walk 0 = {} := by
    rw [start_eq, ← walks_withBuiltins]
    generalize Graph.withBuiltins = g
    simp [Graph.walk, Graph.addWalk]
  have hplant : ∀ g : Graph, (g.plant tree).1.desk = (g.shelf, (g.walk 0).klass) := fun _ => rfl
  rw [Graph.loaded, hplant, hwalk]

theorem phase_step (hS : Sound L g) (hok : task.OK L g) (hH : Homed P L g)
    (hp : g.perform task = (g', .ok ts)) (h : Phase P g (task :: rest)) :
    Phase P g' (ts ++ rest) := by
  have hgrows := (extends_of_perform hS hok hp).grows
  cases h with
  | start hg hts =>
      obtain ⟨rfl, rfl⟩ := List.cons.inj hts
      obtain ⟨x, hx⟩ := hok.2
      have hfree : ∀ c, ¬ g.Linked c := by
        intro c
        rw [hg]
        exact not_linked_loaded P.tree c
      rw [P.visit_tree] at hp
      cases hp
      refine .of_defining (by rw [List.append_nil]) (fun t ht => ?_) ⟨x, hx⟩ hfree ?_
      · obtain ⟨y, hy, rfl⟩ := List.mem_map.mp ht
        exact ⟨rfl, P.definitional y.2 (Expr.mem_spread hy).1⟩
      · rw [hg, desk_loaded, Graph.foldl_define_visits, ← Graph.defineList_eq]
        rfl
  | defining ds hnil hts hds hwalk hfree hdesk =>
      cases ds with
      | nil => exact (hnil rfl).elim
      | cons d ds =>
          cases hts
          have hd := hds task (List.mem_cons_self ..)
          have hdef := Graph.defines_perform hS hok hp hwalk hfree hd
          obtain ⟨x, hx⟩ := hwalk
          obtain ⟨x', hx', -⟩ := hgrows.walk hx
          have hts : ts ++ (ds ++ P.remaining) = (ts ++ ds) ++ P.remaining :=
            (List.append_assoc ..).symm
          refine .of_defining hts (fun t ht => ?_)
            ⟨x', hx'⟩ (Graph.not_linked_of_defining hS hok hp hfree hd) ?_
          · rcases List.mem_append.mp ht with ht | ht
            · exact hdef.defining t ht
            · exact hds t (List.mem_cons_of_mem _ ht)
          · rw [List.foldl_append, hdef.desk]
            exact hdesk
  | doing hB hplain =>
      have hthis := hplain task (List.mem_cons_self ..)
      have hB' := Graph.booked_perform hS hok hB hthis
      rw [hp] at hB'
      refine .doing hB' fun t ht => ?_
      rcases List.mem_append.mp ht with ht | ht
      · exact plain_perform hS hok hH hp hthis t ht
      · exact hplain t (List.mem_cons_of_mem _ ht)

end TypeFlow
