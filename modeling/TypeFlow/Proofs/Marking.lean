import TypeFlow.Proofs.Phases
import TypeFlow.Proofs.Sparing

/-! # What a task does to the marks of walks

A call is marked while the method that it specialised is walked over, and a walk while it is in the
body of a class. Only few tasks set or take back a mark: most of them leave all marks as they are,
and lead to tasks that do the same. -/

namespace TypeFlow

/-! ## Marks that stay -/

namespace Graph

variable {g g' : Graph}

/-- The marks are as they were, except that some calls may have become busy, and the classes have
the tables that they had. -/
structure Steady (calls : List NodeId) (g g' : Graph) : Prop where
  busy : ∀ c, g'.Has (.mark c .busy) → g.Has (.mark c .busy) ∨ c ∈ calls
  klass : ∀ w, (g'.walk w).klass = (g.walk w).klass
  classes : g'.classes = g.classes
  tables : g'.tables.size = g.tables.size

theorem Steady.refl (g : Graph) : Steady [] g g :=
  ⟨fun _ => .inl, fun _ => rfl, rfl, rfl⟩

theorem Steady.trans {xs ys : List NodeId} {a b c : Graph} (h : Steady xs a b)
    (h' : Steady ys b c) : Steady (xs ++ ys) a c where
  busy n hn := by
    rcases h'.busy n hn with hn | hn
    · exact (h.busy n hn).imp_right (List.mem_append_left ys)
    · exact .inr (List.mem_append_right xs hn)
  klass w := (h'.klass w).trans (h.klass w)
  classes := h'.classes.trans h.classes
  tables := h'.tables.trans h.tables

/-- A change that has to do with neither walks nor classes. -/
theorem Steady.of_walks {xs : List NodeId}
    (hbusy : ∀ c, g'.Has (.mark c .busy) → g.Has (.mark c .busy) ∨ c ∈ xs)
    (hwalks : g'.walks = g.walks) (hclasses : g'.classes = g.classes)
    (htables : g'.tables.size = g.tables.size) : Steady xs g g' where
  busy := hbusy
  klass w := by rw [walk, hwalks, walk]
  classes := hclasses
  tables := htables

/-! ## Cells -/

theorem steady_setType (g : Graph) (n : NodeId) (t : Ty) : Steady [] g (g.setType n t) := by
  refine .of_walks (fun c hc => ?_) rfl rfl rfl
  rcases has_setType hc with hc | hc
  · exact .inl hc
  · cases hc

theorem steady_addObserver (g : Graph) (n o : NodeId) (r : Reaction) :
    Steady [] g (g.addObserver n o r) := by
  refine .of_walks (fun c hc => ?_) rfl rfl rfl
  rcases has_addObserver hc with hc | hc
  · exact .inl hc
  · cases hc

theorem steady_hear (g : Graph) (h : Heard) : Steady [] g (g.hear h) :=
  .of_walks (fun _ => .inl) rfl rfl rfl

theorem steady_notice (g : Graph) (n : Notice) : Steady [] g (g.notice n) :=
  .of_walks (fun _ => .inl) rfl rfl rfl

/-- Whatever is done to a call, no other call becomes busy. -/
theorem steady_modifySite_self (g : Graph) (n : NodeId) (f : Site → Site) :
    Steady [n] g (g.modifySite n f) := by
  refine .of_walks (fun c hc => ?_) rfl rfl rfl
  rcases has_modifySite hc with hc | ⟨s, k, -, heq, -⟩
  · exact .inl hc
  · cases heq
    exact .inr (List.mem_singleton_self _)

theorem steady_modifySite (g : Graph) (n : NodeId) {f : Site → Site}
    (hf : ∀ s, (f s).busy = true → s.busy = true) : Steady [] g (g.modifySite n f) := by
  refine .of_walks (fun c hc => .inl ?_) rfl rfl rfl
  rcases has_modifySite hc with hc | ⟨s, k, hs, heq, hk⟩
  · exact hc
  · cases heq
    exact has_of_site hs (hf s hk)

theorem steady_modifyDispatch (g : Graph) (n : NodeId) (f : Dispatch → Dispatch) :
    Steady [] g (g.modifyDispatch n f) := by
  refine .of_walks (fun c hc => .inl ?_) rfl rfl rfl
  rcases has_modifyDispatch hc with hc | ⟨d, k, -, heq, hk⟩
  · exact hc
  · cases heq
    exact hk.elim

theorem steady_addCell (g : Graph) {x : Cell} (hx : ¬ x.Has .busy) :
    Steady [] g (g.addCell x).1 := by
  refine .of_walks (fun c hc => .inl ?_) rfl rfl rfl
  rcases has_addCell hc with hc | ⟨k, heq, hk⟩
  · exact hc
  · cases heq
    exact (hx hk).elim

theorem steady_addSlots (g : Graph) (slots : List (Option String × Ty)) :
    Steady [] g (g.addSlots slots).1 := by
  induction slots generalizing g with
  | nil => exact .refl g
  | cons s slots ih =>
      have hslot := steady_addCell g (x := { role := .slot s.1, type := some s.2 }) id
      exact hslot.trans (ih _)

theorem steady_addDispatch (g : Graph) (s : Site) (receiver : Option Ty) (args : List Ty) :
    Steady [] g (g.addDispatch s receiver args).1 := by
  refine .of_walks (fun c hc => .inl ?_) rfl rfl rfl
  rcases has_addDispatch hc with hc | hc
  · exact hc
  · cases hc

theorem steady_plant (g : Graph) (e : Expr) : Steady [] g (g.plant e).1 :=
  .of_walks (fun _ hc => .inl (has_plant hc)) rfl rfl rfl

/-! ## Walks, object types and methods -/

theorem walk_addWalk (g : Graph) (x : Walk) (v : WalkId) :
    (g.addWalk x).1.walk v = if v = g.walks.size then x else g.walk v := by
  simp only [walk, addWalk, Array.getElem?_push]
  split <;> rfl

/-- A new walk is in no class. -/
theorem steady_addWalk (g : Graph) {x : Walk} (hx : x.klass = none) :
    Steady [] g (g.addWalk x).1 := by
  refine ⟨fun c hc => .inl hc, fun v => ?_, rfl, rfl⟩
  rw [walk_addWalk]
  split
  · next heq =>
      rw [hx, heq, walk, Array.getElem?_eq_none (Nat.le_refl _)]
      rfl
  · rfl

theorem steady_modifyWalk (g : Graph) (w : WalkId) {f : Walk → Walk}
    (hf : ∀ x, (f x).klass = x.klass) : Steady [] g (g.modifyWalk w f) := by
  refine ⟨fun c hc => .inl hc, fun v => ?_, rfl, rfl⟩
  simp only [walk, modifyWalk, Array.getElem?_modify]
  split
  · cases g.walks[v]? with
    | none => rfl
    | some x => exact hf x
  · rfl

theorem steady_putField (g : Graph) (i : ObjId) (x : String) (v : NodeId) :
    Steady [] g (g.putField i x v) :=
  .of_walks (fun _ => .inl) rfl rfl rfl

theorem steady_putMethod (g : Graph) (k : Option ObjId) (name : String) (m : NodeId) :
    Steady [] g (g.putMethod k name m) := by
  unfold putMethod
  split
  · exact .of_walks (fun _ => .inl) rfl rfl (Array.size_modify ..)
  · exact .of_walks (fun _ => .inl) rfl rfl rfl

theorem steady_cloneObject (h : g.Tidy) (i : ObjId) : Steady [] g (g.cloneObject i).1 := by
  cases ho : g.objects[i]? with
  | none =>
      simp only [cloneObject, ho]
      exact .refl g
  | some o =>
      have hothers : ∀ (fields : Table String NodeId) (g : Graph),
          (g.copyFields fields).1.walks = g.walks := by
        intro fields
        induction fields with
        | nil => exact fun _ => rfl
        | cons f fields ih => exact fun g => ih _
      have hshelf := g.shelf_copyFields o.fields
      refine .of_walks (fun c hc => .inl ?_) ?_ ?_ ?_
      · rcases has_cloneObject ho (h.field_slot o ho) hc with hc | ⟨j, f, -, ⟨t, -, heq⟩ | heq⟩
        · exact hc
        · cases heq
        · cases heq
      · simpa only [cloneObject, ho] using hothers o.fields g
      · simp only [cloneObject, ho]
        exact congrArg (fun g => g.classes) hshelf
      · simp only [cloneObject, ho]
        exact congrArg (fun g => g.tables.size) hshelf

theorem steady_placeOf (g : Graph) (w : WalkId) (p : Place) (n : NodeId) :
    Steady [] g (g.placeOf w p n).1 := by
  have hslot := steady_addCell g (x := { role := .slot (some p.name.text) }) fun h => h
  unfold placeOf
  cases p.kind with
  | localVar =>
      dsimp only
      cases hv : (g.walk w).vars.lookup p.name.text with
      | some v =>
          rw [variableOf_known hv]
          exact .refl g
      | none =>
          rw [variableOf_new hv]
          exact hslot.trans (steady_modifyWalk _ w fun _ => rfl)
  | instanceVar =>
      dsimp only
      cases (g.walk w).self with
      | none => exact .refl g
      | some i =>
          dsimp only [fieldOf]
          cases g.objects[i]?.bind fun o => o.fields.lookup p.name.text with
          | some v => exact .refl g
          | none => exact hslot.trans (steady_putField ..)

/-- An instance that is made makes no call busy by itself. -/
theorem steady_withInstance (g : Graph) (method : NodeId) (params : List String) (body : Expr)
    (receiver : Option Ty) (args : List Ty) :
    Steady [] g (g.withInstance method params body receiver args) := by
  have hbody : Steady [] g (g.withBody body (instanceInputs params receiver args)
      (receiver.bind Ty.atom?)) := by
    rw [withBody, addWalkOver_eq]
    exact (steady_plant g body).trans ((steady_addSlots _ _).trans (steady_addWalk _ rfl))
  refine hbody.trans (.of_walks (fun c hc => .inl ?_) rfl rfl rfl)
  rcases has_addInstance hc with hc | hc | ⟨key, hc, -⟩
  · exact hc
  · cases hc
  · cases hc

/-- The walk over an instance begins while its call is busy. -/
theorem steady_specialized (g : Graph) (c : NodeId) (s : Site) (method : NodeId)
    (params : List String) (body : Expr) (receiver : Option Ty) (args : List Ty) :
    Steady [c] g (g.specialized c s method params body receiver args) :=
  (steady_withInstance g method params body receiver args).trans
    ((steady_notice _ _).trans (steady_modifySite_self _ c _))

end Graph

/-! ## Tasks that leave the marks alone -/

/-- A task that is neither a walk nor the end of one. -/
def Task.IsIdle : Task → Prop
  | .visit _ _ _ | .finish _ _ | .leave _ _ => False
  | _ => True

/-- A task that goes on with the walk over a tree, or is idle. -/
def Task.GoesOn (w : WalkId) (e : Expr) (k : Option String) (n : NodeId) (t : Task) : Prop :=
  t.IsIdle ∨ ∃ p ∈ e.parts k n, p.klass = k ∧ t = .visit w p.expr p.node

/-- A step leaves the marks as they are, and leads to tasks of one kind. -/
structure Graph.LeavesMarks (g : Graph) (P : Task → Prop) (step : Step) : Prop where
  steady : Graph.Steady [] g step.1
  tasks : ∀ ts, step.2 = .ok ts → ∀ t ∈ ts, P t

namespace Graph

variable {g g' : Graph} {P : Task → Prop}

namespace LeavesMarks

theorem next (hs : Steady [] g g') {ts : List Task} (hts : ∀ t ∈ ts, P t) :
    g.LeavesMarks P (g'.next ts) := by
  refine ⟨hs, fun ts' h => ?_⟩
  cases h
  exact hts

theorem fail (hs : Steady [] g g') (f : Fault) : g.LeavesMarks P (g'.fail f) :=
  ⟨hs, fun _ h => nomatch h⟩

theorem mono {Q : Task → Prop} {step : Step} (h : g.LeavesMarks P step) (hPQ : ∀ t, P t → Q t) :
    g.LeavesMarks Q step :=
  ⟨h.steady, fun ts hts t ht => hPQ t (h.tasks ts hts t ht)⟩

end LeavesMarks

/-! ## Types -/

theorem leavesMarks_storeType (g : Graph) (n : NodeId) (t : Ty) :
    g.LeavesMarks Task.IsIdle (g.storeType n t) := by
  rcases g.storeType_cases n t with ⟨hs, -⟩ | ⟨hs, -⟩ <;> rw [hs]
  · exact .next (.refl g) (by simp)
  · refine .next (steady_setType g n t) fun task htask => ?_
    obtain ⟨o, -, rfl⟩ := List.mem_map.mp htask
    trivial

theorem leavesMarks_widenType (g : Graph) (n : NodeId) (t : Ty) :
    g.LeavesMarks Task.IsIdle (g.widenType n t) := by
  unfold widenType
  split
  · exact leavesMarks_storeType g n t
  · dsimp only
    split
    · exact leavesMarks_storeType g n _
    · exact .fail (.refl g) _

theorem leavesMarks_subscribe (g : Graph) (s o : NodeId) (r : Reaction) :
    g.LeavesMarks Task.IsIdle (g.subscribe s o r) := by
  refine .next (steady_addObserver g s o r) fun task htask => ?_
  split at htask
  · obtain rfl := List.mem_singleton.mp htask
    trivial
  · cases htask

theorem leavesMarks_react (g : Graph) (s : Option NodeId) (n : NodeId) (r : Reaction)
    (t : Option Ty) : g.LeavesMarks Task.IsIdle (g.react s n r t) := by
  have hwiden : ∀ task ∈ t.toList.map (Task.widen n), task.IsIdle := by
    intro task htask
    obtain ⟨u, -, rfl⟩ := List.mem_map.mp htask
    trivial
  unfold react
  dsimp only
  split
  · exact .next (steady_hear g _) hwiden
  · exact .next (.refl g) hwiden
  · exact .next (steady_hear g _) (by simp)
  · exact .next (.refl g) (List.forall_mem_singleton.mpr trivial)
  · exact .fail (.refl g) _
  · exact .fail (.refl g) _

theorem leavesMarks_notify (g : Graph) (n : NodeId) :
    g.LeavesMarks Task.IsIdle (g.notify n) := by
  refine .next (.refl g) fun task htask => ?_
  obtain ⟨o, -, rfl⟩ := List.mem_map.mp htask
  trivial

theorem leavesMarks_bind (g : Graph) (w : WalkId) (p : Place) (n : NodeId) :
    g.LeavesMarks Task.IsIdle (g.bind w p n) := by
  have hplace := steady_placeOf g w p (n + 1)
  unfold Graph.bind
  split <;> next heq => rw [heq] at hplace; first
    | exact .fail hplace _
    | exact .next hplace (by simp [Task.IsIdle])

/-! ## Walks -/

/-- Only the body of a class lies in another class than what it is a part of. -/
theorem klass_of_mem_parts {e : Expr} (he : ∀ nm b, e ≠ .klass nm b) {k : Option String} {n : Nat}
    {p : Stop} (h : p ∈ e.parts k n) : p.klass = k := by
  cases e with
  | klass nm b => exact (he nm b rfl).elim
  | literal | place | const | method => cases h
  | block es =>
      obtain ⟨x, -, rfl⟩ := List.mem_map.mp h
      rfl
  | call rc nm as q =>
      rw [Expr.parts] at h
      split at h
      · cases h
      · rcases List.mem_append.mp h with h | h <;> obtain ⟨x, -, rfl⟩ := List.mem_map.mp h <;> rfl
  | assign | loop =>
      simp only [Expr.parts, List.mem_cons, List.not_mem_nil, or_false] at h
      rcases h with rfl | rfl <;> rfl
  | cond c t f =>
      simp only [Expr.parts, List.mem_append, List.mem_cons, List.not_mem_nil, or_false,
        List.mem_map] at h
      rcases h with (rfl | rfl) | ⟨x, -, rfl⟩ <;> rfl

/-- The walk over a node goes on with the parts of the node, unless the node is a class. -/
theorem leavesMarks_visit (h : g.Tidy) {w : WalkId} {e : Expr} {n : NodeId}
    (he : ∀ nm b, e ≠ .klass nm b) (k : Option String) :
    g.LeavesMarks (Task.GoesOn w e k n) (g.visit w e n) where
  steady := by
    generalize hvisit : (g.visit w e n).1 = g'
    cases Graph.visits hvisit with
    | same => exact .refl g
    | place => exact steady_placeOf ..
    | method => exact steady_putMethod ..
    | entered | defined => exact (he _ _ rfl).elim
    | call => exact steady_modifySite g n fun _ h => h
    | clone => exact steady_cloneObject h _
  tasks ts hts t ht := by
    generalize hvisit : (g.visit w e n).1 = g'
    cases follows_of_visit k (Prod.ext hvisit hts) ht with
    | part hp => exact .inr ⟨_, hp, klass_of_mem_parts he hp, rfl⟩
    | left => exact (he _ _ rfl).elim
    | _ => exact .inl trivial

/-! ## Calls -/

theorem leavesMarks_addMember (g : Graph) (d : NodeId) (receiver : Option Atom)
    (args : List Atom) : g.LeavesMarks Task.IsIdle (g.addMember d receiver args) := by
  cases hx : g.dispatch? d with
  | none =>
      simp only [addMember, hx]
      exact .fail (.refl g) _
  | some x =>
      rw [addMember_eq hx]
      have hcell : Steady [] g (g.withMember x receiver args) := by
        refine (steady_addSlots g _).trans (steady_addCell _ ?_)
        simp [Cell.Has, Role.Has, Dispatch.member]
      exact .next (hcell.trans (steady_modifyDispatch _ d _)) (by simp [Task.IsIdle])

/-! ## All tasks -/

/-- A walk enters the body of a class. -/
def enter (g : Graph) (w : WalkId) (name : String) : Graph :=
  (g.declare name).1.modifyWalk w fun x => { x with klass := some (g.declare name).2 }

theorem visit_klass (g : Graph) (w : WalkId) (nm : Token) (b : Expr) (n : NodeId) :
    g.visit w (.klass nm b) n =
      (g.enter w nm.text).next [.visit w b (n + 1), .leave w (g.walk w).klass] := by
  simp only [visit, visitClass, enter, declare]
  cases g.classes.lookup nm.text <;> rfl

/-- What a task does to the marks. Only two kinds of tasks set one: the walk over a class, and the
call that begins the walk over a body. Both of them leave a task that takes it back. -/
inductive Turn (g : Graph) : Task → Step → Prop where
  | idle {task : Task} {step : Step} : task.IsIdle → g.LeavesMarks Task.IsIdle step →
      g.Turn task step
  | walk {w : WalkId} {e : Expr} {n : NodeId} {step : Step} :
      (∀ k, g.LeavesMarks (Task.GoesOn w e k n) step) → g.Turn (.visit w e n) step
  | enter {w : WalkId} {nm : Token} {b : Expr} {n : NodeId} : g.Turn (.visit w (.klass nm b) n)
      ((g.enter w nm.text).next [.visit w b (n + 1), .leave w (g.walk w).klass])
  | begin {c : NodeId} {s : Site} {receiver : Option Ty} {args : List Ty} {method : NodeId}
      {m : Method} {b : Expr} {t : NodeId} : g.method? method = some m → m.source = .written b t →
      g.Turn (.resolve c) ((g.specialized c s method m.params b receiver args).next
        [.visit g.walks.size b g.cells.size, .finish c g.instances.size,
          .subscribe g.cells.size c .merge, .aim c (.inst g.instances.size)])
  | finish {c : NodeId} {i : InstanceId} : g.Turn (.finish c i)
      ((g.modifySite c fun s => { s with busy := false }).next [])
  | leave {w : WalkId} {outer : Option ObjId} : g.Turn (.leave w outer)
      ((g.modifyWalk w fun x => { x with klass := outer }).next [])

theorem turn_resolve (h : g.Tidy) (c : NodeId) : g.Turn (.resolve c) (g.resolve c) := by
  generalize hstep : g.resolve c = step
  cases Graph.decides hstep with
  | stuck | refused => exact .idle trivial (.fail (.refl g) _)
  | waiting | dispatch | inst => exact .idle trivial (.next (.refl g) (by simp [Task.IsIdle]))
  | newDispatch =>
      refine .idle trivial (.next ((steady_addDispatch g _ _ _).trans (steady_notice _ _))
        fun task htask => ?_)
      rcases List.mem_append.mp htask with htask | htask
      · obtain ⟨r, as, rfl, -⟩ := mem_memberTasks.mp htask
        trivial
      · simp only [List.mem_cons, List.not_mem_nil, or_false] at htask
        rcases htask with rfl | rfl <;> trivial
  | @newInst s receiver args method m b t _ _ hcalls _ hsource =>
      have hprist : g.isPristine t = true := h.isPristine ⟨m, hcalls.found, hsource⟩
      cases hl : s.linked with
      | false =>
          rw [specialize_unlinked hprist hl]
          exact .idle trivial (.fail (steady_withInstance ..) _)
      | true =>
          rw [specialize_eq hprist hl]
          exact .begin hcalls.found hsource

theorem turn_perform (h : g.Tidy) (task : Task) : g.Turn task (g.perform task) := by
  cases task with
  | visit w e n =>
      by_cases he : ∃ nm b, e = .klass nm b
      · obtain ⟨nm, b, rfl⟩ := he
        rw [perform, visit_klass]
        exact .enter
      · exact .walk (leavesMarks_visit h fun nm b heq => he ⟨nm, b, heq⟩)
  | store n t => exact .idle trivial (leavesMarks_storeType g n t)
  | widen n t => exact .idle trivial (leavesMarks_widenType g n t)
  | subscribe s o r => exact .idle trivial (leavesMarks_subscribe g s o r)
  | deliver s o r => exact .idle trivial (leavesMarks_react ..)
  | react s o r t => exact .idle trivial (leavesMarks_react ..)
  | notify n => exact .idle trivial (leavesMarks_notify g n)
  | bind w p n => exact .idle trivial (leavesMarks_bind g w p n)
  | resolve c => exact turn_resolve h c
  | aim c t =>
      exact .idle trivial (.next (steady_modifySite g c
        (f := fun s => { s with target := some t }) fun _ h => h) (by simp))
  | member d r as => exact .idle trivial (leavesMarks_addMember g d r as)
  | markNew c =>
      exact .idle trivial (.next (steady_modifySite g c
        (f := fun s => { s with isNew := true }) fun _ h => h) (by simp))
  | finish c i => exact .finish
  | leave w outer => exact .leave

end Graph

end TypeFlow
