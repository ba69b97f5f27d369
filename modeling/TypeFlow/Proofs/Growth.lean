import TypeFlow.Graph.Lemmas
import TypeFlow.Inference.Resolution

/-! # What stays as the graph changes

Inference adds to the graph and fills its cells in, but it never changes what a cell stands for,
nor an instance that was made. -/

namespace TypeFlow

theorem getElem?_push_of_some {α : Type} {xs : Array α} {i : Nat} {x : α} (y : α)
    (h : xs[i]? = some x) : (xs.push y)[i]? = some x := by
  have hlt := (Array.getElem?_eq_some_iff.mp h).1
  rw [Array.getElem?_push, if_neg (by omega), h]

/-! ## Cells as they were made -/

namespace Site

/-- A call as it was written. -/
def blank (s : Site) : Site :=
  { s with linked := false, target := none, busy := false, isNew := false }

/-- The nodes whose types decide what is called. -/
def inputs (s : Site) : List NodeId := s.receiver.toList ++ s.args

end Site

def Method.blank (m : Method) : Method := { m with instances := [] }

def Dispatch.blank (d : Dispatch) : Dispatch := { d with calls := [] }

def Role.blank : Role → Role
  | .call s => .call s.blank
  | .method m => .method m.blank
  | .dispatch d => .dispatch d.blank
  | r => r

/-- A cell as it was made: what it stands for, without anything that inference found out. -/
def Cell.blank (c : Cell) : Cell := { role := c.role.blank, extent := c.extent }

namespace Graph

def blank (g : Graph) (n : NodeId) : Option Cell := g.cells[n]?.map Cell.blank

/-- The inputs of a call. Any other node has none. -/
def inputsOf (g : Graph) (n : NodeId) : List NodeId :=
  match g.blank n with
  | some c =>
      match c.role with
      | .call s => s.inputs
      | _ => []
  | none => []

/-- A call that inference has taken up. -/
def Linked (g : Graph) (c : NodeId) : Prop := ∃ s, g.site? c = some s ∧ s.linked = true

variable {g : Graph}

theorem lt_size_of_blank {n : NodeId} {c : Cell} (h : g.blank n = some c) : n < g.cells.size := by
  refine Nat.lt_of_not_le fun hn => ?_
  simp [blank, Array.getElem?_eq_none hn] at h

theorem blank_of_site {n : NodeId} {s : Site} (h : g.site? n = some s) :
    ∃ c, g.blank n = some c ∧ c.role = .call s.blank := by
  unfold site? role at h
  cases hc : g.cells[n]? with
  | none => simp [hc] at h
  | some c =>
      rw [hc] at h
      cases hr : c.role <;> simp_all [blank, Cell.blank, Role.blank]

theorem blank_of_method {n : NodeId} {m : Method} (h : g.method? n = some m) :
    ∃ c, g.blank n = some c ∧ c.role = .method m.blank := by
  unfold method? role at h
  cases hc : g.cells[n]? with
  | none => simp [hc] at h
  | some c =>
      rw [hc] at h
      cases hr : c.role <;> simp_all [blank, Cell.blank, Role.blank]

theorem blank_of_dispatch {n : NodeId} {d : Dispatch} (h : g.dispatch? n = some d) :
    ∃ c, g.blank n = some c ∧ c.role = .dispatch d.blank := by
  unfold dispatch? role at h
  cases hc : g.cells[n]? with
  | none => simp [hc] at h
  | some c =>
      rw [hc] at h
      cases hr : c.role <;> simp_all [blank, Cell.blank, Role.blank]

theorem site_of_blank {n : NodeId} {c : Cell} {s : Site} (h : g.blank n = some c)
    (hr : c.role = .call s) : ∃ s', g.site? n = some s' ∧ s'.blank = s := by
  unfold blank at h
  cases hc : g.cells[n]? with
  | none => simp [hc] at h
  | some c' =>
      simp only [hc, Option.map_some, Option.some.injEq] at h
      subst h
      cases hr' : c'.role <;> simp_all [site?, role, Cell.blank, Role.blank]

theorem method_of_blank {n : NodeId} {c : Cell} {m : Method} (h : g.blank n = some c)
    (hr : c.role = .method m) : ∃ m', g.method? n = some m' ∧ m'.blank = m := by
  unfold blank at h
  cases hc : g.cells[n]? with
  | none => simp [hc] at h
  | some c' =>
      simp only [hc, Option.map_some, Option.some.injEq] at h
      subst h
      cases hr' : c'.role <;> simp_all [method?, role, Cell.blank, Role.blank]

theorem dispatch_of_blank {n : NodeId} {c : Cell} {d : Dispatch} (h : g.blank n = some c)
    (hr : c.role = .dispatch d) : ∃ d', g.dispatch? n = some d' ∧ d'.blank = d := by
  unfold blank at h
  cases hc : g.cells[n]? with
  | none => simp [hc] at h
  | some c' =>
      simp only [hc, Option.map_some, Option.some.injEq] at h
      subst h
      cases hr' : c'.role <;> simp_all [dispatch?, role, Cell.blank, Role.blank]

theorem inputsOf_of_site {n : NodeId} {s : Site} (h : g.site? n = some s) :
    g.inputsOf n = s.inputs := by
  obtain ⟨c, hc, hr⟩ := blank_of_site h
  simp [inputsOf, hc, hr, Site.blank, Site.inputs]

/-! ## Growing -/

/-- What one graph keeps of another. -/
structure Grows (g g' : Graph) : Prop where
  blank : ∀ {n : NodeId} {c : Cell}, g.blank n = some c → g'.blank n = some c
  inst : ∀ {i : InstanceId} {x : Instance}, g.instances[i]? = some x → g'.instances[i]? = some x
  object : ∀ {i : ObjId} {o : ObjectType}, g.objects[i]? = some o →
    ∃ o', g'.objects[i]? = some o' ∧ o'.name = o.name ∧ o'.methods = o.methods
  walk : ∀ {w : WalkId} {x : Walk}, g.walks[w]? = some x →
    ∃ x', g'.walks[w]? = some x' ∧ x'.self = x.self
  linked : ∀ {c : NodeId}, g.Linked c → g'.Linked c

theorem Grows.refl (g : Graph) : Grows g g :=
  ⟨id, id, fun h => ⟨_, h, rfl, rfl⟩, fun h => ⟨_, h, rfl⟩, id⟩

theorem Grows.trans {a b c : Graph} (h : Grows a b) (h' : Grows b c) : Grows a c where
  blank hn := h'.blank (h.blank hn)
  inst hi := h'.inst (h.inst hi)
  object hi := by
    obtain ⟨o, ho, hname, hmethods⟩ := h.object hi
    obtain ⟨o', ho', hname', hmethods'⟩ := h'.object ho
    exact ⟨o', ho', hname'.trans hname, hmethods'.trans hmethods⟩
  walk hw := by
    obtain ⟨x, hx, hself⟩ := h.walk hw
    obtain ⟨x', hx', hself'⟩ := h'.walk hx
    exact ⟨x', hx', hself'.trans hself⟩
  linked hc := h'.linked (h.linked hc)

theorem Grows.inputsOf {g g' : Graph} (h : Grows g g') {n : NodeId} (hn : n < g.cells.size) :
    g'.inputsOf n = g.inputsOf n := by
  have hb : g.blank n = some (g.cells[n].blank) := by simp [Graph.blank, hn]
  simp only [Graph.inputsOf, h.blank hb, hb]

/-! ## Changes of one cell -/

/-- A change of a cell that keeps what the cell stands for, and does not unlink a call. -/
structure Fills (f : Cell → Cell) : Prop where
  blank : ∀ c, (f c).blank = c.blank
  linked : ∀ c s, c.role = .call s → s.linked = true → ∃ s', (f c).role = .call s' ∧ s'.linked = true

theorem blank_modify {f : Cell → Cell} (hf : ∀ c, (f c).blank = c.blank) (g : Graph)
    (n m : NodeId) : Graph.blank { g with cells := g.cells.modify n f } m = g.blank m := by
  simp only [blank, Array.getElem?_modify]
  split
  · next h =>
      cases g.cells[m]? <;> simp [hf]
  · rfl

theorem linked_iff {c : NodeId} :
    g.Linked c ↔ ∃ x s, g.cells[c]? = some x ∧ x.role = .call s ∧ s.linked = true := by
  unfold Linked site? role
  cases hc : g.cells[c]? with
  | none => simp
  | some x => cases hr : x.role <;> simp [hr]

theorem grows_modify {f : Cell → Cell} (hf : Fills f) (g : Graph) (n : NodeId) :
    Grows g { g with cells := g.cells.modify n f } where
  blank h := by rwa [blank_modify hf.blank]
  inst h := h
  object h := ⟨_, h, rfl, rfl⟩
  walk h := ⟨_, h, rfl⟩
  linked h := by
    obtain ⟨x, s, hx, hr, hs⟩ := linked_iff.mp h
    rw [linked_iff]
    simp only [Array.getElem?_modify]
    split
    · next heq =>
        obtain ⟨s', hs', hl⟩ := hf.linked x s hr hs
        exact ⟨f x, s', by simp [hx], hs', hl⟩
    · exact ⟨x, s, hx, hr, hs⟩

theorem grows_setType (g : Graph) (n : NodeId) (t : Ty) : Grows g (g.setType n t) :=
  grows_modify (f := fun c => { c with type := some t }) ⟨fun _ => rfl, fun _ s hr hs => ⟨s, hr, hs⟩⟩ g n

theorem grows_addObserver (g : Graph) (n o : NodeId) (r : Reaction) :
    Grows g (g.addObserver n o r) :=
  grows_modify (f := fun c => { c with observers := c.observers.put o r }) ⟨fun _ => rfl, fun _ s hr hs => ⟨s, hr, hs⟩⟩ g n

theorem grows_modifySite (g : Graph) (n : NodeId) {f : Site → Site}
    (hf : ∀ s, (f s).blank = s.blank) (hl : ∀ s, s.linked = true → (f s).linked = true) :
    Grows g (g.modifySite n f) := by
  refine grows_modify ⟨fun c => ?_, fun c s hr hs => ?_⟩ g n
  · cases hr : c.role <;> simp [Cell.blank, Role.blank, hr, hf]
  · exact ⟨f s, by simp [hr], hl s hs⟩

theorem grows_modifyMethod (g : Graph) (n : NodeId) {f : Method → Method}
    (hf : ∀ m, (f m).blank = m.blank) : Grows g (g.modifyMethod n f) := by
  refine grows_modify ⟨fun c => ?_, fun c s hr hs => ⟨s, by simp [hr], hs⟩⟩ g n
  cases hr : c.role <;> simp [Cell.blank, Role.blank, hr, hf]

theorem grows_modifyDispatch (g : Graph) (n : NodeId) {f : Dispatch → Dispatch}
    (hf : ∀ d, (f d).blank = d.blank) : Grows g (g.modifyDispatch n f) := by
  refine grows_modify ⟨fun c => ?_, fun c s hr hs => ⟨s, by simp [hr], hs⟩⟩ g n
  cases hr : c.role <;> simp [Cell.blank, Role.blank, hr, hf]

/-! ## New cells -/

/-- Cells are only added at the end, and nothing else changes that a graph keeps. -/
theorem grows_append {g g' : Graph} (hcells : ∀ n < g.cells.size, g'.cells[n]? = g.cells[n]?)
    (hinst : g'.instances = g.instances)
    (hobj : ∀ {i : ObjId} {o : ObjectType}, g.objects[i]? = some o → g'.objects[i]? = some o)
    (hwalk : ∀ {w : WalkId} {x : Walk}, g.walks[w]? = some x → g'.walks[w]? = some x) :
    Grows g g' where
  blank h := by rwa [blank, hcells _ (lt_size_of_blank h)]
  inst h := by rwa [hinst]
  object h := ⟨_, hobj h, rfl, rfl⟩
  walk h := ⟨_, hwalk h, rfl⟩
  linked h := by
    obtain ⟨x, s, hx, hr, hs⟩ := linked_iff.mp h
    have hlt := (Array.getElem?_eq_some_iff.mp hx).1
    exact linked_iff.mpr ⟨x, s, by rw [hcells _ hlt, hx], hr, hs⟩

theorem grows_addCell (g : Graph) (c : Cell) : Grows g (g.addCell c).1 :=
  grows_append (fun n hn => by simp only [addCell, Array.getElem?_push, if_neg (Nat.ne_of_lt hn)])
    rfl id id

theorem grows_plant (g : Graph) (e : Expr) : Grows g (g.plant e).1 :=
  grows_append (fun _ hn => Array.getElem?_append_left hn) rfl id id

theorem grows_addSlots (g : Graph) (slots : List (Option String × Ty)) :
    Grows g (g.addSlots slots).1 := by
  induction slots generalizing g with
  | nil => exact .refl g
  | cons s slots ih => exact (grows_addCell g _).trans (ih _)

theorem grows_copyFields (g : Graph) (fields : Table String NodeId) :
    Grows g (g.copyFields fields).1 := by
  induction fields generalizing g with
  | nil => exact .refl g
  | cons f fields ih => exact (grows_addCell g _).trans (ih _)

/-! ## Other changes -/

theorem grows_addWalk (g : Graph) (w : Walk) : Grows g (g.addWalk w).1 :=
  grows_append (fun _ _ => rfl) rfl id (getElem?_push_of_some w)

theorem grows_modifyWalk (g : Graph) (w : WalkId) {f : Walk → Walk}
    (hf : ∀ x, (f x).self = x.self) : Grows g (g.modifyWalk w f) where
  blank h := h
  inst h := h
  object h := ⟨_, h, rfl, rfl⟩
  walk := by
    intro v x h
    simp only [modifyWalk, Array.getElem?_modify, h]
    split
    · exact ⟨f x, rfl, hf x⟩
    · exact ⟨x, rfl, rfl⟩
  linked h := h

theorem grows_notice (g : Graph) (n : Notice) : Grows g (g.notice n) :=
  grows_append (fun _ _ => rfl) rfl id id

theorem grows_addInstance (g : Graph) (x : Instance) : Grows g (g.addInstance x).1 := by
  have hpush : Grows g { g with instances := g.instances.push x } :=
    { Grows.refl g with inst := getElem?_push_of_some x }
  exact hpush.trans (grows_modifyMethod _ _ fun _ => rfl)

theorem grows_pushObject {g g' : Graph} {o : ObjectType} (hcells : g'.cells = g.cells)
    (hinst : g'.instances = g.instances) (hobj : g'.objects = g.objects.push o)
    (hwalk : g'.walks = g.walks) : Grows g g' :=
  grows_append (fun _ _ => by rw [hcells]) hinst
    (fun h => by rw [hobj]; exact getElem?_push_of_some o h) (fun h => by rwa [hwalk])

theorem grows_addClass (g : Graph) (name : String) : Grows g (g.addClass name).1 :=
  grows_pushObject rfl rfl rfl rfl

theorem grows_cloneObject (g : Graph) (i : ObjId) : Grows g (g.cloneObject i).1 := by
  unfold cloneObject
  split
  · exact .refl g
  · exact (grows_copyFields g _).trans (grows_pushObject rfl rfl rfl rfl)

theorem grows_putField (g : Graph) (i : ObjId) (name : String) (v : NodeId) :
    Grows g (g.putField i name v) where
  blank h := h
  inst h := h
  object := by
    intro j o h
    simp only [putField, Array.getElem?_modify, h]
    split
    · exact ⟨_, rfl, rfl, rfl⟩
    · exact ⟨o, rfl, rfl, rfl⟩
  walk h := ⟨_, h, rfl⟩
  linked h := h

theorem grows_putMethod (g : Graph) (k : Option ObjId) (name : String) (m : NodeId) :
    Grows g (g.putMethod k name m) := by
  unfold putMethod
  split <;> exact grows_append (fun _ _ => rfl) rfl id id

theorem grows_addDispatch (g : Graph) (s : Site) (receiver : Option Ty) (args : List Ty) :
    Grows g (g.addDispatch s receiver args).1 :=
  (grows_addCell g _).trans (grows_append (fun _ _ => rfl) rfl id id)

end Graph

end TypeFlow
