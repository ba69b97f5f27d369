import TypeFlow.Proofs.Bodies
import TypeFlow.Proofs.Recording

/-! # The bodies of methods wait to be copied

Whatever becomes of a program, and whatever is done to it from outside the bodies of its methods,
those bodies stay as they were planted: nothing is ever recorded in them. So each instance walks
over a fresh copy of the body of its method. -/

namespace TypeFlow

/-- A key that no key passes the test against is put at the end. -/
theorem Table.putBy_of_forall {κ β : Type} {same : κ → κ → Bool} {k : κ} {v : β} {t : Table κ β}
    (h : ∀ e ∈ t, same e.1 k = false) : t.putBy same k v = t ++ [(k, v)] := by
  induction t with
  | nil => rfl
  | cons e t ih =>
      rw [Table.putBy, h e (List.mem_cons_self ..), if_neg Bool.false_ne_true,
        ih fun e he => h e (List.mem_cons_of_mem _ he), List.cons_append]

/-- The body of a written method, and where it lies. -/
def MethodSource.body? : MethodSource → Option (Expr × NodeId)
  | .written body root => some (body, root)
  | _ => none

theorem MethodSource.body?_eq_some_iff {s : MethodSource} {b : Expr} {t : NodeId} :
    s.body? = some (b, t) ↔ s = .written b t := by
  cases s <;> simp [body?]

namespace Graph

/-! ## Trees in the graph -/

/-- The cell of a node as it is planted. -/
def planted (x : Nat × Expr) : Cell := { role := freshRole x.1 x.2, extent := x.2.size }

/-- A tree lies at an address: each of its cells stands for the node of the tree at its place. -/
def Carries (g : Graph) (root : NodeId) (e : Expr) : Prop :=
  ∀ x ∈ e.nodes root, g.blank x.1 = some (planted x)

/-- A method has a body, which lies at an address and waits to be copied. -/
def HasTemplate (g : Graph) (m : NodeId) (b : Expr) (t : NodeId) : Prop :=
  ∃ x, g.method? m = some x ∧ x.source = .written b t

/-- The bodies of all methods lie right behind the methods. -/
def Laid (g : Graph) : Prop := ∀ m b t, g.HasTemplate m b t → t = m + 1 ∧ g.Carries t b

/-- A cell outside the bodies of all methods. -/
def Live (g : Graph) (n : NodeId) : Prop :=
  n < g.cells.size ∧ ∀ m b t, g.HasTemplate m b t → n < t ∨ t + b.size ≤ n

variable {g g' : Graph}

theorem hasTemplate_iff_body {m : NodeId} {b : Expr} {t : NodeId} :
    g.HasTemplate m b t ↔ ((g.method? m).bind fun x => x.source.body?) = some (b, t) := by
  simp [HasTemplate, Option.bind_eq_some_iff, MethodSource.body?_eq_some_iff]

theorem Grows.carries (h : Grows g g') {root : NodeId} {e : Expr} (he : g.Carries root e) :
    g'.Carries root e := fun x hx => h.blank (he x hx)

theorem hasTemplate_iff {m : NodeId} {b : Expr} {t : NodeId} : g.HasTemplate m b t ↔
    ∃ c x, g.blank m = some c ∧ c.role = .method x ∧ x.source = .written b t := by
  constructor
  · rintro ⟨x, hx, hsource⟩
    obtain ⟨c, hc, hr⟩ := blank_of_method hx
    exact ⟨c, x.blank, hc, hr, hsource⟩
  · rintro ⟨c, x, hc, hr, hsource⟩
    obtain ⟨x', hx', rfl⟩ := method_of_blank hc hr
    exact ⟨x', hx', hsource⟩

theorem Grows.template (h : Grows g g') {m : NodeId} {b : Expr} {t : NodeId}
    (hm : g.HasTemplate m b t) : g'.HasTemplate m b t := by
  obtain ⟨c, x, hc, hx⟩ := hasTemplate_iff.mp hm
  exact hasTemplate_iff.mpr ⟨c, x, h.blank hc, hx⟩

/-- A method that was there before has the body that it had. -/
theorem Grows.template_of_lt (h : Grows g g') {m : Nat} {b : Expr} {t : NodeId}
    (hm : g'.HasTemplate m b t) (hlt : m < g.cells.size) : g.HasTemplate m b t := by
  obtain ⟨c, x, hc, hx⟩ := hasTemplate_iff.mp hm
  have hblank : g.blank m = some (g.cells[m].blank) := by simp [Graph.blank, hlt]
  rw [h.blank hblank] at hc
  cases hc
  exact hasTemplate_iff.mpr ⟨_, x, hblank, hx⟩

theorem HasTemplate.lt_size {m : NodeId} {b : Expr} {t : NodeId} (h : g.HasTemplate m b t) :
    m < g.cells.size := by
  obtain ⟨c, x, hc, -⟩ := hasTemplate_iff.mp h
  exact lt_size_of_blank hc

theorem Carries.end_le {root : Nat} {e : Expr} (h : g.Carries root e) :
    root + e.size ≤ g.cells.size := by
  have hpos := e.size_pos
  obtain ⟨x, hx, heq⟩ := Expr.exists_node (e := e) (i := root) (j := root + (e.size - 1))
    (by omega) (by omega)
  have hlt : (x.1 : Nat) < g.cells.size := lt_size_of_blank (h x hx)
  omega

/-! ## Bodies and cells as the graph grows -/

/-- A live cell stays outside of all bodies, as new bodies lie behind it. -/
theorem Live.grow {n : Nat} (h : g.Live n) (hg : Grows g g') (hl : g'.Laid) : g'.Live n := by
  refine ⟨Nat.lt_of_lt_of_le h.1 hg.size_le, fun m b t hm => ?_⟩
  by_cases hlt : m < g.cells.size
  · exact h.2 m b t (hg.template_of_lt hm hlt)
  · obtain ⟨rfl, -⟩ := hl m b t hm
    exact .inl (Nat.lt_succ_of_lt (Nat.lt_of_lt_of_le h.1 (Nat.le_of_not_lt hlt)))

/-- The methods with bodies are those that there were. -/
def KeepsTemplates (g g' : Graph) : Prop := ∀ m b t, g'.HasTemplate m b t → g.HasTemplate m b t

theorem Laid.grow (h : g.Laid) (hg : Grows g g') (hk : KeepsTemplates g g') : g'.Laid := by
  intro m b t hm
  obtain ⟨ht, hb⟩ := h m b t (hk m b t hm)
  exact ⟨ht, hg.carries hb⟩

/-- A new cell lies behind all bodies. -/
theorem Laid.live_new (h : g.Laid) (hk : KeepsTemplates g g') {n : NodeId}
    (hle : g.cells.size ≤ n) (hlt : n < g'.cells.size) : g'.Live n := by
  refine ⟨hlt, fun m b t hm => .inr ?_⟩
  exact Nat.le_trans (h m b t (hk m b t hm)).2.end_le hle

/-- A graph that has grown, while its methods and instances are as they were. -/
structure Adds (g g' : Graph) : Prop where
  grows : Grows g g'
  method : ∀ m, g'.method? m = g.method? m
  inst : g'.instances = g.instances

namespace Adds

theorem refl (g : Graph) : Adds g g := ⟨.refl g, fun _ => rfl, rfl⟩

theorem trans {a b c : Graph} (h : Adds a b) (h' : Adds b c) : Adds a c :=
  ⟨h.grows.trans h'.grows, fun m => (h'.method m).trans (h.method m), h'.inst.trans h.inst⟩

theorem keepsTemplates (h : Adds g g') : KeepsTemplates g g' := by
  rintro m b t ⟨x, hx, hsource⟩
  exact ⟨x, (h.method m).symm.trans hx, hsource⟩

end Adds

theorem adds_of_cells (hg : Grows g g') (hcells : g'.cells = g.cells)
    (hinst : g'.instances = g.instances) : Adds g g' :=
  ⟨hg, fun m => by simp only [method?, role, hcells], hinst⟩

theorem method?_eq_some_iff {n : NodeId} {m : Method} :
    g.method? n = some m ↔ ∃ c, g.cells[n]? = some c ∧ c.role = .method m := by
  constructor
  · exact exists_of_method
  · rintro ⟨c, hc, hr⟩
    simp [method?, role, hc, hr]

theorem adds_modify {f : Cell → Cell} (hg : Grows g { g with cells := g.cells.modify n f })
    (hf : ∀ c m, (f c).role = .method m ↔ c.role = .method m) :
    Adds g { g with cells := g.cells.modify n f } := by
  refine ⟨hg, fun m => Option.ext fun x => ?_, rfl⟩
  simp only [method?_eq_some_iff, Array.getElem?_modify]
  split
  · next heq =>
      cases g.cells[m]? with
      | none => simp
      | some c => simp [hf]
  · rfl

theorem adds_setType (g : Graph) (n : NodeId) (t : Ty) : Adds g (g.setType n t) :=
  adds_modify (f := fun c => { c with type := some t }) (grows_setType g n t) fun _ _ => Iff.rfl

theorem adds_addObserver (g : Graph) (n o : NodeId) (r : Reaction) : Adds g (g.addObserver n o r) :=
  adds_modify (f := fun c => { c with observers := c.observers.put o r })
    (grows_addObserver g n o r) fun _ _ => Iff.rfl

theorem adds_modifySite (g : Graph) (n : NodeId) {f : Site → Site}
    (hf : ∀ s, (f s).blank = s.blank) (hl : ∀ s, s.linked = true → (f s).linked = true) :
    Adds g (g.modifySite n f) :=
  adds_modify (grows_modifySite g n hf hl) fun c m => by cases hr : c.role <;> simp [hr]

theorem adds_modifyDispatch (g : Graph) (n : NodeId) {f : Dispatch → Dispatch}
    (hf : ∀ d, (f d).blank = d.blank) : Adds g (g.modifyDispatch n f) :=
  adds_modify (grows_modifyDispatch g n hf) fun c m => by cases hr : c.role <;> simp [hr]

theorem adds_addCell (g : Graph) {c : Cell} (hc : ∀ m, c.role ≠ .method m) :
    Adds g (g.addCell c).1 := by
  refine ⟨grows_addCell g c, fun m => Option.ext fun x => ?_, rfl⟩
  simp only [method?_eq_some_iff, addCell, Array.getElem?_push]
  split
  · next heq => simp [heq, hc]
  · rfl

theorem adds_addSlots (g : Graph) (slots : List (Option String × Ty)) :
    Adds g (g.addSlots slots).1 := by
  induction slots generalizing g with
  | nil => exact .refl g
  | cons s slots ih => exact (adds_addCell g (by simp)).trans (ih _)

theorem adds_copyFields {fields : Table String NodeId}
    (hslot : ∀ f ∈ fields, f.2 < g.cells.size ∧ ∃ x, g.role f.2 = .slot x) :
    Adds g (g.copyFields fields).1 := by
  induction fields generalizing g with
  | nil => exact .refl g
  | cons f fields ih =>
      obtain ⟨hlt, x, hx⟩ := hslot f (List.mem_cons_self ..)
      let copy : Cell := { role := g.role f.2, type := g.type f.2 }
      refine (adds_addCell g (c := copy) fun m hm => ?_).trans (ih fun f' hf' => ?_)
      · simp [copy, hx] at hm
      · obtain ⟨hlt, y, hy⟩ := hslot f' (List.mem_cons_of_mem _ hf')
        refine ⟨Nat.lt_of_lt_of_le hlt (grows_addCell g copy).size_le, y, ?_⟩
        rw [role_addCell, if_neg (Nat.ne_of_lt hlt), hy]

theorem adds_cloneObject {i : ObjId} (hslot : ∀ o, g.objects[i]? = some o →
    ∀ f ∈ o.fields, f.2 < g.cells.size ∧ ∃ x, g.role f.2 = .slot x) :
    Adds g (g.cloneObject i).1 := by
  unfold cloneObject
  cases ho : g.objects[i]? with
  | none => exact .refl g
  | some o =>
      exact (adds_copyFields (hslot o ho)).trans
        (adds_of_cells (grows_pushObject rfl rfl rfl rfl) rfl rfl)

theorem adds_addDispatch (g : Graph) (s : Site) (receiver : Option Ty) (args : List Ty) :
    Adds g (g.addDispatch s receiver args).1 :=
  (adds_addCell g (by simp)).trans
    (adds_of_cells (grows_append (fun _ _ => rfl) rfl id id) rfl rfl)

/-! ## New trees -/

theorem carries_plant (g : Graph) (e : Expr) : (g.plant e).1.Carries g.cells.size e :=
  fun _ hx => blank_plant hx

/-- A method that is new with a tree is a node of the tree. -/
theorem template_plant {e : Expr} {m : Nat} {b : Expr} {t : NodeId}
    (h : (g.plant e).1.HasTemplate m b t) : g.HasTemplate m b t ∨
      t = m + 1 ∧ ∃ nm ps, (m, .method nm ps b) ∈ e.nodes g.cells.size := by
  have hlt := h.lt_size
  rw [cells_plant] at hlt
  by_cases hold : m < g.cells.size
  · exact .inl ((grows_plant g e).template_of_lt h hold)
  · right
    obtain ⟨⟨_, x⟩, hx, rfl⟩ := Expr.exists_node (e := e) (Nat.le_of_not_lt hold) hlt
    obtain ⟨c, y, hc, hr, hsource⟩ := hasTemplate_iff.mp h
    rw [blank_plant hx] at hc
    cases hc
    cases x with
    | method nm ps b' =>
        cases hr
        cases hsource
        exact ⟨rfl, nm, ps, hx⟩
    | _ => cases hr

theorem Laid.plant (h : g.Laid) (e : Expr) : (g.plant e).1.Laid := by
  intro m b t hm
  rcases template_plant hm with hm | ⟨rfl, nm, ps, hnode⟩
  · obtain ⟨ht, hb⟩ := h m b t hm
    exact ⟨ht, (grows_plant g e).carries hb⟩
  · exact ⟨rfl, fun x hx => blank_plant (Expr.nodes_of_method hnode x hx)⟩

/-- What a walk over a new tree comes to is outside the bodies of all methods, those of the tree
included. -/
theorem Laid.live_stop (h : g.Laid) {e : Expr} {k : Option String} {q : Stop}
    (hq : q ∈ e.stops k g.cells.size) : (g.plant e).1.Live q.node := by
  have hrange := Expr.stop_range hq
  have hpos := q.expr.size_pos
  refine ⟨?_, fun m b t hm => ?_⟩
  · rw [cells_plant]
    exact Nat.lt_of_lt_of_le (Nat.lt_add_of_pos_right hpos) hrange.2
  rcases template_plant hm with hm | ⟨rfl, nm, ps, hnode⟩
  · exact .inr (Nat.le_trans (h m b t hm).2.end_le hrange.1)
  · exact Expr.stop_not_in_body hnode hq

/-- A tree lies at an address, and the bodies of methods that were there before end before it. -/
structure Stands (g : Graph) (root : NodeId) (e : Expr) : Prop where
  carries : g.Carries root e
  before : ∀ m b t, g.HasTemplate m b t → m < root → t + b.size ≤ root

theorem Stands.grow {root : NodeId} {e : Expr} (h : g.Stands root e) (hg : Grows g g') :
    g'.Stands root e := by
  refine ⟨hg.carries h.carries, fun m b t hm hlt => h.before m b t (hg.template_of_lt hm ?_) hlt⟩
  exact Nat.lt_of_lt_of_le hlt (Nat.le_trans (Nat.le_add_right _ _) h.carries.end_le)

theorem stands_plant (h : g.Laid) (e : Expr) : (g.plant e).1.Stands g.cells.size e := by
  refine ⟨carries_plant g e, fun m b t hm hlt => ?_⟩
  exact (h m b t ((grows_plant g e).template_of_lt hm hlt)).2.end_le

/-- A body of a method and a tree lie apart, or the method is a node of the tree. -/
theorem Stands.apart {root m t : Nat} {e b : Expr} (h : g.Stands root e) (hl : g.Laid)
    (hm : g.HasTemplate m b t) : t + b.size ≤ root ∨ root + e.size < t ∨
      ∃ nm ps, (m, .method nm ps b) ∈ e.nodes root := by
  obtain ⟨rfl, -⟩ := hl m b t hm
  by_cases hbefore : m < root
  · exact .inl (h.before m b _ hm hbefore)
  by_cases hbehind : root + e.size ≤ m
  · exact .inr (.inl (Nat.lt_succ_of_le hbehind))
  obtain ⟨⟨_, x⟩, hx, rfl⟩ := Expr.exists_node (e := e) (Nat.le_of_not_lt hbefore)
    (Nat.lt_of_not_le hbehind)
  obtain ⟨c, y, hc, hr, hsource⟩ := hasTemplate_iff.mp hm
  rw [h.carries _ hx] at hc
  cases hc
  cases x with
  | method nm ps b' =>
      cases hr
      cases hsource
      exact .inr (.inr ⟨nm, ps, hx⟩)
  | _ => cases hr

/-- A node of a tree is outside of all bodies if it is outside of those in the tree. -/
theorem Stands.live {root n : Nat} {e : Expr} (h : g.Stands root e) (hl : g.Laid)
    (hlow : root ≤ n) (hhigh : n < root + e.size)
    (hout : ∀ m nm ps b, (m, .method nm ps b) ∈ e.nodes root → n < m + 1 ∨ m + 1 + b.size ≤ n) :
    g.Live n := by
  refine ⟨Nat.lt_of_lt_of_le hhigh h.carries.end_le, fun m b t hm => ?_⟩
  rcases h.apart hl hm with hbefore | hbehind | ⟨nm, ps, hnode⟩
  · exact .inr (Nat.le_trans hbefore hlow)
  · exact .inl (Nat.lt_trans hhigh hbehind)
  · obtain ⟨rfl, -⟩ := hl m b t hm
    exact hout m nm ps b hnode

/-! ## New instances -/

/-- A graph that has grown by an instance of a method and the copy of the body that the walk over
the instance goes over. The method was not called with equal types before. -/
structure Gains (g : Graph) (x : Instance) (m : Method) (b : Expr) (t : NodeId) (g' : Graph) :
    Prop where
  found : g.method? x.method = some m
  source : m.source = .written b t
  arity : x.params.length = m.params.length
  concrete : ∀ c ∈ x.params, ∃ a, c = some (.one a)
  fresh : ∀ e ∈ m.instances, g.heap.sameRow e.1 x.params = false
  body : x.body = g.cells.size
  grows : Grows (g.plant b).1 g'
  method : ∀ n, g'.method? n =
    if n = x.method then
      some { m with instances := m.instances ++ [(x.params, g.instances.size)] }
    else (g.plant b).1.method? n
  inst : g'.instances = g.instances.push x

theorem method?_addInstance (g : Graph) (x : Instance) (n : NodeId) :
    (g.addInstance x).1.method? n = if n = x.method then
      (g.method? n).map fun m =>
        { m with instances := m.instances.putBy g.heap.sameRow x.params g.instances.size }
      else g.method? n := by
  simp only [method?, role, addInstance, modifyMethod, Array.getElem?_modify]
  by_cases h : n = x.method
  · subst h
    cases hc : g.cells[x.method]? with
    | none => simp
    | some c => cases hr : c.role <;> simp [hr]
  · simp [h, Ne.symm h]

theorem adds_addWalkOver (g : Graph) (inputs : List (String × Ty)) (owner : Option Atom) :
    Adds g (g.addWalkOver inputs owner).1 := by
  rw [addWalkOver_eq]
  exact (adds_addSlots g _).trans (adds_of_cells (grows_addWalk _ _) rfl rfl)

theorem method?_plant {n : NodeId} {m : Method} (h : g.method? n = some m) (e : Expr) :
    (g.plant e).1.method? n = some m := by
  obtain ⟨c, hc, hr⟩ := method?_eq_some_iff.mp h
  refine method?_eq_some_iff.mpr ⟨c, ?_, hr⟩
  exact (Array.getElem?_append_left (Array.getElem?_eq_some_iff.mp hc).1).trans hc

theorem instances_addInstance (g : Graph) (x : Instance) :
    (g.addInstance x).1.instances = g.instances.push x := rfl

/-- A method gains an instance for types that it was not called with before, neither when the body
was copied nor now. -/
theorem gains_addInstance {x : Instance} {m : Method} {b : Expr} {t : NodeId}
    (hadds : Adds (g.plant b).1 g') (hfound : g.method? x.method = some m)
    (hsource : m.source = .written b t) (harity : x.params.length = m.params.length)
    (hconcrete : ∀ c ∈ x.params, ∃ a, c = some (.one a)) (hbody : x.body = g.cells.size)
    (hfresh : ∀ e ∈ m.instances, g.heap.sameRow e.1 x.params = false)
    (hfresh' : ∀ e ∈ m.instances, g'.heap.sameRow e.1 x.params = false) :
    Gains g x m b t (g'.addInstance x).1 where
  found := hfound
  source := hsource
  arity := harity
  concrete := hconcrete
  fresh := hfresh
  body := hbody
  grows := hadds.grows.trans (grows_addInstance g' x)
  method n := by
    rw [method?_addInstance, hadds.method]
    split
    · next heq =>
        have hinst : g'.instances = g.instances := hadds.inst
        rw [heq, method?_plant hfound, Option.map_some, Table.putBy_of_forall hfresh', hinst]
    · rfl
  inst := by
    rw [instances_addInstance, hadds.inst]
    rfl

/-- A type that is not mixed is no union. -/
theorem concrete_of_not_mixed {t : Ty} (hwf : t.WellFormed) (h : t.isMixed = false) :
    ∃ a, t = .one a := by
  cases t with
  | one a => exact ⟨a, rfl⟩
  | union ms key =>
      have hlength : 1 < ms.length := hwf
      exact absurd hlength (of_decide_eq_false h)

/-- A call of a method with types that it was not called with before makes an instance for them. -/
theorem gains_withInstance (hfields : ∀ i x v, g.Has (.field i x v) → v < g.cells.size)
    {method : NodeId} {m : Method} (hm : g.method? method = some m) {b : Expr} {t : NodeId}
    (hsource : m.source = .written b t) {args : List Ty} (harity : m.params.length = args.length)
    (hargs : args.any Ty.isMixed = false) (hwf : ∀ u ∈ args, u.WellFormed)
    (hfind : Table.findBy? g.heap.sameRow (args.map some) m.instances = none)
    (receiver : Option Ty) : Gains g (g.newInstance method receiver args) m b t
      (g.withInstance method m.params b receiver args) := by
  have hfresh : ∀ e ∈ m.instances, g.heap.sameRow e.1 (args.map some) = false := by
    simpa [Table.findBy?] using hfind
  refine gains_addInstance (adds_addWalkOver ..) hm hsource ?_ (fun c hc => ?_) rfl hfresh
    (sameRow_withBody hfields hfind b _ _)
  · rw [newInstance, List.length_map, harity]
  · obtain ⟨u, hu, rfl⟩ := List.mem_map.mp hc
    obtain ⟨a, rfl⟩ := concrete_of_not_mixed (hwf u hu)
      (Bool.eq_false_iff.mpr (List.any_eq_false.mp hargs u hu))
    exact ⟨a, rfl⟩

/-- What comes after a gain keeps it, if it only adds to the graph. -/
theorem Gains.adds {x : Instance} {m : Method} {b : Expr} {t : NodeId} (h : Gains g x m b t g')
    {g'' : Graph} (ha : Adds g' g'') : Gains g x m b t g'' :=
  { h with
    grows := h.grows.trans ha.grows
    method := fun n => (ha.method n).trans (h.method n)
    inst := ha.inst.trans h.inst }

/-- A gain brings no body but those in the copy. -/
theorem Gains.keepsTemplates {x : Instance} {m : Method} {b : Expr} {t : NodeId}
    (h : Gains g x m b t g') : KeepsTemplates (g.plant b).1 g' := by
  rintro n b' t' ⟨m', hm', hsource⟩
  rw [h.method n] at hm'
  split at hm'
  · next heq =>
      cases hm'
      subst heq
      exact (grows_plant g b).template ⟨m, h.found, hsource⟩
  · exact ⟨m', hm', hsource⟩

end Graph

end TypeFlow
