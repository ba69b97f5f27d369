import TypeFlow.Proofs.Members

/-! # Resolving calls keeps the labelling

A call is resolved in one of a few ways. Two of them make something new: a dispatch, or an instance
of a method with a walk over its body. -/

namespace TypeFlow

variable {L : Labels} {g : Graph}

/-! ## Methods -/

theorem Graph.has_method_of_scope {receiver : Option Ty} {name : String} {m : NodeId}
    (h : (g.scopeOf receiver).lookup name = some m) : g.Has (.method m) := by
  unfold Graph.scopeOf at h
  match receiver with
  | none => exact .inl ⟨name, Table.mem_of_lookup h⟩
  | some (.union _ _) => cases h
  | some (.one (.prim n)) =>
      simp only [Graph.methodsOf] at h
      cases ht : g.natives.lookup n with
      | none => simp [ht] at h
      | some t =>
          rw [ht] at h
          exact .inr (.inr ⟨n, t, name, Table.mem_of_lookup ht, Table.mem_of_lookup h⟩)
  | some (.one (.obj i)) =>
      simp only [Graph.methodsOf] at h
      cases ht : g.objects[i]?.bind fun o => g.tables[o.methods]? with
      | none => simp [ht] at h
      | some t =>
          rw [ht] at h
          obtain ⟨o, -, ht⟩ := Option.bind_eq_some_iff.mp ht
          exact .inr (.inl ⟨t, Array.mem_of_getElem? ht, name, Table.mem_of_lookup h⟩)

theorem Sound.method_of_scope (hS : Sound L g) {receiver : Option Ty} {name : String} {m : NodeId}
    (h : (g.scopeOf receiver).lookup name = some m) : g.MethodOK L m :=
  hS.entries (Graph.has_method_of_scope h)

theorem Sound.method_of_ok (hS : Sound L g) {n : NodeId} (hn : g.MethodOK L n) :
    ∃ m, g.method? n = some m := by
  rcases hn with ⟨w, r, k, nm, ps, b, hn⟩ | ⟨-, c, x, hc, hx, -⟩
  · obtain ⟨m, hm, -⟩ := Graph.method_of_blank (hS.fits hn).1 rfl
    exact ⟨m, hm⟩
  · obtain ⟨m, hm, -⟩ := Graph.method_of_blank hc hx
    exact ⟨m, hm⟩

/-- A method has the body, the parameters and the name that are written where it was found. -/
theorem Sound.method_of_node (hS : Sound L g) {n : NodeId} {w : WalkId} {r : NodeId}
    {k : Option String} {nm : Token} {ps : List Token} {b : Expr}
    (hn : L n = some (.node w r k (.method nm ps b))) {m : Method} (hm : g.method? n = some m) :
    m.source = .written b (n + 1) ∧ m.params = ps.map (·.text) ∧ m.name = nm.text := by
  obtain ⟨c, hc, hr⟩ := Graph.blank_of_method hm
  rw [(hS.fits hn).1] at hc
  cases hc
  simp only [Graph.freshRole, Role.method.injEq, Method.blank, Method.mk.injEq] at hr
  refine ⟨hr.2.2.1.symm, ?_, hr.1.symm⟩
  simp [Method.params, ← hr.2.1]

/-- A method is written where it was found, or it is built in on a type or outside of all types. -/
theorem Sound.source_of_method (hS : Sound L g) {n : NodeId} (hn : g.MethodOK L n) {m : Method}
    (hm : g.method? n = some m) :
    (∃ w r k nm ps b, L n = some (.node w r k (.method nm ps b)) ∧ m.source = .written b (n + 1) ∧
        m.params = ps.map (·.text) ∧ m.name = nm.text) ∨
      L n = some .builtin ∧ (m.source = .external ∨ ∃ owner, m.source = .builtin (some owner)) := by
  rcases hn with ⟨w, r, k, nm, ps, b, hn⟩ | ⟨hn, c, x, hc, hx, hsource⟩
  · exact .inl ⟨w, r, k, nm, ps, b, hn, hS.method_of_node hn hm⟩
  · right
    obtain ⟨c', hc', hr⟩ := Graph.blank_of_method hm
    rw [hc] at hc'
    cases hc'
    rw [hx] at hr
    obtain rfl : x = m.blank := by simpa using hr
    exact ⟨hn, hsource⟩

/-- Nothing has happened to a tree that lies as it was planted, if nothing is recorded in it. -/
theorem Graph.isPristine_of_blank {b : Expr} {root : NodeId}
    (hblank : ∀ x ∈ b.nodes root,
      g.blank x.1 = some { role := Graph.freshRole x.1 x.2, extent := x.2.size })
    (hnone : ∀ x ∈ b.nodes root, ∀ k, ¬ g.Has (.mark x.1 k)) : g.isPristine root = true := by
  have hextent : (g.cells[root]?.map (·.extent)).getD 0 = b.size := by
    obtain ⟨c, hc, hroot⟩ := Option.map_eq_some_iff.mp (hblank _ (Expr.mem_nodes_self b root))
    have := congrArg Cell.extent hroot
    simpa [hc, Cell.blank] using this
  simp only [Graph.isPristine, hextent, List.all_eq_true, List.mem_range]
  intro j hj
  obtain ⟨x, hx⟩ : ∃ x, (b.nodes root)[j]? = some x :=
    ⟨_, List.getElem?_eq_getElem (by rwa [Expr.length_nodes])⟩
  have hmem := List.mem_of_getElem? hx
  obtain ⟨c, hc, hmade⟩ := Option.map_eq_some_iff.mp (hblank x hmem)
  rw [← Expr.fst_of_getElem?_nodes hx, hc]
  apply Cell.isPristine_of_forall_not_has
  · exact fun k hk => hnone x hmem k ((Graph.has_mark hc).mpr hk)
  · rw [hmade]
    exact (Graph.freshRole_isPristine x.1 x.2).1

/-- Nothing is recorded in a cell without a label. -/
theorem Sound.not_has_of_none (hS : Sound L g) {n : NodeId} (hn : L n = none) (k : Mark) :
    ¬ g.Has (.mark n k) := by
  intro h
  have hok := hS.entries h
  cases k with
  | typed t => exact hok.1 hn
  | edge o r => exact hok.1 hn
  | linked | found =>
      rcases hok with ⟨_, _, _, _, _, _, _, h, -⟩ | ⟨_, _, _, h⟩ <;> rw [hn] at h <;> cases h
  | aimed t =>
      rcases hok.1 with ⟨_, _, _, _, _, _, _, h, -⟩ | ⟨_, _, _, h⟩ <;> rw [hn] at h <;> cases h
  | busy => exact hok hn
  | made => exact hok hn
  | cached key i =>
      rcases hok.1 with ⟨_, _, _, _, _, _, h⟩ | ⟨h, -⟩ <;> rw [hn] at h <;> cases h
  | member key c =>
      obtain ⟨_, h⟩ := hok.1
      rw [hn] at h
      cases h

/-- Nothing has happened to the body of a method that a walk came to. -/
theorem Sound.pristine_body (hS : Sound L g) {w : WalkId} {n r : NodeId} {k : Option String}
    {nm : Token} {ps : List Token} {b : Expr} (hn : L n = some (.node w r k (.method nm ps b))) :
    g.isPristine (n + 1) = true := by
  have hbody := (hS.fits hn).2.2.2 nm ps b rfl
  exact Graph.isPristine_of_blank (fun x hx => (hbody x hx).2)
    fun x hx => hS.not_has_of_none (hbody x hx).1

/-! ## Instances -/

theorem sound_addInstance (hS : Sound L g) {x : Instance} (hx : g.InstOK L x)
    (hm : g.MethodOK L x.method) : Sound L (g.addInstance x).1 := by
  have hgrows := Graph.grows_addInstance g x
  have hext : Extends L g L (g.addInstance x).1 := .of_grows hgrows
  refine hS.grow hgrows fun hen => ?_
  rcases Graph.has_addInstance hen with hen | rfl | ⟨key, rfl, -⟩
  · exact .inl hen
  · exact .inr (hext.inst hS hx)
  · exact .inr ⟨hext.method hS hm, x, Array.getElem?_push_size, rfl⟩

/-- The labelling after an instance was made. -/
def Labels.specialized (L : Labels) (g : Graph) (body : Expr) (inputs : List (String × Ty)) :
    Labels :=
  (L.append g (ofTree g.walks.size g.cells.size body)).walked (g.plant body).1 inputs

/-- The inputs of the walk over an instance: the receiver, then the arguments. -/
def instanceInputs (params : List String) (receiver : Option Ty) (args : List Ty) :
    List (String × Ty) :=
  (receiver.toList.map fun t => ("self", t)) ++ params.zip args

namespace Graph

/-- The instance that is made for a call. -/
def newInstance (g : Graph) (method : NodeId) (receiver : Option Ty) (args : List Ty) : Instance :=
  ⟨method, args.map some, receiver.bind Ty.atom?, g.cells.size, some g.walks.size⟩

/-- The graph with a new copy of a body and the walk over it. -/
def withBody (g : Graph) (body : Expr) (inputs : List (String × Ty)) (owner : Option Atom) :
    Graph :=
  ((g.plant body).1.addWalkOver inputs owner).1

/-- The graph with a new instance. -/
def withInstance (g : Graph) (method : NodeId) (params : List String) (body : Expr)
    (receiver : Option Ty) (args : List Ty) : Graph :=
  ((g.withBody body (instanceInputs params receiver args) (receiver.bind Ty.atom?)).addInstance
    (g.newInstance method receiver args)).1

/-- The graph when the walk over a new instance begins. -/
def specialized (g : Graph) (c : NodeId) (s : Site) (method : NodeId) (params : List String)
    (body : Expr) (receiver : Option Ty) (args : List Ty) : Graph :=
  let g' := g.withInstance method params body receiver args
  (g'.notice (.specialize (receiver.map g'.heap.tyName) s.name.text
    (args.map g'.heap.tyName))).modifySite c fun s => { s with busy := true }

theorem instances_withBody (g : Graph) (body : Expr) (inputs : List (String × Ty))
    (owner : Option Atom) : (g.withBody body inputs owner).instances = g.instances := by
  rw [withBody, addWalkOver_eq]
  generalize (inputs.map fun p => (some p.1, p.2)) = slots
  have hslots : ∀ (slots : List (Option String × Ty)) (g : Graph),
      (g.addSlots slots).1.instances = g.instances := by
    intro slots
    induction slots with
    | nil => exact fun _ => rfl
    | cons s slots ih => exact fun g => ih (g.addSlot s.1 (some s.2)).1
  exact hslots slots (g.plant body).1

theorem walk_withBody (g : Graph) (body : Expr) (inputs : List (String × Ty))
    (owner : Option Atom) :
    (g.withBody body inputs owner).walks =
      g.walks.push
        { vars := varsOver (g.cells.size + body.size) inputs, self := owner.bind Atom.object? } := by
  rw [withBody, addWalkOver_eq]
  simp only [addWalk, (others_addSlots _ _).2, cells_plant]
  rfl

theorem addWalkOver_plant (g : Graph) (body : Expr) (inputs : List (String × Ty))
    (owner : Option Atom) : ((g.plant body).1.addWalkOver inputs owner).2 = g.walks.size := by
  rw [addWalkOver_eq]
  simp only [addWalk, (others_addSlots _ _).2]
  rfl

theorem addInstance_snd (g : Graph) (x : Instance) : (g.addInstance x).2 = g.instances.size := rfl

theorem specialize_eq {c : NodeId} {s : Site} {method : NodeId} {m : Method} {body : Expr}
    {template : NodeId} (h : g.isPristine template = true) (hl : s.linked = true)
    (receiver : Option Ty) (args : List Ty) :
    g.specialize c s receiver args method m body template =
      (g.specialized c s method m.params body receiver args).next
        [.visit g.walks.size body g.cells.size, .finish c g.instances.size,
          .subscribe g.cells.size c .merge, .aim c (.inst g.instances.size)] := by
  have hw := g.addWalkOver_plant body (instanceInputs m.params receiver args)
    (receiver.bind Ty.atom?)
  have hi := g.instances_withBody body (instanceInputs m.params receiver args)
    (receiver.bind Ty.atom?)
  rw [withBody] at hi
  simp only [instanceInputs] at hw hi
  simp only [specialize, copyTree?_of_isPristine body h, plant_snd, hw, hl, addInstance_snd, hi,
    Bool.not_true, Bool.false_eq_true, if_false]
  rfl

/-- A call that was never taken up makes an instance, but the walk over it does not begin. -/
theorem specialize_unlinked {c : NodeId} {s : Site} {method : NodeId} {m : Method} {body : Expr}
    {template : NodeId} (h : g.isPristine template = true) (hl : s.linked = false)
    (receiver : Option Ty) (args : List Ty) :
    g.specialize c s receiver args method m body template =
      (g.withInstance method m.params body receiver args).fail (.unlinked c) := by
  have hw := g.addWalkOver_plant body (instanceInputs m.params receiver args)
    (receiver.bind Ty.atom?)
  simp only [instanceInputs] at hw
  simp only [specialize, copyTree?_of_isPristine body h, plant_snd, hw, hl, Bool.not_false, if_true]
  rfl

end Graph

/-- What the graph records anew when the walk over a new instance begins. -/
inductive Graph.NewInstance (g : Graph) (c method : NodeId) (params : List String) (body : Expr)
    (receiver : Option Ty) (args : List Ty) : Entry → Prop where
  | slot {j : Nat} {p : String × Ty} : (instanceInputs params receiver args)[j]? = some p →
      g.NewInstance c method params body receiver args
        (.mark (g.cells.size + body.size + j) (.typed p.2))
  | var {x : String} {v : NodeId} :
      (x, v) ∈ varsOver (g.cells.size + body.size) (instanceInputs params receiver args) →
      g.NewInstance c method params body receiver args (.var g.walks.size x v)
  | self {i : ObjId} : (receiver.bind Ty.atom?).bind Atom.object? = some i →
      g.NewInstance c method params body receiver args (.self g.walks.size i)
  | inst : g.NewInstance c method params body receiver args
      (.inst g.instances.size (g.newInstance method receiver args))
  | cached {key : List (Option Ty)} :
      key = args.map some ∨
        (g.withBody body (instanceInputs params receiver args)
          (receiver.bind Ty.atom?)).heap.sameRow key (args.map some) = true ∧
          (∃ i, g.Has (.mark method (.cached key i))) →
      g.NewInstance c method params body receiver args
        (.mark method (.cached key g.instances.size))
  | busy : g.NewInstance c method params body receiver args (.mark c .busy)

theorem Graph.has_withInstance (c : NodeId) {method : NodeId} {params : List String} {body : Expr}
    {receiver : Option Ty} {args : List Ty} {e : Entry}
    (h : (g.withInstance method params body receiver args).Has e) :
    g.Has e ∨ g.NewInstance c method params body receiver args e := by
  let inputs := instanceInputs params receiver args
  have hbody : ∀ {e : Entry}, (g.withBody body inputs (receiver.bind Ty.atom?)).Has e →
      g.Has e ∨ g.NewInstance c method params body receiver args e := by
    intro e h
    rw [withBody, addWalkOver_eq] at h
    rcases has_addWalk h with h | ⟨x, v, rfl, hv⟩ | ⟨i, rfl, hi⟩
    · rcases has_addSlots h with h | ⟨j, p, hj, rfl⟩
      · exact .inl (has_plant h)
      · simp only [List.getElem?_map, Option.map_eq_some_iff] at hj
        obtain ⟨p, hp, rfl⟩ := hj
        rw [cells_plant]
        exact .inr (.slot hp)
    · rw [(others_addSlots _ _).2]
      rw [cells_plant] at hv
      exact .inr (.var hv)
    · rw [(others_addSlots _ _).2]
      exact .inr (.self hi)
  have hsize := g.instances_withBody body inputs (receiver.bind Ty.atom?)
  rcases has_addInstance h with h | rfl | ⟨key, rfl, hkey⟩
  · exact hbody h
  · rw [hsize]
    exact .inr .inst
  · rw [hsize]
    refine .inr (.cached ?_)
    rcases hkey with hkey | ⟨hsame, i, hi⟩
    · exact .inl hkey
    · rcases hbody hi with hi | hi
      · exact .inr ⟨hsame, i, hi⟩
      · cases hi with
        | cached hkey => exact hkey

theorem Graph.has_specialized {c : NodeId} {s : Site} {method : NodeId} {params : List String}
    {body : Expr} {receiver : Option Ty} {args : List Ty} {e : Entry}
    (h : (g.specialized c s method params body receiver args).Has e) :
    g.Has e ∨ g.NewInstance c method params body receiver args e := by
  rcases has_modifySite h with h | ⟨s', k, hs, rfl, hk⟩
  · exact has_withInstance c (has_notice h)
  · cases k with
    | busy => exact .inr .busy
    | _ => exact has_withInstance c (has_notice (has_of_site hs hk))

theorem Graph.instances_specialized (g : Graph) (c : NodeId) (s : Site) (method : NodeId)
    (params : List String) (body : Expr) (receiver : Option Ty) (args : List Ty) :
    (g.specialized c s method params body receiver args).instances[g.instances.size]? =
      some (g.newInstance method receiver args) := by
  have hinst : (g.specialized c s method params body receiver args).instances =
      (g.withBody body (instanceInputs params receiver args)
        (receiver.bind Ty.atom?)).instances.push (g.newInstance method receiver args) := rfl
  rw [hinst, instances_withBody]
  exact Array.getElem?_push_size

/-- The cells of a new copy of a body are there. -/
theorem Graph.size_le_specialized (g : Graph) (c : NodeId) (s : Site) (method : NodeId)
    (params : List String) (body : Expr) (receiver : Option Ty) (args : List Ty) :
    g.cells.size + body.size ≤
      (g.specialized c s method params body receiver args).cells.size := by
  have hbody : Grows (g.plant body).1
      (g.withBody body (instanceInputs params receiver args) (receiver.bind Ty.atom?)) := by
    rw [withBody, addWalkOver_eq]
    exact (grows_addSlots ..).trans (grows_addWalk ..)
  have hinst : Grows _ (g.withInstance method params body receiver args) :=
    hbody.trans (grows_addInstance ..)
  have hspecialized : Grows _ (g.specialized c s method params body receiver args) :=
    (hinst.trans (grows_notice ..)).trans
      (grows_modifySite _ c (fun _ => rfl) fun _ h => h)
  rw [← cells_plant]
  exact hspecialized.size_le

/-- The inputs of an instance have the types that the call has. -/
theorem valid_instanceInputs {receiver : Option Ty} {args : List Ty}
    (hvalid : ∀ t ∈ receiver.toList ++ args, t.Valid g) {params : List String} :
    ∀ p ∈ instanceInputs params receiver args, p.2.Valid g := by
  intro p hp
  refine hvalid p.2 ?_
  rcases List.mem_append.mp hp with hp | hp
  · obtain ⟨t, ht, rfl⟩ := List.mem_map.mp hp
    exact List.mem_append_left _ ht
  · exact List.mem_append_right _ (List.of_mem_zip hp).2

/-- The owner of an instance is an object type that there is. -/
theorem exists_owner {receiver : Option Ty} (hvalid : ∀ t ∈ receiver, t.Valid g) {i : ObjId}
    (hi : receiver.bind Ty.atom? = some (.obj i)) : ∃ o, g.objects[i]? = some o := by
  obtain ⟨t, ht, ha⟩ := Option.bind_eq_some_iff.mp hi
  refine (hvalid t ht).1 i ?_
  cases t with
  | one a =>
      cases ha
      exact List.mem_singleton_self _
  | union => cases ha

section specialized

variable (hS : Sound L g) {c : NodeId} {receiver : Option Ty} {args : List Ty}
  (hvalid : ∀ t ∈ receiver.toList ++ args, t.Valid g) {method : NodeId} {m : Method}
  {v : WalkId} {r : NodeId} {k : Option String} {nm : Token} {ps : List Token} {body : Expr}
  (hm : L method = some (.node v r k (.method nm ps body)))
include hS hvalid hm

/-- A new instance of a written method has a body of its own, which a new walk goes over. -/
theorem extends_withInstance :
    Extends L g (L.specialized g body (instanceInputs m.params receiver args))
        (g.withInstance method m.params body receiver args) ∧
      Sound (L.specialized g body (instanceInputs m.params receiver args))
        (g.withInstance method m.params body receiver args) ∧
      L.specialized g body (instanceInputs m.params receiver args) g.cells.size =
        some (.node g.walks.size g.cells.size none body) ∧
      (∃ x, (g.withInstance method m.params body receiver args).instances[g.instances.size]? =
        some x) ∧
      ∃ x, (g.withInstance method m.params body receiver args).walks[g.walks.size]? = some x := by
  let inputs := instanceInputs m.params receiver args
  obtain ⟨hplant, hS₁⟩ := extends_plant hS g.walks.size body
  obtain ⟨hwalk, hS₂⟩ := extends_addWalkOver hS₁ (receiver.bind Ty.atom?)
    (valid_instanceInputs fun t ht => hplant.valid (hvalid t ht))
    fun i hi => exists_owner (fun t ht => hplant.valid
      (hvalid t (List.mem_append_left _ (Option.mem_toList.mpr ht)))) hi
  have hext₂ := hplant.trans hwalk
  have hroot : (L.append g (Labels.ofTree g.walks.size g.cells.size body)).walked
      (g.plant body).1 inputs g.cells.size =
        some (.node g.walks.size g.cells.size none body) :=
    hwalk.keeps hS₁ (Labels.append_ofTree_stop (Expr.mem_stops_self body none g.cells.size))
  have hwalks : ∃ x, (g.withBody body inputs (receiver.bind Ty.atom?)).walks[g.walks.size]? =
      some x :=
    ⟨_, g.walk_withBody body inputs (receiver.bind Ty.atom?) ▸ Array.getElem?_push_size⟩
  have hinst : (g.withBody body inputs (receiver.bind Ty.atom?)).InstOK
      (L.specialized g body inputs) (g.newInstance method receiver args) :=
    .inr ⟨g.walks.size, v, r, k, nm, ps, body, rfl, hwalks, hext₂.keeps hS hm, hroot⟩
  have hgrows := Graph.grows_addInstance (g.withBody body inputs (receiver.bind Ty.atom?))
    (g.newInstance method receiver args)
  refine ⟨hext₂.trans (.of_grows hgrows), ?_, hroot, ⟨g.newInstance method receiver args, ?_⟩, ?_⟩
  · exact sound_addInstance hS₂ hinst (.inl ⟨v, r, k, nm, ps, body, hext₂.keeps hS hm⟩)
  · rw [Graph.withInstance, ← g.instances_withBody body inputs (receiver.bind Ty.atom?)]
    exact Array.getElem?_push_size
  · obtain ⟨x, hx⟩ := hwalks
    obtain ⟨y, hy, -⟩ := hgrows.walk hx
    exact ⟨y, hy⟩

/-- A call of a method with types that it was not called with before begins the walk over a new
instance. -/
theorem keeps_specialized (s : Site) (hc : L.IsCall c) :
    Keeps L g (L.specialized g body (instanceInputs m.params receiver args))
      ((g.specialized c s method m.params body receiver args).next
        [.visit g.walks.size body g.cells.size, .finish c g.instances.size,
          .subscribe g.cells.size c .merge, .aim c (.inst g.instances.size)]) := by
  obtain ⟨hext₃, hS₃, hroot, ⟨y, hy⟩, z, hz⟩ := extends_withInstance hS hvalid (m := m) hm
  let n : Notice := .specialize
    (receiver.map (g.withInstance method m.params body receiver args).heap.tyName) s.name.text
    (args.map (g.withInstance method m.params body receiver args).heap.tyName)
  have hnotice := Graph.grows_notice (g.withInstance method m.params body receiver args) n
  have hS₄ : Sound _ ((g.withInstance method m.params body receiver args).notice n) :=
    hS₃.grow hnotice fun hen => .inl (Graph.has_notice hen)
  have hext₄ := hext₃.trans (.of_grows hnotice)
  have hc₄ := hext₄.isCall hS hc
  have hbusy := Graph.grows_modifySite
    ((g.withInstance method m.params body receiver args).notice n) c
    (f := fun s => { s with busy := true }) (fun _ => rfl) fun _ h => h
  have hext := hext₄.trans (.of_grows hbusy)
  have hkeeps := keeps_modifySite hS₄ (c := c) (f := fun s => { s with busy := true })
    (fun _ => rfl) (fun _ h => h) (fun s k _ hk => by
      cases k with
      | busy =>
          exact .inr hc₄.ne_none
      | _ => exact .inl hk) [] (by simp)
  refine .next hext hkeeps.sound fun task htask => ?_
  have hc' := hext.isCall hS hc
  have hnew : ∃ x, (g.specialized c s method m.params body receiver args).instances[
      g.instances.size]? = some x := ⟨y, hbusy.inst (hnotice.inst hy)⟩
  simp only [List.mem_cons, List.not_mem_nil, or_false] at htask
  rcases htask with rfl | rfl | rfl | rfl
  · exact ⟨⟨g.cells.size, none, hroot⟩, z, hz⟩
  · exact ⟨hc'.ne_none, hnew⟩
  · exact hkeeps.sound.edge_call hc' (.inr (.inr ⟨_, _, _, hroot⟩))
  · exact ⟨hc', hnew⟩

end specialized

/-- The labelling after a call with concrete inputs was resolved. -/
def Labels.called (L : Labels) (g : Graph) (s : Site) (receiver : Option Ty) (args : List Ty) :
    Labels :=
  match (g.scopeOf receiver).lookup s.name.text with
  | none => L
  | some method =>
      match g.method? method with
      | none => L
      | some m =>
          if m.params.length ≠ args.length then L
          else
            match Table.findBy? g.heap.sameRow (args.map some) m.instances, m.source with
            | none, .written body _ =>
                L.specialized g body (instanceInputs m.params receiver args)
            | _, _ => L

/-- The labelling after a call was resolved. -/
def Labels.resolved (L : Labels) (g : Graph) (c : NodeId) : Labels :=
  match g.site? c with
  | none => L
  | some s =>
      match g.inputs? s with
      | none => L
      | some (receiver, args) =>
          if (receiver.toList ++ args).any Ty.isMixed then L.dispatched g s receiver args
          else L.called g s receiver args

/-! ## What resolving a call comes to -/

/-- A call with concrete inputs finds a method for them that takes as many arguments. -/
structure Graph.Calls (g : Graph) (s : Site) (receiver : Option Ty) (args : List Ty)
    (method : NodeId) (m : Method) : Prop where
  inputs : g.inputs? s = some (receiver, args)
  concrete : (receiver.toList ++ args).any Ty.isMixed = false
  scope : (g.scopeOf receiver).lookup s.name.text = some method
  found : g.method? method = some m
  arity : m.params.length = args.length

/-- The ways in which a call is resolved in any graph, also in one that no program leads to. -/
inductive Graph.Decides (g : Graph) (c : NodeId) : Step → Prop where
  | stuck {f : Fault} : (∀ e, f ≠ .inference e) → g.Decides c (g.fail f)
  | refused {s : Site} {cause : Cause} : g.site? c = some s →
      g.Decides c (g.fail (.inference (.cause cause (s.errorSite c))))
  | waiting {s : Site} : g.site? c = some s → g.inputs? s = none → g.Decides c (g.next [])
  | dispatch {s : Site} {receiver : Option Ty} {args : List Ty} {d : NodeId} :
      g.site? c = some s → s.linked = true → g.inputs? s = some (receiver, args) →
      (receiver.toList ++ args).any Ty.isMixed = true →
      g.findDispatch? s.origin receiver args = some d →
      g.Decides c (g.next [.subscribe d c .merge, .aim c (.dispatch d)])
  | newDispatch {s : Site} {receiver : Option Ty} {args : List Ty} (n : Notice) :
      g.site? c = some s → s.linked = true → g.inputs? s = some (receiver, args) →
      (receiver.toList ++ args).any Ty.isMixed = true →
      g.Decides c (((g.addDispatch s receiver args).1.notice n).next
        (memberTasks g.cells.size receiver args ++
          [.subscribe g.cells.size c .merge, .aim c (.dispatch g.cells.size)]))
  | inst {s : Site} {receiver : Option Ty} {args : List Ty} {method : NodeId} {m : Method}
      {i : InstanceId} {x : Instance} : g.site? c = some s → (receiver = none → s.linked = true) →
      g.Calls s receiver args method m →
      Table.findBy? g.heap.sameRow (args.map some) m.instances = some i →
      g.instances[i]? = some x →
      g.Decides c (g.next [.subscribe x.body c .merge, .aim c (.inst i)])
  | newInst {s : Site} {receiver : Option Ty} {args : List Ty} {method : NodeId} {m : Method}
      {b : Expr} {t : NodeId} : g.site? c = some s → (receiver = none → s.linked = true) →
      g.Calls s receiver args method m →
      Table.findBy? g.heap.sameRow (args.map some) m.instances = none →
      m.source = .written b t → g.Decides c (g.specialize c s receiver args method m b t)

theorem Graph.decides_resolveMixed {g : Graph} {c : NodeId} {s : Site} {receiver : Option Ty}
    {args : List Ty} (hs : g.site? c = some s) (hin : g.inputs? s = some (receiver, args))
    (hmixed : (receiver.toList ++ args).any Ty.isMixed = true) :
    g.Decides c (g.resolveMixed c s receiver args) := by
  unfold resolveMixed
  split
  · exact .stuck nofun
  · next hlinked =>
      have hlinked : s.linked = true := by simpa using hlinked
      split
      · next hfind => exact .dispatch hs hlinked hin hmixed hfind
      · exact .newDispatch _ hs hlinked hin hmixed

theorem Graph.decides_resolveConcrete {g : Graph} {c : NodeId} {s : Site} {receiver : Option Ty}
    {args : List Ty} (hs : g.site? c = some s) (hin : g.inputs? s = some (receiver, args))
    (hconcrete : (receiver.toList ++ args).any Ty.isMixed = false) :
    g.Decides c (g.resolveConcrete c s receiver args) := by
  unfold resolveConcrete
  dsimp only
  split
  · exact .stuck nofun
  next hlinked =>
  have hknown : receiver = none → s.linked = true := by
    rintro rfl
    simpa using hlinked
  split
  · exact .refused hs
  next method hscope =>
  split
  · exact .stuck nofun
  next m hm =>
  split
  · exact .refused hs
  next harity =>
  have hcalls : g.Calls s receiver args method m :=
    ⟨hin, hconcrete, hscope, hm, Decidable.not_not.mp harity⟩
  split
  · next hfind =>
      split
      · next hx => exact .inst hs hknown hcalls hfind hx
      · exact .stuck nofun
  · next hfind =>
      split
      · exact .refused hs
      · split
        · exact .refused hs
        · exact .stuck nofun
      · next hsource => exact .newInst hs hknown hcalls hfind hsource

theorem Graph.decides {g : Graph} {c : NodeId} {step : Step} (h : g.resolve c = step) :
    g.Decides c step := by
  subst h
  unfold resolve
  split
  · exact .stuck nofun
  · next hs =>
      split
      · next hin => exact .waiting hs hin
      · next hin =>
          split
          · next hmixed => exact decides_resolveMixed hs hin hmixed
          · next hconcrete => exact decides_resolveConcrete hs hin (by simpa using hconcrete)

/-- The ways in which a call is resolved, each with the labelling after it. -/
inductive Graph.Resolves (L : Labels) (g : Graph) (c : NodeId) (s : Site) : Step → Labels → Prop where
  | waiting : g.inputs? s = none → g.Resolves L c s (g.next []) L
  | dispatch {receiver : Option Ty} {args : List Ty} {d : NodeId} :
      g.inputs? s = some (receiver, args) → (receiver.toList ++ args).any Ty.isMixed = true →
      g.findDispatch? s.origin receiver args = some d →
      g.Resolves L c s (g.next [.subscribe d c .merge, .aim c (.dispatch d)]) L
  | newDispatch {receiver : Option Ty} {args : List Ty} (n : Notice) :
      g.inputs? s = some (receiver, args) → (receiver.toList ++ args).any Ty.isMixed = true →
      g.findDispatch? s.origin receiver args = none →
      g.Resolves L c s (((g.addDispatch s receiver args).1.notice n).next
          (memberTasks g.cells.size receiver args ++
            [.subscribe g.cells.size c .merge, .aim c (.dispatch g.cells.size)]))
        (L.append g [some (.dispatch (s.dispatch receiver args))])
  | undefined {receiver : Option Ty} {args : List Ty} (cause : Cause) :
      g.inputs? s = some (receiver, args) → (receiver.toList ++ args).any Ty.isMixed = false →
      (g.scopeOf receiver).lookup s.name.text = none →
      g.Resolves L c s (g.fail (.inference (.cause cause (s.errorSite c)))) L
  | arity {receiver : Option Ty} {args : List Ty} {method : NodeId} {m : Method} (cause : Cause) :
      g.inputs? s = some (receiver, args) → (receiver.toList ++ args).any Ty.isMixed = false →
      (g.scopeOf receiver).lookup s.name.text = some method → g.method? method = some m →
      m.params.length ≠ args.length →
      g.Resolves L c s (g.fail (.inference (.cause cause (s.errorSite c)))) L
  | frozen {receiver : Option Ty} {args : List Ty} {method : NodeId} {m : Method}
      (cause : Cause) : g.Calls s receiver args method m → L method = some .builtin →
      Table.findBy? g.heap.sameRow (args.map some) m.instances = none →
      g.Resolves L c s (g.fail (.inference (.cause cause (s.errorSite c)))) L
  | inst {receiver : Option Ty} {args : List Ty} {method : NodeId} {m : Method} {i : InstanceId}
      {x : Instance} : g.Calls s receiver args method m →
      Table.findBy? g.heap.sameRow (args.map some) m.instances = some i →
      g.instances[i]? = some x →
      g.Resolves L c s (g.next [.subscribe x.body c .merge, .aim c (.inst i)]) L
  | newInst {receiver : Option Ty} {args : List Ty} {method : NodeId} {m : Method} {w : WalkId}
      {r : NodeId} {k : Option String} {nm : Token} {ps : List Token} {b : Expr} :
      g.Calls s receiver args method m →
      Table.findBy? g.heap.sameRow (args.map some) m.instances = none →
      L method = some (.node w r k (.method nm ps b)) → m.params = ps.map (·.text) →
      g.Resolves L c s ((g.specialized c s method m.params b receiver args).next
          [.visit g.walks.size b g.cells.size, .finish c g.instances.size,
            .subscribe g.cells.size c .merge, .aim c (.inst g.instances.size)])
        (L.specialized g b (instanceInputs m.params receiver args))

theorem resolves_resolveConcrete (hS : Sound L g) {c : NodeId} {s : Site}
    (hl : s.linked = true) {receiver : Option Ty} {args : List Ty}
    (hin : g.inputs? s = some (receiver, args))
    (hconcrete : (receiver.toList ++ args).any Ty.isMixed = false) :
    g.Resolves L c s (g.resolveConcrete c s receiver args) (L.called g s receiver args) := by
  unfold Labels.called Graph.resolveConcrete
  simp only [hl, Bool.not_true, Bool.and_false, Bool.false_eq_true, if_false]
  cases hlookup : (g.scopeOf receiver).lookup s.name.text with
  | none => exact .undefined _ hin hconcrete hlookup
  | some method =>
      have hok := hS.method_of_scope hlookup
      obtain ⟨m, hm⟩ := hS.method_of_ok hok
      simp only [hm]
      by_cases harity : m.params.length = args.length
      · have hcalls : g.Calls s receiver args method m := ⟨hin, hconcrete, hlookup, hm, harity⟩
        rw [if_neg (by simpa using harity), if_neg (by simpa using harity)]
        cases hfind : Table.findBy? g.heap.sameRow (args.map some) m.instances with
        | some i =>
            obtain ⟨key, hkey, -⟩ := Table.mem_of_findBy? hfind
            obtain ⟨-, x, hx, -⟩ := hS.entries (Graph.has_cached.mpr ⟨m, hm, hkey⟩)
            simp only [hx]
            exact .inst hcalls hfind hx
        | none =>
            rcases hS.source_of_method hok hm with
              ⟨w, r, k, nm, ps, b, hn, hsource, hps, -⟩ | ⟨hn, hsource | ⟨owner, hsource⟩⟩
            · simp only [hsource]
              rw [Graph.specialize_eq (hS.pristine_body hn) hl]
              exact .newInst hcalls hfind hn hps
            · simp only [hsource]
              exact .frozen _ hcalls hn hfind
            · simp only [hsource]
              cases receiver <;> exact .frozen _ hcalls hn hfind
      · rw [if_pos harity, if_pos harity]
        exact .arity _ hin hconcrete hlookup hm harity

/-- A call that was taken up is resolved in one of these ways. -/
theorem resolves_resolve (hS : Sound L g) {c : NodeId} (hl : g.Linked c) :
    ∃ s, g.site? c = some s ∧ s.linked = true ∧
      g.Resolves L c s (g.resolve c) (L.resolved g c) := by
  obtain ⟨s, hs, hlinked⟩ := hl
  refine ⟨s, hs, hlinked, ?_⟩
  unfold Labels.resolved Graph.resolve
  simp only [hs]
  cases hin : g.inputs? s with
  | none => exact .waiting hin
  | some x =>
      obtain ⟨receiver, args⟩ := x
      dsimp only
      by_cases hmixed : (receiver.toList ++ args).any Ty.isMixed = true
      · rw [if_pos hmixed, if_pos hmixed]
        unfold Labels.dispatched Graph.resolveMixed
        simp only [hlinked, Bool.not_true, Bool.false_eq_true, if_false]
        cases hfind : g.findDispatch? s.origin receiver args with
        | some d => exact .dispatch hin hmixed hfind
        | none => exact .newDispatch _ hin hmixed hfind
      · rw [if_neg hmixed, if_neg hmixed]
        exact resolves_resolveConcrete hS hlinked hin (by simpa using hmixed)

theorem keeps_resolve (hS : Sound L g) {c : NodeId} (hc : L.IsCall c) (hl : g.Linked c) :
    Keeps L g (L.resolved g c) (g.resolve c) := by
  have hpointed : ∀ {z : NodeId} {t : Target}, (Task.subscribe z c .merge).OK L g →
      (Task.aim c t).OK L g → Keeps L g L (g.next [.subscribe z c .merge, .aim c t]) := by
    intro z t hz ht
    refine .next (.refl L g) hS fun task htask => ?_
    simp only [List.mem_cons, List.not_mem_nil, or_false] at htask
    rcases htask with rfl | rfl
    · exact hz
    · exact ht
  obtain ⟨s, hs, -, hcases⟩ := resolves_resolve hS hl
  generalize L.resolved g c = L', g.resolve c = step at hcases
  cases hcases with
  | waiting => exact .next (.refl L g) hS (by simp)
  | undefined | arity | frozen => exact .fail (.refl L g) hS
  | @dispatch _ _ d _ _ hfind =>
      have hd : L.IsDispatch d := hS.entries (e := .dispatch d) (List.mem_of_find?_eq_some hfind)
      exact hpointed (hS.edge_call hc (.inl hd)) ⟨hc, hd⟩
  | newDispatch n hin => exact keeps_newDispatch hS hc hs hin n
  | @inst _ _ _ _ i x _ _ hx =>
      refine hpointed (hS.edge_call hc (.inr ?_)) ⟨hc, x, hx⟩
      rcases hS.entries (e := .inst i x) hx with ⟨-, hb⟩ | ⟨w, v, r, k, n, ps, b, -, -, -, hb⟩
      · exact .inl hb
      · exact .inr ⟨_, _, _, hb⟩
  | newInst hcalls _ hm => exact keeps_specialized hS (hS.inputs_valid hcalls.inputs) hm s hc

end TypeFlow
