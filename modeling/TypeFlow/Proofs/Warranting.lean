import TypeFlow.Proofs.Outlines
import TypeFlow.Proofs.Seeds
import TypeFlow.Proofs.Warrants

/-! # Each task is warranted

One step of a run brings about only what the rules allow: walks over nodes, calls that are resolved,
and types that spread. -/

namespace TypeFlow

variable {P : Program} {L L' : Labels} {g g₁ g' : Graph} {task : Task} {ts rest : List Task}

theorem Program.passes_of_node {s o : NodeId} {w : WalkId} {r r' : NodeId} {k k' : Option String}
    {e e' : Expr} (hs : L s = some (.node w r k e)) (ho : L o = some (.node w r' k' e'))
    (h : ∀ f t, P.Derives (.type f e t) → P.Derives (.type f e' t)) : P.Passes L g s o := by
  intro t ht
  rw [Program.Allows, hs] at ht
  rw [Program.Allows, ho]
  exact fun f hf => h f t (ht f hf)

theorem Program.passes_place {v n : NodeId} {w : WalkId} {r : NodeId} {k : Option String}
    {p : Place} (hv : L v = some (.var w p.name.text)) (hn : L n = some (.node w r k (.place p))) :
    P.Passes L g v n := by
  intro t ht
  rw [Program.Allows, hv] at ht
  rw [Program.Allows, hn]
  exact fun f hf => .place (ht f hf)

theorem Program.allowsAll_own {n : NodeId} {w : WalkId} {r : NodeId} {k : Option String}
    {e : Expr} {a : Atom} (hn : L n = some (.node w r k e)) (ha : e.own? = some (g.heap.tag a)) :
    P.AllowsAll L g n (.one a) := by
  intro b hb
  cases List.mem_singleton.mp hb
  rw [Program.Allows, hn]
  exact fun f _ => .own ha

/-- What a walk gives to a node of itself is what the node has of itself. -/
theorem Graph.Follows.own? (hS : Sound L g) {w : WalkId} {e : Expr} {n m : NodeId} {t : Ty}
    {k : Option String} (h : g.Follows w k n e g₁ (.store m t)) :
    ∃ a, t = .one a ∧ e.own? = some (g₁.heap.tag a) := by
  cases h with
  | literal | loop | empty => exact ⟨_, rfl, rfl⟩
  | own hnew _ hname => exact ⟨_, rfl, by rw [Expr.own_new hnew, Heap.tag, hname]⟩
  | @clone c nm as p q hnew hclass =>
      obtain ⟨o, ho, hname⟩ := hS.entries (e := .klass c.text q) (Table.mem_of_lookup hclass)
      refine ⟨_, rfl, ?_⟩
      simp only [Expr.own_new hnew, Heap.tag, Graph.cloneObject, ho, Graph.heap]
      simp [hname]

/-- The walk over a node brings nothing about that the rules do not allow. -/
theorem permits_visit (hS : Sound L g) (hT : Tame P.tree.classNames L g) {w : WalkId} {e : Expr}
    {n : NodeId} (hok : (Task.visit w e n).OK L g) (hp : g.visit w e n = (g₁, .ok ts))
    (hl : Later (L.visited g w e) g₁ L' g') : ∀ t ∈ ts, P.Permits L' g' t := by
  obtain ⟨⟨r, k, hn⟩, hw⟩ := hok
  have hkeeps := keeps_visit hS hn hw
  rw [hp] at hkeeps
  have hnode : ∀ {i : NodeId} {k e}, L i = some (.node w r k e) → L' i = some (.node w r k e) :=
    fun hi => hl.extend.keeps hkeeps.sound (hkeeps.extend.keeps hS hi)
  have hn' := hnode hn
  have hpart : ∀ {p : Stop}, p ∈ e.parts k n → L' p.node = some (.node w r p.klass p.expr) :=
    fun hmem => hnode (hS.part hn hmem)
  intro t ht
  have hfollows := follows_of_visit none hp ht
  have hstored : ∀ {m u}, t = .store m u → P.AllowsAll L' g' n u := by
    rintro m u rfl
    obtain ⟨a, rfl, ha⟩ := hfollows.own? hS
    have hvalid : (Ty.one a).Valid g₁ := (hkeeps.tasks ts rfl _ ht).2
    exact Program.allowsAll_own hn' (by rw [ha, hl.tag_eq hvalid])
  cases hfollows with
  | part | made | target | called | left => trivial
  | literal | loop | empty | own | clone => exact hstored rfl
  | input => exact fun h => by cases h
  | @read p v _ hv =>
      have hlocal := (hT.within hn).place
      obtain ⟨-, hS₁, hplace, -⟩ := extends_placeOf hS w p n
      have hvar := hplace v (by rw [hv])
      simp only [Labels.IsPlace, hlocal] at hvar
      rw [hv] at hS₁
      exact fun _ => Program.passes_place (hl.extend.keeps hS₁ hvar) hn'
  | @value p v =>
      exact fun _ => Program.passes_of_node (hpart (p := ⟨n + 2, k, v⟩) (by simp [Expr.parts]))
        hn' fun f t => .assign
  | @last es x _ hlast =>
      have hes : es.getLast? = some x.2 := by rw [← Expr.getLast?_spread (n + 1) es, hlast]; rfl
      have hx := List.mem_map_of_mem (f := fun x => (⟨x.1, k, x.2⟩ : Stop))
        (List.mem_of_getLast? hlast)
      exact fun _ => Program.passes_of_node (hpart hx) hn' fun f t => .last hes
  | @yes c y =>
      exact fun _ => Program.passes_of_node
        (hpart (p := ⟨n + 1 + c.size, k, y⟩) (by simp [Expr.parts])) hn' fun f t => .yes
  | @no c y f _ helse =>
      exact fun _ => Program.passes_of_node
        (hpart (p := ⟨n + 1 + c.size + y.size, k, f⟩) (by simp [Expr.parts])) hn'
        fun f t => .no helse

/-! ## Calls of one method -/

namespace Table

/-- Values can be changed before or after a table is made of a list. -/
theorem lookup_ofList_map {κ α β : Type} [BEq κ] [LawfulBEq κ] (f : α → β) (ps : List (κ × α))
    (x : κ) : (ofList (ps.map fun p => (p.1, f p.2))).lookup x = ((ofList ps).lookup x).map f := by
  induction ps using List.reverseRecOn with
  | nil => rfl
  | append_singleton ps p ih =>
      rw [List.map_append, List.map_singleton, lookup_ofList_concat, lookup_ofList_concat, ih]
      split <;> rfl

end Table

/-- The variable of a name among the inputs of a walk is the one of the input that counts. -/
theorem lookup_varsOver (base : NodeId) (inputs : List (String × Ty)) (x : String) :
    ((varsOver base inputs).lookup x = none ∧ (Table.ofList inputs).lookup x = none) ∨
      ∃ j p, (varsOver base inputs).lookup x = some (base + j) ∧ inputs[j]? = some p ∧ p.1 = x ∧
        (Table.ofList inputs).lookup x = some p.2 := by
  induction inputs using List.reverseRecOn with
  | nil => exact .inl ⟨rfl, rfl⟩
  | append_singleton inputs p ih =>
      have hzip : varsOver base (inputs ++ [p]) =
          Table.ofList ((inputs.map (·.1)).zip (List.range' base inputs.length) ++
            [(p.1, base + inputs.length)]) := by
        rw [varsOver, List.map_append, List.length_append, List.length_singleton,
          List.range'_concat, Nat.one_mul, List.zip_append (by simp)]
        rfl
      rw [hzip, Table.lookup_ofList_concat, Table.lookup_ofList_concat]
      by_cases hx : (x == p.1) = true
      · rw [if_pos hx, if_pos hx]
        exact .inr ⟨inputs.length, p, rfl, by simp, (eq_of_beq hx).symm, rfl⟩
      · rw [if_neg hx, if_neg hx]
        rcases ih with ih | ⟨j, q, hj, hq, hxq, hlookup⟩
        · exact .inl ih
        · refine .inr ⟨j, q, hj, ?_, hxq, hlookup⟩
          rw [List.getElem?_append_left (List.getElem?_eq_some_iff.mp hq).1]
          exact hq

/-- The inputs of the walk over an instance for concrete types. -/
def concreteInputs {α : Type} (params : List String) (r : Option α) (as : List α) :
    List (String × α) :=
  (r.toList.map fun a => ("self", a)) ++ params.zip as

theorem concreteInputs_map {α β : Type} (f : α → β) (params : List String) (r : Option α)
    (as : List α) : concreteInputs params (r.map f) (as.map f) =
      (concreteInputs params r as).map fun p => (p.1, f p.2) := by
  simp only [concreteInputs, List.zip_map_right, List.map_append, List.map_map]
  congr 1
  cases r <;> rfl

/-- A dispatch that a call finds is for a call of the same name, over types of the same names. -/
theorem found_dispatch {names : List String} (hS : Sound L g) (hT : Tame names L g) {c : NodeId}
    {s : Site} (hc : L.IsCall c) (hs : g.site? c = some s) {receiver : Option Ty} {args : List Ty}
    (hin : g.inputs? s = some (receiver, args)) {d : NodeId}
    (hfind : g.findDispatch? s.origin receiver args = some d) :
    ∃ y, L d = some (.dispatch y) ∧ y.name = s.name ∧
      g.heap.tagRow (y.receiver :: y.args.map some) = g.heap.tagRow (receiver :: args.map some) := by
  obtain ⟨hmem, y, hy, horigin, hsame⟩ := Graph.exists_of_findDispatch hfind
  have hd := hS.label_of_dispatch hmem hy
  refine ⟨_, hd, ?_, ?_⟩
  · obtain ⟨-, w, r, k, rc, as, p, ho, -⟩ := hS.fits hd
    obtain ⟨w', r', k', rc', as', p', ho', -⟩ := hS.origin_of_call hc hs
    have horigin' : y.blank.origin = s.origin := horigin
    rw [horigin', ho'] at ho
    simp only [Option.some.injEq, Label.node.injEq, Expr.call.injEq] at ho
    exact ho.2.2.2.2.1.symm
  · exact ((hT.dispatch hS hmem hy).sameRow_iff hT.flat (.inputs (hT.inputs hin))).mp hsame

/-- What is known of a new instance: its frame, its method, and the body that is walked over. -/
theorem Graph.Begins.opens {c : NodeId} {s : Site} {receiver : Option Ty} {args : List Ty}
    {method : NodeId} {m : Method} {b : Expr}
    (hb : g.Begins L task g₁ ts c s receiver args method m b)
    (hU : Underway P L (g, task :: rest)) (hp : g.perform task = (g₁, .ok ts))
    (hl : Later (L.performed g task) g₁ L' g') :
    ∃ (r : Option Atom) (as : List Atom), receiver = r.map .one ∧ args = as.map .one ∧
      P.Code method m.params b ∧ m.params.length = (as.map g'.heap.tag).length ∧
      P.tables.find? (r.map g'.heap.tag) s.name.text = some method ∧
      g'.Framed g.walks.size (.inst method (r.map g'.heap.tag) (as.map g'.heap.tag)) ∧
      L' g.cells.size = some (.node g.walks.size g.cells.size none b) := by
  have hU₁ := hU.step hp
  have hS := hU.sound.graph
  obtain ⟨r, as, rfl, rfl, hvalid⟩ := hb.calls.concrete_inputs hS
  have hok := hU.sound.tasks task (List.mem_cons_self ..)
  have hl₀ := (later_of_perform hS hok hp).trans hl
  have hcode := hb.code hU.homed
  have hx : g₁.instances[g.instances.size]? =
      some (g.newInstance method (r.map .one) (as.map .one)) := by
    rw [hb.graph]
    exact Graph.instances_specialized ..
  have howner : (r.map Ty.one).bind Ty.atom? = r := by cases r <;> rfl
  refine ⟨r, as, rfl, rfl, hcode, ?_, ?_, ?_, ?_⟩
  · rw [hb.calls.arity, List.length_map, List.length_map]
  · have hB : Graph.Booked P.tables g := by
      rw [hb.task_eq] at hU
      exact hU.booked
    rw [hl₀.map_tag_option fun a ha => hvalid a (List.mem_append_left _ ha)]
    exact (hB.find_concrete hvalid).trans hb.calls.scope
  · have hparams : (g.newInstance method (r.map .one) (as.map .one)).params =
        as.map fun a => some (.one a) := by simp [Graph.newInstance]
    have hframed := Graph.Framed.inst (hl.extend.grows.inst hx) rfl hparams
    simpa [Graph.newInstance, howner] using hframed
  · exact hl.extend.keeps hU₁.sound.graph (hU₁.body_label hx rfl hcode)

/-- The types that the variables of a walk over an instance have from its call can be derived. -/
theorem Graph.Begins.allows_slot {c : NodeId} {s : Site} {receiver : Option Ty} {args : List Ty}
    {method : NodeId} {m : Method} {b : Expr}
    (hb : g.Begins L task g₁ ts c s receiver args method m b)
    (hU : Underway P L (g, task :: rest)) (hp : g.perform task = (g₁, .ok ts))
    (hl : Later (L.performed g task) g₁ L' g') {rest' : List Task}
    (hE : Underway P L' (g', rest')) {j : Nat} {p : String × Ty}
    (hj : (instanceInputs m.params receiver args)[j]? = some p) :
    P.AllowsAll L' g' (g.cells.size + b.size + j : Nat) p.2 := by
  have hS₁ : Sound (L.performed g task) g₁ := (hU.step hp).sound.graph
  obtain ⟨r, as, rfl, rfl, hcode, hlen, hfound, hframed, -⟩ := hb.opens hU hp hl
  have hlabel : L.performed g task (g.cells.size + b.size + j : Nat) =
      some (if (varsOver (g.cells.size + b.size : Nat)
          (instanceInputs m.params (r.map .one) (as.map .one))).lookup p.1 =
            some (g.cells.size + b.size + j : Nat) then .var g.walks.size p.1 else .input p.2) := by
    rw [hb.performed_eq hU.sound.graph, Labels.specialized, Labels.walked, ← Graph.cells_plant]
    refine Labels.append_new _ _ ?_
    simp [Labels.ofInputs, hj]
    rfl
  have hlabel' := hl.extend.keeps hS₁ hlabel
  intro a ha
  by_cases hlookup : (varsOver (g.cells.size + b.size : Nat)
      (instanceInputs m.params (r.map .one) (as.map .one))).lookup p.1 =
        some (g.cells.size + b.size + j : Nat)
  · rw [if_pos hlookup] at hlabel'
    rw [Program.Allows, hlabel']
    intro f hf
    obtain rfl := hE.furnished.frame_unique hf hframed
    rcases lookup_varsOver (g.cells.size + b.size : Nat)
        (instanceInputs m.params (r.map .one) (as.map .one)) p.1 with
      ⟨hnone, -⟩ | ⟨i, q, hi, hq, -, hinput⟩
    · rw [hnone] at hlookup
      cases hlookup
    · rw [hlookup] at hi
      obtain rfl : j = i := Nat.add_left_cancel (Option.some.inj hi)
      rw [hj] at hq
      cases hq
      refine .input ⟨m.params, b, hcode, ?_⟩
      have hmap : instanceInputs m.params (r.map .one) (as.map .one) =
          (concreteInputs m.params r as).map fun p => (p.1, Ty.one p.2) :=
        concreteInputs_map Ty.one m.params r as
      rw [hmap, Table.lookup_ofList_map] at hinput
      obtain ⟨a', ha', hone⟩ := Option.map_eq_some_iff.mp hinput
      rw [← hone] at ha
      cases List.mem_singleton.mp ha
      have hmap' := concreteInputs_map g'.heap.tag m.params r as
      rw [concreteInputs] at hmap'
      rw [hmap', Table.lookup_ofList_map, ha']
      rfl
  · rw [if_neg hlookup] at hlabel'
    rw [Program.Allows, hlabel']
    trivial

/-- A node has its type from before, or it is an input of the walk over a new instance. -/
theorem typed_resolve (hS : Sound L g) {c : NodeId} (hl : g.Linked c)
    (hp : g.perform (.resolve c) = (g₁, .ok ts)) {n : NodeId} {T : Ty} (hT : g₁.type n = some T) :
    g.type n = some T ∨ ∃ s receiver args method m b j p,
      g.Begins L (.resolve c) g₁ ts c s receiver args method m b ∧
        (instanceInputs m.params receiver args)[j]? = some p ∧
        n = (g.cells.size + b.size + j : Nat) ∧ T = p.2 := by
  rcases recorded_resolve hS hl hp (Graph.has_typed.mpr hT) with
    hold | heq | ⟨s, receiver, args, method, m, b, hbegin, hnew⟩
  · exact .inl (Graph.has_typed.mp hold)
  · cases heq
  · cases hnew with
    | slot hj => exact .inr ⟨s, receiver, args, method, m, b, _, _, hbegin, hj, rfl, rfl⟩

/-! ## Types that spread -/

theorem permits_storeType {n : NodeId} {t : Ty} (hs : g.storeType n t = (g₁, .ok ts))
    (hedge : ∀ {s o}, (o, .merge) ∈ g.observers s → P.Passes L' g' s o) :
    ∀ t ∈ ts, P.Permits L' g' t := by
  rcases Graph.storeType_ok hs with ⟨-, rfl, -⟩ | ⟨-, rfl⟩
  · simp
  · intro t ht
    obtain ⟨⟨o, r⟩, ho, rfl⟩ := List.mem_map.mp ht
    rintro rfl
    exact hedge ho

theorem permits_reactionTasks {s o : NodeId} {r : Reaction} (he : g.EdgeOK L s o r) {T : Option Ty}
    (h : r = .merge → ∀ T' ∈ T, P.AllowsAll L' g' o T') :
    ∀ t ∈ reactionTasks o T r, P.Permits L' g' t := by
  intro t ht
  cases r with
  | merge =>
      obtain ⟨T', hT', rfl⟩ := List.mem_map.mp ht
      exact h rfl T' (Option.mem_toList.mp hT')
  | resolve =>
      cases List.mem_singleton.mp ht
      trivial
  | other => exact he.2.2.elim

section step

variable {rest' : List Task} (hU : Underway P L (g, task :: rest))
  (hp : g.perform task = (g₁, .ok ts)) (hl : Later (L.performed g task) g₁ L' g')
include hU hp hl

theorem Underway.later_of_step : Later L g L' g' :=
  (later_of_perform hU.sound.graph (hU.sound.tasks task (List.mem_cons_self ..)) hp).trans hl

variable (hE : Underway P L' (g', rest')) (h : Warranted P L' g' L (g, task :: rest))
include hE h

/-- A call that is resolved brings nothing about that the rules do not allow. -/
theorem Warranted.permits_resolve {c : NodeId} (htask : task = .resolve c) :
    ∀ t ∈ ts, P.Permits L' g' t := by
  have hS : Sound L g := hU.sound.graph
  have hS₁ : Sound (L.performed g task) g₁ := (hU.step hp).sound.graph
  have hT : Tame P.tree.classNames L g := hU.tame.graph
  have hok := hU.sound.tasks task (List.mem_cons_self ..)
  have hl₀ := hU.later_of_step hp hl
  have hB : Graph.Booked P.tables g := by
    rw [htask] at hU
    exact hU.booked
  subst htask
  have hc : L.IsCall c := hok.2
  have hcall := fun {s : Site} {receiver args r as} (hs : g.site? c = some s)
    (hin : g.inputs? s = some (receiver, args)) (hch : Ty.Chosen receiver args r as) =>
      h.call hU hE hl₀ hc hs hin hch
  obtain ⟨s, L₁, hs, hL₁, hcases⟩ := resolves_perform hS hok.1 hp
  rw [hL₁] at hl hS₁
  cases hcases with
  | waiting => simp
  | @dispatch receiver args d hin hmixed hfind =>
      obtain ⟨y, hd, hname, hrow⟩ := found_dispatch hS hT hc hs hin hfind
      intro t ht
      simp only [List.mem_cons, List.not_mem_nil, or_false] at ht
      rcases ht with rfl | rfl
      · rintro - t ht
        rw [Program.Allows, hl₀.extend.keeps hS hd] at ht
        obtain ⟨r, as, hch, hres⟩ := ht
        have htypes : TameRow P.tree.classNames g (y.receiver :: y.args.map some) :=
          .inputs (hT.labels hd)
        have hrow' : g'.heap.tagRow (y.receiver :: y.args.map some) =
            g'.heap.tagRow (receiver :: args.map some) := by
          rw [htypes.tagRow_eq hl₀.extend.grows, hrow,
            (TameRow.inputs (hT.inputs hin)).tagRow_eq hl₀.extend.grows]
        obtain ⟨r', as', hch', htr, hta⟩ := hch.congr hrow'
        rw [hname, ← htr, ← hta] at hres
        exact (hcall hs hin hch').2 _ hres
      · trivial
  | @newDispatch receiver args n hin hmixed hfind =>
      have hd : L' g.cells.size = some (.dispatch (s.dispatch receiver args)) :=
        hl.extend.keeps hS₁ (L.append_size g _)
      intro t ht
      rcases List.mem_append.mp ht with ht | ht
      · obtain ⟨r, as, rfl, hr, has⟩ := Graph.mem_memberTasks.mp ht
        intro x hx
        rw [hd] at hx
        cases hx
        exact ⟨⟨hr, has⟩, (hcall hs hin ⟨hr, has⟩).1⟩
      · simp only [List.mem_cons, List.not_mem_nil, or_false] at ht
        rcases ht with rfl | rfl
        · rintro - t ht
          rw [Program.Allows, hd] at ht
          obtain ⟨r, as, hch, hres⟩ := ht
          exact (hcall hs hin hch).2 _ hres
        · trivial
  | @inst receiver args method m i x hcalls hfind hx =>
      intro t ht
      simp only [List.mem_cons, List.not_mem_nil, or_false] at ht
      obtain ⟨r, as, rfl, rfl, hvalid⟩ := hcalls.concrete_inputs hS
      rcases ht with rfl | rfl
      · exact fun _ t ht => (hcall hs hcalls.inputs (.concrete r as)).2 _
          (h.result hU hl₀ hB hvalid hcalls hfind hx ht)
      · trivial
  | @newInst receiver args method m w q k nm ps b hcalls hfind hm hps =>
      have hb : g.Begins L (.resolve c) _ _ c s receiver args method m b :=
        ⟨rfl, hs, hcalls, hfind, ⟨_, _, _, _, _, hm, hps⟩, rfl, rfl⟩
      rw [← hL₁] at hl
      obtain ⟨r, as, rfl, rfl, hcode, hlen, hfound, hframed, hroot⟩ := hb.opens hU hp hl
      intro t ht
      simp only [List.mem_cons, List.not_mem_nil, or_false] at ht
      rcases ht with rfl | rfl | rfl | rfl
      · trivial
      · trivial
      · rintro - t ht
        rw [Program.Allows, hroot] at ht
        exact (hcall hs hcalls.inputs (.concrete r as)).2 _
          (.body hfound hcode hlen (ht _ hframed))
      · trivial

omit h in
/-- A variable that is assigned is told of the value, and the place that names it of the variable. -/
theorem permits_bind {w : WalkId} {p : Place} {n : NodeId} (htask : task = .bind w p n) :
    ∀ t ∈ ts, P.Permits L' g' t := by
  have hS : Sound L g := hU.sound.graph
  have hl₀ := hU.later_of_step hp hl
  have hok := hU.sound.tasks task (List.mem_cons_self ..)
  subst htask
  obtain ⟨⟨r, k, v, hn⟩, -⟩ := hok
  have hlocal := (hU.tame.graph.within hn).target
  have hn' := hl₀.extend.keeps hS hn
  have htarget := hl₀.extend.keeps hS
    (hS.part hn (p := ⟨n + 1, k, .place p⟩) (by simp [Expr.parts]))
  obtain ⟨-, hS₁, hplace, -⟩ := extends_placeOf hS w p (n + 1)
  simp only [Graph.perform, Graph.bind] at hp
  split at hp <;> cases hp
  next x hx =>
    have hvar := hplace x (by rw [hx])
    simp only [Labels.IsPlace, hlocal] at hvar
    rw [hx] at hS₁
    have hvar' := hl.extend.keeps hS₁ hvar
    intro t ht
    simp only [List.mem_cons, List.not_mem_nil, or_false] at ht
    rcases ht with rfl | rfl
    · rintro - t ht
      rw [Program.Allows, hn'] at ht
      rw [Program.Allows, hvar']
      exact fun f hf => .assigned (hE.holds hn' hf (by simp [Program.tree])) (ht f hf)
    · exact fun _ => Program.passes_place hvar' htarget

/-- What a task leaves to do brings nothing about that the rules do not allow. -/
theorem Warranted.permits : ∀ t ∈ ts, P.Permits L' g' t := by
  have hS : Sound L g := hU.sound.graph
  have hok := hU.sound.tasks task (List.mem_cons_self ..)
  have hl₀ := hU.later_of_step hp hl
  have hhead := h.tasks task (List.mem_cons_self ..)
  cases task with
  | visit w e n => exact permits_visit hS hU.tame.graph hok hp hl
  | store n t => exact permits_storeType hp h.edge
  | widen n t =>
      rw [Graph.perform, hS.widenType_eq hok.2] at hp
      exact permits_storeType hp h.edge
  | subscribe s o r =>
      simp only [Graph.perform, Graph.subscribe] at hp
      cases hp
      intro t ht
      split at ht
      · next T hT =>
          cases List.mem_singleton.mp ht
          intro hr T' hT' a ha
          cases hT'
          exact hhead hr _ (h.typed hT a ha)
      · cases ht
  | deliver s o r =>
      rw [Graph.perform, hS.react_eq hok] at hp
      cases hp
      exact permits_reactionTasks hok fun hr T hT a ha => hhead hr _ (h.typed hT a ha)
  | react s o r t =>
      obtain ⟨s', t', rfl, rfl, he, -⟩ := hok
      rw [Graph.perform, hS.react_eq he] at hp
      cases hp
      exact permits_reactionTasks he hhead
  | notify => exact hok.elim
  | bind w p n => exact permits_bind hU hp hl hE rfl
  | aim | markNew | finish | leave =>
      cases hp
      exact fun t ht => absurd ht (List.not_mem_nil)
  | member d r as =>
      obtain ⟨x, hd, hlen, hvalid⟩ := hok
      obtain ⟨y, hy, -⟩ := Graph.dispatch_of_blank (hS.fits hd).1 rfl
      have hd' := hl₀.extend.keeps hS hd
      have hc' : L' (g.memberAt r as) = some (.member d r as) :=
        hl.extend.keeps (hU.step hp).sound.graph Labels.joined_memberAt
      rw [Graph.perform, Graph.addMember_eq hy] at hp
      cases hp
      intro t ht
      simp only [List.mem_cons, List.not_mem_nil, or_false] at ht
      rcases ht with rfl | rfl
      · rintro - t ht
        rw [Program.Allows, hc'] at ht
        rw [Program.Allows, hd']
        exact ⟨r, as, (hhead x hd').1, ht x hd'⟩
      · trivial
  | resolve c => exact h.permits_resolve hU hp hl hE rfl

/-- What a node is for after a task allows the types that the task gives it. -/
theorem Warranted.typed_step {n : NodeId} {T : Ty} (hT : g₁.type n = some T) :
    P.AllowsAll L' g' n T := by
  have hS : Sound L g := hU.sound.graph
  have hS₁ : Sound (L.performed g task) g₁ := (hU.step hp).sound.graph
  have hok := hU.sound.tasks task (List.mem_cons_self ..)
  have hhead := h.tasks task (List.mem_cons_self ..)
  -- A cell that is for an object's field, or for chosen types, may have any type.
  have hother : ∀ l, L.performed g task n = some l → (∃ i x, l = .field i x) ∨ (∃ t, l = .input t) →
      P.AllowsAll L' g' n T := by
    rintro l hlabel (⟨i, x, rfl⟩ | ⟨t, rfl⟩) a - <;>
      · rw [Program.Allows, hl.extend.keeps hS₁ hlabel]
        trivial
  have hhas : (g.perform task).1.Has (.mark n (.typed T)) := by
    rw [hp]
    exact Graph.has_typed.mpr hT
  rcases has_perform hS hok hhas with hhas | hrec
  · exact h.typed (Graph.has_typed.mp hhas)
  · cases hrec with
    | stored => exact hhead
    | widened =>
        intro a ha
        cases hold : g.type n with
        | none =>
            rw [Graph.joined_of_none hold] at ha
            exact hhead a ha
        | some old =>
            rw [Graph.joined_of_some hold] at ha
            exact (Heap.mem_of_mem_merge ha).elim (h.typed hold a) (hhead a)
    | read hplace | bound hplace =>
        rcases hplace.var_or_field with heq | ⟨_, -, heq⟩ <;> cases heq
    | @copied w c nm as p i j t =>
        obtain ⟨l, hlabel⟩ := Option.ne_none_iff_exists'.mp (hS₁.typed hT).1
        rcases broughtBy_performed _ _ _ hlabel with hold | hnew
        · exact absurd (hS.bound hold) (Nat.not_lt.mpr (Nat.le_add_right ..))
        · cases l with
          | field i x => exact hother _ hlabel (.inl ⟨i, x, rfl⟩)
          | input t => exact hother _ hlabel (.inr ⟨t, rfl⟩)
          | _ => simp [Graph.Brings] at hnew
    | @inst c method params body receiver args _ hnew =>
        rcases typed_resolve hS hok.1 hp hT with
          hold | ⟨s, receiver, args, method, m, b, j, p, hb, hj, rfl, rfl⟩
        · exact h.typed hold
        · exact hb.allows_slot hU hp hl hE hj
    | @slot d r as j s hj =>
        exact hother _ (Labels.joined_slot hj) (.inr ⟨_, rfl⟩)

/-- A walk only begins over an instance that something asks for. -/
theorem Warranted.inst_step {i : InstanceId} {x : Instance} {w : WalkId} {f : Frame}
    (hx : g₁.instances[i]? = some x) (hw : x.walk = some w) (hf : g'.Framed w f) :
    P.Derives (.reached f) := by
  have hS : Sound L g := hU.sound.graph
  have hok := hU.sound.tasks task (List.mem_cons_self ..)
  have hl₀ := hU.later_of_step hp hl
  rcases TypeFlow.inst_step hS hok hp hx with
    hx | ⟨c, s, receiver, args, method, m, b, hb, rfl, rfl⟩
  · exact h.inst hx hw hf
  · obtain ⟨r, as, rfl, rfl, hcode, hlen, hfound, hframed, -⟩ := hb.opens hU hp hl
    cases hw
    obtain rfl := hE.furnished.frame_unique hf hframed
    have hc : L.IsCall c := by
      rw [hb.task_eq] at hok
      exact hok.2
    have hasked := (h.call hU hE hl₀ hc hb.site hb.calls.inputs (.concrete r as)).1
    exact .inst hasked hfound hcode hlen

/-- A task does nothing that the rules do not allow. -/
theorem Warranted.step : Warranted P L' g' (L.performed g task) (g₁, ts ++ rest) where
  typed hT := h.typed_step hU hp hl hE hT
  edge ho := by
    have hok := hU.sound.tasks task (List.mem_cons_self ..)
    rcases edge_step hU.sound.graph hok hp ho with ho | rfl
    · exact h.edge ho
    · exact h.tasks _ (List.mem_cons_self ..) rfl
  tasks t ht := by
    rcases List.mem_append.mp ht with ht | ht
    · exact h.permits hU hp hl hE t ht
    · exact h.tasks t (List.mem_cons_of_mem _ ht)
  inst hx hw hf := h.inst_step hU hp hl hE hx hw hf
  member {n d r as} hn := by
    rcases broughtBy_performed task n _ hn with hn | hn
    · exact h.member hn
    · have hhead := h.tasks task (List.mem_cons_self ..)
      rw [show task = .member d r as from hn] at hhead
      exact hhead

end step

end TypeFlow
