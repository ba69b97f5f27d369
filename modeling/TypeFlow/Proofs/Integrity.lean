import TypeFlow.Proofs.Resolving
import TypeFlow.Proofs.Runs

/-! # Every run keeps the labelling

No program leads to a fault other than an error of the program: every task that inference sets
finds what it needs. -/

namespace TypeFlow

/-! ## Tasks -/

/-- The labelling after a task. -/
def Labels.performed (L : Labels) (g : Graph) : Task → Labels
  | .visit w e _ => L.visited g w e
  | .bind w p _ => L.placed g w p
  | .resolve c => L.resolved g c
  | .member d r as => L.joined g d r as
  | _ => L

/-- A call that is taken up is resolved in one of these ways, at the site it is known to have. -/
theorem resolves_site {L : Labels} {g : Graph} (hS : Sound L g) {c : NodeId} {s : Site}
    (hl : g.Linked c) (hs : g.site? c = some s) {step : Step}
    (hp : g.perform (.resolve c) = step) :
    ∃ L', L.performed g (.resolve c) = L' ∧ g.Resolves L c s step L' := by
  obtain ⟨s', hs', -, hres⟩ := resolves_resolve hS hl
  cases hs.symm.trans hs'
  exact ⟨_, rfl, hp ▸ hres⟩

theorem resolves_perform {L : Labels} {g : Graph} (hS : Sound L g) {c : NodeId}
    (hl : g.Linked c) {step : Step} (hp : g.perform (.resolve c) = step) :
    ∃ s L', g.site? c = some s ∧ L.performed g (.resolve c) = L' ∧ g.Resolves L c s step L' := by
  obtain ⟨s, hs, -⟩ := id hl
  obtain ⟨L', hL', hres⟩ := resolves_site hS hl hs hp
  exact ⟨s, L', hs, hL', hres⟩

theorem keeps_perform {L : Labels} {g : Graph} (hS : Sound L g) {task : Task}
    (ht : task.OK L g) : Keeps L g (L.performed g task) (g.perform task) := by
  cases task with
  | visit w e n =>
      obtain ⟨⟨r, k, hn⟩, hw⟩ := ht
      exact keeps_visit hS hn hw
  | store n t =>
      obtain ⟨⟨w, r, k, e, hn⟩, hvalid⟩ := ht
      exact keeps_storeType hS ⟨_, hn, rfl⟩ hvalid
  | widen n t => exact keeps_widenType hS ht.1 ht.2
  | subscribe s o r => exact keeps_subscribe hS ht
  | deliver s o r => exact keeps_react hS ht fun t h => (hS.typed h).2.1
  | react s o r t =>
      obtain ⟨s', t', rfl, rfl, he, hvalid⟩ := ht
      exact keeps_react hS he (by simpa using hvalid)
  | notify n => exact ht.elim
  | bind w p n =>
      obtain ⟨⟨r, k, v, hn⟩, -⟩ := ht
      exact keeps_bind hS hn
  | resolve c => exact keeps_resolve hS ht.2 ht.1
  | aim c t => exact keeps_aim hS ht.1 ht.2
  | member d r as =>
      obtain ⟨x, hd, hlen, hvalid⟩ := ht
      exact keeps_addMember hS hd hlen hvalid
  | markNew c => exact keeps_markNew hS ht
  | finish c i => exact keeps_finish hS
  | leave w outer => exact keeps_leave hS

theorem Sound.Config.step {L : Labels} {g g' : Graph} {task : Task} {tasks rest : List Task}
    (h : Sound.Config L (g, task :: rest)) (hp : g.perform task = (g', .ok tasks)) :
    Extends L g (L.performed g task) g' ∧
      Sound.Config (L.performed g task) (g', tasks ++ rest) := by
  have hkeep := keeps_perform h.graph (h.tasks task (List.mem_cons_self ..))
  rw [hp] at hkeep
  refine ⟨hkeep.extend, hkeep.sound, fun t ht => ?_⟩
  rcases List.mem_append.mp ht with ht | ht
  · exact hkeep.tasks tasks rfl t ht
  · exact hkeep.extend.task h.graph (h.tasks t (List.mem_cons_of_mem _ ht))

theorem Sound.Config.fault {L : Labels} {g g' : Graph} {task : Task} {rest : List Task}
    {f : Fault} (h : Sound.Config L (g, task :: rest)) (hp : g.perform task = (g', .error f)) :
    ∃ e, f = .inference e := by
  have hkeep := keeps_perform h.graph (h.tasks task (List.mem_cons_self ..))
  rw [hp] at hkeep
  exact hkeep.fault f rfl

/-- A run from a labelled configuration leads to labelled configurations. -/
theorem Sound.Config.passes {L : Labels} {c c' : Graph.Config} {done : List Task}
    (hp : Graph.Passes c done c') (h : Sound.Config L c) : ∃ L', Sound.Config L' c' := by
  refine hp.preserves (fun c => ∃ L', Sound.Config L' c) ⟨L, h⟩ ?_
  rintro g task rest g' tasks ⟨L', hL'⟩ hperform
  exact ⟨_, (hL'.step hperform).2⟩

/-! ## Only new instances bring new nodes -/

/-- No walk comes to a new cell. -/
def Labels.Plain (L' : Labels) (g : Graph) : Prop :=
  ∀ n : Nat, g.cells.size ≤ n → ∀ w r k e, L' n ≠ some (.node w r k e)

section plain

variable {L : Labels} {g : Graph} (hS : Sound L g)
include hS

theorem plain_self : L.Plain g :=
  fun _ hn _ _ _ _ hl => Nat.not_lt.mpr hn (hS.bound hl)

omit hS in
theorem plain_append {ls : List (Option Label)}
    (h : ∀ (j : Nat) l, ls[j]? = some (some l) → ∀ w r k e, l ≠ .node w r k e) :
    (L.append g ls).Plain g := by
  intro n hn w r k e hl
  rcases Labels.append_cases hl with ⟨hlt, -⟩ | ⟨j, -, hj⟩
  · exact Nat.not_lt.mpr hn hlt
  · exact h j _ hj w r k e rfl

omit hS in
theorem plain_append_one {l : Label} (h : ∀ w r k e, l ≠ .node w r k e) :
    (L.append g [some l]).Plain g := by
  refine plain_append fun j l' hj => ?_
  obtain ⟨-, rfl⟩ := Labels.eq_of_singleton hj
  exact h

theorem plain_placed (w : WalkId) (p : Place) : (L.placed g w p).Plain g := by
  unfold Labels.placed
  cases p.kind with
  | localVar =>
      dsimp only
      split
      · exact plain_self hS
      · exact plain_append_one (by simp)
  | instanceVar =>
      dsimp only
      split
      · exact plain_self hS
      · split
        · exact plain_self hS
        · exact plain_append_one (by simp)

theorem plain_visited (w : WalkId) (e : Expr) : (L.visited g w e).Plain g := by
  unfold Labels.visited
  split
  · exact plain_placed hS w _
  · split
    · unfold Labels.instantiated
      split
      · exact plain_self hS
      · split
        · refine plain_append fun j l hj => ?_
          simp only [List.getElem?_map, Option.map_eq_some_iff, Option.some.injEq] at hj
          obtain ⟨f, -, rfl⟩ := hj
          simp
        · exact plain_self hS
    · exact plain_self hS
  · exact plain_self hS

omit hS in
theorem plain_joined (d : NodeId) (receiver : Option Atom) (args : List Atom) :
    (L.joined g d receiver args).Plain g := by
  refine plain_append fun j l hj => ?_
  rcases List.mem_append.mp (List.mem_of_getElem? hj) with h | h
  · obtain ⟨s, -, hs⟩ := List.mem_map.mp h
    cases hs
    simp
  · cases List.mem_singleton.mp h
    simp

theorem plain_performed {task : Task} (h : ∀ c, task ≠ .resolve c) :
    (L.performed g task).Plain g := by
  cases task with
  | visit w e n => exact plain_visited hS w e
  | bind w p n => exact plain_placed hS w p
  | resolve c => exact (h c rfl).elim
  | member d r as => exact plain_joined d r as
  | _ => exact plain_self hS

end plain

/-! ## The built-in methods -/

/-- A built-in method as it is before it has signatures. -/
def Builtin.method (b : Builtin) : Method where
  name := b.name
  formals := (List.range b.arity).map fun i => { name := "arg" ++ toString i }
  source := match b.owner with
    | some _ => .builtin b.owner
    | none => .external

namespace Graph

variable {g : Graph}

/-- The graph with a built-in method and its signatures. -/
def addSignatures (g : Graph) (b : Builtin) : Graph :=
  b.signatures.foldl (fun g' s => (g'.addSignature? g.cells.size
    (s.1.map fun t => some (.prim t)) (some (.prim s.2))).getD g')
    (g.addCell { role := .method b.method }).1

theorem addBuiltin_eq (g : Graph) (b : Builtin) :
    g.addBuiltin b = match b.owner with
      | some owner =>
          let table := ((g.addSignatures b).natives.lookup owner).getD []
          { g.addSignatures b with
            natives := (g.addSignatures b).natives.put owner (table.put b.name g.cells.size) }
      | none =>
          { g.addSignatures b with
            methods := (g.addSignatures b).methods.put b.name g.cells.size } := rfl

theorem addSignatures_induction {P : Graph → Prop} {b : Builtin}
    (start : P (g.addCell { role := .method b.method }).1)
    (step : ∀ s ∈ b.signatures, ∀ g₁ g₂, P g₁ →
      addSignature? g₁ g.cells.size (s.1.map fun t => some (.prim t)) (some (.prim s.2)) =
        some g₂ → P g₂) : P (g.addSignatures b) := by
  unfold addSignatures
  generalize (g.addCell { role := .method b.method }).1 = g₁ at start
  generalize b.signatures = ss at step
  induction ss generalizing g₁ with
  | nil => exact start
  | cons s ss ih =>
      refine ih _ ?_ fun s' hs' => step s' (List.mem_cons_of_mem _ hs')
      cases hs : g₁.addSignature? g.cells.size (s.1.map fun t => some (.prim t))
          (some (.prim s.2)) with
      | none => simpa [hs] using start
      | some g₂ => simpa [hs] using step s (List.mem_cons_self ..) g₁ g₂ start hs

theorem withBuiltins_induction {P : Graph → Prop}
    (start : P { natives := Builtin.typeNames.map fun n => (n, []) })
    (step : ∀ b ∈ Builtin.all, ∀ g, P g → P (g.addBuiltin b)) : P withBuiltins := by
  unfold withBuiltins
  revert step start
  generalize ({ natives := Builtin.typeNames.map fun n => (n, []) } : Graph) = g
  generalize Builtin.all = bs
  intro start step
  induction bs generalizing g with
  | nil => exact start
  | cons b bs ih =>
      exact ih _ (step b (List.mem_cons_self ..) g start)
        fun b' hb' => step b' (List.mem_cons_of_mem _ hb')

end Graph

/-- All cells belong to built-in methods. -/
def Labels.builtins (g : Graph) : Labels :=
  fun (n : Nat) => if n < g.cells.size then some .builtin else none

theorem Labels.builtins_of_lt {g : Graph} {n : Nat} (hn : n < g.cells.size) :
    builtins g n = some .builtin := if_pos hn

/-- A graph with nothing but built-in methods. -/
def Graph.IsBuiltin (g : Graph) : Prop := Sound (Labels.builtins g) g

namespace Graph

variable {g : Graph}

/-- A change that adds cells of built-in methods. -/
theorem IsBuiltin.grow (hg : g.IsBuiltin) {g' : Graph} (hgrows : Grows g g')
    (hentries : ∀ {en}, g'.Has en → g.Has en ∨ en.OK (Labels.builtins g') g') :
    g'.IsBuiltin := by
  have hext : Extends (Labels.builtins g) g (Labels.builtins g') g' := by
    refine ⟨hgrows, fun n hn => ?_⟩
    rw [Labels.builtins_of_lt hn, Labels.builtins_of_lt (Nat.lt_of_lt_of_le hn hgrows.size_le)]
  have hbuiltin : ∀ {n : Nat} {l}, Labels.builtins g' n = some l →
      n < g'.cells.size ∧ l = .builtin := by
    intro n l hn
    unfold Labels.builtins at hn
    split at hn
    · next hlt => exact ⟨hlt, (Option.some.inj hn).symm⟩
    · cases hn
  refine hext.sound hg (fun hn => (hbuiltin hn).1) (fun _ hn => ?_) hentries
  rw [(hbuiltin hn).2]
  trivial

theorem IsBuiltin.empty (natives : Table String (Table String NodeId))
    (h : ∀ e ∈ natives, e.2 = []) : IsBuiltin { natives } where
  bound := by
    intro n l hn
    simp [Labels.builtins] at hn
  fits := by
    intro n l hn
    simp [Labels.builtins] at hn
  entries := by
    intro en hen
    cases en with
    | method m =>
        rcases hen with ⟨name, hname⟩ | ⟨t, ht, -⟩ | ⟨ty, t, name, ht, hname⟩
        · cases hname
        · simp at ht
        · obtain rfl : t = [] := h _ ht
          cases hname
    | var | self => simp [Has, walk] at hen
    | mark | field | inst | dispatch | klass => simp [Has] at hen

theorem cells_addInstance (g : Graph) (x : Instance) :
    (g.addInstance x).1.cells.size = g.cells.size := Array.size_modify ..

theorem IsBuiltin.addSignature (hg : g.IsBuiltin) {method : NodeId} {params : List (Option Ty)}
    {result : String} {g' : Graph} (hm : g.MethodOK (Labels.builtins g) method)
    (h : g.addSignature? method params (some (.prim result)) = some g') :
    g'.IsBuiltin ∧ Grows g g' := by
  unfold addSignature? at h
  obtain ⟨m, -, h⟩ := Option.bind_eq_some_iff.mp h
  obtain ⟨-, -, h⟩ := Option.bind_eq_some_iff.mp h
  let cell : Cell := { role := .result, type := some (.prim result) }
  obtain ⟨owner, rfl⟩ : ∃ owner, g' = ((g.addCell cell).1.addInstance
      { method, params, owner, body := g.cells.size }).1 := ⟨_, (Option.some.inj h).symm⟩
  let inst : Instance := { method, params, owner, body := g.cells.size }
  have hcell := grows_addCell g cell
  have hsize : g.cells.size < (g.addCell cell).1.cells.size := by simp [addCell]
  have hlabel := Labels.builtins_of_lt hsize
  have hext : Extends (Labels.builtins g) g (Labels.builtins (g.addCell cell).1)
      (g.addCell cell).1 := by
    refine ⟨hcell, fun n hn => ?_⟩
    rw [Labels.builtins_of_lt hn, Labels.builtins_of_lt (Nat.lt_of_lt_of_le hn hcell.size_le)]
  have hbuiltin : (g.addCell cell).1.IsBuiltin := by
    refine hg.grow hcell fun hen => ?_
    rcases has_addCell hen with hen | ⟨k, rfl, hk⟩
    · exact .inl hen
    · cases k with
      | typed t =>
          cases hk
          exact .inr ⟨by simp [hlabel], by simp [Ty.Valid, Ty.prim], by simp [hlabel]⟩
      | edge => cases hk
      | _ => exact hk.elim
  have hsound := sound_addInstance hbuiltin (x := inst) (.inl ⟨rfl, hlabel⟩) (hext.method hg hm)
  have hsame : Labels.builtins ((g.addCell cell).1.addInstance inst).1 =
      Labels.builtins (g.addCell cell).1 := by
    funext n
    rw [Labels.builtins, cells_addInstance]
    rfl
  exact ⟨by rw [← hsame] at hsound; exact hsound, hcell.trans (grows_addInstance ..)⟩

theorem IsBuiltin.addSignatures (hg : g.IsBuiltin) (b : Builtin) :
    (g.addSignatures b).IsBuiltin ∧
      (g.addSignatures b).MethodOK (Labels.builtins (g.addSignatures b)) g.cells.size := by
  refine addSignatures_induction
    (P := fun g₁ => g₁.IsBuiltin ∧ g₁.MethodOK (Labels.builtins g₁) g.cells.size) ?_ ?_
  · refine ⟨hg.grow (grows_addCell g _) fun hen => ?_, .inr ⟨Labels.builtins_of_lt
      (by simp [addCell]), { role := .method b.method }, b.method, ?_, rfl, ?_⟩⟩
    · rcases has_addCell hen with hen | ⟨k, rfl, hk⟩
      · exact .inl hen
      · cases k <;> cases hk
    · simp [blank, addCell, Cell.blank, Role.blank, Method.blank, Builtin.method]
    · cases hb : b.owner with
      | none => exact .inl (by simp [Builtin.method, hb])
      | some owner => exact .inr ⟨owner, by simp [Builtin.method, hb]⟩
  · rintro s - g₁ g₂ ⟨h₁, hm⟩ hs
    obtain ⟨h₂, hgrows⟩ := h₁.addSignature hm hs
    have hext : Extends (Labels.builtins g₁) g₁ (Labels.builtins g₂) g₂ := by
      refine ⟨hgrows, fun n hn => ?_⟩
      rw [Labels.builtins_of_lt hn,
        Labels.builtins_of_lt (Nat.lt_of_lt_of_le hn hgrows.size_le)]
    exact ⟨h₂, hext.method h₁ hm⟩

theorem IsBuiltin.addBuiltin (hg : g.IsBuiltin) (b : Builtin) : (g.addBuiltin b).IsBuiltin := by
  obtain ⟨hdone, hm⟩ := hg.addSignatures b
  rw [addBuiltin_eq]
  generalize g.addSignatures b = g₂ at hdone hm
  cases b.owner with
  | none =>
      refine hdone.grow (grows_append (fun _ _ => rfl) rfl id id) fun {en} hen => ?_
      cases en with
      | method m =>
          rcases hen with ⟨name, hname⟩ | hen
          · rcases Table.mem_of_mem_put hname with hname | hname
            · exact .inl (.inl ⟨name, hname⟩)
            · cases hname
              exact .inr hm
          · exact .inl (.inr hen)
      | mark | var | field | inst | dispatch | self | klass => exact .inl hen
  | some owner =>
      refine hdone.grow (grows_append (fun _ _ => rfl) rfl id id) fun {en} hen => ?_
      cases en with
      | method m =>
          rcases hen with hen | hen | ⟨ty, t, name, ht, hname⟩
          · exact .inl (.inl hen)
          · exact .inl (.inr (.inl hen))
          · rcases Table.mem_of_mem_put ht with ht | ht
            · exact .inl (.inr (.inr ⟨ty, t, name, ht, hname⟩))
            · cases ht
              rcases Table.mem_of_mem_put hname with hname | hname
              · refine .inl (.inr (.inr ?_))
                cases hl : g₂.natives.lookup owner with
                | none => simp [hl] at hname
                | some t =>
                    rw [hl] at hname
                    exact ⟨owner, t, name, Table.mem_of_lookup hl, hname⟩
              · cases hname
                exact .inr hm
      | mark | var | field | inst | dispatch | self | klass => exact .inl hen

theorem isBuiltin_withBuiltins : withBuiltins.IsBuiltin := by
  refine withBuiltins_induction (.empty _ fun e he => ?_) fun b _ g hg => hg.addBuiltin b
  obtain ⟨n, -, rfl⟩ := List.mem_map.mp he
  rfl

end Graph

/-! ## Programs -/

theorem walks_withBuiltins : Graph.withBuiltins.walks.size = 0 := by decide +kernel

theorem start_eq : Session.start =
    { graph := (Graph.withBuiltins.addWalk {}).1, trees := #[], walk := 0 } := by
  rw [← walks_withBuiltins, Session.start]
  generalize Graph.withBuiltins = g
  rfl

/-- The address of a program. -/
def rootOf : NodeId := Session.start.graph.cells.size

/-- The instances that are there from the start are of built-in methods, and each has a result. -/
theorem builtin_of_start {i : InstanceId} {x : Instance}
    (hx : Session.start.graph.instances[i]? = some x) :
    (x.method : Nat) < rootOf ∧ ∃ T, Session.start.graph.type x.body = some T := by
  have hall : (Graph.withBuiltins.instances.all fun x =>
      decide ((x.method : Nat) < Graph.withBuiltins.cells.size) &&
        (Graph.withBuiltins.type x.body).isSome) = true := by decide +kernel
  unfold rootOf
  rw [start_eq] at hx ⊢
  generalize Graph.withBuiltins = g at hall hx ⊢
  have hmem := Array.all_eq_true_iff_forall_mem.mp hall x (Array.mem_of_getElem? hx)
  rw [Bool.and_eq_true, decide_eq_true_eq] at hmem
  exact ⟨hmem.1, Option.isSome_iff_exists.mp hmem.2⟩

theorem lt_of_start {m : NodeId} {k : Mark} (h : Session.start.graph.Has (.mark m k)) :
    (m : Nat) < rootOf := by
  obtain ⟨cell, hcell, -⟩ := h
  unfold rootOf
  exact (Array.getElem?_eq_some_iff.mp hcell).1

/-- The graph on which the walk over a program begins. -/
def Graph.loaded (tree : Expr) : Graph := (Session.start.graph.plant tree).1

theorem inferTypes_eq (budget : Nat) (tree : Expr) :
    inferTypes budget tree =
      ({ (Session.start.plant tree).1 with
          graph := (Graph.run budget (Graph.loaded tree) [.visit 0 tree rootOf]).1 },
        (Graph.run budget (Graph.loaded tree) [.visit 0 tree rootOf]).2) := by
  simp only [inferTypes, Graph.loaded, rootOf, start_eq]
  generalize Graph.withBuiltins = g
  rfl

/-- The run in which a program is inferred. -/
theorem inferTypes_graph (budget : Nat) (tree : Expr) :
    (inferTypes budget tree).1.graph =
      (Graph.run budget (Graph.loaded tree) [.visit 0 tree rootOf]).1 := by
  rw [inferTypes_eq]

theorem inferTypes_outcome (budget : Nat) (tree : Expr) :
    (inferTypes budget tree).2 =
      (Graph.run budget (Graph.loaded tree) [.visit 0 tree rootOf]).2 := by
  rw [inferTypes_eq]

/-- The labelling of a program before it is walked over. -/
def Labels.loaded (tree : Expr) : Labels :=
  (builtins Graph.withBuiltins).append Session.start.graph (ofTree 0 rootOf tree)

theorem Sound.start : Sound (Labels.builtins Graph.withBuiltins) Session.start.graph := by
  have hgrows := Graph.grows_addWalk Graph.withBuiltins ({} : Walk)
  rw [start_eq]
  refine Sound.grow Graph.isBuiltin_withBuiltins hgrows fun hen => ?_
  rcases Graph.has_addWalk hen with hen | ⟨x, v, rfl, hv⟩ | ⟨i, rfl, hi⟩
  · exact .inl hen
  · cases hv
  · cases hi

theorem Labels.loaded_root (tree : Expr) :
    Labels.loaded tree rootOf = some (.node 0 rootOf none tree) := by
  unfold Labels.loaded rootOf
  generalize Session.start.graph = g
  exact Labels.append_ofTree_stop (Expr.mem_stops_self ..)

theorem Sound.Config.loaded (tree : Expr) :
    Sound.Config (Labels.loaded tree) (Graph.loaded tree, [.visit 0 tree rootOf]) := by
  obtain ⟨hext, hS⟩ := extends_plant Sound.start 0 tree
  refine ⟨hS, fun task htask => ?_⟩
  obtain rfl := List.mem_singleton.mp htask
  have hwalk : Session.start.graph.walks[0]? = some ({} : Walk) := by
    rw [start_eq, ← walks_withBuiltins]
    exact Array.getElem?_push_size
  exact ⟨⟨rootOf, none, Labels.loaded_root tree⟩, _, hwalk⟩

/-- What a program records before it is walked over belongs to the built-in methods. -/
theorem has_loaded {tree : Expr} {e : Entry} (h : (Graph.loaded tree).Has e) :
    e.OK (Labels.builtins Graph.withBuiltins) Session.start.graph :=
  Sound.start.entries (Graph.has_plant h)

theorem type_loaded (tree : Expr) (n : NodeId) :
    (Graph.loaded tree).type n = Session.start.graph.type n := by
  unfold Graph.loaded
  exact Graph.type_plant ..

/-- No node of a program has a type before the program is walked over. -/
theorem type_loaded_of_le (tree : Expr) {n : Nat} (hn : rootOf ≤ n) :
    (Graph.loaded tree).type n = none := by
  rw [type_loaded]
  refine Option.eq_none_iff_forall_ne_some.mpr fun t ht => ?_
  exact Nat.not_lt.mpr hn (lt_of_start (Graph.has_typed.mpr ht))

/-- A cell is labelled as one of a built-in method or of the program at first. -/
theorem label_loaded {tree : Expr} {n : Nat} {l : Label} (hn : Labels.loaded tree n = some l) :
    (l = .builtin ∧ n < rootOf) ∨ ∃ q ∈ tree.stops none rootOf, q.node = n ∧
      l = .node 0 rootOf q.klass q.expr := by
  unfold Labels.loaded rootOf at hn
  unfold rootOf
  generalize Session.start.graph = g at hn ⊢
  rcases Labels.append_cases hn with ⟨hlt, hl⟩ | ⟨j, rfl, hj⟩
  · refine .inl ⟨?_, hlt⟩
    unfold Labels.builtins at hl
    split at hl <;> cases hl
    rfl
  · obtain ⟨q, hq, hnode, rfl⟩ := Labels.mem_ofTree hj
    exact .inr ⟨q, hq, hnode, rfl⟩

/-- No instance is there at first over which a walk goes. -/
theorem not_walked_loaded (tree : Expr) {i : InstanceId} {x : Instance} {w : WalkId}
    (hx : (Graph.loaded tree).instances[i]? = some x) : x.walk ≠ some w := by
  intro hw
  rcases has_loaded (e := .inst i x) hx with ⟨hnone, -⟩ | ⟨_, _, _, _, _, _, _, -, -, -, hb⟩
  · rw [hnone] at hw
    cases hw
  · unfold Labels.builtins at hb
    split at hb <;> cases hb

end TypeFlow
