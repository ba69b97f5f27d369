import TypeFlow.Proofs.Outlines
import TypeFlow.Proofs.Prototypes
import TypeFlow.Proofs.Templates
import TypeFlow.Proofs.Turns

/-! # Each construction makes an object type of its own

Within its own methods a class makes objects of the object type that the method is of. Anywhere else
the construction of an object clones the prototype, so that no two constructions share an object
type, and what one of them is given is nothing to the other. -/

namespace TypeFlow

namespace Graph

/-- The nodes that a walk is about: those of the program, or those of the copy of the body of a
method that an instance has. -/
inductive WalksOver (g : Graph) (tree : Expr) : WalkId → Nat → Expr → Prop where
  | main {n : Nat} {e : Expr} : (n, e) ∈ tree.nodes rootOf → g.WalksOver tree 0 n e
  | inst {i : InstanceId} {x : Instance} {w : WalkId} {b : Expr} {t : NodeId} {n : Nat} {e : Expr} :
      g.instances[i]? = some x → x.walk = some w → g.HasTemplate x.method b t →
      (n, e) ∈ b.nodes x.body → g.WalksOver tree w n e

/-- A node is the construction of an object, and not in a method of an object type of its class. -/
def Allocates (g : Graph) (tree : Expr) (n : Nat) : Prop :=
  ∃ w c nm as p, g.WalksOver tree w n (.call (some (.const c)) nm as p) ∧ nm.text = "new" ∧
    ∀ i, (g.walk w).self = some i → g.heap.name i ≠ c.text

/-- A node has a type, or a walk is about to give it that type. -/
inductive Gets (c : Config) (n : NodeId) (t : Ty) : Prop where
  | has : c.1.type n = some t → Gets c n t
  | waits : .store n t ∈ c.2 → Gets c n t

end Graph

variable {L : Labels} {g g' : Graph} {tree : Expr} {task : Task} {ts rest : List Task}

/-! ## Nodes and their walks -/

/-- A node in a tree that a walk goes over has nothing recorded about it unless the walk comes
to it. -/
theorem Outlined.label (hO : Outlined L g) (hS : Sound L g) {root n : Nat} {w : WalkId} {r : NodeId}
    {k : Option String} {b e : Expr} (hroot : L root = some (.node w r k b))
    (hmem : (n, e) ∈ b.nodes root) (hne : L n ≠ none) : ∃ k', L n = some (.node w r k' e) := by
  by_cases hstop : ∃ q ∈ b.stops k root, q.node = n
  · obtain ⟨q, hq, rfl⟩ := hstop
    obtain rfl : q.expr = e :=
      congrArg Prod.snd (Expr.nodes_unique (Expr.mem_nodes_of_mem_stops hq) hmem rfl)
    exact ⟨q.klass, hS.stop hroot hq⟩
  · have hrange := Expr.node_range hmem
    have hlt := Nat.lt_of_lt_of_le (Nat.lt_add_of_pos_right e.size_pos) hrange.2
    exact absurd ((hO hroot).2 n hrange.1 hlt fun q hq heq => hstop ⟨q, hq, heq⟩) hne

theorem Graph.WalksOver.label (hS : Sound L g) (hO : Outlined L g)
    (hroot : L rootOf = some (.node 0 rootOf none tree)) {w : WalkId} {n : Nat} {e : Expr}
    (h : g.WalksOver tree w n e) (hne : L n ≠ none) : ∃ r k, L n = some (.node w r k e) := by
  cases h with
  | main hmem => exact ⟨_, hO.label hS hroot hmem hne⟩
  | @inst i x w b t n e hx hw hm hmem =>
      rcases hS.entries (e := .inst i x) hx with ⟨hnone, -⟩ |
        ⟨v, u, r, k, nm, ps, b', hv, -, hmethod, hbody⟩
      · rw [hnone] at hw
        cases hw
      · rw [hw] at hv
        cases hv
        obtain ⟨c, y, hc, hr, hsource⟩ := Graph.hasTemplate_iff.mp hm
        rw [(hS.fits hmethod).1] at hc
        cases hc
        cases hr
        cases hsource
        exact ⟨_, hO.label hS hbody hmem hne⟩

/-! ## Object types of their own -/

/-- A node is labelled as the construction of an object that is not in a method of its class. -/
def Labels.Allocates (L : Labels) (g : Graph) (n : NodeId) : Prop :=
  ∃ w r k c nm as p, L n = some (.node w r k (.call (some (.const c)) nm as p)) ∧
    nm.text = "new" ∧ ∀ i, (g.walk w).self = some i → g.heap.name i ≠ c.text

/-- Constructions outside of the methods of their class make object types, and no two of them the
same. -/
structure Separate (L : Labels) (c : Graph.Config) : Prop where
  sound : Sound.Config L c
  seeded : Seeded L c.1 c.2
  object : ∀ n t, L.Allocates c.1 n → Graph.Gets c n t → ∃ i, t = .obj i
  apart : ∀ n m i, L.Allocates c.1 n → L.Allocates c.1 m → Graph.Gets c n (.obj i) →
    Graph.Gets c m (.obj i) → n = m

/-- A construction that is not in a method of its class never was in one. -/
theorem Labels.Allocates.of_grows (hS : Sound L g) (hg : Graph.Grows g g') {w : WalkId} {r n : NodeId}
    {k : Option String} {c nm : Token} {as : List Expr} {p : Bool}
    (hn : L n = some (.node w r k (.call (some (.const c)) nm as p))) (hnew : nm.text = "new")
    (hself : ∀ i, (g'.walk w).self = some i → g'.heap.name i ≠ c.text) : L.Allocates g n := by
  refine ⟨w, r, k, c, nm, as, p, hn, hnew, fun i hi hname => ?_⟩
  obtain ⟨o, ho⟩ := hS.entries (e := .self w i) hi
  obtain ⟨o', ho', hname', -⟩ := hg.object ho
  cases hx : g.walks[w]? with
  | none => simp [Graph.walk, hx] at hi
  | some x =>
      obtain ⟨x', hx', hself'⟩ := hg.walk hx
      refine hself i ?_ ?_
      · simpa [Graph.walk, hx, hx', hself'] using hi
      · simpa [Graph.heap, ho, ho', hname'] using hname

namespace Separate

variable (h : Separate L (g, task :: rest)) (hp : g.perform task = (g', .ok ts))
include h hp

/-- A construction has its type from before, or it is given the object type of a new clone. -/
theorem gets_step {n : NodeId} {t : Ty} (hn : (L.performed g task).Allocates g' n)
    (hgets : Graph.Gets (g', ts ++ rest) n t) :
    L.Allocates g n ∧ Graph.Gets (g, task :: rest) n t ∨
      L.Allocates g n ∧ (∃ w e, task = .visit w e n) ∧ t = .obj g.objects.size := by
  have hS := h.sound.graph
  have hok := h.sound.tasks task (List.mem_cons_self ..)
  obtain ⟨w, r, k, c, nm, as, p, hlater, hnew, hself⟩ := hn
  rcases node_step hS hok hp hlater with hlabel |
    ⟨c', s, receiver, args, method, m, b, hb, rfl, rfl, hq⟩
  · have halloc := Labels.Allocates.of_grows hS (extends_of_perform hS hok hp).grows hlabel hnew hself
    have hisNew : (Expr.call (some (.const c)) nm as p).isNew = true := by simp [Expr.isNew, hnew]
    have hseed : L.IsSeed n := ⟨w, r, k, _, hlabel, hisNew⟩
    cases hgets with
    | has ht =>
        rcases type_of_seed hS hok (by rw [hp]) (h.seeded.tasks task (List.mem_cons_self ..)) hseed
          ht with hold | rfl
        · exact .inl ⟨halloc, .has hold⟩
        · exact .inl ⟨halloc, .waits (List.mem_cons_self ..)⟩
    | waits hmem =>
        rcases List.mem_append.mp hmem with hmem | hmem
        · rcases Graph.brings_perform hS hok hp _ hmem with ⟨w', e, n', t', rfl, heq, hgives⟩ |
            ⟨hnone, -⟩
          · cases heq
            obtain ⟨⟨r', k', hvisited⟩, -⟩ := hok
            rw [hlabel] at hvisited
            cases hvisited
            cases hgives with
            | prim _ hnot =>
                rw [hisNew] at hnot
                cases hnot
            | own hi hname =>
                obtain ⟨w₁, r₁, k₁, c₁, nm₁, as₁, p₁, hlabel₁, -, hforeign⟩ := halloc
                rw [hlabel] at hlabel₁
                cases hlabel₁
                exact (hforeign _ hi hname).elim
            | clone hlookup =>
                obtain ⟨o, ho, -⟩ := hS.entries (e := .klass _ _) (Table.mem_of_lookup hlookup)
                rw [(Graph.cloneObject_spec ho).1]
                exact .inr ⟨halloc, ⟨_, _, rfl⟩, rfl⟩
          · cases hnone
        · exact .inl ⟨halloc, .waits (List.mem_cons_of_mem _ hmem)⟩
  · -- Nothing has happened to the body of a new instance.
    have hge := (Expr.stop_range hq).1
    cases hgets with
    | has ht =>
        have hturn : n ∈ turns ts := by
          rw [hb.tasks]
          refine List.mem_append_left _ ?_
          exact List.mem_map.mpr ⟨_, hq, rfl⟩
        rcases (turns_perform hS hok hp).2 n hturn with hin | ⟨-, hnone⟩
        · rw [hb.task_eq] at hin
          cases hin
        · rw [hnone] at ht
          cases ht
    | waits hmem =>
        rcases List.mem_append.mp hmem with hmem | hmem
        · rw [hb.tasks] at hmem
          simp at hmem
        · obtain ⟨⟨w', r', k', e', hl'⟩, -⟩ := h.sound.tasks _ (List.mem_cons_of_mem _ hmem)
          exact absurd (hS.bound hl') (Nat.not_lt.mpr hge)

/-- No object type that a construction has is new. -/
theorem step : Separate (L.performed g task) (g', ts ++ rest) := by
  have hS := h.sound.graph
  have hok := h.sound.tasks task (List.mem_cons_self ..)
  have hnew : ∀ {n : NodeId}, Graph.Gets (g, task :: rest) n (.obj g.objects.size) → False := by
    intro n hn
    have hvalid : (Ty.obj g.objects.size).Valid g := by
      cases hn with
      | has ht => exact (hS.typed ht).2.1
      | waits hmem => exact (h.sound.tasks _ hmem).2
    obtain ⟨o, ho⟩ := hvalid.1 _ (List.mem_singleton_self _)
    exact Nat.lt_irrefl _ (Array.getElem?_eq_some_iff.mp ho).1
  refine ⟨(h.sound.step hp).2, seeded_step hS hok hp h.seeded fun t ht =>
    h.sound.tasks t (List.mem_cons_of_mem _ ht), fun n t hn ht => ?_, fun n m i hn hm hni hmi => ?_⟩
  · rcases h.gets_step hp hn ht with ⟨hn, ht⟩ | ⟨-, -, rfl⟩
    · exact h.object n t hn ht
    · exact ⟨_, rfl⟩
  · rcases h.gets_step hp hn hni with ⟨hn, hni⟩ | ⟨-, ⟨w, e, rfl⟩, hi⟩ <;>
      rcases h.gets_step hp hm hmi with ⟨hm, hmi⟩ | ⟨-, ⟨w', e', htask⟩, hi'⟩
    · exact h.apart n m i hn hm hni hmi
    · cases hi'
      exact (hnew hni).elim
    · cases hi
      exact (hnew hmi).elim
    · cases htask
      rfl

end Separate

/-- No cell of a program has a type before it is walked over. -/
theorem Separate.loaded (tree : Expr) :
    Separate (Labels.loaded tree) (Graph.loaded tree, [.visit 0 tree rootOf]) := by
  have hnone : ∀ {n : NodeId} {t : Ty}, (Labels.loaded tree).Allocates (Graph.loaded tree) n →
      ¬ Graph.Gets (Graph.loaded tree, [.visit 0 tree rootOf]) n t := by
    rintro n t ⟨w, r, k, c, nm, as, p, hn, -, -⟩ hgets
    cases hgets with
    | has ht =>
        rcases label_loaded hn with ⟨heq, -⟩ | ⟨q, hq, rfl, -⟩
        · cases heq
        · cases (type_loaded_of_le tree (Expr.stop_range hq).1).symm.trans ht
    | waits hmem => cases List.mem_singleton.mp hmem
  exact ⟨.loaded tree, seeded_loaded tree, fun n t hn ht => (hnone hn ht).elim,
    fun n m i hn _ hi _ => (hnone hn hi).elim⟩

/-! ## Runs -/

/-- What is known of the object types in the course of a run over a program. -/
structure Sited (tree : Expr) (L : Labels) (c : Graph.Config) : Prop where
  cloning : Graph.Cloning L c
  separate : Separate L c
  outlined : Outlined L c.1
  root : L rootOf = some (.node 0 rootOf none tree)

namespace Sited

theorem drop (h : Sited tree L (g, task :: rest)) : Sited tree L (g, rest) := by
  have hmem : ∀ t ∈ rest, t ∈ task :: rest := fun t ht => List.mem_cons_of_mem _ ht
  have hsound : Sound.Config L (g, rest) :=
    ⟨h.cloning.sound.graph, fun t ht => h.cloning.sound.tasks t (hmem t ht)⟩
  have hgets : ∀ {n : NodeId} {t : Ty}, Graph.Gets (g, rest) n t →
      Graph.Gets (g, task :: rest) n t := by
    intro n t hn
    cases hn with
    | has ht => exact .has ht
    | waits ht => exact .waits (hmem _ ht)
  refine ⟨⟨hsound, h.cloning.prototypes, fun i hi => h.cloning.clones i (hi.mono rfl hmem)⟩, ?_,
    h.outlined, h.root⟩
  exact ⟨hsound, ⟨h.separate.seeded.edge, fun t ht => h.separate.seeded.tasks t (hmem t ht)⟩,
    fun n t hn ht => h.separate.object n t hn (hgets ht),
    fun n m i hn hm hni hmi => h.separate.apart n m i hn hm (hgets hni) (hgets hmi)⟩

theorem step (h : Sited tree L (g, task :: rest)) (hp : g.perform task = (g', .ok ts)) :
    Sited tree (L.performed g task) (g', ts ++ rest) := by
  have hS := h.cloning.sound.graph
  have hok := h.cloning.sound.tasks task (List.mem_cons_self ..)
  exact ⟨h.cloning.step hp, h.separate.step hp, outlined_step hS hok hp h.outlined,
    (extends_of_perform hS hok hp).keeps hS h.root⟩

/-- A task that fails leaves the object types alone. -/
theorem fault {f : Fault} (h : Sited tree L (g, task :: rest))
    (hp : g.perform task = (g', .error f)) : Sited tree L (g', rest) := by
  have hok := h.cloning.sound.tasks task (List.mem_cons_self ..)
  rw [(breaks_of_error h.cloning.sound.graph hok hp).1]
  exact h.drop

theorem loaded (tree : Expr) :
    Sited tree (Labels.loaded tree) (Graph.loaded tree, [.visit 0 tree rootOf]) :=
  ⟨.loaded tree, .loaded tree, outlined_loaded tree, Labels.loaded_root tree⟩

end Sited

/-- In every state of a run there is a labelling with all that is known of the object types. -/
theorem sited_inferTypes (budget : Nat) (tree : Expr) :
    ∃ L waiting, Sited tree L ((inferTypes budget tree).1.graph, waiting) := by
  rw [inferTypes_graph]
  refine Graph.exists_of_run (Sited tree) (fun _ _ _ _ h => h.drop) (fun _ _ _ _ _ _ h hp => ?_)
    (fun _ _ _ _ _ _ h hp => ?_) budget _ _ _ (.loaded tree)
  · exact ⟨_, h.step hp⟩
  · exact ⟨_, h.fault hp⟩

/-- A construction with a type is labelled as one. -/
theorem Graph.Allocates.label (hS : Sound L g) (hO : Outlined L g)
    (hroot : L rootOf = some (.node 0 rootOf none tree)) {n : NodeId} {t : Ty}
    (h : g.Allocates tree n) (ht : g.type n = some t) : L.Allocates g n := by
  obtain ⟨w, c, nm, as, p, hwalks, hnew, hself⟩ := h
  obtain ⟨r, k, hl⟩ := hwalks.label hS hO hroot (hS.typed ht).1
  exact ⟨w, r, k, c, nm, as, p, hl, hnew, hself⟩

/-- However far the inference gets, and whether it fails or not: the prototype of a class has no
fields and is in no type, neither of a cell nor of a parameter of an instance; the construction of
an object, unless in a method that an object type of its class has, has an object type of its own;
and each object type that is in a type has the method table of the prototype of its class. -/
theorem inferTypes_allocates (budget : Nat) (tree : Expr) :
    let g := (inferTypes budget tree).1.graph
    (∀ name p, (name, p) ∈ g.classes → ∃ q, g.objects[p]? = some q ∧ q.fields = [] ∧
      (∀ n t, g.type n = some t → .obj p ∉ t.members) ∧
      ∀ (i : InstanceId) x, g.instances[i]? = some x → ∀ t, some t ∈ x.params →
        .obj p ∉ t.members) ∧
    (∀ n t, g.Allocates tree n → g.type n = some t → ∃ i, t = .obj i ∧
      ∀ m, m ≠ n → g.Allocates tree m → g.type m ≠ some t) ∧
    (∀ n t i, g.type n = some t → .obj i ∈ t.members → ∃ o p q, g.objects[i]? = some o ∧
      g.classes.lookup o.name = some p ∧ g.objects[p]? = some q ∧ o.methods = q.methods) := by
  intro g
  obtain ⟨L, waiting, h⟩ : ∃ L waiting, Sited tree L (g, waiting) := sited_inferTypes budget tree
  have hS := h.cloning.sound.graph
  have hsites : ∀ {n : NodeId} {t : Ty}, g.Allocates tree n → g.type n = some t → L.Allocates g n :=
    fun hn ht => hn.label hS h.outlined h.root ht
  refine ⟨fun name p hk => ?_, fun n t hn ht => ?_, fun n t i ht hi => ?_⟩
  · obtain ⟨q, hq, -⟩ := hS.entries (e := .klass name p) hk
    refine ⟨q, hq, List.eq_nil_iff_forall_not_mem.mpr fun f hf => ?_, fun n t ht hmem => ?_,
      fun i x hx t ht hmem => ?_⟩
    · exact h.cloning.prototypes.fieldless name p f.1 f.2 hk ⟨q, hq, hf⟩
    · exact (h.cloning.clones p (.typed ht hmem)).proper name hk
    · exact (h.cloning.clones p (.param hx ht hmem)).proper name hk
  · obtain ⟨i, rfl⟩ := h.separate.object n t (hsites hn ht) (.has ht)
    refine ⟨i, rfl, fun m hne hm hmt => hne ?_⟩
    exact h.separate.apart m n i (hsites hm hmt) (hsites hn ht) (.has hmt) (.has ht)
  · exact (h.cloning.clones i (.typed ht hi)).methods

/-- The construction of a box, which is given nothing. -/
def boxMade : Expr := .call (some (.const ⟨"Box", 0⟩)) ⟨"new", 0⟩ [] true

/-- Two objects of one class are made. -/
def twoBoxes : Expr := .block [.klass ⟨"Box", 0⟩ (.block []), boxMade, boxMade]

/-- Neither object type is that of the class, and they are not the same. -/
theorem inferTypes_allocates_twoBoxes :
    let g := (inferTypes 100 twoBoxes).1.graph
    g.Allocates twoBoxes (rootOf + 3) ∧ g.Allocates twoBoxes (rootOf + 5) ∧
      ∃ i j p, g.type (rootOf + 3) = some (.obj i) ∧ g.type (rootOf + 5) = some (.obj j) ∧
        ("Box", p) ∈ g.classes ∧ i ≠ j ∧ p ≠ i ∧ p ≠ j := by
  intro g
  obtain ⟨hprototypes, hapart, -⟩ := inferTypes_allocates 100 twoBoxes
  have hnodes : ∀ r, (r + 3, boxMade) ∈ twoBoxes.nodes r ∧ (r + 5, boxMade) ∈ twoBoxes.nodes r := by
    intro r
    simp [twoBoxes, boxMade, Expr.nodes, Expr.nodesList, Expr.nodesOption, Expr.size, Expr.sizeList,
      Expr.sizeOption]
  have hself : (g.walk 0).self = none := by decide +kernel
  have htyped : (g.type (rootOf + 3)).isSome = true ∧ (g.type (rootOf + 5)).isSome = true ∧
      (g.classes.lookup "Box").isSome = true := by decide +kernel
  have hmade : ∀ n, (n, boxMade) ∈ twoBoxes.nodes rootOf → g.Allocates twoBoxes n := by
    refine fun n hn => ⟨0, ⟨"Box", 0⟩, ⟨"new", 0⟩, [], true, .main hn, rfl, fun i hi => ?_⟩
    rw [hself] at hi
    cases hi
  have hfirst := hmade _ (hnodes rootOf).1
  have hsecond := hmade _ (hnodes rootOf).2
  obtain ⟨t, ht⟩ := Option.isSome_iff_exists.mp htyped.1
  obtain ⟨u, hu⟩ := Option.isSome_iff_exists.mp htyped.2.1
  obtain ⟨p, hp⟩ := Option.isSome_iff_exists.mp htyped.2.2
  obtain ⟨i, rfl, hne⟩ := hapart _ t hfirst ht
  obtain ⟨j, rfl, -⟩ := hapart _ u hsecond hu
  have hmem := Table.mem_of_lookup hp
  obtain ⟨q, -, -, hunused, -⟩ := hprototypes "Box" p hmem
  refine ⟨hfirst, hsecond, i, j, p, ht, hu, hmem, ?_, ?_, ?_⟩
  · rintro rfl
    exact hne _ (by simp) hsecond hu
  · rintro rfl
    exact hunused _ _ ht (List.mem_singleton_self _)
  · rintro rfl
    exact hunused _ _ hu (List.mem_singleton_self _)

end TypeFlow
