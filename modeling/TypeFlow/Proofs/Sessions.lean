import TypeFlow.Proofs.Caching
import TypeFlow.Proofs.Sparing

/-! # Sessions keep the instances of methods

A session walks over programs, and its user changes types and resolves calls again in between,
though not in the bodies of methods, which wait to be copied. Through all of this, and also when
steps fail, each method keeps its instances, and gets a new one only for concrete types that it has
none for. -/

namespace TypeFlow

variable {g g' : Graph}

/-! ## The instances of methods -/

namespace Graph

/-- An instance that a method is known to have is an instance of the method, for one concrete type
for each of its parameters. -/
structure KeyFits (g : Graph) (n : NodeId) (m : Method) (e : List (Option Ty) × InstanceId) :
    Prop where
  arity : e.1.length = m.params.length
  concrete : ∀ c ∈ e.1, ∃ a, c = some (.one a)
  inst : ∃ x, g.instances[e.2]? = some x ∧ x.method = n ∧ x.params = e.1

/-- All methods are known to have such instances only, and the parameters of the methods themselves
have no types. -/
structure WellKeyed (g : Graph) : Prop where
  untyped : ∀ n m, g.method? n = some m → ∀ p ∈ m.formals, p.type = none
  fits : ∀ n m, g.method? n = some m → ∀ e ∈ m.instances, g.KeyFits n m e

theorem KeyFits.grow {n : NodeId} {m m' : Method} {e : List (Option Ty) × InstanceId}
    (h : g.KeyFits n m e) (hparams : m'.params = m.params)
    (hg : Grows g g') : g'.KeyFits n m' e := by
  obtain ⟨x, hx, hmethod⟩ := h.inst
  exact ⟨hparams ▸ h.arity, h.concrete, x, hg.inst hx, hmethod⟩

theorem WellKeyed.adds (h : g.WellKeyed) (ha : Adds g g') : g'.WellKeyed := by
  refine ⟨fun n m hm => ?_, fun n m hm e he => ?_⟩ <;> rw [ha.method n] at hm
  · exact h.untyped n m hm
  · exact (h.fits n m hm e he).grow rfl ha.grows

/-- The parameters of a method of a new tree have no types, and the method has no instances. -/
theorem method_of_plant {e : Expr} {n : NodeId} {m : Method}
    (h : (g.plant e).1.method? n = some m) :
    g.method? n = some m ∨ (∀ p ∈ m.formals, p.type = none) ∧ m.instances = [] := by
  obtain ⟨c, hc, hr⟩ := method?_eq_some_iff.mp h
  by_cases hlt : n < g.cells.size
  · exact .inl (method?_eq_some_iff.mpr ⟨c, (Array.getElem?_append_left hlt).symm.trans hc, hr⟩)
  · right
    simp only [plant, Array.getElem?_append_right (Nat.le_of_not_lt hlt), List.getElem?_toArray,
      List.getElem?_map, Option.map_eq_some_iff] at hc
    obtain ⟨q, -, rfl⟩ := hc
    have hnew : (Role.method m).isPristine = true := hr ▸ (freshRole_isPristine q.1 q.2).1
    simpa [Role.isPristine] using hnew

theorem WellKeyed.plant (h : g.WellKeyed) (e : Expr) : (g.plant e).1.WellKeyed := by
  refine ⟨fun n m hm => ?_, fun n m hm x hx => ?_⟩ <;>
    rcases method_of_plant hm with hold | ⟨huntyped, hnone⟩
  · exact h.untyped n m hold
  · exact huntyped
  · exact (h.fits n m hold x hx).grow rfl (grows_plant g e)
  · rw [hnone] at hx
    cases hx

theorem WellKeyed.gains (h : g.WellKeyed) {x : Instance} {m : Method} {b : Expr} {t : NodeId}
    (hx : Gains g x m b t g') : g'.WellKeyed := by
  refine ⟨fun n m' hm' => ?_, fun n m' hm' e he => ?_⟩ <;> rw [hx.method n] at hm' <;>
    split at hm'
  · cases hm'
    exact h.untyped _ m hx.found
  · exact (h.plant b).untyped n m' hm'
  · next heq =>
      subst heq
      cases hm'
      rcases List.mem_append.mp he with he | he
      · exact (h.fits _ m hx.found e he).grow rfl hx.grows_of
      · obtain rfl := List.mem_singleton.mp he
        exact ⟨hx.arity, hx.concrete, x, by rw [hx.inst, Array.getElem?_push_size], rfl, rfl⟩
  · exact ((h.plant b).fits n m' hm' e he).grow rfl hx.grows

theorem WellKeyed.changes (h : g.WellKeyed) (hc : Changes g g') : g'.WellKeyed := by
  rcases hc with ha | ⟨x, m, b, t, hx⟩
  · exact h.adds ha
  · exact h.gains hx

/-- The instances that a method is known to have later. At most one is new, and comes last. A lookup
among the instances that there were did not find the types that it is for; and if equality is
symmetric at that moment, these types equal those of no other instance. -/
def KnowsMore (g g' : Graph) (n : NodeId) : Prop :=
  g'.instancesOf n = g.instancesOf n ∨ ∃ key,
    g'.instancesOf n = g.instancesOf n ++ [(key, g.instances.size)] ∧
      ∀ e ∈ g.instancesOf n, g.heap.sameRow e.1 key = false ∧
        ((∀ s t, g.heap.same s t = true → g.heap.same t s = true) →
          g.heap.sameRow key e.1 = false)

theorem instancesOf_of_method {n : NodeId} (h : g'.method? n = g.method? n) :
    g'.instancesOf n = g.instancesOf n := by
  rw [instancesOf, h, instancesOf]

theorem instancesOf_plant (g : Graph) (e : Expr) (n : NodeId) :
    (g.plant e).1.instancesOf n = g.instancesOf n := by
  cases hm : (g.plant e).1.method? n with
  | none =>
      refine instancesOf_of_method (hm.trans ?_)
      cases hold : g.method? n with
      | none => rfl
      | some m => rw [method?_plant hold] at hm; cases hm
  | some m =>
      rcases method_of_plant hm with hold | ⟨-, hnone⟩
      · exact instancesOf_of_method (hm.trans hold.symm)
      · refine Eq.trans (b := []) (by simp [instancesOf, hm, hnone]) ?_
        refine (List.eq_nil_iff_forall_not_mem.mpr fun x hx => ?_).symm
        obtain ⟨m', hm', hx⟩ := has_cached.mp (mem_instancesOf.mp hx)
        rw [method?_plant hm'] at hm
        cases hm
        rw [hnone] at hx
        cases hx

theorem Changes.knowsMore (h : Changes g g') (n : NodeId) : KnowsMore g g' n := by
  rcases h with ha | ⟨x, m, b, t, hx⟩
  · exact .inl (instancesOf_of_method (ha.method n))
  · by_cases hn : n = x.method
    · subst hn
      have hold : g.instancesOf x.method = m.instances := by simp [instancesOf, hx.found]
      refine .inr ⟨x.params, ?_, ?_⟩
      · simp [instancesOf, hx.method, hx.found]
      · intro e he
        have hne := hx.fresh e (hold ▸ he)
        refine ⟨hne, fun hsymm => Bool.eq_false_iff.mpr fun hsame => ?_⟩
        rw [Heap.sameRow_symm hsymm hsame] at hne
        cases hne
    · left
      rw [← instancesOf_plant g b n]
      exact instancesOf_of_method (by rw [hx.method n, if_neg hn])

/-- What one graph knew of the parameters and the instances of methods another one knows as well. -/
structure KeepsInstances (g g' : Graph) : Prop where
  formals : ∀ n m, g.method? n = some m → ∃ m', g'.method? n = some m' ∧ m'.formals = m.formals
  entries : ∀ n, g.instancesOf n <+: g'.instancesOf n
  inst : ∀ (i : InstanceId) x, g.instances[i]? = some x → g'.instances[i]? = some x

theorem KeepsInstances.of_grows (hg : Grows g g') (h : ∀ n, g.instancesOf n <+: g'.instancesOf n) :
    KeepsInstances g g' := by
  refine ⟨fun n m hm => ?_, h, fun _ _ hx => hg.inst hx⟩
  obtain ⟨c, hc, hr⟩ := blank_of_method hm
  obtain ⟨m', hm', hblank⟩ := method_of_blank (hg.blank hc) hr
  have hformals : m'.blank.formals = m.blank.formals := by rw [hblank]
  exact ⟨m', hm', hformals⟩

theorem KeepsInstances.trans {g'' : Graph} (h : KeepsInstances g g')
    (h' : KeepsInstances g' g'') : KeepsInstances g g'' := by
  refine ⟨fun n m hm => ?_, fun n => (h.entries n).trans (h'.entries n),
    fun i x hx => h'.inst i x (h.inst i x hx)⟩
  obtain ⟨m₁, hm₁, hformals⟩ := h.formals n m hm
  obtain ⟨m₂, hm₂, hformals'⟩ := h'.formals n m₁ hm₁
  exact ⟨m₂, hm₂, hformals'.trans hformals⟩

theorem KnowsMore.keeps {n : NodeId} (h : KnowsMore g g' n) :
    g.instancesOf n <+: g'.instancesOf n := by
  rcases h with heq | ⟨key, heq, -⟩
  · exact ⟨[], by rw [List.append_nil, heq]⟩
  · exact ⟨_, heq.symm⟩

theorem adds_addWalk (g : Graph) : Adds g (g.addWalk {}).1 :=
  adds_of_cells (grows_addWalk g {}) rfl rfl

theorem keyFits_iff {n : NodeId} {m : Method} {e : List (Option Ty) × InstanceId} :
    g.KeyFits n m e ↔ e.1.length = m.params.length ∧
      (∀ c ∈ e.1, (c.bind Ty.atom?).isSome = true) ∧
      (g.instances[e.2]?.any fun x => x.method = n ∧ x.params = e.1) = true := by
  have hconcrete : ∀ c : Option Ty, (∃ a, c = some (.one a)) ↔ (c.bind Ty.atom?).isSome = true := by
    intro c
    rcases c with _ | _ | _ <;> simp [Ty.atom?]
  simp only [← hconcrete, Option.any_eq_true, decide_eq_true_eq]
  exact ⟨fun h => ⟨h.arity, h.concrete, h.inst⟩, fun h => ⟨h.1, h.2.1, h.2.2⟩⟩

instance (n : NodeId) (m : Method) (e : List (Option Ty) × InstanceId) :
    Decidable (g.KeyFits n m e) :=
  decidable_of_iff _ keyFits_iff.symm

/-- The built-in methods have their signatures. -/
theorem wellKeyed_withBuiltins : withBuiltins.WellKeyed := by
  have hall : ∀ n < withBuiltins.cells.size, ∀ m ∈ withBuiltins.method? n,
      (∀ p ∈ m.formals, p.type = none) ∧ ∀ e ∈ m.instances, withBuiltins.KeyFits n m e := by
    decide +kernel
  have hlt : ∀ {n m}, withBuiltins.method? n = some m → n < withBuiltins.cells.size := by
    intro n m hm
    obtain ⟨c, hc, -⟩ := method?_eq_some_iff.mp hm
    exact (Array.getElem?_eq_some_iff.mp hc).1
  exact ⟨fun n m hm => (hall n (hlt hm) m hm).1, fun n m hm => (hall n (hlt hm) m hm).2⟩

theorem wellKeyed_start : Session.start.graph.WellKeyed := by
  rw [start_eq]
  exact wellKeyed_withBuiltins.adds (adds_addWalk _)

end Graph

/-! ## Sessions -/

namespace Session

/-- A node of a tree of the session, outside the bodies of the methods of the tree. -/
def Aims (s : Session) (n : NodeId) : Prop :=
  ∃ e root, (e, root) ∈ s.trees ∧ (∃ x, (n, x) ∈ e.nodes root) ∧
    ∀ m nm ps b, (m, .method nm ps b) ∈ e.nodes root → ∀ x, (n, x) ∉ b.nodes (m + 1)

/-- What a user may ask for: changes from outside keep away from the bodies of methods. -/
def Allows (s : Session) : SessionStep → Prop
  | .visit _ | .fresh _ => True
  | .recalc n => s.Aims n
  | .addType n t | .setType n t => s.Aims n ∧ t.WellFormed

/-- The sessions that steps lead to, whether they fail or not. A type that is given from outside
may be a new clone of a class. -/
inductive Reached : Session → Prop where
  | start : Reached Session.start
  | step {s : Session} {a : SessionStep} (h : Reached s) (ha : s.Allows a) (budget : Nat) :
      Reached (s.step budget a).1
  | typeOf {s s' : Session} {source : TypeSource} {t : Ty} (h : Reached s)
      (ht : s.typeOf? source = some (s', t)) : Reached s'
  | clearNotices {s : Session} (h : Reached s) : Reached s.clearNotices

variable {s s' : Session}

/-- What a step does before it runs tasks, and the tasks that it runs. -/
def begin (s : Session) : SessionStep → Session × List Task
  | .visit tree => ((s.plant tree).1, [.visit s.walk tree s.graph.cells.size])
  | .fresh tree =>
      ({ (s.plant tree).1 with graph := ((s.graph.plant tree).1.addWalk {}).1 },
        [.visit (s.graph.plant tree).1.walks.size tree s.graph.cells.size])
  | .recalc n => (s, [.resolve n])
  | .addType n t => (s, [.widen n t])
  | .setType n t => (s, [.store n t])

theorem step_eq (s : Session) (budget : Nat) (a : SessionStep) :
    s.step budget a = (s.begin a).1.run budget (s.begin a).2 := by
  cases a <;> rfl

theorem step_graph (s : Session) (budget : Nat) (a : SessionStep) :
    (s.step budget a).1.graph = (Graph.run budget (s.begin a).1.graph (s.begin a).2).1 := by
  rw [step_eq]
  rfl

theorem step_trees (s : Session) (budget : Nat) (a : SessionStep) :
    (s.step budget a).1.trees = (s.begin a).1.trees := by
  rw [step_eq]
  rfl

/-- A session in which nothing was recorded in the bodies of methods. -/
structure Orderly (s : Session) : Prop where
  tidy : s.graph.Tidy
  keyed : s.graph.WellKeyed
  trees : ∀ x ∈ s.trees, s.graph.Stands x.2 x.1

/-- What a user may aim at is outside of all bodies. -/
theorem Orderly.live (h : s.Orderly) {n : Nat} (hn : s.Aims n) : s.graph.Live n := by
  obtain ⟨e, root, htree, ⟨x, hnode⟩, hout⟩ := hn
  have hstands : s.graph.Stands root e := h.trees _ htree
  obtain ⟨hlow, hhigh⟩ := Expr.node_range hnode
  have hend : n < root + e.size := Nat.lt_of_lt_of_le (Nat.lt_add_of_pos_right x.size_pos) hhigh
  refine hstands.live h.tidy.laid hlow hend fun m nm ps b hm => ?_
  by_cases hbefore : n < m + 1
  · exact .inl hbefore
  · refine .inr (Nat.le_of_not_lt fun hlt => ?_)
    obtain ⟨⟨_, y⟩, hy, rfl⟩ := Expr.exists_node (e := b) (Nat.le_of_not_lt hbefore) hlt
    exact hout m nm ps b hm y hy

theorem Orderly.start : Orderly Session.start where
  tidy := tidy_start
  keyed := Graph.wellKeyed_start
  trees x hx := by simp [start_eq] at hx

/-- Before its tasks run, a step has done no more than plant its tree. -/
theorem Orderly.begin (h : s.Orderly) {a : SessionStep} (ha : s.Allows a) :
    (s.begin a).1.Orderly ∧ ∀ t ∈ (s.begin a).2, t.Tidy (s.begin a).1.graph := by
  have hplant : ∀ tree, (s.plant tree).1.Orderly := by
    intro tree
    refine ⟨h.tidy.plant tree, h.keyed.plant tree, fun x hx => ?_⟩
    rcases Array.mem_push.mp hx with hx | rfl
    · exact (h.trees x hx).grow (Graph.grows_plant s.graph tree)
    · exact Graph.stands_plant h.tidy.laid tree
  cases a with
  | visit tree =>
      exact ⟨hplant tree, List.forall_mem_singleton.mpr (h.tidy.visit_plant _ tree)⟩
  | fresh tree =>
      have ha := Graph.adds_addWalk (s.graph.plant tree).1
      have ht := (hplant tree).tidy.addWalk
      refine ⟨⟨ht, (hplant tree).keyed.adds ha, fun x hx => ?_⟩, List.forall_mem_singleton.mpr ?_⟩
      · exact ((hplant tree).trees x hx).grow ha.grows
      · exact (h.tidy.visit_plant _ tree).grow ha.grows ht.laid
  | recalc n => exact ⟨h, List.forall_mem_singleton.mpr (h.live ha)⟩
  | addType n t => exact ⟨h, List.forall_mem_singleton.mpr ⟨h.live ha.1, ha.2⟩⟩
  | setType n t => exact ⟨h, List.forall_mem_singleton.mpr ⟨h.live ha.1, ha.2⟩⟩

/-- Each task of a step that is allowed adds to the graph, or makes one instance. -/
theorem Orderly.changes (h : s.Orderly) {a : SessionStep} (ha : s.Allows a) (budget : Nat) :
    Graph.Changes (s.step budget a).1.graph (s.step (budget + 1) a).1.graph := by
  obtain ⟨hbegin, htasks⟩ := h.begin ha
  rw [step_graph, step_graph]
  exact (Graph.Tidy.Config.run_succ ⟨hbegin.tidy, htasks⟩ budget).1

theorem Orderly.step (h : s.Orderly) {a : SessionStep} (ha : s.Allows a) (budget : Nat) :
    (s.step budget a).1.Orderly := by
  obtain ⟨hbegin, htasks⟩ := h.begin ha
  have hconfig : Graph.Tidy.Config ((s.begin a).1.graph, (s.begin a).2) := ⟨hbegin.tidy, htasks⟩
  have hrun := hconfig.run_preserves
    (P := fun g => g.WellKeyed ∧ ∀ x ∈ (s.begin a).1.trees, g.Stands x.2 x.1)
    ⟨hbegin.keyed, hbegin.trees⟩ (fun g g' _ hg hc =>
      ⟨hg.1.changes hc, fun x hx => (hg.2 x hx).grow hc.grows⟩) budget
  refine ⟨?_, ?_, ?_⟩
  · rw [step_graph]
    exact hconfig.run budget
  · rw [step_graph]
    exact hrun.1
  · rw [step_graph, step_trees]
    exact hrun.2

theorem Reached.orderly (h : s.Reached) : s.Orderly := by
  induction h with
  | start => exact .start
  | step h ha budget ih => exact ih.step ha budget
  | @typeOf s s' source t h ht ih =>
      cases source with
      | primitive name =>
          cases ht
          exact ih
      | cloneOf name =>
          obtain ⟨i, -, hi⟩ := Option.map_eq_some_iff.mp ht
          cases hi
          obtain ⟨ha, htidy⟩ := tidy_cloneObject ih.tidy i
          exact ⟨htidy, ih.keyed.adds ha, fun x hx => (ih.trees x hx).grow ha.grows⟩
  | @clearNotices s h ih =>
      have hg : Graph.Grows s.graph { s.graph with notices := #[] } :=
        Graph.grows_append (fun _ _ => rfl) rfl id id
      have ha := Graph.adds_of_cells hg rfl rfl
      refine ⟨ih.tidy.adds ha fun {e} he => ?_, ih.keyed.adds ha, fun x hx => (ih.trees x hx).grow hg⟩
      cases e <;> exact .inl he

theorem begin_grows (s : Session) (a : SessionStep) :
    Graph.Grows s.graph (s.begin a).1.graph ∧
      ∀ n, (s.begin a).1.graph.instancesOf n = s.graph.instancesOf n := by
  cases a with
  | visit tree => exact ⟨Graph.grows_plant s.graph tree, Graph.instancesOf_plant s.graph tree⟩
  | fresh tree =>
      have ha := Graph.adds_addWalk (s.graph.plant tree).1
      exact ⟨(Graph.grows_plant s.graph tree).trans ha.grows, fun n =>
        (Graph.instancesOf_of_method (ha.method n)).trans (Graph.instancesOf_plant s.graph tree n)⟩
  | recalc | addType | setType => exact ⟨.refl _, fun _ => rfl⟩

/-- What the methods of a session have is kept by all that is done to it. The parameters of a method
have no types, and the instances that it has are for one concrete type for each of them. A step
starts with the instances that there are. Each task of it makes at most one new instance, for types
that a lookup among those that the method has does not find, the types that they are for on the
left. A step that fails keeps them all the same. -/
theorem Reached.keeps_instances (h : s.Reached) :
    s.graph.WellKeyed ∧ ∀ a, s.Allows a →
      (∀ n, (s.step 0 a).1.graph.instancesOf n = s.graph.instancesOf n) ∧
      ∀ budget, Graph.KeepsInstances s.graph (s.step budget a).1.graph ∧
        ∀ n, Graph.KnowsMore (s.step budget a).1.graph (s.step (budget + 1) a).1.graph n := by
  refine ⟨h.orderly.keyed, fun a ha => ?_⟩
  obtain ⟨hgrows, hbegin⟩ := s.begin_grows a
  have hzero : (s.step 0 a).1.graph = (s.begin a).1.graph := by rw [step_graph, Graph.run_zero]
  have hmore := fun budget => (h.orderly.changes ha budget).knowsMore
  refine ⟨fun n => by rw [hzero, hbegin], fun budget => ⟨?_, hmore budget⟩⟩
  induction budget with
  | zero =>
      rw [hzero]
      exact .of_grows hgrows fun n => by rw [hbegin]
  | succ budget ih =>
      exact ih.trans (.of_grows (h.orderly.changes ha budget).grows fun n => (hmore budget n).keeps)

theorem mem_trees_visit (s : Session) (budget : Nat) (tree : Expr) :
    (tree, s.graph.cells.size) ∈ (s.step budget (.visit tree)).1.trees := by
  rw [step_trees]
  exact Array.mem_push_self

/-- A program that calls a method with an integer. -/
def echo : Expr :=
  let name (text : String) : Token := ⟨text, 0⟩
  .block [
    .method (name "id") [name "x"] (.place ⟨.localVar, name "x"⟩),
    .call none (name "id") [.literal ⟨.int, .int 1, 0⟩] true]

/-- The integer becomes a float, and the method has two instances. -/
theorem keeps_instances_retyped :
    let s := (Session.start.step 60 (.visit echo)).1
    let a := SessionStep.setType (rootOf + 4) (.prim "Float")
    (s.Reached ∧ s.Allows a) ∧
      ((s.graph.instancesOf (rootOf + 1)).map (·.1) = [[some (.prim "Int")]] ∧
        ((s.step 60 a).1.graph.instancesOf (rootOf + 1)).map (·.1) =
          [[some (.prim "Int")], [some (.prim "Float")]]) ∧
      s.graph.WellKeyed ∧ ∀ a, s.Allows a →
        (∀ n, (s.step 0 a).1.graph.instancesOf n = s.graph.instancesOf n) ∧
        ∀ budget, Graph.KeepsInstances s.graph (s.step budget a).1.graph ∧
          ∀ n, Graph.KnowsMore (s.step budget a).1.graph (s.step (budget + 1) a).1.graph n := by
  intro s a
  have hs : s.Reached := Reached.step (a := .visit echo) .start trivial 60
  refine ⟨⟨hs, ⟨echo, rootOf, mem_trees_visit _ _ _, ⟨.literal ⟨.int, .int 1, 0⟩, ?_⟩, ?_⟩, trivial⟩,
    by decide +kernel, hs.keeps_instances⟩
  · simp [echo, Expr.nodes, Expr.nodesList, Expr.nodesOption, Expr.size, Expr.sizeOption]
  · intro m nm ps b hm x hx
    have hbody : (m, Expr.method nm ps b) =
        (rootOf + 1, .method ⟨"id", 0⟩ [⟨"x", 0⟩] (.place ⟨.localVar, "x", 0⟩)) := by
      simpa [echo, Expr.nodes, Expr.nodesList, Expr.nodesOption] using hm
    cases hbody
    simp [Expr.nodes] at hx

/-- One object holds a filled box and an empty one, and another object the filled box and a second
empty one. The first empty box is filled, and then a method is called with both objects. -/
def lopsided : Expr :=
  let name (text : String) : Token := ⟨text, 0⟩
  let var (text : String) : Place := ⟨.localVar, name text⟩
  let one : Expr := .literal ⟨.int, .int 1, 0⟩
  let box : Expr := .call (some (.const (name "Box"))) (name "new") [] true
  let write (field x : String) : Expr := .assign ⟨.instanceVar, name field⟩ (.place (var x))
  let setter (text : String) : Expr := .method (name text) [name "v"] (.block [write "v" "v"])
  let pair (text : String) : Expr :=
    .method (name text) [name "v", name "w"] (.block [write "x" "v", write "x" "w"])
  let tell (x method : String) (args : List Expr) : Expr :=
    .call (some (.place (var x))) (name method) args true
  let use (x : String) : Expr := .call none (name "use") [.place (var x)] true
  .block [
    .klass (name "Box") (.block [setter "put", setter "fill", pair "hold", pair "keep"]),
    .method (name "use") [name "x"] one,
    .assign (var "a") box, .assign (var "b") box, .assign (var "c") box,
    .assign (var "p") box, .assign (var "q") box,
    tell "a" "put" [one],
    tell "p" "hold" [.place (var "a"), .place (var "b")],
    tell "q" "keep" [.place (var "a"), .place (var "c")],
    tell "b" "fill" [one],
    use "p", use "q"]

theorem run_lopsided :
    (Session.start.step 302 (.visit lopsided)).1.graph.instancesOf (rootOf + 29) =
        [([some (.obj 4)], 50)] ∧
      (Session.start.step (302 + 1) (.visit lopsided)).1.graph.instancesOf (rootOf + 29) =
        [([some (.obj 4)], 50), ([some (.obj 5)], 51)] ∧
      (Session.start.step 302 (.visit lopsided)).1.graph.heap.sameRow
        [some (.obj 5)] [some (.obj 4)] = true := by
  decide +kernel

/-- A new instance may be for types that equal those of an instance that there is, when the new ones
are on the left: the field of the first object has a union of which the members have become equal. -/
theorem gains_lopsided :
    ¬ ∀ s : Session, s.Reached → ∀ a, s.Allows a → ∀ budget n key i,
      (s.step (budget + 1) a).1.graph.instancesOf n =
        (s.step budget a).1.graph.instancesOf n ++ [(key, i)] →
      ∀ e ∈ (s.step budget a).1.graph.instancesOf n,
        (s.step budget a).1.graph.heap.sameRow key e.1 = false := by
  intro h
  obtain ⟨hbefore, hafter, hsame⟩ := run_lopsided
  have hadded : (Session.start.step (302 + 1) (.visit lopsided)).1.graph.instancesOf (rootOf + 29) =
      (Session.start.step 302 (.visit lopsided)).1.graph.instancesOf (rootOf + 29) ++
        [([some (.obj 5)], 51)] := by
    rw [hbefore, hafter]
    rfl
  have hne := h Session.start .start (.visit lopsided) trivial 302 _ _ _ hadded
    ([some (.obj 4)], 50) (by rw [hbefore]; exact List.mem_singleton_self _)
  rw [hsame] at hne
  cases hne

end Session

end TypeFlow
