import TypeFlow.Proofs.Courses
import TypeFlow.Proofs.Telling

/-! # One instance for each row of types

A method gets a new instance only if it has none for equal types of arguments, and it keeps those
that it has. Object types that differed by then may get equal fields later on, and then the method
has two instances for equal types. The instances of built-in methods stay apart, and so do all
instances as long as there are no instance variables. -/

namespace TypeFlow

variable {L : Labels} {g g' : Graph} {task : Task} {ts rest : List Task} {start : Graph.Config}
  {done : List Task} {n : NodeId} {e e' : List (Option Ty) × InstanceId}

namespace Graph

/-- The instances that a method has, each with the types that it is for. -/
def instancesOf (g : Graph) (n : NodeId) : Table (List (Option Ty)) InstanceId :=
  ((g.method? n).map (·.instances)).getD []

theorem mem_instancesOf : e ∈ g.instancesOf n ↔ g.Has (.mark n (.cached e.1 e.2)) := by
  rw [has_cached, instancesOf]
  cases g.method? n <;> simp

/-- The moment at which a method that has the first of two instances gets the second: the types that
they are for are not equal then. -/
structure SetApart (start : Config) (n : NodeId) (e e' : List (Option Ty) × InstanceId)
    (g : Graph) : Prop where
  moment : ∃ done task rest g' ts, Passes start done (g, task :: rest) ∧
    g.perform task = (g', .ok ts) ∧ e' ∈ g'.instancesOf n
  first : e ∈ g.instancesOf n
  second : e' ∉ g.instancesOf n
  unequal : g.heap.sameRow e.1 e'.1 = false

end Graph

/-- Two rows of types are not equal, whichever of them is on the left. -/
def Heap.Unequal (h : Heap) (ts us : List (Option Ty)) : Prop :=
  h.sameRow ts us = false ∧ h.sameRow us ts = false

/-! ## Rows of valid types -/

/-- The object types in a row of types exist. -/
def ValidRow (g : Graph) (ts : List (Option Ty)) : Prop := ∀ t ∈ ts, ∀ x ∈ t, x.Valid g

theorem ValidRow.grow {row : List (Option Ty)} (h : ValidRow g row) (hgrows : Graph.Grows g g') :
    ValidRow g' row := fun t ht x hx => (Extends.of_grows (L := fun _ => none) hgrows).valid (h t ht x hx)

theorem Ty.Valid.below {t : Ty} (ht : t.Valid g) : t.Below g.heap.size := by
  intro i hi
  have hmem : .obj i ∈ t.members := by
    cases t with
    | one a => exact hi
    | union ms key =>
        obtain rfl : key = ms := ht.2.1
        exact hi
  obtain ⟨o, ho⟩ := ht.1 i hmem
  exact (Array.getElem?_eq_some_iff.mp ho).1

theorem Sound.closed_heap (hS : Sound L g) : g.heap.Closed := by
  intro i f hf t ht
  obtain ⟨o, -, hf⟩ : ∃ o, g.objects[i]? = some o ∧
      f ∈ o.fields.map fun f => (f.1, g.type f.2) := by
    simp only [Graph.heap] at hf
    cases ho : g.objects[i]? with
    | none => simp [ho] at hf
    | some o => exact ⟨o, rfl, by simpa [ho] using hf⟩
  obtain ⟨p, -, rfl⟩ := List.mem_map.mp hf
  exact (hS.typed ht).2.1.below

/-! ## Steps -/

section step

variable (hS : Sound L g) (hok : task.OK L g) (hp : g.perform task = (g', .ok ts))
include hS hok hp

/-- A new instance is for types that the inputs of a call had. -/
theorem validRow_of_new (he : e ∈ g'.instancesOf n) (hnew : e ∉ g.instancesOf n) :
    ValidRow g e.1 := by
  rcases cached_step hS hok hp (Graph.mem_instancesOf.mp he) with
    hold | ⟨c, s, receiver, args, m, b, hbegin, hkey, -⟩
  · exact (hnew (Graph.mem_instancesOf.mpr hold)).elim
  · rw [hkey]
    intro t ht x hx
    obtain ⟨y, hy, rfl⟩ := List.mem_map.mp ht
    cases hx
    exact hS.inputs_valid hbegin.calls.inputs _ (List.mem_append_right _ hy)

theorem validRow_step (h : ∀ e ∈ g.instancesOf n, ValidRow g e.1) :
    ∀ e ∈ g'.instancesOf n, ValidRow g' e.1 := by
  intro e he
  have hgrows := (extends_of_perform hS hok hp).grows
  by_cases hold : e ∈ g.instancesOf n
  · exact (h e hold).grow hgrows
  · exact (validRow_of_new hS hok hp he hold).grow hgrows

/-- An instance that is new to a method is for types that none of those it has is for. -/
theorem setApart_of_step (hpass : Graph.Passes start done (g, task :: rest))
    (he : e ∈ g.instancesOf n) (he' : e' ∈ g'.instancesOf n) (hnew : e' ∉ g.instancesOf n) :
    Graph.SetApart start n e e' g := by
  refine ⟨⟨done, task, rest, g', ts, hpass, hp, he'⟩, he, hnew, ?_⟩
  rcases cached_step hS hok hp (Graph.mem_instancesOf.mp he') with
    hold | ⟨c, s, receiver, args, m, b, hbegin, hkey, -⟩
  · exact (hnew (Graph.mem_instancesOf.mpr hold)).elim
  · obtain ⟨m', hm', hmem⟩ := Graph.has_cached.mp (Graph.mem_instancesOf.mp he)
    rw [hbegin.calls.found] at hm'
    cases hm'
    have hfresh := hbegin.fresh
    simp only [Table.findBy?, Option.map_eq_none_iff, List.find?_eq_none] at hfresh
    rw [hkey]
    simpa using hfresh e hmem

/-- A task adds one instance at most. -/
theorem instances_step (he : e ∈ g'.instancesOf n) (hnew : e ∉ g.instancesOf n)
    (he' : e' ∈ g'.instancesOf n) (hnew' : e' ∉ g.instancesOf n) : e = e' := by
  have hid : ∀ x ∈ g'.instancesOf n, x ∉ g.instancesOf n → ∃ c s receiver args m b,
      g.Begins L task g' ts c s receiver args n m b ∧ x = (args.map some, g.instances.size) := by
    intro x hx hxnew
    rcases cached_step hS hok hp (Graph.mem_instancesOf.mp hx) with
      hold | ⟨c, s, receiver, args, m, b, hbegin, hkey, hi⟩
    · exact (hxnew (Graph.mem_instancesOf.mpr hold)).elim
    · exact ⟨c, s, receiver, args, m, b, hbegin, Prod.ext hkey hi⟩
  obtain ⟨c, s, receiver, args, m, b, hbegin, rfl⟩ := hid e he hnew
  obtain ⟨c', s', receiver', args', m', b', hbegin', rfl⟩ := hid e' he' hnew'
  cases hbegin.task_eq.symm.trans hbegin'.task_eq
  have hsite := hbegin.site
  rw [hbegin'.site] at hsite
  cases hsite
  have hinputs := hbegin.calls.inputs
  rw [hbegin'.calls.inputs] at hinputs
  cases hinputs
  rfl

end step

/-! ## Runs -/

/-- What is known of the instances in a configuration that a run comes to. -/
structure Specializing (start : Graph.Config) (L : Labels) (now : Graph.Config) : Prop where
  sound : Sound.Config L now
  valid : ∀ n, ∀ e ∈ now.1.instancesOf n, ValidRow now.1 e.1
  apart : ∀ n, ∀ e ∈ now.1.instancesOf n, ∀ e' ∈ now.1.instancesOf n, e ≠ e' →
    e ∈ start.1.instancesOf n ∧ e' ∈ start.1.instancesOf n ∨
      (∃ g, Graph.SetApart start n e e' g) ∨ ∃ g, Graph.SetApart start n e' e g

theorem Specializing.step (h : Specializing start L (g, task :: rest))
    (hpass : Graph.Passes start done (g, task :: rest)) (hp : g.perform task = (g', .ok ts)) :
    Specializing start (L.performed g task) (g', ts ++ rest) where
  sound := (h.sound.step hp).2
  valid n := validRow_step h.sound.graph (h.sound.tasks _ (List.mem_cons_self ..)) hp (h.valid n)
  apart := by
    intro n e he e' he' hne
    have hS := h.sound.graph
    have hok := h.sound.tasks _ (List.mem_cons_self ..)
    by_cases hold : e ∈ g.instancesOf n
    · by_cases hold' : e' ∈ g.instancesOf n
      · exact h.apart n e hold e' hold' hne
      · exact .inr (.inl ⟨g, setApart_of_step hS hok hp hpass hold he' hold'⟩)
    · by_cases hold' : e' ∈ g.instancesOf n
      · exact .inr (.inr ⟨g, setApart_of_step hS hok hp hpass hold' he hold⟩)
      · exact (hne (instances_step hS hok hp he hold he' hold')).elim

theorem Specializing.passes {now : Graph.Config} (h : Specializing start L start)
    (hpass : Graph.Passes start done now) : ∃ L, Specializing start L now := by
  induction hpass with
  | refl => exact ⟨L, h⟩
  | perform hpass hp ih =>
      obtain ⟨L, hL⟩ := ih
      exact ⟨_, hL.step hpass hp⟩

/-- Instances that were set apart stay so as long as the fields of the object types do. -/
theorem Graph.SetApart.sameRow_eq (hstart : Specializing start L start) {now : Graph}
    {all : List Task} (hend : Graph.Passes start all (now, [])) (h : SetApart start n e e' g)
    (hfields : ∀ i < g.heap.size, now.heap.fields i = g.heap.fields i) :
    now.heap.sameRow e.1 e'.1 = false := by
  obtain ⟨done, task, rest, g', ts, hpass, hp, he'⟩ := h.moment
  obtain ⟨L₁, hL⟩ := hstart.passes hpass
  have hS := hL.sound.graph
  have hok := hL.sound.tasks _ (List.mem_cons_self ..)
  obtain ⟨after, hafter⟩ := hpass.to_end hend
  obtain ⟨L₂, hcourse⟩ := hafter.course L₁
  have hgrows := (hcourse.later hL.sound).2.extend.grows
  have hag : Heap.AgreeBelow g.heap.size g.heap now.heap := by
    intro i hi
    obtain ⟨o, ho⟩ : ∃ o, g.objects[i]? = some o := ⟨_, Array.getElem?_eq_getElem hi⟩
    obtain ⟨o', ho', hname, -⟩ := hgrows.object ho
    exact ⟨by simp [Graph.heap, ho, ho', hname], (hfields i hi).symm⟩
  rw [Heap.sameRow_congr g.bounded_heap now.bounded_heap hS.closed_heap hag]
  · exact h.unequal
  · exact fun t ht x hx => (hL.valid n e h.first t ht x hx).below
  · exact fun t ht x hx => (validRow_of_new hS hok hp he' h.second t ht x hx).below

/-- Instances that were set apart stay so if there are no fields. -/
theorem Graph.SetApart.stays_unequal {names : List String} (hstart : Specializing start L start)
    (hT : Tame.Config names L start) {now : Graph} {all : List Task}
    (hend : Graph.Passes start all (now, [])) (h : SetApart start n e e' g)
    (he : e ∈ now.instancesOf n) (he' : e' ∈ now.instancesOf n) : now.heap.Unequal e.1 e'.1 := by
  obtain ⟨L₁, -, hnow, -⟩ := hT.passes hstart.sound hend
  have hg : g.heap.Flat := by
    obtain ⟨done, task, rest, g', ts, hpass, -⟩ := h.moment
    obtain ⟨L₂, -, hT', -⟩ := hT.passes hstart.sound hpass
    exact hT'.graph.flat
  have hrow : ∀ {x}, x ∈ now.instancesOf n → TameRow names now x.1 := by
    intro x hx t ht y hy
    obtain ⟨z, rfl, hz⟩ := hnow.graph.entries (mem_instancesOf.mp hx) t ht
    cases hy
    exact hz
  have hne := h.sameRow_eq hstart hend fun i _ => (hnow.graph.flat i).trans (hg i).symm
  refine ⟨hne, Bool.eq_false_iff.mpr fun hsame => ?_⟩
  rw [(hrow he').sameRow_iff hnow.graph.flat (hrow he)] at hsame
  rw [((hrow he).sameRow_iff hnow.graph.flat (hrow he')).mpr hsame.symm] at hne
  cases hne

/-- The method that gets an instance has a body. -/
theorem Graph.SetApart.written (hstart : Specializing start L start) {now : Graph}
    {all : List Task} (hend : Graph.Passes start all (now, [])) (h : SetApart start n e e' g)
    {m : Method} (hm : now.method? n = some m) : ∃ b r, m.source = .written b r := by
  obtain ⟨done, task, rest, g', ts, hpass, hp, he'⟩ := h.moment
  obtain ⟨L₁, hL⟩ := hstart.passes hpass
  have hS := hL.sound.graph
  have hok := hL.sound.tasks _ (List.mem_cons_self ..)
  obtain ⟨after, hafter⟩ := hpass.to_end hend
  obtain ⟨L₂, hcourse⟩ := hafter.course L₁
  have hgrows := (hcourse.later hL.sound).2.extend.grows
  rcases cached_step hS hok hp (mem_instancesOf.mp he') with
    hold | ⟨c, s, receiver, args, m', b, hbegin, -, -⟩
  · exact (h.second (mem_instancesOf.mpr hold)).elim
  · obtain ⟨w, r, k, nm, ps, hlabel, -⟩ := hbegin.label
    have hblank := hgrows.blank (hS.fits hlabel).1
    obtain ⟨cell, hcell, hrole⟩ := blank_of_method hm
    rw [hblank] at hcell
    cases hcell
    simp only [freshRole, Role.method.injEq] at hrole
    exact ⟨b, n + 1, by simpa [Method.blank] using (congrArg Method.source hrole).symm⟩

/-! ## Built-in methods -/

/-- Rows of primitive types are equal if they have the same names, whatever the object types are. -/
theorem Heap.eq_of_sameRow_prims (h : Heap) {xs ys : List String}
    (hs : h.sameRow (xs.map fun x => some (.prim x)) (ys.map fun y => some (.prim y)) = true) :
    xs = ys := by
  induction xs generalizing ys with
  | nil => cases ys <;> simp_all [sameRow]
  | cons x xs ih =>
      cases ys with
      | nil => simp [sameRow] at hs
      | cons y ys =>
          simp only [List.map_cons, sameRow, Bool.and_eq_true] at hs
          rw [ih hs.2]
          have hxy := hs.1
          simp only [sameOption, Ty.sameOptionBy, Ty.prim, Ty.sameBy, Atom.sameBy, beq_iff_eq] at hxy
          rw [hxy]

/-- The instances of each method are for primitive types, and no two of them for the same ones. -/
def Graph.Signed (g : Graph) : Prop :=
  ∀ n, ∀ e ∈ g.instancesOf n, (∃ names : List String, e.1 = names.map fun x => some (.prim x)) ∧
    ∀ e' ∈ g.instancesOf n, e'.1 = e.1 → e' = e

theorem Graph.Signed.unequal (h : g.Signed) (he : e ∈ g.instancesOf n) (he' : e' ∈ g.instancesOf n)
    (hne : e ≠ e') (heap : Heap) : heap.Unequal e.1 e'.1 := by
  obtain ⟨⟨names, hnames⟩, hsame⟩ := h n e he
  obtain ⟨⟨names', hnames'⟩, -⟩ := h n e' he'
  have hrow : names ≠ names' := fun heq => hne (hsame e' he' (by rw [hnames, hnames', heq])).symm
  rw [Heap.Unequal, hnames, hnames']
  exact ⟨Bool.eq_false_iff.mpr fun hs => hrow (heap.eq_of_sameRow_prims hs),
    Bool.eq_false_iff.mpr fun hs => hrow (heap.eq_of_sameRow_prims hs).symm⟩

/-- The name of a primitive type. -/
def primName : Option Ty → String
  | some (.one (.prim x)) => x
  | _ => ""

theorem Graph.signed_of_all (h : (g.cells.toList.all fun c =>
    match c.role with
    | .method m => m.instances.all fun e =>
        decide (e.1 = (e.1.map primName).map fun x => some (.prim x)) &&
          m.instances.all fun e' => decide (e'.1 = e.1 → e' = e)
    | _ => true) = true) : g.Signed := by
  intro n e he
  obtain ⟨m, hm, hmem⟩ := has_cached.mp (mem_instancesOf.mp he)
  obtain ⟨cell, hcell, hrole⟩ := exists_of_method hm
  have hc := List.all_eq_true.mp h cell (Array.mem_toList_iff.mpr (Array.mem_of_getElem? hcell))
  simp only [hrole, List.all_eq_true, Bool.and_eq_true, decide_eq_true_eq] at hc
  refine ⟨⟨_, (hc e hmem).1⟩, fun e' he' => (hc e hmem).2 e' ?_⟩
  obtain ⟨m', hm', hmem'⟩ := has_cached.mp (mem_instancesOf.mp he')
  rw [hm] at hm'
  cases hm'
  exact hmem'

theorem signed_withBuiltins : Graph.withBuiltins.Signed :=
  Graph.signed_of_all (by decide +kernel)

/-- The instances before a program is walked over are those of the built-in methods. -/
theorem mem_instancesOf_loaded (tree : Expr) (he : e ∈ (Graph.loaded tree).instancesOf n) :
    e ∈ Graph.withBuiltins.instancesOf n := by
  rw [Graph.mem_instancesOf] at he ⊢
  rw [Graph.loaded, start_eq] at he
  rcases Graph.has_addWalk (Graph.has_plant he) with he | ⟨_, _, heq, -⟩ | ⟨_, heq, -⟩
  · exact he
  · cases heq
  · cases heq

/-- A method of the program, and not a built-in one. -/
def Graph.HasBody (g : Graph) (n : NodeId) : Prop :=
  ∃ m b r, g.method? n = some m ∧ m.source = .written b r

/-- The methods that have instances before a program is walked over have no bodies. -/
theorem not_hasBody_of_loaded (tree : Expr) (he : e ∈ (Graph.loaded tree).instancesOf n)
    {now : Graph} (hgrows : Graph.Grows (Graph.loaded tree) now) : ¬ now.HasBody n := by
  rintro ⟨m, b, r, hm, hsource⟩
  obtain ⟨cell, hcell, hrole⟩ := Graph.blank_of_method hm
  have hnot : (Labels.builtins Graph.withBuiltins) n = some .builtin ∧ ∃ c x,
      Session.start.graph.blank n = some c ∧ c.role = .method x ∧
        (x.source = .external ∨ ∃ owner, x.source = .builtin (some owner)) := by
    rcases (has_loaded (Graph.mem_instancesOf.mp he)).1 with ⟨w, r, k, nm, ps, b, hl⟩ | h
    · unfold Labels.builtins at hl
      split at hl <;> cases hl
    · exact h
  obtain ⟨-, c, x, hc, hx, hbuiltin⟩ := hnot
  have hblank := hgrows.blank ((Graph.grows_plant Session.start.graph tree).blank hc)
  rw [hblank] at hcell
  cases hcell
  rw [hx] at hrole
  cases hrole
  rw [Method.blank, hsource] at hbuiltin
  rcases hbuiltin with h | ⟨_, h⟩ <;> cases h

theorem Specializing.loaded (tree : Expr) :
    Specializing (Graph.loaded tree, [.visit 0 tree rootOf]) (Labels.loaded tree)
      (Graph.loaded tree, [.visit 0 tree rootOf]) where
  sound := .loaded tree
  valid n e he t ht x hx := by
    obtain ⟨⟨names, hnames⟩, -⟩ := signed_withBuiltins n e (mem_instancesOf_loaded tree he)
    rw [hnames] at ht
    obtain ⟨name, -, rfl⟩ := List.mem_map.mp ht
    cases hx
    exact ⟨fun i hi => by simp [Ty.prim] at hi, trivial⟩
  apart _ _ he _ he' _ := .inl ⟨he, he'⟩

/-! ## Programs -/

/-- Two instances of a method were made at different times, the second one when the method had the
first, and they are for types that were not equal then. The types are not equal later on as long as
the object types have the fields that they had. -/
def Graph.MadeApart (start : Config) (now : Graph) (n : NodeId)
    (e e' : List (Option Ty) × InstanceId) : Prop :=
  ∃ g, SetApart start n e e' g ∧ ((∀ i < g.heap.size, now.heap.fields i = g.heap.fields i) →
    now.heap.sameRow e.1 e'.1 = false)

/-- Without instance variables the instances of a method are for types that are not equal. -/
theorem instances_unequal {tree : Expr} (hfree : tree.FieldFree) {all : List Task}
    (hend : Graph.Passes (Graph.loaded tree, [.visit 0 tree rootOf]) all (g, []))
    (he : e ∈ g.instancesOf n) (he' : e' ∈ g.instancesOf n) (hne : e ≠ e') :
    g.heap.Unequal e.1 e'.1 := by
  have hstart := Specializing.loaded tree
  have hT := Tame.Config.loaded hfree.within
  obtain ⟨L, hL⟩ := hstart.passes hend
  rcases hL.apart n e he e' he' hne with ⟨hold, hold'⟩ | ⟨g, hg⟩ | ⟨g, hg⟩
  · exact signed_withBuiltins.unequal (mem_instancesOf_loaded tree hold)
      (mem_instancesOf_loaded tree hold') hne _
  · exact hg.stays_unequal hstart hT hend he he'
  · exact (hg.stays_unequal hstart hT hend he' he).symm

/-- A method gets no second instance for types that are equal at the time. Any two instances of a
method with a body were made apart; those of a built-in method are for unequal types throughout. At
the end no two instances are for equal types if there are no instance variables. -/
theorem inferTypes_specializes_once (budget : Nat) (tree : Expr)
    (hfin : (inferTypes budget tree).2 = .finished)
    (he : e ∈ (inferTypes budget tree).1.graph.instancesOf n)
    (he' : e' ∈ (inferTypes budget tree).1.graph.instancesOf n) (hne : e ≠ e') :
    let start := (Graph.loaded tree, [Task.visit 0 tree rootOf])
    let now := (inferTypes budget tree).1.graph
    (now.HasBody n → Graph.MadeApart start now n e e' ∨ Graph.MadeApart start now n e' e) ∧
      (¬ now.HasBody n → now.heap.Unequal e.1 e'.1) ∧
      (tree.FieldFree → now.heap.Unequal e.1 e'.1) := by
  intro start now
  rw [inferTypes_outcome] at hfin
  have hnow : now = (Graph.run budget (Graph.loaded tree) [.visit 0 tree rootOf]).1 :=
    inferTypes_graph budget tree
  obtain ⟨done, hpass⟩ := Graph.passes_of_run_finished hfin
  rw [← hnow] at hpass
  have hstart := Specializing.loaded tree
  obtain ⟨L, hL⟩ := hstart.passes hpass
  have hpart := hL.apart n e he e' he' hne
  have hmade : ∀ {a b}, (∃ g, Graph.SetApart start n a b g) → Graph.MadeApart start now n a b :=
    fun ⟨g, hg⟩ => ⟨g, hg, hg.sameRow_eq hstart hpass⟩
  have hbody : ∀ {a b}, (∃ g, Graph.SetApart start n a b g) → now.HasBody n := by
    rintro a b ⟨g, hg⟩
    obtain ⟨m, hm, -⟩ := Graph.has_cached.mp (Graph.mem_instancesOf.mp he)
    obtain ⟨body, r, hsource⟩ := hg.written hstart hpass hm
    exact ⟨m, body, r, hm, hsource⟩
  refine ⟨fun hwritten => ?_, fun hbuiltin => ?_, fun hfree => ?_⟩
  · rcases hpart with ⟨hold, -⟩ | h | h
    · obtain ⟨L', hcourse⟩ := hpass.course (Labels.loaded tree)
      have hgrows := (hcourse.later hstart.sound).2.extend.grows
      exact (not_hasBody_of_loaded tree hold hgrows hwritten).elim
    · exact .inl (hmade h)
    · exact .inr (hmade h)
  · rcases hpart with ⟨hold, hold'⟩ | h | h
    · exact signed_withBuiltins.unequal (mem_instancesOf_loaded tree hold)
        (mem_instancesOf_loaded tree hold') hne _
    · exact (hbuiltin (hbody h)).elim
    · exact (hbuiltin (hbody h)).elim
  · exact instances_unequal hfree hpass he he' hne

/-- One object gets a field before a method is called with it, and another one of the same class
gets an equal field after the same method was called with that. -/
def levelled : Expr :=
  let name (text : String) : Token := ⟨text, 0⟩
  let var (text : String) : Place := ⟨.localVar, name text⟩
  let one : Expr := .literal ⟨.int, .int 1, 0⟩
  let box : Expr := .call (some (.const (name "Box"))) (name "new") [] true
  let setter (text : String) : Expr := .method (name text) [name "v"] (.block [
    .assign ⟨.instanceVar, name "v"⟩ (.place (var "v"))])
  let tell (x method : String) : Expr := .call (some (.place (var x))) (name method) [one] true
  let use (x : String) : Expr := .call none (name "use") [.place (var x)] true
  .block [
    .klass (name "Box") (.block [setter "put", setter "fill"]),
    .method (name "use") [name "x"] (.block [one]),
    .assign (var "a") box,
    .assign (var "b") box,
    tell "a" "put", use "a", use "b", tell "b" "fill"]

theorem run_levelled :
    (inferTypes 300 levelled).2 = .finished ∧
      ([some (.obj 1)], 47) ∈ (inferTypes 300 levelled).1.graph.instancesOf (rootOf + 13) ∧
      ([some (.obj 2)], 48) ∈ (inferTypes 300 levelled).1.graph.instancesOf (rootOf + 13) ∧
      (inferTypes 300 levelled).1.graph.heap.sameRow [some (.obj 1)] [some (.obj 2)] = true := by
  decide +kernel

/-- The instances of the method that is called with both objects. -/
theorem inferTypes_specializes_once_levelled :
    let start := (Graph.loaded levelled, [Task.visit 0 levelled rootOf])
    let now := (inferTypes 300 levelled).1.graph
    let e : List (Option Ty) × InstanceId := ([some (.obj 1)], 47)
    let e' : List (Option Ty) × InstanceId := ([some (.obj 2)], 48)
    ((inferTypes 300 levelled).2 = .finished ∧ e ∈ now.instancesOf (rootOf + 13) ∧
      e' ∈ now.instancesOf (rootOf + 13) ∧ e ≠ e') ∧
    (now.HasBody (rootOf + 13) → Graph.MadeApart start now (rootOf + 13) e e' ∨
      Graph.MadeApart start now (rootOf + 13) e' e) ∧
    (¬ now.HasBody (rootOf + 13) → now.heap.Unequal e.1 e'.1) ∧
    (levelled.FieldFree → now.heap.Unequal e.1 e'.1) := by
  intro start now e e'
  obtain ⟨hfin, he, he', -⟩ := run_levelled
  have hne : e ≠ e' := by decide
  exact ⟨⟨hfin, he, he', hne⟩, inferTypes_specializes_once 300 levelled hfin he he' hne⟩

/-- With instance variables a method may have two instances for types that are equal at the end. -/
theorem specializes_twice :
    ¬ ∀ budget tree, (inferTypes budget tree).2 = .finished → ∀ n e e',
      e ∈ (inferTypes budget tree).1.graph.instancesOf n →
      e' ∈ (inferTypes budget tree).1.graph.instancesOf n → e.1 ≠ e'.1 →
      (inferTypes budget tree).1.graph.heap.sameRow e.1 e'.1 = false := by
  intro h
  obtain ⟨hfin, he, he', hsame⟩ := run_levelled
  have hne := h 300 levelled hfin (rootOf + 13) _ _ he he' (by decide)
  rw [hsame] at hne
  cases hne

end TypeFlow
