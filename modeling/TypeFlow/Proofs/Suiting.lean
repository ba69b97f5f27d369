import TypeFlow.Proofs.Comparing
import TypeFlow.Proofs.Leading
import TypeFlow.Proofs.Stirring

/-! # What calls are resolved to

A call is resolved to what suits its inputs at that moment: a dispatch over them if a union is
among them, and an instance for its arguments otherwise. -/

namespace TypeFlow

/-! ## Instances are kept under the types of their parameters -/

/-- The instances of a method are kept under the types of their parameters. -/
def Graph.Keyed (g : Graph) : Prop :=
  ∀ m key i, g.Has (.mark m (.cached key i)) → ∃ x, g.instances[i]? = some x ∧ x.params = key

variable {L : Labels} {g g' : Graph} {task : Task} {ts rest : List Task} {c : NodeId}

/-- The new instance is the only one that is there in addition. -/
theorem Sound.inst_specialized {s : Site} {method : NodeId} {params : List String}
    {body : Expr} {receiver : Option Ty} {args : List Ty} {x : Instance}
    (h : (g.specialized c s method params body receiver args).instances[g.instances.size]? =
      some x) : x = g.newInstance method receiver args := by
  rcases Graph.has_specialized (e := .inst g.instances.size x) h with h | h
  · have hnone : g.instances[g.instances.size]? = none := Array.getElem?_eq_none (Nat.le_refl _)
    rw [Graph.Has, hnone] at h
    cases h
  · generalize hen : Entry.inst g.instances.size x = en at h
    cases h with
    | inst =>
        cases hen
        rfl
    | _ => cases hen

/-- A task resolves a call of a method that it was not called with before, so that the walk over a
new instance begins. -/
structure Graph.Begins (L : Labels) (g : Graph) (task : Task) (g' : Graph) (ts : List Task)
    (c : NodeId) (s : Site) (receiver : Option Ty) (args : List Ty) (method : NodeId) (m : Method)
    (b : Expr) : Prop where
  task_eq : task = .resolve c
  site : g.site? c = some s
  calls : g.Calls s receiver args method m
  fresh : Table.findBy? g.heap.sameRow (args.map some) m.instances = none
  label : ∃ w r k nm ps, L method = some (.node w r k (.method nm ps b)) ∧
    m.params = ps.map (·.text)
  graph : g' = g.specialized c s method m.params b receiver args
  tasks : ts = [.visit g.walks.size b g.cells.size, .finish c g.instances.size,
    .subscribe g.cells.size c .merge, .aim c (.inst g.instances.size)]

/-- A task begins the walk over a new instance, or it leads to no mark of an end, and, if it resolves
a call, to no walk. -/
theorem begins_or_plain (hS : Sound L g) (hok : task.OK L g) (hp : g.perform task = (g', .ok ts)) :
    (∃ c s receiver args method m b, g.Begins L task g' ts c s receiver args method m b) ∨
      (∀ c i, .finish c i ∉ ts) ∧ ∀ c w b n, task = .resolve c → .visit w b n ∉ ts := by
  by_cases hres : ∃ c, task = .resolve c
  · obtain ⟨c, rfl⟩ := hres
    obtain ⟨s, L₁, hs, -, hcases⟩ := resolves_perform hS hok.1 hp
    cases hcases with
    | waiting | dispatch | inst => simp
    | newDispatch => simp [Graph.mem_memberTasks]
    | newInst hcalls hfind hm hps =>
        exact .inl ⟨c, s, _, _, _, _, _, ⟨rfl, hs, hcalls, hfind, ⟨_, _, _, _, _, hm, hps⟩, rfl, rfl⟩⟩
  · refine .inr ⟨fun c i h => ?_, fun c _ _ _ heq => (hres ⟨c, heq⟩).elim⟩
    cases leads_perform hS hok hp h
    exact hres ⟨_, rfl⟩

/-- What is recorded when a call is resolved belongs to a new dispatch, or to a new instance over
which the walk begins. -/
theorem recorded_resolve (hS : Sound L g) (hl : g.Linked c)
    (hp : g.perform (.resolve c) = (g', .ok ts)) {e : Entry} (h : g'.Has e) :
    g.Has e ∨ e = .dispatch g.cells.size ∨ ∃ s receiver args method m b,
      g.Begins L (.resolve c) g' ts c s receiver args method m b ∧
        g.NewInstance c method m.params b receiver args e := by
  obtain ⟨s, L', hs, -, hcases⟩ := resolves_perform hS hl hp
  cases hcases with
  | waiting | dispatch | inst => exact .inl h
  | newDispatch => exact (Graph.has_addDispatch (Graph.has_notice h)).imp_right .inl
  | newInst hcalls hfind hm hps =>
      exact (Graph.has_specialized h).imp_right fun hnew => .inr ⟨s, _, _, _, _, _,
        ⟨rfl, hs, hcalls, hfind, ⟨_, _, _, _, _, hm, hps⟩, rfl, rfl⟩, hnew⟩

/-- What is walked over is the body of a written method. -/
theorem Graph.Begins.source (hS : Sound L g) {c : NodeId} {s : Site} {receiver : Option Ty}
    {args : List Ty} {method : NodeId} {m : Method} {b : Expr}
    (hb : g.Begins L task g' ts c s receiver args method m b) :
    ∃ root, m.source = .written b root := by
  obtain ⟨w, r, k, nm, ps, hm, -⟩ := hb.label
  exact ⟨_, (hS.method_of_node hm hb.calls.found).1⟩

/-- The labels after a call began the walk over a new instance. -/
theorem Graph.Begins.performed_eq (hS : Sound L g) {c : NodeId} {s : Site} {receiver : Option Ty}
    {args : List Ty} {method : NodeId} {m : Method} {b : Expr}
    (hb : g.Begins L task g' ts c s receiver args method m b) :
    L.performed g task = L.specialized g b (instanceInputs m.params receiver args) := by
  obtain ⟨hin, hconcrete, hscope, hfound, harity⟩ := hb.calls
  obtain ⟨root, hsource⟩ := hb.source hS
  rw [hb.task_eq]
  simp [Labels.performed, Labels.resolved, Labels.called, hb.site, hin, hconcrete, hscope, hfound,
    harity, hb.fresh, hsource]

/-- A new instance is kept under the types that the method was not called with before. -/
theorem Sound.cached_newInstance (hS : Sound L g) {s : Site} {receiver : Option Ty}
    {args : List Ty} {method : NodeId} {m : Method} (hcalls : g.Calls s receiver args method m)
    (hfind : Table.findBy? g.heap.sameRow (args.map some) m.instances = none) {b : Expr}
    {n : NodeId} {key : List (Option Ty)} {i : InstanceId}
    (hnew : g.NewInstance c method m.params b receiver args (.mark n (.cached key i))) :
    n = method ∧ key = args.map some ∧ i = g.instances.size := by
  generalize hen : Entry.mark n (.cached key i) = en at hnew
  cases hnew with
  | cached hsort =>
      cases hen
      rcases hsort with rfl | ⟨hsame, j, hj⟩
      · exact ⟨rfl, rfl, rfl⟩
      · obtain ⟨m', hm', hmem⟩ := Graph.has_cached.mp hj
        rw [hcalls.found] at hm'
        cases hm'
        have hm := method?_withBody hcalls.found b (instanceInputs m.params receiver args)
          (receiver.bind Ty.atom?)
        have hother := hS.sameRow_withBody hcalls.found hfind b _ _ m hm _ hmem
        rw [hother] at hsame
        cases hsame
  | _ => cases hen

/-- A method has an instance from before, or the walk over that instance begins. -/
theorem cached_step (hS : Sound L g) (hok : task.OK L g) (hp : g.perform task = (g', .ok ts))
    {n : NodeId} {key : List (Option Ty)} {i : InstanceId}
    (hkey : g'.Has (.mark n (.cached key i))) :
    g.Has (.mark n (.cached key i)) ∨ ∃ c s receiver args m b,
      g.Begins L task g' ts c s receiver args n m b ∧ key = args.map some ∧
        i = g.instances.size := by
  rcases has_perform hS hok (by rw [hp]; exact hkey) with hkey | hrec
  · exact .inl hkey
  · generalize hen : Entry.mark n (.cached key i) = en at hrec
    cases hrec with
    | read h | bound h =>
        rcases h.var_or_field with rfl | ⟨_, -, rfl⟩ <;> cases hen
    | @inst c =>
        subst hen
        rcases recorded_resolve hS hok.1 hp hkey with
          hold | heq | ⟨s, receiver, args, method, m, b, hbegin, hnew⟩
        · exact .inl hold
        · cases heq
        · obtain ⟨rfl, hkey, hi⟩ := hS.cached_newInstance hbegin.calls hbegin.fresh hnew
          exact .inr ⟨c, s, receiver, args, m, b, hbegin, hkey, hi⟩
    | _ => cases hen

theorem keyed_step (hS : Sound L g) (hok : task.OK L g) (hp : g.perform task = (g', .ok ts))
    (h : g.Keyed) : g'.Keyed := by
  have hgrows := (extends_of_perform hS hok hp).grows
  have hkeeps := keeps_perform hS hok
  rw [hp] at hkeeps
  intro n key i hkey
  rcases cached_step hS hok hp hkey with hold | ⟨c, s, receiver, args, m, b, hbegin, rfl, rfl⟩
  · obtain ⟨y, hy, hparams⟩ := h n key i hold
    exact ⟨y, hgrows.inst hy, hparams⟩
  · obtain ⟨-, x, hx, -⟩ := hkeeps.sound.entries hkey
    refine ⟨x, hx, ?_⟩
    rw [hbegin.graph] at hx
    rw [Sound.inst_specialized hx]
    rfl

theorem Graph.keyed_of_all (h : (g.cells.toList.all fun c =>
    match c.role with
    | .method m => m.instances.all fun e =>
        decide ((g.instances[e.2]?.map (·.params)) = some e.1)
    | _ => true) = true) : g.Keyed := by
  intro n key i hkey
  obtain ⟨m, hm, hmem⟩ := Graph.has_cached.mp hkey
  obtain ⟨cell, hcell, hrole⟩ := Graph.exists_of_method hm
  have hc := List.all_eq_true.mp h cell (Array.mem_toList_iff.mpr (Array.mem_of_getElem? hcell))
  simp only [hrole, List.all_eq_true, decide_eq_true_eq, Option.map_eq_some_iff] at hc
  exact hc _ hmem

theorem keyed_withBuiltins : Graph.withBuiltins.Keyed :=
  Graph.keyed_of_all (by decide +kernel)

theorem Graph.Keyed.addWalk (h : g.Keyed) (w : Walk) : (g.addWalk w).1.Keyed := by
  intro m key i hkey
  rcases Graph.has_addWalk hkey with hkey | ⟨_, _, heq, -⟩ | ⟨_, heq, -⟩
  · exact h m key i hkey
  · cases heq
  · cases heq

theorem Graph.Keyed.plant (h : g.Keyed) (tree : Expr) : (g.plant tree).1.Keyed :=
  fun m key i hkey => h m key i (Graph.has_plant hkey)

theorem keyed_loaded (tree : Expr) : (Graph.loaded tree).Keyed := by
  unfold Graph.loaded
  rw [start_eq]
  exact (keyed_withBuiltins.addWalk _).plant tree

/-! ## Targets that suit -/

/-- A target suits the types of the inputs of a call: a dispatch over equal types if one of them is
a union, and an instance for equal types of arguments otherwise. -/
def Graph.Suits (g : Graph) (x : Option Ty × List Ty) : Target → Prop
  | .dispatch d => (x.1.toList ++ x.2).any Ty.isMixed = true ∧ ∃ y, g.dispatch? d = some y ∧
      g.heap.sameRow (y.receiver :: y.args.map some) (x.1 :: x.2.map some) = true
  | .inst i => (x.1.toList ++ x.2).any Ty.isMixed = false ∧ ∃ y, g.instances[i]? = some y ∧
      g.heap.sameRow y.params (x.2.map some) = true

/-- A dispatch that is found was made for the call, and for equal types. -/
theorem Graph.exists_of_findDispatch {origin : NodeId} {receiver : Option Ty} {args : List Ty}
    {d : NodeId} (h : g.findDispatch? origin receiver args = some d) :
    d ∈ g.dispatches ∧ ∃ x, g.dispatch? d = some x ∧ x.origin = origin ∧
      g.heap.sameRow (x.receiver :: x.args.map some) (receiver :: args.map some) = true := by
  refine ⟨List.mem_of_find?_eq_some h, ?_⟩
  have hfound := List.find?_some h
  cases hx : g.dispatch? d with
  | none => simp [hx] at hfound
  | some x =>
      simp only [hx, Bool.and_eq_true, beq_iff_eq] at hfound
      exact ⟨x, rfl, hfound⟩

theorem Graph.suits_of_findDispatch {origin : NodeId} {x : Option Ty × List Ty} {d : NodeId}
    (h : g.findDispatch? origin x.1 x.2 = some d)
    (hmixed : (x.1.toList ++ x.2).any Ty.isMixed = true) : g.Suits x (.dispatch d) := by
  obtain ⟨-, y, hy, -, hrow⟩ := exists_of_findDispatch h
  exact ⟨hmixed, y, hy, hrow⟩

theorem Graph.dispatch?_addDispatch (g : Graph) (s : Site) (receiver : Option Ty)
    (args : List Ty) (n : Notice) :
    ((g.addDispatch s receiver args).1.notice n).dispatch? g.cells.size =
      some (s.dispatch receiver args) := by
  simp [dispatch?, role, notice, addDispatch, addCell, Site.dispatch]

/-- A call whose inputs have types is resolved to a target that suits them, and that is recorded
last. -/
theorem resolve_suits (hS : Sound L g) (hK : g.Keyed) (hok : (Task.resolve c).OK L g)
    (hp : g.resolve c = (g', .ok ts)) {x : Option Ty × List Ty} (hx : g.Given c x) :
    ∃ pre t, ts = pre ++ [.aim c t] ∧ (∀ o u, .aim o u ∉ pre) ∧ g'.Suits x t := by
  have hkeeps := keeps_perform hS hok
  rw [Graph.perform, hp] at hkeeps
  obtain ⟨s, L', hs, -, hcases⟩ := resolves_perform hS hok.1 hp
  obtain ⟨s', hs', hin⟩ := hx
  rw [hs] at hs'
  cases hs'
  cases hcases with
  | waiting hnone =>
      rw [hin] at hnone
      cases hnone
  | dispatch hin' hmixed hfind =>
      rw [hin] at hin'
      cases hin'
      exact ⟨[_], _, rfl, by simp, Graph.suits_of_findDispatch hfind hmixed⟩
  | @newDispatch receiver args n hin' hmixed hfind =>
      rw [hin] at hin'
      cases hin'
      refine ⟨Graph.memberTasks g.cells.size receiver args ++ [.subscribe g.cells.size c .merge],
        .dispatch g.cells.size, by simp, fun o u h => ?_, hmixed, _,
        g.dispatch?_addDispatch s receiver args n, Heap.sameRow_self _ _⟩
      rcases List.mem_append.mp h with h | h
      · obtain ⟨r, as, heq, -⟩ := Graph.mem_memberTasks.mp h
        cases heq
      · cases List.mem_singleton.mp h
  | inst hcalls hfind hi =>
      have hin' := hcalls.inputs
      rw [hin] at hin'
      cases hin'
      obtain ⟨key, hkey, hsame⟩ := Table.mem_of_findBy? hfind
      obtain ⟨y, hy, rfl⟩ := hK _ _ _ (Graph.has_cached.mpr ⟨_, hcalls.found, hkey⟩)
      exact ⟨[_], _, rfl, by simp, hcalls.concrete, y, hy, hsame⟩
  | newInst hcalls hfind hn hps =>
      have hin' := hcalls.inputs
      rw [hin] at hin'
      cases hin'
      refine ⟨[_, _, _], _, rfl, by simp, hcalls.concrete, ?_⟩
      obtain ⟨-, y, hy⟩ := hkeeps.tasks _ rfl (.aim c (.inst g.instances.size)) (by simp)
      refine ⟨y, hy, ?_⟩
      rw [Sound.inst_specialized hy]
      exact Heap.sameRow_self _ _

/-- Only a resolution leads to a target. -/
theorem no_aim_of_perform (hS : Sound L g) (hok : task.OK L g)
    (hp : g.perform task = (g', .ok ts)) (hne : ∀ o, task ≠ .resolve o) {t : Target} :
    .aim c t ∉ ts := by
  intro h
  cases leads_perform hS hok hp h with
  | aimed => exact hne _ rfl

end TypeFlow
