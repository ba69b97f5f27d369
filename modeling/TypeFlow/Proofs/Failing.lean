import TypeFlow.Proofs.Warranting

/-! # What runs come to is warranted

A run only comes to types that can be derived, and it only fails if an error can be derived. -/

namespace TypeFlow

variable {P : Program} {L L' : Labels} {g g' : Graph} {task : Task} {ts rest : List Task}

/-! ## Runs -/

theorem Warranted.loaded (hE : Underway P L' (g', rest))
    (hl : Later (Labels.loaded P.tree) (Graph.loaded P.tree) L' g') :
    Warranted P L' g' (Labels.loaded P.tree) (Graph.loaded P.tree, [.visit 0 P.tree rootOf]) where
  typed := by
    intro n T hT a ha
    have hS := (Sound.Config.loaded P.tree).graph
    have hstart := (type_loaded P.tree n).symm.trans hT
    obtain ⟨l, hn⟩ := Option.ne_none_iff_exists'.mp (Sound.start.typed hstart).1
    have hbuiltin : Labels.loaded P.tree n = some .builtin :=
      ((stocked_loaded P.tree).label n).mpr (Sound.start.bound hn)
    rw [Program.Allows, hl.extend.keeps hS hbuiltin]
    refine ⟨T, hstart, Heap.mem_tags.mpr ⟨a, ha, ?_⟩⟩
    have hvalid := (Sound.start.typed hstart).2.1
    exact (hE.stocked.grows.tag_eq fun i hi => hvalid.1 i (hi ▸ ha)).symm
  edge := by
    intro s o ho
    rw [observers_loaded] at ho
    cases ho
  tasks := by
    intro t ht
    cases List.mem_singleton.mp ht
    trivial
  inst := fun hx hw => (not_walked_loaded P.tree hx hw).elim
  member := by
    intro n d r as hn
    rcases label_loaded hn with ⟨heq, -⟩ | ⟨q, -, -, heq⟩ <;> cases heq

/-- Whatever a run comes to is warranted. -/
theorem Course.warranted {c : Graph.Config}
    (h : Course (Labels.loaded P.tree) (Graph.loaded P.tree, [.visit 0 P.tree rootOf]) L c) :
    Underway P L c ∧ Warranted P L c.1 L c := by
  have hE := h.underway (.loaded P)
  obtain ⟨g, rest⟩ := c
  have hlater := (h.later (.loaded P.tree)).2
  have hboth := h.preserves (.loaded P.tree)
    (fun L₁ c₁ => Underway P L₁ c₁ ∧ Warranted P L g L₁ c₁)
    ⟨.loaded P, .loaded hE hlater⟩
    fun L₁ g₁ task rest' g₂ ts _ hinv hp hl =>
      ⟨hinv.1.step hp, hinv.2.step hinv.1 hp hl hE⟩
  exact ⟨hE, hboth.2⟩

/-! ## Built-in methods -/

/-- Each instance of a method is for as many types as the method has parameters. -/
def Role.isFitted : Role → Bool
  | .method m => m.instances.all fun e => e.1.length == m.params.length
  | _ => true

theorem length_key_of_start {m : NodeId} {key : List (Option Ty)} {i : InstanceId} {x : Method}
    (h : Session.start.graph.Has (.mark m (.cached key i)))
    (hx : Session.start.graph.method? m = some x) : key.length = x.params.length := by
  have hall : (Graph.withBuiltins.cells.toList.all fun c => c.role.isFitted) = true := by
    decide +kernel
  rw [start_eq] at h hx
  generalize Graph.withBuiltins = g at h hx hall
  obtain ⟨y, hy, hmem⟩ := Graph.has_cached.mp h
  rw [hx] at hy
  cases hy
  obtain ⟨cell, hcell, hrole⟩ := Graph.exists_of_method hx
  have hc := List.all_eq_true.mp hall cell (Array.mem_toList_iff.mpr (Array.mem_of_getElem? hcell))
  rw [hrole] at hc
  exact eq_of_beq (List.all_eq_true.mp hc _ hmem)

/-! ## Calls that cannot be resolved -/

/-- A method of the program is a node that the walk over the program comes to. -/
theorem Underway.label_of_code {c : Graph.Config} (hU : Underway P L c) {m : NodeId}
    {ps : List String} {b : Expr} (h : P.Code m ps b) :
    ∃ k nm ps', L m = some (.node 0 rootOf k (.method nm ps' b)) ∧ ps = ps'.map (·.text) := by
  obtain ⟨k, nm, ps', hq, rfl⟩ := h.stop
  exact ⟨k, nm, ps', hU.sound.graph.stop hU.root hq, rfl⟩

/-- A method of the program has the parameters that are written there. -/
theorem Underway.params_of_code (hU : Underway P L (g, ts)) {method : NodeId} {m : Method}
    {ps : List String} {b : Expr} (h : P.Code method ps b) (hm : g.method? method = some m) :
    m.params = ps := by
  obtain ⟨k, nm, ps', hlabel, rfl⟩ := hU.label_of_code h
  exact (hU.sound.graph.method_of_node hlabel hm).2.1

section resolve

variable (hU : Underway P L (g, ts)) (hB : Graph.Booked P.tables g) {r : Option Atom}
  {as : List Atom} (hvalid : ∀ a ∈ r.toList ++ as, (Ty.one a).Valid g) {name : String}

include hU hB hvalid

/-- A method that serves a call takes as many arguments. -/
theorem Underway.arity_of_serves (h : P.Serves (r.map g.heap.tag) name (as.map g.heap.tag))
    {method : NodeId} {m : Method} (hscope : (g.scopeOf (r.map .one)).lookup name = some method)
    (hm : g.method? method = some m) : m.params.length = as.length := by
  obtain ⟨method', hfind, hserves⟩ := h
  rw [hB.find_concrete hvalid, hscope] at hfind
  cases hfind
  rcases hserves with ⟨ps, b, hcode, hlen⟩ | ⟨t, key, i, x, ty, hcached, -, hrow, -⟩
  · rw [hU.params_of_code hcode hm, hlen, List.length_map]
  · obtain ⟨y, hy, -⟩ := Graph.has_cached.mp hcached
    obtain ⟨c, hc, hrole⟩ := Graph.blank_of_method hy
    obtain ⟨c', hc', hrole'⟩ := Graph.blank_of_method hm
    rw [hU.stocked.grows.blank hc] at hc'
    cases hc'
    rw [hrole] at hrole'
    have hblank : y.blank = m.blank := Role.method.inj hrole'
    have hparams : y.params = m.params := by
      have := congrArg Method.params hblank
      exact this
    have hlen := congrArg List.length hrow
    simp only [Heap.tagRow, List.length_map] at hlen
    rw [← hparams, ← length_key_of_start hcached hy, hlen]

/-- A built-in method that serves a call has an instance for it. -/
theorem Underway.findBy_of_serves (h : P.Serves (r.map g.heap.tag) name (as.map g.heap.tag))
    {method : NodeId} {m : Method} (hscope : (g.scopeOf (r.map .one)).lookup name = some method)
    (hm : g.method? method = some m) (hbuiltin : L method = some .builtin)
    (hrow : TameRow P.tree.classNames g ((as.map Ty.one).map some)) :
    Table.findBy? g.heap.sameRow ((as.map Ty.one).map some) m.instances ≠ none := by
  obtain ⟨method', hfind, hserves⟩ := h
  rw [hB.find_concrete hvalid, hscope] at hfind
  cases hfind
  rcases hserves with ⟨ps, b, hcode, -⟩ | ⟨t, key, i, x, ty, hcached, -, htags, -⟩
  · obtain ⟨k, nm, ps', hlabel, -⟩ := hU.label_of_code hcode
    rw [hbuiltin] at hlabel
    cases hlabel
  · have hhas := hU.stocked.lasts _ rfl hcached
    obtain ⟨y, hy, hmem⟩ := Graph.has_cached.mp hhas
    rw [hm] at hy
    cases hy
    rw [tagRow_of_start hcached _ g.heap] at htags
    intro hnone
    rw [Table.findBy?, Option.map_eq_none_iff, List.find?_eq_none] at hnone
    refine hnone _ hmem ?_
    rw [(hU.tame.graph.cached hhas).sameRow_iff hU.tame.graph.flat hrow, htags,
      List.map_map (f := Ty.one)]
    exact (g.heap.tagRow_concrete as).symm

end resolve

/-! ## Tasks that fail -/

/-- A call that is not of a definition is walked over when all definitions are made. -/
theorem Underway.booked_of_call {w : WalkId} {rc : Option Expr} {nm : Token} {es : List Expr}
    {p : Bool} {n : NodeId} (h : Underway P L (g, .visit w (.call rc nm es p) n :: rest)) :
    Graph.Booked P.tables g := by
  cases h.phase with
  | start _ hts =>
      have heq := (List.cons.inj hts).1
      simp [Program.tree] at heq
  | defining ds hnil hts hds =>
      cases ds with
      | nil => exact (hnil rfl).elim
      | cons d ds =>
          cases (List.cons.inj hts).1
          obtain ⟨-, hdef⟩ := hds _ (List.mem_cons_self ..)
          cases hdef
  | doing hB => exact hB

section fail

variable (hU : Underway P L (g, task :: rest)) (h : Warranted P L g L (g, task :: rest)) {f : Fault}
include hU h

/-- A call that cannot be resolved is one that no method serves. -/
theorem Warranted.fails_of_resolve {c : NodeId} (htask : task = .resolve c)
    (hp : g.perform task = (g', .error f)) : P.Fails := by
  have hS : Sound L g := hU.sound.graph
  have hok := hU.sound.tasks task (List.mem_cons_self ..)
  have hB : Graph.Booked P.tables g := by
    rw [htask] at hU
    exact hU.booked
  subst htask
  have hcall := fun {s : Site} {receiver args r as} (hs : g.site? c = some s)
    (hin : g.inputs? s = some (receiver, args)) (hch : Ty.Chosen receiver args r as) =>
      h.call hU hU (.refl L g) hok.2 hs hin hch
  obtain ⟨s, L₁, hs, -, hcases⟩ := resolves_perform hS hok.1 hp
  cases hcases with
  | @undefined receiver args cause hin hconcrete hscope =>
      obtain ⟨r, as, rfl, rfl, hvalid⟩ := hS.concrete_inputs hin hconcrete
      refine .call (hcall hs hin (.concrete r as)).1 ?_
      rintro ⟨m, hm, -⟩
      rw [hB.find_concrete hvalid, hscope] at hm
      cases hm
  | @arity receiver args method m cause hin hconcrete hscope hm harity =>
      obtain ⟨r, as, rfl, rfl, hvalid⟩ := hS.concrete_inputs hin hconcrete
      refine .call (hcall hs hin (.concrete r as)).1 fun hserves => harity ?_
      rw [hU.arity_of_serves hB hvalid hserves hscope hm, List.length_map]
  | @frozen receiver args method m cause hcalls hbuiltin hfind =>
      obtain ⟨r, as, rfl, rfl, hvalid⟩ := hcalls.concrete_inputs hS
      refine .call (hcall hs hcalls.inputs (.concrete r as)).1 fun hserves => ?_
      refine hU.findBy_of_serves hB hvalid hserves hcalls.scope hcalls.found hbuiltin ?_ hfind
      exact .args fun t ht => hU.tame.graph.inputs hcalls.inputs t (List.mem_append_right _ ht)

/-- A task fails only if an error can be derived. -/
theorem Warranted.fails (hp : g.perform task = (g', .error f)) : P.Fails := by
  have hS : Sound L g := hU.sound.graph
  have hok := hU.sound.tasks task (List.mem_cons_self ..)
  obtain ⟨-, cause, site, -, hbreaks⟩ := breaks_of_error hS hok hp
  cases hbreaks with
  | @place w p n hkind =>
      obtain ⟨⟨r, k, hn⟩, -⟩ := hok
      rw [(hU.tame.graph.within hn).place] at hkind
      cases hkind
  | @target w p n hkind =>
      obtain ⟨⟨r, k, v, hn⟩, -⟩ := hok
      rw [(hU.tame.graph.within hn).target] at hkind
      cases hkind
  | @const w c nm as p n hname hnone =>
      obtain ⟨⟨r, k, hn⟩, -⟩ := hok
      obtain ⟨fr, hframed, hreached⟩ := h.reached hU hU (.refl L g) hn
      refine .new hreached (hU.holds hn hframed (by simp [Program.tree])) hname ?_
      rwa [← hU.booked_of_call.classes]
  | call => exact h.fails_of_resolve hU rfl hp

end fail

end TypeFlow
