import TypeFlow.Proofs.Assigning
import TypeFlow.Proofs.Caching
import TypeFlow.Proofs.Targets

/-! # Resolving a call again

When nothing waits any more, each call observes what its inputs were resolved to: an instance or a
dispatch, which the lookup finds again because no other one is kept for equal types. The call has
the type of what it observes already. So all that resolving it again may change is what it points
at, since an earlier resolution may have come to its end after a later one. -/

namespace TypeFlow

variable {P : Program} {L : Labels} {g : Graph} {c : NodeId}

/-! ## Calls that find their answer again -/

namespace Graph

/-- Resolving a call now finds a node whose type it merges, and a target. -/
inductive Recalls (g : Graph) (c : NodeId) : NodeId → Target → Prop where
  | dispatch {s : Site} {receiver : Option Ty} {args : List Ty} {d : NodeId} :
      g.site? c = some s → s.linked = true → g.inputs? s = some (receiver, args) →
      (receiver.toList ++ args).any Ty.isMixed = true →
      g.findDispatch? s.origin receiver args = some d → g.Recalls c d (.dispatch d)
  | inst {s : Site} {receiver : Option Ty} {args : List Ty} {method : NodeId} {m : Method}
      {i : InstanceId} {x : Instance} : g.site? c = some s → (receiver = none → s.linked = true) →
      g.Calls s receiver args method m →
      Table.findBy? g.heap.sameRow (args.map some) m.instances = some i →
      g.instances[i]? = some x → g.Recalls c x.body (.inst i)

/-- The graph with a call that is pointed at a target. -/
def pointed (g : Graph) (c : NodeId) (t : Target) : Graph :=
  g.modifySite c fun s => { s with target := some t }

variable {z : NodeId} {t u : Target}

theorem Recalls.resolve (h : g.Recalls c z t) :
    g.resolve c = g.next [.subscribe z c .merge, .aim c t] := by
  cases h with
  | dispatch hs hlinked hin hmixed hfind =>
      simp [Graph.resolve, resolveMixed, hs, hin, hmixed, hlinked, hfind]
  | @inst s receiver args method m i x hs hlinked hcalls hfind hx =>
      have hknown : (receiver.isNone && !s.linked) = false := by
        cases receiver with
        | none => simp [hlinked rfl]
        | some r => rfl
      simp [Graph.resolve, resolveConcrete, hs, hcalls.inputs, hcalls.concrete, hknown,
        hcalls.scope, hcalls.found, hcalls.arity, hfind, hx]

theorem Recalls.role (h : g.Recalls c z t) : ∃ s, g.role c = .call s := by
  have hsite : ∃ s, g.site? c = some s := by
    cases h with
    | dispatch hs | inst hs => exact ⟨_, hs⟩
  obtain ⟨s, hs⟩ := hsite
  unfold site? at hs
  split at hs
  · next hr => exact ⟨_, hr⟩
  · cases hs

theorem role_modifySite_cases (g : Graph) (n m : NodeId) (f : Site → Site) :
    (g.modifySite n f).role m = g.role m ∨
      ∃ s, g.role m = .call s ∧ (g.modifySite n f).role m = .call (f s) := by
  simp only [role, modifySite, Array.getElem?_modify]
  split
  · cases g.cells[m]? with
    | none => exact .inl rfl
    | some x =>
        cases hr : x.role with
        | call s => exact .inr ⟨s, by simp [hr], by simp [hr]⟩
        | _ => exact .inl (by simp [hr])
  · exact .inl rfl

theorem method?_modifySite (g : Graph) (n m : NodeId) (f : Site → Site) :
    (g.modifySite n f).method? m = g.method? m := by
  unfold method?
  rcases g.role_modifySite_cases n m f with h | ⟨s, hs, h⟩
  · rw [h]
  · rw [h, hs]

theorem dispatch?_modifySite (g : Graph) (n m : NodeId) (f : Site → Site) :
    (g.modifySite n f).dispatch? m = g.dispatch? m := by
  unfold dispatch?
  rcases g.role_modifySite_cases n m f with h | ⟨s, hs, h⟩
  · rw [h]
  · rw [h, hs]

theorem observers_modifySite (g : Graph) (n m : NodeId) (f : Site → Site) :
    (g.modifySite n f).observers m = g.observers m := by
  simp only [observers, modifySite, Array.getElem?_modify]
  split
  · cases g.cells[m]? with
    | none => rfl
    | some x => cases hr : x.role <;> simp [hr]
  · rfl

theorem heap_pointed (g : Graph) (c : NodeId) (t : Target) : (g.pointed c t).heap = g.heap :=
  heap_eq rfl fun _ _ _ _ _ => g.type_modifySite c _ _

theorem site?_pointed {s : Site} (hs : g.site? c = some s) (t : Target) :
    (g.pointed c t).site? c = some { s with target := some t } := by
  rw [pointed, site?_modifySite, if_pos rfl, hs]
  rfl

theorem inputs?_pointed (g : Graph) (c : NodeId) (t : Target) (s : Site) (u : Option Target) :
    (g.pointed c t).inputs? { s with target := u } = g.inputs? s :=
  inputs?_congr (s := s) rfl fun _ _ => g.type_modifySite c _ _

/-- Where a call points does not matter to what it finds. -/
theorem Recalls.pointed (h : g.Recalls c z t) (u : Target) : (g.pointed c u).Recalls c z t := by
  cases h with
  | dispatch hs hlinked hin hmixed hfind =>
      refine .dispatch (site?_pointed hs u) hlinked ((g.inputs?_pointed ..).trans hin) hmixed ?_
      rw [← hfind]
      unfold findDispatch?
      rw [heap_pointed]
      exact congrArg (List.find? · g.dispatches) (funext fun n => by
        rw [Graph.pointed, dispatch?_modifySite])
  | inst hs hlinked hcalls hfind hx =>
      refine .inst (site?_pointed hs u) hlinked
        ⟨(g.inputs?_pointed ..).trans hcalls.inputs, hcalls.concrete, ?_,
          (g.method?_modifySite ..).trans hcalls.found, hcalls.arity⟩ ?_ hx
      · rw [← hcalls.scope]
        rfl
      · rw [heap_pointed]
        exact hfind

/-- A change that finds its cell as it would leave it is none. -/
theorem modify_self {n : NodeId} {f : Cell → Cell} (h : ∀ x, g.cells[n]? = some x → f x = x) :
    { g with cells := g.cells.modify n f } = g := by
  have hcells : g.cells.modify n f = g.cells := by
    apply Array.ext_getElem?
    intro i
    rw [Array.getElem?_modify]
    split
    · next hi =>
        subst hi
        cases hx : g.cells[n]? with
        | none => rfl
        | some x => rw [Option.map_some, h x hx]
    · rfl
  rw [hcells]

theorem pointed_pointed (g : Graph) (c : NodeId) (t : Target) :
    (g.pointed c t).pointed c t = g.pointed c t := by
  refine modify_self fun x hx => ?_
  simp only [Graph.pointed, modifySite, Array.getElem?_modify, if_pos] at hx
  obtain ⟨y, -, rfl⟩ := Option.map_eq_some_iff.mp hx
  cases hr : y.role <;> simp [hr]

/-- Subscribing again under the same reaction changes nothing. -/
theorem addObserver_self {s o : NodeId} {r : Reaction} (h : (o, r) ∈ g.observers s)
    (hr : ∀ r', (o, r') ∈ g.observers s → r' = r) : g.addObserver s o r = g := by
  refine modify_self fun x hx => ?_
  have hobs : g.observers s = x.observers := by simp [observers, hx]
  rw [hobs] at h hr
  have hput : ∀ t : Table NodeId Reaction, (o, r) ∈ t → (∀ r', (o, r') ∈ t → r' = r) →
      t.put o r = t := by
    intro t
    induction t with
    | nil => exact fun h _ => (List.not_mem_nil h).elim
    | cons e t ih =>
        intro h hr
        obtain ⟨k, r'⟩ := e
        rw [Table.put, Table.putBy]
        split
        · next hk =>
            obtain rfl := eq_of_beq hk
            rw [hr r' (List.mem_cons_self ..)]
        · next hk =>
            refine congrArg _ (ih ?_ fun r' h' => hr r' (List.mem_cons_of_mem _ h'))
            refine (List.mem_cons.mp h).resolve_left fun heq => hk ?_
            rw [(Prod.mk.inj heq).1]
            exact beq_self_eq_true k
  rw [hput _ h hr]

/-- A call has the type of a node already, if that has one: merging it changes nothing. -/
def Knows (g : Graph) (c z : NodeId) : Prop :=
  ∀ T, g.type z = some T → ∃ U, g.type c = some U ∧ g.heap.same U (g.heap.merge U T) = true ∧
    (g.heap.merge U T).WellFormed

/-- A call that knows the type of what it finds subscribes to it and points at it, and that is all. -/
theorem Recalls.run (h : g.Recalls c z t) (hknows : g.Knows c z) {n : Nat} (hn : 5 ≤ n) :
    Graph.run n g [.resolve c] = ((g.addObserver z c .merge).pointed c t, .finished) := by
  generalize hg' : g.addObserver z c .merge = g'
  have htype : ∀ m, g'.type m = g.type m := fun m => by rw [← hg', type_addObserver]
  have hheap : g'.heap = g.heap :=
    heap_eq (by rw [← hg']; rfl) fun _ _ _ f _ => htype f.2
  have hresolve : g.perform (.resolve c) = (g, .ok [.subscribe z c .merge, .aim c t]) := h.resolve
  have haim : g'.perform (.aim c t) = (g'.pointed c t, .ok []) := rfl
  cases hz : g.type z with
  | none =>
      have hsubscribe : g.perform (.subscribe z c .merge) = (g', .ok []) := by
        simp only [perform, subscribe, hg', hz]
        rfl
      have hpass : Passes (g, [.resolve c]) [.resolve c, .subscribe z c .merge, .aim c t]
          (g'.pointed c t, []) := .head hresolve (.head hsubscribe (.head haim (.refl _)))
      exact run_of_passes hpass (by simp; omega)
  | some T =>
      obtain ⟨U, hU, hsame, hwf⟩ := hknows T hz
      have hsubscribe : g.perform (.subscribe z c .merge) =
          (g', .ok [.react (some z) c .merge (some T)]) := by
        simp only [perform, subscribe, hg', hz]
        rfl
      have hreact : g'.perform (.react (some z) c .merge (some T)) = (g', .ok [.widen c T]) := by
        obtain ⟨s, hs⟩ := h.role
        simp only [perform, react, ← hg', role_addObserver, hs]
        rfl
      have hwiden : g'.perform (.widen c T) = (g', .ok []) := by
        simp only [perform, widenType, htype, hheap, hU, hwf, if_true, storeType, hsame]
        rfl
      have hpass : Passes (g, [.resolve c]) [.resolve c, .subscribe z c .merge,
          .react (some z) c .merge (some T), .widen c T, .aim c t] (g'.pointed c t, []) :=
        .head hresolve (.head hsubscribe (.head hreact (.head hwiden (.head haim (.refl _)))))
      exact run_of_passes hpass hn

/-- Resolving a call finds a node that the call observes already, and whose type it has. -/
structure Rests (g : Graph) (c z : NodeId) (t : Target) : Prop where
  recalls : g.Recalls c z t
  edge : (c, .merge) ∈ g.observers z
  only : ∀ r, (c, r) ∈ g.observers z → r = .merge
  knows : g.Knows c z

theorem Rests.pointed (h : g.Rests c z t) (u : Target) : (g.pointed c u).Rests c z t where
  recalls := h.recalls.pointed u
  edge := by
    rw [Graph.pointed, observers_modifySite]
    exact h.edge
  only := by
    rw [Graph.pointed, observers_modifySite]
    exact h.only
  knows := by
    unfold Knows
    rw [heap_pointed]
    simp only [Graph.pointed, type_modifySite]
    exact h.knows

theorem Rests.run (h : g.Rests c z t) {n : Nat} (hn : 5 ≤ n) :
    Graph.run n g [.resolve c] = (g.pointed c t, .finished) := by
  rw [h.recalls.run h.knows hn, addObserver_self h.edge h.only]

end Graph

/-! ## When nothing waits any more -/

namespace Completed

variable (h : Completed P L g)
include h

/-- What a call with these inputs was resolved to. -/
theorem answered {s : Site} (hs : g.site? c = some s) (hlinked : g.Linked c)
    {receiver : Option Ty} {args : List Ty} (hin : g.inputs? s = some (receiver, args)) :
    g.Answered P L [] c s.name.text receiver args := by
  rcases h.attended.answering hs hlinked hin with ⟨t, ht, -⟩ | hans
  · cases ht
  · exact hans

/-- A call with a union among its inputs finds the dispatch that it observes. -/
theorem recalls_dispatch (hA : Assigned L g []) {s : Site} (hs : g.site? c = some s)
    (hlinked : g.Linked c) {receiver : Option Ty} {args : List Ty}
    (hin : g.inputs? s = some (receiver, args))
    (hmixed : (receiver.toList ++ args).any Ty.isMixed = true) :
    ∃ z t, g.Recalls c z t ∧ (c, .merge) ∈ g.observers z := by
  have hS : Sound L g := h.attended.underway.sound.graph
  have hT : Tame P.tree.classNames L g := h.attended.underway.tame.graph
  have hcall := hS.linked_isCall hlinked
  cases h.answered hs hlinked hin with
  | @inst r as => cases r <;> simp [Ty.isMixed] at hmixed
  | @dispatch d y _ _ _ hd _ hrow hobs =>
      have hedge : (c, .merge) ∈ g.observers d := Graph.has_edge.mp (hobs.resolve_right (by simp))
      have horigin : y.origin = s.origin :=
        (hA.edge hd hcall hedge).symm.trans (hS.origin_of_mixed hcall hs hin hmixed).symm
      obtain ⟨d', hfind⟩ := Option.ne_none_iff_exists'.mp
        (hS.find_of_listed hT hd (hA.listed hd) hin horigin hrow)
      obtain ⟨y', hd', horigin', hrow'⟩ := hS.listed_of_find hT hin hfind
      obtain rfl := hA.apart hd hd' (horigin.trans horigin'.symm) (hrow.trans hrow'.symm)
      obtain ⟨s', hs', hlinked'⟩ := id hlinked
      rw [hs] at hs'
      cases hs'
      exact ⟨d, _, .dispatch hs hlinked' hin hmixed hfind, hedge⟩

/-- A call with concrete inputs finds the instance whose body it observes. -/
theorem recalls_inst (hapart : ∀ m e e', e ∈ g.instancesOf m → e' ∈ g.instancesOf m → e ≠ e' →
      g.heap.Unequal e.1 e'.1) {s : Site} (hs : g.site? c = some s)
    (hlinked : g.Linked c) {receiver : Option Ty} {args : List Ty}
    (hin : g.inputs? s = some (receiver, args))
    (hconcrete : (receiver.toList ++ args).any Ty.isMixed = false) :
    ∃ z t, g.Recalls c z t ∧ (c, .merge) ∈ g.observers z := by
  have hU := h.attended.underway
  have hS : Sound L g := hU.sound.graph
  have hT : Tame P.tree.classNames L g := hU.tame.graph
  cases h.answered hs hlinked hin with
  | dispatch hmixed =>
      rw [hconcrete] at hmixed
      cases hmixed
  | @inst r as y hy hobs =>
      have hedge : (c, .merge) ∈ g.observers y.body :=
        Graph.has_edge.mp (hobs.resolve_right (by simp))
      have hvalid : ∀ a ∈ r.toList ++ as, (Ty.one a).Valid g := by
        intro a ha
        refine hS.inputs_valid hin _ ?_
        cases r <;> simpa using ha
      obtain ⟨method, key, i, hfind, hkey, hrow, hi⟩ := id hy
      rw [h.booked.find_concrete hvalid] at hfind
      obtain ⟨m, hm, hmem⟩ := Graph.has_cached.mp hkey
      have harity := hU.arity_of_serves h.booked hvalid (h.serves_of_keeps hy) hfind hm
      have hargs : TameRow P.tree.classNames g ((as.map Ty.one).map some) :=
        .args fun t ht => hT.inputs hin t (List.mem_append_right _ ht)
      have hsame : g.heap.sameRow key ((as.map Ty.one).map some) = true := by
        rw [(hT.cached hkey).sameRow_iff hT.flat hargs, hrow, List.map_map (f := Ty.one)]
        exact (g.heap.tagRow_concrete as).symm
      have hfound : Table.findBy? g.heap.sameRow ((as.map Ty.one).map some) m.instances = some i := by
        cases hfound : Table.findBy? g.heap.sameRow ((as.map Ty.one).map some) m.instances with
        | none =>
            simp only [Table.findBy?, Option.map_eq_none_iff, List.find?_eq_none] at hfound
            exact (hfound _ hmem hsame).elim
        | some i' =>
            obtain ⟨key', hmem', hsame'⟩ := Table.mem_of_findBy? hfound
            have hkey' := Graph.has_cached.mpr ⟨m, hm, hmem'⟩
            by_contra hne
            have hunequal := hapart method (key, i) (key', i') (Graph.mem_instancesOf.mpr hkey)
              (Graph.mem_instancesOf.mpr hkey') fun heq => hne (congrArg some (Prod.mk.inj heq).2.symm)
            rw [(hT.cached hkey').sameRow_iff hT.flat hargs] at hsame'
            rw [(hT.cached hkey).sameRow_iff hT.flat hargs] at hsame
            have htrue := ((hT.cached hkey).sameRow_iff hT.flat (hT.cached hkey')).mpr
              (hsame.trans hsame'.symm)
            rw [hunequal.1] at htrue
            cases htrue
      obtain ⟨s', hs', hlinked'⟩ := id hlinked
      rw [hs] at hs'
      cases hs'
      exact ⟨_, _, .inst hs (fun _ => hlinked') ⟨hin, hconcrete, hfind, hm, by simpa using harity⟩ hfound hi,
        hedge⟩

/-- A call that observes the node it finds has its type already. -/
theorem rests {z : NodeId} {t : Target} (hrec : g.Recalls c z t)
    (hedge : (c, .merge) ∈ g.observers z) : g.Rests c z t where
  recalls := hrec
  edge := hedge
  only := by
    intro r hr
    have hS : Sound L g := h.attended.underway.sound.graph
    have hnot : z ∉ g.inputsOf c := (hS.edge hedge).2.2
    have hok := (hS.edge hr).2.2
    cases r with
    | merge => rfl
    | resolve => exact (hnot hok.1).elim
    | other => exact hok.elim
  knows := by
    intro T hT
    have hTame : Tame P.tree.classNames L g := h.attended.underway.tame.graph
    have hsub := h.spread hedge
    obtain ⟨x, hx⟩ := h.tagsAt_nonempty hT
    obtain ⟨U, hU, -⟩ := Graph.mem_tagsAt.mp (hsub hx)
    rw [Graph.tagsAt_of_type hT, Graph.tagsAt_of_type hU] at hsub
    have hUn := (hTame.typed hU).normal
    obtain ⟨hmn, hmt⟩ := hTame.flat.merge_tags hUn (hTame.typed hT).normal
    refine ⟨U, hU, (hTame.flat.same_iff hUn hmn).mpr ?_, hmn.wellFormed⟩
    rw [hmt, Finset.union_eq_left.mpr hsub]

end Completed

/-! ## Calling it again -/

/-- One graph tells the same as another, whatever calls point at. -/
structure Graph.Undisturbed (g g' : Graph) : Prop where
  notices : g'.notices = g.notices
  types : ∀ n, g'.type n = g.type n
  caches : ∀ m, g'.instancesOf m = g.instancesOf m
  instances : g'.instances = g.instances
  dispatches : g'.dispatches = g.dispatches
  dispatch : ∀ d, g'.dispatch? d = g.dispatch? d

theorem Graph.Undisturbed.refl (g : Graph) : g.Undisturbed g :=
  ⟨rfl, fun _ => rfl, fun _ => rfl, rfl, rfl, fun _ => rfl⟩

theorem Graph.undisturbed_pointed (g : Graph) (c : NodeId) (t : Target) :
    g.Undisturbed (g.pointed c t) where
  notices := rfl
  types n := g.type_modifySite c n _
  caches m := by rw [instancesOf, Graph.pointed, method?_modifySite, instancesOf]
  instances := rfl
  dispatches := rfl
  dispatch d := by rw [Graph.pointed, dispatch?_modifySite]

/-- Resolving a call again, when nothing waits any more, disturbs nothing, and doing so once more
changes nothing at all. -/
theorem Completed.run_resolve (h : Completed P L g) (hA : Assigned L g [])
    (hapart : ∀ m e e', e ∈ g.instancesOf m → e' ∈ g.instancesOf m → e ≠ e' →
      g.heap.Unequal e.1 e'.1) (hlinked : g.Linked c) :
    ∃ g', g.Undisturbed g' ∧ ∀ n ≥ 5, Graph.run n g [.resolve c] = (g', .finished) ∧
      Graph.run n g' [.resolve c] = (g', .finished) := by
  obtain ⟨s, hs, -⟩ := id hlinked
  cases hin : g.inputs? s with
  | none =>
      have hresolve : g.perform (.resolve c) = (g, .ok []) := by
        simp [Graph.perform, Graph.resolve, hs, hin, Graph.next]
      have hrun : ∀ n ≥ 5, Graph.run n g [.resolve c] = (g, .finished) := fun n hn =>
        Graph.run_of_passes (.head hresolve (.refl _)) (by simp; omega)
      exact ⟨g, .refl g, fun n hn => ⟨hrun n hn, hrun n hn⟩⟩
  | some x =>
      obtain ⟨receiver, args⟩ := x
      obtain ⟨z, t, hrec, hedge⟩ : ∃ z t, g.Recalls c z t ∧ (c, .merge) ∈ g.observers z := by
        cases hmixed : (receiver.toList ++ args).any Ty.isMixed with
        | true => exact h.recalls_dispatch hA hs hlinked hin hmixed
        | false => exact h.recalls_inst hapart hs hlinked hin hmixed
      have hrests := h.rests hrec hedge
      refine ⟨g.pointed c t, g.undisturbed_pointed c t, fun n hn => ⟨hrests.run hn, ?_⟩⟩
      rw [(hrests.pointed t).run hn, Graph.pointed_pointed]

/-- Resolving a call again after a program was inferred disturbs nothing, and doing so once more
changes nothing at all. -/
theorem inferTypes_recalls (P : Program) (budget : Nat)
    (hfin : (inferTypes budget P.tree).2 = .finished)
    (hc : (inferTypes budget P.tree).1.graph.Reached P.tree rootOf c) :
    ∃ s, (inferTypes budget P.tree).1.graph.Undisturbed s.graph ∧
      ∀ n ≥ 5, (inferTypes budget P.tree).1.step n (.recalc c) = (s, .finished) ∧
        s.step n (.recalc c) = (s, .finished) := by
  rw [inferTypes_outcome] at hfin
  obtain ⟨done, hpass⟩ := Graph.passes_of_run_finished hfin
  rw [← inferTypes_graph] at hpass
  obtain ⟨T, hT⟩ := (Targeted.loaded P.tree (Graph.loaded P.tree, [.visit 0 P.tree rootOf])).passes
    hpass
  have hlinked := linked_of_reached hT.sound.graph hT.wired hT.root hT.members hc
  obtain ⟨L, hcourse⟩ := hpass.course (Labels.loaded P.tree)
  have hL : Completed P L _ := ⟨hcourse.attended (.loaded P), hcourse.warranted.2,
    tagsAt_subset_of_finished P.fieldFree hpass⟩
  have hA := hcourse.assigned (.loaded P.tree) (.loaded P.fieldFree.within) (assigned_loaded P.tree)
  obtain ⟨g', hg', hrun⟩ := hL.run_resolve hA
    (fun m e e' he he' hne => instances_unequal P.fieldFree hpass he he' hne) hlinked
  refine ⟨{ (inferTypes budget P.tree).1 with graph := g' }, hg', fun n hn => ?_⟩
  obtain ⟨h₁, h₂⟩ := hrun n hn
  simp only [Session.step, Session.run, h₁, h₂, and_self]

/-- The call is resolved again after its argument was assigned another type. -/
theorem inferTypes_recalls_early :
    let now := (inferTypes 150 early.tree).1
    ((inferTypes 150 early.tree).2 = .finished ∧ now.graph.Reached early.tree rootOf (rootOf + 6)) ∧
    ∃ s, now.graph.Undisturbed s.graph ∧ ∀ n ≥ 5, now.step n (.recalc (rootOf + 6)) = (s, .finished) ∧
      s.step n (.recalc (rootOf + 6)) = (s, .finished) := by
  intro now
  have hfin : (inferTypes 150 early.tree).2 = .finished := by decide +kernel
  have hreached : ∀ root : NodeId, now.graph.Reached early.tree root (root + 6) :=
    fun _ => .tree (List.mem_of_getElem? (i := 4) rfl) rfl
  exact ⟨⟨hfin, hreached rootOf⟩, inferTypes_recalls early 150 hfin (hreached rootOf)⟩

end TypeFlow
