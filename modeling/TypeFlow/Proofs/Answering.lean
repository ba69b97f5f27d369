import TypeFlow.Proofs.Supplying

/-! # Every call has its answer

A call whose inputs have types is resolved again whenever they change. Whatever it was resolved to
last is for types of the names that the inputs have: an instance of the method that the tables say,
or a dispatch with a member for each choice of concrete types. -/

namespace TypeFlow

variable {P : Program} {L L' : Labels} {g g' : Graph} {task : Task} {ts rest : List Task}

/-! ## Answers -/

/-- An instance is kept for types of these names, of the method that the tables say. -/
def Graph.KeepsFor (P : Program) (g : Graph) (r : Option Tag) (name : String) (as : List Tag)
    (y : Instance) : Prop :=
  ∃ m key i, P.tables.find? r name = some m ∧ g.Has (.mark m (.cached key i)) ∧
    g.heap.tagRow key = (as.map fun t => some {t}) ∧ g.instances[i]? = some y

/-- What a call merges, or is about to merge, is for inputs of these types. -/
inductive Graph.Answered (P : Program) (L : Labels) (g : Graph) (ts : List Task) (c : NodeId)
    (name : String) : Option Ty → List Ty → Prop where
  | inst {r : Option Atom} {as : List Atom} {y : Instance} :
      g.KeepsFor P (r.map g.heap.tag) name (as.map g.heap.tag) y → g.Observes ts y.body c .merge →
      g.Answered P L ts c name (r.map .one) (as.map .one)
  | dispatch {d : NodeId} {y : Dispatch} {receiver : Option Ty} {args : List Ty} :
      (receiver.toList ++ args).any Ty.isMixed = true → L d = some (.dispatch y) →
      y.name.text = name →
      g.heap.tagRow (y.receiver :: y.args.map some) = g.heap.tagRow (receiver :: args.map some) →
      g.Observes ts d c .merge → g.Answered P L ts c name receiver args

/-- Each call that was taken up and whose inputs have types has its answer, or will be resolved. -/
def Answering (P : Program) (L : Labels) (g : Graph) (ts : List Task) : Prop :=
  ∀ {c s receiver args}, g.site? c = some s → g.Linked c → g.inputs? s = some (receiver, args) →
    Stirred ts c ∨ g.Answered P L ts c s.name.text receiver args

section step

variable (hU : Underway P L (g, task :: rest)) (hp : g.perform task = (g', .ok ts))
include hU hp

/-- An answer lasts. -/
theorem answered_step {c : NodeId} {s : Site} {receiver : Option Ty} {args : List Ty}
    (hin : g.inputs? s = some (receiver, args))
    (h : g.Answered P L (task :: rest) c s.name.text receiver args) :
    g'.Answered P (L.performed g task) (ts ++ rest) c s.name.text receiver args := by
  have hS : Sound L g := hU.sound.graph
  have hT : Tame P.tree.classNames L g := hU.tame.graph
  have hok := hU.sound.tasks task (List.mem_cons_self ..)
  have hl := later_of_perform hS hok hp
  have hgrows := hl.extend.grows
  cases h with
  | @inst r as y h hobs =>
      have hvalid := hS.inputs_valid hin
      have hr : r.map g.heap.tag = r.map g'.heap.tag := by
        refine (Option.map_congr fun a ha => hl.tag_eq (hvalid _ ?_)).symm
        simp [Option.mem_def.mp ha]
      have has : as.map g.heap.tag = as.map g'.heap.tag :=
        (hl.map_tag fun a ha => hvalid _ (by simp [ha])).symm
      rw [hr, has] at h
      obtain ⟨m, key, i, hfind, hkey, hrow, hy⟩ := h
      refine .inst ⟨m, key, i, hfind, lasts_of_perform hS hok hp _ rfl hkey, ?_,
        hgrows.inst hy⟩ (observes_step hS hok hp hobs)
      rw [(hT.cached hkey).tagRow_eq hgrows, hrow]
  | @dispatch d y _ _ hmixed hd hname hrow hobs =>
      refine .dispatch hmixed (hl.extend.keeps hS hd) hname ?_ (observes_step hS hok hp hobs)
      have hrow' : TameRow P.tree.classNames g (y.receiver :: y.args.map some) :=
        .inputs (hT.labels hd)
      rw [hrow'.tagRow_eq hgrows, hrow, (TameRow.inputs (hT.inputs hin)).tagRow_eq hgrows]

/-- A call that is resolved finds its answer. -/
theorem answered_resolve {c : NodeId} (htask : task = .resolve c) {s : Site}
    (hs : g.site? c = some s) {receiver : Option Ty} {args : List Ty}
    (hin : g.inputs? s = some (receiver, args)) :
    g'.Answered P (L.performed g task) (ts ++ rest) c s.name.text receiver args := by
  have hS : Sound L g := hU.sound.graph
  have hT : Tame P.tree.classNames L g := hU.tame.graph
  have hU' := hU.step hp
  have hok := hU.sound.tasks task (List.mem_cons_self ..)
  have hB : Graph.Booked P.tables g := by
    rw [htask] at hU
    exact hU.booked
  subst htask
  obtain ⟨L₁, hL₁, hcases⟩ := resolves_site hS hok.1 hs hp
  rw [hL₁] at hU' ⊢
  cases hcases with
  | waiting hnone =>
      rw [hin] at hnone
      cases hnone
  | @dispatch receiver' args' d hin' hmixed hfind =>
      rw [hin] at hin'
      cases hin'
      obtain ⟨y, hd, hname, hrow⟩ := found_dispatch hS hT hok.2 hs hin hfind
      exact .dispatch hmixed hd (by rw [hname]) hrow (.inr (by simp))
  | @newDispatch receiver' args' n hin' hmixed hfind =>
      rw [hin] at hin'
      cases hin'
      exact .dispatch hmixed (L.append_size g _) rfl rfl (.inr (by simp))
  | @inst receiver' args' method m i x hcalls hfind hx =>
      have heq := hin.symm.trans hcalls.inputs
      cases heq
      obtain ⟨r, as, rfl, rfl, hvalid⟩ := hcalls.concrete_inputs hS
      obtain ⟨key, hkey, hrow⟩ := hU.tagRow_of_find hcalls hfind
      have hfound : P.tables.find? _ s.name.text = _ := hB.find_concrete hvalid
      rw [hcalls.scope] at hfound
      exact .inst ⟨method, key, i, hfound, hkey, hrow, hx⟩ (.inr (by simp))
  | @newInst receiver' args' method m w q k nm ps b hcalls hfind hm hps =>
      have heq := hin.symm.trans hcalls.inputs
      cases heq
      have hb : g.Begins L (.resolve c) _ _ c s receiver args method m b :=
        ⟨rfl, hs, hcalls, hfind, ⟨_, _, _, _, _, hm, hps⟩, rfl, rfl⟩
      have hkey : (g.specialized c s method m.params b receiver args).Has _ :=
        has_cached_specialized hS hcalls.found hfind
      have hx := Graph.instances_specialized g c s method m.params b receiver args
      obtain ⟨r, as, rfl, rfl, -, -, hfound, -⟩ := hb.opens hU hp (.refl _ _)
      refine .inst ⟨method, _, _, hfound, hkey, ?_, hx⟩ (.inr (by simp [Graph.newInstance]))
      rw [List.map_map]
      exact Heap.tagRow_concrete _ as

theorem answering_step (hh : Hears L g (task :: rest)) (h : Answering P L g (task :: rest)) :
    Answering P (L.performed g task) g' (ts ++ rest) := by
  intro c s receiver args hs hlinked hin
  have hS : Sound L g := hU.sound.graph
  have hok := hU.sound.tasks task (List.mem_cons_self ..)
  have hgrows := (extends_of_perform hS hok hp).grows
  rcases stirred_of_linked hS hok hp hlinked with hold | hstirred
  · rcases stirred_of_change hS hok hp hh hold with htypes | hstirred
    · -- The inputs are as they were, and so is the answer unless the call is resolved just now.
      obtain ⟨s₀, hs₀, -⟩ := id hold
      have hgiven : g.Given c (receiver, args) :=
        (Graph.Given.of_types hgrows hs₀ htypes).mp ⟨s, hs, hin⟩
      have hname : s.name = s₀.name := by
        obtain ⟨cell, hblank, hrole⟩ := Graph.blank_of_site hs₀
        obtain ⟨s', hs', heq⟩ := Graph.site_of_blank (hgrows.blank hblank) hrole
        rw [hs] at hs'
        cases hs'
        have := congrArg Site.name heq
        exact this
      obtain ⟨s₁, hs₁, hin₀⟩ := id hgiven
      rw [hs₀] at hs₁
      cases hs₁
      rw [hname]
      rcases h hs₀ hold hin₀ with hstirred | hans
      · rcases stirred_step hS hok hp (fun v hv => hgiven.typed hv) hstirred with htask | hstirred
        · exact .inr (answered_resolve hU hp htask hs₀ hin₀)
        · exact .inl hstirred
      · exact .inr (answered_step hU hp hin₀ hans)
    · exact .inl hstirred
  · exact .inl hstirred

end step

/-! ## Members of dispatches -/

/-- A dispatch has a member for each choice of concrete types, or is about to get one. -/
def Staffed (L : Labels) (g : Graph) (ts : List Task) : Prop :=
  ∀ {d y r as}, L d = some (.dispatch y) → Ty.Chosen y.receiver y.args r as →
    .member d r as ∈ ts ∨ ∃ c, L c = some (.member d r as) ∧ g.Linked c ∧
      g.Given c (r.map .one, as.map .one) ∧ g.Observes ts c d .merge

/-- A new member is given the types that were chosen for it. -/
theorem given_addMember {d : NodeId} {x : Dispatch} (hd : g.dispatch? d = some x)
    {r : Option Atom} {as : List Atom} (hp : g.addMember d r as = (g', .ok ts)) :
    g'.Given (g.memberAt r as) (r.map .one, as.map .one) := by
  rw [Graph.addMember_eq hd] at hp
  let f (z : Dispatch) : Dispatch := { z with
    calls := z.calls.putBy (g.withMember x r as).sameMember (r, as) (g.memberAt r as) }
  have hgrow : Graph.Grows (g.withMember x r as) ((g.withMember x r as).modifyDispatch d f) :=
    Graph.grows_modifyDispatch _ d fun _ => rfl
  have hslots : ∀ (j : Nat) s, (memberSlots r as)[j]? = some s →
      (g.withMember x r as).type (g.cells.size + j : Nat) = some s.2 := by
    intro j s hj
    have htype := type_addSlots (g := g) hj
    obtain ⟨cell, hcell, -⟩ := Option.bind_eq_some_iff.mp htype
    rw [Graph.withMember, (Graph.calm_addCell _ _).type _ (Array.getElem?_eq_some_iff.mp hcell).1]
    exact htype
  have hslots' : ∀ (j : Nat) s, (memberSlots r as)[j]? = some s →
      ((g.withMember x r as).modifyDispatch d f).type (g.cells.size + j : Nat) = some s.2 := by
    intro j s hj
    obtain ⟨cell, hcell, -⟩ := Option.bind_eq_some_iff.mp (hslots j s hj)
    rw [(Graph.calm_modifyDispatch d f).type _ (Array.getElem?_eq_some_iff.mp hcell).1]
    exact hslots j s hj
  have hblank : (g.withMember x r as).blank (g.memberAt r as) =
      some (Cell.blank { role := .call (x.member g.cells.size r as) }) := by
    rw [Graph.blank, g.cell_memberAt x r as]
    rfl
  obtain ⟨s, hs, heq⟩ := Graph.site_of_blank (hgrow.blank hblank) rfl
  have hreceiver : s.receiver = (x.member g.cells.size r as).receiver := by
    have := congrArg Site.receiver heq
    exact this
  have hargs : s.args = (x.member g.cells.size r as).args := by
    have := congrArg Site.args heq
    exact this
  obtain ⟨hr, has⟩ := x.forall₂_member (R := fun v t =>
    ((g.withMember x r as).modifyDispatch d f).type v = some t) hslots'
  cases hp
  refine ⟨s, hs, Graph.inputs?_eq_some_iff.mpr ⟨?_, ?_⟩⟩
  · rw [hreceiver]
    cases r with
    | none => exact .nil
    | some a => exact (List.forall₂_map_right_iff (u := [a])).mpr hr
  · rw [hargs, List.forall₂_map_right_iff]
    exact has

section step

variable (hU : Underway P L (g, task :: rest)) (hp : g.perform task = (g', .ok ts))
include hU hp

theorem staffed_step (h : Staffed L g (task :: rest)) :
    Staffed (L.performed g task) g' (ts ++ rest) := by
  intro d y r as hd hch
  have hS : Sound L g := hU.sound.graph
  have hok := hU.sound.tasks task (List.mem_cons_self ..)
  have hext := extends_of_perform hS hok hp
  rcases made_step hU.sound hp hd with hold | ⟨n, -, -⟩
  · rcases h hold hch with hwait | ⟨c, hc, hlinked, hgiven, hobs⟩
    · rcases List.mem_cons.mp hwait with rfl | hwait
      · obtain ⟨x, hx, -⟩ := Graph.dispatch_of_blank (hS.fits hold).1 rfl
        have hgiven := given_addMember hx hp
        have hlabel : L.joined g d r as (g.memberAt r as) = some (.member d r as) :=
          Labels.joined_memberAt
        have htasks := (hU.step hp).sound.tasks
        rw [Graph.perform, Graph.addMember_eq hx] at hp
        cases hp
        exact .inr ⟨_, hlabel, (htasks (.resolve (g.memberAt r as)) (by simp)).1, hgiven,
          .inr (by simp)⟩
      · exact .inl (List.mem_append_right _ hwait)
    · refine .inr ⟨c, hext.keeps hS hc, hext.grows.linked hlinked, ?_,
        observes_step hS hok hp hobs⟩
      obtain ⟨s, hs, -⟩ := id hgiven
      refine (Graph.Given.of_types hext.grows hs fun v hv => ?_).mpr hgiven
      obtain ⟨t, ht⟩ := hS.input_of_member hc hv
      exact type_of_fixed hS hok hp ht rfl
  · refine .inl (List.mem_append_left _ (List.mem_append_left _ ?_))
    exact Graph.mem_memberTasks.mpr ⟨r, as, rfl, hch.1, hch.2⟩

end step

end TypeFlow
