import TypeFlow.Proofs.Expanding

/-! # Dispatches are made for one call

A dispatch is made for a call whose inputs are unions and is kept under that call and the types of
its inputs. Without instance variables types are told apart by the names of their members, so a call
has one dispatch for each row of names, and it never observes a dispatch of another call. -/

namespace TypeFlow

variable {names : List String} {L L' : Labels} {g g' : Graph} {task : Task} {ts rest : List Task}
  {c d : NodeId}

/-- A call with a union among its inputs is no member of a dispatch, so it has a name token of its
own. -/
theorem Sound.origin_of_mixed (hS : Sound L g) (hc : L.IsCall c) {s : Site}
    (hs : g.site? c = some s) {receiver : Option Ty} {args : List Ty}
    (hin : g.inputs? s = some (receiver, args))
    (hmixed : (receiver.toList ++ args).any Ty.isMixed = true) : s.origin = c := by
  rcases hc with ⟨_, _, _, _, _, _, _, hc, -⟩ | ⟨_, r, as, hc⟩
  · exact (hS.site_of_node hs hc).2.2.2
  · obtain ⟨rfl, rfl⟩ := hS.inputs_of_member hs hc hin
    cases r <;> simp [Ty.isMixed] at hmixed

/-- A dispatch that was made for a call, and for types of the names that its inputs have, is found. -/
theorem Sound.find_of_listed (hS : Sound L g) (hT : Tame names L g) {y : Dispatch}
    (hd : L d = some (.dispatch y)) (hmem : d ∈ g.dispatches) {s : Site} {receiver : Option Ty}
    {args : List Ty} (hin : g.inputs? s = some (receiver, args)) (horigin : y.origin = s.origin)
    (htags : g.heap.tagRow (y.receiver :: y.args.map some) =
      g.heap.tagRow (receiver :: args.map some)) :
    g.findDispatch? s.origin receiver args ≠ none := by
  intro hfind
  obtain ⟨x, hx, rfl⟩ := Graph.dispatch_of_blank (hS.fits hd).1 rfl
  have hnone := List.find?_eq_none.mp hfind d hmem
  simp only [hx, Bool.and_eq_true, beq_iff_eq] at hnone
  exact hnone ⟨horigin, ((hT.dispatch hS hmem hx).sameRow_iff hT.flat
    (.inputs (hT.inputs hin))).mpr htags⟩

/-- A dispatch that a call finds was made for it, and for types of the names that its inputs have. -/
theorem Sound.listed_of_find (hS : Sound L g) (hT : Tame names L g) {s : Site}
    {receiver : Option Ty} {args : List Ty} (hin : g.inputs? s = some (receiver, args))
    (hfind : g.findDispatch? s.origin receiver args = some d) :
    ∃ y, L d = some (.dispatch y) ∧ y.origin = s.origin ∧
      g.heap.tagRow (y.receiver :: y.args.map some) =
        g.heap.tagRow (receiver :: args.map some) := by
  obtain ⟨hmem, x, hx, horigin, hsame⟩ := Graph.exists_of_findDispatch hfind
  exact ⟨_, hS.label_of_dispatch hmem hx, horigin,
    ((hT.dispatch hS hmem hx).sameRow_iff hT.flat (.inputs (hT.inputs hin))).mp hsame⟩

/-- Each dispatch is listed, no two of them are for one call and types of the same names, and no
call observes, or is about to, a dispatch that was made for another one. -/
structure Assigned (L : Labels) (g : Graph) (ts : List Task) : Prop where
  listed : ∀ {d y}, L d = some (.dispatch y) → d ∈ g.dispatches
  apart : ∀ {d d' y y'}, L d = some (.dispatch y) → L d' = some (.dispatch y') →
    y.origin = y'.origin → g.heap.tagRow (y.receiver :: y.args.map some) =
      g.heap.tagRow (y'.receiver :: y'.args.map some) → d = d'
  edge : ∀ {d y o r}, L d = some (.dispatch y) → L.IsCall o → (o, r) ∈ g.observers d → o = y.origin
  tasks : ∀ {d y o r}, L d = some (.dispatch y) → L.IsCall o → .subscribe d o r ∈ ts →
    o = y.origin

section step

variable (hS : Sound.Config L (g, task :: rest)) (hT : Tame.Config names L (g, task :: rest))
  (hp : g.perform task = (g', .ok ts))
include hS hp

/-- A call that has just been pointed at a dispatch is the one that the dispatch was made for. -/
theorem pointed_step {y : Dispatch} {o : NodeId} {r : Reaction}
    (hd : L.performed g task d = some (.dispatch y)) (ho : (L.performed g task).IsCall o)
    (ht : .subscribe d o r ∈ ts) : o = y.origin := by
  have hS₀ : Sound L g := hS.graph
  have hok := hS.tasks _ (List.mem_cons_self ..)
  obtain ⟨hext, hS'⟩ := hS.step hp
  have hedge : g'.EdgeOK (L.performed g task) d o r := hS'.tasks _ (List.mem_append_left _ ht)
  -- Only calls are nodes that a dispatch is told to.
  have hcall : ∀ {w q k e}, L.performed g task o = some (.node w q k e) →
      ∃ rc nm as p, e = .call rc nm as p := by
    intro w q k e hn
    rcases ho with ⟨_, _, _, _, _, _, _, ho, -⟩ | ⟨_, _, _, ho⟩ <;> rw [hn] at ho <;> cases ho
    exact ⟨_, _, _, _, rfl⟩
  have hmerge : r = .merge := by
    cases r with
    | merge => rfl
    | other => exact hedge.2.2.elim
    | resolve =>
        rcases hS'.graph.input_of_call hedge.2.2.2.1 hedge.2.2.1 with ⟨_, _, _, _, hl, -⟩ | ⟨_, hl⟩ <;>
          rw [hd] at hl <;> cases hl
  subst hmerge
  cases leads_perform hS₀ hok hp ht with
  | @connected w e s n r hseed =>
      obtain ⟨⟨q, k, hn⟩, -⟩ := hok
      obtain ⟨rc, nm, as, p, rfl⟩ := hcall (hext.keeps hS₀ hn)
      cases follows_of_visit none hp ht
  | @bound w p _ _ hv =>
      obtain ⟨-, -, hplace, -⟩ := extends_placeOf hS₀ w p (d + 1)
      have hslot := (hplace _ hv).slot
      rcases ho with ⟨_, _, _, _, _, _, _, ho, -⟩ | ⟨_, _, _, ho⟩ <;>
        rcases hslot with ⟨_, _, hl⟩ | ⟨_, _, hl⟩ <;>
        cases (show some _ = some _ from hl.symm.trans ho)
  | @shown w p n v =>
      obtain ⟨⟨q, k, e, hn⟩, -⟩ := hok
      have htarget := hS₀.part hn (p := ⟨n + 1, k, .place p⟩) (by simp [Expr.parts])
      obtain ⟨_, _, _, _, heq⟩ := hcall (hext.keeps hS₀ htarget)
      cases heq
  | joined =>
      obtain ⟨x, hx, -⟩ := hok
      have hx := hext.keeps hS₀ hx
      rcases ho with ⟨_, _, _, _, _, _, _, ho, -⟩ | ⟨_, _, _, ho⟩ <;> rw [hx] at ho <;> cases ho
  | pointed =>
      obtain ⟨s, L₁, hs, hL₁, hcases⟩ := resolves_perform hS₀ hok.1 hp
      have hcallee : ∀ {receiver args}, g.inputs? s = some (receiver, args) →
          (receiver.toList ++ args).any Ty.isMixed = true → s.origin = o :=
        fun hin hmixed => hS₀.origin_of_mixed hok.2 hs hin hmixed
      rw [hL₁] at hd hS' hext
      cases hcases with
      | waiting => cases ht
      | @dispatch receiver args d' hin hmixed hfind =>
          obtain rfl : d = d' := by simpa using ht
          obtain ⟨-, x, hx, horigin, -⟩ := Graph.exists_of_findDispatch hfind
          have hy := hS₀.label_eq_dispatch ⟨y, hd⟩ hx
          rw [hd] at hy
          cases hy
          exact (hcallee hin hmixed).symm.trans horigin.symm
      | @newDispatch receiver args n hin hmixed =>
          obtain rfl : d = g.cells.size := by simpa [Graph.mem_memberTasks] using ht
          rw [L.append_size] at hd
          cases hd
          exact (hcallee hin hmixed).symm
      | @inst receiver args method m i x hcalls hfind hx =>
          obtain rfl : d = x.body := by simpa using ht
          rcases hS₀.entries (e := .inst i x) hx with ⟨-, hbody⟩ | ⟨_, _, _, _, _, _, _, -, -, -, hbody⟩ <;>
            rw [hd] at hbody <;> cases hbody
      | newInst hcalls hfind hm hps =>
          obtain rfl : d = g.cells.size := by simpa using ht
          obtain ⟨⟨r, k, hbody⟩, -⟩ := hS'.tasks _ (List.mem_cons_self ..)
          rw [hd] at hbody
          cases hbody

include hT in
theorem assigned_step (h : Assigned L g (task :: rest)) :
    Assigned (L.performed g task) g' (ts ++ rest) := by
  have hS₀ : Sound L g := hS.graph
  have hT₀ : Tame names L g := hT.graph
  have hok := hS.tasks _ (List.mem_cons_self ..)
  obtain ⟨hext, hS'⟩ := hS.step hp
  have hlasts := lasts_of_perform hS₀ hok hp
  -- What an edge leads to was there before.
  have hkept : ∀ {d y o r}, g.EdgeOK L d o r → L.performed g task d = some (.dispatch y) →
      (L.performed g task).IsCall o → L d = some (.dispatch y) ∧ L.IsCall o := by
    rintro d y o r ⟨hne, ⟨l, hl, -⟩, -⟩ hd ho
    rw [hext.eq_of_ne hS₀ hne] at hd
    refine ⟨hd, ?_⟩
    rw [Labels.IsCall, hext.keeps hS₀ hl, ← hl] at ho
    exact ho
  have hrow : ∀ {d y}, L d = some (.dispatch y) →
      g'.heap.tagRow (y.receiver :: y.args.map some) =
        g.heap.tagRow (y.receiver :: y.args.map some) := fun hd =>
    (TameRow.inputs (hT₀.labels hd)).tagRow_eq hext.grows
  constructor
  · intro d y hd
    rcases made_step hS hp hd with hd | ⟨n, -, -⟩
    · exact hlasts (.dispatch d) rfl (h.listed hd)
    · exact List.mem_append_right _ (List.mem_singleton_self _)
  · intro d d' y y' hd hd' horigin htags
    -- A dispatch that is made now is for types that no other one of its call is for.
    have hnew : ∀ {e z c s receiver args}, L e = some (.dispatch z) → g.site? c = some s →
        g.inputs? s = some (receiver, args) → g.findDispatch? s.origin receiver args = none →
        z.origin = s.origin → g'.heap.tagRow (z.receiver :: z.args.map some) ≠
          g'.heap.tagRow (receiver :: args.map some) := by
      intro e z c s receiver args he hs hin hfind horigin htags
      rw [hrow he, (TameRow.inputs (hT₀.inputs hin)).tagRow_eq hext.grows] at htags
      exact hS₀.find_of_listed hT₀ he (h.listed he) hin horigin htags hfind
    rcases made_step hS hp hd with hold | ⟨n, hs, hin, -, hfind⟩
    · rcases made_step hS hp hd' with hold' | ⟨n, hs, hin, -, hfind⟩
      · rw [hrow hold, hrow hold'] at htags
        exact h.apart hold hold' horigin htags
      · exact (hnew hold hs hin hfind horigin htags).elim
    · rcases made_step hS hp hd' with hold' | hmade
      · exact (hnew hold' hs hin hfind horigin.symm htags.symm).elim
      · exact hmade.eq_size.symm
  · intro d y o r hd ho hedge
    rcases edge_step hS₀ hok hp hedge with hedge | rfl
    · obtain ⟨hd, ho⟩ := hkept (hS₀.edge hedge) hd ho
      exact h.edge hd ho hedge
    · obtain ⟨hd, ho⟩ := hkept hok hd ho
      exact h.tasks hd ho (List.mem_cons_self ..)
  · intro d y o r hd ho ht
    rcases List.mem_append.mp ht with ht | ht
    · exact pointed_step hS hp hd ho ht
    · have ht := List.mem_cons_of_mem task ht
      obtain ⟨hd, ho⟩ := hkept (hS.tasks _ ht) hd ho
      exact h.tasks hd ho ht

end step

theorem assigned_loaded (tree : Expr) :
    Assigned (Labels.loaded tree) (Graph.loaded tree) [.visit 0 tree rootOf] := by
  have hnone : ∀ {d y}, Labels.loaded tree d ≠ some (.dispatch y) := by
    intro d y hd
    rcases label_loaded hd with ⟨heq, -⟩ | ⟨q, -, -, heq⟩ <;> cases heq
  exact ⟨fun hd => (hnone hd).elim, fun hd => (hnone hd).elim, fun hd => (hnone hd).elim,
    fun hd => (hnone hd).elim⟩

theorem Course.assigned {c c' : Graph.Config} (h : Course L c L' c') (hS : Sound.Config L c)
    (hT : Tame.Config names L c) (hA : Assigned L c.1 c.2) : Assigned L' c'.1 c'.2 := by
  induction h with
  | done => exact hA
  | step hp _ ih => exact ih (hS.step hp).2 (hT.step hS hp) (assigned_step hS hT hp hA)

end TypeFlow
