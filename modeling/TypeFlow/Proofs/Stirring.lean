import TypeFlow.Proofs.Recording
import TypeFlow.Proofs.Wiring

/-! # No change is missed

A call whose inputs change is told to resolve itself again, and so is a call that has just been
taken up. Between two resolutions of a call its inputs are as they were. -/

namespace TypeFlow

/-! ## Tasks that make a call resolve itself -/

/-- A task makes a call resolve itself, at once or in a few steps. -/
def Task.Stirs (c : NodeId) : Task → Prop
  | .resolve o => o = c
  | .subscribe _ o r | .deliver _ o r | .react _ o r _ => o = c ∧ r = .resolve
  | _ => False

/-- A call will resolve itself. -/
def Stirred (ts : List Task) (c : NodeId) : Prop := ∃ task ∈ ts, task.Stirs c

theorem Stirred.append_left {ts rest : List Task} {c : NodeId} (h : Stirred ts c) :
    Stirred (ts ++ rest) c := by
  obtain ⟨task, htask, hs⟩ := h
  exact ⟨task, List.mem_append_left _ htask, hs⟩

theorem Stirred.append_right {ts rest : List Task} {c : NodeId} (h : Stirred rest c) :
    Stirred (ts ++ rest) c := by
  obtain ⟨task, htask, hs⟩ := h
  exact ⟨task, List.mem_append_right _ htask, hs⟩

namespace Graph

/-- The inputs of a call have types, and these are they. -/
def Given (g : Graph) (c : NodeId) (x : Option Ty × List Ty) : Prop :=
  ∃ s, g.site? c = some s ∧ g.inputs? s = some x

variable {g g' : Graph} {c : NodeId}

theorem Given.unique {x y : Option Ty × List Ty} (hx : g.Given c x) (hy : g.Given c y) :
    x = y := by
  obtain ⟨s, hs, hx⟩ := hx
  obtain ⟨s', hs', hy⟩ := hy
  rw [hs] at hs'
  cases hs'
  rw [hx] at hy
  exact Option.some.inj hy

theorem mapM_type_congr {vs : List NodeId} (h : ∀ v ∈ vs, g'.type v = g.type v) :
    vs.mapM g'.type = vs.mapM g.type := by
  induction vs with
  | nil => rfl
  | cons v vs ih =>
      rw [List.mapM_cons, List.mapM_cons, h v (List.mem_cons_self ..),
        ih fun u hu => h u (List.mem_cons_of_mem _ hu)]

theorem inputs?_congr {s s' : Site} (hs : s'.blank = s.blank)
    (ht : ∀ v ∈ s.inputs, g'.type v = g.type v) : g'.inputs? s' = g.inputs? s := by
  simp only [Site.blank, Site.mk.injEq] at hs
  obtain ⟨hreceiver, hargs, -⟩ := hs
  unfold inputs?
  rw [hreceiver, hargs, mapM_type_congr fun v hv => ht v (List.mem_append_right _ hv)]
  cases hr : s.receiver with
  | none => rfl
  | some r =>
      have : g'.type r = g.type r := ht r (List.mem_append_left _ (by simp [hr]))
      simp only [this]

/-- The types of the inputs decide what a call is given. -/
theorem Given.of_types (hgrows : Grows g g') {s : Site} (hs : g.site? c = some s)
    (ht : ∀ v ∈ g.inputsOf c, g'.type v = g.type v) {x : Option Ty × List Ty} :
    g'.Given c x ↔ g.Given c x := by
  obtain ⟨cell, hblank, hrole⟩ := blank_of_site hs
  obtain ⟨s', hs', heq⟩ := site_of_blank (hgrows.blank hblank) hrole
  rw [inputsOf_of_site hs] at ht
  simp only [Given, hs, hs', Option.some.injEq, exists_eq_left', inputs?_congr heq ht]

/-- What a call is given are types of its inputs. -/
theorem Given.typed {x : Option Ty × List Ty} (h : g.Given c x) {v : NodeId}
    (hv : v ∈ g.inputsOf c) : g.type v ≠ none := by
  obtain ⟨s, hs, hin⟩ := h
  rw [inputsOf_of_site hs] at hv
  obtain ⟨hr, hargs⟩ := inputs?_eq_some_iff.mp (show g.inputs? s = some (x.1, x.2) from hin)
  have : ∃ t, g.type v = some t := by
    rcases List.mem_append.mp hv with hv | hv
    · obtain ⟨t, -, ht⟩ := exists_of_forall₂ hr hv
      exact ⟨t, ht⟩
    · obtain ⟨t, -, ht⟩ := exists_of_forall₂ hargs hv
      exact ⟨t, ht⟩
  obtain ⟨t, ht⟩ := this
  simp [ht]

end Graph

/-! ## What calls hear of -/

/-- A call that a walk has taken up hears of its inputs. The inputs of a member of a dispatch never
change. -/
def Hears (L : Labels) (g : Graph) (ts : List Task) : Prop :=
  ∀ {c : Nat} {w r k e}, L c = some (.node w r k e) → g.Linked c →
    ∀ v ∈ g.inputsOf c, g.Observes ts v c .resolve

variable {L : Labels} {g g' : Graph} {task : Task} {ts rest : List Task} {c : NodeId}

theorem Sound.linked_isCall (hS : Sound L g) (h : g.Linked c) : L.IsCall c :=
  hS.entries (Graph.has_linked.mpr h)

section step

variable (hS : Sound L g) (hok : task.OK L g) (hp : g.perform task = (g', .ok ts))
include hS hok hp

/-- A task takes up a call by walking over it, or by adding it to a dispatch. -/
theorem linked_step (h : g'.Linked c) :
    g.Linked c ∨
      (∃ w rc nm as p, task = .visit w (.call rc nm as p) c ∧
        (Expr.call rc nm as p).isNew = false) ∨
      ∃ d r as, task = .member d r as ∧ c = g.memberAt r as := by
  have hrec := has_perform hS hok (e := .mark c .linked) (by
    rw [hp]
    exact Graph.has_linked.mpr h)
  rcases hrec with h | h
  · exact .inl (Graph.has_linked.mp h)
  · generalize hen : Entry.mark c .linked = en at h
    cases h with
    | linked hnew =>
        cases hen
        exact .inr (.inl ⟨_, _, _, _, _, rfl, hnew⟩)
    | taken =>
        cases hen
        exact .inr (.inr ⟨_, _, _, rfl, rfl⟩)
    | read h | bound h =>
        rcases h.var_or_field with rfl | ⟨_, -, rfl⟩ <;> cases hen
    | inst h =>
        subst hen
        cases h
    | _ => cases hen

/-- A call that was just taken up will resolve itself. -/
theorem stirred_of_linked (h : g'.Linked c) : g.Linked c ∨ Stirred (ts ++ rest) c := by
  rcases linked_step hS hok hp h with h | ⟨w, rc, nm, as, p, rfl, hnew⟩ | ⟨d, r, as, rfl, rfl⟩
  · exact .inl h
  · refine .inr (Stirred.append_left ?_)
    rcases g.visit_call w rc nm as p c with ⟨-, hvisit⟩ | ⟨k, rfl, hk, -⟩
    · rw [Graph.perform, hvisit] at hp
      cases hp
      cases as with
      | cons a as =>
          refine ⟨.subscribe (c + 1 + Expr.sizeOption rc) c .resolve, ?_, rfl, rfl⟩
          simp [Expr.spread]
      | nil =>
          cases rc with
          | some r => exact ⟨.subscribe (c + 1) c .resolve, by simp, rfl, rfl⟩
          | none => exact ⟨.resolve c, by simp [Expr.spread], rfl⟩
    · simp [Expr.isNew, hk] at hnew
  · obtain ⟨x, hd, -⟩ := hok
    obtain ⟨y, hy, -⟩ := Graph.dispatch_of_blank (hS.fits hd).1 rfl
    rw [Graph.perform, Graph.addMember_eq hy] at hp
    cases hp
    exact .inr ⟨.resolve _, by simp, rfl⟩

theorem hears_step (h : Hears L g (task :: rest)) : Hears (L.performed g task) g' (ts ++ rest) := by
  intro c w r k e hc hlinked v hv
  have hext := extends_of_perform hS hok hp
  rcases linked_step hS hok hp hlinked with hl | ⟨w', rc, nm, as, p, rfl, hnew⟩ |
      ⟨d, r, as, rfl, rfl⟩
  · obtain ⟨l, hl', -⟩ := (hS.linked_isCall hl).isOpen
    have hlt := hS.bound hl'
    rw [hext.label c hlt] at hc
    rw [hext.grows.inputsOf hlt] at hv
    exact observes_step hS hok hp (h hc hl v hv)
  · have hduty := duty_visit hS hok hp
    simp only [Graph.Duty, hnew, Bool.false_eq_true, if_false] at hduty
    exact (hduty.2 v hv).imp_right (List.mem_append_left _)
  · exact (plain_performed hS (by simp) _ (Nat.le_add_right ..) w _ k e hc).elim

/-- A task leaves the inputs of a call as they are, or the call will resolve itself. -/
theorem stirred_of_change (hh : Hears L g (task :: rest)) (hl : g.Linked c) :
    (∀ v ∈ g.inputsOf c, g'.type v = g.type v) ∨ Stirred (ts ++ rest) c := by
  have hcall := hS.linked_isCall hl
  have hstore : ∀ n t, g.storeType n t = (g', .ok ts) → L.IsOpen n →
      (∀ s o r, task ≠ .subscribe s o r) →
      (∀ v ∈ g.inputsOf c, g'.type v = g.type v) ∨ Stirred (ts ++ rest) c := by
    intro n t hst hopen htask
    rcases g.storeType_cases n t with ⟨h, -⟩ | ⟨h, -⟩
    · rw [h] at hst
      cases hst
      exact .inl fun _ _ => rfl
    · rw [h] at hst
      cases hst
      by_cases hn : n ∈ g.inputsOf c
      · right
        obtain ⟨w, r, k, e, hc⟩ : ∃ w r k e, L c = some (.node w r k e) := by
          rcases hcall with ⟨w, r, k, rc, nm, as, p, hc, -⟩ | ⟨d, r, as, hc⟩
          · exact ⟨_, _, _, _, hc⟩
          · obtain ⟨t', ht'⟩ := hS.input_of_member hc hn
            obtain ⟨l, hl, hfixed⟩ := hopen
            rw [ht'] at hl
            cases hl
            cases hfixed
        rcases hh hc hl n hn with hedge | hsub
        · refine Stirred.append_left ⟨.deliver n c .resolve, ?_, rfl, rfl⟩
          exact List.mem_map.mpr ⟨(c, .resolve), Graph.has_edge.mp hedge, rfl⟩
        · rcases List.mem_cons.mp hsub with hsub | hsub
          · exact (htask _ _ _ hsub.symm).elim
          · exact Stirred.append_right ⟨_, hsub, rfl, rfl⟩
      · left
        intro v hv
        rw [Graph.type_setType, if_neg]
        rintro ⟨rfl, -⟩
        exact hn hv
  by_cases hs : ∃ n t, task = .store n t
  · obtain ⟨n, t, rfl⟩ := hs
    obtain ⟨⟨w, r, k, e, hn⟩, -⟩ := hok
    exact hstore n t hp ⟨_, hn, rfl⟩ (by simp)
  · by_cases hw : ∃ n t, task = .widen n t
    · obtain ⟨n, t, rfl⟩ := hw
      rw [Graph.perform, hS.widenType_eq hok.2] at hp
      exact hstore n _ hp hok.1 (by simp)
    · left
      intro v hv
      have hcalm := calm_perform hS hok (fun n t h => hs ⟨n, t, h⟩) fun n t h => hw ⟨n, t, h⟩
      rw [hp] at hcalm
      refine hcalm.type v ?_
      rcases hS.input_of_call hcall hv with ⟨w, r, k, e, hl, -⟩ | ⟨t, hl⟩ <;> exact hS.bound hl

/-- A call whose inputs have types resolves itself in the end. -/
theorem stirred_step (hin : ∀ v ∈ g.inputsOf c, g.type v ≠ none)
    (h : Stirred (task :: rest) c) : task = .resolve c ∨ Stirred (ts ++ rest) c := by
  obtain ⟨t, ht, hs⟩ := h
  rcases List.mem_cons.mp ht with heq | ht
  · subst heq
    cases t with
    | resolve o =>
        cases hs
        exact .inl rfl
    | subscribe s o r =>
        obtain ⟨rfl, rfl⟩ := hs
        obtain ⟨t, ht⟩ := Option.ne_none_iff_exists'.mp (hin s hok.2.2.1)
        simp only [Graph.perform, Graph.subscribe, ht] at hp
        cases hp
        exact .inr ⟨.react (some s) o .resolve (some t), by simp, rfl, rfl⟩
    | deliver s o r =>
        obtain ⟨rfl, rfl⟩ := hs
        have he : g.EdgeOK L s o .resolve := hok
        rw [Graph.perform, hS.react_eq he] at hp
        cases hp
        exact .inr ⟨.resolve o, by simp [reactionTasks], rfl⟩
    | react s o r t =>
        obtain ⟨rfl, rfl⟩ := hs
        obtain ⟨s', t', rfl, rfl, he, -⟩ := hok
        rw [Graph.perform, hS.react_eq he] at hp
        cases hp
        exact .inr ⟨.resolve o, by simp [reactionTasks], rfl⟩
    | _ => cases hs
  · exact .inr (Stirred.append_right ⟨t, ht, hs⟩)

end step

theorem not_linked_loaded (tree : Expr) (c : NodeId) : ¬ (Graph.loaded tree).Linked c := by
  intro h
  have hcall : (Labels.builtins Graph.withBuiltins).IsCall c := has_loaded (Graph.has_linked.mpr h)
  rcases hcall with ⟨w, r, k, rc, nm, as, p, hc, -⟩ | ⟨d, r, as, hc⟩ <;>
    · unfold Labels.builtins at hc
      split at hc <;> cases hc

theorem hears_loaded (tree : Expr) :
    Hears (Labels.loaded tree) (Graph.loaded tree) [.visit 0 tree rootOf] :=
  fun _ h => (not_linked_loaded tree _ h).elim

end TypeFlow
