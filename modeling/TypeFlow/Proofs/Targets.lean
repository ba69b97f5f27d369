import TypeFlow.Proofs.Ending
import TypeFlow.Proofs.Suiting

/-! # The targets that calls end up with

Whatever changes the inputs of a call makes it resolve itself again. A resolution lets the call
observe its target before it records the target, and the call may be resolved anew in between. Then
the newer target is recorded first, and the older one replaces it. -/

namespace TypeFlow

variable {L : Labels} {g g' : Graph} {task : Task} {ts rest : List Task} {c : NodeId}

/-! ## Resolutions in the course of a run -/

namespace Graph

/-- A run is in the course of resolving a call. The call was given inputs of some types, and found a
target that suits them; some tasks were performed since, and the target is yet to be recorded. -/
def Resolving (start : Config) (c : NodeId) (x : Option Ty × List Ty) (t : Target)
    (during rest : List Task) (now : Config) : Prop :=
  ∃ before g g' ts, Passes start before (g, .resolve c :: rest) ∧ g.Given c x ∧
    g.perform (.resolve c) = (g', .ok (ts ++ [.aim c t])) ∧ g'.Suits x t ∧
    Passes (g', ts ++ .aim c t :: rest) during now

/-- Of all resolutions of a call that have come to their end, this is the one that did so last. -/
def LastResolved (start : Config) (c : NodeId) (x : Option Ty × List Ty) (t : Target)
    (during : List Task) (now : Config) : Prop :=
  ∃ rest g after, Resolving start c x t during rest (g, .aim c t :: rest) ∧
    Passes (g, .aim c t :: rest) (.aim c t :: after) now ∧ ∀ u, .aim c u ∉ after

/-- The types of all inputs of a call are known. -/
def Known (g : Graph) (c : NodeId) : Prop := ∀ v ∈ g.inputsOf c, g.type v ≠ none

/-- What a call was given when it was resolved is what it is given now, unless it was resolved once
more in between, or will be. -/
def Current (g : Graph) (ts : List Task) (c : NodeId) (x : Option Ty × List Ty)
    (during : List Task) : Prop :=
  .resolve c ∈ during ∨ g.Given c x ∨ Stirred ts c

/-- Every target that is recorded, or that waits to be, stems from a resolution of its call. -/
structure Aims (start : Config) (now : Config) : Prop where
  pending : ∀ pre c t post, now.2 = pre ++ .aim c t :: post → now.1.Linked c ∧ now.1.Known c ∧
    ∃ x during, Resolving start c x t during post now ∧ Current now.1 now.2 c x during
  recorded : ∀ c t, now.1.Has (.mark c (.aimed t)) → now.1.Linked c ∧ now.1.Known c ∧
    ∃ x during, LastResolved start c x t during now ∧
      ((∃ u, .aim c u ∈ now.2) ∨ Current now.1 now.2 c x during)
  found : ∀ c x, now.1.Linked c → now.1.Given c x →
    Stirred now.2 c ∨ (∃ t, .aim c t ∈ now.2) ∨ now.1.Has (.mark c .found)

theorem Resolving.perform {start : Config} {x : Option Ty × List Ty} {t : Target}
    {during post : List Task} (h : Resolving start c x t during post (g, task :: rest))
    (hp : g.perform task = (g', .ok ts)) :
    Resolving start c x t (during ++ [task]) post (g', ts ++ rest) := by
  obtain ⟨before, g₁, g₂, us, hb, hx, hr, ht, hd⟩ := h
  exact ⟨before, g₁, g₂, us, hb, hx, hr, ht, .perform hd hp⟩

theorem LastResolved.perform {start : Config} {x : Option Ty × List Ty} {t : Target}
    {during : List Task} (h : LastResolved start c x t during (g, task :: rest))
    (hp : g.perform task = (g', .ok ts)) (htask : ∀ u, task ≠ .aim c u) :
    LastResolved start c x t during (g', ts ++ rest) := by
  obtain ⟨post, g₁, after, hr, hpass, hafter⟩ := h
  refine ⟨post, g₁, after ++ [task], hr, .perform hpass hp, fun u hu => ?_⟩
  rcases List.mem_append.mp hu with hu | hu
  · exact hafter u hu
  · exact htask u (List.mem_singleton.mp hu).symm

end Graph

section step

variable (hS : Sound L g) (hok : task.OK L g) (hp : g.perform task = (g', .ok ts))
  (hh : Hears L g (task :: rest)) (hl : g.Linked c)
include hS hok hp hl

theorem known_step (h : g.Known c) : g'.Known c := by
  obtain ⟨l, hc, -⟩ := (hS.linked_isCall hl).isOpen
  intro v hv
  rw [(extends_of_perform hS hok hp).grows.inputsOf (hS.bound hc)] at hv
  exact type_of_perform hS hok hp (h v hv)

include hh in
theorem current_step {x : Option Ty × List Ty} {during : List Task} (hk : g.Known c)
    (h : g.Current (task :: rest) c x during) :
    task = .resolve c ∨ g'.Current (ts ++ rest) c x during := by
  rcases h with h | h | h
  · exact .inr (.inl h)
  · right
    rcases stirred_of_change hS hok hp hh hl with htypes | hst
    · have hgrows := (extends_of_perform hS hok hp).grows
      obtain ⟨s, hs, hin⟩ := h
      exact .inr (.inl ((Graph.Given.of_types hgrows hs htypes).mpr ⟨s, hs, hin⟩))
    · exact .inr (.inr hst)
  · exact (stirred_step hS hok hp hk h).imp_right fun h => .inr (.inr h)

end step

theorem Graph.Known.given {s : Site} (h : g.Known c) (hs : g.site? c = some s) :
    ∃ x, g.Given c x := by
  have hargs : ∀ vs : List NodeId, (∀ v ∈ vs, v ∈ g.inputsOf c) →
      ∃ us, List.Forall₂ (fun v t => g.type v = some t) vs us := by
    intro vs hvs
    induction vs with
    | nil => exact ⟨[], .nil⟩
    | cons v vs ih =>
        obtain ⟨t, ht⟩ := Option.ne_none_iff_exists'.mp (h v (hvs v (List.mem_cons_self ..)))
        obtain ⟨us, hus⟩ := ih fun u hu => hvs u (List.mem_cons_of_mem _ hu)
        exact ⟨t :: us, .cons ht hus⟩
  rw [Graph.inputsOf_of_site hs] at hargs
  obtain ⟨us, hus⟩ := hargs s.args fun v hv => List.mem_append_right _ hv
  obtain ⟨ws, hws⟩ := hargs s.receiver.toList fun v hv => List.mem_append_left _ hv
  refine ⟨(ws.head?, us), s, hs, Graph.inputs?_eq_some_iff.mpr ⟨?_, hus⟩⟩
  cases hr : s.receiver with
  | none =>
      rw [hr] at hws
      cases hws
      exact .nil
  | some r =>
      rw [hr] at hws
      obtain ⟨t, ws', ht, hnil, rfl⟩ := List.forall₂_cons_left_iff.mp hws
      exact .cons ht .nil

/-- A resolution of a call whose inputs have types ends with a target. -/
theorem aim_of_resolve (hS : Sound L g) (hK : g.Keyed) (hok : (Task.resolve c).OK L g)
    (hp : g.perform (.resolve c) = (g', .ok ts)) (hk : g.Known c) : ∃ t, .aim c t ∈ ts := by
  obtain ⟨s, hs⟩ := hS.site_of_isCall hok.2
  obtain ⟨x, hx⟩ := hk.given hs
  obtain ⟨pre, t, rfl, -⟩ := resolve_suits hS hK hok hp hx
  exact ⟨t, by simp⟩

/-- A target that is new among the waiting tasks stems from a resolution that has just begun. -/
theorem aim_of_perform (hS : Sound L g) (hK : g.Keyed) (hok : task.OK L g)
    (hp : g.perform task = (g', .ok ts)) {pre post : List Task} {t : Target}
    (h : ts = pre ++ .aim c t :: post) :
    task = .resolve c ∧ post = [] ∧ ∃ x, g.Given c x ∧ g'.Suits x t := by
  by_cases hres : ∃ o, task = .resolve o
  · obtain ⟨o, rfl⟩ := hres
    by_cases hx : ∃ x, g.Given o x
    · obtain ⟨x, hx⟩ := hx
      obtain ⟨us, u, hts, hno, hsuits⟩ := resolve_suits hS hK hok hp hx
      rw [hts] at h
      rcases List.append_eq_append_iff.mp h with ⟨vs, rfl, hvs⟩ | ⟨vs, rfl, hvs⟩
      · cases vs with
        | nil =>
            cases hvs
            exact ⟨rfl, rfl, x, hx, hsuits⟩
        | cons v vs => simp at hvs
      · cases vs with
        | nil =>
            cases hvs
            exact ⟨rfl, rfl, x, hx, hsuits⟩
        | cons v vs =>
            cases hvs
            exact (hno c t (by simp)).elim
    · obtain ⟨s, hs⟩ := hS.site_of_isCall hok.2
      have hnone : g.inputs? s = none := by
        cases hin : g.inputs? s with
        | none => rfl
        | some x => exact (hx ⟨x, s, hs, hin⟩).elim
      simp only [Graph.perform, Graph.resolve, hs, hnone] at hp
      cases hp
      simp at h
  · exact (no_aim_of_perform (c := c) (t := t) hS hok hp (fun o ho => hres ⟨o, ho⟩) (by simp [h])).elim

section step

variable {start : Graph.Config} {done : List Task} (hS : Sound L g) (hok : task.OK L g)
  (hp : g.perform task = (g', .ok ts)) (hh : Hears L g (task :: rest)) (hK : g.Keyed)
  (h : Graph.Aims start (g, task :: rest))
include hS hok hp hh hK h

theorem pending_step (hpass : Graph.Passes start done (g, task :: rest)) {pre post : List Task}
    {t : Target} (heq : ts ++ rest = pre ++ .aim c t :: post) :
    g'.Linked c ∧ g'.Known c ∧ ∃ x during,
      Graph.Resolving start c x t during post (g', ts ++ rest) ∧
        g'.Current (ts ++ rest) c x during := by
  have hgrows := (extends_of_perform hS hok hp).grows
  have hold : ∀ us, rest = us ++ .aim c t :: post → g'.Linked c ∧ g'.Known c ∧ ∃ x during,
      Graph.Resolving start c x t during post (g', ts ++ rest) ∧
        g'.Current (ts ++ rest) c x during := by
    rintro us rfl
    obtain ⟨hl, hk, x, during, hr, hc⟩ := h.pending (task :: us) c t post rfl
    refine ⟨hgrows.linked hl, known_step hS hok hp hl hk, x, _, hr.perform hp, ?_⟩
    rcases current_step hS hok hp hh hl hk hc with rfl | hc
    · exact .inl (by simp)
    · exact hc.imp_left fun hc => List.mem_append_left _ hc
  rcases List.append_eq_append_iff.mp heq with ⟨us, -, hrest⟩ | ⟨us, hts, hus⟩
  · exact hold us hrest
  · cases us with
    | nil => exact hold [] hus.symm
    | cons u us =>
        cases hus
        obtain ⟨rfl, rfl, x, hx, hsuits⟩ := aim_of_perform hS hK hok hp hts
        obtain ⟨s, hs, hin⟩ := hx
        have hlinked := hok.1
        have hgiven : g'.Given c x := by
          have hcalm := calm_perform hS hok (by simp) (by simp)
          rw [hp] at hcalm
          refine (Graph.Given.of_types hgrows hs fun v hv => hcalm.type v ?_).mpr ⟨s, hs, hin⟩
          rcases hS.input_of_call hok.2 hv with ⟨w, r, k, e, hl, -⟩ | ⟨u, hl⟩ <;> exact hS.bound hl
        refine ⟨hgrows.linked hlinked, known_step hS hok hp hlinked fun v hv => ?_, x, [],
          ⟨done, g, g', pre, hpass, ⟨s, hs, hin⟩, by rw [hp, hts], hsuits, ?_⟩, .inr (.inl hgiven)⟩
        · exact Graph.Given.typed ⟨s, hs, hin⟩ hv
        · rw [heq]
          exact .refl _

theorem recorded_step {t : Target} (hhas : g'.Has (.mark c (.aimed t))) :
    g'.Linked c ∧ g'.Known c ∧ ∃ x during,
      Graph.LastResolved start c x t during (g', ts ++ rest) ∧
        ((∃ u, .aim c u ∈ ts ++ rest) ∨ g'.Current (ts ++ rest) c x during) := by
  have hgrows := (extends_of_perform hS hok hp).grows
  by_cases haim : ∃ u, task = .aim c u
  · obtain ⟨u, rfl⟩ := haim
    obtain ⟨hl, hk, x, during, hr, hc⟩ := h.pending [] c u rest rfl
    obtain rfl : t = u := by
      obtain ⟨s, hs, hst⟩ := Graph.has_aimed.mp hhas
      cases hp
      rw [Graph.site?_modifySite, if_pos rfl] at hs
      obtain ⟨s', -, rfl⟩ := Option.map_eq_some_iff.mp hs
      exact (Option.some.inj hst).symm
    refine ⟨hgrows.linked hl, known_step hS hok hp hl hk, x, during,
      ⟨rest, g, [], hr, .perform (.refl _) hp, by simp⟩, ?_⟩
    rcases current_step hS hok hp hh hl hk hc with hne | hc
    · cases hne
    · exact .inr hc
  · have hold : g.Has (.mark c (.aimed t)) := by
      rcases has_perform hS hok (by rw [hp]; exact hhas) with hhas | hrec
      · exact hhas
      · generalize hen : Entry.mark c (.aimed t) = en at hrec
        cases hrec with
        | aimed =>
            cases hen
            exact (haim ⟨_, rfl⟩).elim
        | read hnew | bound hnew =>
            rcases hnew.var_or_field with rfl | ⟨_, -, rfl⟩ <;> cases hen
        | inst hnew =>
            subst hen
            cases hnew
        | _ => cases hen
    obtain ⟨hl, hk, x, during, hr, hc⟩ := h.recorded c t hold
    refine ⟨hgrows.linked hl, known_step hS hok hp hl hk, x, during,
      hr.perform hp fun u hu => haim ⟨u, hu⟩, ?_⟩
    rcases hc with ⟨u, hu⟩ | hc
    · rcases List.mem_cons.mp hu with hu | hu
      · exact (haim ⟨u, hu.symm⟩).elim
      · exact .inl ⟨u, List.mem_append_right _ hu⟩
    · rcases current_step hS hok hp hh hl hk hc with rfl | hc
      · obtain ⟨u, hu⟩ := aim_of_resolve hS hK hok hp hk
        exact .inl ⟨u, List.mem_append_left _ hu⟩
      · exact .inr hc

theorem found_step {x : Option Ty × List Ty} (hlinked : g'.Linked c) (hx : g'.Given c x) :
    Stirred (ts ++ rest) c ∨ (∃ t, .aim c t ∈ ts ++ rest) ∨ g'.Has (.mark c .found) := by
  rcases stirred_of_linked hS hok hp hlinked with hl | hst
  · rcases stirred_of_change hS hok hp hh hl with htypes | hst
    · obtain ⟨s, hs⟩ := hS.site_of_isCall (hS.linked_isCall hl)
      have hgiven := (Graph.Given.of_types (extends_of_perform hS hok hp).grows hs htypes).mp hx
      have hk : g.Known c := fun v hv => hgiven.typed hv
      rcases h.found c x hl hgiven with hst | ⟨t, ht⟩ | hfound
      · rcases stirred_step hS hok hp hk hst with rfl | hst
        · obtain ⟨t, ht⟩ := aim_of_resolve hS hK hok hp hk
          exact .inr (.inl ⟨t, List.mem_append_left _ ht⟩)
        · exact .inl hst
      · rcases List.mem_cons.mp ht with rfl | ht
        · right
          right
          cases hp
          refine Graph.has_of_site (s := { s with target := some t }) (k := .found) ?_
            (Option.some_ne_none t)
          simp [Graph.site?_modifySite, hs]
        · exact .inr (.inl ⟨t, List.mem_append_right _ ht⟩)
      · exact .inr (.inr (lasts_of_perform hS hok hp _ rfl hfound))
    · exact .inl hst
  · exact .inl hst

end step

/-! ## Calls that inference reaches -/

/-- A call that inference takes up: of the program, of the body of an instance, or a member of a
dispatch. The construction of a new object is no such call. -/
inductive Graph.Reached (g : Graph) (tree : Expr) (root : NodeId) : NodeId → Prop where
  | tree {c : NodeId} {k : Option String} {rc : Option Expr} {nm : Token} {as : List Expr}
      {p : Bool} : ⟨c, k, .call rc nm as p⟩ ∈ tree.stops none root →
      (Expr.call rc nm as p).isNew = false → g.Reached tree root c
  | body {c : NodeId} {k : Option String} {rc : Option Expr} {nm : Token} {as : List Expr}
      {p : Bool} {i : InstanceId} {x : Instance} {w : WalkId} {m : Method} {b : Expr}
      {r : NodeId} : g.instances[i]? = some x → x.walk = some w → g.method? x.method = some m →
      m.source = .written b r → ⟨c, k, .call rc nm as p⟩ ∈ b.stops none x.body →
      (Expr.call rc nm as p).isNew = false → g.Reached tree root c
  | member {c d : NodeId} {y : Dispatch} {key : Option Atom × List Atom} :
      g.dispatch? d = some y → (key, c) ∈ y.calls → g.Reached tree root c

/-- The members of dispatches are taken up as they are made. -/
theorem members_linked_step (hS : Sound L g) (hok : task.OK L g)
    (hp : g.perform task = (g', .ok ts))
    (h : ∀ d key o, g.Has (.mark d (.member key o)) → g.Linked o) {d : NodeId}
    {key : Option Atom × List Atom} (hhas : g'.Has (.mark d (.member key c))) : g'.Linked c := by
  have hgrows := (extends_of_perform hS hok hp).grows
  rcases has_perform hS hok (by rw [hp]; exact hhas) with hhas | hrec
  · exact hgrows.linked (h d key c hhas)
  · generalize hen : Entry.mark d (.member key c) = en at hrec
    cases hrec with
    | @member d r as =>
        cases hen
        obtain ⟨x, hd, -⟩ := hok
        obtain ⟨y, hy, -⟩ := Graph.dispatch_of_blank (hS.fits hd).1 rfl
        have hcell := g.cell_memberAt y r as
        rw [Graph.perform, Graph.addMember_eq hy] at hp
        cases hp
        have hlinked : (g.withMember y r as).Linked (g.memberAt r as) :=
          Graph.linked_iff.mpr ⟨_, _, hcell, rfl, rfl⟩
        let f (z : Dispatch) : Dispatch := { z with
          calls := z.calls.putBy (g.withMember y r as).sameMember (r, as) (g.memberAt r as) }
        have hgrow : Graph.Grows (g.withMember y r as) ((g.withMember y r as).modifyDispatch d f) :=
          Graph.grows_modifyDispatch _ d fun _ => rfl
        exact hgrow.linked hlinked
    | read hnew | bound hnew =>
        rcases hnew.var_or_field with rfl | ⟨_, -, rfl⟩ <;> cases hen
    | inst hnew =>
        subst hen
        cases hnew
    | _ => cases hen

/-- When nothing waits any more, all calls that inference reaches were taken up. -/
theorem linked_of_reached (hS : Sound L g) (hW : Wired L g []) {tree : Expr} {root : NodeId}
    {w : WalkId} {r : NodeId} (hroot : L root = some (.node w r none tree))
    (hmembers : ∀ d key o, g.Has (.mark d (.member key o)) → g.Linked o)
    (h : g.Reached tree root c) : g.Linked c := by
  have hcall : ∀ {w r k rc nm as p}, L c = some (.node w r k (.call rc nm as p)) →
      (Expr.call rc nm as p).isNew = false → g.Linked c := by
    intro w r k rc nm as p hc hnew
    rcases hW hc with ⟨_, _, _, hmem, -⟩ | hduty
    · cases hmem
    · simp only [Graph.Duty, hnew, Bool.false_eq_true, if_false] at hduty
      exact hduty.1
  cases h with
  | tree hq hnew => exact hcall (hS.stop hroot hq) hnew
  | member hy hmem => exact hmembers _ _ _ (Graph.has_member.mpr ⟨_, hy, hmem⟩)
  | @body k rc nm as p i x w m b r hx hw hm hsource hq hnew =>
      rcases hS.entries (e := .inst i x) hx with ⟨hnone, -⟩ |
          ⟨w', v, r', k', n, ps, b', -, -, hmethod, hbody⟩
      · rw [hnone] at hw
        cases hw
      · obtain ⟨cell, hcell, hrole⟩ := Graph.blank_of_method hm
        rw [(hS.fits hmethod).1] at hcell
        cases hcell
        have hbb : b = b' := by
          have hsame := congrArg Method.source (Role.method.inj hrole)
          rw [Method.blank, hsource] at hsame
          exact (MethodSource.written.inj hsame).1.symm
        subst hbb
        exact hcall (hS.stop hbody hq) hnew

/-! ## Runs -/

/-- What is known of a configuration that the run over a program comes to. -/
structure Targeted (start : Graph.Config) (tree : Expr) (L : Labels) (now : Graph.Config) :
    Prop where
  sound : Sound.Config L now
  root : L rootOf = some (.node 0 rootOf none tree)
  wired : Wired L now.1 now.2
  hears : Hears L now.1 now.2
  members : ∀ d key o, now.1.Has (.mark d (.member key o)) → now.1.Linked o
  keyed : now.1.Keyed
  aims : Graph.Aims start now

theorem not_aimed_loaded (tree : Expr) (c : NodeId) (t : Target) :
    ¬ (Graph.loaded tree).Has (.mark c (.aimed t)) := by
  intro h
  have hcall : (Labels.builtins Graph.withBuiltins).IsCall c := (has_loaded h).1
  rcases hcall with ⟨w, r, k, rc, nm, as, p, hc, -⟩ | ⟨d, r, as, hc⟩ <;>
    · unfold Labels.builtins at hc
      split at hc <;> cases hc

theorem not_member_loaded (tree : Expr) (d : NodeId) (key : Option Atom × List Atom)
    (c : NodeId) : ¬ (Graph.loaded tree).Has (.mark d (.member key c)) := by
  intro h
  have hdispatch : (Labels.builtins Graph.withBuiltins).IsDispatch d := (has_loaded h).1
  obtain ⟨x, hx⟩ := hdispatch
  unfold Labels.builtins at hx
  split at hx <;> cases hx

theorem aims_loaded (tree : Expr) (start : Graph.Config) (root : NodeId) :
    Graph.Aims start (Graph.loaded tree, [.visit 0 tree root]) where
  pending := by
    intro pre c t post h
    cases pre <;> simp at h
  recorded c t h := (not_aimed_loaded tree c t h).elim
  found c x h _ := (not_linked_loaded tree c h).elim

theorem Targeted.loaded (tree : Expr) (start : Graph.Config) :
    Targeted start tree (Labels.loaded tree) (Graph.loaded tree, [.visit 0 tree rootOf]) :=
  ⟨.loaded tree, Labels.loaded_root tree, wired_loaded tree, hears_loaded tree,
    fun d key o h => (not_member_loaded tree d key o h).elim, keyed_loaded tree,
    aims_loaded tree start rootOf⟩

variable {start : Graph.Config} {done : List Task} {tree : Expr}

theorem Targeted.step (h : Targeted start tree L (g, task :: rest))
    (hpass : Graph.Passes start done (g, task :: rest)) (hp : g.perform task = (g', .ok ts)) :
    Targeted start tree (L.performed g task) (g', ts ++ rest) := by
  have hS := h.sound.graph
  have hok := h.sound.tasks task (List.mem_cons_self ..)
  refine ⟨(h.sound.step hp).2, (extends_of_perform hS hok hp).keeps hS h.root,
    wired_step hS hok hp h.wired, hears_step hS hok hp h.hears,
    fun d key o hhas => members_linked_step hS hok hp h.members hhas, keyed_step hS hok hp h.keyed,
    fun pre c t post heq => ?_, fun c t hhas => ?_, fun c x hl hx => ?_⟩
  · exact pending_step hS hok hp h.hears h.keyed h.aims hpass heq
  · exact recorded_step hS hok hp h.hears h.keyed h.aims hhas
  · exact found_step hS hok hp h.hears h.keyed h.aims hl hx

theorem Targeted.passes {now : Graph.Config} (h : Targeted start tree L start)
    (hpass : Graph.Passes start done now) : ∃ L, Targeted start tree L now := by
  induction hpass with
  | refl => exact ⟨L, h⟩
  | perform hpass hp ih =>
      obtain ⟨L, hL⟩ := ih
      exact ⟨_, hL.step hpass hp⟩

/-- When nothing waits any more, a call whose inputs have types has a target. -/
theorem Targeted.last (h : Targeted start tree L (g, [])) (hl : g.Linked c)
    {x : Option Ty × List Ty} (hx : g.Given c x) :
    ∃ s t y during, g.site? c = some s ∧ s.target = some t ∧
      Graph.LastResolved start c y t during (g, []) ∧ (.resolve c ∉ during → y = x) := by
  have hnone : ¬ Stirred [] c := by
    rintro ⟨task, htask, -⟩
    cases htask
  rcases h.aims.found c x hl hx with hst | ⟨t, ht⟩ | ⟨cell, hcell, hfound⟩
  · exact (hnone hst).elim
  · cases ht
  · obtain ⟨t, ht⟩ : ∃ t, g.Has (.mark c (.aimed t)) := by
      simp only [Cell.Has] at hfound
      cases hr : cell.role with
      | call s =>
          simp only [hr, Role.Has] at hfound
          obtain ⟨t, ht⟩ := Option.ne_none_iff_exists'.mp hfound
          exact ⟨t, cell, hcell, by simp [Cell.Has, hr, Role.Has, ht]⟩
      | _ => simp [hr, Role.Has] at hfound
    obtain ⟨s, hs, htarget⟩ := Graph.has_aimed.mp ht
    obtain ⟨-, -, y, during, hlast, hcurrent⟩ := h.aims.recorded c t ht
    refine ⟨s, t, y, during, hs, htarget, hlast, fun hnot => ?_⟩
    rcases hcurrent with ⟨u, hu⟩ | hres | hgiven | hst
    · cases hu
    · exact (hnot hres).elim
    · exact hgiven.unique hx
    · exact (hnone hst).elim

/-! ## Programs without instance variables -/

/-- Types that are known by name stay equal. -/
theorem Graph.Suits.lasts {names : List String} {L' : Labels} (hS : Sound L g)
    (hT : Tame names L g) (hT' : Tame names L' g') (hgrows : Graph.Grows g g')
    {x : Option Ty × List Ty} (hx : ∀ t ∈ x.1.toList ++ x.2, t.Tame names g) {t : Target}
    (ht : g.TargetOK L t) (h : g.Suits x t) : g'.Suits x t := by
  cases t with
  | dispatch d =>
      obtain ⟨hmixed, y, hy, hsame⟩ := h
      obtain ⟨z, hz⟩ := ht
      have hblank := (hS.fits hz).1
      obtain ⟨_, hcell, hrole⟩ := Graph.blank_of_dispatch hy
      rw [hblank] at hcell
      cases hcell
      obtain rfl : z = y.blank := by simpa using hrole
      obtain ⟨y', hy', heq⟩ := Graph.dispatch_of_blank (hgrows.blank hblank) rfl
      have hparams : y'.receiver = y.receiver ∧ y'.args = y.args := by
        simp only [Dispatch.blank, Dispatch.mk.injEq] at heq
        exact ⟨heq.2.2.1, heq.2.2.2.1⟩
      have hrow : TameRow names g (y.receiver :: y.args.map some) := .inputs (hT.labels hz)
      have hinputs : TameRow names g (x.1 :: x.2.map some) := .inputs hx
      refine ⟨hmixed, y', hy', ?_⟩
      rw [hrow.sameRow_iff hT.flat hinputs, ← hrow.tagRow_eq hgrows,
        ← hinputs.tagRow_eq hgrows] at hsame
      rw [hparams.1, hparams.2]
      exact (TameRow.sameRow_iff hT'.flat (fun t ht u hu => (hrow t ht u hu).grow hgrows)
        fun t ht u hu => (hinputs t ht u hu).grow hgrows).mpr hsame
  | inst i =>
      obtain ⟨hmixed, y, hy, hsame⟩ := h
      have hrow := hT.params hy
      have hinputs : TameRow names g (x.2.map some) :=
        .args fun t ht => hx t (List.mem_append_right _ ht)
      refine ⟨hmixed, y, hgrows.inst hy, ?_⟩
      rw [hrow.sameRow_iff hT.flat hinputs, ← hrow.tagRow_eq hgrows,
        ← hinputs.tagRow_eq hgrows] at hsame
      exact (TameRow.sameRow_iff hT'.flat (fun t ht u hu => (hrow t ht u hu).grow hgrows)
        fun t ht u hu => (hinputs t ht u hu).grow hgrows).mpr hsame

/-- A run over a program without instance variables keeps all types known by name. -/
theorem Tame.Config.passes {names : List String} {c c' : Graph.Config}
    (hS : Sound.Config L c) (hT : Tame.Config names L c) (hpass : Graph.Passes c done c') :
    ∃ L', Sound.Config L' c' ∧ Tame.Config names L' c' ∧ Graph.Grows c.1 c'.1 := by
  induction hpass with
  | refl => exact ⟨L, hS, hT, .refl _⟩
  | perform hpass hp ih =>
      obtain ⟨L', hS', hT', hgrows⟩ := ih
      obtain ⟨hext, hS''⟩ := hS'.step hp
      exact ⟨_, hS'', hT'.step hS' hp, hgrows.trans hext.grows⟩

theorem Graph.LastResolved.suits {names : List String} (hS : Sound.Config L start)
    (hT : Tame.Config names L start) {x : Option Ty × List Ty} {t : Target}
    {during : List Task} {now : Graph.Config}
    (h : Graph.LastResolved start c x t during now) : now.1.Suits x t := by
  obtain ⟨rest, g₂, after, ⟨before, g₀, g₁, us, hbefore, hx, hp, hsuits, hduring⟩, hafter, -⟩ := h
  obtain ⟨L₀, hS₀, hT₀, -⟩ := hT.passes hS hbefore
  obtain ⟨hext, hS₁⟩ := hS₀.step hp
  have hT₁ := hT₀.step hS₀ hp
  rw [List.append_assoc] at hS₁ hT₁
  obtain ⟨L₂, hS₂, hT₂, hgrows₂⟩ := hT₁.passes hS₁ hduring
  obtain ⟨L₃, hS₃, hT₃, hgrows₃⟩ := hT₂.passes hS₂ hafter
  obtain ⟨s, -, hin⟩ := hx
  have htarget := hS₁.tasks (.aim c t) (by simp)
  exact hsuits.lasts hS₁.graph hT₁.graph hT₃.graph (hgrows₂.trans hgrows₃)
    (fun u hu => (hT₀.graph.inputs hin u hu).grow hext.grows) htarget.2

/-! ## Programs -/

/-- Every call that inference reaches and whose inputs all have types has a target. The target suits
what the call was given when the resolution began that was last to come to its end, and without
instance variables it still does. This is what the call is given now, unless the call was resolved
once more in the course of that resolution. -/
theorem inferTypes_targets (budget : Nat) (tree : Expr)
    (hfin : (inferTypes budget tree).2 = .finished) {c : NodeId}
    (hc : (inferTypes budget tree).1.graph.Reached tree rootOf c) {x : Option Ty × List Ty}
    (hx : (inferTypes budget tree).1.graph.Given c x) :
    ∃ s t y during, (inferTypes budget tree).1.graph.site? c = some s ∧ s.target = some t ∧
      Graph.LastResolved (Graph.loaded tree, [.visit 0 tree rootOf]) c y t during
        ((inferTypes budget tree).1.graph, []) ∧
      (.resolve c ∉ during → y = x) ∧
      (tree.FieldFree → (inferTypes budget tree).1.graph.Suits y t) := by
  rw [inferTypes_outcome] at hfin
  rw [inferTypes_graph] at hc hx ⊢
  obtain ⟨done, hpass⟩ := Graph.passes_of_run_finished hfin
  obtain ⟨L, hL⟩ := (Targeted.loaded tree (Graph.loaded tree, [.visit 0 tree rootOf])).passes hpass
  have hlinked := linked_of_reached hL.sound.graph hL.wired hL.root hL.members hc
  obtain ⟨s, t, y, during, hs, ht, hlast, hcurrent⟩ := hL.last hlinked hx
  refine ⟨s, t, y, during, hs, ht, hlast, hcurrent, fun hfree => ?_⟩
  exact hlast.suits (Sound.Config.loaded tree) (Tame.Config.loaded hfree.within)

theorem Graph.given_iff {x : Option Ty × List Ty} :
    g.Given c x ↔ (g.site? c).bind g.inputs? = some x := by
  simp [Given, Option.bind_eq_some_iff]

instance (g : Graph) (c : NodeId) (x : Option Ty × List Ty) : Decidable (g.Given c x) :=
  decidable_of_iff _ Graph.given_iff.symm

instance (g : Graph) (x : Option Ty × List Ty) (t : Target) : Decidable (g.Suits x t) :=
  match t with
  | .dispatch d => decidable_of_iff ((x.1.toList ++ x.2).any Ty.isMixed = true ∧
      (g.dispatch? d).any (fun y =>
        g.heap.sameRow (y.receiver :: y.args.map some) (x.1 :: x.2.map some)) = true)
      (by simp [Graph.Suits, Option.any_eq_true])
  | .inst i => decidable_of_iff ((x.1.toList ++ x.2).any Ty.isMixed = false ∧
      (g.instances[i]?).any (fun y => g.heap.sameRow y.params (x.2.map some)) = true)
      (by simp [Graph.Suits, Option.any_eq_true])

/-- A call whose argument is an integer at first, and may be a float as well later on. -/
def widened : Expr :=
  let name (text : String) : Token := ⟨text, 0⟩
  let var (text : String) : Expr := .place ⟨.localVar, name text⟩
  .block [
    .method (name "f") [name "b"] (.block [var "b"]),
    .assign ⟨.localVar, name "x"⟩ (.literal ⟨.int, .int 1, 0⟩),
    .call none (name "f") [var "x"] true,
    .assign ⟨.localVar, name "x"⟩ (.literal ⟨.float, .none, 0⟩)]

theorem inferTypes_targets_widened :
    let g := (inferTypes 100 widened).1.graph
    let x : Option Ty × List Ty :=
      (none, [.union [.prim "Int", .prim "Float"] [.prim "Int", .prim "Float"]])
    ((inferTypes 100 widened).2 = .finished ∧ g.Reached widened rootOf (rootOf + 7) ∧
      g.Given (rootOf + 7) x) ∧
    ∃ s t y during, g.site? (rootOf + 7) = some s ∧ s.target = some t ∧
      Graph.LastResolved (Graph.loaded widened, [.visit 0 widened rootOf]) (rootOf + 7) y t during
        (g, []) ∧
      (.resolve (rootOf + 7) ∉ during → y = x) ∧ (widened.FieldFree → g.Suits y t) := by
  intro g x
  have hfin : (inferTypes 100 widened).2 = .finished := by decide +kernel
  have hreached : ∀ root : NodeId, g.Reached widened root (root + 7) :=
    fun _ => .tree (List.mem_of_getElem? (i := 5) rfl) rfl
  have hgiven : g.Given (rootOf + 7) x := by decide +kernel
  exact ⟨⟨hfin, hreached rootOf, hgiven⟩,
    inferTypes_targets 100 widened hfin (hreached rootOf) hgiven⟩

theorem Graph.unsuited_of_target {x : Option Ty × List Ty} {t : Target}
    (ht : (g.site? c).bind (·.target) = some t) (hx : ¬ g.Suits x t) :
    ¬ ∃ s u, g.site? c = some s ∧ s.target = some u ∧ g.Suits x u := by
  rintro ⟨s, u, hs, hu, hsuits⟩
  simp only [hs, Option.bind_some, hu, Option.some.injEq] at ht
  subst ht
  exact hx hsuits

/-- The result of a call is assigned to the variable that the call reads. -/
def overtaken : Expr :=
  let x : Place := ⟨.localVar, ⟨"x", 0⟩⟩
  .block [
    .assign x (.call (some (.place x)) ⟨"+", 0⟩ [.literal ⟨.float, .none, 0⟩] false),
    .assign x (.literal ⟨.int, .int 1, 0⟩)]

/-- Even without instance variables a target need not suit what the call is given now. The sum of
an integer and a float is a float, so that the variable may be either. By this the call is resolved
anew, to a dispatch, before the target is recorded that was found for the integer alone. -/
theorem targets_stale :
    ¬ ∀ budget tree, tree.FieldFree → (inferTypes budget tree).2 = .finished → ∀ c,
      (inferTypes budget tree).1.graph.Reached tree rootOf c → ∀ x,
      (inferTypes budget tree).1.graph.Given c x →
      ∃ s t, (inferTypes budget tree).1.graph.site? c = some s ∧ s.target = some t ∧
        (inferTypes budget tree).1.graph.Suits x t := by
  intro h
  have hreached : ∀ root : NodeId,
      (inferTypes 200 overtaken).1.graph.Reached overtaken root (root + 3) :=
    fun _ => .tree (List.mem_of_getElem? (i := 3) rfl) rfl
  apply Graph.unsuited_of_target (c := rootOf + 3) (t := .inst 1) (by decide +kernel) ?_
    (h 200 overtaken (by decide +kernel) (by decide +kernel) _ (hreached rootOf)
      (some (.union [.prim "Int", .prim "Float"] [.prim "Int", .prim "Float"]), [.prim "Float"])
      (by decide +kernel))
  decide +kernel

/-- An object gets a field after two calls were made with objects of its class. -/
def outgrown : Expr :=
  let name (text : String) : Token := ⟨text, 0⟩
  let var (text : String) : Expr := .place ⟨.localVar, name text⟩
  let call (f : String) (e : Expr) : Expr := .call none (name f) [e] true
  let box : Expr := .call (some (.const (name "Box"))) (name "new") [] true
  let one : Expr := .literal ⟨.int, .int 1, 0⟩
  .block [
    .klass (name "Box") (.block [
      .method (name "put") [name "v"] (.block [.assign ⟨.instanceVar, name "v"⟩ (var "v")])]),
    .method (name "f") [name "b"] (.block [one]),
    .assign ⟨.localVar, name "a"⟩ box,
    .assign ⟨.localVar, name "b"⟩ box,
    call "f" (var "a"),
    call "f" (var "b"),
    .call (some (var "a")) (name "put") [one] true]

/-- With instance variables a target need not suit what the call is given now: the two calls share
an instance, but their arguments are equal no more. -/
theorem targets_outgrown :
    ¬ ∀ budget tree, (inferTypes budget tree).2 = .finished → ∀ c,
      (inferTypes budget tree).1.graph.Reached tree rootOf c → ∀ x,
      (inferTypes budget tree).1.graph.Given c x →
      ∃ s t, (inferTypes budget tree).1.graph.site? c = some s ∧ s.target = some t ∧
        (inferTypes budget tree).1.graph.Suits x t := by
  intro h
  have hreached : ∀ root : NodeId,
      (inferTypes 200 outgrown).1.graph.Reached outgrown root (root + 21) :=
    fun _ => .tree (List.mem_of_getElem? (i := 13) rfl) rfl
  apply Graph.unsuited_of_target (c := rootOf + 21) (t := .inst 46) (by decide +kernel) ?_
    (h 200 outgrown (by decide +kernel) _ (hreached rootOf) (none, [.obj 2]) (by decide +kernel))
  decide +kernel

end TypeFlow
