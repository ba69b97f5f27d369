import TypeFlow.Proofs.Expanding

/-! # What a dispatch comes to

A dispatch hears of types from its members only, so at the end it has the merge of what they have.
Each member calls an instance for its types by then, and the only call that is pointed at a dispatch
is the one that was dispatched. -/

namespace TypeFlow

variable {names : List String} {L L' : Labels} {g g' : Graph} {task : Task} {ts rest : List Task}
  {c d : NodeId}

/-! ## Types come from members -/

/-- A call is a member of a dispatch. -/
def Labels.IsMember (L : Labels) (d c : NodeId) : Prop := ∃ r as, L c = some (.member d r as)

theorem Labels.IsMember.not_isSeed (h : L.IsMember d c) : ¬ L.IsSeed c :=
  Labels.IsCall.not_isSeed (.inr ⟨d, h⟩)

/-- Some member of a dispatch has each of these names in its type. -/
def Graph.Gathers (L : Labels) (g : Graph) (d : NodeId) (tags : Finset Tag) : Prop :=
  ∀ t ∈ tags, ∃ c, L.IsMember d c ∧ t ∈ g.tagsAt c

/-- What a task tells a dispatch comes from a member. -/
def Task.Collects (L : Labels) (g : Graph) : Task → Prop
  | .subscribe s o _ | .deliver s o _ => L.IsDispatch o → L.IsMember o s
  | .react _ o _ T => L.IsDispatch o → ∀ T' ∈ T, g.Gathers L o (g.heap.tags T')
  | .widen o T => L.IsDispatch o → g.Gathers L o (g.heap.tags T)
  | _ => True

/-- All that dispatches have heard and are about to hear comes from their members. -/
structure Collecting (L : Labels) (g : Graph) (ts : List Task) : Prop where
  edge : ∀ {s d r}, (d, r) ∈ g.observers s → L.IsDispatch d → L.IsMember d s
  tasks : ∀ t ∈ ts, t.Collects L g
  gathered : ∀ {d}, L.IsDispatch d → g.Gathers L d (g.tagsAt d)

theorem Graph.gathers_of_type {T : Ty} (hc : L.IsMember d c) (hT : g.type c = some T) :
    g.Gathers L d (g.heap.tags T) := fun t ht => ⟨c, hc, by rwa [Graph.tagsAt_of_type hT]⟩

section extend

variable (hS : Sound L g) (h : Extends L g L' g')
include hS h

theorem Extends.isDispatch_of_later (hd : L d ≠ none) (hd' : L'.IsDispatch d) : L.IsDispatch d := by
  rwa [Labels.IsDispatch, h.eq_of_ne hS hd] at hd'

theorem Extends.isMember (hc : L.IsMember d c) : L'.IsMember d c := by
  obtain ⟨r, as, hc⟩ := hc
  exact ⟨r, as, h.keeps hS hc⟩

theorem Extends.not_isDispatch {n : NodeId} {l : Label} (hl : L n = some l)
    (hne : ∀ x, l ≠ .dispatch x) : ¬ L'.IsDispatch n := by
  rintro ⟨x, hx⟩
  rw [h.keeps hS hl] at hx
  exact hne x (Option.some.inj hx)

end extend

section step

variable (hS : Sound.Config L (g, task :: rest)) (hT : Tame.Config names L (g, task :: rest))
  (hseed : Seeded L g (task :: rest)) (hp : g.perform task = (g', .ok ts))
include hS hT hseed hp

/-- What members have they go on to have. -/
theorem gathers_step {tags : Finset Tag} (h : g.Gathers L d tags) :
    g'.Gathers (L.performed g task) d tags := by
  intro t ht
  obtain ⟨c, hc, hmem⟩ := h t ht
  exact ⟨c, (hS.step hp).1.isMember hS.graph hc, tagsAt_step hS hT hp hseed hc.not_isSeed hmem⟩

theorem gathers_type_step {T : Ty} (hvalid : T.Valid g) (h : g.Gathers L d (g.heap.tags T)) :
    g'.Gathers (L.performed g task) d (g'.heap.tags T) := by
  rw [(hS.step hp).1.grows.tags_eq hvalid]
  exact gathers_step hS hT hseed hp h

/-- What waited to be told still comes from a member. -/
theorem collects_later {t : Task} (hok : t.OK L g) (h : t.Collects L g) :
    t.Collects (L.performed g task) g' := by
  have hext := (hS.step hp).1
  have hopen : ∀ {o}, L.IsOpen o → L o ≠ none := by
    rintro o ⟨l, hl, -⟩ hnone
    rw [hl] at hnone
    cases hnone
  cases t with
  | subscribe s o r | deliver s o r =>
      exact fun hd =>
        hext.isMember hS.graph (h (hext.isDispatch_of_later hS.graph (hopen hok.2.1) hd))
  | react s o r T =>
      obtain ⟨s', T', rfl, rfl, he, hvalid⟩ := hok
      rintro hd _ ⟨⟩
      exact gathers_type_step hS hT hseed hp hvalid
        (h (hext.isDispatch_of_later hS.graph (hopen he.2.1) hd) T' rfl)
  | widen o T =>
      exact fun hd => gathers_type_step hS hT hseed hp hok.2
        (h (hext.isDispatch_of_later hS.graph (hopen hok.1) hd))
  | _ => trivial

/-- What is new to be told comes from a member. -/
theorem collects_new (h : Collecting L g (task :: rest)) {t : Task} (ht : t ∈ ts) :
    t.Collects (L.performed g task) g' := by
  have hS₀ : Sound L g := hS.graph
  have hok := hS.tasks task (List.mem_cons_self ..)
  have hext := (hS.step hp).1
  have hhead := h.tasks task (List.mem_cons_self ..)
  -- A dispatch that observes something was there before.
  have hthere : ∀ {s o r}, g.EdgeOK L s o r → (L.performed g task).IsDispatch o →
      L.IsDispatch o := by
    rintro s o r ⟨-, ⟨l, hl, -⟩, -⟩ hd
    exact hext.isDispatch_of_later hS₀ (by simp [hl]) hd
  have htold : ∀ {o s T}, L.IsMember o s → g.type s = some T →
      g'.Gathers (L.performed g task) o (g'.heap.tags T) := fun hc hT' =>
    gathers_type_step hS hT hseed hp (hS₀.typed hT').2.1 (Graph.gathers_of_type hc hT')
  cases leads_perform hS₀ hok hp ht with
  | stored ho | widened ho =>
      exact fun hd => hext.isMember hS₀ (h.edge ho (hthere (hS₀.edge ho) hd))
  | subscribed hs =>
      rintro hd _ ⟨⟩
      exact htold (hhead (hthere hok hd)) hs
  | @delivered s o T hs =>
      have he : g.EdgeOK L s o .merge := hok
      exact fun hd => htold (hhead (hthere he hd)) hs
  | merged =>
      obtain ⟨s', T', ⟨⟩, ⟨⟩, he, hvalid⟩ := hok
      exact fun hd => gathers_type_step hS hT hseed hp hvalid (hhead (hthere he hd) _ rfl)
  | connected =>
      obtain ⟨⟨r, k, hn⟩, -⟩ := hok
      exact fun hd => (hext.not_isDispatch hS₀ hn (by simp) hd).elim
  | @bound w p n v hv =>
      obtain ⟨-, -, hplace, -⟩ := extends_placeOf hS₀ w p (n + 1)
      rintro ⟨x, hx⟩
      rcases (hplace v hv).slot with ⟨_, _, hl⟩ | ⟨_, _, hl⟩ <;>
        cases (show some _ = some _ from hl.symm.trans hx)
  | @shown w p n v =>
      obtain ⟨⟨r, k, e, hn⟩, -⟩ := hok
      have htarget := hS₀.part hn (p := ⟨n + 1, k, .place p⟩) (by simp [Expr.parts])
      exact fun hd => (hext.not_isDispatch hS₀ htarget (by simp) hd).elim
  | pointed =>
      rcases hok.2 with ⟨_, _, _, _, _, _, _, hl, -⟩ | ⟨_, _, _, hl⟩ <;>
        exact fun hd => (hext.not_isDispatch hS₀ hl (by simp) hd).elim
  | @joined d r as => exact fun _ => ⟨r, as, Labels.joined_memberAt⟩
  | _ => trivial

/-- What dispatches have comes from their members. -/
theorem gathered_step (h : Collecting L g (task :: rest))
    (hd : (L.performed g task).IsDispatch d) :
    g'.Gathers (L.performed g task) d (g'.tagsAt d) := by
  have hok := hS.tasks task (List.mem_cons_self ..)
  obtain ⟨y, hy⟩ := hd
  rcases made_step hS hp hy with hz | hmade
  · have hold := gathers_step hS hT hseed hp (h.gathered ⟨y, hz⟩)
    rcases type_step hS.graph hok hp (hS.graph.bound hz) with htype | ⟨⟨T, rfl⟩ | ⟨T, htask⟩, -⟩
    · rwa [tagsAt_of_type_eq hS hp htype]
    · obtain ⟨w, r, k, e, hn, -⟩ := hseed.tasks _ (List.mem_cons_self ..)
      rw [hz] at hn
      cases hn
    · have hnew := h.tasks task (List.mem_cons_self ..)
      rw [tagsAt_of_widen hS hT hp htask]
      subst htask
      intro t ht
      rcases Finset.mem_union.mp ht with ht | ht
      · exact hold t ht
      · exact gathers_step hS hT hseed hp (hnew ⟨y, hz⟩) t ht
  · intro t ht
    rw [Graph.tagsAt, hmade.type] at ht
    exact absurd ht (Finset.notMem_empty t)

theorem collecting_step (h : Collecting L g (task :: rest)) :
    Collecting (L.performed g task) g' (ts ++ rest) where
  edge := by
    intro s d r hedge hd
    have hok := hS.tasks task (List.mem_cons_self ..)
    have hext := (hS.step hp).1
    have hold : g.EdgeOK L s d r ∧ (L.IsDispatch d → L.IsMember d s) := by
      rcases edge_step hS.graph hok hp hedge with hedge | rfl
      · exact ⟨hS.graph.edge hedge, h.edge hedge⟩
      · exact ⟨hok, h.tasks _ (List.mem_cons_self ..)⟩
    obtain ⟨⟨-, ⟨l, hl, -⟩, -⟩, hmember⟩ := hold
    exact hext.isMember hS.graph (hmember (hext.isDispatch_of_later hS.graph (by simp [hl]) hd))
  tasks t ht := by
    rcases List.mem_append.mp ht with ht | ht
    · exact collects_new hS hT hseed hp h ht
    · have ht := List.mem_cons_of_mem task ht
      exact collects_later hS hT hseed hp (hS.tasks t ht) (h.tasks t ht)
  gathered := gathered_step hS hT hseed hp h

end step

theorem collecting_loaded (tree : Expr) :
    Collecting (Labels.loaded tree) (Graph.loaded tree) [.visit 0 tree rootOf] where
  edge h := by
    rw [observers_loaded] at h
    cases h
  tasks t ht := by
    cases List.mem_singleton.mp ht
    trivial
  gathered := by
    rintro d ⟨y, hd⟩
    rcases label_loaded hd with ⟨heq, -⟩ | ⟨q, -, -, heq⟩ <;> cases heq

/-! ## Runs -/

/-- What is known of a configuration that a run without instance variables comes to. -/
structure Dispatching (names : List String) (L : Labels) (c : Graph.Config) : Prop where
  sound : Sound.Config L c
  tame : Tame.Config names L c
  seeded : Seeded L c.1 c.2
  expanding : Expanding L c.1 c.2
  collecting : Collecting L c.1 c.2

theorem Dispatching.loaded {tree : Expr} (h : tree.FieldFree) :
    Dispatching tree.classNames (Labels.loaded tree)
      (Graph.loaded tree, [.visit 0 tree rootOf]) where
  sound := .loaded tree
  tame := .loaded h.within
  seeded := seeded_loaded tree
  expanding := expanding_loaded tree
  collecting := collecting_loaded tree

theorem Dispatching.step (h : Dispatching names L (g, task :: rest))
    (hp : g.perform task = (g', .ok ts)) :
    Dispatching names (L.performed g task) (g', ts ++ rest) where
  sound := (h.sound.step hp).2
  tame := h.tame.step h.sound hp
  seeded := seeded_step h.sound.graph (h.sound.tasks task (List.mem_cons_self ..)) hp h.seeded
    fun t ht => h.sound.tasks t (List.mem_cons_of_mem _ ht)
  expanding := expanding_step h.sound h.tame hp h.expanding
  collecting := collecting_step h.sound h.tame h.seeded hp h.collecting

theorem Course.dispatching {c c' : Graph.Config} (h : Course L c L' c')
    (hc : Dispatching names L c) : Dispatching names L' c' := by
  induction h with
  | done => exact hc
  | step hp _ ih => exact ih (hc.step hp)

/-- A resolution that came to its end began with what the call was given then. -/
theorem Graph.LastResolved.course {start now : Graph.Config} {x : Option Ty × List Ty} {t : Target}
    {during : List Task} (h : Graph.LastResolved start c x t during now) (L : Labels) :
    ∃ L₀ g₀ rest L' g' ts, Course L start L₀ (g₀, .resolve c :: rest) ∧ g₀.Given c x ∧
      g₀.perform (.resolve c) = (g', .ok (ts ++ [.aim c t])) ∧
      Course (L₀.performed g₀ (.resolve c)) (g', ts ++ [.aim c t] ++ rest) L' now := by
  obtain ⟨rest, g, after, ⟨before, g₀, g', ts, hbefore, hx, hp, -, hduring⟩, hafter, -⟩ := h
  obtain ⟨L₀, hbefore⟩ := hbefore.course L
  obtain ⟨L', hlater⟩ := (hduring.trans hafter).course (L₀.performed g₀ (.resolve c))
  exact ⟨L₀, g₀, rest, L', g', ts, hbefore, hx, hp, by simpa using hlater⟩

/-! ## When nothing waits any more -/

/-- A call of the name of a dispatch is given a choice of concrete types, and calls an instance for
the types of the arguments. -/
def Graph.MemberSolved (g : Graph) (x : Dispatch) (key : Option Atom × List Atom) (c : NodeId) :
    Prop :=
  ∃ s i y, g.site? c = some s ∧ s.name = x.name ∧ s.origin = x.origin ∧
    g.inputs? s = some (key.1.map .one, key.2.map .one) ∧ s.target = some (.inst i) ∧
    g.instances[i]? = some y ∧ g.heap.sameRow y.params (key.2.map fun a => some (.one a)) = true

/-- What a dispatch is like when all is done. -/
structure Graph.DispatchSolved (g : Graph) (d : NodeId) (x : Dispatch) : Prop where
  mixed : (x.receiver.toList ++ x.args).any Ty.isMixed = true
  keys : x.calls.map (·.1) = combinations x.receiver x.args
  nodup : (x.calls.map (·.2)).Nodup
  member : ∀ key c, (key, c) ∈ x.calls → g.MemberSolved x key c
  type : g.HasType d (g.heap.mergeAll (x.calls.map fun e => g.type e.2))
  target : ∀ c s, g.site? c = some s → s.target = some (.dispatch d) → c = x.origin

/-- A dispatch is for the same call and for the same types as before. -/
theorem Graph.Grows.dispatch_blank (h : Graph.Grows g g') {x x' : Dispatch}
    (hx : g.dispatch? d = some x) (hx' : g'.dispatch? d = some x') : x'.blank = x.blank := by
  obtain ⟨cell, hcell, hrole⟩ := Graph.blank_of_dispatch hx
  obtain ⟨y, hy, heq⟩ := Graph.dispatch_of_blank (h.blank hcell) hrole
  rw [hx'] at hy
  cases hy
  exact heq

/-- A call that is pointed at a dispatch has a union among its inputs, and the dispatch is for calls
that were written where this one was. -/
theorem dispatch_of_resolve (hS : Sound L g) {s : Site} (hs : g.site? c = some s)
    (hl : g.Linked c) (hp : g.resolve c = (g', .ok ts)) (haim : .aim c (.dispatch d) ∈ ts) :
    ∃ receiver args z, g.inputs? s = some (receiver, args) ∧
      (receiver.toList ++ args).any Ty.isMixed = true ∧ g'.dispatch? d = some z ∧
      z.origin = s.origin := by
  obtain ⟨L', -, hcases⟩ := resolves_site hS hl hs hp
  cases hcases with
  | waiting | inst | newInst => simp at haim
  | @dispatch receiver args d' hin hmixed hfind =>
      obtain rfl : d = d' := by simpa using haim
      obtain ⟨-, z, hz, horigin, -⟩ := Graph.exists_of_findDispatch hfind
      exact ⟨receiver, args, z, hin, hmixed, hz, horigin⟩
  | @newDispatch receiver args n hin hmixed =>
      obtain rfl : d = g.cells.size := by simpa [Graph.mem_memberTasks] using haim
      exact ⟨receiver, args, _, hin, hmixed, g.dispatch?_addDispatch s receiver args n, rfl⟩

section finished

variable {x : Dispatch} {key : Option Atom × List Atom}

section expanded

variable (h : Dispatching names L (g, [])) (hd : L.IsDispatch d) (hx : g.dispatch? d = some x)
include h hd hx

/-- A dispatch has one member for each choice, in their order. -/
theorem Dispatching.keys : x.calls.map (·.1) = combinations x.receiver x.args := by
  have hkeys := (h.expanding d x hd hx).keys
  rwa [show awaited d [] = [] from rfl, List.append_nil] at hkeys

/-- The members for different choices are different calls. -/
theorem Dispatching.nodup : (x.calls.map (·.2)).Nodup := by
  have hkeys : (x.calls.map (·.1)).Nodup := by
    rw [h.keys hd hx]
    exact (h.tame.graph.nodup_choices h.sound.graph hd hx).of_map _
  refine (hkeys.of_map _).map_on fun e he e' he' heq => ?_
  obtain ⟨hlabel, -⟩ := (h.expanding d x hd hx).members e he
  obtain ⟨hlabel', -⟩ := (h.expanding d x hd hx).members e' he'
  rw [heq, hlabel'] at hlabel
  obtain ⟨-, hr, has⟩ := Label.member.inj (Option.some.inj hlabel)
  exact Prod.ext (Prod.ext hr.symm has.symm) heq

/-- A dispatch has the types of its members, if nodes have heard of all that they merge. -/
theorem Dispatching.hasType
    (hspread : ∀ {s o}, (o, .merge) ∈ g.observers s → g.tagsAt s ⊆ g.tagsAt o) :
    g.HasType d (g.heap.mergeAll (x.calls.map fun e => g.type e.2)) := by
  have hexpands := h.expanding d x hd hx
  refine h.tame.graph.hasType_mergeAll (fun t ht => ?_) fun t => ?_
  · obtain ⟨e, -, rfl⟩ := List.mem_map.mp ht
    exact h.tame.graph.normal
  · constructor
    · intro ht
      obtain ⟨c, ⟨r, as, hc⟩, hmem⟩ := h.collecting.gathered hd t ht
      exact ⟨_, List.mem_map_of_mem (hexpands.only hc), hmem⟩
    · rintro ⟨T, hT, ht⟩
      obtain ⟨e, he, rfl⟩ := List.mem_map.mp hT
      obtain ⟨-, -, hedge | hwait⟩ := hexpands.members e he
      · exact hspread (Graph.has_edge.mp hedge) ht
      · cases hwait

end expanded

section resolved

variable {start : Graph.Config} (hstart : Dispatching names L start) {y : Option Ty × List Ty}
  {during : List Task}
include hstart

/-- A member was given the types of its choice whenever it was resolved. -/
theorem Graph.LastResolved.given_member {t : Target}
    (h : Graph.LastResolved start c y t during (g, [])) (hx : g.dispatch? d = some x)
    (hmem : (key, c) ∈ x.calls) : y = (key.1.map .one, key.2.map .one) := by
  obtain ⟨L₀, g₀, rest, L', g', ts, hbefore, ⟨s, hs, hin⟩, hp, hlater⟩ := h.course L
  have h₀ := hbefore.dispatching hstart
  have h' := hlater.dispatching (h₀.step hp)
  obtain ⟨hext, hS⟩ := h₀.sound.step hp
  have hhas : g.Has (.mark d (.member key c)) := Graph.has_member.mpr ⟨x, hx, hmem⟩
  obtain ⟨hd, -⟩ := h'.sound.graph.entries hhas
  obtain ⟨hlabel, -⟩ := (h'.expanding d x hd hx).members _ hmem
  -- The call has the same label all the time.
  have hc : L₀ c = some (.member d key.1 key.2) := by
    obtain ⟨l, hl, -⟩ := (h₀.sound.tasks _ (List.mem_cons_self ..)).2.isOpen
    rw [hl, ← hlabel]
    exact ((hlater.later hS).2.extend.keeps hS.graph (hext.keeps h₀.sound.graph hl)).symm
  obtain ⟨hr, has⟩ := h₀.sound.graph.inputs_of_member hs hc hin
  exact Prod.ext hr has

/-- The only call that a dispatch is found for is the one that it was made for. -/
theorem Graph.LastResolved.eq_origin
    (h : Graph.LastResolved start c y (.dispatch d) during (g, []))
    (hx : g.dispatch? d = some x) : c = x.origin := by
  obtain ⟨L₀, g₀, rest, L', g', ts, hbefore, -, hp, hlater⟩ := h.course L
  have h₀ := hbefore.dispatching hstart
  obtain ⟨hext, hS⟩ := h₀.sound.step hp
  obtain ⟨hlinked, hcall⟩ := h₀.sound.tasks _ (List.mem_cons_self ..)
  obtain ⟨s, hs⟩ := h₀.sound.graph.site_of_isCall hcall
  obtain ⟨receiver, args, z, hin, hmixed, hz, horigin⟩ :=
    dispatch_of_resolve (d := d) h₀.sound.graph hs hlinked hp (by simp)
  have hblank := (hlater.later hS).2.extend.grows.dispatch_blank hz hx
  have hsame : x.blank.origin = z.blank.origin := congrArg Dispatch.origin hblank
  rw [show x.origin = z.origin from hsame, horigin]
  -- A call with a union among its inputs is no member of a dispatch.
  rcases hcall with ⟨_, _, _, _, _, _, _, hc, -⟩ | ⟨_, r, as, hc⟩
  · exact (h₀.sound.graph.site_of_node hs hc).2.2.2.symm
  · obtain ⟨rfl, rfl⟩ := h₀.sound.graph.inputs_of_member hs hc hin
    cases r <;> simp [Ty.isMixed] at hmixed

/-- A member calls an instance for the types of its choice. -/
theorem Dispatching.member (h : Dispatching names L' (g, [])) {tree : Expr} {M : Labels}
    (htargets : Targeted start tree M (g, [])) (hd : L'.IsDispatch d)
    (hx : g.dispatch? d = some x) (hmem : (key, c) ∈ x.calls) : g.MemberSolved x key c := by
  obtain ⟨hlabel, hgiven, -⟩ := (h.expanding d x hd hx).members _ hmem
  have hlinked := htargets.members d key c (Graph.has_member.mpr ⟨x, hx, hmem⟩)
  obtain ⟨s, t, y, during, hs, ht, hlast, -⟩ := htargets.last hlinked hgiven
  obtain rfl := hlast.given_member hstart hx hmem
  have hsuits := hlast.suits hstart.sound hstart.tame
  obtain ⟨s', hs', hin⟩ := hgiven
  rw [hs] at hs'
  cases hs'
  obtain ⟨z, hz, hname, horigin, -⟩ := h.sound.graph.site_of_member hs hlabel
  rw [h.sound.graph.label_eq_dispatch hd hx] at hz
  cases hz
  cases t with
  | dispatch d' =>
      have hmixed := hsuits.1
      obtain ⟨r, as⟩ := key
      cases r <;> simp [Ty.isMixed] at hmixed
  | inst i =>
      obtain ⟨-, y, hy, hsame⟩ := hsuits
      rw [List.map_map] at hsame
      exact ⟨s, i, y, hs, hname, horigin, hin, ht, hy, hsame⟩

end resolved

end finished

/-! ## Programs -/

/-- When nothing waits any more, all is done for a dispatch. -/
theorem dispatchSolved_of_passes {tree : Expr} (hfree : tree.FieldFree) {all : List Task}
    (hpass : Graph.Passes (Graph.loaded tree, [.visit 0 tree rootOf]) all (g, []))
    (hd : d ∈ g.dispatches) : ∃ x, g.dispatch? d = some x ∧ g.DispatchSolved d x := by
  have hstart := Dispatching.loaded hfree
  obtain ⟨L, hcourse⟩ := hpass.course (Labels.loaded tree)
  have h := hcourse.dispatching hstart
  obtain ⟨L', htargets⟩ := (Targeted.loaded tree _).passes hpass
  have hlabel : L.IsDispatch d := h.sound.graph.entries (e := .dispatch d) hd
  obtain ⟨y, hy⟩ := id hlabel
  obtain ⟨x, hx, -⟩ := Graph.dispatch_of_blank (h.sound.graph.fits hy).1 rfl
  refine ⟨x, hx, (h.expanding d x hlabel hx).mixed, h.keys hlabel hx, h.nodup hlabel hx,
    fun key c hmem => hstart.member h htargets hlabel hx hmem,
    h.hasType hlabel hx fun hedge => tagsAt_subset_of_finished hfree hpass hedge, ?_⟩
  intro c s hs ht
  obtain ⟨-, -, _, _, hlast, -⟩ := htargets.aims.recorded c (.dispatch d)
    (Graph.has_aimed.mpr ⟨s, hs, ht⟩)
  exact hlast.eq_origin hstart hx

/-- Without instance variables, a dispatch is over types one of which is a union, and has one member
for each choice of concrete types for the inputs, in their order. Each member calls an instance for
its types, and the dispatch has the merge of the types of its members. No call is pointed at it but
the one that was dispatched. -/
theorem inferTypes_dispatches (budget : Nat) (tree : Expr) (hfree : tree.FieldFree)
    (hfin : (inferTypes budget tree).2 = .finished) {d : NodeId}
    (hd : d ∈ (inferTypes budget tree).1.graph.dispatches) :
    ∃ x, (inferTypes budget tree).1.graph.dispatch? d = some x ∧
      (inferTypes budget tree).1.graph.DispatchSolved d x := by
  rw [inferTypes_outcome] at hfin
  rw [inferTypes_graph] at hd ⊢
  obtain ⟨done, hpass⟩ := Graph.passes_of_run_finished hfin
  exact dispatchSolved_of_passes hfree hpass hd

/-- A method is called on two variables of two types each. -/
def paired : Expr :=
  let name (text : String) : Token := ⟨text, 0⟩
  let var (text : String) : Expr := .place ⟨.localVar, name text⟩
  let one : Expr := .literal ⟨.int, .int 1, 0⟩
  let half : Expr := .literal ⟨.float, .none, 0⟩
  .block [
    .method (name "f") [name "p", name "q"] (.block [var "q"]),
    .assign ⟨.localVar, name "x"⟩ one,
    .assign ⟨.localVar, name "x"⟩ half,
    .assign ⟨.localVar, name "y"⟩ half,
    .assign ⟨.localVar, name "y"⟩ (.literal ⟨.string, .none, 0⟩),
    .call none (name "f") [var "x", var "y"] true]

theorem inferTypes_dispatches_paired :
    (paired.FieldFree ∧ (inferTypes 200 paired).2 = .finished ∧
      rootOf + 21 ∈ (inferTypes 200 paired).1.graph.dispatches) ∧
    ∃ x, (inferTypes 200 paired).1.graph.dispatch? (rootOf + 21) = some x ∧
      (inferTypes 200 paired).1.graph.DispatchSolved (rootOf + 21) x := by
  have hfree : paired.FieldFree := by decide
  have hfin : (inferTypes 200 paired).2 = .finished := by decide +kernel
  have hd : rootOf + 21 ∈ (inferTypes 200 paired).1.graph.dispatches := by decide +kernel
  exact ⟨⟨hfree, hfin, hd⟩, inferTypes_dispatches 200 paired hfree hfin hd⟩

end TypeFlow
