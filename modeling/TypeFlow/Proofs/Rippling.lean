import TypeFlow.Proofs.Assigning
import TypeFlow.Proofs.Repeating
import TypeFlow.Proofs.Wrapping

/-! # Where the errors of a walk lie

While the body of an instance is walked over, changes of type ripple out on the same stack, along
the edges of the graph and into the members of dispatches. An error that comes out of the walk
lies where they have come to, which may be anywhere in the program. -/

namespace TypeFlow

variable {L L' : Labels} {g g' : Graph} {task : Task} {ts rest : List Task} {b : Expr}
  {body n o : NodeId} {i : InstanceId}

/-! ## Ripples -/

namespace Graph

/-- What happens at one node makes something happen at another: at one that observes it, or, if it is
a call, at a member of a dispatch that carries the name token of the call. -/
inductive Stirs (g : Graph) (n o : NodeId) : Prop where
  | observer {r : Reaction} : (o, r) ∈ g.observers n → g.Stirs n o
  | member {s : Site} : g.site? o = some s → s.origin = n → g.Stirs n o

/-- What happens in a tree at an address ripples to a node. -/
def Ripples (g : Graph) (b : Expr) (body n : NodeId) : Prop :=
  ∃ x ∈ b.nodes body, Relation.ReflTransGen g.Stirs x.1 n

/-- One graph has the edges of another, and the same calls. -/
structure Outgrows (g g' : Graph) : Prop where
  grows : Grows g g'
  edges : ∀ n o r, (o, r) ∈ g.observers n → (o, r) ∈ g'.observers n

theorem Outgrows.refl (g : Graph) : Outgrows g g := ⟨.refl g, fun _ _ _ h => h⟩

theorem Outgrows.trans {g'' : Graph} (h : Outgrows g g') (h' : Outgrows g' g'') : Outgrows g g'' :=
  ⟨h.grows.trans h'.grows, fun n o r ho => h'.edges n o r (h.edges n o r ho)⟩

theorem Stirs.outgrow (h : g.Stirs n o) (hs : Outgrows g g') : g'.Stirs n o := by
  cases h with
  | observer ho => exact .observer (hs.edges _ _ _ ho)
  | @member s hsite horigin =>
      obtain ⟨x, hx, hr⟩ := blank_of_site hsite
      obtain ⟨s', hs', hblank⟩ := site_of_blank (hs.grows.blank hx) hr
      have hkept : s'.blank.origin = s.blank.origin := by rw [hblank]
      exact .member hs' (Eq.trans hkept horigin)

namespace Ripples

theorem of_mem {x : Nat × Expr} (h : x ∈ b.nodes body) : g.Ripples b body x.1 := ⟨x, h, .refl⟩

theorem tail (h : g.Ripples b body n) (hs : g.Stirs n o) : g.Ripples b body o := by
  obtain ⟨x, hx, hpath⟩ := h
  exact ⟨x, hx, hpath.tail hs⟩

theorem outgrow (h : g.Ripples b body n) (hs : Outgrows g g') : g'.Ripples b body n := by
  obtain ⟨x, hx, hpath⟩ := h
  exact ⟨x, hx, Relation.ReflTransGen.mono (fun _ _ h => h.outgrow hs) _ _ hpath⟩

end Ripples

end Graph

theorem Later.outgrows (h : Later L g L' g') : Graph.Outgrows g g' where
  grows := h.extend.grows
  edges _ _ _ ho := Graph.has_edge.mp (h.lasts _ rfl (Graph.has_edge.mpr ho))

/-! ## Tasks that ripple out of a body -/

/-- A task has come from what happens in a tree at an address. -/
def Task.Ripples (g : Graph) (b : Expr) (body : NodeId) : Task → Prop
  | .visit _ e n => ((n : Nat), e) ∈ b.nodes body
  | .bind _ p n => ∃ v, ((n : Nat), .assign p v) ∈ b.nodes body
  | .store n _ | .widen n _ | .deliver _ n _ | .react _ n _ _ | .notify n | .resolve n | .aim n _
  | .markNew n | .finish n _ => g.Ripples b body n
  | .subscribe s o _ => g.Ripples b body s ∨ g.Ripples b body o
  | .member d _ _ => ∃ y, g.dispatch? d = some y ∧ g.Ripples b body y.origin
  | .leave _ _ => True

theorem Task.Ripples.outgrow {t : Task} (h : t.Ripples g b body) (hs : Graph.Outgrows g g') :
    t.Ripples g' b body := by
  cases t with
  | visit | bind | leave => exact h
  | subscribe => exact h.imp (·.outgrow hs) (·.outgrow hs)
  | member d r as =>
      obtain ⟨y, hy, hr⟩ := h
      obtain ⟨x, hx, hrole⟩ := Graph.blank_of_dispatch hy
      obtain ⟨y', hy', hblank⟩ := Graph.dispatch_of_blank (hs.grows.blank hx) hrole
      have horigin : y'.blank.origin = y.blank.origin := by rw [hblank]
      exact ⟨y', hy', Eq.symm horigin ▸ hr.outgrow hs⟩
  | _ => exact Graph.Ripples.outgrow h hs

theorem Expr.branch_mem {e : Expr} {n : Nat} {x : Nat × Expr} (h : (n, e) ∈ b.nodes body)
    (hx : x ∈ e.branches n) : x ∈ b.nodes body :=
  nodes_trans h (mem_nodes_iff.mpr (.inr ⟨x, hx, x.2.mem_nodes_self x.1⟩))

theorem Expr.branch_of_part {e : Expr} {k : Option String} {n : Nat} {p : Stop}
    (h : p ∈ e.parts k n) : (p.node, p.expr) ∈ e.branches n := by
  cases e with
  | call rc nm as q =>
      simp only [Expr.parts] at h
      split at h
      · cases h
      · rcases List.mem_append.mp h with h | h <;> obtain ⟨x, hx, rfl⟩ := List.mem_map.mp h
        · exact List.mem_append_left _ (List.mem_map_of_mem hx)
        · exact List.mem_append_right _ hx
  | block es =>
      obtain ⟨x, hx, rfl⟩ := List.mem_map.mp h
      exact hx
  | cond c y no =>
      simp only [Expr.parts, List.mem_append, List.mem_cons, List.not_mem_nil, or_false,
        List.mem_map, Option.mem_toList] at h
      rcases h with (rfl | rfl) | ⟨x, rfl, rfl⟩ <;> simp [Expr.branches]
  | assign | loop =>
      simp only [Expr.parts, List.mem_cons, List.not_mem_nil, or_false] at h
      rcases h with rfl | rfl <;> simp [Expr.branches]
  | _ => simp_all [Expr.parts, Expr.branches]

/-- What a walk does at a node of a tree concerns the node and those below it. -/
theorem ripples_visit {w : WalkId} {e : Expr} {n : NodeId} (hn : ((n : Nat), e) ∈ b.nodes body)
    (hp : g.visit w e n = (g', .ok ts)) {t : Task} (ht : t ∈ ts) : t.Ripples g' b body := by
  have hself : g'.Ripples b body n := .of_mem hn
  cases follows_of_visit none hp ht with
  | part hpart => exact Expr.branch_mem hn (Expr.branch_of_part hpart)
  | literal | loop | empty | own | clone | made | called => exact hself
  | read | value | last | yes | no | input => exact .inr hself
  | target => exact ⟨_, hn⟩
  | left => trivial

/-- A new member of a dispatch carries the name token of the call that the dispatch is for. -/
theorem ripples_member {d : NodeId} {r : Option Atom} {as : List Atom}
    (hp : g.perform (.member d r as) = (g', .ok ts)) (hgrown : Graph.Outgrows g g')
    (hin : (Task.member d r as).Ripples g b body) : g'.Ripples b body (g.memberAt r as) := by
  obtain ⟨y, hy, hr⟩ := hin
  rw [Graph.perform, Graph.addMember_eq hy] at hp
  cases hp
  have hsite : (g.withMember y r as).site? (g.memberAt r as) = some (y.member g.cells.size r as) := by
    simp [Graph.site?, Graph.role, Graph.cell_memberAt]
  obtain ⟨x, hx, hrole⟩ := Graph.blank_of_site hsite
  have hgrows := Graph.grows_modifyDispatch (g.withMember y r as) d (f := fun z => { z with
    calls := z.calls.putBy (g.withMember y r as).sameMember (r, as) (g.memberAt r as) }) fun _ => rfl
  obtain ⟨s', hs', hblank⟩ := Graph.site_of_blank (hgrows.blank hx) hrole
  have horigin : s'.blank.origin = y.origin := by rw [hblank]; rfl
  exact (hr.outgrow hgrown).tail (.member hs' horigin)

section step

variable (hS : Sound L g) (hok : task.OK L g) (hp : g.perform task = (g', .ok ts))
include hS hok hp

/-- What a task leads to ripples out of the same body, except for what is done in a new body. -/
theorem ripples_perform (hin : task.Ripples g b body) {t : Task} (ht : t ∈ ts)
    (hvisit : ∀ c w b n, task = .resolve c → t ≠ .visit w b n) : t.Ripples g' b body := by
  have hgrown : Graph.Outgrows g g' := (later_of_perform hS hok hp).outgrows
  cases leads_perform hS hok hp ht with
  | stored ho => exact (hin.tail (.observer ho)).outgrow hgrown
  | widened ho => exact (hin.tail (.observer ho)).outgrow hgrown
  | @subscribed s o r t hs =>
      obtain ⟨l, hl⟩ := Option.ne_none_iff_exists'.mp hok.1
      have hedge : (o, r) ∈ (g.addObserver s o r).observers s :=
        Graph.has_edge.mp (Graph.has_addObserver_self (hS.bound hl))
      have hgraph : g' = g.addObserver s o r := (congrArg Prod.fst hp).symm
      rcases hin with hin | hin
      · refine (hin.outgrow hgrown).tail (.observer (r := r) ?_)
        rw [hgraph]
        exact hedge
      · exact hin.outgrow hgrown
  | delivered | merged | prompted | stirred => exact hin.outgrow hgrown
  | visited | typed | connected | assigned | called | made | entered =>
      exact ripples_visit hin hp ht
  | bound =>
      obtain ⟨v, hn⟩ := hin
      exact .inl (.of_mem hn)
  | @shown w p n v =>
      obtain ⟨e, hn⟩ := hin
      have htarget := Expr.branch_mem hn (x := (n + 1, .place p)) (by simp [Expr.branches])
      exact .inr (.of_mem htarget)
  | pointed => exact .inr (hin.outgrow hgrown)
  | aimed | ended => exact hin.outgrow hgrown
  | @opened c r as =>
      obtain ⟨s, receiver, args, note, hs, hinputs, hmixed, rfl, -⟩ := member_of_resolve hS hok.1 hp ht
      refine ⟨_, g.dispatch?_addDispatch s receiver args note, ?_⟩
      have horigin : s.origin = c := hS.origin_of_mixed hok.2 hs hinputs hmixed
      exact (horigin ▸ hin).outgrow hgrown
  | began => exact (hvisit _ _ _ _ rfl rfl).elim
  | joined => exact .inl (ripples_member hp hgrown hin)
  | taken => exact ripples_member hp hgrown hin

end step

/-! ## What waits within walks -/

/-- The instance of the innermost walk that ends among some tasks. -/
def innermost? : List Task → Option InstanceId
  | [] => none
  | .finish _ i :: _ => some i
  | _ :: rest => innermost? rest

theorem innermost?_append (hnone : ∀ c i, .finish c i ∉ ts) :
    innermost? (ts ++ rest) = innermost? rest := by
  induction ts with
  | nil => rfl
  | cons t ts ih =>
      have ih := ih fun c i h => hnone c i (List.mem_cons_of_mem _ h)
      cases t with
      | finish c i => exact (hnone c i (List.mem_cons_self ..)).elim
      | _ => exact ih

namespace Graph

/-- The body of an instance of a written method, which is a copy at an address of what was written. -/
def IsBodyOf (g : Graph) (i : InstanceId) (b : Expr) (body : NodeId) : Prop :=
  ∃ x m r, g.instances[i]? = some x ∧ x.body = body ∧ g.method? x.method = some m ∧
    m.source = .written b r

theorem IsBodyOf.grow (h : g.IsBodyOf i b body) (hg : Grows g g') : g'.IsBodyOf i b body := by
  obtain ⟨x, m, r, hx, hbody, hm, hsource⟩ := h
  obtain ⟨c, hc, hr⟩ := blank_of_method hm
  obtain ⟨m', hm', hblank⟩ := method_of_blank (hg.blank hc) hr
  have hkept : m'.blank.source = m.blank.source := by rw [hblank]
  exact ⟨x, m', r, hg.inst hx, hbody, hm', Eq.trans hkept hsource⟩

end Graph

/-- A task has come from what happens in the body of an instance. -/
def Task.Inside (g : Graph) (i : InstanceId) (t : Task) : Prop :=
  ∃ b body, g.IsBodyOf i b body ∧ t.Ripples g b body

theorem Task.Inside.outgrow {t : Task} (h : t.Inside g i) (hs : Graph.Outgrows g g') :
    t.Inside g' i := by
  obtain ⟨b, body, hbody, ht⟩ := h
  exact ⟨b, body, hbody.grow hs.grows, ht.outgrow hs⟩

/-- Each task that waits has come from the body of the instance of the innermost walk around it. -/
def Graph.Leveled (g : Graph) : List Task → Prop
  | [] => True
  | t :: rest => (∀ i, innermost? rest = some i → t.Inside g i) ∧ g.Leveled rest

namespace Graph.Leveled

theorem outgrow (h : g.Leveled rest) (hs : Outgrows g g') : g'.Leveled rest := by
  induction rest with
  | nil => trivial
  | cons t rest ih => exact ⟨fun i hi => (h.1 i hi).outgrow hs, ih h.2⟩

theorem append (h : g.Leveled rest) (hnone : ∀ c i, .finish c i ∉ ts)
    (hts : ∀ t ∈ ts, ∀ i, innermost? rest = some i → t.Inside g i) : g.Leveled (ts ++ rest) := by
  induction ts with
  | nil => exact h
  | cons t ts ih =>
      have hnone' : ∀ c i, .finish c i ∉ ts := fun c i h => hnone c i (List.mem_cons_of_mem _ h)
      refine ⟨fun i hi => hts t (List.mem_cons_self ..) i ?_, ih hnone' fun t' ht' =>
        hts t' (List.mem_cons_of_mem _ ht')⟩
      rw [← innermost?_append hnone']
      exact hi

end Graph.Leveled

/-- The body of a new instance is a copy of what was written. -/
theorem Graph.Begins.isBodyOf (hS : Sound L g) (hgrown : Graph.Outgrows g g') {c : NodeId} {s : Site}
    {receiver : Option Ty} {args : List Ty} {method : NodeId} {m : Method}
    (h : g.Begins L task g' ts c s receiver args method m b) :
    g'.IsBodyOf g.instances.size b g.cells.size := by
  obtain ⟨root, hsource⟩ := h.source hS
  obtain ⟨x, hx, hr⟩ := Graph.blank_of_method h.calls.found
  obtain ⟨m', hm', hblank⟩ := Graph.method_of_blank (hgrown.grows.blank hx) hr
  have hkept : m'.blank.source = m.blank.source := by rw [hblank]
  refine ⟨g.newInstance method receiver args, m', root, ?_, rfl, hm', Eq.trans hkept hsource⟩
  rw [h.graph]
  exact g.instances_specialized c s method m.params b receiver args

/-- What waits after a task has come from the body of the walk around it. -/
theorem leveled_step (hS : Sound.Config L (g, task :: rest)) (h : g.Leveled (task :: rest))
    (hp : g.perform task = (g', .ok ts)) : g'.Leveled (ts ++ rest) := by
  have hok := hS.tasks task (List.mem_cons_self ..)
  have hgrown : Graph.Outgrows g g' := (later_of_perform hS.graph hok hp).outgrows
  have hrest := h.2.outgrow hgrown
  rcases begins_or_plain hS.graph hok hp with
    ⟨c, s, receiver, args, method, m, b, hbegin⟩ | ⟨hnone, hvisit⟩
  · obtain rfl := hbegin.task_eq
    have hcall : ∀ i, innermost? rest = some i → ∃ b body, g'.IsBodyOf i b body ∧
        g'.Ripples b body c := fun i hi => (h.1 i hi).outgrow hgrown
    rw [hbegin.tasks]
    refine ⟨fun i hi => ?_, hcall, fun i hi => ?_, hcall, hrest⟩
    · cases hi
      exact ⟨b, _, hbegin.isBodyOf hS.graph hgrown, b.mem_nodes_self _⟩
    · obtain ⟨b', body, hbody, hc⟩ := hcall i hi
      exact ⟨b', body, hbody, .inr hc⟩
  · refine hrest.append hnone fun t ht i hi => ?_
    obtain ⟨b, body, hbody, hin⟩ := h.1 i hi
    refine ⟨b, body, hbody.grow hgrown.grows, ripples_perform hS.graph hok hp hin ht ?_⟩
    rintro c w b n heq rfl
    exact hvisit c w b n heq ht

/-! ## Errors on their way out -/

namespace Graph

/-- An error points at a node to which something that happened in the body of an instance has
rippled. It lies in the body itself unless it is about a call. -/
def ComesFrom (g : Graph) (i : InstanceId) (site : ErrorSite) : Prop :=
  ∃ b body, g.IsBodyOf i b body ∧ g.Ripples b body site.node ∧
    (site.kind ≠ .call → ∃ e, ((site.node : Nat), e) ∈ b.nodes body)

theorem ComesFrom.outgrow {site : ErrorSite} (h : g.ComesFrom i site) (hs : Outgrows g g') :
    g'.ComesFrom i site := by
  obtain ⟨b, body, hbody, hr, hkind⟩ := h
  exact ⟨b, body, hbody.grow hs.grows, hr.outgrow hs, hkind⟩

/-- A task that fails points at where it has come to. -/
theorem Breaks.comesFrom {cause : Cause} {site : ErrorSite} (h : g.Breaks task cause site)
    (hin : task.Inside g i) : g.ComesFrom i site := by
  obtain ⟨b, body, hbody, hin⟩ := hin
  refine ⟨b, body, hbody, ?_⟩
  cases h with
  | place => exact ⟨.of_mem hin, fun _ => ⟨_, hin⟩⟩
  | @target w p n =>
      obtain ⟨v, hn⟩ := hin
      have htarget := Expr.branch_mem hn (x := (n + 1, .place p)) (by simp [Expr.branches])
      exact ⟨.of_mem htarget, fun _ => ⟨_, htarget⟩⟩
  | @const w c nm as p n hnew =>
      have hconst := Expr.branch_mem hin (x := (n + 1, .const c)) (by simp [Expr.branches])
      exact ⟨.of_mem hconst, fun _ => ⟨_, hconst⟩⟩
  | call hs => exact ⟨hin, fun hkind => (hkind rfl).elim⟩

/-- All errors in a chain but the first come from the body of the instance that the error around them
tells of. -/
def Descends (g : Graph) (e : InferenceError) : Prop :=
  ∀ site i inner, .instantiating site i inner ∈ e.chain → g.ComesFrom i inner.site

theorem outgrows_unwind (g : Graph) (f : Fault) (ts : List Task) : Outgrows g (g.unwind f ts).1 := by
  induction ts generalizing g f with
  | nil => exact .refl g
  | cons t ts ih =>
      cases t with
      | finish c i =>
          rw [unwind]
          have hbusy := grows_modifySite g c (f := fun s => { s with busy := false })
            (fun _ => rfl) fun _ h => h
          refine Outgrows.trans ⟨hbusy, fun n o r h => ?_⟩ (ih _ _)
          rwa [observers_modifySite]
      | leave w outer =>
          rw [unwind]
          have hleft := grows_modifyWalk g w (f := fun x => { x with klass := outer }) fun _ => rfl
          exact Outgrows.trans ⟨hleft, fun n o r h => h⟩ (ih _ _)
      | _ => exact ih g f

/-- An error goes down into the walks that it comes out of. -/
theorem Leveled.descends {waiting : List Task} (h : g.Leveled waiting)
    (hsites : ∀ c i, .finish c i ∈ waiting → ∃ s, g.site? c = some s) {now : Graph}
    (hgrows : Grows g now) {e : InferenceError}
    (hsite : ∀ i, innermost? waiting = some i → g.ComesFrom i e.site) (he : g.Descends e) :
    ∃ e', (now.unwind (.inference e) waiting).2 = .inference e' ∧ g.Descends e' := by
  induction waiting generalizing now e with
  | nil => exact ⟨e, rfl, he⟩
  | cons t waiting ih =>
      have hsites' : ∀ c i, .finish c i ∈ waiting → ∃ s, g.site? c = some s :=
        fun c i hmem => hsites c i (List.mem_cons_of_mem _ hmem)
      cases t with
      | finish c i =>
          obtain ⟨s, hs⟩ := hsites c i (List.mem_cons_self ..)
          obtain ⟨s', hs', -⟩ := hgrows.errorSite hs
          have hbusy := grows_modifySite now c (f := fun s => { s with busy := false })
            (fun _ => rfl) fun _ h => h
          rw [unwind, hs']
          refine ih h.2 hsites' (hgrows.trans hbusy) (e := .instantiating (s'.errorSite c) i e)
            (fun j hj => ?_) fun site j inner hmem => ?_
          · obtain ⟨b, body, hbody, hc⟩ := h.1 j hj
            exact ⟨b, body, hbody, hc, fun hkind => (hkind rfl).elim⟩
          · rcases List.mem_cons.mp hmem with heq | hmem
            · cases heq
              exact hsite i rfl
            · exact he site j inner hmem
      | leave w outer =>
          have hleft := grows_modifyWalk now w (f := fun x => { x with klass := outer }) fun _ => rfl
          rw [unwind]
          exact ih h.2 hsites' (hgrows.trans hleft) hsite he
      | _ => exact ih h.2 hsites' hgrows hsite he

end Graph

/-! ## Programs that fail -/

/-- When inference fails, each error that is wrapped comes from the body of the instance that was
walked over when it was wrapped: changes of type have rippled from there to where it lies. -/
theorem inferTypes_descends (budget : Nat) (tree : Expr) {e : InferenceError}
    (hfail : (inferTypes budget tree).2 = .failed (.inference e)) :
    (inferTypes budget tree).1.graph.Descends e := by
  rw [inferTypes_outcome] at hfail
  rw [inferTypes_graph]
  obtain ⟨done, g, task, rest, g', f, hpass, hp, hend⟩ := Graph.passes_of_run_failed hfail
  have hS := Sound.Config.loaded tree
  obtain ⟨L, hL, hlevel⟩ : ∃ L, Sound.Config L (g, task :: rest) ∧ g.Leveled (task :: rest) := by
    refine hpass.preserves (fun c => ∃ L, Sound.Config L c ∧ c.1.Leveled c.2)
      ⟨_, hS, fun i hi => (nomatch hi), trivial⟩ ?_
    rintro g task rest g' ts ⟨L, hL, hlevel⟩ hp
    exact ⟨_, (hL.step hp).2, leveled_step hL hlevel hp⟩
  have hok := hL.tasks task (List.mem_cons_self ..)
  obtain ⟨rfl, cause, site, rfl, hbreaks⟩ := breaks_of_error hL.graph hok hp
  have hsites : ∀ c i, .finish c i ∈ rest → ∃ s, g'.site? c = some s := by
    intro c i hmem
    obtain ⟨above, below, hrest⟩ := List.append_of_mem hmem
    have hstack : task :: rest = task :: above ++ .finish c i :: below := by rw [hrest]; rfl
    obtain ⟨before, hwalks⟩ := hpass.exists_walks hS (by simp) hstack
    exact hwalks.exists_site hS hpass
  obtain ⟨e', he', hdesc⟩ := hlevel.2.descends hsites (.refl g') (e := .cause cause site)
    (fun i hi => hbreaks.comesFrom (hlevel.1 i hi)) (by simp [Graph.Descends, InferenceError.chain])
  rw [← hend] at he'
  cases he'
  have hgrown := g'.outgrows_unwind (.inference (.cause cause site)) rest
  rw [← hend] at hgrown
  exact fun s i inner hmem => (hdesc s i inner hmem).outgrow hgrown

/-- A method keeps what it is given in a field. Another method has been walked over before, and
calls a method on the field that there is not. -/
def remote : Expr :=
  let name (text : String) : Token := ⟨text, 0⟩
  let v : Place := ⟨.instanceVar, name "v"⟩
  let b : Place := ⟨.localVar, name "b"⟩
  .block [
    .klass (name "Box") (.block [
      .method (name "put") [name "x"] (.assign v (.place ⟨.localVar, name "x"⟩)),
      .method (name "use") [] (.call (some (.place v)) (name "missing") [] true)]),
    .assign b (.call (some (.const (name "Box"))) (name "new") [] true),
    .call (some (.place b)) (name "use") [] true,
    .call (some (.place b)) (name "put") [.literal ⟨.int, .int 1, 0⟩] true]

/-- The error of that program. The body of the instance of the first method lies at 24 to 26. -/
def remoteError : InferenceError :=
  .instantiating ⟨rootOf + 16, .call, "put", (0, 0)⟩ 47 <|
    .cause (.undefinedMethod "missing" (some "Int") true) ⟨rootOf + 20, .call, "missing", (0, 0)⟩

theorem run_remote : (inferTypes 100 remote).2 = .failed (.inference remoteError) := by
  decide +kernel

theorem inferTypes_descends_remote :
    (inferTypes 100 remote).2 = .failed (.inference remoteError) ∧
      (inferTypes 100 remote).1.graph.Descends remoteError :=
  ⟨run_remote, inferTypes_descends 100 remote run_remote⟩

namespace Graph

/-- An error lies in the body of an instance, or at a member of a dispatch that carries the name token
of a call in the body. -/
def LiesIn (g : Graph) (i : InstanceId) (site : ErrorSite) : Prop :=
  ∃ b body, g.IsBodyOf i b body ∧ ∃ x ∈ b.nodes body,
    x.1 = site.node ∨ ∃ s, g.site? site.node = some s ∧ s.origin = x.1

/-- Where the body of an instance lies. -/
def bodyNodes (g : Graph) (i : InstanceId) : List NodeId :=
  match g.instances[i]? with
  | some x =>
      match g.method? x.method with
      | some { source := .written b _, .. } => (b.nodes x.body).map Prod.fst
      | _ => []
  | none => []

theorem IsBodyOf.bodyNodes (h : g.IsBodyOf i b body) :
    g.bodyNodes i = (b.nodes body).map Prod.fst := by
  obtain ⟨x, m, r, hx, rfl, hm, hsource⟩ := h
  rw [Graph.bodyNodes, hx]
  simp only [hm]
  split
  · next hm' =>
      cases hm'
      cases hsource
      rfl
  · next hnone => exact (hnone _ _ _ _ _ (by rw [← hsource])).elim

end Graph

/-- An error may lie outside of the body that was walked over, at a call of another method. -/
theorem lies_elsewhere :
    ¬ ∀ budget tree e, (inferTypes budget tree).2 = .failed (.inference e) →
      ∀ site i inner, .instantiating site i inner ∈ e.chain →
        (inferTypes budget tree).1.graph.LiesIn i inner.site := by
  intro h
  obtain ⟨b, body, hbody, x, hx, hwhere⟩ := h 100 remote _ run_remote _ _ _ (List.mem_cons_self ..)
  have hnodes : (inferTypes 100 remote).1.graph.bodyNodes 47 =
      [rootOf + 24, rootOf + 25, rootOf + 26] := by decide +kernel
  have horigin : ((inferTypes 100 remote).1.graph.site? (rootOf + 20)).map (·.origin) =
      some (rootOf + 20) := by decide +kernel
  have hmem : x.1 ∈ [rootOf + 24, rootOf + 25, rootOf + 26] := by
    rw [← hnodes, hbody.bodyNodes]
    exact List.mem_map_of_mem hx
  have hnode : x.1 = rootOf + 20 := by
    rcases hwhere with hwhere | ⟨s, hs, hwhere⟩
    · exact hwhere
    · rw [InferenceError.site] at hs
      rw [hs] at horigin
      exact hwhere.symm.trans (Option.some.inj horigin)
  rw [hnode] at hmem
  exact absurd hmem (by decide +kernel)

end TypeFlow
