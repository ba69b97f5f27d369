import TypeFlow.Proofs.Deriving
import TypeFlow.Proofs.Phases

/-! # Walks and frames

Each walk goes over one body: that of the program, or that of a method for a receiver and arguments
of some types. This says of each node in which frame it is to be read. -/

namespace TypeFlow

/-! ## New labels -/

/-- What the label of a new cell tells of the task that made it. -/
def Graph.Brings (g : Graph) (task : Task) (n : Nat) : Label → Prop
  | .builtin => False
  | .member d r as => task = .member d r as
  | .dispatch d => ∃ c s receiver args, task = .resolve c ∧ g.site? c = some s ∧
      g.inputs? s = some (receiver, args) ∧ d = s.dispatch receiver args ∧ n = g.cells.size
  | .node _ _ _ _ => ∃ c, task = .resolve c
  | .var w _ => (∃ p i, task = .visit w (.place p) i) ∨ (∃ p i, task = .bind w p i) ∨
      ∃ c, task = .resolve c
  | .field _ _ | .input _ => True

/-- Whatever a labelling says in addition was brought by a task. -/
def Labels.BroughtBy (L' L : Labels) (g : Graph) (task : Task) : Prop :=
  ∀ (n : Nat) l, L' n = some l → L n = some l ∨ g.Brings task n l

section brought

variable {L L' : Labels} {g g' : Graph} {task : Task}

theorem broughtBy_self : L.BroughtBy L g task := fun _ _ hl => .inl hl

theorem broughtBy_append {ls : List (Option Label)} (h : L'.BroughtBy L g task)
    (hnew : ∀ (j : Nat) l, ls[j]? = some (some l) → g.Brings task (g'.cells.size + j) l) :
    (L'.append g' ls).BroughtBy L g task := by
  intro n l hl
  rcases Labels.append_cases hl with ⟨-, hl⟩ | ⟨j, rfl, hj⟩
  · exact h n l hl
  · exact .inr (hnew j l hj)

theorem broughtBy_placed {w : WalkId} {p : Place}
    (hvar : ∀ n, g.Brings task n (.var w p.name.text)) : (L.placed g w p).BroughtBy L g task := by
  have hslot : ∀ l : Label, (∀ n, g.Brings task n l) →
      (L.append g [some l]).BroughtBy L g task := fun l hl =>
    broughtBy_append broughtBy_self fun j l' hj => by
      obtain ⟨-, rfl⟩ := Labels.eq_of_singleton hj
      exact hl _
  unfold Labels.placed
  cases p.kind with
  | localVar =>
      dsimp only
      split
      · exact broughtBy_self
      · exact hslot _ hvar
  | instanceVar =>
      dsimp only
      split
      · exact broughtBy_self
      · split
        · exact broughtBy_self
        · exact hslot _ fun _ => trivial

theorem broughtBy_visited (w : WalkId) (e : Expr) (i : NodeId) :
    (L.visited g w e).BroughtBy L g (.visit w e i) := by
  unfold Labels.visited
  split
  · exact broughtBy_placed fun _ => .inl ⟨_, _, rfl⟩
  · split
    · unfold Labels.instantiated
      split
      · exact broughtBy_self
      · split
        · refine broughtBy_append broughtBy_self fun j l hj => ?_
          simp only [List.getElem?_map, Option.map_eq_some_iff, Option.some.injEq] at hj
          obtain ⟨f, -, rfl⟩ := hj
          trivial
        · exact broughtBy_self
    · exact broughtBy_self
  · exact broughtBy_self

theorem broughtBy_specialized (body : Expr) (inputs : List (String × Ty)) (c : NodeId) :
    (L.specialized g body inputs).BroughtBy L g (.resolve c) := by
  refine broughtBy_append (broughtBy_append broughtBy_self fun j l hj => ?_) fun j l hj => ?_
  · obtain ⟨q, -, -, rfl⟩ := Labels.mem_ofTree hj
    exact ⟨c, rfl⟩
  · simp only [Labels.ofInputs, List.getElem?_map, List.getElem?_mapIdx,
      Option.map_eq_some_iff, Option.some.injEq] at hj
    obtain ⟨_, ⟨p, -, rfl⟩, rfl⟩ := hj
    split
    · exact .inr (.inr ⟨c, rfl⟩)
    · trivial

theorem broughtBy_resolved (c : NodeId) : (L.resolved g c).BroughtBy L g (.resolve c) := by
  unfold Labels.resolved
  split
  · exact broughtBy_self
  · next s hs =>
      split
      · exact broughtBy_self
      · next receiver args hin =>
          split
          · unfold Labels.dispatched
            split
            · exact broughtBy_self
            · refine broughtBy_append broughtBy_self fun j l hj => ?_
              obtain ⟨rfl, rfl⟩ := Labels.eq_of_singleton hj
              exact ⟨c, s, receiver, args, rfl, hs, hin, rfl, rfl⟩
          · unfold Labels.called
            repeat' split
            all_goals first | exact broughtBy_self | exact broughtBy_specialized _ _ c

/-- A cell has its label from before, or a task brought it. -/
theorem broughtBy_performed (task : Task) : (L.performed g task).BroughtBy L g task := by
  cases task with
  | visit w e i => exact broughtBy_visited w e i
  | bind w p i => exact broughtBy_placed fun _ => .inr (.inl ⟨_, _, rfl⟩)
  | member d r as =>
      refine broughtBy_append broughtBy_self fun j l hj => ?_
      rcases List.mem_append.mp (List.mem_of_getElem? hj) with h | h
      · obtain ⟨s, -, hs⟩ := List.mem_map.mp h
        cases hs
        trivial
      · cases List.mem_singleton.mp h
        rfl
  | resolve c => exact broughtBy_resolved c
  | _ => exact broughtBy_self

end brought

variable {P : Program} {L : Labels} {g g' : Graph} {task : Task} {ts rest : List Task}

/-- The task makes a dispatch, as a call finds none for its types. -/
inductive Graph.Makes (g : Graph) : Task → NodeId → Dispatch → Graph → List Task → Prop where
  | intro {c : NodeId} {s : Site} {receiver : Option Ty} {args : List Ty} (n : Notice) :
      g.site? c = some s → g.inputs? s = some (receiver, args) →
      (receiver.toList ++ args).any Ty.isMixed = true →
      g.findDispatch? s.origin receiver args = none →
      g.Makes (.resolve c) g.cells.size (s.dispatch receiver args)
        ((g.addDispatch s receiver args).1.notice n)
        (Graph.memberTasks g.cells.size receiver args ++
          [.subscribe g.cells.size c .merge, .aim c (.dispatch g.cells.size)])

theorem Graph.Makes.eq_size {d : NodeId} {y : Dispatch} (h : g.Makes task d y g' ts) :
    d = g.cells.size := by
  cases h
  rfl

/-- A dispatch was there before, or the task makes it. -/
theorem made_step (hS : Sound.Config L (g, task :: rest)) (hp : g.perform task = (g', .ok ts))
    {d : NodeId} {y : Dispatch} (hd : L.performed g task d = some (.dispatch y)) :
    L d = some (.dispatch y) ∨ g.Makes task d y g' ts := by
  rcases broughtBy_performed task d _ hd with hold | ⟨c, s, receiver, args, rfl, hs, hin, rfl, rfl⟩
  · exact .inl hold
  · obtain ⟨L₁, hL₁, hcases⟩ := resolves_site hS.graph (hS.tasks _ (List.mem_cons_self ..)).1 hs hp
    have hS' := (hS.step hp).2
    have hsize : L g.cells.size = none := Option.eq_none_iff_forall_ne_some.mpr fun l hl =>
      Nat.lt_irrefl _ (hS.graph.bound hl)
    rw [hL₁] at hd hS'
    cases hcases with
    | waiting | dispatch | inst =>
        rw [hsize] at hd
        cases hd
    | newDispatch n hin' hmixed hfind =>
        rw [hin] at hin'
        cases hin'
        exact .inr (.intro n hs hin hmixed hfind)
    | newInst =>
        obtain ⟨⟨r, k, hbody⟩, -⟩ := hS'.tasks _ (List.mem_cons_self ..)
        rw [hd] at hbody
        cases hbody

/-! ## Concrete inputs -/

theorem Ty.Valid.one_of_concrete {t : Ty} (ht : t.Valid g) (h : t.isMixed = false) :
    ∃ a, t = .one a := by
  cases t with
  | one a => exact ⟨a, rfl⟩
  | union ms key =>
      have hlen : 2 ≤ ms.length := ht.2.2
      exact (of_decide_eq_false h hlen).elim

theorem exists_of_concrete {ts : List Ty} (hv : ∀ t ∈ ts, t.Valid g)
    (hc : ts.any Ty.isMixed = false) : ∃ as : List Atom, ts = as.map .one := by
  induction ts with
  | nil => exact ⟨[], rfl⟩
  | cons t ts ih =>
      simp only [List.any_cons, Bool.or_eq_false_iff] at hc
      obtain ⟨a, rfl⟩ := (hv t (List.mem_cons_self ..)).one_of_concrete hc.1
      obtain ⟨as, rfl⟩ := ih (fun u hu => hv u (List.mem_cons_of_mem _ hu)) hc.2
      exact ⟨a :: as, rfl⟩

/-- A call without unions among its inputs has concrete types as inputs. -/
theorem Sound.concrete_inputs (hS : Sound L g) {s : Site} {receiver : Option Ty} {args : List Ty}
    (hin : g.inputs? s = some (receiver, args))
    (hconcrete : (receiver.toList ++ args).any Ty.isMixed = false) :
    ∃ (r : Option Atom) (as : List Atom), receiver = r.map .one ∧ args = as.map .one ∧
      ∀ a ∈ r.toList ++ as, (Ty.one a).Valid g := by
  have hvalid := hS.inputs_valid hin
  rw [List.any_append, Bool.or_eq_false_iff] at hconcrete
  obtain ⟨as, rfl⟩ := exists_of_concrete (fun t ht => hvalid t (List.mem_append_right _ ht))
    hconcrete.2
  obtain ⟨rs, hrs⟩ := exists_of_concrete (fun t ht => hvalid t (List.mem_append_left _ ht))
    hconcrete.1
  obtain ⟨r, rfl, rfl⟩ : ∃ r : Option Atom, receiver = r.map .one ∧ rs = r.toList := by
    cases receiver with
    | none =>
        cases rs with
        | nil => exact ⟨none, rfl, rfl⟩
        | cons => cases hrs
    | some t =>
        cases rs with
        | nil => cases hrs
        | cons a rs =>
            simp only [Option.toList_some, List.map_cons, List.cons.injEq] at hrs
            obtain ⟨rfl, hrs⟩ := hrs
            cases rs with
            | nil => exact ⟨some a, rfl, rfl⟩
            | cons => cases hrs
  refine ⟨r, as, rfl, rfl, fun a ha => hvalid _ ?_⟩
  rcases List.mem_append.mp ha with ha | ha
  · refine List.mem_append_left _ ?_
    rw [Option.mem_toList] at ha ⊢
    rw [ha]
    rfl
  · exact List.mem_append_right _ (List.mem_map_of_mem ha)

theorem Graph.Calls.concrete_inputs {s : Site} {receiver : Option Ty} {args : List Ty}
    {method : NodeId} {m : Method} (h : g.Calls s receiver args method m) (hS : Sound L g) :
    ∃ (r : Option Atom) (as : List Atom), receiver = r.map .one ∧ args = as.map .one ∧
      ∀ a ∈ r.toList ++ as, (Ty.one a).Valid g :=
  hS.concrete_inputs h.inputs h.concrete

/-- Calls with concrete inputs find what the tables say. -/
theorem Graph.Booked.find_concrete (h : Graph.Booked P.tables g) {r : Option Atom} {as : List Atom}
    (hvalid : ∀ a ∈ r.toList ++ as, (Ty.one a).Valid g) {name : String} :
    P.tables.find? (r.map g.heap.tag) name = (g.scopeOf (r.map .one)).lookup name :=
  (h.find (fun j hj => (hvalid (.obj j) (by simp [hj])).1 j (by simp)) name).symm

/-! ## Instances over whose bodies walks go -/

namespace Graph

/-- Each walk but the first one goes over the body of one instance, whose parameters have concrete
types. -/
structure Furnished (g : Graph) : Prop where
  root : ∃ x, g.walks[0]? = some x
  walk : ∀ {i : InstanceId} {x : Instance} {w}, g.instances[i]? = some x → x.walk = some w → w ≠ 0
  apart : ∀ {i j : InstanceId} {x y : Instance} {w}, g.instances[i]? = some x →
    g.instances[j]? = some y → x.walk = some w → y.walk = some w → i = j
  params : ∀ {i : InstanceId} {x : Instance} {w}, g.instances[i]? = some x → x.walk = some w →
    ∃ as : List Atom, x.params = as.map (fun a => some (.one a)) ∧
      ∀ a ∈ x.owner.toList ++ as, (Ty.one a).Valid g

/-- The frame in which the nodes are to be read that a walk comes to. -/
inductive Framed (g : Graph) : WalkId → Frame → Prop where
  | main : g.Framed 0 .main
  | inst {i : InstanceId} {x : Instance} {w : WalkId} {as : List Atom} :
      g.instances[i]? = some x → x.walk = some w → x.params = as.map (fun a => some (.one a)) →
      g.Framed w (.inst x.method (x.owner.map g.heap.tag) (as.map g.heap.tag))

theorem Furnished.frame (h : g.Furnished) {i : InstanceId} {x : Instance} {w : WalkId}
    (hx : g.instances[i]? = some x) (hw : x.walk = some w) : ∃ f, g.Framed w f := by
  obtain ⟨as, has, -⟩ := h.params hx hw
  exact ⟨_, .inst hx hw has⟩

theorem Furnished.frame_unique (h : g.Furnished) {w : WalkId} {f f' : Frame} (hf : g.Framed w f)
    (hf' : g.Framed w f') : f = f' := by
  cases hf with
  | main =>
      cases hf' with
      | main => rfl
      | inst hx hw => exact (h.walk hx hw rfl).elim
  | inst hx hw has =>
      cases hf' with
      | main => exact (h.walk hx hw rfl).elim
      | inst hy hw' has' =>
          obtain rfl := h.apart hx hy hw hw'
          rw [hx] at hy
          cases hy
          have hinj : Function.Injective fun a : Atom => some (Ty.one a) := fun a b hab => by
            simpa using hab
          rw [hinj.list_map (has.symm.trans has')]

end Graph

/-- The walk over an instance is there. -/
theorem Sound.walk_of_inst (hS : Sound L g) {i : InstanceId} {x : Instance} {w : WalkId}
    (hx : g.instances[i]? = some x) (hw : x.walk = some w) : w < g.walks.size := by
  rcases hS.entries (e := .inst i x) hx with ⟨hnone, -⟩ | ⟨w', _, _, _, _, _, _, hw', ⟨y, hy⟩, -⟩
  · rw [hnone] at hw
    cases hw
  · rw [hw'] at hw
    cases hw
    exact (Array.getElem?_eq_some_iff.mp hy).1

theorem furnished_step (hS : Sound L g) (hok : task.OK L g) (hp : g.perform task = (g', .ok ts))
    (h : g.Furnished) : g'.Furnished := by
  have hext := extends_of_perform hS hok hp
  obtain ⟨z, hz⟩ := h.root
  have hsize : 0 < g.walks.size := (Array.getElem?_eq_some_iff.mp hz).1
  -- The walk of an instance is older than the one that begins now.
  have hold : ∀ {i : InstanceId} {x : Instance} {w}, g.instances[i]? = some x → x.walk = some w →
      w ≠ g.walks.size := fun hx hw => Nat.ne_of_lt (hS.walk_of_inst hx hw)
  refine ⟨?_, fun hx hw => ?_, fun hx hy hw hw' => ?_, fun {i x w} hx hw => ?_⟩
  · obtain ⟨z', hz', -⟩ := hext.grows.walk hz
    exact ⟨z', hz'⟩
  · rcases inst_step hS hok hp hx with hx | ⟨c, s, receiver, args, method, m, b, hb, rfl, rfl⟩
    · exact h.walk hx hw
    · cases hw
      exact Nat.ne_of_gt hsize
  · rcases inst_step hS hok hp hx with hx | ⟨c, s, receiver, args, method, m, b, hb, rfl, rfl⟩ <;>
      rcases inst_step hS hok hp hy with hy | ⟨c', s', receiver', args', method', m', b', -, rfl, rfl⟩
    · exact h.apart hx hy hw hw'
    · cases hw'
      exact (hold hx hw rfl).elim
    · cases hw
      exact (hold hy hw' rfl).elim
    · rfl
  · rcases inst_step hS hok hp hx with hx | ⟨c, s, receiver, args, method, m, b, hb, rfl, rfl⟩
    · obtain ⟨as, has, hvalid⟩ := h.params hx hw
      exact ⟨as, has, fun a ha => hext.valid (hvalid a ha)⟩
    · obtain ⟨r, as, rfl, rfl, hvalid⟩ := hb.calls.concrete_inputs hS
      refine ⟨as, by simp [Graph.newInstance], fun a ha => hext.valid (hvalid a ?_)⟩
      have howner : (r.map Ty.one).bind Ty.atom? = r := by cases r <;> rfl
      rwa [Graph.newInstance, howner] at ha

/-! ## Built-in methods -/

/-- Built-in methods stay as they are. -/
structure Stocked (L : Labels) (g : Graph) : Prop where
  grows : Graph.Grows Session.start.graph g
  lasts : Graph.Lasts Session.start.graph g
  label : ∀ n : Nat, L n = some .builtin ↔ n < rootOf
  type : ∀ n : Nat, n < rootOf → g.type n = Session.start.graph.type n
  cached : ∀ {m : Nat} {key i}, m < rootOf → g.Has (.mark m (.cached key i)) →
    Session.start.graph.Has (.mark m (.cached key i))
  inst : ∀ {i : InstanceId} {x : Instance}, g.instances[i]? = some x → x.walk = none →
    Session.start.graph.instances[i]? = some x

theorem stocked_step (hS : Sound L g) (hok : task.OK L g) (hp : g.perform task = (g', .ok ts))
    (h : Stocked L g) : Stocked (L.performed g task) g' where
  grows := h.grows.trans (extends_of_perform hS hok hp).grows
  lasts := h.lasts.trans (lasts_of_perform hS hok hp)
  label n := by
    refine ⟨fun hn => ?_, fun hn => (extends_of_perform hS hok hp).keeps hS ((h.label n).mpr hn)⟩
    rcases broughtBy_performed task n _ hn with hn | hn
    · exact (h.label n).mp hn
    · exact hn.elim
  type n hn := by
    rw [type_of_fixed hS hok hp ((h.label n).mpr hn) rfl, h.type n hn]
  cached hm hkey := by
    rcases cached_step hS hok hp hkey with hkey | ⟨c, s, receiver, args, m, b, hb, -, -⟩
    · exact h.cached hm hkey
    · obtain ⟨w, r, k, nm, ps, hl, -⟩ := hb.label
      rw [(h.label _).mpr hm] at hl
      cases hl
  inst hx hw := by
    rcases inst_step hS hok hp hx with hx | ⟨c, s, receiver, args, method, m, b, hb, rfl, rfl⟩
    · exact h.inst hx hw
    · cases hw

theorem stocked_loaded (tree : Expr) : Stocked (Labels.loaded tree) (Graph.loaded tree) where
  grows := Graph.grows_plant ..
  lasts := (Graph.calm_plant ..).lasts
  label n := by
    have hsize : rootOf = Graph.withBuiltins.cells.size := by
      rw [rootOf, start_eq]
      generalize Graph.withBuiltins = g
      rfl
    constructor
    · intro hn
      rcases Labels.append_cases hn with ⟨hlt, -⟩ | ⟨j, -, hj⟩
      · exact hlt
      · obtain ⟨q, -, -, heq⟩ := Labels.mem_ofTree hj
        cases heq
    · intro hn
      refine (Labels.append_old _ _ hn).trans ?_
      rw [hsize] at hn
      exact Labels.builtins_of_lt hn
  type n _ := by
    unfold Graph.loaded
    exact Graph.type_plant ..
  cached _ hkey := Graph.has_plant hkey
  inst hx _ := by
    unfold Graph.loaded at hx
    generalize Session.start.graph = g at hx ⊢
    exact hx

/-! ## Runs -/

/-- What is known of a configuration that the run over a program comes to. -/
structure Underway (P : Program) (L : Labels) (c : Graph.Config) : Prop where
  sound : Sound.Config L c
  tame : Tame.Config P.tree.classNames L c
  root : L rootOf = some (.node 0 rootOf none P.tree)
  homed : Homed P L c.1
  phase : Phase P c.1 c.2
  keyed : c.1.Keyed
  furnished : c.1.Furnished
  stocked : Stocked L c.1

theorem Underway.loaded (P : Program) :
    Underway P (Labels.loaded P.tree) (Graph.loaded P.tree, [.visit 0 P.tree rootOf]) where
  sound := .loaded P.tree
  tame := .loaded P.fieldFree.within
  root := Labels.loaded_root P.tree
  homed := homed_loaded P
  phase := .start rfl rfl
  keyed := keyed_loaded P.tree
  furnished := by
    have hnone := @not_walked_loaded P.tree
    obtain ⟨-, hwalk⟩ := (Sound.Config.loaded P.tree).tasks _ (List.mem_singleton_self _)
    exact ⟨hwalk, fun hx hw => (hnone hx hw).elim, fun hx _ hw => (hnone hx hw).elim,
      fun hx hw => (hnone hx hw).elim⟩
  stocked := stocked_loaded P.tree

theorem Underway.step (h : Underway P L (g, task :: rest)) (hp : g.perform task = (g', .ok ts)) :
    Underway P (L.performed g task) (g', ts ++ rest) := by
  have hS := h.sound.graph
  have hok := h.sound.tasks task (List.mem_cons_self ..)
  obtain ⟨hext, hsound⟩ := h.sound.step hp
  exact {
    sound := hsound
    tame := h.tame.step h.sound hp
    root := hext.keeps hS h.root
    homed := homed_step hS hok hp h.homed
    phase := phase_step hS hok h.homed hp h.phase
    keyed := keyed_step hS hok hp h.keyed
    furnished := furnished_step hS hok hp h.furnished
    stocked := stocked_step hS hok hp h.stocked }

theorem Course.underway {L' : Labels} {c c' : Graph.Config} (h : Course L c L' c')
    (hc : Underway P L c) : Underway P L' c' := by
  induction h with
  | done => exact hc
  | step hp _ ih => exact ih (hc.step hp)

/-- Whoever resolves a call finds the tables filled. -/
theorem Underway.booked {c : NodeId} (h : Underway P L (g, .resolve c :: rest)) :
    Graph.Booked P.tables g := by
  cases h.phase with
  | start _ hts => cases (List.cons.inj hts).1
  | defining ds hnil hts hds =>
      cases ds with
      | nil => exact (hnil rfl).elim
      | cons d ds =>
          cases (List.cons.inj hts).1
          exact (hds _ (List.mem_cons_self ..)).elim
  | doing hB => exact hB

namespace Underway

variable {c : Graph.Config} {n : Nat} {w : WalkId} {r : NodeId} {k : Option String} {e : Expr}
  {f : Frame} (h : Underway P L c)
include h

/-- A walk that comes to a node is in a frame. -/
theorem framed (hn : L n = some (.node w r k e)) : ∃ f, c.1.Framed w f := by
  rcases h.homed hn with ⟨rfl, -⟩ | ⟨i, x, ps, b, hx, hw, -⟩
  · exact ⟨_, .main⟩
  · exact h.furnished.frame hx hw

/-- A node that a walk comes to is in the body that its frame is about. -/
theorem holds (hn : L n = some (.node w r k e)) (hf : c.1.Framed w f) (he : e ≠ P.tree) :
    P.Holds e f := by
  rcases h.homed hn with ⟨rfl, hq⟩ | ⟨i, x, ps, b, hx, hw, hcode, -, hq⟩
  · cases hf with
    | main => exact (P.main_of_stop hq).resolve_left he
    | inst hx hw => exact (h.furnished.walk hx hw rfl).elim
  · cases hf with
    | main => exact (h.furnished.walk hx hw rfl).elim
    | inst hy hw' =>
        obtain rfl := h.furnished.apart hx hy hw hw'
        rw [hx] at hy
        cases hy
        obtain ⟨m, -, hm⟩ := Expr.mem_stops_shift hq 0
        exact ⟨ps, b, hcode, _, hm, rfl⟩

/-- The body of an instance is the body of its method. -/
theorem body_label {i : InstanceId} {x : Instance} (hx : c.1.instances[i]? = some x)
    (hw : x.walk = some w) {ps : List String} {b : Expr} (hcode : P.Code x.method ps b) :
    L x.body = some (.node w x.body none b) := by
  rcases h.sound.graph.entries (e := .inst i x) hx with
    ⟨hnone, -⟩ | ⟨w', v, r, k, nm, ps', b', hw', -, hm, hb⟩
  · rw [hnone] at hw
    cases hw
  · rw [hw'] at hw
    cases hw
    obtain ⟨-, rfl⟩ := hcode.unique (Homed.code h.homed hm)
    exact hb

/-- Whatever is in the body that a frame is about is a node that its walk comes to. -/
theorem label_of_holds (hh : P.Holds e f) (hf : c.1.Framed w f) :
    ∃ n r k, L n = some (.node w r k e) := by
  cases hf with
  | main =>
      obtain ⟨n, k, hq⟩ := P.stop_of_main hh
      exact ⟨n, rootOf, k, h.sound.graph.stop h.root hq⟩
  | @inst i x _ _ hx hw =>
      obtain ⟨ps, b, hcode, q, hq, rfl⟩ := hh
      obtain ⟨m, -, hm⟩ := Expr.mem_stops_shift hq x.body
      exact ⟨_, _, _, h.sound.graph.stop (q := ⟨x.body + m, q.klass, q.expr⟩)
        (h.body_label hx hw hcode) hm⟩

end Underway

end TypeFlow
