import TypeFlow.Proofs.Caching
import TypeFlow.Proofs.Frames

/-! # Every type is warranted

Whatever a run finds out about a program can be derived by the rules: no node gets a type that the
rules do not allow there, no method an instance that nothing asks for, and inference only fails on
programs of which an error can be derived. Cells are read in the graph that the run comes to, since
their labels and the names of their types stay as they are. -/

namespace TypeFlow

/-! ## Choices of concrete types -/

/-- Concrete types are members of the types of a receiver and of arguments. -/
def Ty.Chosen (receiver : Option Ty) (args : List Ty) (r : Option Atom) (as : List Atom) : Prop :=
  List.Forall₂ (fun a t => a ∈ t.members) r.toList receiver.toList ∧
    List.Forall₂ (fun a t => a ∈ t.members) as args

namespace Ty.Chosen

variable {receiver : Option Ty} {args : List Ty} {r : Option Atom} {as : List Atom}

theorem concrete (r : Option Atom) (as : List Atom) :
    Ty.Chosen (r.map .one) (as.map .one) r as := by
  have hself : ∀ as : List Atom,
      List.Forall₂ (fun (a : Atom) (t : Ty) => a ∈ t.members) as (as.map .one) := by
    intro as
    rw [List.forall₂_map_right_iff]
    exact List.forall₂_same.mpr fun a _ => List.mem_singleton_self a
  refine ⟨?_, hself as⟩
  cases r with
  | none => exact .nil
  | some a => exact hself [a]

theorem eq_of_concrete {r' : Option Atom} {as' : List Atom}
    (h : Ty.Chosen (r'.map .one) (as'.map .one) r as) : r = r' ∧ as = as' := by
  have hlist : ∀ {as as' : List Atom},
      List.Forall₂ (fun (a : Atom) (t : Ty) => a ∈ t.members) as (as'.map .one) → as = as' := by
    intro as as' h
    rw [List.forall₂_map_right_iff] at h
    exact List.forall₂_eq_eq_eq ▸ h.imp fun _ _ hab => List.mem_singleton.mp hab
  refine ⟨?_, hlist h.2⟩
  have hr : r.toList = r'.toList := hlist (by
    have := h.1
    cases r' <;> exact this)
  simpa using congrArg List.head? hr

/-- Types with the same names allow the same choices, by name. -/
theorem congr {h : Heap} {receiver' : Option Ty} {args' : List Ty}
    (hc : Ty.Chosen receiver args r as)
    (hrow : h.tagRow (receiver :: args.map some) = h.tagRow (receiver' :: args'.map some)) :
    ∃ r' as', Ty.Chosen receiver' args' r' as' ∧ r'.map h.tag = r.map h.tag ∧
      as'.map h.tag = as.map h.tag := by
  have hone : ∀ {a : Atom} {t t' : Ty}, a ∈ t.members → h.tags t = h.tags t' →
      ∃ a' ∈ t'.members, h.tag a' = h.tag a := by
    intro a t t' ha htags
    exact Heap.mem_tags.mp (htags ▸ Heap.mem_tags.mpr ⟨a, ha, rfl⟩)
  simp only [Heap.tagRow, List.map_cons, List.map_map, Function.comp_def, Option.map_some,
    List.cons.injEq] at hrow
  have hargs : ∃ as', List.Forall₂ (fun a t => a ∈ t.members) as' args' ∧
      as'.map h.tag = as.map h.tag := by
    have hmap := hrow.2
    have hlist := hc.2
    clear hrow hc
    induction hlist generalizing args' with
    | nil =>
        cases args' with
        | nil => exact ⟨[], .nil, rfl⟩
        | cons => cases hmap
    | cons ha _ ih =>
        cases args' with
        | nil => cases hmap
        | cons t' args' =>
            simp only [List.map_cons, List.cons.injEq, Option.some.injEq] at hmap
            obtain ⟨a', ha', htag⟩ := hone ha hmap.1
            obtain ⟨as', has', htags⟩ := ih hmap.2
            exact ⟨a' :: as', .cons ha' has', by rw [List.map_cons, List.map_cons, htag, htags]⟩
  obtain ⟨as', has', htags⟩ := hargs
  have hreceiver := hrow.1
  have hr := hc.1
  cases receiver with
  | none =>
      cases receiver' with
      | none =>
          cases r with
          | none => exact ⟨none, as', ⟨.nil, has'⟩, rfl, htags⟩
          | some => cases hr
      | some => cases hreceiver
  | some t =>
      cases receiver' with
      | none => cases hreceiver
      | some t' =>
          cases r with
          | none => cases hr
          | some a =>
              obtain ⟨a', ha', htag⟩ := hone (List.forall₂_cons.mp hr).1
                (Option.some.inj hreceiver)
              exact ⟨some a', as', ⟨.cons ha' .nil, has'⟩, congrArg some htag, htags⟩

end Ty.Chosen

/-! ## What calls have as inputs -/

section site

variable {L : Labels} {g : Graph} (hS : Sound L g) {c : NodeId} {s : Site}
  (hs : g.site? c = some s)
include hS hs

theorem Sound.site_of_node {w : WalkId} {root : NodeId} {k : Option String} {rc : Option Expr}
    {nm : Token} {es : List Expr} {p : Bool}
    (hc : L c = some (.node w root k (.call rc nm es p))) :
    s.receiver.toList = (rc.toList.map fun e => (c + 1, e)).map (·.1) ∧
      s.args = (Expr.spread (c + 1 + Expr.sizeOption rc) es).map (·.1) ∧ s.name = nm ∧
      s.origin = c := by
  obtain ⟨x, hx, hrole⟩ := Graph.blank_of_site hs
  rw [(hS.fits hc).1] at hx
  cases hx
  simp only [Graph.freshRole, Role.call.injEq, Site.blank, Site.mk.injEq] at hrole
  obtain ⟨hreceiver, hargs, hname, horigin, -⟩ := hrole
  refine ⟨?_, hargs.symm, hname.symm, horigin.symm⟩
  rw [← hreceiver]
  cases rc <;> rfl

theorem Sound.site_of_member {d : NodeId} {r : Option Atom} {as : List Atom}
    (hc : L c = some (.member d r as)) :
    ∃ x, L d = some (.dispatch x) ∧ s.name = x.name ∧ s.origin = x.origin ∧
      s.Takes L r as := by
  obtain ⟨x, hx, hrole⟩ := Graph.blank_of_site hs
  obtain ⟨y, s', hd, hb, hname, horigin, -, htakes⟩ := hS.fits hc
  rw [hb] at hx
  cases hx
  obtain rfl : s' = s.blank := by simpa using hrole
  exact ⟨y, hd, hname, horigin, htakes⟩

/-- The inputs of a member have the types that were chosen for it. -/
theorem Sound.inputs_of_member {d : NodeId} {r : Option Atom} {as : List Atom}
    (hc : L c = some (.member d r as)) {receiver : Option Ty} {args : List Ty}
    (hin : g.inputs? s = some (receiver, args)) :
    receiver = r.map .one ∧ args = as.map .one := by
  obtain ⟨x, -, -, -, htakes⟩ := hS.site_of_member hs hc
  obtain ⟨hreceiver, hargs⟩ := Graph.inputs?_eq_some_iff.mp hin
  have hlist : ∀ {vs : List NodeId} {ts : List Ty} {as : List Atom},
      List.Forall₂ (fun v t => g.type v = some t) vs ts →
      List.Forall₂ (fun v a => L v = some (.input (.one a))) vs as → ts = as.map .one := by
    intro vs ts as hts has
    induction hts generalizing as with
    | nil =>
        cases has
        rfl
    | cons ht _ ih =>
        obtain ⟨a, as, ha, hrest, rfl⟩ := List.forall₂_cons_left_iff.mp has
        rw [List.map_cons, ← ih hrest, (hS.typed ht).2.2 _ ha]
  refine ⟨?_, hlist hargs htakes.2⟩
  have hr : receiver.toList = (r.map Ty.one).toList := by
    rw [hlist hreceiver htakes.1]
    cases r <;> rfl
  simpa using congrArg List.head? hr

end site

/-! ## What the rules allow -/

namespace Program

variable (P : Program) (L : Labels) (g : Graph)

/-- The rules allow a type in a cell. -/
def Allows (n : NodeId) (t : Tag) : Prop :=
  match L n with
  | some (.node w _ _ e) => ∀ f, g.Framed w f → P.Derives (.type f e t)
  | some (.var w x) => ∀ f, g.Framed w f → P.Derives (.var f x t)
  | some (.dispatch d) => ∃ r as, Ty.Chosen d.receiver d.args r as ∧
      P.Derives (.result (r.map g.heap.tag) d.name.text (as.map g.heap.tag) t)
  | some (.member d r as) => ∀ x, L d = some (.dispatch x) →
      P.Derives (.result (r.map g.heap.tag) x.name.text (as.map g.heap.tag) t)
  | some .builtin => ∃ T, Session.start.graph.type n = some T ∧
      t ∈ Session.start.graph.heap.tags T
  | _ => True

/-- The rules allow all members of a type in a cell. -/
def AllowsAll (n : NodeId) (T : Ty) : Prop := ∀ a ∈ T.members, P.Allows L g n (g.heap.tag a)

/-- Whatever the rules allow in one cell they allow in another. -/
def Passes (s o : NodeId) : Prop := ∀ t, P.Allows L g s t → P.Allows L g o t

/-- A member of a dispatch is for types that the dispatch is for, and that something asks for. -/
def Wants (d : NodeId) (r : Option Atom) (as : List Atom) : Prop :=
  ∀ x, L d = some (.dispatch x) → Ty.Chosen x.receiver x.args r as ∧
    P.Derives (.asked (r.map g.heap.tag) x.name.text (as.map g.heap.tag))

/-- A task brings nothing about that the rules do not allow. -/
def Permits : Task → Prop
  | .store n T | .widen n T => P.AllowsAll L g n T
  | .subscribe s o r | .deliver s o r => r = .merge → P.Passes L g s o
  | .react _ o r T => r = .merge → ∀ T' ∈ T, P.AllowsAll L g o T'
  | .member d r as => P.Wants L g d r as
  | _ => True

end Program

/-- All that a run has come to, and all that it is about to do, is what the rules allow. Cells are
read in a later graph. -/
structure Warranted (P : Program) (L' : Labels) (g' : Graph) (L : Labels) (c : Graph.Config) :
    Prop where
  typed : ∀ {n T}, c.1.type n = some T → P.AllowsAll L' g' n T
  edge : ∀ {s o}, (o, .merge) ∈ c.1.observers s → P.Passes L' g' s o
  tasks : ∀ t ∈ c.2, P.Permits L' g' t
  inst : ∀ {i : InstanceId} {x : Instance} {w f}, c.1.instances[i]? = some x → x.walk = some w →
    g'.Framed w f → P.Derives (.reached f)
  member : ∀ {n d r as}, L n = some (.member d r as) → P.Wants L' g' d r as

section later

variable {P : Program} {L L' : Labels} {g g' : Graph} {ts rest : List Task}
  (hU : Underway P L (g, ts)) (hE : Underway P L' (g', rest)) (hl : Later L g L' g')
  (h : Warranted P L' g' L (g, ts))

include hl in
/-- The names of types stay as they are. -/
theorem Later.tag_eq {a : Atom} (ha : (Ty.one a).Valid g) : g'.heap.tag a = g.heap.tag a :=
  hl.extend.grows.tag_eq fun i hi => ha.1 i (by simp [hi])

include hl in
theorem Later.map_tag {as : List Atom} (h : ∀ a ∈ as, (Ty.one a).Valid g) :
    as.map g'.heap.tag = as.map g.heap.tag :=
  List.map_congr_left fun a ha => hl.tag_eq (h a ha)

include hl in
theorem Later.map_tag_option {r : Option Atom} (h : ∀ a ∈ r.toList, (Ty.one a).Valid g) :
    r.map g'.heap.tag = r.map g.heap.tag :=
  Option.map_congr fun a ha => hl.tag_eq (h a (Option.mem_toList.mpr ha))

include hE h in
/-- The walk that comes to a node is in a frame, and something asks for it. -/
theorem Warranted.reached {n : NodeId} {w : WalkId} {r : NodeId} {k : Option String} {e : Expr}
    (hU : Underway P L (g, ts)) (hl : Later L g L' g') (hn : L n = some (.node w r k e)) :
    ∃ f, g'.Framed w f ∧ P.Derives (.reached f) := by
  obtain ⟨f, hf⟩ := hE.framed (hl.extend.keeps hU.sound.graph hn)
  refine ⟨f, hf, ?_⟩
  rcases hU.homed hn with ⟨rfl, -⟩ | ⟨i, x, ps, b, hx, hw, -⟩
  · obtain rfl := hE.furnished.frame_unique hf .main
    exact .main
  · exact h.inst hx hw hf

include hU hl h in
/-- Of types that nodes of a walk have, each may be chosen by what the rules say of the nodes. -/
theorem Warranted.derives_chosen {w : WalkId} {root : NodeId} {k : Option String} {f : Frame}
    (hf : g'.Framed w f) {xs : List (Nat × Expr)} {Ts : List Ty} {as : List Atom}
    (hxs : ∀ x ∈ xs, L x.1 = some (.node w root k x.2))
    (hTs : List.Forall₂ (fun v t => g.type v = some t) (xs.map (·.1)) Ts)
    (has : List.Forall₂ (fun a t => a ∈ t.members) as Ts) :
    xs.length = as.length ∧ ∀ e t, (e, t) ∈ (xs.map (·.2)).zip (as.map g'.heap.tag) →
      P.Derives (.type f e t) := by
  induction xs generalizing Ts as with
  | nil =>
      cases hTs
      cases has
      simp
  | cons x xs ih =>
      obtain ⟨T, Ts', hT, hTs', rfl⟩ := List.forall₂_cons_left_iff.mp hTs
      obtain ⟨a, as', ha, has', rfl⟩ := List.forall₂_cons_right_iff.mp has
      obtain ⟨hlen, hrest⟩ := ih (fun y hy => hxs y (List.mem_cons_of_mem _ hy)) hTs' has'
      refine ⟨by simp [hlen], fun e t het => ?_⟩
      rcases List.mem_cons.mp het with heq | het
      · cases heq
        have hallows := h.typed hT a ha
        rw [Program.Allows,
          hl.extend.keeps hU.sound.graph (hxs x (List.mem_cons_self ..))] at hallows
        exact hallows f hf
      · exact hrest e t het

include hU hl h in
/-- Chosen types of a call's inputs match the call, and the rules give them to the inputs. -/
theorem Warranted.derives_given {c : NodeId} {s : Site} {w : WalkId} {root : NodeId}
    {k : Option String} {rc : Option Expr} {nm : Token} {es : List Expr} {p : Bool}
    (hc : L c = some (.node w root k (.call rc nm es p))) (hnew : (Expr.call rc nm es p).isNew = false)
    (hs : g.site? c = some s) {receiver : Option Ty} {args : List Ty}
    (hin : g.inputs? s = some (receiver, args)) {r : Option Atom} {as : List Atom}
    (hch : Ty.Chosen receiver args r as) {f : Frame} (hf : g'.Framed w f) :
    Expr.Matches rc es (r.map g'.heap.tag) (as.map g'.heap.tag) ∧
      ∀ e t, (e, t) ∈ Expr.given rc es (r.map g'.heap.tag) (as.map g'.heap.tag) →
        P.Derives (.type f e t) := by
  have hS := hU.sound.graph
  obtain ⟨hreceiver, hargs, rfl, -⟩ := hS.site_of_node hs hc
  obtain ⟨htr, hta⟩ := Graph.inputs?_eq_some_iff.mp hin
  rw [hreceiver] at htr
  rw [hargs] at hta
  have hpart : ∀ x ∈ (rc.toList.map fun e => (c + 1, e)) ++
      Expr.spread (c + 1 + Expr.sizeOption rc) es, L x.1 = some (.node w root k x.2) :=
    fun x hx => hS.part hc (hS.input_part hc hnew hx).1
  obtain ⟨hlenr, hinr⟩ := h.derives_chosen hU hl hf
    (fun x hx => hpart x (List.mem_append_left _ hx)) htr hch.1
  obtain ⟨hlena, hina⟩ := h.derives_chosen hU hl hf
    (fun x hx => hpart x (List.mem_append_right _ hx)) hta hch.2
  rw [Expr.length_spread] at hlena
  rw [Expr.spread_map_snd] at hina
  refine ⟨⟨?_, by simp [hlena]⟩, fun e t het => ?_⟩
  · cases rc <;> cases r <;> simp_all
  · rcases List.mem_append.mp het with het | het
    · refine hinr e t ?_
      cases rc <;> cases r <;> simp_all
    · exact hina e t het

include hU hE hl h in
/-- A call asks for the methods that it resolves to, and has the types of their results. -/
theorem Warranted.call {c : NodeId} {s : Site} (hc : L.IsCall c) (hs : g.site? c = some s)
    {receiver : Option Ty} {args : List Ty} (hin : g.inputs? s = some (receiver, args))
    {r : Option Atom} {as : List Atom} (hch : Ty.Chosen receiver args r as) :
    P.Derives (.asked (r.map g'.heap.tag) s.name.text (as.map g'.heap.tag)) ∧
      ∀ t, P.Derives (.result (r.map g'.heap.tag) s.name.text (as.map g'.heap.tag) t) →
        P.Allows L' g' c t := by
  have hS := hU.sound.graph
  rcases hc with ⟨w, root, k, rc, nm, es, p, hc, hnew⟩ | ⟨d, r₀, as₀, hc⟩
  · obtain ⟨-, -, rfl, -⟩ := hS.site_of_node hs hc
    have hc' := hl.extend.keeps hS hc
    have hgiven := fun f => h.derives_given hU hl hc hnew hs hin hch (f := f)
    constructor
    · obtain ⟨f, hf, hreached⟩ := h.reached hE hU hl hc
      obtain ⟨hmatch, hin⟩ := hgiven f hf
      exact .ask hreached (hE.holds hc' hf (by simp [Program.tree])) hnew hmatch hin
    · intro t ht
      rw [Program.Allows, hc']
      intro f hf
      obtain ⟨hmatch, hin⟩ := hgiven f hf
      exact .call hnew hmatch hin ht
  · obtain ⟨rfl, rfl⟩ := hS.inputs_of_member hs hc hin
    obtain ⟨rfl, rfl⟩ := hch.eq_of_concrete
    obtain ⟨x, hx, hname, -, -⟩ := hS.site_of_member hs hc
    have hx' := hl.extend.keeps hS hx
    rw [hname]
    refine ⟨(h.member hc x hx').2, fun t ht => ?_⟩
    rw [Program.Allows, hl.extend.keeps hS hc]
    intro y hy
    rw [hx'] at hy
    cases hy
    exact ht

end later

/-! ## What a method gives -/

theorem mem_instancesOf_start {m : NodeId} {key : List (Option Ty)} {i : InstanceId}
    (h : Session.start.graph.Has (.mark m (.cached key i))) :
    (key, i) ∈ Graph.withBuiltins.instancesOf m := by
  rw [start_eq] at h
  rcases Graph.has_addWalk h with h | ⟨_, _, heq, -⟩ | ⟨_, heq, -⟩
  · exact Graph.mem_instancesOf.mpr h
  · cases heq
  · cases heq

/-- The signatures of built-in methods are for primitive types. -/
theorem prims_of_start {m : NodeId} {key : List (Option Ty)} {i : InstanceId}
    (h : Session.start.graph.Has (.mark m (.cached key i))) :
    ∃ names : List String, key = names.map fun x => some (.prim x) :=
  (signed_withBuiltins m (key, i) (mem_instancesOf_start h)).1

/-- A built-in method has one signature for the same types. -/
theorem unique_of_start {m : NodeId} {key : List (Option Ty)} {i j : InstanceId}
    (hi : Session.start.graph.Has (.mark m (.cached key i)))
    (hj : Session.start.graph.Has (.mark m (.cached key j))) : j = i :=
  congrArg Prod.snd ((signed_withBuiltins m (key, i) (mem_instancesOf_start hi)).2 (key, j)
    (mem_instancesOf_start hj) rfl)

theorem Heap.tagRow_prims (h : Heap) (names : List String) :
    h.tagRow (names.map fun x => some (.prim x)) = names.map fun x => some {Tag.prim x} := by
  simp [tagRow, Ty.prim, tag, Function.comp_def]

/-- The types that an instance was made for, by name. -/
theorem Heap.tagRow_concrete (h : Heap) (as : List Atom) :
    h.tagRow (as.map fun a => some (.one a)) = (as.map h.tag).map fun t => some {t} := by
  simp [tagRow, Function.comp_def]

theorem singletons_injective : Function.Injective fun t : Tag => (some {t} : Option (Finset Tag)) :=
  fun _ _ h => Finset.singleton_inj.mp (Option.some.inj h)

/-- The types of a signature have the same names whatever object types there are. -/
theorem tagRow_of_start {m : NodeId} {key : List (Option Ty)} {i : InstanceId}
    (hkey : Session.start.graph.Has (.mark m (.cached key i))) (h h' : Heap) :
    h.tagRow key = h'.tagRow key := by
  obtain ⟨names, rfl⟩ := prims_of_start hkey
  rw [Heap.tagRow_prims, Heap.tagRow_prims]

/-- A built-in method has one signature for types of the same names. -/
theorem unique_row_of_start {m : NodeId} {key key' : List (Option Ty)} {i j : InstanceId}
    (hi : Session.start.graph.Has (.mark m (.cached key i)))
    (hj : Session.start.graph.Has (.mark m (.cached key' j))) {h h' : Heap}
    (hrow : h.tagRow key = h'.tagRow key') : j = i := by
  obtain ⟨names, rfl⟩ := prims_of_start hi
  obtain ⟨names', rfl⟩ := prims_of_start hj
  rw [Heap.tagRow_prims, Heap.tagRow_prims] at hrow
  have hinj : Function.Injective fun x : String => (some {Tag.prim x} : Option (Finset Tag)) :=
    fun a b hab => Tag.prim.inj (singletons_injective hab)
  obtain rfl := hinj.list_map hrow
  exact unique_of_start hi hj

/-- The type of a built-in method's result stays. -/
theorem Stocked.type_of_start (h : Stocked L g) {n : NodeId} {T : Ty}
    (hT : Session.start.graph.type n = some T) : g.type n = some T := by
  rw [h.type _ (lt_of_start (Graph.has_typed.mpr hT)), hT]

/-- The rows of types are equal for which the same instance of a method serves. -/
theorem Underway.tagRow_of_find (h : Underway P L (g, ts)) {s : Site} {receiver : Option Ty}
    {as : List Atom} {method : NodeId} {m : Method} {i : InstanceId}
    (hcalls : g.Calls s receiver (as.map .one) method m)
    (hfind : Table.findBy? g.heap.sameRow ((as.map Ty.one).map some) m.instances = some i) :
    ∃ key, g.Has (.mark method (.cached key i)) ∧
      g.heap.tagRow key = (as.map g.heap.tag).map fun t => some {t} := by
  obtain ⟨key, hkey, hsame⟩ := Table.mem_of_findBy? hfind
  have hhas := Graph.has_cached.mpr ⟨m, hcalls.found, hkey⟩
  refine ⟨key, hhas, ?_⟩
  have hargs : TameRow P.tree.classNames g ((as.map Ty.one).map some) :=
    .args fun t ht => h.tame.graph.inputs hcalls.inputs t (List.mem_append_right _ ht)
  rw [(TameRow.sameRow_iff h.tame.graph.flat (h.tame.graph.cached hhas) hargs).mp hsame,
    List.map_map]
  exact g.heap.tagRow_concrete as

section later

variable {P : Program} {L L' : Labels} {g g' : Graph} {ts : List Task}
  (hU : Underway P L (g, ts)) (hl : Later L g L' g') (h : Warranted P L' g' L (g, ts))
  (hB : Graph.Booked P.tables g)
include hU hl h hB

/-- What the rules allow in the body of an instance is a result of the calls that it serves. -/
theorem Warranted.result {s : Site} {r : Option Atom} {as : List Atom} {method : NodeId}
    {m : Method} {i : InstanceId} {x : Instance}
    (hvalid : ∀ a ∈ r.toList ++ as, (Ty.one a).Valid g)
    (hcalls : g.Calls s (r.map .one) (as.map .one) method m)
    (hfind : Table.findBy? g.heap.sameRow ((as.map Ty.one).map some) m.instances = some i)
    (hx : g.instances[i]? = some x) {t : Tag} (ht : P.Allows L' g' x.body t) :
    P.Derives (.result (r.map g'.heap.tag) s.name.text (as.map g'.heap.tag) t) := by
  have hS := hU.sound.graph
  have htr := hl.map_tag_option fun a ha => hvalid a (List.mem_append_left _ ha)
  have hta := hl.map_tag fun a ha => hvalid a (List.mem_append_right _ ha)
  have hfound := (hB.find_concrete hvalid).trans hcalls.scope
  obtain ⟨key, hkey, hrow⟩ := hU.tagRow_of_find hcalls hfind
  obtain ⟨-, y, hy, hmethod⟩ := hS.entries hkey
  rw [hx] at hy
  cases hy
  obtain ⟨y, hy, hparams⟩ := hU.keyed _ _ _ hkey
  rw [hx] at hy
  cases hy
  rw [htr, hta]
  rcases hS.entries (e := .inst i x) hx with ⟨hw, hbody⟩ | ⟨w, v, q, k, nm, ps, b, hw, -, hm, hbody⟩
  · -- The instance is a signature of a built-in method.
    have hstart := hU.stocked.inst hx hw
    have hlt := (builtin_of_start hstart).1
    rw [hmethod] at hlt
    have hcached := hU.stocked.cached hlt hkey
    rw [Program.Allows, hl.extend.keeps hS hbody] at ht
    obtain ⟨T, hT, hmem⟩ := ht
    exact .native hfound
      ⟨_, i, x, T, hcached, hstart, (tagRow_of_start hcached ..).trans hrow, hT, hmem⟩
  · -- The instance is that of a method of the program.
    have hcode := Homed.code hU.homed hm
    have hx' := hl.extend.grows.inst hx
    obtain ⟨as₀, has₀, hvalid₀⟩ := hU.furnished.params hx hw
    rw [← hparams, has₀, Heap.tagRow_concrete] at hrow
    have has := singletons_injective.list_map hrow
    have hta₀ := hl.map_tag fun a ha => hvalid₀ a (List.mem_append_right _ ha)
    have hframe := Graph.Framed.inst hx' hw has₀
    rw [hta₀, has, hmethod] at hframe
    rw [hmethod] at hcode hm
    rw [Program.Allows, hl.extend.keeps hS hbody] at ht
    have hlen : (ps.map (·.text)).length = (as.map g.heap.tag).length := by
      rw [← (hS.method_of_node hm hcalls.found).2.1, hcalls.arity, List.length_map, List.length_map]
    have hreached := h.inst hx hw hframe
    cases hreached with
    | inst _ hfind' _ _ =>
        have howner := P.filed.unique hfind' hfound
        rw [howner] at hframe
        exact .body hfound hcode hlen (ht _ hframe)

end later

end TypeFlow
