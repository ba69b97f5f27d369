import TypeFlow.Proofs.Reordering

/-! # The types solve the rules

When a run has finished, each node that a walk came to has the type that its rule gives it from the
types next to it, up to equality of types: no member is missing, and none is there without need. -/

namespace TypeFlow

variable {P : Program} {L : Labels} {g : Graph}

/-! ## Merging any number of types -/

theorem Ty.Normal.tags_nonempty {h : Heap} {T : Ty} (hT : T.Normal h) : (h.tags T).Nonempty := by
  obtain ⟨a, ha⟩ := List.exists_mem_of_ne_nil _ hT.members_ne_nil
  exact ⟨_, Heap.mem_tags.mpr ⟨a, ha, rfl⟩⟩

namespace Heap

/-- The merge of types from the first to the last. Absent ones do not count. -/
def mergeAll (h : Heap) (ts : List (Option Ty)) : Option Ty := ts.foldl (Option.merge h.merge) none

namespace Flat

variable {h : Heap} (hf : h.Flat)
include hf

theorem merge_option_tags {a b : Option Ty} (ha : ∀ T ∈ a, T.Normal h) (hb : ∀ T ∈ b, T.Normal h) :
    (∀ T ∈ Option.merge h.merge a b, T.Normal h) ∧
      (Option.merge h.merge a b).elim ∅ h.tags = a.elim ∅ h.tags ∪ b.elim ∅ h.tags := by
  cases a with
  | none =>
      cases b with
      | none => simp
      | some B => simpa using hb
  | some A =>
      cases b with
      | none => simpa using ha
      | some B =>
          obtain ⟨hnormal, htags⟩ := hf.merge_tags (ha A rfl) (hb B rfl)
          refine ⟨fun T hT => ?_, htags⟩
          cases hT
          exact hnormal

/-- The members of a merge are those of all types that are merged. -/
theorem mergeAll_tags {ts : List (Option Ty)} (hts : ∀ t ∈ ts, ∀ T ∈ t, T.Normal h) :
    (∀ T ∈ h.mergeAll ts, T.Normal h) ∧
      ∀ x, x ∈ (h.mergeAll ts).elim ∅ h.tags ↔ ∃ t ∈ ts, x ∈ t.elim ∅ h.tags := by
  suffices hfold : ∀ acc : Option Ty, (∀ T ∈ acc, T.Normal h) →
      (∀ T ∈ ts.foldl (Option.merge h.merge) acc, T.Normal h) ∧
        ∀ x, x ∈ (ts.foldl (Option.merge h.merge) acc).elim ∅ h.tags ↔
          x ∈ acc.elim ∅ h.tags ∨ ∃ t ∈ ts, x ∈ t.elim ∅ h.tags by
    simpa [mergeAll] using hfold none (by simp)
  induction ts with
  | nil => exact fun acc hacc => ⟨hacc, by simp⟩
  | cons t ts ih =>
      intro acc hacc
      obtain ⟨hmerge, htags⟩ := hf.merge_option_tags hacc (hts t (List.mem_cons_self ..))
      obtain ⟨hnormal, hmem⟩ := ih (fun t ht => hts t (List.mem_cons_of_mem _ ht)) _ hmerge
      refine ⟨hnormal, fun x => ?_⟩
      rw [List.foldl_cons, hmem, htags, Finset.mem_union, List.exists_mem_cons_iff, or_assoc]

end Flat

end Heap

/-! ## The rules -/

/-- The choices of concrete types for the inputs of a call, the receiver varying slowest. -/
def combinations (receiver : Option Ty) (args : List Ty) : List (Option Atom × List Atom) :=
  (receiver.elim [none] fun t => t.members.map some).flatMap fun r =>
    (choices (args.map Ty.members)).map fun as => (r, as)

/-- A dispatch gets a member for each choice. -/
theorem memberTasks_eq (d : NodeId) (receiver : Option Ty) (args : List Ty) :
    Graph.memberTasks d receiver args =
      (combinations receiver args).map fun c => .member d c.1 c.2 := by
  cases receiver <;> simp [Graph.memberTasks, combinations, List.map_flatMap, Function.comp_def]

theorem mem_combinations {receiver : Option Ty} {args : List Ty} {c : Option Atom × List Atom} :
    c ∈ combinations receiver args ↔ Ty.Chosen receiver args c.1 c.2 := by
  have hmem : Task.member 0 c.1 c.2 ∈ Graph.memberTasks 0 receiver args ↔ _ := Graph.mem_memberTasks
  rw [memberTasks_eq] at hmem
  constructor
  · intro hc
    obtain ⟨r, as, heq, hch⟩ := hmem.mp (List.mem_map_of_mem hc)
    cases heq
    exact hch
  · intro hch
    obtain ⟨c', hc', heq⟩ := List.mem_map.mp (hmem.mpr ⟨c.1, c.2, rfl, hch⟩)
    obtain ⟨-, hr, has⟩ := Task.member.inj heq
    rwa [Prod.ext hr has] at hc'

namespace Expr

theorem exists_const_of_isNew {rc : Option Expr} {nm : Token} {es : List Expr} {p : Bool}
    (h : (Expr.call rc nm es p).isNew = true) : ∃ c, rc = some (.const c) := by
  unfold isNew at h
  split at h
  · next heq =>
      cases heq
      exact ⟨_, rfl⟩
  · cases h

/-- The nodes at which a walk assigns to a name. -/
def assignments (b : Expr) (root : NodeId) (x : String) : List NodeId :=
  (b.stops none root).filterMap fun q =>
    match q.expr with
    | .assign p _ => if p.name.text = x then some q.node else none
    | _ => none

theorem mem_assignments {b : Expr} {root : NodeId} {x : String} {n : NodeId} :
    n ∈ b.assignments root x ↔
      ∃ q ∈ b.stops none root, q.node = n ∧ ∃ p v, q.expr = .assign p v ∧ p.name.text = x := by
  simp only [assignments, List.mem_filterMap]
  refine exists_congr fun q => and_congr_right fun _ => ?_
  constructor
  · intro h
    split at h
    · next p v heq =>
        split at h
        · next hx => exact ⟨Option.some.inj h, p, v, heq, hx⟩
        · cases h
    · cases h
  · rintro ⟨rfl, p, v, heq, rfl⟩
    rw [heq]
    simp

end Expr

/-- The type that a variable has from the call of its method, if it has one. -/
def Instance.given (y : Instance) (params : List String) (x : String) : Option Ty :=
  ((Table.ofList (concreteInputs params (y.owner.map fun a => some (.one a)) y.params)).lookup
    x).join

namespace Graph

variable (g : Graph)

/-- A cell has a type that equals this one, or both are absent. -/
def HasType (n : NodeId) (t : Option Ty) : Prop := g.heap.sameOption (g.type n) t = true

/-- An instance of the method that a call with a receiver of this type finds, kept for arguments of
these types. -/
def InstanceFor (r : Option Atom) (name : String) (as : List Atom) (y : Instance) : Prop :=
  ∃ m e, (g.scopeOf (r.map .one)).lookup name = some m ∧ e ∈ g.instancesOf m ∧
    g.heap.sameRow (as.map fun a => some (.one a)) e.1 = true ∧ g.instances[e.2]? = some y

/-- A call has no type unless all its inputs have one. Then there is an instance for each choice of
concrete types for its inputs, and the call has the merge of the types of their bodies. -/
def CallSolved (n : NodeId) (rc : Option Expr) (nm : Token) (es : List Expr) : Prop :=
  ∃ s, g.site? n = some s ∧ s.receiver.toList = (rc.toList.map fun _ => (n : Nat) + 1) ∧
    s.args = (Expr.spread ((n : Nat) + 1 + Expr.sizeOption rc) es).map (·.1) ∧
    (g.inputs? s = none → g.type n = none) ∧
    ∀ receiver args, g.inputs? s = some (receiver, args) →
      ∃ y : Option Atom × List Atom → Instance,
        (∀ c ∈ combinations receiver args, g.InstanceFor c.1 nm.text c.2 (y c)) ∧
        g.HasType n (g.heap.mergeAll ((combinations receiver args).map fun c => g.type (y c).body))

/-- The rule for a node that a walk comes to. -/
def Solves (w : WalkId) (n : Nat) : Expr → Prop
  | .literal l => g.HasType n (some (.prim l.kind.typeName))
  | .loop _ _ | .block [] => g.HasType n (some .void)
  | .block (e :: es) =>
      ∃ x, (Expr.spread (n + 1) (e :: es)).getLast? = some x ∧ g.HasType n (g.type x.1)
  | .cond c t f =>
      g.HasType n (g.heap.mergeAll [g.type (n + 1 + c.size : Nat),
        if Expr.hasElse f then g.type (n + 1 + c.size + t.size : Nat) else none])
  | .assign _ _ => g.HasType n (g.type (n + 2 : Nat))
  | .place p =>
      ∃ v, (g.walk w).vars.lookup p.name.text = some v ∧ g.HasType n (g.type v)
  | .call rc nm es p =>
      if (Expr.call rc nm es p).isNew then
        ∃ c i o, rc = some (.const c) ∧ g.type n = some (.obj i) ∧ g.objects[i]? = some o ∧
          o.name = c.text
      else g.CallSolved n rc nm es
  | .const _ | .method _ _ _ | .klass _ _ => g.type n = none

/-- All nodes that a walk over a tree comes to have the types of their rules, and each variable has
the merge of the type that it is given and of all that is assigned to it. -/
structure Solution (w : WalkId) (root : NodeId) (b : Expr) (given : String → Option Ty) : Prop where
  node : ∀ q ∈ b.stops none root, g.Solves w q.node q.expr
  var : ∀ x v, (g.walk w).vars.lookup x = some v →
    g.HasType v (g.heap.mergeAll (given x :: (b.assignments root x).map g.type))

end Graph

/-! ## Types by name -/

section tame

variable {names : List String} (hT : Tame names L g)
include hT

theorem Tame.normal {n : NodeId} : ∀ T ∈ g.type n, T.Normal g.heap :=
  fun _ h => (hT.typed h).normal

/-- A cell has a type if it has one with the same members by name. -/
theorem Tame.hasType {n : NodeId} {t : Option Ty} (ht : ∀ T ∈ t, T.Normal g.heap)
    (hiff : ∀ x, x ∈ g.tagsAt n ↔ x ∈ t.elim ∅ g.heap.tags) : g.HasType n t := by
  refine (hT.flat.sameOption_iff hT.normal ht).mpr ?_
  exact Heap.map_tags_eq (fun T h => Ty.Normal.tags_nonempty (hT.normal T h))
    (fun T h => Ty.Normal.tags_nonempty (ht T h)) (Finset.ext hiff)

theorem Tame.hasType_mergeAll {n : NodeId} {ts : List (Option Ty)}
    (hts : ∀ t ∈ ts, ∀ T ∈ t, T.Normal g.heap)
    (hiff : ∀ x, x ∈ g.tagsAt n ↔ ∃ t ∈ ts, x ∈ t.elim ∅ g.heap.tags) :
    g.HasType n (g.heap.mergeAll ts) := by
  obtain ⟨hnormal, hmem⟩ := hT.flat.mergeAll_tags hts
  exact hT.hasType hnormal fun x => (hiff x).trans (hmem x).symm

end tame

namespace Completed

variable (h : Completed P L g)
include h

theorem tame : Tame P.tree.classNames L g := h.attended.underway.tame.graph

theorem hasType_type {n m : NodeId} (hiff : ∀ x, x ∈ g.tagsAt n ↔ x ∈ g.tagsAt m) :
    g.HasType n (g.type m) :=
  h.tame.hasType h.tame.normal hiff

theorem untyped {n : NodeId} (hn : ∀ x, x ∉ g.tagsAt n) : g.type n = none := by
  cases hT : g.type n with
  | none => rfl
  | some T =>
      obtain ⟨x, hx⟩ := h.tagsAt_nonempty hT
      exact (hn x hx).elim

omit h in
theorem has_var {w : WalkId} {x : String} {v : NodeId} (hv : (g.walk w).vars.lookup x = some v) :
    g.Has (.var w x v) :=
  Table.mem_of_lookup hv

/-- A variable has the types that can be derived for it. -/
theorem mem_var_iff {w : WalkId} {x : String} {v : NodeId} {f : Frame} (hv : g.Has (.var w x v))
    (hf : g.Framed w f) {t : Tag} : t ∈ g.tagsAt v ↔ P.Derives (.var f x t) := by
  refine ⟨fun ht => ?_, fun hd => h.present hd hf hv⟩
  have hallows := h.allows ht
  rw [Program.Allows, h.attended.underway.sound.graph.entries hv] at hallows
  exact hallows f hf

/-! ## Nodes -/

section node

variable {n : Nat} {w : WalkId} {r : NodeId} {k : Option String} {f : Frame}

/-- A place that a walk comes to is a variable that the walk has. -/
theorem exists_variable {p : Place} (hn : L n = some (.node w r k (.place p))) :
    ∃ v, g.Has (.var w p.name.text v) ∧ (g.walk w).vars.lookup p.name.text = some v := by
  have hlocal := (h.tame.within hn).place
  rcases h.duty hn with ⟨v, hplace, -⟩ | ⟨m, -, hmem⟩
  · simp only [Graph.PlaceAt, hlocal] at hplace
    exact ⟨v, hplace, h.attended.named (h.attended.underway.sound.graph.entries hplace)⟩
  · cases hmem

theorem hasType_own {e : Expr} (hn : L n = some (.node w r k e)) (hf : g.Framed w f) {a : Atom}
    (ha : e.own? = some (g.heap.tag a)) : g.HasType n (some (.one a)) := by
  refine h.tame.hasType (fun T hT => ?_) fun x => ?_
  · cases hT
    exact .one _ a
  · rw [h.tagsAt_iff hn hf, Program.derives_own ha, Option.elim_some, Heap.tags_one,
      Finset.mem_singleton]

theorem type_new {c nm : Token} {es : List Expr} {p : Bool}
    (hn : L n = some (.node w r k (.call (some (.const c)) nm es p))) (hf : g.Framed w f)
    (hnew : (Expr.call (some (.const c)) nm es p).isNew = true) :
    ∃ i o, g.type n = some (.obj i) ∧ g.objects[i]? = some o ∧ o.name = c.text := by
  have hown := Expr.own_new hnew
  obtain ⟨T, hT, hmem⟩ := Graph.mem_tagsAt.mp (h.own_mem hn hf hown)
  have htags : ∀ x ∈ g.heap.tags T, x = .obj c.text := fun x hx => by
    rw [← Graph.tagsAt_of_type hT, h.tagsAt_iff hn hf, Program.derives_own hown] at hx
    exact hx
  have hnormal := h.tame.normal T hT
  -- A union has two members of different names.
  cases T with
  | one a =>
      have ha := htags _ (Finset.mem_singleton_self _)
      cases a with
      | prim => cases ha
      | obj i =>
          obtain ⟨o, ho⟩ := (h.attended.underway.sound.graph.typed hT).2.1.1 i
            (List.mem_singleton_self _)
          refine ⟨i, o, hT, ho, ?_⟩
          simpa [Heap.tag, Graph.heap, ho] using ha
  | union ms key =>
      have hcard : (g.heap.tags (.union ms key)).card ≤ 1 := Finset.card_le_one.mpr
        fun x hx y hy => (htags x hx).trans (htags y hy).symm
      rw [Ty.Normal.card_tags hnormal, Ty.members_union] at hcard
      exact absurd hnormal.2.2 (by omega)

/-- An instance that is kept for concrete types is one for these. -/
theorem instanceFor_of_keeps {receiver : Option Ty} {args : List Ty}
    (htame : ∀ t ∈ receiver.toList ++ args, t.Tame P.tree.classNames g) {r : Option Atom}
    {as : List Atom} (hch : Ty.Chosen receiver args r as) {name : String} {y : Instance}
    (hy : g.KeepsFor P (r.map g.heap.tag) name (as.map g.heap.tag) y) :
    g.InstanceFor r name as y := by
  have hT : Tame P.tree.classNames L g := h.tame
  have hmember : ∀ a ∈ r.toList ++ as, (Ty.one a).Tame P.tree.classNames g := by
    intro a ha
    rcases List.mem_append.mp ha with ha | ha
    · obtain ⟨t, ht, hat⟩ := exists_of_forall₂ hch.1 ha
      exact (htame t (List.mem_append_left _ ht)).member hat
    · obtain ⟨t, ht, hat⟩ := exists_of_forall₂ hch.2 ha
      exact (htame t (List.mem_append_right _ ht)).member hat
  obtain ⟨m, key, i, hfind, hkey, hrow, hi⟩ := hy
  rw [h.booked.find_concrete fun a ha => (hmember a ha).valid] at hfind
  refine ⟨m, (key, i), hfind, Graph.mem_instancesOf.mpr hkey, ?_, hi⟩
  have hargs : TameRow P.tree.classNames g (as.map fun a => some (.one a)) := by
    intro t ht T hT
    obtain ⟨a, ha, rfl⟩ := List.mem_map.mp ht
    cases hT
    exact hmember a (List.mem_append_right _ ha)
  rw [hargs.sameRow_iff hT.flat (hT.cached hkey), Heap.tagRow_concrete, hrow]

theorem callSolved {rc : Option Expr} {nm : Token} {es : List Expr} {p : Bool}
    (hn : L n = some (.node w r k (.call rc nm es p))) (hf : g.Framed w f)
    (hnew : (Expr.call rc nm es p).isNew = false) : g.CallSolved n rc nm es := by
  have hS : Sound L g := h.attended.underway.sound.graph
  have hduty := h.duty hn
  simp only [Graph.Duty, hnew, Bool.false_eq_true, if_false] at hduty
  obtain ⟨s, hs, -⟩ := id hduty.1
  obtain ⟨hreceiver, hargs, hname, -⟩ := hS.site_of_node hs hn
  -- A type of the call is the result for a choice of types for its inputs.
  have hchoice : ∀ {t}, t ∈ g.tagsAt n → ∃ receiver args r as,
      g.inputs? s = some (receiver, args) ∧ Ty.Chosen receiver args r as ∧
        P.Derives (.result (r.map g.heap.tag) nm.text (as.map g.heap.tag) t) := by
    intro t ht
    obtain ⟨r, as, hmatch, hin, hresult⟩ :=
      (Program.derives_call hnew).mp ((h.tagsAt_iff hn hf).mp ht)
    obtain ⟨s', receiver, args, r', as', hs', -, -, hinputs, hch, rfl, rfl⟩ :=
      h.exists_inputs hn hnew hmatch fun e t hmem m k hm => h.present (hin e t hmem) hm hf
    rw [hs] at hs'
    cases hs'
    exact ⟨receiver, args, r', as', hinputs, hch, hresult⟩
  refine ⟨s, hs, by simpa using hreceiver, hargs, fun hnone => h.untyped fun t ht => ?_,
    fun receiver args hin => ?_⟩
  · obtain ⟨receiver, args, r, as, hin, -⟩ := hchoice ht
    rw [hin] at hnone
    cases hnone
  · have hkeeps : ∀ c ∈ combinations receiver args, ∃ y,
        g.KeepsFor P (c.1.map g.heap.tag) nm.text (c.2.map g.heap.tag) y ∧
          g.tagsAt y.body ⊆ g.tagsAt n := by
      intro c hc
      rw [← hname]
      exact h.keeps_of_given hs hduty.1 hin (mem_combinations.mp hc)
    have : Nonempty Instance := ⟨⟨0, [], none, 0, none⟩⟩
    choose! y hy hsub using hkeeps
    refine ⟨y, fun c hc => h.instanceFor_of_keeps (h.tame.inputs hin)
      (mem_combinations.mp hc) (hy c hc), h.tame.hasType_mergeAll ?_ fun t => ?_⟩
    · intro T hT
      obtain ⟨c, -, rfl⟩ := List.mem_map.mp hT
      exact h.tame.normal
    · constructor
      · intro ht
        obtain ⟨receiver', args', r', as', hin', hch, hresult⟩ := hchoice ht
        rw [hin] at hin'
        cases hin'
        have hc : (r', as') ∈ combinations receiver args := mem_combinations.mpr hch
        exact ⟨_, List.mem_map_of_mem hc, h.present hresult (hy _ hc)⟩
      · rintro ⟨T, hT, ht⟩
        obtain ⟨c, hc, rfl⟩ := List.mem_map.mp hT
        exact hsub c hc ht

/-- A conditional has the types of its branches, an empty one apart. -/
theorem hasType_cond {c y : Expr} {no : Option Expr} (hn : L n = some (.node w r k (.cond c y no)))
    (hf : g.Framed w f) : g.HasType n (g.heap.mergeAll [g.type (n + 1 + c.size : Nat),
      if Expr.hasElse no then g.type (n + 1 + c.size + y.size : Nat) else none]) := by
  have hS : Sound L g := h.attended.underway.sound.graph
  have hy := hS.part hn (p := ⟨n + 1 + c.size, k, y⟩) (by simp [Expr.parts])
  have hno : ∀ e, no = some e →
      L (n + 1 + c.size + y.size) = some (.node w r k e) := fun e he =>
    hS.part hn (p := ⟨n + 1 + c.size + y.size, k, e⟩) (by simp [Expr.parts, he])
  refine h.tame.hasType_mergeAll
    (List.forall_mem_cons.mpr ⟨h.tame.normal, List.forall_mem_singleton.mpr ?_⟩) fun t => ?_
  · split
    · exact h.tame.normal
    · exact fun T hT => absurd hT (Option.not_mem_none T)
  · rw [h.tagsAt_iff hn hf, Program.derives_cond, List.exists_mem_cons_iff, ← h.tagsAt_iff hy hf]
    refine or_congr Iff.rfl ?_
    constructor
    · rintro ⟨e, heq, he, hd⟩
      refine ⟨_, List.mem_singleton_self _, ?_⟩
      rw [if_pos he]
      exact (h.tagsAt_iff (hno e heq) hf).mpr hd
    · rintro ⟨T, hT, ht⟩
      obtain rfl := List.mem_singleton.mp hT
      split at ht
      · next he =>
          cases no with
          | none => cases he
          | some e => exact ⟨e, rfl, he, (h.tagsAt_iff (hno e rfl) hf).mp ht⟩
      · cases ht

/-- Each node that a walk comes to has the type of its rule. -/
theorem solves {e : Expr} (hn : L n = some (.node w r k e)) (hf : g.Framed w f) :
    g.Solves w n e := by
  have hS : Sound L g := h.attended.underway.sound.graph
  cases e with
  | literal l => exact h.hasType_own hn hf rfl
  | loop => exact h.hasType_own hn hf rfl
  | const => exact h.untyped fun x hx =>
      Program.not_derives_of_untyped (.inl ⟨_, rfl⟩) ((h.tagsAt_iff hn hf).mp hx)
  | method => exact h.untyped fun x hx =>
      Program.not_derives_of_untyped (.inr (.inl ⟨_, _, _, rfl⟩)) ((h.tagsAt_iff hn hf).mp hx)
  | klass => exact h.untyped fun x hx =>
      Program.not_derives_of_untyped (.inr (.inr ⟨_, _, rfl⟩)) ((h.tagsAt_iff hn hf).mp hx)
  | place p =>
      obtain ⟨v, hv, hlookup⟩ := h.exists_variable hn
      refine ⟨v, hlookup, h.hasType_type fun x => ?_⟩
      rw [h.tagsAt_iff hn hf, h.mem_var_iff hv hf, Program.derives_place]
  | assign p v =>
      have hv := hS.part hn (p := ⟨n + 2, k, v⟩) (by simp [Expr.parts])
      refine h.hasType_type fun x => ?_
      rw [h.tagsAt_iff hn hf, h.tagsAt_iff hv hf, Program.derives_assign]
  | block es =>
      cases es with
      | nil => exact h.hasType_own hn hf rfl
      | cons e es =>
          obtain ⟨x, hx⟩ := Option.ne_none_iff_exists'.mp (mt List.getLast?_eq_none_iff.mp
            (List.cons_ne_nil (n + 1, e) (Expr.spread (n + 1 + e.size) es)))
          have hlast : (e :: es).getLast? = some x.2 := by
            rw [← Expr.getLast?_spread (n + 1) (e :: es)]
            exact congrArg (Option.map (·.2)) hx
          have hx' := hS.part hn (p := ⟨x.1, k, x.2⟩) (List.mem_map_of_mem (List.mem_of_getLast? hx))
          refine ⟨x, hx, h.hasType_type fun t => ?_⟩
          rw [h.tagsAt_iff hn hf, h.tagsAt_iff hx' hf, Program.derives_block hlast]
  | cond => exact h.hasType_cond hn hf
  | call rc nm es p =>
      rw [Graph.Solves]
      split
      · next hnew =>
          obtain ⟨c, rfl⟩ := Expr.exists_const_of_isNew hnew
          obtain ⟨i, o, hi, ho, hname⟩ := h.type_new hn hf hnew
          exact ⟨c, i, o, rfl, hi, ho, hname⟩
      · next hnew => exact h.callSolved hn hf (Bool.not_eq_true _ ▸ hnew)

end node

/-! ## Walks -/

/-- A walk over a tree gives all nodes the types of their rules, and its variables the merges of what
they are given and of what is assigned to them. -/
theorem solution {root : NodeId} {w : WalkId} {b : Expr} {f : Frame} {given : String → Option Ty}
    (hn : L root = some (.node w root none b)) (hf : g.Framed w f)
    (hnormal : ∀ x, ∀ T ∈ given x, T.Normal g.heap)
    (hgiven : ∀ x t, P.Input x t f ↔ t ∈ (given x).elim ∅ g.heap.tags)
    (hholds : ∀ {p v}, P.Holds (.assign p v) f → ∃ q ∈ b.stops none root, q.expr = .assign p v) :
    g.Solution w root b given where
  node q hq := h.solves (h.attended.underway.sound.graph.stop hn hq) hf
  var x v hv := by
    have hU := h.attended.underway
    refine h.tame.hasType_mergeAll (List.forall_mem_cons.mpr ⟨hnormal x, fun t ht => ?_⟩) fun t => ?_
    · obtain ⟨m, -, rfl⟩ := List.mem_map.mp ht
      exact h.tame.normal
    · rw [h.mem_var_iff (has_var hv) hf, Program.derives_var, List.exists_mem_cons_iff, hgiven]
      refine or_congr Iff.rfl ?_
      constructor
      · rintro ⟨p, e, hname, hh, hd⟩
        obtain ⟨q, hq, heq⟩ := hholds hh
        have hlabel := hU.sound.graph.stop hn hq
        rw [heq] at hlabel
        exact ⟨_, List.mem_map_of_mem (Expr.mem_assignments.mpr ⟨q, hq, rfl, p, e, heq, hname⟩),
          (h.tagsAt_iff hlabel hf).mpr hd⟩
      · rintro ⟨T, hT, ht⟩
        obtain ⟨m, hm, rfl⟩ := List.mem_map.mp hT
        obtain ⟨q, hq, rfl, p, e, heq, hname⟩ := Expr.mem_assignments.mp hm
        have hlabel := hU.sound.graph.stop hn hq
        rw [heq] at hlabel
        exact ⟨p, e, hname, hU.holds hlabel hf (fun htree => by cases htree),
          (h.tagsAt_iff hlabel hf).mp ht⟩

theorem solution_main : g.Solution 0 rootOf P.tree fun _ => none :=
  h.solution h.attended.underway.root .main (fun _ _ hT => nomatch hT)
    (fun _ _ => ⟨fun hi => hi.elim, fun ht => by cases ht⟩) fun hh => by
      obtain ⟨n, k, hq⟩ := P.stop_of_main hh
      exact ⟨_, hq, rfl⟩

/-- The walk over an instance of a method of the program solves the rules. -/
theorem solution_of_opens {y : Instance} {w : WalkId} {as : List Atom} {ps : List String} {b : Expr}
    (hcode : P.Code y.method ps b) (ho : g.Opens P L b y w as) :
    g.Solution w y.body b (y.given ps) := by
  have hgiven : ∀ x, y.given ps x =
      ((Table.ofList (concreteInputs ps y.owner as)).lookup x).map Ty.one := by
    intro x
    rw [Instance.given, ho.params, concreteInputs_map,
      Table.lookup_ofList_map fun a => some (Ty.one a)]
    cases (Table.ofList (concreteInputs ps y.owner as)).lookup x <;> rfl
  refine h.solution ho.body ho.frame (fun x T hT => ?_) (fun x t => ?_) fun hh => ?_
  · rw [hgiven] at hT
    obtain ⟨a, -, rfl⟩ := Option.mem_map.mp hT
    exact .one _ a
  · have hinput : P.Input x t (.inst y.method (y.owner.map g.heap.tag) (as.map g.heap.tag)) ↔
        ((Table.ofList (concreteInputs ps y.owner as)).lookup x).map g.heap.tag = some t := by
      rw [← Table.lookup_ofList_map, ← concreteInputs_map]
      constructor
      · rintro ⟨ps', b', hcode', hx⟩
        rw [(hcode'.unique hcode).1] at hx
        exact hx
      · exact fun hx => ⟨ps, b, hcode, hx⟩
    rw [hinput, hgiven]
    cases (Table.ofList (concreteInputs ps y.owner as)).lookup x <;> simp [eq_comm]
  · obtain ⟨ps', b', hcode', q, hq, heq⟩ := hh
    obtain ⟨-, rfl⟩ := hcode'.unique hcode
    obtain ⟨m, -, hm⟩ := Expr.mem_stops_shift hq y.body
    exact ⟨_, hm, heq⟩

/-- The walk over an instance of a written method solves the rules. -/
theorem solution_of_written {m : NodeId} {M : Method} {b : Expr} {t : NodeId}
    (hm : g.method? m = some M) (hsource : M.source = .written b t)
    {e : List (Option Ty) × InstanceId} (he : e ∈ M.instances) :
    ∃ y w, g.instances[e.2]? = some y ∧ y.method = m ∧ y.params = e.1 ∧ y.walk = some w ∧
      g.Solution w y.body b (y.given M.params) := by
  have hU := h.attended.underway
  have hkey : g.Has (.mark m (.cached e.1 e.2)) := Graph.has_cached.mpr ⟨M, hm, he⟩
  rcases hU.sound.graph.source_of_method (hU.sound.graph.entries hkey).1 hm with
    ⟨w, r, k, nm, ps, b', hlabel, hwritten, hps, -⟩ | ⟨-, hbuiltin⟩
  · rw [hsource] at hwritten
    cases hwritten
    have hcode : P.Code m M.params b := by
      rw [hps]
      exact Homed.code hU.homed hlabel
    obtain ⟨y, w, as, hy, rfl, hparams, ho⟩ := h.opens_of_cached hkey hcode
    exact ⟨y, w, hy, rfl, hparams, ho.walk, h.solution_of_opens hcode ho⟩
  · rw [hsource] at hbuiltin
    rcases hbuiltin with heq | ⟨owner, heq⟩ <;> cases heq

end Completed

/-! ## Programs -/

/-- When inference of a program finishes, the walk over the program solves the rules, and so does the
walk over each instance of a written method. -/
theorem inferTypes_solves (P : Program) (budget : Nat)
    (hfin : (inferTypes budget P.tree).2 = .finished) :
    let g := (inferTypes budget P.tree).1.graph
    (g.Solution 0 rootOf P.tree fun _ => none) ∧
      ∀ m M b t, g.method? m = some M → M.source = .written b t → ∀ e ∈ M.instances,
        ∃ y w, g.instances[e.2]? = some y ∧ y.method = m ∧ y.params = e.1 ∧ y.walk = some w ∧
          g.Solution w y.body b (y.given M.params) := by
  intro g
  rw [inferTypes_outcome] at hfin
  obtain ⟨done, hpass⟩ := Graph.passes_of_run_finished hfin
  rw [← inferTypes_graph] at hpass
  obtain ⟨L, hL⟩ := completed_of_passes hpass
  exact ⟨hL.solution_main, fun m M b t hm hsource e he => hL.solution_of_written hm hsource he⟩

/-- What the rules say of a method that is called with a variable of two types. -/
theorem inferTypes_solves_early :
    (inferTypes 150 early.tree).2 = .finished ∧
      let g := (inferTypes 150 early.tree).1.graph
      (g.Solution 0 rootOf early.tree fun _ => none) ∧
        ∀ m M b t, g.method? m = some M → M.source = .written b t → ∀ e ∈ M.instances,
          ∃ y w, g.instances[e.2]? = some y ∧ y.method = m ∧ y.params = e.1 ∧ y.walk = some w ∧
            g.Solution w y.body b (y.given M.params) := by
  have hfin : (inferTypes 150 early.tree).2 = .finished := by decide +kernel
  exact ⟨hfin, inferTypes_solves early 150 hfin⟩

end TypeFlow
