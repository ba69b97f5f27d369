import TypeFlow.Proofs.Bodies
import TypeFlow.Proofs.Lasting
import TypeFlow.Proofs.Tags

/-! # Programs without instance variables

Such a program never gives an object type a field, so all its types are known by name, and the
names come from a list that the program determines. -/

namespace TypeFlow

/-! ## Expressions -/

namespace Expr

/-- The expressions at all nodes. -/
def all (e : Expr) : List Expr := (e.nodes 0).map (·.2)

theorem mem_all {e x : Expr} (i : Nat) : x ∈ e.all ↔ ∃ j, (j, x) ∈ e.nodes i := by
  rw [all, map_snd_nodes e 0 i, List.mem_map]
  constructor
  · rintro ⟨⟨j, y⟩, h, rfl⟩
    exact ⟨j, h⟩
  · rintro ⟨j, h⟩
    exact ⟨_, h, rfl⟩

/-- There are no instance variables in an expression, and its classes have listed names. -/
def Within (names : List String) (e : Expr) : Prop :=
  ∀ x ∈ e.all, (∀ p, x = .place p → p.kind = .localVar) ∧
    ∀ n b, x = .klass n b → n.text ∈ names

theorem Within.of_nodes {names : List String} {e x : Expr} {i j : Nat} (h : e.Within names)
    (hx : ∀ y ∈ x.nodes j, y ∈ e.nodes i) : x.Within names := by
  intro y hy
  obtain ⟨k, hk⟩ := (mem_all j).mp hy
  exact h y ((mem_all i).mpr ⟨k, hx _ hk⟩)

theorem Within.stop {names : List String} {e : Expr} {k : Option String} {i : Nat} {q : Stop}
    (h : e.Within names) (hq : q ∈ e.stops k i) : q.expr.Within names :=
  h.of_nodes (nodes_subset_of_mem_stops hq)

theorem Within.body {names : List String} {n : Token} {ps : List Token} {b : Expr}
    (h : (Expr.method n ps b).Within names) : b.Within names :=
  h.of_nodes (i := 0) (j := 1) fun y hy => by simp [nodes, hy]

theorem Within.place {names : List String} {p : Place} (h : (Expr.place p).Within names) :
    p.kind = .localVar :=
  (h (.place p) (by simp [all, nodes])).1 p rfl

theorem Within.target {names : List String} {p : Place} {v : Expr}
    (h : (Expr.assign p v).Within names) : p.kind = .localVar :=
  (h (.place p) (by simp [all, nodes])).1 p rfl

theorem Within.name {names : List String} {n : Token} {b : Expr}
    (h : (Expr.klass n b).Within names) : n.text ∈ names :=
  (h (.klass n b) (by simp [all, nodes])).2 n b rfl

end Expr

/-! ## Types -/

/-- The names that types may have. -/
def Tag.known (names : List String) : Finset Tag :=
  (Builtin.typeNames.map Tag.prim ++ names.map Tag.obj).toFinset

/-- The members of a type have known names and differ by name. -/
structure Ty.Tame (names : List String) (g : Graph) (t : Ty) : Prop where
  valid : t.Valid g
  known : g.heap.tags t ⊆ Tag.known names
  apart : (t.members.map g.heap.tag).Nodup

variable {names : List String} {L : Labels} {g : Graph}

theorem Graph.Grows.tag_eq {g' : Graph} (h : Graph.Grows g g') {a : Atom}
    (ha : ∀ i, a = .obj i → ∃ o, g.objects[i]? = some o) : g'.heap.tag a = g.heap.tag a := by
  cases a with
  | prim => rfl
  | obj i =>
      obtain ⟨o, ho⟩ := ha i rfl
      obtain ⟨o', ho', hname, -⟩ := h.object ho
      simp [Heap.tag, Graph.heap, ho, ho', hname]

theorem Graph.Grows.map_tag {g' : Graph} (h : Graph.Grows g g') {t : Ty} (ht : t.Valid g) :
    t.members.map g'.heap.tag = t.members.map g.heap.tag :=
  List.map_congr_left fun _ ha => h.tag_eq fun i hi => ht.1 i (hi ▸ ha)

/-- The names of the members of a type stay as they are. -/
theorem Graph.Grows.tags_eq {g' : Graph} (h : Graph.Grows g g') {t : Ty} (ht : t.Valid g) :
    g'.heap.tags t = g.heap.tags t := by
  rw [Heap.tags, h.map_tag ht, Heap.tags]

namespace Ty.Tame

theorem normal {t : Ty} (ht : t.Tame names g) : t.Normal g.heap := by
  refine ⟨ht.apart, ?_⟩
  cases t with
  | one => trivial
  | union ms key => exact ht.valid.2

theorem grow {t : Ty} (ht : t.Tame names g) {g' : Graph} (h : Graph.Grows g g') :
    t.Tame names g' where
  valid := (Extends.of_grows h (L := fun _ => none)).valid ht.valid
  known := by rw [h.tags_eq ht.valid]; exact ht.known
  apart := by rw [h.map_tag ht.valid]; exact ht.apart

theorem member {t : Ty} (ht : t.Tame names g) {a : Atom} (ha : a ∈ t.members) :
    (Ty.one a).Tame names g where
  valid := ht.valid.member ha
  known := by
    rw [Heap.tags_one, Finset.singleton_subset_iff]
    exact ht.known (Heap.mem_tags.mpr ⟨a, ha, rfl⟩)
  apart := List.nodup_singleton _

theorem prim {n : String} (hn : n ∈ Builtin.typeNames) : (Ty.prim n).Tame names g where
  valid := ⟨by simp [Ty.prim], trivial⟩
  known := by
    rw [Ty.prim, Heap.tags_one, Finset.singleton_subset_iff, Tag.known, List.mem_toFinset]
    exact List.mem_append_left _ (List.mem_map_of_mem hn)
  apart := List.nodup_singleton _

theorem void : Ty.void.Tame names g := prim (by decide)

theorem literal (k : LiteralKind) : (Ty.prim k.typeName).Tame names g :=
  prim (by cases k <;> decide)

theorem obj {i : ObjId} {o : ObjectType} (ho : g.objects[i]? = some o) (hname : o.name ∈ names) :
    (Ty.obj i).Tame names g where
  valid := ⟨fun j hj => by
    obtain rfl : j = i := by simpa [Ty.obj] using hj
    exact ⟨o, ho⟩, trivial⟩
  known := by
    rw [Ty.obj, Heap.tags_one, Finset.singleton_subset_iff, Tag.known, List.mem_toFinset]
    refine List.mem_append_right _ (List.mem_map.mpr ⟨o.name, hname, ?_⟩)
    simp [Heap.tag, Graph.heap, ho]
  apart := List.nodup_singleton _

/-- A type has a member. -/
theorem tags_nonempty {t : Ty} (ht : t.Tame names g) : (g.heap.tags t).Nonempty := by
  obtain ⟨a, ha⟩ := List.exists_mem_of_ne_nil _ ht.valid.members_ne_nil
  exact ⟨_, Heap.mem_tags.mpr ⟨a, ha, rfl⟩⟩

theorem merge {a b : Ty} (hf : g.heap.Flat) (ha : a.Tame names g) (hb : b.Tame names g) :
    (g.heap.merge a b).Tame names g ∧
      g.heap.tags (g.heap.merge a b) = g.heap.tags a ∪ g.heap.tags b := by
  obtain ⟨hnormal, htags⟩ := hf.merge_tags ha.normal hb.normal
  refine ⟨⟨ha.valid.merge hb.valid _, ?_, hnormal.1⟩, htags⟩
  rw [htags]
  exact Finset.union_subset ha.known hb.known

end Ty.Tame

/-! ## Rows -/

/-- The types of parameters or of inputs are known by name. -/
def TameRow (names : List String) (g : Graph) (ts : List (Option Ty)) : Prop :=
  ∀ t ∈ ts, ∀ t' ∈ t, t'.Tame names g

namespace TameRow

variable {ts us : List (Option Ty)}

theorem args {as : List Ty} (h : ∀ t ∈ as, t.Tame names g) : TameRow names g (as.map some) := by
  intro t ht t' ht'
  obtain ⟨u, hu, rfl⟩ := List.mem_map.mp ht
  cases ht'
  exact h _ hu

theorem inputs {receiver : Option Ty} {as : List Ty}
    (h : ∀ t ∈ receiver.toList ++ as, t.Tame names g) :
    TameRow names g (receiver :: as.map some) := by
  intro t ht t' ht'
  rcases List.mem_cons.mp ht with rfl | ht
  · exact h t' (List.mem_append_left _ (Option.mem_toList.mpr ht'))
  · exact args (fun t ht => h t (List.mem_append_right _ ht)) t ht t' ht'

theorem tagRow_eq (h : TameRow names g ts) {g' : Graph} (hg : Graph.Grows g g') :
    g'.heap.tagRow ts = g.heap.tagRow ts := by
  refine List.map_congr_left fun t ht => ?_
  cases t with
  | none => rfl
  | some t => exact congrArg some (hg.tags_eq (h _ ht t rfl).valid)

theorem sameRow_iff (hf : g.heap.Flat) (ht : TameRow names g ts) (hu : TameRow names g us) :
    g.heap.sameRow ts us = true ↔ g.heap.tagRow ts = g.heap.tagRow us :=
  hf.sameRow_iff (fun t h t' h' => (ht t h t' h').normal) fun t h t' h' => (hu t h t' h').normal

end TameRow

/-! ## Graphs -/

/-- What may be recorded while a program without instance variables is walked over. -/
def Entry.Tame (names : List String) (g : Graph) : Entry → Prop
  | .mark _ (.typed t) => t.Tame names g
  | .mark _ (.cached key _) => ∀ t ∈ key, ∃ t', t = some t' ∧ t'.Tame names g
  | .inst _ x => ∀ t ∈ x.params, ∃ t', t = some t' ∧ t'.Tame names g
  | _ => True

def Label.Tame (names : List String) (g : Graph) : Label → Prop
  | .node _ _ _ e => e.Within names
  | .dispatch d => ∀ t ∈ d.receiver.toList ++ d.args, t.Tame names g
  | _ => True

def Task.Tame (names : List String) (g : Graph) : Task → Prop
  | .store _ t | .widen _ t => t.Tame names g
  | .react _ _ _ t => ∀ t' ∈ t, t'.Tame names g
  | .member _ r as => ∀ a ∈ r.toList ++ as, (Ty.one a).Tame names g
  | _ => True

/-- All types are known by name. -/
structure Tame (names : List String) (L : Labels) (g : Graph) : Prop where
  objects : ∀ {i : ObjId} {o : ObjectType}, g.objects[i]? = some o → o.fields = [] ∧ o.name ∈ names
  labels : ∀ {n l}, L n = some l → l.Tame names g
  entries : ∀ {e}, g.Has e → e.Tame names g

structure Tame.Config (names : List String) (L : Labels) (c : Graph.Config) : Prop where
  graph : Tame names L c.1
  tasks : ∀ t ∈ c.2, t.Tame names c.1

theorem Label.Tame.grow {l : Label} (hl : l.Tame names g) {g' : Graph} (h : Graph.Grows g g') :
    l.Tame names g' := by
  cases l with
  | node => exact hl
  | dispatch d => exact fun t ht => (hl t ht).grow h
  | var | field | input | member | builtin => trivial

theorem Entry.Tame.grow {e : Entry} (he : e.Tame names g) {g' : Graph} (h : Graph.Grows g g') :
    e.Tame names g' := by
  cases e with
  | mark n k =>
      cases k with
      | typed t => exact Ty.Tame.grow he h
      | cached key i =>
          intro t ht
          obtain ⟨t', rfl, ht'⟩ := he t ht
          exact ⟨t', rfl, ht'.grow h⟩
      | edge | linked | aimed | found | busy | made | member => trivial
  | inst i x =>
      intro t ht
      obtain ⟨t', rfl, ht'⟩ := he t ht
      exact ⟨t', rfl, ht'.grow h⟩
  | var | field | method | dispatch | self | klass => trivial

theorem Task.Tame.grow {t : Task} (ht : t.Tame names g) {g' : Graph} (h : Graph.Grows g g') :
    t.Tame names g' := by
  cases t with
  | store | widen => exact Ty.Tame.grow ht h
  | react s o r t => exact fun t' ht' => (ht t' ht').grow h
  | member d r as => exact fun a ha => (ht a ha).grow h
  | _ => trivial

namespace Tame

variable (hT : Tame names L g)
include hT

theorem flat : g.heap.Flat := by
  intro i
  simp only [Graph.heap]
  cases ho : g.objects[i]? with
  | none => rfl
  | some o => simp [(hT.objects ho).1]

theorem typed {n : NodeId} {t : Ty} (h : g.type n = some t) : t.Tame names g :=
  hT.entries (Graph.has_typed.mpr h)

theorem within {n : NodeId} {w : WalkId} {r : NodeId} {k : Option String} {e : Expr}
    (h : L n = some (.node w r k e)) : e.Within names := hT.labels h

theorem inputs {s : Site} {receiver : Option Ty} {args : List Ty}
    (h : g.inputs? s = some (receiver, args)) :
    ∀ t ∈ receiver.toList ++ args, t.Tame names g := by
  intro t ht
  obtain ⟨v, -, hv⟩ := Graph.exists_of_inputs h ht
  exact hT.typed hv

theorem cached {m : NodeId} {key : List (Option Ty)} {i : InstanceId}
    (h : g.Has (.mark m (.cached key i))) : TameRow names g key := by
  intro t ht t' ht'
  obtain ⟨u, rfl, hu⟩ := hT.entries h t ht
  cases ht'
  exact hu

theorem params {i : InstanceId} {x : Instance} (h : g.instances[i]? = some x) :
    TameRow names g x.params := by
  intro t ht t' ht'
  obtain ⟨u, rfl, hu⟩ := hT.entries (e := .inst i x) h t ht
  cases ht'
  exact hu

theorem dispatch (hS : Sound L g) {d : NodeId} (h : g.Has (.dispatch d)) {x : Dispatch}
    (hx : g.dispatch? d = some x) : TameRow names g (x.receiver :: x.args.map some) :=
  .inputs (hT.labels (hS.label_of_dispatch h hx))

/-- A change keeps all types known by name if what it adds is. -/
theorem extend {L' : Labels} {g' : Graph} (h : Extends L g L' g')
    (hobj : ∀ (i : ObjId) o, g'.objects[i]? = some o →
      g.objects[i]? = some o ∨ o.fields = [] ∧ o.name ∈ names)
    (hlab : ∀ (n : Nat) l, g.cells.size ≤ n → L' n = some l → l.Tame names g')
    (hent : ∀ {e}, g'.Has e → g.Has e ∨ e.Tame names g') : Tame names L' g' where
  objects := by
    intro i o ho
    rcases hobj i o ho with ho | ho
    · exact hT.objects ho
    · exact ho
  labels := by
    intro n l hl
    by_cases hn : n < g.cells.size
    · refine (hT.labels (n := n) ?_).grow h.grows
      rwa [← h.label n hn]
    · exact hlab n l (Nat.le_of_not_lt hn) hl
  entries := by
    intro e he
    rcases hent he with he | he
    · exact (hT.entries he).grow h.grows
    · exact he

/-- A change that makes no new object types and needs no new labels. -/
theorem grow {g' : Graph} (hg : Graph.Grows g g') (hobj : g'.objects = g.objects)
    (hsize : ∀ (n : Nat) l, g.cells.size ≤ n → L n = some l → l.Tame names g')
    (hent : ∀ {e}, g'.Has e → g.Has e ∨ e.Tame names g') : Tame names L g' :=
  hT.extend (.of_grows hg) (fun i o ho => .inl (by rwa [hobj] at ho)) hsize hent

end Tame

/-! ## Steps -/

/-- All types that a step leaves behind are known by name. -/
structure Tame.Keeps (names : List String) (L' : Labels) (s : Step) : Prop where
  graph : Tame names L' s.1
  tasks : ∀ ts, s.2 = .ok ts → ∀ t ∈ ts, t.Tame names s.1

theorem Tame.Keeps.next {L' : Labels} {g' : Graph} {ts : List Task} (h : Tame names L' g')
    (ht : ∀ t ∈ ts, t.Tame names g') : Tame.Keeps names L' (g'.next ts) := by
  refine ⟨h, fun ts' hts => ?_⟩
  cases hts
  exact ht

theorem Tame.Keeps.fail {L' : Labels} {g' : Graph} {f : Fault} (h : Tame names L' g') :
    Tame.Keeps names L' (g'.fail f) := by
  refine ⟨h, fun ts hts => ?_⟩
  cases hts

section steps

variable (hS : Sound L g) (hT : Tame names L g)
include hS hT

/-- A change that only connects cells or marks them. -/
theorem Tame.change {g' : Graph} (hg : Graph.Grows g g') (hobj : g'.objects = g.objects)
    (hent : ∀ {e}, g'.Has e → g.Has e ∨ e.Tame names g') : Tame names L g' :=
  hT.grow hg hobj (fun _ _ hn hl => absurd (hS.bound hl) (Nat.not_lt.mpr hn)) hent

theorem tame_storeType {n : NodeId} {t : Ty} (ht : t.Tame names g) :
    Tame.Keeps names L (g.storeType n t) := by
  rcases g.storeType_cases n t with ⟨h, -⟩ | ⟨h, -⟩
  · rw [h]
    exact .next hT (by simp)
  · rw [h]
    have hgrows := Graph.grows_setType g n t
    refine .next (hT.change hS hgrows rfl fun hen => ?_) fun task htask => ?_
    · rcases Graph.has_setType hen with hen | rfl
      · exact .inl hen
      · exact .inr (Ty.Tame.grow ht hgrows)
    · obtain ⟨o, -, rfl⟩ := List.mem_map.mp htask
      trivial

theorem tame_widenType {n : NodeId} {t : Ty} (ht : t.Tame names g) :
    Tame.Keeps names L (g.widenType n t) := by
  rw [hS.widenType_eq ht.valid]
  refine tame_storeType hS hT ?_
  unfold Graph.joined
  cases hold : g.type n with
  | none => exact ht
  | some old => exact (Ty.Tame.merge hT.flat (hT.typed hold) ht).1

theorem tame_subscribe {s o : NodeId} {r : Reaction} :
    Tame.Keeps names L (g.subscribe s o r) := by
  have hgrows := Graph.grows_addObserver g s o r
  unfold Graph.subscribe
  refine .next (hT.change hS hgrows rfl fun hen => ?_) fun task htask => ?_
  · rcases Graph.has_addObserver hen with hen | rfl
    · exact .inl hen
    · exact .inr trivial
  · cases ht : g.type s with
    | none => simp [ht] at htask
    | some t =>
        simp only [ht, List.mem_singleton] at htask
        subst htask
        intro t' ht'
        cases ht'
        exact (hT.typed ht).grow hgrows

theorem tame_react {s o : NodeId} {r : Reaction} (he : g.EdgeOK L s o r) {t : Option Ty}
    (ht : ∀ t' ∈ t, t'.Tame names g) : Tame.Keeps names L (g.react (some s) o r t) := by
  rw [hS.react_eq he]
  refine .next hT fun task htask => ?_
  cases r with
  | resolve =>
      obtain rfl := List.mem_singleton.mp htask
      trivial
  | merge | other =>
      obtain ⟨t', ht', rfl⟩ := List.mem_map.mp htask
      exact ht t' (Option.mem_toList.mp ht')

theorem Tame.modifySite {c : NodeId} {f : Site → Site} (hf : ∀ s, (f s).blank = s.blank)
    (hl : ∀ s, s.linked = true → (f s).linked = true) : Tame names L (g.modifySite c f) := by
  refine hT.change hS (Graph.grows_modifySite g c hf hl) rfl fun hen => ?_
  rcases Graph.has_modifySite hen with hen | ⟨s, k, hs, rfl, hk⟩
  · exact .inl hen
  · cases k with
    | typed | cached => exact hk.elim
    | edge | linked | aimed | found | busy | made | member => exact .inr trivial

theorem Tame.modifyWalk {w : WalkId} {f : Walk → Walk} (hf : ∀ x, (f x).self = x.self) :
    Tame names L (g.modifyWalk w f) := by
  refine hT.change hS (Graph.grows_modifyWalk g w hf) rfl fun hen => ?_
  rcases Graph.has_modifyWalk hf hen with hen | ⟨x, v, rfl, -⟩
  · exact .inl hen
  · exact .inr trivial

/-- The label of a new variable says nothing about its type. -/
theorem Tame.variableOf (w : WalkId) {p : Place} (hp : p.kind = .localVar) :
    Tame names (L.placed g w p) (g.variableOf w p.name.text).1 := by
  have hext := (extends_variableOf hS w hp).1
  cases hv : (g.walk w).vars.lookup p.name.text with
  | some v =>
      rw [Labels.placed_known hp hv, Graph.variableOf_known hv]
      exact hT
  | none =>
      rw [Labels.placed_new hp hv, Graph.variableOf_new hv] at hext ⊢
      refine hT.extend hext (fun i o ho => .inl ho) (fun n l hn hl => ?_) fun hen => ?_
      · rcases Labels.append_cases hl with ⟨hlt, -⟩ | ⟨j, -, hj⟩
        · omega
        · obtain ⟨-, rfl⟩ := Labels.eq_of_singleton hj
          trivial
      · rcases Graph.has_withVariable hen with hen | rfl
        · exact .inl hen
        · exact .inr trivial

theorem tame_bind {w : WalkId} {r n : NodeId} {k : Option String} {p : Place} {v : Expr}
    (hn : L n = some (.node w r k (.assign p v))) :
    Tame.Keeps names (L.placed g w p) (g.bind w p n) := by
  have hp := (hT.within hn).target
  have hplace : g.placeOf w p (n + 1) =
      ((g.variableOf w p.name.text).1, .ok (g.variableOf w p.name.text).2) := by
    simp [Graph.placeOf, hp]
  simp only [Graph.bind, hplace]
  refine .next (hT.variableOf hS w hp) fun task htask => ?_
  simp only [List.mem_cons, List.not_mem_nil, or_false] at htask
  rcases htask with rfl | rfl <;> trivial

/-- A clone has no fields either, so that it needs no cells. -/
theorem tame_cloneObject {i : ObjId} {o : ObjectType} (ho : g.objects[i]? = some o) :
    Tame names (L.cloned g i) (g.cloneObject i).1 ∧
      (g.cloneObject i).1.objects[(g.cloneObject i).2]? = some o := by
  obtain ⟨hfields, hname⟩ := hT.objects ho
  have hclone : g.cloneObject i = ({ g with objects := g.objects.push o }, g.objects.size) := by
    obtain ⟨name, methods, fields⟩ := o
    simp only at hfields
    subst hfields
    simp [Graph.cloneObject, ho, Graph.copyFields]
  have hlabels : L.cloned g i = L.append g [] := by
    simp [Labels.cloned, ho, hfields]
  have hext := (extends_cloneObject hS ho).1
  refine ⟨hT.extend hext (fun j o' ho' => ?_) (fun n l hn hl => ?_) fun hen => ?_, ?_⟩
  · rw [hclone] at ho'
    simp only [Array.getElem?_push] at ho'
    split at ho'
    · cases ho'
      exact .inr ⟨hfields, hname⟩
    · exact .inl ho'
  · rw [hlabels] at hl
    rcases Labels.append_cases hl with ⟨hlt, -⟩ | ⟨j, -, hj⟩
    · omega
    · simp at hj
  · rcases Graph.has_cloneObject ho (by simp [hfields]) hen with hen | ⟨j, f, hj, -⟩
    · exact .inl hen
    · simp [hfields] at hj
  · rw [hclone]
    exact Array.getElem?_push_size

theorem tame_addClass {name : String} (hname : name ∈ names) :
    Tame names L (g.addClass name).1 := by
  refine hT.extend (.of_grows (Graph.grows_addClass g _)) (fun i o ho => ?_)
    (fun _ _ hn hl => absurd (hS.bound hl) (Nat.not_lt.mpr hn)) fun hen => ?_
  · simp only [Graph.addClass, Array.getElem?_push] at ho
    split at ho
    · cases ho
      exact .inr ⟨rfl, hname⟩
    · exact .inl ho
  · rcases Graph.has_addClass hen with hen | rfl
    · exact .inl hen
    · exact .inr trivial

theorem tame_graph_visit {w : WalkId} {r n : NodeId} {k : Option String} {e : Expr}
    (hn : L n = some (.node w r k e)) : Tame names (L.visited g w e) (g.visit w e n).1 := by
  have hwithin := hT.within hn
  cases e with
  | literal | const | assign | block | loop | cond => exact hT
  | place p =>
      have hp := hwithin.place
      have hplace : g.placeOf w p n =
          ((g.variableOf w p.name.text).1, .ok (g.variableOf w p.name.text).2) := by
        simp [Graph.placeOf, hp]
      simp only [Graph.visit, hplace]
      exact hT.variableOf hS w hp
  | method nm ps b =>
      refine hT.change hS (Graph.grows_putMethod ..) ?_ fun hen => ?_
      · simp only [Graph.visit, Graph.putMethod]
        split <;> rfl
      · rcases Graph.has_putMethod hen with hen | rfl
        · exact .inl hen
        · exact .inr trivial
  | klass nm b =>
      simp only [Graph.visit, Graph.visitClass]
      cases g.classes.lookup nm.text with
      | some i => exact Tame.modifyWalk hS hT fun _ => rfl
      | none =>
          exact Tame.modifyWalk (sound_addClass hS _) (tame_addClass hS hT hwithin.name) fun _ => rfl
  | call rc nm as p =>
      rcases g.visit_call w rc nm as p n with ⟨hnew, hvisit⟩ | ⟨c, rfl, hnew, hvisit⟩ <;> rw [hvisit]
      · rw [L.visited_call g w hnew]
        exact Tame.modifySite (f := fun s => { s with linked := true }) hS hT (fun _ => rfl)
          fun _ _ => rfl
      · have hlabels : L.visited g w (.call (some (.const c)) nm as p) =
            L.instantiated g w c.text := by simp [Labels.visited, hnew]
        rw [hlabels]
        unfold Labels.instantiated Graph.instantiate
        cases (g.walk w).self.filter fun i => g.heap.name i == c.text with
        | some i => exact hT
        | none =>
            cases hc : g.classes.lookup c.text with
            | none => exact hT
            | some i =>
                obtain ⟨o, ho, -⟩ := hS.entries (e := .klass c.text i) (Table.mem_of_lookup hc)
                exact (tame_cloneObject hS hT ho).1

theorem tame_visit {w : WalkId} {r n : NodeId} {k : Option String} {e : Expr}
    (hn : L n = some (.node w r k e)) :
    Tame.Keeps names (L.visited g w e) (g.visit w e n) where
  graph := tame_graph_visit hS hT hn
  tasks ts hts t ht := by
    generalize hvisit : (g.visit w e n).1 = g'
    cases follows_of_visit none (Prod.ext hvisit hts) ht with
    | @literal l => exact Ty.Tame.literal l.kind
    | loop | empty => exact Ty.Tame.void
    | own _ hself =>
        obtain ⟨o, ho⟩ := hS.entries (e := .self w _) hself
        exact Ty.Tame.obj ho (hT.objects ho).2
    | @clone c _ _ _ i _ hc =>
        obtain ⟨o, ho, -⟩ := hS.entries (e := .klass c.text i) (Table.mem_of_lookup hc)
        exact Ty.Tame.obj (tame_cloneObject hS hT ho).2 (hT.objects ho).2
    | _ => trivial

theorem tame_newDispatch {c : NodeId} {s : Site} (hc : L.IsCall c) (hs : g.site? c = some s)
    {receiver : Option Ty} {args : List Ty} (hin : g.inputs? s = some (receiver, args))
    (n : Notice) :
    Tame.Keeps names (L.append g [some (.dispatch (s.dispatch receiver args))])
      (((g.addDispatch s receiver args).1.notice n).next
        (Graph.memberTasks g.cells.size receiver args ++
          [.subscribe g.cells.size c .merge, .aim c (.dispatch g.cells.size)])) := by
  have htypes := hT.inputs hin
  have hlen : args.length = s.args.length :=
    (Graph.inputs?_eq_some_iff.mp hin).2.length_eq.symm
  obtain ⟨hext, hS'⟩ := extends_addDispatch hS hc hs receiver hlen
  have hT' : Tame names (L.append g [some (.dispatch (s.dispatch receiver args))])
      (g.addDispatch s receiver args).1 := by
    refine hT.extend hext (fun i o ho => .inl ho) (fun n l hn hl => ?_) fun hen => ?_
    · rcases Labels.append_cases hl with ⟨hlt, -⟩ | ⟨j, -, hj⟩
      · omega
      · obtain ⟨-, rfl⟩ := Labels.eq_of_singleton hj
        exact fun t ht => (htypes t ht).grow hext.grows
    · rcases Graph.has_addDispatch hen with hen | rfl
      · exact .inl hen
      · exact .inr trivial
  have hnotice := Graph.grows_notice (g.addDispatch s receiver args).1 n
  refine .next (hT'.change hS' hnotice rfl fun hen => .inl (Graph.has_notice hen))
    fun task htask => ?_
  rcases List.mem_append.mp htask with htask | htask
  · obtain ⟨r, as, rfl, -⟩ := Graph.mem_memberTasks.mp htask
    intro a ha
    obtain ⟨t, ht, hat⟩ := Graph.exists_of_memberTasks htask ha
    exact ((htypes t ht).member hat).grow (hext.grows.trans hnotice)
  · simp only [List.mem_cons, List.not_mem_nil, or_false] at htask
    rcases htask with rfl | rfl <;> trivial

/-- The labels of a new instance are those of its body and of its variables. -/
theorem Tame.specialized {c : NodeId} (s : Site) (hc : L.IsCall c) {receiver : Option Ty}
    {args : List Ty}
    (htypes : ∀ t ∈ receiver.toList ++ args, t.Tame names g) {method : NodeId} {m : Method}
    {v : WalkId} {r : NodeId} {k : Option String} {nm : Token} {ps : List Token} {body : Expr}
    (hm : L method = some (.node v r k (.method nm ps body))) :
    Tame.Keeps names (L.specialized g body (instanceInputs m.params receiver args))
      ((g.specialized c s method m.params body receiver args).next
        [.visit g.walks.size body g.cells.size, .finish c g.instances.size,
          .subscribe g.cells.size c .merge, .aim c (.inst g.instances.size)]) := by
  have hkeep := keeps_specialized hS (fun t ht => (htypes t ht).valid) (m := m) hm s hc
  have hwithin := (hT.within hm).body
  have hinputs : ∀ p ∈ instanceInputs m.params receiver args, p.2.Tame names g := by
    intro p hp
    rcases List.mem_append.mp hp with hp | hp
    · obtain ⟨t, ht, rfl⟩ := List.mem_map.mp hp
      exact htypes t (List.mem_append_left _ ht)
    · exact htypes p.2 (List.mem_append_right _ (List.of_mem_zip hp).2)
  have hgrows := hkeep.extend.grows
  refine .next (hT.extend hkeep.extend (fun i o ho => .inl ?_) (fun n l hn hlabel => ?_)
    fun hen => ?_) fun task htask => ?_
  · rwa [← objects_withBody g body (instanceInputs m.params receiver args)
      (receiver.bind Ty.atom?)]
  · rcases Labels.append_cases hlabel with ⟨-, hlabel⟩ | ⟨j, -, hj⟩
    · rcases Labels.append_cases hlabel with ⟨hlt, -⟩ | ⟨j, -, hj⟩
      · omega
      · obtain ⟨q, hq, -, rfl⟩ := Labels.mem_ofTree hj
        exact hwithin.stop hq
    · simp only [Labels.ofInputs, List.getElem?_map, List.getElem?_mapIdx,
        Option.map_eq_some_iff, Option.some.injEq] at hj
      obtain ⟨_, ⟨p, -, rfl⟩, rfl⟩ := hj
      split <;> trivial
  · rcases Graph.has_specialized hen with hen | hen
    · exact .inl hen
    · right
      cases hen with
      | slot hp => exact (hinputs _ (List.mem_of_getElem? hp)).grow hgrows
      | cached hkey =>
          intro t ht
          rcases hkey with rfl | ⟨-, i, hi⟩
          · obtain ⟨t', ht', rfl⟩ := List.mem_map.mp ht
            exact ⟨t', rfl, (htypes t' (List.mem_append_right _ ht')).grow hgrows⟩
          · obtain ⟨t', rfl, ht'⟩ := hT.entries hi t ht
            exact ⟨t', rfl, ht'.grow hgrows⟩
      | inst =>
          intro t ht
          obtain ⟨t', ht', rfl⟩ := List.mem_map.mp ht
          exact ⟨t', rfl, (htypes t' (List.mem_append_right _ ht')).grow hgrows⟩
      | var | self | busy => trivial
  · simp only [List.mem_cons, List.not_mem_nil, or_false] at htask
    rcases htask with rfl | rfl | rfl | rfl <;> trivial

theorem tame_resolve {c : NodeId} (hc : L.IsCall c) (hlinked : g.Linked c) :
    Tame.Keeps names (L.resolved g c) (g.resolve c) := by
  obtain ⟨s, hs, -, hcases⟩ := resolves_resolve hS hlinked
  generalize L.resolved g c = L', g.resolve c = step at hcases
  cases hcases with
  | waiting => exact .next hT (by simp)
  | dispatch | inst => exact .next hT (by simp [Task.Tame])
  | undefined | arity | frozen => exact .fail hT
  | newDispatch n hin => exact tame_newDispatch hS hT hc hs hin n
  | newInst hcalls hfind hm =>
      exact Tame.specialized hS hT s hc (hT.inputs hcalls.inputs) hm

theorem tame_addMember {d : NodeId} {x : Dispatch} (hd : L d = some (.dispatch x))
    {receiver : Option Atom} {args : List Atom} (hlen : args.length = x.args.length)
    (htypes : ∀ a ∈ receiver.toList ++ args, (Ty.one a).Tame names g) :
    Tame.Keeps names (L.joined g d receiver args) (g.addMember d receiver args) := by
  have hkeep := keeps_addMember hS hd hlen fun a ha => (htypes a ha).valid
  obtain ⟨y, hy, -⟩ := Graph.dispatch_of_blank (hS.fits hd).1 rfl
  rw [Graph.addMember_eq hy] at hkeep ⊢
  refine .next (hT.extend hkeep.extend (fun i o ho => .inl ?_) (fun n l hn hlabel => ?_)
    fun hen => ?_) fun task htask => ?_
  · rwa [← (Graph.others_addSlots g (memberSlots receiver args)).1]
  · rcases Labels.append_cases hlabel with ⟨hlt, -⟩ | ⟨j, -, hj⟩
    · omega
    · have hmem := List.mem_of_getElem? hj
      rcases List.mem_append.mp hmem with hmem | hmem
      · obtain ⟨s, -, hs⟩ := List.mem_map.mp hmem
        cases hs
        trivial
      · cases List.mem_singleton.mp hmem
        trivial
  · rcases Graph.has_modifyDispatch hen with hen | ⟨z, k, hz, rfl, hk⟩
    · rcases Graph.has_addCell hen with hen | ⟨k, rfl, hk⟩
      · rcases Graph.has_addSlots hen with hen | ⟨j, s, hs, rfl⟩
        · exact .inl hen
        · right
          rcases List.mem_append.mp (List.mem_of_getElem? hs) with hs | hs <;>
            obtain ⟨a, ha, rfl⟩ := List.mem_map.mp hs
          · exact (htypes a (List.mem_append_left _ ha)).grow hkeep.extend.grows
          · exact (htypes a (List.mem_append_right _ ha)).grow hkeep.extend.grows
      · cases k with
        | typed | cached => cases hk
        | edge | linked | aimed | found | busy | made | member => exact .inr trivial
    · cases k with
      | typed | cached => exact hk.elim
      | edge | linked | aimed | found | busy | made | member => exact .inr trivial
  · simp only [List.mem_cons, List.not_mem_nil, or_false] at htask
    rcases htask with rfl | rfl <;> trivial

theorem tame_perform {task : Task} (hok : task.OK L g) (ht : task.Tame names g) :
    Tame.Keeps names (L.performed g task) (g.perform task) := by
  cases task with
  | visit w e n =>
      obtain ⟨⟨r, k, hn⟩, -⟩ := hok
      exact tame_visit hS hT hn
  | store n t => exact tame_storeType hS hT ht
  | widen n t => exact tame_widenType hS hT ht
  | subscribe s o r => exact tame_subscribe hS hT
  | deliver s o r => exact tame_react hS hT hok fun t h => hT.typed h
  | react s o r t =>
      obtain ⟨s', t', rfl, rfl, he, -⟩ := hok
      exact tame_react hS hT he ht
  | notify n => exact hok.elim
  | bind w p n =>
      obtain ⟨⟨r, k, v, hn⟩, -⟩ := hok
      exact tame_bind hS hT hn
  | resolve c => exact tame_resolve hS hT hok.2 hok.1
  | aim c t =>
      exact .next (Tame.modifySite (f := fun s => { s with target := some t }) hS hT (fun _ => rfl)
        fun _ h => h) (by simp)
  | member d r as =>
      obtain ⟨x, hd, hlen, -⟩ := hok
      exact tame_addMember hS hT hd hlen ht
  | markNew c =>
      exact .next (Tame.modifySite (f := fun s => { s with isNew := true }) hS hT (fun _ => rfl)
        fun _ h => h) (by simp)
  | finish c i =>
      exact .next (Tame.modifySite (f := fun s => { s with busy := false }) hS hT (fun _ => rfl)
        fun _ h => h) (by simp)
  | leave w outer =>
      exact .next (Tame.modifyWalk (f := fun x => { x with klass := outer }) hS hT fun _ => rfl)
        (by simp)

end steps

theorem Tame.Config.step {g' : Graph} {task : Task} {tasks rest : List Task}
    (hS : Sound.Config L (g, task :: rest)) (hT : Tame.Config names L (g, task :: rest))
    (hp : g.perform task = (g', .ok tasks)) :
    Tame.Config names (L.performed g task) (g', tasks ++ rest) := by
  have hkeep := tame_perform hS.graph hT.graph (hS.tasks task (List.mem_cons_self ..))
    (hT.tasks task (List.mem_cons_self ..))
  have hgrows := (hS.step hp).1.grows
  rw [hp] at hkeep
  refine ⟨hkeep.graph, fun t ht => ?_⟩
  rcases List.mem_append.mp ht with ht | ht
  · exact hkeep.tasks tasks rfl t ht
  · exact (hT.tasks t (List.mem_cons_of_mem _ ht)).grow hgrows

/-! ## The start -/

namespace Graph

/-- There are no object types yet, and all types are built in. -/
structure IsBare (names : List String) (g : Graph) : Prop where
  objects : g.objects = #[]
  entries : ∀ {e}, g.Has e → e.Tame names g

/-- A change that keeps to the built-in types. -/
theorem IsBare.grow (hg : g.IsBare names) {g' : Graph} (hgrows : Grows g g')
    (hobj : g'.objects = g.objects) (hent : ∀ {e}, g'.Has e → g.Has e ∨ e.Tame names g') :
    g'.IsBare names where
  objects := hobj.trans hg.objects
  entries := by
    intro e h
    rcases hent h with h | h
    · exact (hg.entries h).grow hgrows
    · exact h

theorem IsBare.addSignature (hg : g.IsBare names) {method : NodeId} {params : List String}
    {result : String} (hparams : ∀ t ∈ params, t ∈ Builtin.typeNames)
    (hresult : result ∈ Builtin.typeNames) {g' : Graph}
    (h : g.addSignature? method (params.map fun t => some (.prim t)) (some (.prim result)) =
      some g') : g'.IsBare names := by
  unfold addSignature? at h
  obtain ⟨m, -, h⟩ := Option.bind_eq_some_iff.mp h
  obtain ⟨-, -, h⟩ := Option.bind_eq_some_iff.mp h
  cases h
  have hcell : (g.addCell { role := .result, type := some (.prim result) }).1.IsBare names := by
    refine hg.grow (grows_addCell g _) rfl fun {e} hen => ?_
    rcases has_addCell hen with hen | ⟨k, rfl, hk⟩
    · exact .inl hen
    · cases k with
      | typed t =>
          cases hk
          exact .inr (Ty.Tame.prim hresult)
      | edge => cases hk
      | _ => exact hk.elim
  have htypes : ∀ g'' : Graph, ∀ t ∈ params.map fun t => some (Ty.prim t),
      ∃ t', t = some t' ∧ t'.Tame names g'' := by
    intro g'' t ht
    obtain ⟨x, hx, rfl⟩ := List.mem_map.mp ht
    exact ⟨_, rfl, Ty.Tame.prim (hparams x hx)⟩
  refine hcell.grow (grows_addInstance _ _) rfl fun {e} hen => ?_
  rcases has_addInstance hen with hen | rfl | ⟨key, rfl, hkey⟩
  · exact .inl hen
  · exact .inr (htypes _)
  · refine .inr ?_
    rcases hkey with rfl | ⟨-, i, hi⟩
    · exact htypes _
    · exact (hcell.entries hi).grow (grows_addInstance _ _)

theorem IsBare.addBuiltin (hg : g.IsBare names) {b : Builtin}
    (hb : ∀ s ∈ b.signatures, (∀ t ∈ s.1, t ∈ Builtin.typeNames) ∧ s.2 ∈ Builtin.typeNames) :
    (g.addBuiltin b).IsBare names := by
  have hdone : (g.addSignatures b).IsBare names := by
    refine addSignatures_induction (hg.grow (grows_addCell g _) rfl fun {e} hen => ?_)
      fun s hs g₁ g₂ h₁ h => h₁.addSignature (hb s hs).1 (hb s hs).2 h
    rcases has_addCell hen with hen | ⟨k, rfl, hk⟩
    · exact .inl hen
    · cases k <;> cases hk
  rw [addBuiltin_eq]
  cases b.owner with
  | none =>
      refine hdone.grow (grows_append (fun _ _ => rfl) rfl id id) rfl fun {e} hen => ?_
      cases e with
      | method => exact .inr trivial
      | mark | var | field | inst | dispatch | self | klass => exact .inl hen
  | some owner =>
      refine hdone.grow (grows_append (fun _ _ => rfl) rfl id id) rfl fun {e} hen => ?_
      cases e with
      | method => exact .inr trivial
      | mark | var | field | inst | dispatch | self | klass => exact .inl hen

theorem isBare_withBuiltins (names : List String) : withBuiltins.IsBare names := by
  have hall : ∀ b ∈ Builtin.all, ∀ s ∈ b.signatures,
      (∀ t ∈ s.1, t ∈ Builtin.typeNames) ∧ s.2 ∈ Builtin.typeNames := by decide
  refine withBuiltins_induction ⟨rfl, fun {e} h => ?_⟩ fun b hb g hg => hg.addBuiltin (hall b hb)
  cases e with
  | mark | inst => simp [Has] at h
  | var | field | method | dispatch | self | klass => trivial

end Graph

/-- The walk over a program without instance variables starts with all types known by name. -/
theorem Tame.Config.loaded {tree : Expr} (h : tree.Within names) :
    Tame.Config names (Labels.loaded tree) (Graph.loaded tree, [.visit 0 tree rootOf]) := by
  have hbare := Graph.isBare_withBuiltins names
  refine ⟨⟨fun {i o} ho => ?_, fun {n l} hl => ?_, fun {e} he => ?_⟩, by simp [Task.Tame]⟩
  · rw [Graph.loaded, start_eq] at ho
    simp only [Graph.plant, Graph.addWalk, hbare.objects] at ho
    simp at ho
  · rcases Labels.append_cases hl with ⟨-, hl⟩ | ⟨j, -, hj⟩
    · unfold Labels.builtins at hl
      split at hl
      · cases hl
        trivial
      · cases hl
    · obtain ⟨q, hq, -, rfl⟩ := Labels.mem_ofTree hj
      exact h.stop hq
  · have hgrows : Graph.Grows Graph.withBuiltins (Graph.loaded tree) := by
      rw [Graph.loaded, start_eq]
      exact (Graph.grows_addWalk _ _).trans (Graph.grows_plant _ _)
    rw [Graph.loaded, start_eq] at he
    dsimp only at he
    generalize Graph.withBuiltins = g at he hbare hgrows
    rcases Graph.has_addWalk (Graph.has_plant he) with he | ⟨x, v, rfl, hv⟩ | ⟨i, rfl, hi⟩
    · exact (hbare.entries he).grow hgrows
    · cases hv
    · cases hi

end TypeFlow
