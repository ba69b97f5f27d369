import TypeFlow.Proofs.Entries
import TypeFlow.Proofs.Stops
import TypeFlow.Proofs.Runs
import Mathlib.Data.List.Forall2

/-! # What the cells are for

A labelling tells of each cell what it is for. It is not part of the graph: a run only shows that
there is one. Cells without a label are those of method bodies that wait to be copied, and of
what is written inside the construction of a new object; nothing is ever recorded in them. -/

namespace TypeFlow

/-- What a cell is for. -/
inductive Label where
  /-- A node that a walk comes to, of the tree at a root. -/
  | node (walk : WalkId) (root : NodeId) (klass : Option String) (expr : Expr)
  | var (walk : WalkId) (name : String)
  | field (object : ObjId) (name : String)
  /-- A variable whose type is given once and for all. -/
  | input (type : Ty)
  | dispatch (dispatch : Dispatch)
  | member (dispatch : NodeId) (receiver : Option Atom) (args : List Atom)
  | builtin

abbrev Labels := NodeId → Option Label

/-- The type of such a cell never changes. -/
def Label.isFixed : Label → Bool
  | .input _ | .builtin => true
  | _ => false

namespace Labels

/-- Types may be merged into a cell. -/
def IsOpen (L : Labels) (n : NodeId) : Prop := ∃ l, L n = some l ∧ l.isFixed = false

/-- A call that is resolved, not the construction of a new object. -/
def IsCall (L : Labels) (c : NodeId) : Prop :=
  (∃ w r k rc n as p, L c = some (.node w r k (.call rc n as p)) ∧
    (Expr.call rc n as p).isNew = false) ∨ ∃ d r as, L c = some (.member d r as)

def IsDispatch (L : Labels) (d : NodeId) : Prop := ∃ x, L d = some (.dispatch x)

end Labels

/-! ## What types, edges and instances are like -/

/-- Object types exist, and a union keeps at least two members. -/
def Ty.Valid (g : Graph) (t : Ty) : Prop :=
  (∀ i, .obj i ∈ t.members → ∃ o, g.objects[i]? = some o) ∧
    match t with
    | .one _ => True
    | .union ms key => key = ms ∧ 2 ≤ ms.length

namespace Graph

/-- Only the inputs of a call make it resolve itself, and nothing else do they tell it. -/
def EdgeOK (L : Labels) (g : Graph) (s o : NodeId) (r : Reaction) : Prop :=
  L s ≠ none ∧ L.IsOpen o ∧
    match r with
    | .merge => s ∉ g.inputsOf o
    | .resolve => s ∈ g.inputsOf o ∧ L.IsCall o ∧ g.Linked o
    | .other _ => False

/-- A method that can be called: one that a walk came to, or a built-in one. -/
def MethodOK (L : Labels) (g : Graph) (m : NodeId) : Prop :=
  (∃ w r k n ps b, L m = some (.node w r k (.method n ps b))) ∨
    L m = some .builtin ∧ ∃ c x, g.blank m = some c ∧ c.role = .method x ∧
      (x.source = .external ∨ ∃ owner, x.source = .builtin (some owner))

def InstOK (L : Labels) (g : Graph) (x : Instance) : Prop :=
  (x.walk = none ∧ L x.body = some .builtin) ∨
    ∃ w v r k n ps b, x.walk = some w ∧ (∃ y, g.walks[w]? = some y) ∧
      L x.method = some (.node v r k (.method n ps b)) ∧
      L x.body = some (.node w x.body none b)

def TargetOK (L : Labels) (g : Graph) : Target → Prop
  | .inst i => ∃ x, g.instances[i]? = some x
  | .dispatch d => L.IsDispatch d

end Graph

/-- The variables of a call with chosen types have these types. -/
def Site.Takes (L : Labels) (s : Site) (receiver : Option Atom) (args : List Atom) : Prop :=
  List.Forall₂ (fun v a => L v = some (.input (.one a))) s.receiver.toList receiver.toList ∧
    List.Forall₂ (fun v a => L v = some (.input (.one a))) s.args args

/-- What a cell is like that is for something. -/
def Label.Fits (L : Labels) (g : Graph) (n : NodeId) : Label → Prop
  | .node w r k e =>
      g.blank n = some { role := Graph.freshRole n e, extent := e.size } ∧ r ≤ n ∧
        (∀ p ∈ e.parts k n, L p.node = some (.node w r p.klass p.expr)) ∧
        ∀ name ps b, e = .method name ps b → ∀ p ∈ b.nodes (n + 1),
          L p.1 = none ∧ g.blank p.1 = some { role := Graph.freshRole p.1 p.2, extent := p.2.size }
  | .var _ _ | .field _ _ | .input _ => ∃ x, g.blank n = some { role := .slot x }
  | .dispatch d =>
      g.blank n = some { role := .dispatch d } ∧
        ∃ w r k rc as p, L d.origin = some (.node w r k (.call rc d.name as p)) ∧
          as.length = d.args.length
  | .member d receiver args =>
      ∃ x s, L d = some (.dispatch x) ∧ g.blank n = some { role := .call s } ∧
        s.name = x.name ∧ s.origin = x.origin ∧ args.length = x.args.length ∧
        s.Takes L receiver args
  | .builtin => True

/-- What may be recorded where. -/
def Entry.OK (L : Labels) (g : Graph) : Entry → Prop
  | .mark n (.typed t) => L n ≠ none ∧ t.Valid g ∧ ∀ t', L n = some (.input t') → t = t'
  | .mark n (.edge o r) => g.EdgeOK L n o r
  | .mark n .linked | .mark n .found => L.IsCall n
  | .mark n (.aimed t) => L.IsCall n ∧ g.TargetOK L t
  | .mark n .busy | .mark n .made => L n ≠ none
  | .mark n (.cached _ i) => g.MethodOK L n ∧ ∃ x, g.instances[i]? = some x ∧ x.method = n
  | .mark n (.member _ c) => L.IsDispatch n ∧ ∃ r as, L c = some (.member n r as)
  | .var w x v => L v = some (.var w x)
  | .field i x v => L v = some (.field i x)
  | .method m => g.MethodOK L m
  | .inst _ x => g.InstOK L x
  | .dispatch d => L.IsDispatch d
  | .self _ i => ∃ o, g.objects[i]? = some o
  | .klass name i => ∃ o, g.objects[i]? = some o ∧ o.name = name

/-- What the tasks that wait are like. -/
def Task.OK (L : Labels) (g : Graph) : Task → Prop
  | .visit w e n => (∃ r k, L n = some (.node w r k e)) ∧ ∃ x, g.walks[w]? = some x
  | .store n t => (∃ w r k e, L n = some (.node w r k e)) ∧ t.Valid g
  | .widen n t => L.IsOpen n ∧ t.Valid g
  | .subscribe s o r | .deliver s o r => g.EdgeOK L s o r
  | .react s o r t => ∃ s' t', s = some s' ∧ t = some t' ∧ g.EdgeOK L s' o r ∧ t'.Valid g
  | .notify _ => False
  | .bind w p n => (∃ r k v, L n = some (.node w r k (.assign p v))) ∧ ∃ x, g.walks[w]? = some x
  | .resolve c => g.Linked c ∧ L.IsCall c
  | .aim c t => L.IsCall c ∧ g.TargetOK L t
  | .member d r as =>
      ∃ x, L d = some (.dispatch x) ∧ as.length = x.args.length ∧
        (∀ a ∈ r.toList ++ as, (Ty.one a).Valid g)
  | .markNew c => L c ≠ none
  | .finish c i => L c ≠ none ∧ ∃ x, g.instances[i]? = some x
  | .leave _ _ => True

/-- A labelling tells of all that is recorded why it is. -/
structure Sound (L : Labels) (g : Graph) : Prop where
  bound : ∀ {n : Nat} {l}, L n = some l → n < g.cells.size
  fits : ∀ {n l}, L n = some l → l.Fits L g n
  entries : ∀ {e}, g.Has e → e.OK L g

/-- A labelling of the graph for which the waiting tasks make sense. -/
structure Sound.Config (L : Labels) (c : Graph.Config) : Prop where
  graph : Sound L c.1
  tasks : ∀ t ∈ c.2, t.OK L c.1

/-! ## Later labellings -/

/-- A graph that has grown, with labels for what is new in it. -/
structure Extends (L : Labels) (g : Graph) (L' : Labels) (g' : Graph) : Prop where
  grows : Graph.Grows g g'
  label : ∀ n : Nat, n < g.cells.size → L' n = L n

namespace Extends

variable {L L' : Labels} {g g' : Graph}

theorem refl (L : Labels) (g : Graph) : Extends L g L g := ⟨.refl g, fun _ _ => rfl⟩

theorem of_grows (h : Graph.Grows g g') : Extends L g L g' := ⟨h, fun _ _ => rfl⟩

variable (h : Extends L g L' g') (hS : Sound L g)
include h hS

theorem keeps {n : NodeId} {l : Label} (hn : L n = some l) : L' n = some l := by
  rw [h.label n (hS.bound hn), hn]

theorem eq_of_ne {n : NodeId} (hn : L n ≠ none) : L' n = L n := by
  obtain ⟨l, hl⟩ := Option.ne_none_iff_exists'.mp hn
  rw [h.keeps hS hl, hl]

theorem ne_none {n : NodeId} (hn : L n ≠ none) : L' n ≠ none := by rwa [h.eq_of_ne hS hn]

theorem isCall {c : NodeId} (hc : L.IsCall c) : L'.IsCall c := by
  rcases hc with ⟨w, r, k, rc, n, as, p, hc, hnew⟩ | ⟨d, r, as, hc⟩
  · exact .inl ⟨w, r, k, rc, n, as, p, h.keeps hS hc, hnew⟩
  · exact .inr ⟨d, r, as, h.keeps hS hc⟩

theorem isDispatch {d : NodeId} (hd : L.IsDispatch d) : L'.IsDispatch d := by
  obtain ⟨x, hx⟩ := hd
  exact ⟨x, h.keeps hS hx⟩

theorem isOpen {n : NodeId} (hn : L.IsOpen n) : L'.IsOpen n := by
  obtain ⟨l, hl, hfixed⟩ := hn
  exact ⟨l, h.keeps hS hl, hfixed⟩

omit hS in
theorem valid {t : Ty} (ht : t.Valid g) : t.Valid g' := by
  refine ⟨fun i hi => ?_, ht.2⟩
  obtain ⟨o, ho⟩ := ht.1 i hi
  obtain ⟨o', ho', _⟩ := h.grows.object ho
  exact ⟨o', ho'⟩

omit hS in
theorem walk {w : WalkId} (hw : ∃ x, g.walks[w]? = some x) : ∃ x, g'.walks[w]? = some x := by
  obtain ⟨x, hx⟩ := hw
  obtain ⟨x', hx', _⟩ := h.grows.walk hx
  exact ⟨x', hx'⟩

theorem edge {s o : NodeId} {r : Reaction} (he : g.EdgeOK L s o r) : g'.EdgeOK L' s o r := by
  obtain ⟨hs, ho, hr⟩ := he
  have hinputs : g'.inputsOf o = g.inputsOf o := by
    obtain ⟨l, hl, -⟩ := ho
    exact h.grows.inputsOf (hS.bound hl)
  refine ⟨h.ne_none hS hs, h.isOpen hS ho, ?_⟩
  cases r with
  | merge => rwa [hinputs]
  | resolve => exact ⟨by rw [hinputs]; exact hr.1, h.isCall hS hr.2.1, h.grows.linked hr.2.2⟩
  | other => exact hr

theorem method {m : NodeId} (hm : g.MethodOK L m) : g'.MethodOK L' m := by
  rcases hm with ⟨w, r, k, n, ps, b, hm⟩ | ⟨hm, c, x, hc, hx⟩
  · exact .inl ⟨w, r, k, n, ps, b, h.keeps hS hm⟩
  · exact .inr ⟨h.keeps hS hm, c, x, h.grows.blank hc, hx⟩

theorem inst {x : Instance} (hx : g.InstOK L x) : g'.InstOK L' x := by
  rcases hx with ⟨hw, hb⟩ | ⟨w, v, r, k, n, ps, b, hw, hwalk, hm, hb⟩
  · exact .inl ⟨hw, h.keeps hS hb⟩
  · exact .inr ⟨w, v, r, k, n, ps, b, hw, h.walk hwalk, h.keeps hS hm, h.keeps hS hb⟩

theorem target {t : Target} (ht : g.TargetOK L t) : g'.TargetOK L' t := by
  cases t with
  | inst i =>
      obtain ⟨x, hx⟩ := ht
      exact ⟨x, h.grows.inst hx⟩
  | dispatch d => exact h.isDispatch hS ht

theorem takes {s : Site} {receiver : Option Atom} {args : List Atom}
    (ht : s.Takes L receiver args) : s.Takes L' receiver args :=
  ⟨ht.1.imp fun _ _ hv => h.keeps hS hv, ht.2.imp fun _ _ hv => h.keeps hS hv⟩

theorem fits {n : NodeId} {l : Label} (hl : l.Fits L g n) : l.Fits L' g' n := by
  cases l with
  | node w r k e =>
      obtain ⟨hb, hr, hparts, hbody⟩ := hl
      refine ⟨h.grows.blank hb, hr, fun p hp => h.keeps hS (hparts p hp), ?_⟩
      intro name ps b he p hp
      obtain ⟨hnone, hblank⟩ := hbody name ps b he p hp
      exact ⟨by rw [h.label _ (Graph.lt_size_of_blank hblank), hnone], h.grows.blank hblank⟩
  | var | field | input =>
      obtain ⟨x, hx⟩ := hl
      exact ⟨x, h.grows.blank hx⟩
  | dispatch d =>
      obtain ⟨hb, w, r, k, rc, as, p, hc, hlen⟩ := hl
      exact ⟨h.grows.blank hb, w, r, k, rc, as, p, h.keeps hS hc, hlen⟩
  | member d receiver args =>
      obtain ⟨x, s, hd, hb, hname, horigin, hlen, htakes⟩ := hl
      exact ⟨x, s, h.keeps hS hd, h.grows.blank hb, hname, horigin, hlen, h.takes hS htakes⟩
  | builtin => trivial

theorem entry {en : Entry} (he : en.OK L g) : en.OK L' g' := by
  cases en with
  | mark n k =>
      cases k with
      | typed t =>
          obtain ⟨hn, ht, hinput⟩ := he
          exact ⟨h.ne_none hS hn, h.valid ht, by rw [h.eq_of_ne hS hn]; exact hinput⟩
      | edge o r => exact h.edge hS he
      | linked | found => exact h.isCall hS he
      | aimed t => exact ⟨h.isCall hS he.1, h.target hS he.2⟩
      | busy | made => exact h.ne_none hS he
      | cached key i =>
          obtain ⟨hm, x, hx, hmethod⟩ := he
          exact ⟨h.method hS hm, x, h.grows.inst hx, hmethod⟩
      | member key c =>
          obtain ⟨hd, r, as, hc⟩ := he
          exact ⟨h.isDispatch hS hd, r, as, h.keeps hS hc⟩
  | var | field => exact h.keeps hS he
  | method => exact h.method hS he
  | inst => exact h.inst hS he
  | dispatch => exact h.isDispatch hS he
  | self w i =>
      obtain ⟨o, ho⟩ := he
      obtain ⟨o', ho', -⟩ := h.grows.object ho
      exact ⟨o', ho'⟩
  | klass name i =>
      obtain ⟨o, ho, hname⟩ := he
      obtain ⟨o', ho', hname', -⟩ := h.grows.object ho
      exact ⟨o', ho', hname'.trans hname⟩

theorem task {t : Task} (ht : t.OK L g) : t.OK L' g' := by
  cases t with
  | visit w e n =>
      obtain ⟨⟨r, k, hn⟩, hw⟩ := ht
      exact ⟨⟨r, k, h.keeps hS hn⟩, h.walk hw⟩
  | store n t =>
      obtain ⟨⟨w, r, k, e, hn⟩, hvalid⟩ := ht
      exact ⟨⟨w, r, k, e, h.keeps hS hn⟩, h.valid hvalid⟩
  | widen n t =>
      exact ⟨h.isOpen hS ht.1, h.valid ht.2⟩
  | subscribe s o r | deliver s o r => exact h.edge hS ht
  | react s o r t =>
      obtain ⟨s', t', rfl, rfl, he, hvalid⟩ := ht
      exact ⟨s', t', rfl, rfl, h.edge hS he, h.valid hvalid⟩
  | notify => exact ht
  | bind w p n =>
      obtain ⟨⟨r, k, v, hn⟩, hw⟩ := ht
      exact ⟨⟨r, k, v, h.keeps hS hn⟩, h.walk hw⟩
  | resolve c => exact ⟨h.grows.linked ht.1, h.isCall hS ht.2⟩
  | aim c t => exact ⟨h.isCall hS ht.1, h.target hS ht.2⟩
  | member d r as =>
      obtain ⟨x, hd, hlen, hvalid⟩ := ht
      exact ⟨x, h.keeps hS hd, hlen, fun a ha => h.valid (hvalid a ha)⟩
  | markNew => exact h.ne_none hS ht
  | finish c i =>
      obtain ⟨hc, x, hx⟩ := ht
      exact ⟨h.ne_none hS hc, x, h.grows.inst hx⟩
  | leave => trivial

/-- A change keeps a labelling sound if what it adds is sound. -/
theorem sound (hbound : ∀ {n : Nat} {l}, L' n = some l → n < g'.cells.size)
    (hnew : ∀ {n : Nat} {l}, g.cells.size ≤ n → L' n = some l → l.Fits L' g' n)
    (hentries : ∀ {en}, g'.Has en → g.Has en ∨ en.OK L' g') : Sound L' g' where
  bound := hbound
  fits := by
    intro n l hl
    by_cases hn : n < g.cells.size
    · exact h.fits hS (hS.fits (by rwa [← h.label n hn]))
    · exact hnew (Nat.le_of_not_lt hn) hl
  entries := by
    intro en hen
    rcases hentries hen with hen | hen
    · exact h.entry hS (hS.entries hen)
    · exact hen

end Extends

/-! ## Labels of new cells -/

/-- A labelling of a graph with more cells. -/
def Labels.append (L : Labels) (g : Graph) (ls : List (Option Label)) : Labels :=
  fun (n : Nat) => if n < g.cells.size then L n else ls[n - g.cells.size]?.join

theorem Labels.eq_of_singleton {l l' : Label} {j : Nat} (h : [some l][j]? = some (some l')) :
    j = 0 ∧ l' = l := by
  cases j with
  | zero => simpa [eq_comm] using h
  | succ j => simp at h

section append

variable (L : Labels) (g : Graph) {ls : List (Option Label)}

theorem Labels.append_old {n : Nat} (hn : n < g.cells.size) : L.append g ls n = L n := if_pos hn

theorem Labels.append_new {j : Nat} {l : Label} (hj : ls[j]? = some (some l)) :
    L.append g ls (g.cells.size + j) = some l := by
  simp [append, hj]

theorem Labels.append_size (l : Label) : L.append g [some l] g.cells.size = some l :=
  L.append_new g (j := 0) rfl

variable {L g}

theorem Labels.append_cases {n : Nat} {l : Label} (hn : L.append g ls n = some l) :
    n < g.cells.size ∧ L n = some l ∨ ∃ j, n = g.cells.size + j ∧ ls[j]? = some (some l) := by
  unfold append at hn
  split at hn
  · next hlt => exact .inl ⟨hlt, hn⟩
  · next hge => exact .inr ⟨n - g.cells.size, by omega, Option.join_eq_some_iff.mp hn⟩

/-- New cells with labels keep a labelling sound if the labels fit. -/
theorem Sound.append (hS : Sound L g) {g' : Graph} (ls : List (Option Label))
    (hg : Graph.Grows g g')
    (hsize : g'.cells.size = g.cells.size + ls.length)
    (hfits : ∀ (j : Nat) (l : Label), ls[j]? = some (some l) →
      l.Fits (L.append g ls) g' (g.cells.size + j))
    (hentries : ∀ {en}, g'.Has en → g.Has en ∨ en.OK (L.append g ls) g') :
    Extends L g (L.append g ls) g' ∧ Sound (L.append g ls) g' := by
  have hext : Extends L g (L.append g ls) g' := ⟨hg, fun n hn => L.append_old g hn⟩
  refine ⟨hext, hext.sound hS (fun {n l} hn => ?_) (fun {n l} hle hn => ?_) hentries⟩
  · rcases Labels.append_cases hn with ⟨hlt, -⟩ | ⟨j, rfl, hj⟩
    · omega
    · have := (List.getElem?_eq_some_iff.mp hj).1
      omega
  · rcases Labels.append_cases hn with ⟨hlt, -⟩ | ⟨j, rfl, hj⟩
    · omega
    · exact hfits j l hj

end append

end TypeFlow
