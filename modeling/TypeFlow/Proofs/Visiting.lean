import TypeFlow.Proofs.Reactions

/-! # Walking over a tree keeps the labelling -/

namespace TypeFlow

variable {L : Labels} {g : Graph}

/-! ## Nodes and their parts -/

theorem Sound.part (hS : Sound L g) {w : WalkId} {r n : NodeId} {k : Option String} {e : Expr}
    (hn : L n = some (.node w r k e)) {p : Stop} (hp : p ∈ e.parts k n) :
    L p.node = some (.node w r p.klass p.expr) :=
  (hS.fits hn).2.2.1 p hp

/-- All nodes that a walk comes to below a node are labelled. -/
theorem Sound.stop (hS : Sound L g) {w : WalkId} {r n : NodeId} {k : Option String} {e : Expr}
    (hn : L n = some (.node w r k e)) {q : Stop} (hq : q ∈ e.stops k n) :
    L q.node = some (.node w r q.klass q.expr) := by
  induction e using Expr.indParts generalizing k n with
  | h e ih =>
      rcases Expr.mem_stops_iff.mp hq with rfl | ⟨p, hp, hqp⟩
      · exact hn
      · exact ih k n p hp (hS.part hn hp) hqp

theorem Sound.inputsOf_node (hS : Sound L g) {w : WalkId} {r n : NodeId} {k : Option String}
    {e : Expr} (hn : L n = some (.node w r k e)) (he : ∀ rc nm as p, e ≠ .call rc nm as p) :
    g.inputsOf n = [] := by
  have hb := (hS.fits hn).1
  cases e with
  | call rc nm as p => exact absurd rfl (he rc nm as p)
  | _ => simp [Graph.inputsOf, hb, Graph.freshRole]

theorem Sound.inputsOf_call (hS : Sound L g) {w : WalkId} {r n : NodeId} {k : Option String}
    {rc : Option Expr} {nm : Token} {as : List Expr} {p : Bool}
    (hn : L n = some (.node w r k (.call rc nm as p))) :
    g.inputsOf n = (rc.map fun _ => n + 1).toList ++
      (Expr.spread (n + 1 + Expr.sizeOption rc) as).map (·.1) := by
  have hb := (hS.fits hn).1
  simp [Graph.inputsOf, hb, Graph.freshRole, Site.inputs]

theorem Sound.inputsOf_slot (hS : Sound L g) {n : NodeId}
    (hn : (∃ w x, L n = some (.var w x)) ∨ ∃ i x, L n = some (.field i x)) :
    g.inputsOf n = [] := by
  obtain ⟨x, hx⟩ : ∃ x, g.blank n = some { role := .slot x } := by
    rcases hn with ⟨w, x, hn⟩ | ⟨i, x, hn⟩
    · exact hS.fits hn
    · exact hS.fits hn
  simp [Graph.inputsOf, hx]

theorem Sound.edge_node (hS : Sound L g) {w : WalkId} {r s n : NodeId} {k : Option String}
    {e : Expr} (hs : L s ≠ none) (hn : L n = some (.node w r k e))
    (he : ∀ rc nm as p, e ≠ .call rc nm as p) : g.EdgeOK L s n .merge :=
  ⟨hs, ⟨_, hn, rfl⟩, by simp [hS.inputsOf_node hn he]⟩

theorem Sound.edge_slot (hS : Sound L g) {s v : NodeId} (hs : L s ≠ none)
    (hv : (∃ w x, L v = some (.var w x)) ∨ ∃ i x, L v = some (.field i x)) :
    g.EdgeOK L s v .merge := by
  refine ⟨hs, ?_, by simp [hS.inputsOf_slot hv]⟩
  rcases hv with ⟨w, x, hv⟩ | ⟨i, x, hv⟩ <;> exact ⟨_, hv, rfl⟩

theorem Sound.visit_part (hS : Sound L g) {w : WalkId} {r n : NodeId} {k : Option String}
    {e : Expr} (hn : L n = some (.node w r k e)) (hw : ∃ x, g.walks[w]? = some x) {p : Stop}
    (hp : p ∈ e.parts k n) : (Task.visit w p.expr p.node).OK L g :=
  ⟨⟨r, p.klass, hS.part hn hp⟩, hw⟩

/-! ## Places -/

namespace Graph

theorem variableOf_known {w : WalkId} {name : String} {v : NodeId}
    (hv : (g.walk w).vars.lookup name = some v) : g.variableOf w name = (g, v) := by
  simp [variableOf, hv]

/-- The graph with a new variable of a walk. -/
def withVariable (g : Graph) (w : WalkId) (name : String) : Graph :=
  (g.addSlot (some name) none).1.modifyWalk w fun x =>
    { x with vars := x.vars.put name g.cells.size }

theorem variableOf_new {w : WalkId} {name : String}
    (hv : (g.walk w).vars.lookup name = none) :
    g.variableOf w name = (g.withVariable w name, g.cells.size) := by
  simp only [variableOf, hv]
  rfl

theorem grows_withVariable (g : Graph) (w : WalkId) (name : String) :
    Grows g (g.withVariable w name) :=
  (grows_addCell g _).trans (grows_modifyWalk _ _ fun _ => rfl)

/-- A new variable has no type yet. -/
theorem has_withVariable {w : WalkId} {name : String} {e : Entry}
    (h : (g.withVariable w name).Has e) : g.Has e ∨ e = .var w name g.cells.size := by
  rcases has_modifyWalk (f := fun x => { x with vars := x.vars.put name g.cells.size })
    (fun _ => rfl) h with h | ⟨x, v, rfl, hv⟩
  · rcases has_addSlot h with h | ⟨t, ht, -⟩
    · exact .inl h
    · cases ht
  · rcases Table.mem_of_mem_put hv with hv | hv
    · exact .inl hv
    · cases hv
      exact .inr rfl

end Graph

namespace Labels

/-- The labelling after the place of a name was looked up. -/
def placed (L : Labels) (g : Graph) (w : WalkId) (p : Place) : Labels :=
  match p.kind with
  | .localVar =>
      match (g.walk w).vars.lookup p.name.text with
      | some _ => L
      | none => L.append g [some (.var w p.name.text)]
  | .instanceVar =>
      match (g.walk w).self with
      | none => L
      | some i =>
          match g.objects[i]?.bind fun o => o.fields.lookup p.name.text with
          | some _ => L
          | none => L.append g [some (.field i p.name.text)]

theorem placed_known {L : Labels} {g : Graph} {w : WalkId} {p : Place} (hp : p.kind = .localVar)
    {v : NodeId} (hv : (g.walk w).vars.lookup p.name.text = some v) : L.placed g w p = L := by
  simp [placed, hp, hv]

theorem placed_new {L : Labels} {g : Graph} {w : WalkId} {p : Place} (hp : p.kind = .localVar)
    (hv : (g.walk w).vars.lookup p.name.text = none) :
    L.placed g w p = L.append g [some (.var w p.name.text)] := by
  simp [placed, hp, hv]

/-- The cell of a place is a variable of the walk, or a field of the object that it is about. -/
def IsPlace (L : Labels) (g : Graph) (w : WalkId) (p : Place) (v : NodeId) : Prop :=
  match p.kind with
  | .localVar => L v = some (.var w p.name.text)
  | .instanceVar => ∃ i, (g.walk w).self = some i ∧ L v = some (.field i p.name.text)

theorem IsPlace.slot {L : Labels} {g : Graph} {w : WalkId} {p : Place} {v : NodeId}
    (h : L.IsPlace g w p v) : (∃ w x, L v = some (.var w x)) ∨ ∃ i x, L v = some (.field i x) := by
  unfold IsPlace at h
  split at h
  · exact .inl ⟨_, _, h⟩
  · obtain ⟨i, -, h⟩ := h
    exact .inr ⟨i, _, h⟩

end Labels

theorem extends_variableOf (hS : Sound L g) (w : WalkId) {p : Place} (hp : p.kind = .localVar) :
    Extends L g (L.placed g w p) (g.variableOf w p.name.text).1 ∧
      Sound (L.placed g w p) (g.variableOf w p.name.text).1 ∧
      L.placed g w p (g.variableOf w p.name.text).2 = some (.var w p.name.text) := by
  cases hv : (g.walk w).vars.lookup p.name.text with
  | some v =>
      rw [Labels.placed_known hp hv, Graph.variableOf_known hv]
      exact ⟨.refl L g, hS, hS.entries (e := .var w p.name.text v) (Table.mem_of_lookup hv)⟩
  | none =>
      rw [Labels.placed_new hp hv, Graph.variableOf_new hv]
      have hlabel := L.append_size g (.var w p.name.text)
      obtain ⟨hext, hsound⟩ := hS.append [some (.var w p.name.text)]
        (Graph.grows_withVariable g w p.name.text) (Array.size_push ..) (fun j l hj => by
          obtain ⟨rfl, rfl⟩ := Labels.eq_of_singleton hj
          exact ⟨some p.name.text, by
            simp [Graph.blank, Graph.withVariable, Graph.modifyWalk, Graph.addSlot, Graph.addCell,
              Cell.blank, Role.blank]⟩) fun hen => by
          rcases Graph.has_withVariable hen with hen | rfl
          · exact .inl hen
          · exact .inr hlabel
      exact ⟨hext, hsound, hlabel⟩

theorem extends_fieldOf (hS : Sound L g) (w : WalkId) {p : Place} (hp : p.kind = .instanceVar)
    {i : ObjId} (hi : (g.walk w).self = some i) :
    Extends L g (L.placed g w p) (g.fieldOf i p.name.text).1 ∧
      Sound (L.placed g w p) (g.fieldOf i p.name.text).1 ∧
      L.placed g w p (g.fieldOf i p.name.text).2 = some (.field i p.name.text) := by
  unfold Labels.placed Graph.fieldOf
  simp only [hp, hi]
  cases hv : g.objects[i]?.bind fun o => o.fields.lookup p.name.text with
  | some v =>
      obtain ⟨o, ho, hlookup⟩ := Option.bind_eq_some_iff.mp hv
      exact ⟨.refl L g, hS,
        hS.entries (e := .field i p.name.text v) ⟨o, ho, Table.mem_of_lookup hlookup⟩⟩
  | none =>
      have hlabel := L.append_size g (.field i p.name.text)
      have hput := Graph.grows_putField (g.addSlot (some p.name.text) none).1 i p.name.text
        g.cells.size
      obtain ⟨hext, hsound⟩ := hS.append [some (.field i p.name.text)]
        ((Graph.grows_addCell g _).trans hput) (Array.size_push ..) (fun j l hj => by
          obtain ⟨rfl, rfl⟩ := Labels.eq_of_singleton hj
          exact ⟨some p.name.text, by
            simp [Graph.blank, Graph.putField, Graph.addSlot, Graph.addCell, Cell.blank,
              Role.blank]⟩) fun hen => by
          rcases Graph.has_putField hen with hen | rfl
          · rcases Graph.has_addSlot hen with hen | ⟨t, ht, -⟩
            · exact .inl hen
            · cases ht
          · exact .inr hlabel
      exact ⟨hext, hsound, hlabel⟩

theorem extends_placeOf (hS : Sound L g) (w : WalkId) (p : Place) (n : NodeId) :
    Extends L g (L.placed g w p) (g.placeOf w p n).1 ∧ Sound (L.placed g w p) (g.placeOf w p n).1 ∧
      (∀ v, (g.placeOf w p n).2 = .ok v → (L.placed g w p).IsPlace (g.placeOf w p n).1 w p v) ∧
      ∀ f, (g.placeOf w p n).2 = .error f → ∃ e, f = .inference e := by
  cases hp : p.kind with
  | localVar =>
      obtain ⟨hext, hsound, hv⟩ := extends_variableOf hS w hp
      have hplace : g.placeOf w p n =
          ((g.variableOf w p.name.text).1, .ok (g.variableOf w p.name.text).2) := by
        simp [Graph.placeOf, hp]
      rw [hplace]
      refine ⟨hext, hsound, ?_, by simp⟩
      intro v h
      cases h
      simpa [Labels.IsPlace, hp] using hv
  | instanceVar =>
      cases hi : (g.walk w).self with
      | none =>
          have hplaced : L.placed g w p = L := by simp [Labels.placed, hp, hi]
          rw [hplaced]
          simp only [Graph.placeOf, hp, hi]
          refine ⟨.refl L g, hS, ?_, ?_⟩
          · intro v h
            cases h
          · intro f h
            cases h
            exact ⟨_, rfl⟩
      | some i =>
          obtain ⟨hext, hsound, hv⟩ := extends_fieldOf hS w hp hi
          have hplace : g.placeOf w p n =
              ((g.fieldOf i p.name.text).1, .ok (g.fieldOf i p.name.text).2) := by
            simp [Graph.placeOf, hp, hi]
          rw [hplace]
          refine ⟨hext, hsound, ?_, by simp⟩
          intro v h
          cases h
          have hself : ((g.fieldOf i p.name.text).1.walk w).self = some i := by
            unfold Graph.fieldOf
            split <;> exact hi
          simpa [Labels.IsPlace, hp, hself] using hv

theorem keeps_read (hS : Sound L g) {w : WalkId} {r n : NodeId} {k : Option String} {p : Place}
    (hn : L n = some (.node w r k (.place p))) :
    Keeps L g (L.placed g w p) (g.visit w (.place p) n) := by
  obtain ⟨hext, hsound, hok, herr⟩ := extends_placeOf hS w p n
  rw [Graph.visit]
  split
  · next g' v h =>
      rw [h] at hext hsound hok
      refine .next hext hsound fun task htask => ?_
      obtain rfl := List.mem_singleton.mp htask
      have hv := (hok v rfl).slot
      refine hsound.edge_node ?_ (hext.keeps hS hn) (by simp)
      rcases hv with ⟨_, _, hv⟩ | ⟨_, _, hv⟩ <;> simp [hv]
  · next g' f h =>
      rw [h] at hext hsound herr
      obtain ⟨e, rfl⟩ := herr f rfl
      exact .fail hext hsound

theorem keeps_bind (hS : Sound L g) {w : WalkId} {r n : NodeId} {k : Option String} {p : Place}
    {v : Expr} (hn : L n = some (.node w r k (.assign p v))) :
    Keeps L g (L.placed g w p) (g.bind w p n) := by
  obtain ⟨hext, hsound, hok, herr⟩ := extends_placeOf hS w p (n + 1)
  have htarget : L (n + 1) = some (.node w r k (.place p)) :=
    hS.part hn (p := ⟨n + 1, k, .place p⟩) (by simp [Expr.parts])
  rw [Graph.bind]
  split
  · next g' u h =>
      rw [h] at hext hsound hok
      refine .next hext hsound fun task htask => ?_
      have hu := (hok u rfl).slot
      simp only [List.mem_cons, List.not_mem_nil, or_false] at htask
      rcases htask with rfl | rfl
      · exact hsound.edge_slot (by simp [hext.keeps hS hn]) hu
      · refine hsound.edge_node ?_ (hext.keeps hS htarget) (by simp)
        rcases hu with ⟨_, _, hu⟩ | ⟨_, _, hu⟩ <;> simp [hu]
  · next g' f h =>
      rw [h] at hext hsound herr
      obtain ⟨e, rfl⟩ := herr f rfl
      exact .fail hext hsound

/-! ## Nodes that only connect their parts -/

section parts

variable {w : WalkId} {r n : NodeId} {k : Option String}

theorem Task.store_node {e : Expr} (hn : L n = some (.node w r k e)) {t : Ty}
    (ht : ∃ x, t = .prim x) : (Task.store n t).OK L g := by
  obtain ⟨x, rfl⟩ := ht
  exact ⟨⟨w, r, k, e, hn⟩, by simp [Ty.prim], trivial⟩

theorem keeps_literal (hS : Sound L g) {l : Literal} (hn : L n = some (.node w r k (.literal l))) :
    Keeps L g L (g.visit w (.literal l) n) := by
  refine .next (.refl L g) hS fun task htask => ?_
  obtain rfl := List.mem_singleton.mp htask
  exact Task.store_node hn ⟨_, rfl⟩

theorem keeps_assign (hS : Sound L g) {t : Place} {v : Expr}
    (hn : L n = some (.node w r k (.assign t v))) (hw : ∃ x, g.walks[w]? = some x) :
    Keeps L g L (g.visit w (.assign t v) n) := by
  refine .next (.refl L g) hS fun task htask => ?_
  have hv : (⟨n + 2, k, v⟩ : Stop) ∈ (Expr.assign t v).parts k n := by simp [Expr.parts]
  simp only [List.mem_cons, List.not_mem_nil, or_false] at htask
  rcases htask with rfl | rfl | rfl
  · exact hS.visit_part hn hw hv
  · exact hS.edge_node (by simp [hS.part hn hv]) hn (by simp)
  · exact ⟨⟨r, k, v, hn⟩, hw⟩

theorem keeps_block (hS : Sound L g) {es : List Expr}
    (hn : L n = some (.node w r k (.block es))) (hw : ∃ x, g.walks[w]? = some x) :
    Keeps L g L (g.visit w (.block es) n) := by
  refine .next (.refl L g) hS fun task htask => ?_
  have hpart : ∀ x ∈ Expr.spread (n + 1) es, (⟨x.1, k, x.2⟩ : Stop) ∈ (Expr.block es).parts k n :=
    fun x hx => List.mem_map_of_mem hx
  rcases List.mem_append.mp htask with htask | htask
  · obtain ⟨x, hx, rfl⟩ := List.mem_map.mp htask
    exact hS.visit_part hn hw (hpart x hx)
  · split at htask
    · next x hx =>
        obtain rfl := List.mem_singleton.mp htask
        exact hS.edge_node (by simp [hS.part hn (hpart x (List.mem_of_getLast? hx))]) hn (by simp)
    · obtain rfl := List.mem_singleton.mp htask
      exact Task.store_node hn ⟨_, rfl⟩

theorem keeps_loop (hS : Sound L g) {c b : Expr} (hn : L n = some (.node w r k (.loop c b)))
    (hw : ∃ x, g.walks[w]? = some x) : Keeps L g L (g.visit w (.loop c b) n) := by
  refine .next (.refl L g) hS fun task htask => ?_
  simp only [List.mem_cons, List.not_mem_nil, or_false] at htask
  rcases htask with rfl | rfl | rfl
  · exact hS.visit_part hn hw (p := ⟨n + 1, k, c⟩) (by simp [Expr.parts])
  · exact hS.visit_part hn hw (p := ⟨n + 1 + c.size, k, b⟩) (by simp [Expr.parts])
  · exact Task.store_node hn ⟨_, rfl⟩

theorem keeps_cond (hS : Sound L g) {c t : Expr} {f : Option Expr}
    (hn : L n = some (.node w r k (.cond c t f))) (hw : ∃ x, g.walks[w]? = some x) :
    Keeps L g L (g.visit w (.cond c t f) n) := by
  have hyes : (⟨n + 1 + c.size, k, t⟩ : Stop) ∈ (Expr.cond c t f).parts k n := by
    simp [Expr.parts]
  have hno : ∀ x ∈ f.toList, (⟨n + 1 + c.size + t.size, k, x⟩ : Stop) ∈
      (Expr.cond c t f).parts k n := by
    intro x hx
    simpa [Expr.parts] using .inr (.inr (Option.mem_toList.mp hx))
  refine .next (.refl L g) hS fun task htask => ?_
  simp only [List.append_assoc, List.cons_append, List.nil_append, List.mem_cons, List.mem_append,
    List.mem_map] at htask
  rcases htask with rfl | rfl | ⟨x, hx, rfl⟩ | rfl | htask
  · exact hS.visit_part hn hw (p := ⟨n + 1, k, c⟩) (by simp [Expr.parts])
  · exact hS.visit_part hn hw hyes
  · exact hS.visit_part hn hw (hno x hx)
  · exact hS.edge_node (by simp [hS.part hn hyes]) hn (by simp)
  · split at htask
    · next helse =>
        obtain rfl := List.mem_singleton.mp htask
        cases f with
        | none => cases helse
        | some x => exact hS.edge_node (by simp [hS.part hn (hno x (by simp))]) hn (by simp)
    · cases htask

end parts

/-! ## Calls -/

section calls

variable {w : WalkId} {r n : NodeId} {k : Option String} {rc : Option Expr} {nm : Token}
  {as : List Expr} {p : Bool}

/-- The inputs of a call are its parts, unless it makes a new object. -/
theorem Sound.input_part (hS : Sound L g) (hn : L n = some (.node w r k (.call rc nm as p)))
    (hnew : (Expr.call rc nm as p).isNew = false) {x : Nat × Expr}
    (hx : x ∈ (rc.toList.map fun e => (n + 1, e)) ++
      Expr.spread (n + 1 + Expr.sizeOption rc) as) :
    (⟨x.1, k, x.2⟩ : Stop) ∈ (Expr.call rc nm as p).parts k n ∧ x.1 ∈ g.inputsOf n := by
  rw [hS.inputsOf_call hn]
  simp only [Expr.parts, hnew, Bool.false_eq_true, if_false]
  rcases List.mem_append.mp hx with hx | hx
  · obtain ⟨e, he, rfl⟩ := List.mem_map.mp hx
    obtain rfl := Option.mem_toList.mp he
    simp
  · exact ⟨List.mem_append_right _ (List.mem_map_of_mem (f := fun x : Nat × Expr => (⟨x.1, k, x.2⟩ : Stop)) hx),
      List.mem_append_right _ (List.mem_map_of_mem hx)⟩

theorem keeps_visitCall (hS : Sound L g) (hn : L n = some (.node w r k (.call rc nm as p)))
    (hnew : (Expr.call rc nm as p).isNew = false) (hw : ∃ x, g.walks[w]? = some x) :
    Keeps L g L (g.visitCall w rc as n) := by
  have hcall : L.IsCall n := .inl ⟨w, r, k, rc, nm, as, p, hn, hnew⟩
  have hlinked : (g.modifySite n fun s => { s with linked := true }).Linked n := by
    obtain ⟨s, hs⟩ := hS.site_of_isCall hcall
    exact ⟨{ s with linked := true }, by simp [Graph.site?_modifySite, hs], rfl⟩
  refine keeps_modifySite (f := fun s => { s with linked := true }) hS (fun _ => rfl)
    (fun _ _ => rfl) (fun s m _ hm => ?_) _ fun task htask => ?_
  · cases m with
    | linked => exact .inr hcall
    | _ => exact .inl hm
  · have hgrows := Graph.grows_modifySite g n (f := fun s => { s with linked := true })
      (fun _ => rfl) fun _ _ => rfl
    have hext : Extends L g L _ := .of_grows hgrows
    have hsub : ∀ x ∈ (rc.toList.map fun e => (n + 1, e)) ++
        Expr.spread (n + 1 + Expr.sizeOption rc) as, (Task.subscribe x.1 n .resolve).OK L
          (g.modifySite n fun s => { s with linked := true }) := by
      intro x hx
      obtain ⟨hpart, hinput⟩ := hS.input_part hn hnew hx
      exact ⟨by simp [hS.part hn hpart], ⟨_, hn, rfl⟩,
        by rwa [hgrows.inputsOf (hS.bound hn)], hcall, hlinked⟩
    simp only [List.mem_append, List.mem_map] at htask
    rcases htask with ((⟨x, hx, rfl⟩ | ⟨x, hx, rfl⟩) | htask) | ⟨x, hx, rfl⟩
    · exact hsub x (List.mem_append_right _ hx)
    · exact hsub x (List.mem_append_left _ (by simpa using hx))
    · split at htask
      · obtain rfl := List.mem_singleton.mp htask
        exact ⟨hlinked, hcall⟩
      · cases htask
    · exact hext.task hS (hS.visit_part hn hw (hS.input_part hn hnew (by simpa using hx)).1)

/-- The labelling after an object was cloned. -/
def Labels.cloned (L : Labels) (g : Graph) (i : ObjId) : Labels :=
  L.append g (((g.objects[i]?.map (·.fields)).getD []).map fun f =>
    some (.field g.objects.size f.1))

/-- The fields of an object type are variables. -/
theorem Sound.field_slot (hS : Sound L g) {i : ObjId} {o : ObjectType}
    (ho : g.objects[i]? = some o) :
    ∀ f ∈ o.fields, f.2 < g.cells.size ∧ ∃ x, g.role f.2 = .slot x := by
  intro f hf
  have hl : L f.2 = some (.field i f.1) := hS.entries (e := .field i f.1 f.2) ⟨o, ho, hf⟩
  obtain ⟨x, hx⟩ := hS.fits hl
  refine ⟨hS.bound hl, x, ?_⟩
  have hrole := Graph.role_of_blank hx
  cases hr : g.role f.2 <;> simp_all [Role.blank]

theorem extends_cloneObject (hS : Sound L g) {i : ObjId} {o : ObjectType}
    (ho : g.objects[i]? = some o) :
    Extends L g (L.cloned g i) (g.cloneObject i).1 ∧ Sound (L.cloned g i) (g.cloneObject i).1 := by
  have hslot := hS.field_slot ho
  have hclone : (g.cloneObject i).1.cells = (g.copyFields o.fields).1.cells := by
    simp [Graph.cloneObject, ho]
  have hlabels : L.cloned g i = L.append g (o.fields.map fun f =>
      some (.field g.objects.size f.1)) := by
    simp [Labels.cloned, ho]
  rw [hlabels]
  refine hS.append _ (Graph.grows_cloneObject g i)
    (by rw [hclone, Graph.cells_copyFields, List.length_map]) (fun j l hj => ?_) fun hen => ?_
  · simp only [List.getElem?_map, Option.map_eq_some_iff, Option.some.injEq] at hj
    obtain ⟨f, hf, rfl⟩ := hj
    obtain ⟨x, hx⟩ := Graph.blank_copyFields hslot hf
    exact ⟨x, by rwa [Graph.blank, hclone]⟩
  · rcases Graph.has_cloneObject ho hslot hen with hen | ⟨j, f, hf, hj⟩
    · exact .inl hen
    · have hnew : L.append g (o.fields.map fun f => some (.field g.objects.size f.1))
          (g.cells.size + j) = some (.field g.objects.size f.1) :=
        L.append_new g (by simp [hf])
      rcases hj with ⟨t, ht, rfl⟩ | rfl
      · have hvalid := (hS.typed ht).2.1
        refine .inr ⟨by simp [hnew], ?_, by simp [hnew]⟩
        exact (Extends.of_grows (Graph.grows_cloneObject g i) (L := L)).valid hvalid
      · exact .inr hnew

/-- The labelling after a new object was made. -/
def Labels.instantiated (L : Labels) (g : Graph) (w : WalkId) (name : String) : Labels :=
  match (g.walk w).self.filter fun i => g.heap.name i == name with
  | some _ => L
  | none =>
      match g.classes.lookup name with
      | some i => L.cloned g i
      | none => L

theorem keeps_instantiate (hS : Sound L g) {c : Token}
    (hn : L n = some (.node w r k (.call rc nm as p))) {const : NodeId} :
    Keeps L g (L.instantiated g w c.text) (g.instantiate w c const n) := by
  have hmade : ∀ {L' : Labels} {g' : Graph} {i : ObjId}, Extends L g L' g' → Sound L' g' →
      (∃ o, g'.objects[i]? = some o) →
      Keeps L g L' (g'.next [.store n (.obj i), .markNew n]) := by
    intro L' g' i hext hsound hobj
    refine .next hext hsound fun task htask => ?_
    have hn' := hext.keeps hS hn
    simp only [List.mem_cons, List.not_mem_nil, or_false] at htask
    rcases htask with rfl | rfl
    · exact ⟨⟨w, r, k, _, hn'⟩, by simpa [Ty.obj] using hobj, trivial⟩
    · simp [Task.OK, hn']
  unfold Labels.instantiated Graph.instantiate
  cases hown : (g.walk w).self.filter fun i => g.heap.name i == c.text with
  | some i =>
      have hself := (Option.filter_eq_some_iff.mp hown).1
      exact hmade (.refl L g) hS (hS.entries (e := .self w i) hself)
  | none =>
      cases hc : g.classes.lookup c.text with
      | none => exact .fail (.refl L g) hS
      | some i =>
          obtain ⟨o, ho, -⟩ := hS.entries (e := .klass c.text i) (Table.mem_of_lookup hc)
          obtain ⟨hext, hsound⟩ := extends_cloneObject hS ho
          refine hmade hext hsound ?_
          simp [ho]

end calls

/-! ## Definitions -/

section definitions

variable {w : WalkId} {r n : NodeId} {k : Option String}

theorem keeps_method (hS : Sound L g) {nm : Token} {ps : List Token} {b : Expr}
    (hn : L n = some (.node w r k (.method nm ps b))) :
    Keeps L g L (g.visit w (.method nm ps b) n) := by
  have hext : Extends L g L (g.putMethod (g.walk w).klass nm.text n) :=
    .of_grows (Graph.grows_putMethod ..)
  refine .next hext (hS.grow hext.grows fun hen => ?_) (by simp)
  rcases Graph.has_putMethod hen with hen | rfl
  · exact .inl hen
  · exact .inr (.inl ⟨w, r, k, nm, ps, b, hn⟩)

theorem sound_addClass (hS : Sound L g) (name : String) : Sound L (g.addClass name).1 := by
  refine hS.grow (Graph.grows_addClass g name) fun hen => ?_
  rcases Graph.has_addClass hen with hen | rfl
  · exact .inl hen
  · exact .inr ⟨⟨name, g.tables.size, []⟩, by simp [Graph.addClass], rfl⟩

theorem keeps_klass (hS : Sound L g) {nm : Token} {b : Expr}
    (hn : L n = some (.node w r k (.klass nm b))) (hw : ∃ x, g.walks[w]? = some x) :
    Keeps L g L (g.visit w (.klass nm b) n) := by
  have henter : ∀ {g₁ : Graph} {i : ObjId} {outer : Option ObjId}, Graph.Grows g g₁ → Sound L g₁ →
      Keeps L g L ((g₁.modifyWalk w fun x => { x with klass := some i }).next
        [.visit w b (n + 1), .leave w outer]) := by
    intro g₁ i outer hg hS₁
    have hwalk := Graph.grows_modifyWalk g₁ w (f := fun x => { x with klass := some i })
      fun _ => rfl
    have hext : Extends L g L (g₁.modifyWalk w fun x => { x with klass := some i }) :=
      .of_grows (hg.trans hwalk)
    refine .next hext (hS₁.grow hwalk fun hen => ?_) fun task htask => ?_
    · rcases Graph.has_modifyWalk (f := fun x => { x with klass := some i }) (fun _ => rfl) hen
        with hen | ⟨x, v, rfl, hv⟩
      · exact .inl hen
      · exact .inl hv
    · simp only [List.mem_cons, List.not_mem_nil, or_false] at htask
      rcases htask with rfl | rfl
      · exact hext.task hS
          (hS.visit_part hn hw (p := ⟨n + 1, some nm.text, b⟩) (by simp [Expr.parts]))
      · trivial
  simp only [Graph.visit, Graph.visitClass]
  cases g.classes.lookup nm.text with
  | some i => exact henter (.refl g) hS
  | none => exact henter (Graph.grows_addClass g _) (sound_addClass hS _)

end definitions

/-! ## All nodes -/

/-- The labelling after a node was visited. -/
def Labels.visited (L : Labels) (g : Graph) (w : WalkId) : Expr → Labels
  | .place p => L.placed g w p
  | .call (some (.const c)) name _ _ => if name.text == "new" then L.instantiated g w c.text else L
  | _ => L

/-- A call is connected with its inputs, unless it makes a new object. -/
theorem Graph.visit_call (g : Graph) (w : WalkId) (rc : Option Expr) (nm : Token) (as : List Expr)
    (p : Bool) (n : NodeId) :
    ((Expr.call rc nm as p).isNew = false ∧
        g.visit w (.call rc nm as p) n = g.visitCall w rc as n) ∨
      ∃ c, rc = some (.const c) ∧ nm.text = "new" ∧
        g.visit w (.call rc nm as p) n = g.instantiate w c (n + 1) n := by
  by_cases hconst : ∃ c, rc = some (.const c)
  · obtain ⟨c, rfl⟩ := hconst
    cases hnew : nm.text == "new" with
    | true => exact .inr ⟨c, rfl, by simpa using hnew, by simp [visit, hnew]⟩
    | false => exact .inl ⟨hnew, by simp [visit, hnew]⟩
  · refine .inl ⟨?_, ?_⟩
    · unfold Expr.isNew
      split
      · next heq => simp_all
      · rfl
    · unfold visit
      split <;> simp_all

/-- What the graph becomes with the walk over a node: apart from what names stand for, it is only
ever a call that is taken up, or an object type that is cloned for it. -/
inductive Graph.Visits (g : Graph) (w : WalkId) (n : NodeId) : Expr → Graph → Prop where
  | same {e : Expr} : g.Visits w n e g
  | place {p : Place} : g.Visits w n (.place p) (g.placeOf w p n).1
  | method {nm : Token} {ps : List Token} {b : Expr} :
      g.Visits w n (.method nm ps b) (g.putMethod (g.walk w).klass nm.text n)
  | entered {nm : Token} {b : Expr} {i : ObjId} : g.classes.lookup nm.text = some i →
      g.Visits w n (.klass nm b) (g.modifyWalk w fun x => { x with klass := some i })
  | defined {nm : Token} {b : Expr} : g.classes.lookup nm.text = none →
      g.Visits w n (.klass nm b) ((g.addClass nm.text).1.modifyWalk w fun x =>
        { x with klass := some (g.addClass nm.text).2 })
  | call {rc : Option Expr} {nm : Token} {as : List Expr} {p : Bool} :
      (Expr.call rc nm as p).isNew = false →
      g.Visits w n (.call rc nm as p) (g.modifySite n fun s => { s with linked := true })
  | clone {c nm : Token} {as : List Expr} {p : Bool} {q : ObjId} :
      nm.text = "new" → g.classes.lookup c.text = some q →
      g.Visits w n (.call (some (.const c)) nm as p) (g.cloneObject q).1

theorem Graph.visits {g g' : Graph} {w : WalkId} {e : Expr} {n : NodeId}
    (h : (g.visit w e n).1 = g') : g.Visits w n e g' := by
  subst h
  cases e with
  | literal | const | assign | block | loop | cond => exact .same
  | method => exact .method
  | place p =>
      have hplace : (g.visit w (.place p) n).1 = (g.placeOf w p n).1 := by
        simp only [visit]
        split <;> next heq => rw [heq]; rfl
      rw [hplace]
      exact .place
  | klass nm b =>
      rw [visit, visitClass]
      cases h : g.classes.lookup nm.text with
      | some i => exact .entered h
      | none => exact .defined h
  | call rc nm as p =>
      rcases g.visit_call w rc nm as p n with ⟨hnew, hvisit⟩ | ⟨c, rfl, hname, hvisit⟩ <;> rw [hvisit]
      · exact .call hnew
      · unfold instantiate
        dsimp only
        split
        · exact .same
        · split
          · next h => exact .clone hname h
          · exact .same

/-- A construction gives the call the object type whose class the walk is in, or a new one. -/
theorem Graph.instantiate_ok {g g' : Graph} {w : WalkId} {name : Token} {const n : NodeId}
    {ts : List Task} (hp : g.instantiate w name const n = (g', .ok ts)) :
    ∃ i, ts = [.store n (.obj i), .markNew n] ∧
      ((g.walk w).self = some i ∧ g.heap.name i = name.text ∧ g' = g ∨
        ∃ q, g.classes.lookup name.text = some q ∧ g.cloneObject q = (g', i)) := by
  unfold instantiate at hp
  dsimp only at hp
  split at hp
  · next i hi =>
      obtain ⟨hself, hname⟩ := Option.filter_eq_some_iff.mp hi
      cases hp
      exact ⟨i, rfl, .inl ⟨hself, by simpa using hname, rfl⟩⟩
  · split at hp <;> cases hp
    next q hq => exact ⟨_, rfl, .inr ⟨q, hq, rfl⟩⟩

/-- What the walk over a node may leave to do, with the graph that it leaves. It goes on to the parts
of the node and connects the node with them; it gives a type only where nothing else does. -/
inductive Graph.Follows (g : Graph) (w : WalkId) (k : Option String) (n : Nat) :
    Expr → Graph → Task → Prop where
  | part {e : Expr} {g' : Graph} {p : Stop} : p ∈ e.parts k n →
      g.Follows w k n e g' (.visit w p.expr p.node)
  | literal {l : Literal} : g.Follows w k n (.literal l) g (.store n (.prim l.kind.typeName))
  | loop {c b : Expr} : g.Follows w k n (.loop c b) g (.store n .void)
  | empty : g.Follows w k n (.block []) g (.store n .void)
  | own {c nm : Token} {as : List Expr} {p : Bool} {i : ObjId} :
      (Expr.call (some (.const c)) nm as p).isNew = true → (g.walk w).self = some i →
      g.heap.name i = c.text →
      g.Follows w k n (.call (some (.const c)) nm as p) g (.store n (.obj i))
  | clone {c nm : Token} {as : List Expr} {p : Bool} {q : ObjId} :
      (Expr.call (some (.const c)) nm as p).isNew = true → g.classes.lookup c.text = some q →
      g.Follows w k n (.call (some (.const c)) nm as p) (g.cloneObject q).1
        (.store n (.obj (g.cloneObject q).2))
  | made {c nm : Token} {as : List Expr} {p : Bool} {g' : Graph} :
      g.Follows w k n (.call (some (.const c)) nm as p) g' (.markNew n)
  | read {p : Place} {v : NodeId} {g' : Graph} : g.placeOf w p n = (g', .ok v) →
      g.Follows w k n (.place p) g' (.subscribe v n .merge)
  | value {p : Place} {v : Expr} {g' : Graph} :
      g.Follows w k n (.assign p v) g' (.subscribe (n + 2) n .merge)
  | target {p : Place} {v : Expr} {g' : Graph} : g.Follows w k n (.assign p v) g' (.bind w p n)
  | last {es : List Expr} {x : Nat × Expr} {g' : Graph} :
      (Expr.spread (n + 1) es).getLast? = some x →
      g.Follows w k n (.block es) g' (.subscribe x.1 n .merge)
  | yes {c y : Expr} {f : Option Expr} {g' : Graph} :
      g.Follows w k n (.cond c y f) g' (.subscribe (n + 1 + c.size) n .merge)
  | no {c y f : Expr} {g' : Graph} : Expr.hasElse (some f) = true →
      g.Follows w k n (.cond c y (some f)) g' (.subscribe (n + 1 + c.size + y.size) n .merge)
  | input {rc : Option Expr} {nm : Token} {as : List Expr} {q : Bool} {p : Stop} {g' : Graph} :
      (Expr.call rc nm as q).isNew = false → p ∈ (Expr.call rc nm as q).parts k n →
      g.Follows w k n (.call rc nm as q) g' (.subscribe p.node n .resolve)
  | called {rc : Option Expr} {nm : Token} {as : List Expr} {p : Bool} {g' : Graph} :
      g.Follows w k n (.call rc nm as p) g' (.resolve n)
  | left {nm : Token} {b : Expr} {outer : Option ObjId} {g' : Graph} :
      g.Follows w k n (.klass nm b) g' (.leave w outer)

/-- What is left to do after the walk over a node is told from the node. -/
theorem follows_of_visit {g g' : Graph} {w : WalkId} {e : Expr} {n : NodeId} {ts : List Task}
    (k : Option String) (hp : g.visit w e n = (g', .ok ts)) {t : Task} (ht : t ∈ ts) : g.Follows w k n e g' t := by
  cases e with
  | const | method =>
      cases hp
      cases ht
  | literal l =>
      cases hp
      cases List.mem_singleton.mp ht
      exact .literal
  | place p =>
      simp only [Graph.visit] at hp
      split at hp <;> cases hp
      next hv =>
        cases List.mem_singleton.mp ht
        exact .read hv
  | assign p v =>
      cases hp
      simp only [List.mem_cons, List.not_mem_nil, or_false] at ht
      rcases ht with rfl | rfl | rfl
      · exact .part (p := ⟨n + 2, k, v⟩) (by simp [Expr.parts])
      · exact .value
      · exact .target
  | loop c b =>
      cases hp
      simp only [List.mem_cons, List.not_mem_nil, or_false] at ht
      rcases ht with rfl | rfl | rfl
      · exact .part (p := ⟨n + 1, k, c⟩) (by simp [Expr.parts])
      · exact .part (p := ⟨n + 1 + c.size, k, b⟩) (by simp [Expr.parts])
      · exact .loop
  | block es =>
      simp only [Graph.visit] at hp
      cases hp
      rcases List.mem_append.mp ht with ht | ht
      · obtain ⟨x, hx, rfl⟩ := List.mem_map.mp ht
        exact .part (p := ⟨x.1, k, x.2⟩) (List.mem_map_of_mem hx)
      · split at ht
        · next x hx =>
            cases List.mem_singleton.mp ht
            exact .last hx
        · next hnone =>
            cases List.mem_singleton.mp ht
            have hes := Expr.getLast?_spread (n + 1) es
            rw [hnone] at hes
            cases List.getLast?_eq_none_iff.mp hes.symm
            exact .empty
  | cond c y no =>
      simp only [Graph.visit] at hp
      cases hp
      simp only [List.cons_append, List.nil_append, List.append_assoc, List.mem_cons,
        List.mem_append, List.mem_map, Option.mem_toList] at ht
      rcases ht with rfl | rfl | ⟨x, hx, rfl⟩ | rfl | ht
      · exact .part (p := ⟨n + 1, k, c⟩) (by simp [Expr.parts])
      · exact .part (p := ⟨n + 1 + c.size, k, y⟩) (by simp [Expr.parts])
      · exact .part (p := ⟨n + 1 + c.size + y.size, k, x⟩) (by simp [Expr.parts, hx])
      · exact .yes
      · split at ht
        · next helse =>
            cases List.mem_singleton.mp ht
            cases no with
            | none => cases helse
            | some no => exact .no helse
        · cases ht
  | klass nm b =>
      simp only [Graph.visit, Graph.visitClass] at hp
      cases hp
      simp only [List.mem_cons, List.not_mem_nil, or_false] at ht
      rcases ht with rfl | rfl
      · exact .part (p := ⟨n + 1, some nm.text, b⟩) (by simp [Expr.parts])
      · exact .left
  | call rc nm es p =>
      rcases g.visit_call w rc nm es p n with ⟨hnew, hvisit⟩ | ⟨c, rfl, hname, hvisit⟩
      · rw [hvisit] at hp
        cases hp
        have hpart : ∀ x ∈ (rc.toList.map fun r => (n + 1, r)) ++
            Expr.spread (n + 1 + Expr.sizeOption rc) es,
            (⟨x.1, k, x.2⟩ : Stop) ∈ (Expr.call rc nm es p).parts k n := by
          intro x hx
          rw [Expr.parts, if_neg (by simp [hnew])]
          refine (List.mem_append.mp hx).elim (fun hx => List.mem_append_left _ ?_)
            fun hx => List.mem_append_right _ (List.mem_map_of_mem hx)
          obtain ⟨r, hr, rfl⟩ := List.mem_map.mp hx
          exact List.mem_map_of_mem hr
        simp only [List.mem_append, List.mem_map] at ht
        rcases ht with ((⟨x, hx, rfl⟩ | ⟨x, hx, rfl⟩) | ht) | ⟨x, hx, rfl⟩
        · exact .input hnew (hpart x (List.mem_append_right _ hx))
        · exact .input hnew (hpart x (List.mem_append_left _ (List.mem_map.mpr hx)))
        · split at ht
          · cases List.mem_singleton.mp ht
            exact .called
          · cases ht
        · exact .part (hpart x (List.mem_append.mpr (hx.imp_left List.mem_map.mpr)))
      · have hnew : (Expr.call (some (.const c)) nm es p).isNew = true := by
          simp [Expr.isNew, hname]
        rw [hvisit] at hp
        obtain ⟨i, rfl, ⟨hself, hown, rfl⟩ | ⟨q, hclass, hclone⟩⟩ := Graph.instantiate_ok hp
        · rcases List.mem_pair.mp ht with rfl | rfl
          · exact .own hnew hself hown
          · exact .made
        · rcases List.mem_pair.mp ht with rfl | rfl
          · have hmade := Graph.Follows.clone (g := g) (w := w) (k := k) (n := n) hnew hclass
            rwa [hclone] at hmade
          · exact .made

/-- To bind the target of an assignment is to look it up, as far as the graph goes. -/
theorem Graph.graph_bind (g : Graph) (w : WalkId) (p : Place) (n : NodeId) :
    (g.bind w p n).1 = (g.placeOf w p (n + 1)).1 := by
  unfold bind
  split <;> next heq => rw [heq]; rfl

theorem Labels.visited_call (L : Labels) (g : Graph) (w : WalkId) {rc : Option Expr} {nm : Token}
    {as : List Expr} {p : Bool} (h : (Expr.call rc nm as p).isNew = false) :
    L.visited g w (.call rc nm as p) = L := by
  unfold visited
  split
  · next heq => simp_all
  · next heq =>
      cases heq
      simp_all [Expr.isNew]
  · rfl

theorem keeps_visit (hS : Sound L g) {w : WalkId} {r n : NodeId} {k : Option String} {e : Expr}
    (hn : L n = some (.node w r k e)) (hw : ∃ x, g.walks[w]? = some x) :
    Keeps L g (L.visited g w e) (g.visit w e n) := by
  cases e with
  | literal l => exact keeps_literal hS hn
  | place p => exact keeps_read hS hn
  | const c => exact .next (.refl L g) hS (by simp)
  | assign t v => exact keeps_assign hS hn hw
  | block es => exact keeps_block hS hn hw
  | loop c b => exact keeps_loop hS hn hw
  | cond c t f => exact keeps_cond hS hn hw
  | method nm ps b => exact keeps_method hS hn
  | klass nm b => exact keeps_klass hS hn hw
  | call rc nm as p =>
      rcases g.visit_call w rc nm as p n with ⟨hnew, hvisit⟩ | ⟨c, rfl, hnew, hvisit⟩
      · rw [hvisit, L.visited_call g w hnew]
        exact keeps_visitCall hS hn hnew hw
      · have hlabels : L.visited g w (.call (some (.const c)) nm as p) =
            L.instantiated g w c.text := by simp [Labels.visited, hnew]
        rw [hvisit, hlabels]
        exact keeps_instantiate hS hn

end TypeFlow
