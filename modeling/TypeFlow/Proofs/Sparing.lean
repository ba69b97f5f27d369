import TypeFlow.Proofs.Templates

/-! # Tasks spare the bodies of methods

Every task that inference sets is about cells outside the bodies of methods, and so is whatever it
records. A task that makes an instance brings a fresh copy of a body, and no other task changes the
methods or the instances. -/

namespace TypeFlow

open TypeFlow.Graph

/-! ## What may be recorded -/

/-- What may be recorded where: nothing in the body of a method. -/
def Entry.Tidy (g : Graph) : Entry → Prop
  | .mark n (.typed t) => g.Live n ∧ t.WellFormed
  | .mark n (.edge o _) => g.Live n ∧ g.Live o
  | .mark n _ => g.Live n
  | .var _ _ v => g.Live v
  | .field _ _ v => g.Live v ∧ ∃ x, g.blank v = some { role := .slot x }
  | .method m => g.Live m
  | .inst _ x => g.Live x.body
  | .dispatch d => g.Live d
  | .self _ _ | .klass _ _ => True

/-- Nothing is recorded in the bodies of methods. -/
structure Graph.Tidy (g : Graph) : Prop where
  laid : g.Laid
  entries : ∀ {e}, g.Has e → e.Tidy g

/-- What tasks are about: a walk comes to no body of a method. -/
def Task.Tidy (g : Graph) : Task → Prop
  | .visit _ e n => ∃ k, ∀ q ∈ e.stops k n, g.Live q.node
  | .store n t | .widen n t => g.Live n ∧ t.WellFormed
  | .subscribe s o _ => g.Live s ∧ g.Live o
  | .deliver _ o _ => g.Live o
  | .react _ o _ t => g.Live o ∧ ∀ u ∈ t, u.WellFormed
  | .notify _ | .leave _ _ => True
  | .bind _ _ n => g.Live n ∧ g.Live (n + 1)
  | .resolve c | .aim c _ | .markNew c | .finish c _ => g.Live c
  | .member d _ _ => g.Live d

variable {g g' : Graph}

theorem Entry.Tidy.grow {e : Entry} (h : e.Tidy g) (hg : Grows g g') (hl : g'.Laid) :
    e.Tidy g' := by
  have hlive {n : Nat} (hn : g.Live n) : g'.Live n := hn.grow hg hl
  cases e with
  | mark n k =>
      cases k with
      | typed t => exact ⟨hlive h.1, h.2⟩
      | edge o r => exact ⟨hlive h.1, hlive h.2⟩
      | _ => exact hlive h
  | field i x v =>
      obtain ⟨hv, y, hy⟩ := h
      exact ⟨hlive hv, y, hg.blank hy⟩
  | var | method | inst | dispatch => exact hlive h
  | self | klass => trivial

theorem Task.Tidy.grow {t : Task} (h : t.Tidy g) (hg : Grows g g') (hl : g'.Laid) :
    t.Tidy g' := by
  have hlive {n : Nat} (hn : g.Live n) : g'.Live n := hn.grow hg hl
  cases t with
  | visit w e n =>
      obtain ⟨k, hk⟩ := h
      exact ⟨k, fun q hq => hlive (hk q hq)⟩
  | store | widen => exact ⟨hlive h.1, h.2⟩
  | subscribe => exact ⟨hlive h.1, hlive h.2⟩
  | react => exact ⟨hlive h.1, h.2⟩
  | bind => exact ⟨hlive h.1, hlive h.2⟩
  | deliver | resolve | aim | member | markNew | finish => exact hlive h
  | notify | leave => trivial

/-! ## Changes that spare the bodies -/

namespace Graph.Tidy

theorem grow (h : g.Tidy) (hg : Grows g g') (hl : g'.Laid)
    (hnew : ∀ {e}, g'.Has e → g.Has e ∨ e.Tidy g') : g'.Tidy where
  laid := hl
  entries he := by
    rcases hnew he with hold | hnew
    · exact (h.entries hold).grow hg hl
    · exact hnew

theorem adds (h : g.Tidy) (ha : Adds g g') (hnew : ∀ {e}, g'.Has e → g.Has e ∨ e.Tidy g') :
    g'.Tidy :=
  h.grow ha.grows (h.laid.grow ha.grows ha.keepsTemplates) hnew

theorem plant (h : g.Tidy) (e : Expr) : (g.plant e).1.Tidy :=
  h.grow (grows_plant g e) (h.laid.plant e) fun he => .inl (has_plant he)

theorem addWalk (h : g.Tidy) : (g.addWalk {}).1.Tidy := by
  refine h.adds (adds_of_cells (grows_addWalk g {}) rfl rfl) fun he => ?_
  rcases has_addWalk he with he | ⟨x, v, -, hv⟩ | ⟨i, -, hi⟩
  · exact .inl he
  · cases hv
  · cases hi

theorem field_lt (h : g.Tidy) (i : ObjId) (x : String) (v : NodeId) (hv : g.Has (.field i x v)) :
    v < g.cells.size :=
  (h.entries hv).1.1

theorem field_slot (h : g.Tidy) {i : ObjId} (o : ObjectType) (ho : g.objects[i]? = some o) :
    ∀ f ∈ o.fields, f.2 < g.cells.size ∧ ∃ x, g.role f.2 = .slot x := by
  intro f hf
  obtain ⟨hlive, x, hx⟩ := h.entries (e := .field i f.1 f.2) ⟨o, ho, hf⟩
  refine ⟨hlive.1, x, ?_⟩
  have hrole := role_of_blank hx
  cases hr : g.role f.2 <;> simp_all [Role.blank]

theorem typed (h : g.Tidy) {n : NodeId} {t : Ty} (ht : g.type n = some t) : t.WellFormed :=
  (h.entries (has_typed.mpr ht)).2

/-- Nothing has happened to the body of a method. -/
theorem not_has (h : g.Tidy) {m : NodeId} {b : Expr} {t : NodeId} (hm : g.HasTemplate m b t)
    {x : Nat × Expr} (hx : x ∈ b.nodes t) (k : Mark) : ¬ g.Has (.mark x.1 k) := by
  intro hk
  have hlive : g.Live x.1 := by
    have hok := h.entries hk
    cases k with
    | typed | edge => exact hok.1
    | _ => exact hok
  have hrange := Expr.node_range hx
  have hpos := x.2.size_pos
  rcases hlive.2 m b t hm with hlt | hle
  · exact Nat.not_le.mpr hlt hrange.1
  · exact Nat.not_le.mpr (Nat.lt_add_of_pos_right hpos) (Nat.le_trans hrange.2 hle)

theorem isPristine (h : g.Tidy) {m : NodeId} {b : Expr} {t : NodeId} (hm : g.HasTemplate m b t) :
    g.isPristine t = true :=
  isPristine_of_blank (h.laid m b t hm).2 fun _ hx => h.not_has hm hx

end Graph.Tidy

/-! ## Steps that spare the bodies -/

theorem Graph.Gains.grows_of {x : Instance} {m : Method} {b : Expr} {t : NodeId}
    (h : Gains g x m b t g') : Grows g g' := (grows_plant g b).trans h.grows

/-- A graph has only been added to, or a method has gained an instance as well. -/
def Graph.Changes (g g' : Graph) : Prop := Adds g g' ∨ ∃ x m b t, Gains g x m b t g'

theorem Graph.Changes.grows (h : Changes g g') : Grows g g' := by
  rcases h with ha | ⟨x, m, b, t, hx⟩
  · exact ha.grows
  · exact hx.grows_of

theorem Graph.Changes.adds (h : Changes g g') {g'' : Graph} (ha : Adds g' g'') : Changes g g'' := by
  rcases h with ha' | ⟨x, m, b, t, hx⟩
  · exact .inl (ha'.trans ha)
  · exact .inr ⟨x, m, b, t, hx.adds ha⟩

/-- A step leaves the bodies alone, and makes at most one instance. -/
structure Spares (g : Graph) (step : Step) : Prop where
  tidy : step.1.Tidy
  change : Graph.Changes g step.1
  tasks : ∀ ts, step.2 = .ok ts → ∀ t ∈ ts, t.Tidy step.1

namespace Spares

theorem grows {step : Step} (h : Spares g step) : Grows g step.1 := h.change.grows

theorem next (ha : Adds g g') (ht : g'.Tidy) {ts : List Task} (hts : ∀ t ∈ ts, t.Tidy g') :
    Spares g (g'.next ts) := by
  refine ⟨ht, .inl ha, fun ts' h => ?_⟩
  cases h
  exact hts

theorem fail (ha : Adds g g') (ht : g'.Tidy) (f : Fault) : Spares g (g'.fail f) :=
  ⟨ht, .inl ha, fun _ h => nomatch h⟩

end Spares

section steps

variable (h : g.Tidy)
include h

theorem spares_next {ts : List Task} (hts : ∀ t ∈ ts, t.Tidy g) : Spares g (g.next ts) :=
  .next (.refl g) h hts

theorem spares_fail (f : Fault) : Spares g (g.fail f) := .fail (.refl g) h f

/-! ## Types -/

theorem spares_storeType {n : NodeId} {t : Ty} (hn : g.Live n) (ht : t.WellFormed) :
    Spares g (g.storeType n t) := by
  rcases g.storeType_cases n t with ⟨hs, -⟩ | ⟨hs, -⟩ <;> rw [hs]
  · exact spares_next h (by simp)
  · have ha := adds_setType g n t
    have hl := h.laid.grow ha.grows ha.keepsTemplates
    refine .next ha (h.adds ha fun he => ?_) fun task htask => ?_
    · rcases has_setType he with he | rfl
      · exact .inl he
      · exact .inr ⟨hn.grow ha.grows hl, ht⟩
    · obtain ⟨o, ho, rfl⟩ := List.mem_map.mp htask
      exact ((h.entries (has_edge.mpr ho)).2 : g.Live o.1).grow ha.grows hl

theorem spares_widenType {n : NodeId} {t : Ty} (hn : g.Live n) (ht : t.WellFormed) :
    Spares g (g.widenType n t) := by
  unfold Graph.widenType
  split
  · exact spares_storeType h hn ht
  · dsimp only
    split
    · next hwf => exact spares_storeType h hn hwf
    · exact spares_fail h _

theorem spares_subscribe {s o : NodeId} (hs : g.Live s) (ho : g.Live o) (r : Reaction) :
    Spares g (g.subscribe s o r) := by
  have ha := adds_addObserver g s o r
  have hl := h.laid.grow ha.grows ha.keepsTemplates
  refine .next ha (h.adds ha fun he => ?_) fun task htask => ?_
  · rcases has_addObserver he with he | rfl
    · exact .inl he
    · exact .inr ⟨hs.grow ha.grows hl, ho.grow ha.grows hl⟩
  · split at htask
    · next t ht =>
        obtain rfl := List.mem_singleton.mp htask
        exact ⟨ho.grow ha.grows hl, by simpa using h.typed ht⟩
    · cases htask

theorem spares_react (s : Option NodeId) {n : NodeId} (hn : g.Live n) (r : Reaction)
    {t : Option Ty} (ht : ∀ u ∈ t, u.WellFormed) : Spares g (g.react s n r t) := by
  have ha : Adds g (g.hear ⟨n, s, r, t⟩) := adds_of_cells
    (grows_append (fun _ _ => rfl) rfl id id) rfl rfl
  have hheard : (g.hear ⟨n, s, r, t⟩).Tidy := h.adds ha fun {e} he => by
    cases e <;> exact .inl he
  have hwiden : ∀ task ∈ t.toList.map (Task.widen n), task.Tidy g := by
    intro task htask
    obtain ⟨u, hu, rfl⟩ := List.mem_map.mp htask
    exact ⟨hn, ht u (Option.mem_toList.mp hu)⟩
  unfold Graph.react
  dsimp only
  split
  · exact .next ha hheard fun task htask => (hwiden task htask).grow ha.grows hheard.laid
  · exact spares_next h hwiden
  · exact .next ha hheard (by simp)
  · exact spares_next h (List.forall_mem_singleton.mpr hn)
  · exact spares_fail h _
  · exact spares_fail h _

theorem spares_notify (n : NodeId) : Spares g (g.notify n) := by
  refine spares_next h fun task htask => ?_
  obtain ⟨o, ho, rfl⟩ := List.mem_map.mp htask
  exact (h.entries (has_edge.mpr ho)).2

/-! ## Calls and places -/

theorem tidy_modifySite {c : NodeId} (hc : g.Live c) {f : Site → Site}
    (hf : ∀ s, (f s).blank = s.blank) (hl : ∀ s, s.linked = true → (f s).linked = true) :
    (g.modifySite c f).Tidy := by
  have ha := adds_modifySite g c hf hl
  refine h.adds ha fun he => ?_
  rcases has_modifySite_of he with he | ⟨s, k, rfl, hk, -⟩
  · exact .inl he
  · have hc' := hc.grow ha.grows (h.laid.grow ha.grows ha.keepsTemplates)
    cases k with
    | typed | edge => exact hk.elim
    | _ => exact .inr hc'

/-- A variable that is made for a name is no part of a body. -/
theorem tidy_newPlace {w : WalkId} {p : Place}
    (ha : Adds (g.addSlot (some p.name.text) none).1 g')
    (hnew : ∀ {e}, g'.Has e → g.Has e ∨ g.NewPlace w p e) :
    Adds g g' ∧ g'.Tidy ∧ g'.Live g.cells.size := by
  have ha' : Adds g g' := (adds_addCell g (by simp)).trans ha
  have hlt : g.cells.size < g'.cells.size :=
    Nat.lt_of_lt_of_le (by simp [addSlot, addCell]) ha.grows.size_le
  have hlive : g'.Live g.cells.size := h.laid.live_new ha'.keepsTemplates (Nat.le_refl _) hlt
  have hblank : g'.blank g.cells.size = some { role := .slot (some p.name.text) } :=
    ha.grows.blank (by simp [blank, addSlot, addCell, Cell.blank, Role.blank])
  refine ⟨ha', h.adds ha' fun he => ?_, hlive⟩
  rcases hnew he with he | he
  · exact .inl he
  · rcases he.var_or_field with rfl | ⟨i, -, rfl⟩
    · exact .inr hlive
    · exact .inr ⟨hlive, _, hblank⟩

omit h in
theorem adds_withVariable (g : Graph) (w : WalkId) (name : String) :
    Adds (g.addSlot (some name) none).1 (g.withVariable w name) := by
  unfold withVariable
  exact adds_of_cells (grows_modifyWalk _ _ fun _ => rfl) rfl rfl

theorem tidy_variableOf (w : WalkId) {p : Place} (hp : p.kind = .localVar) :
    Adds g (g.variableOf w p.name.text).1 ∧ (g.variableOf w p.name.text).1.Tidy ∧
      (g.variableOf w p.name.text).1.Live (g.variableOf w p.name.text).2 := by
  cases hv : (g.walk w).vars.lookup p.name.text with
  | some v =>
      rw [variableOf_known hv]
      exact ⟨.refl g, h, h.entries (e := .var w p.name.text v) (Table.mem_of_lookup hv)⟩
  | none =>
      rw [variableOf_new hv]
      refine tidy_newPlace h (w := w) (adds_withVariable g w p.name.text) fun he => ?_
      simpa [NewPlace, hp] using has_withVariable he

theorem tidy_fieldOf {w : WalkId} {p : Place} (hp : p.kind = .instanceVar) {i : ObjId}
    (hi : (g.walk w).self = some i) :
    Adds g (g.fieldOf i p.name.text).1 ∧ (g.fieldOf i p.name.text).1.Tidy ∧
      (g.fieldOf i p.name.text).1.Live (g.fieldOf i p.name.text).2 := by
  unfold fieldOf
  cases hv : g.objects[i]?.bind fun o => o.fields.lookup p.name.text with
  | some v =>
      obtain ⟨o, ho, hlookup⟩ := Option.bind_eq_some_iff.mp hv
      exact ⟨.refl g, h,
        (h.entries (e := .field i p.name.text v) ⟨o, ho, Table.mem_of_lookup hlookup⟩).1⟩
  | none =>
      refine tidy_newPlace h (w := w) (p := p)
        (adds_of_cells (grows_putField _ i p.name.text g.cells.size) rfl rfl) fun he => ?_
      rcases has_putField he with he | rfl
      · rcases has_addSlot he with he | ⟨t, ht, -⟩
        · exact .inl he
        · cases ht
      · right
        simp only [NewPlace, hp]
        exact ⟨i, hi, rfl⟩

/-- A place stands for a variable outside of all bodies, if it has a meaning. -/
theorem tidy_placeOf (w : WalkId) (p : Place) (n : NodeId) :
    Adds g (g.placeOf w p n).1 ∧ (g.placeOf w p n).1.Tidy ∧
      ∀ v, (g.placeOf w p n).2 = .ok v → (g.placeOf w p n).1.Live v := by
  cases hp : p.kind with
  | localVar =>
      have hplace : g.placeOf w p n =
          ((g.variableOf w p.name.text).1, .ok (g.variableOf w p.name.text).2) := by
        simp [placeOf, hp]
      obtain ⟨ha, ht, hv⟩ := tidy_variableOf h w hp
      rw [hplace]
      refine ⟨ha, ht, fun v hv' => ?_⟩
      cases hv'
      exact hv
  | instanceVar =>
      cases hi : (g.walk w).self with
      | none =>
          simp only [placeOf, hp, hi]
          exact ⟨.refl g, h, fun _ hv => by cases hv⟩
      | some i =>
          have hplace : g.placeOf w p n =
              ((g.fieldOf i p.name.text).1, .ok (g.fieldOf i p.name.text).2) := by
            simp [placeOf, hp, hi]
          obtain ⟨ha, ht, hv⟩ := tidy_fieldOf h hp hi
          rw [hplace]
          refine ⟨ha, ht, fun v hv' => ?_⟩
          cases hv'
          exact hv

theorem spares_bind {n : NodeId} (hn : g.Live n) (hn' : g.Live (n + 1)) (w : WalkId) (p : Place) :
    Spares g (g.bind w p n) := by
  obtain ⟨ha, ht, hv⟩ := tidy_placeOf h w p (n + 1)
  unfold Graph.bind
  cases hplace : g.placeOf w p (n + 1) with
  | mk g' result =>
      rw [hplace] at ha ht hv
      cases result with
      | error f => exact .fail ha ht f
      | ok v =>
          refine .next ha ht fun task htask => ?_
          simp only [List.mem_cons, List.not_mem_nil, or_false] at htask
          rcases htask with rfl | rfl
          · exact ⟨hn.grow ha.grows ht.laid, hv v rfl⟩
          · exact ⟨hv v rfl, hn'.grow ha.grows ht.laid⟩

/-! ## Walks -/

omit h in
theorem Task.Tidy.part {w : WalkId} {e : Expr} {n : NodeId} {k : Option String}
    (hn : ∀ q ∈ e.stops k n, g.Live q.node) {p : Stop} (hp : p ∈ e.parts k n) :
    (Task.visit w p.expr p.node).Tidy g :=
  ⟨p.klass, fun q hq => hn q (Expr.stops_trans (Expr.mem_stops_of_mem_parts hp) hq)⟩

/-- A clone has fields of its own. -/
theorem tidy_cloneObject (i : ObjId) :
    Adds g (g.cloneObject i).1 ∧ (g.cloneObject i).1.Tidy := by
  have ha := adds_cloneObject (g := g) (i := i) fun o ho => h.field_slot o ho
  refine ⟨ha, h.adds ha fun {e} he => ?_⟩
  cases ho : g.objects[i]? with
  | none =>
      simp only [cloneObject, ho] at he
      exact .inl he
  | some o =>
      have hslot := h.field_slot o ho
      rcases has_cloneObject ho hslot he with he | ⟨j, f, hf, hj⟩
      · exact .inl he
      · have hcells : (g.cloneObject i).1.cells = (g.copyFields o.fields).1.cells := by
          simp [cloneObject, ho]
        have hlt : g.cells.size + j < (g.cloneObject i).1.cells.size := by
          rw [hcells, cells_copyFields]
          exact Nat.add_lt_add_left (List.getElem?_eq_some_iff.mp hf).1 _
        have hlive : (g.cloneObject i).1.Live (g.cells.size + j) :=
          h.laid.live_new ha.keepsTemplates (Nat.le_add_right _ _) hlt
        rcases hj with ⟨t, ht, rfl⟩ | rfl
        · exact .inr ⟨hlive, h.typed ht⟩
        · obtain ⟨x, hx⟩ := blank_copyFields hslot hf
          exact .inr ⟨hlive, x, by rwa [blank, hcells]⟩

theorem tidy_leave (w : WalkId) (outer : Option ObjId) :
    Adds g (g.modifyWalk w fun x => { x with klass := outer }) ∧
      (g.modifyWalk w fun x => { x with klass := outer }).Tidy := by
  have ha : Adds g (g.modifyWalk w fun x => { x with klass := outer }) :=
    adds_of_cells (grows_modifyWalk g w (f := fun x => { x with klass := outer }) fun _ => rfl) rfl rfl
  refine ⟨ha, h.adds ha fun he => ?_⟩
  rcases has_modifyWalk (f := fun x => { x with klass := outer }) (fun _ => rfl) he with
    he | ⟨x, v, rfl, hv⟩
  · exact .inl he
  · exact .inl hv

/-- The walk over a node adds to the graph only. -/
theorem tidy_visit {e : Expr} {n : NodeId} (hn : g.Live n) (w : WalkId) :
    Adds g (g.visit w e n).1 ∧ (g.visit w e n).1.Tidy := by
  generalize hvisit : (g.visit w e n).1 = g'
  cases Graph.visits hvisit with
  | same => exact ⟨.refl g, h⟩
  | @place p =>
      obtain ⟨ha, ht, -⟩ := tidy_placeOf h w p n
      exact ⟨ha, ht⟩
  | @method nm =>
      have ha : Adds g (g.putMethod (g.walk w).klass nm.text n) := by
        refine adds_of_cells (grows_putMethod g _ _ _) ?_ ?_ <;> unfold putMethod <;> split <;> rfl
      refine ⟨ha, h.adds ha fun he => ?_⟩
      rcases has_putMethod he with he | rfl
      · exact .inl he
      · exact .inr (hn.grow ha.grows (h.laid.grow ha.grows ha.keepsTemplates))
  | entered => exact tidy_leave h w _
  | @defined nm =>
      have ha : Adds g (g.addClass nm.text).1 := adds_of_cells (grows_addClass g nm.text) rfl rfl
      have ht : (g.addClass nm.text).1.Tidy := h.adds ha fun he => by
        rcases has_addClass he with he | rfl
        · exact .inl he
        · exact .inr trivial
      obtain ⟨ha', ht'⟩ := tidy_leave ht w (some (g.addClass nm.text).2)
      exact ⟨ha.trans ha', ht'⟩
  | call => exact ⟨adds_modifySite g n (fun _ => rfl) fun _ _ => rfl,
      tidy_modifySite h hn (fun _ => rfl) fun _ _ => rfl⟩
  | clone => exact tidy_cloneObject h _

theorem spares_visit {e : Expr} {n : NodeId} {k : Option String}
    (hn : ∀ q ∈ e.stops k n, g.Live q.node) (w : WalkId) : Spares g (g.visit w e n) := by
  have hself : g.Live n := hn _ (Expr.mem_stops_self e k n)
  obtain ⟨ha, ht⟩ := tidy_visit h (e := e) hself w
  refine ⟨ht, .inl ha, fun ts hts task htask => ?_⟩
  generalize hvisit : (g.visit w e n).1 = g' at ha ht
  have hself' : g'.Live n := hself.grow ha.grows ht.laid
  have hpart : ∀ {p : Stop}, p ∈ e.parts k n → g'.Live p.node := fun hmem =>
    (hn _ (Expr.mem_stops_of_mem_parts hmem)).grow ha.grows ht.laid
  cases follows_of_visit k (Prod.ext hvisit hts) htask with
  | part hmem => exact (Task.Tidy.part hn hmem).grow ha.grows ht.laid
  | literal | loop | empty | own | clone => exact ⟨hself', trivial⟩
  | made | called => exact hself'
  | left => trivial
  | @read p v _ hv =>
      obtain ⟨-, -, hlive⟩ := tidy_placeOf h w p n
      rw [hv] at hlive
      exact ⟨hlive v rfl, hself'⟩
  | @value p v => exact ⟨hpart (p := ⟨n + 2, k, v⟩) (by simp [Expr.parts]), hself'⟩
  | @target p v => exact ⟨hself', hpart (p := ⟨n + 1, k, .place p⟩) (by simp [Expr.parts])⟩
  | @last es x _ hlast =>
      have hmem := List.mem_map_of_mem (f := fun x => (⟨x.1, k, x.2⟩ : Stop))
        (List.mem_of_getLast? hlast)
      exact ⟨hpart hmem, hself'⟩
  | @yes c y f =>
      exact ⟨hpart (p := ⟨n + 1 + c.size, k, y⟩) (by simp [Expr.parts]), hself'⟩
  | @no c y f =>
      exact ⟨hpart (p := ⟨n + 1 + c.size + y.size, k, f⟩) (by simp [Expr.parts]), hself'⟩
  | input _ hmem => exact ⟨hpart hmem, hself'⟩

/-! ## Resolving calls -/

theorem spares_newDispatch {c : NodeId} (hc : g.Live c) (s : Site) (receiver : Option Ty)
    (args : List Ty) (n : Notice) :
    Spares g (((g.addDispatch s receiver args).1.notice n).next
      (memberTasks g.cells.size receiver args ++
        [.subscribe g.cells.size c .merge, .aim c (.dispatch g.cells.size)])) := by
  have ha := (adds_addDispatch g s receiver args).trans
    (adds_of_cells (grows_notice (g.addDispatch s receiver args).1 n) rfl rfl)
  have hl := h.laid.grow ha.grows ha.keepsTemplates
  have hd := h.laid.live_new ha.keepsTemplates (Nat.le_refl g.cells.size)
    (by simp [notice, addDispatch, addCell])
  have hc' := hc.grow ha.grows hl
  refine .next ha (h.adds ha fun he => ?_) fun task htask => ?_
  · rcases has_addDispatch (has_notice he) with he | rfl
    · exact .inl he
    · exact .inr hd
  · rcases List.mem_append.mp htask with htask | htask
    · obtain ⟨r, as, rfl, -⟩ := mem_memberTasks.mp htask
      exact hd
    · simp only [List.mem_cons, List.not_mem_nil, or_false] at htask
      rcases htask with rfl | rfl
      · exact ⟨hd, hc'⟩
      · exact hc'

/-- A graph with a new instance records what it recorded, and what is new about the instance. -/
theorem tidy_gains {x : Instance} {m : Method} {params : List String} {b : Expr} {t c method : NodeId}
    {receiver : Option Ty} {args : List Ty} (hx : Gains g x m b t g')
    (hnew : ∀ {e}, g'.Has e → g.Has e ∨ g.NewInstance c method params b receiver args e)
    (hsize : (g.withBody b (instanceInputs params receiver args)
      (receiver.bind Ty.atom?)).cells.size ≤ g'.cells.size)
    (hc : g.Live c) (hm : g.Live method) (hwf : ∀ u ∈ receiver.toList ++ args, u.WellFormed) :
    g'.Tidy := by
  have hplant := h.laid.plant b
  have hl := hplant.grow hx.grows hx.keepsTemplates
  have hg := hx.grows_of
  have hbody := h.laid.live_stop (Expr.mem_stops_self b none g.cells.size)
  rw [withBody, addWalkOver_eq] at hsize
  simp only [addWalk, cells_addSlots, cells_plant, List.length_map] at hsize
  have hslot : ∀ j < (instanceInputs params receiver args).length,
      g'.Live (g.cells.size + b.size + j) := by
    intro j hj
    refine hplant.live_new hx.keepsTemplates ?_ (Nat.lt_of_lt_of_le ?_ hsize)
    · rw [cells_plant]
      exact Nat.le_add_right _ _
    · exact Nat.add_lt_add_left hj _
  refine h.grow hg hl fun he => (hnew he).imp_right fun he => ?_
  cases he with
  | slot hj =>
      refine ⟨hslot _ (List.getElem?_eq_some_iff.mp hj).1, hwf _ ?_⟩
      rcases List.mem_append.mp (List.mem_of_getElem? hj) with hp | hp
      · obtain ⟨u, hu, rfl⟩ := List.mem_map.mp hp
        exact List.mem_append_left _ hu
      · exact List.mem_append_right _ (List.of_mem_zip hp).2
  | var hv =>
      obtain ⟨j, hj, rfl⟩ := List.mem_range'.mp (List.of_mem_zip (Table.mem_of_mem_ofList hv)).2
      rw [Nat.one_mul]
      exact hslot j hj
  | self => trivial
  | inst => exact hbody.grow hx.grows hl
  | cached => exact hm.grow hg hl
  | busy => exact hc.grow hg hl

theorem spares_specialize {c : NodeId} (hc : g.Live c) (s : Site) {receiver : Option Ty}
    {args : List Ty} (hargs : args.any Ty.isMixed = false)
    (hwf : ∀ u ∈ receiver.toList ++ args, u.WellFormed) {method : NodeId} (hm : g.Live method)
    {m : Method} (hfound : g.method? method = some m) (harity : m.params.length = args.length)
    (hfind : Table.findBy? g.heap.sameRow (args.map some) m.instances = none) {b : Expr}
    {t : NodeId} (hsource : m.source = .written b t) :
    Spares g (g.specialize c s receiver args method m b t) := by
  have hprist : g.isPristine t = true := h.isPristine ⟨m, hfound, hsource⟩
  have hx := gains_withInstance h.field_lt hfound hsource harity hargs
    (fun u hu => hwf u (List.mem_append_right _ hu)) hfind receiver
  have hsize : (g.withBody b (instanceInputs m.params receiver args)
      (receiver.bind Ty.atom?)).cells.size ≤ (g.withInstance method m.params b receiver args).cells.size :=
    (grows_addInstance _ (g.newInstance method receiver args)).size_le
  cases hl : s.linked with
  | false =>
      rw [specialize_unlinked hprist hl]
      exact ⟨tidy_gains h hx (has_withInstance c) hsize hc hm hwf, .inr ⟨_, m, b, t, hx⟩,
        fun _ h => nomatch h⟩
  | true =>
      rw [specialize_eq hprist hl]
      have ha : Adds (g.withInstance method m.params b receiver args)
          (g.specialized c s method m.params b receiver args) :=
        (adds_of_cells (grows_notice _ _) rfl rfl).trans
          (adds_modifySite _ c (fun _ => rfl) fun _ h => h)
      have hx' := hx.adds ha
      have ht := tidy_gains h hx' has_specialized (Nat.le_trans hsize ha.grows.size_le) hc hm hwf
      have hlive {n : Nat} (hn : (g.plant b).1.Live n) :
          (g.specialized c s method m.params b receiver args).Live n := hn.grow hx'.grows ht.laid
      have hc' := hc.grow hx'.grows_of ht.laid
      refine ⟨ht, .inr ⟨_, m, b, t, hx'⟩, fun ts hts task htask => ?_⟩
      cases hts
      simp only [List.mem_cons, List.not_mem_nil, or_false] at htask
      rcases htask with rfl | rfl | rfl | rfl
      · exact ⟨none, fun q hq => hlive (h.laid.live_stop hq)⟩
      · exact hc'
      · exact ⟨hlive (h.laid.live_stop (Expr.mem_stops_self b none g.cells.size)), hc'⟩
      · exact hc'

theorem spares_resolve {c : NodeId} (hc : g.Live c) : Spares g (g.resolve c) := by
  have hpointed : ∀ {z : NodeId} {t : Target}, g.Live z →
      Spares g (g.next [.subscribe z c .merge, .aim c t]) := by
    intro z t hz
    refine spares_next h fun task htask => ?_
    simp only [List.mem_cons, List.not_mem_nil, or_false] at htask
    rcases htask with rfl | rfl
    · exact ⟨hz, hc⟩
    · exact hc
  generalize hstep : g.resolve c = step
  cases Graph.decides hstep with
  | stuck | refused => exact spares_fail h _
  | waiting => exact spares_next h (by simp)
  | @dispatch _ _ _ d _ _ _ _ hfind =>
      exact hpointed (h.entries (e := .dispatch d) (List.mem_of_find?_eq_some hfind))
  | newDispatch n => exact spares_newDispatch h hc _ _ _ n
  | @inst _ _ _ _ _ i x _ _ _ _ hx => exact hpointed (h.entries (e := .inst i x) hx)
  | @newInst s receiver args _ _ _ _ _ _ hcalls hfind hsource =>
      have hargs : args.any Ty.isMixed = false :=
        (Bool.or_eq_false_iff.mp (List.any_append.symm.trans hcalls.concrete)).2
      have hwf : ∀ u ∈ receiver.toList ++ args, u.WellFormed := by
        intro u hu
        obtain ⟨v, -, hv⟩ := exists_of_inputs hcalls.inputs hu
        exact h.typed hv
      exact spares_specialize h hc s hargs hwf (h.entries (has_method_of_scope hcalls.scope))
        hcalls.found hcalls.arity hfind hsource

theorem spares_addMember {d : NodeId} (hd : g.Live d) (receiver : Option Atom)
    (args : List Atom) : Spares g (g.addMember d receiver args) := by
  cases hx : g.dispatch? d with
  | none =>
      simp only [addMember, hx]
      exact spares_fail h _
  | some x =>
      have hwith : Adds g (g.withMember x receiver args) :=
        (adds_addSlots g _).trans (adds_addCell _ (by simp))
      have ha := hwith.trans (adds_modifyDispatch (g.withMember x receiver args) d
        (f := fun y => { y with
          calls := y.calls.putBy (g.withMember x receiver args).sameMember (receiver, args)
            (g.memberAt receiver args) }) fun _ => rfl)
      rw [addMember_eq hx]
      have hl := h.laid.grow ha.grows ha.keepsTemplates
      have hat := g.cell_memberAt x receiver args
      have hlt : g.memberAt receiver args < (g.withMember x receiver args).cells.size :=
        (Array.getElem?_eq_some_iff.mp hat).1
      have hlive : ∀ j, g.cells.size + j ≤ g.memberAt receiver args →
          Live ((g.withMember x receiver args).modifyDispatch d fun y => { y with
            calls := y.calls.putBy (g.withMember x receiver args).sameMember (receiver, args)
              (g.memberAt receiver args) }) (g.cells.size + j) := fun j hj =>
        h.laid.live_new ha.keepsTemplates (Nat.le_add_right _ _)
          (Nat.lt_of_le_of_lt hj (by simpa [modifyDispatch] using hlt))
      have hmember := hlive (memberSlots receiver args).length (Nat.le_refl _)
      have hd' := hd.grow ha.grows hl
      refine .next ha (h.adds ha fun he => ?_) fun task htask => ?_
      · rcases has_modifyDispatch he with he | ⟨z, k, -, rfl, hk⟩
        · rcases has_addCell he with he | ⟨k, rfl, hk⟩
          · rcases has_addSlots he with he | ⟨j, s, hs, rfl⟩
            · exact .inl he
            · have hj := (List.getElem?_eq_some_iff.mp hs).1
              refine .inr ⟨hlive j (Nat.add_le_add_left (Nat.le_of_lt hj) _), ?_⟩
              rcases List.mem_append.mp (List.mem_of_getElem? hs) with hs | hs <;>
                obtain ⟨a, -, rfl⟩ := List.mem_map.mp hs <;> trivial
          · rw [cells_addSlots]
            cases k with
            | typed | edge => cases hk
            | _ => exact .inr hmember
        · cases k with
          | typed | edge => exact hk.elim
          | _ => exact .inr hd'
      · simp only [List.mem_cons, List.not_mem_nil, or_false] at htask
        rcases htask with rfl | rfl
        · exact ⟨hmember, hd'⟩
        · exact hmember

/-! ## All tasks -/

theorem tidy_finish {c : NodeId} (hc : g.Live c) :
    Adds g (g.modifySite c fun s => { s with busy := false }) ∧
      (g.modifySite c fun s => { s with busy := false }).Tidy :=
  ⟨adds_modifySite g c (fun _ => rfl) fun _ h => h,
    tidy_modifySite h hc (f := fun s => { s with busy := false }) (fun _ => rfl) fun _ h => h⟩

/-- No task reaches into the body of a method. -/
theorem spares_perform {task : Task} (ht : task.Tidy g) : Spares g (g.perform task) := by
  have hmark : ∀ {c : NodeId} {f : Site → Site}, g.Live c → (∀ s, (f s).blank = s.blank) →
      (∀ s, s.linked = true → (f s).linked = true) →
      Spares g ((g.modifySite c f).next []) := fun hc hf hl =>
    .next (adds_modifySite g _ hf hl) (tidy_modifySite h hc hf hl) (by simp)
  cases task with
  | visit w e n =>
      obtain ⟨k, hn⟩ := ht
      exact spares_visit h hn w
  | store n t => exact spares_storeType h ht.1 ht.2
  | widen n t => exact spares_widenType h ht.1 ht.2
  | subscribe s o r => exact spares_subscribe h ht.1 ht.2 r
  | deliver s o r => exact spares_react h _ ht r fun u hu => h.typed hu
  | react s o r t => exact spares_react h s ht.1 r ht.2
  | notify n => exact spares_notify h n
  | bind w p n => exact spares_bind h ht.1 ht.2 w p
  | resolve c => exact spares_resolve h ht
  | aim c t => exact hmark ht (fun _ => rfl) fun _ h => h
  | member d r as => exact spares_addMember h ht r as
  | markNew c => exact hmark ht (fun _ => rfl) fun _ h => h
  | finish c i => exact hmark ht (fun _ => rfl) fun _ h => h
  | leave w outer =>
      obtain ⟨ha, htidy⟩ := tidy_leave h w outer
      exact .next ha htidy (by simp)

/-- Dropping the tasks that wait adds nothing. -/
theorem tidy_unwind (f : Fault) {ts : List Task} (hts : ∀ t ∈ ts, t.Tidy g) :
    Adds g (g.unwind f ts).1 ∧ (g.unwind f ts).1.Tidy := by
  induction ts generalizing g f with
  | nil => exact ⟨.refl g, h⟩
  | cons task rest ih =>
      have hrest : ∀ t ∈ rest, t.Tidy g := fun t ht => hts t (List.mem_cons_of_mem _ ht)
      cases task with
      | finish c i =>
          obtain ⟨ha, ht⟩ := tidy_finish h (hts _ (List.mem_cons_self ..) : g.Live c)
          obtain ⟨ha', ht'⟩ := ih ht _ fun t hmem => (hrest t hmem).grow ha.grows ht.laid
          exact ⟨ha.trans ha', ht'⟩
      | leave w outer =>
          obtain ⟨ha, ht⟩ := tidy_leave h w outer
          obtain ⟨ha', ht'⟩ := ih ht f fun t hmem => (hrest t hmem).grow ha.grows ht.laid
          exact ⟨ha.trans ha', ht'⟩
      | _ => exact ih h f hrest

end steps

/-! ## Runs -/

/-- A graph without anything recorded in bodies, and waiting tasks that record nothing there. -/
structure Graph.Tidy.Config (c : Graph.Config) : Prop where
  graph : c.1.Tidy
  tasks : ∀ t ∈ c.2, t.Tidy c.1

namespace Graph.Tidy.Config

theorem step {task : Task} {ts rest : List Task} (h : Config (g, task :: rest))
    (hp : g.perform task = (g', .ok ts)) : Config (g', ts ++ rest) := by
  have hstep := spares_perform h.graph (h.tasks task (List.mem_cons_self ..))
  rw [hp] at hstep
  refine ⟨hstep.tidy, fun t ht => ?_⟩
  rcases List.mem_append.mp ht with ht | ht
  · exact hstep.tasks ts rfl t ht
  · exact (h.tasks t (List.mem_cons_of_mem _ ht)).grow hstep.grows hstep.tidy.laid

theorem passes {c c' : Graph.Config} {done : List Task} (h : Config c) (hp : Passes c done c') :
    Config c' :=
  hp.preserves Config h fun _ _ _ _ _ hc hperform => hc.step hperform

/-- One more unit of budget makes at most one instance, and leaves nothing in a body. -/
theorem run_succ {tasks : List Task} (h : Config (g, tasks)) (budget : Nat) :
    Changes (run budget g tasks).1 (run (budget + 1) g tasks).1 ∧
      ((run budget g tasks).1.Tidy → (run (budget + 1) g tasks).1.Tidy) := by
  rcases Graph.run_succ budget g tasks with heq | ⟨done, g₁, task, rest, hpass, hnow, hnext⟩
  · rw [heq]
    exact ⟨.inl (.refl _), id⟩
  · have hc := h.passes hpass
    have hstep := spares_perform hc.graph (hc.tasks task (List.mem_cons_self ..))
    rw [hnow, hnext]
    rcases hp : g₁.perform task with ⟨g₂, f | ts⟩
    · rw [run_cons_error 0 hp]
      rw [hp] at hstep
      obtain ⟨ha, ht⟩ := tidy_unwind hstep.tidy f fun t ht =>
        (hc.tasks t (List.mem_cons_of_mem _ ht)).grow hstep.grows hstep.tidy.laid
      exact ⟨Changes.adds hstep.change ha, fun _ => ht⟩
    · rw [run_cons_ok 0 hp]
      rw [hp] at hstep
      rw [run_zero]
      exact ⟨hstep.change, fun _ => hstep.tidy⟩

theorem run {tasks : List Task} (h : Config (g, tasks)) (budget : Nat) :
    (Graph.run budget g tasks).1.Tidy := by
  induction budget with
  | zero =>
      rw [run_zero]
      exact h.graph
  | succ budget ih => exact (h.run_succ budget).2 ih

/-- What additions and new instances preserve holds after a run. -/
theorem run_preserves {tasks : List Task} (h : Config (g, tasks)) {P : Graph → Prop} (start : P g)
    (step : ∀ g g', g.Tidy → P g → Changes g g' → P g') (budget : Nat) :
    P (Graph.run budget g tasks).1 := by
  induction budget with
  | zero =>
      rw [run_zero]
      exact start
  | succ budget ih => exact step _ _ (h.run budget) ih (h.run_succ budget).1

end Graph.Tidy.Config

/-! ## Programs -/

/-- Nothing is recorded in bodies if there are none, as long as a labelling tells of all that is
recorded why it is. -/
theorem Sound.tidy {L : Labels} (hS : Sound L g) (hno : ∀ m b t, ¬ g.HasTemplate m b t) :
    g.Tidy where
  laid m b t hm := (hno m b t hm).elim
  entries {e} he := by
    have hlive {n : Nat} {l : Label} (hn : L n = some l) : g.Live n :=
      ⟨hS.bound hn, fun m b t hm => (hno m b t hm).elim⟩
    have hsome {n : Nat} (hn : L n ≠ none) : g.Live n := by
      obtain ⟨l, hl⟩ := Option.ne_none_iff_exists'.mp hn
      exact hlive hl
    have hmethod {m : Nat} (hm : g.MethodOK L m) : g.Live m := by
      rcases hm with ⟨w, r, k, nm, ps, b, hl⟩ | ⟨hl, -⟩ <;> exact hlive hl
    have hok := hS.entries he
    cases e with
    | mark n k =>
        cases k with
        | typed t =>
            refine ⟨hsome hok.1, ?_⟩
            cases t with
            | one a => trivial
            | union ms key => exact hok.2.1.2.2
        | edge o r =>
            obtain ⟨l, hl, -⟩ := hok.2.1
            exact ⟨hsome hok.1, hlive hl⟩
        | linked | found => exact hsome hok.ne_none
        | aimed t => exact hsome hok.1.ne_none
        | busy | made => exact hsome hok
        | cached key i => exact hmethod hok.1
        | member key c =>
            obtain ⟨x, hx⟩ := hok.1
            exact hlive hx
    | var w x v => exact hlive hok
    | field i x v => exact ⟨hlive hok, hS.fits hok⟩
    | method m => exact hmethod hok
    | inst i x =>
        rcases hok with ⟨-, hl⟩ | ⟨w, v, r, k, nm, ps, b, -, -, -, hl⟩ <;> exact hlive hl
    | dispatch d =>
        obtain ⟨x, hx⟩ := hok
        exact hlive hx
    | self | klass => trivial

/-- No built-in method has a body. -/
theorem not_hasTemplate_withBuiltins (m : NodeId) (b : Expr) (t : NodeId) :
    ¬ Graph.withBuiltins.HasTemplate m b t := by
  intro hm
  have hall : ((List.range Graph.withBuiltins.cells.size).all fun m =>
      ((Graph.withBuiltins.method? m).bind fun x => x.source.body?).isNone) = true := by
    decide +kernel
  have hnone := List.all_eq_true.mp hall m (List.mem_range.mpr hm.lt_size)
  rw [hasTemplate_iff_body.mp hm] at hnone
  cases hnone

theorem tidy_start : Session.start.graph.Tidy := by
  rw [start_eq]
  exact (Sound.tidy isBuiltin_withBuiltins not_hasTemplate_withBuiltins).addWalk

theorem not_hasTemplate_start (m : NodeId) (b : Expr) (t : NodeId) :
    ¬ Session.start.graph.HasTemplate m b t := by
  rw [start_eq]
  exact fun hm => not_hasTemplate_withBuiltins m b t
    ((adds_of_cells (grows_addWalk _ {}) rfl rfl).keepsTemplates m b t hm)

/-- A walk over a new tree comes to no body of a method, of the tree or of another one. -/
theorem Graph.Tidy.visit_plant (h : g.Tidy) (w : WalkId) (e : Expr) :
    (Task.visit w e g.cells.size).Tidy (g.plant e).1 :=
  ⟨none, fun _ hq => h.laid.live_stop hq⟩

theorem Graph.Tidy.Config.loaded (tree : Expr) :
    Config (Graph.loaded tree, [.visit 0 tree rootOf]) where
  graph := tidy_start.plant tree
  tasks := List.forall_mem_singleton.mpr (tidy_start.visit_plant 0 tree)

end TypeFlow
