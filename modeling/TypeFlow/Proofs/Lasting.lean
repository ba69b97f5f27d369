import TypeFlow.Proofs.Integrity

/-! # What is recorded for good

Most of what a graph records is there to stay: who observes whom, which calls were taken up, which
instances a method has, and what the variables of a walk are. Only types grow, targets move on, and
a definition may replace another. -/

namespace TypeFlow

/-! ## Entries that last -/

def Mark.lasts : Mark → Bool
  | .edge _ _ | .linked | .found | .cached _ _ => true
  | _ => false

def Entry.lasts : Entry → Bool
  | .mark _ k => k.lasts
  | .method _ => false
  | _ => true

theorem Table.mem_putBy_of_mem {κ β : Type} {same : κ → κ → Bool} {k : κ} {v : β} {t : Table κ β}
    {e : κ × β} (h : e ∈ t) (hs : same e.1 k = false) : e ∈ Table.putBy same k v t := by
  induction t with
  | nil => cases h
  | cons a t ih =>
      rw [Table.putBy]
      split
      · next ha =>
          rcases List.mem_cons.mp h with rfl | h
          · rw [hs] at ha
            cases ha
          · exact List.mem_cons_of_mem _ h
      · rcases List.mem_cons.mp h with rfl | h
        · exact List.mem_cons_self ..
        · exact List.mem_cons_of_mem _ (ih h)

/-- A key that is not there is added. -/
theorem Table.mem_putBy_self {κ β : Type} {same : κ → κ → Bool} {k : κ} {t : Table κ β}
    (h : ∀ e ∈ t, same e.1 k = false) (v : β) : (k, v) ∈ Table.putBy same k v t := by
  induction t with
  | nil => exact List.mem_singleton_self _
  | cons a t ih =>
      rw [Table.putBy, if_neg (by simp [h a (List.mem_cons_self ..)])]
      exact List.mem_cons_of_mem _ (ih fun e he => h e (List.mem_cons_of_mem _ he))

theorem Table.ne_of_lookup_none {κ β : Type} [BEq κ] [LawfulBEq κ] {k : κ} {t : Table κ β}
    (h : t.lookup k = none) {e : κ × β} (he : e ∈ t) : (e.1 == k) = false := by
  rw [List.lookup_eq_none_iff] at h
  have := h e he
  rw [beq_eq_false_iff_ne]
  rintro rfl
  simp at this

theorem Table.mem_put_self {κ β : Type} [BEq κ] [LawfulBEq κ] (k : κ) (v : β) (t : Table κ β) :
    (k, v) ∈ t.put k v := by
  induction t with
  | nil => exact List.mem_singleton_self _
  | cons a t ih =>
      rw [put, putBy]
      split
      · next ha =>
          obtain rfl := eq_of_beq ha
          exact List.mem_cons_self ..
      · exact List.mem_cons_of_mem _ ih

/-- A key that was not there before replaces nothing. -/
theorem Table.mem_put_of_lookup_none {κ β : Type} [BEq κ] [LawfulBEq κ] {k : κ} {v : β}
    {t : Table κ β} (h : t.lookup k = none) {e : κ × β} (he : e ∈ t) : e ∈ t.put k v :=
  mem_putBy_of_mem he (ne_of_lookup_none h he)

namespace Graph

/-- What lasts is still recorded. -/
def Lasts (g g' : Graph) : Prop := ∀ e : Entry, e.lasts = true → g.Has e → g'.Has e

/-- What lasts is still recorded, and no type has changed. -/
structure Calm (g g' : Graph) : Prop where
  lasts : Lasts g g'
  type : ∀ n : Nat, n < g.cells.size → g'.type n = g.type n
  size : g.cells.size ≤ g'.cells.size

theorem Lasts.trans {a b c : Graph} (h : Lasts a b) (h' : Lasts b c) : Lasts a c :=
  fun e he ha => h' e he (h e he ha)

theorem Calm.refl (g : Graph) : Calm g g := ⟨fun _ _ h => h, fun _ _ => rfl, Nat.le_refl _⟩

theorem Calm.trans {a b c : Graph} (h : Calm a b) (h' : Calm b c) : Calm a c where
  lasts := h.lasts.trans h'.lasts
  type n hn := (h'.type n (Nat.lt_of_lt_of_le hn h.size)).trans (h.type n hn)
  size := Nat.le_trans h.size h'.size

variable {g : Graph}

/-! ## Changes of one cell -/

theorem lasts_modify {f : Cell → Cell} {n : NodeId}
    (hf : ∀ c k, g.cells[n]? = some c → k.lasts = true → c.Has k → (f c).Has k) :
    Lasts g { g with cells := g.cells.modify n f } := by
  intro e he h
  cases e with
  | mark m k =>
      obtain ⟨c, hc, hk⟩ := h
      by_cases hnm : n = m
      · subst hnm
        exact ⟨f c, by simp [Array.getElem?_modify, hc], hf c k hc he hk⟩
      · exact ⟨c, by simpa [Array.getElem?_modify, hnm] using hc, hk⟩
  | var | field | method | inst | dispatch | self | klass => exact h

theorem type_modify {f : Cell → Cell} (hf : ∀ c, (f c).type = c.type) (g : Graph) (n m : NodeId) :
    Graph.type { g with cells := g.cells.modify n f } m = g.type m := by
  simp only [type, Array.getElem?_modify]
  split
  · cases g.cells[m]? <;> simp [hf]
  · rfl

theorem calm_modify {f : Cell → Cell} {n : NodeId}
    (hf : ∀ c k, g.cells[n]? = some c → k.lasts = true → c.Has k → (f c).Has k)
    (ht : ∀ c, (f c).type = c.type) : Calm g { g with cells := g.cells.modify n f } :=
  ⟨lasts_modify hf, fun m _ => type_modify ht g n m, Nat.le_of_eq (Array.size_modify ..).symm⟩

theorem lasts_setType (n : NodeId) (t : Ty) : Lasts g (g.setType n t) :=
  lasts_modify fun c k _ hk h => by
    cases k with
    | edge | linked | found | cached => exact h
    | typed | aimed | busy | made | member => cases hk

/-- A new observer replaces nothing unless it observed with another reaction. -/
theorem calm_addObserver {n o : NodeId} {r : Reaction}
    (h : ∀ r', (o, r') ∈ g.observers n → r' = r) : Calm g (g.addObserver n o r) := by
  refine calm_modify (fun c k hc hk hck => ?_) fun _ => rfl
  cases k with
  | edge o' r' =>
      have hobs : g.observers n = c.observers := by simp [observers, hc]
      by_cases ho : o' = o
      · subst ho
        obtain rfl := h r' (hobs ▸ hck)
        exact Table.mem_put_self ..
      · exact Table.mem_putBy_of_mem hck (beq_eq_false_iff_ne.mpr ho)
  | linked | found | cached => exact hck
  | typed | aimed | busy | made | member => cases hk

theorem calm_modifySite (n : NodeId) {f : Site → Site}
    (hf : ∀ s, s.linked = true → (f s).linked = true)
    (ht : ∀ s, s.target ≠ none → (f s).target ≠ none) : Calm g (g.modifySite n f) := by
  refine calm_modify (fun c k _ hk hck => ?_) fun c => ?_
  · cases hr : c.role with
    | call s => cases k <;> simp_all [Cell.Has, Role.Has, Mark.lasts]
    | _ => simpa [hr] using hck
  · cases c.role <;> rfl

theorem calm_modifyMethod (n : NodeId) {f : Method → Method}
    (hf : ∀ m, g.method? n = some m → ∀ e ∈ m.instances, e ∈ (f m).instances) :
    Calm g (g.modifyMethod n f) := by
  refine calm_modify (fun c k hc hk hck => ?_) fun c => ?_
  · cases hr : c.role with
    | method m =>
        have hm : g.method? n = some m := by simp [method?, role, hc, hr]
        cases k with
        | cached key i =>
            simp only [Cell.Has, hr, Role.Has] at hck ⊢
            exact hf m hm _ hck
        | edge => simpa [Cell.Has] using hck
        | linked | found => simp [Cell.Has, Role.Has, hr] at hck
        | typed | aimed | busy | made | member => cases hk
    | _ => simpa [hr] using hck
  · cases c.role <;> rfl

theorem calm_modifyDispatch (n : NodeId) (f : Dispatch → Dispatch) :
    Calm g (g.modifyDispatch n f) := by
  refine calm_modify (fun c k _ hk hck => ?_) fun c => ?_
  · cases hr : c.role with
    | dispatch d => cases k <;> simp_all [Cell.Has, Role.Has, Mark.lasts]
    | _ => simpa [hr] using hck
  · cases c.role <;> rfl

/-! ## Additions -/

/-- All cells that were there are as before, and so is all else that lasts. -/
theorem calm_append {g' : Graph} (hsize : g.cells.size ≤ g'.cells.size)
    (hcells : ∀ n < g.cells.size, g'.cells[n]? = g.cells[n]?)
    (hother : ∀ e : Entry, e.lasts = true → (∀ n k, e ≠ .mark n k) → g.Has e → g'.Has e) :
    Calm g g' := by
  refine ⟨fun e he h => ?_, fun n hn => by rw [type, hcells n hn, type], hsize⟩
  cases e with
  | mark n k =>
      obtain ⟨c, hc, hk⟩ := h
      have hlt := (Array.getElem?_eq_some_iff.mp hc).1
      exact ⟨c, by rw [hcells n hlt, hc], hk⟩
  | var | field | method | inst | dispatch | self | klass =>
      exact hother _ he (by simp) h

theorem calm_addCell (g : Graph) (c : Cell) : Calm g (g.addCell c).1 := by
  refine calm_append (by simp [addCell]) (fun n hn => ?_) fun e he hne h => ?_
  · simp only [addCell, Array.getElem?_push, if_neg (Nat.ne_of_lt hn)]
  · cases e with
    | mark n k => exact (hne n k rfl).elim
    | var | field | method | inst | dispatch | self | klass => exact h

theorem calm_plant (g : Graph) (tree : Expr) : Calm g (g.plant tree).1 := by
  refine calm_append (by simp [plant]) (fun n hn => Array.getElem?_append_left hn)
    fun e he hne h => ?_
  cases e with
  | mark n k => exact (hne n k rfl).elim
  | var | field | method | inst | dispatch | self | klass => exact h

theorem calm_addSlots (g : Graph) (slots : List (Option String × Ty)) :
    Calm g (g.addSlots slots).1 := by
  induction slots generalizing g with
  | nil => exact .refl g
  | cons s slots ih => exact (calm_addCell g _).trans (ih _)

theorem calm_copyFields (g : Graph) (fields : Table String NodeId) :
    Calm g (g.copyFields fields).1 := by
  induction fields generalizing g with
  | nil => exact .refl g
  | cons f fields ih => exact (calm_addCell g _).trans (ih _)

/-- Nothing but what is not in cells has changed, and what lasts of that is as before. -/
theorem calm_of_cells {g' : Graph} (hcells : g'.cells = g.cells)
    (hother : ∀ e : Entry, e.lasts = true → (∀ n k, e ≠ .mark n k) → g.Has e → g'.Has e) :
    Calm g g' :=
  calm_append (Nat.le_of_eq (by rw [hcells])) (fun _ _ => by rw [hcells]) hother

theorem calm_pushObject {g' : Graph} {o : ObjectType} (hcells : g'.cells = g.cells)
    (hobjects : g'.objects = g.objects.push o) (hinst : g'.instances = g.instances)
    (hwalks : g'.walks = g.walks) (hdispatches : g'.dispatches = g.dispatches)
    (hclasses : ∀ e ∈ g.classes, e ∈ g'.classes) : Calm g g' := by
  refine calm_of_cells hcells fun e he hne h => ?_
  cases e with
  | mark n k => exact (hne n k rfl).elim
  | method m => cases he
  | var w x v => simpa only [Has, walk, hwalks] using h
  | self w i => simpa only [Has, walk, hwalks] using h
  | inst i x => simpa only [Has, hinst] using h
  | dispatch d => simpa only [Has, hdispatches] using h
  | klass name i => exact hclasses _ h
  | field i x v =>
      obtain ⟨o', ho', hx⟩ := h
      exact ⟨o', by rw [hobjects]; exact getElem?_push_of_some o ho', hx⟩

theorem calm_cloneObject (g : Graph) (i : ObjId) : Calm g (g.cloneObject i).1 := by
  unfold cloneObject
  split
  · exact .refl g
  · exact (calm_copyFields g _).trans (calm_pushObject rfl rfl rfl rfl rfl fun _ h => h)

/-- A class that is not known yet replaces nothing. -/
theorem calm_addClass {name : String} (h : g.classes.lookup name = none) :
    Calm g (g.addClass name).1 :=
  calm_pushObject rfl rfl rfl rfl rfl fun _ he => Table.mem_put_of_lookup_none h he

theorem calm_addWalk (g : Graph) (w : Walk) : Calm g (g.addWalk w).1 := by
  have hwalk : ∀ v, v < g.walks.size → (g.addWalk w).1.walk v = g.walk v := by
    intro v hv
    simp only [walk, addWalk, Array.getElem?_push, if_neg (Nat.ne_of_lt hv)]
  have hnone : ∀ v, ¬ v < g.walks.size → g.walk v = {} := by
    intro v hv
    simp [walk, Array.getElem?_eq_none (Nat.le_of_not_lt hv)]
  refine calm_of_cells rfl fun e he hne h => ?_
  cases e with
  | mark n k => exact (hne n k rfl).elim
  | var v x s =>
      by_cases hv : v < g.walks.size
      · rwa [Has, hwalk v hv]
      · rw [Has, hnone v hv] at h
        cases h
  | self v i =>
      by_cases hv : v < g.walks.size
      · rwa [Has, hwalk v hv]
      · rw [Has, hnone v hv] at h
        cases h
  | field | method | inst | dispatch | klass => exact h

theorem calm_modifyWalk {w : WalkId} {f : Walk → Walk} (hself : ∀ x, (f x).self = x.self)
    (hvars : ∀ e ∈ (g.walk w).vars, e ∈ (f (g.walk w)).vars) : Calm g (g.modifyWalk w f) := by
  have hwalk : ∀ v, (g.modifyWalk w f).walk v = g.walk v ∨
      v = w ∧ (g.modifyWalk w f).walk v = f (g.walk w) := by
    intro v
    simp only [walk, modifyWalk, Array.getElem?_modify]
    split
    · next heq =>
        subst heq
        cases g.walks[w]? with
        | none => exact .inl rfl
        | some x => exact .inr ⟨rfl, rfl⟩
    · exact .inl rfl
  refine calm_of_cells rfl fun e he hne h => ?_
  cases e with
  | mark n k => exact (hne n k rfl).elim
  | var v x s =>
      rcases hwalk v with hv | ⟨rfl, hv⟩
      · rwa [Has, hv]
      · rw [Has, hv]
        exact hvars _ h
  | self v i =>
      rcases hwalk v with hv | ⟨rfl, hv⟩
      · rwa [Has, hv]
      · rw [Has, hv, hself]
        exact h
  | field | method | inst | dispatch | klass => exact h

theorem calm_notice (g : Graph) (n : Notice) : Calm g (g.notice n) := by
  refine calm_of_cells rfl fun e he hne h => ?_
  cases e with
  | mark n k => exact (hne n k rfl).elim
  | var | field | method | inst | dispatch | self | klass => exact h

/-- An instance for types that the method was not called with before replaces nothing. -/
theorem calm_addInstance {x : Instance}
    (h : ∀ m, g.method? x.method = some m → ∀ e ∈ m.instances,
      g.heap.sameRow e.1 x.params = false) : Calm g (g.addInstance x).1 := by
  have hpush : Calm g { g with instances := g.instances.push x } := by
    refine calm_of_cells rfl fun e he hne hen => ?_
    cases e with
    | mark n k => exact (hne n k rfl).elim
    | inst i y => exact getElem?_push_of_some x hen
    | var | field | method | dispatch | self | klass => exact hen
  exact hpush.trans (calm_modifyMethod x.method fun m hm e he =>
    Table.mem_putBy_of_mem he (h m hm e he))

/-- A field that was not there before replaces nothing. -/
theorem calm_putField {i : ObjId} {name : String} {v : NodeId}
    (h : ∀ o, g.objects[i]? = some o → o.fields.lookup name = none) :
    Calm g (g.putField i name v) := by
  refine calm_of_cells rfl fun e he hne hen => ?_
  cases e with
  | mark n k => exact (hne n k rfl).elim
  | field j x u =>
      obtain ⟨o, ho, hx⟩ := hen
      simp only [Has, putField, Array.getElem?_modify]
      split
      · next heq =>
          subst heq
          exact ⟨{ o with fields := o.fields.put name v }, by simp [ho],
            Table.mem_put_of_lookup_none (h o ho) hx⟩
      · exact ⟨o, ho, hx⟩
  | var | method | inst | dispatch | self | klass => exact hen

theorem calm_putMethod (g : Graph) (k : Option ObjId) (name : String) (m : NodeId) :
    Calm g (g.putMethod k name m) := by
  unfold putMethod
  split <;> exact calm_of_cells rfl fun e he hne hen => by
    cases e with
    | mark n k => exact (hne n k rfl).elim
    | method m => cases he
    | var | field | inst | dispatch | self | klass => exact hen

theorem calm_addDispatch (g : Graph) (s : Site) (receiver : Option Ty) (args : List Ty) :
    Calm g (g.addDispatch s receiver args).1 := by
  refine (calm_addCell g _).trans (calm_of_cells rfl fun e he hne hen => ?_)
  cases e with
  | mark n k => exact (hne n k rfl).elim
  | dispatch d => exact List.mem_append_left _ hen
  | var | field | method | inst | self | klass => exact hen

/-- Object types and types that are as before make equal types equal. -/
theorem heap_eq {g' : Graph} (hobjects : g'.objects = g.objects)
    (htype : ∀ (i : ObjId) (o : ObjectType), g.objects[i]? = some o →
      ∀ f ∈ o.fields, g'.type f.2 = g.type f.2) :
    g'.heap = g.heap := by
  have hfields : ∀ i : ObjId,
      (g.objects[i]?.map fun o : ObjectType => o.fields.map fun f => (f.1, g'.type f.2)) =
        g.objects[i]?.map fun o : ObjectType => o.fields.map fun f => (f.1, g.type f.2) := by
    intro i
    cases ho : g.objects[i]? with
    | none => rfl
    | some o =>
        simp only [Option.map_some, Option.some.injEq]
        exact List.map_congr_left fun f hf => by rw [htype i o ho f hf]
  unfold heap
  rw [hobjects]
  congr 1
  funext i
  rw [hfields i]

end Graph

/-! ## Tasks -/

variable {L : Labels} {g : Graph}

/-- Types are compared as before if no type has changed, and no field lies in a new cell. -/
theorem Graph.heap_calm (hfields : ∀ i x v, g.Has (.field i x v) → v < g.cells.size)
    {g' : Graph} (h : Graph.Calm g g') (hobjects : g'.objects = g.objects) : g'.heap = g.heap :=
  Graph.heap_eq hobjects fun i o ho f hf => h.type _ (hfields i f.1 f.2 ⟨o, ho, hf⟩)

theorem Sound.heap_calm (hS : Sound L g) {g' : Graph} (h : Graph.Calm g g')
    (hobjects : g'.objects = g.objects) : g'.heap = g.heap :=
  Graph.heap_calm (fun i x v hv => hS.bound (hS.entries (e := .field i x v) hv)) h hobjects

theorem calm_withVariable {w : WalkId} {name : String}
    (h : (g.walk w).vars.lookup name = none) : Graph.Calm g (g.withVariable w name) :=
  (Graph.calm_addCell g _).trans
    (Graph.calm_modifyWalk (fun _ => rfl) fun _ he => Table.mem_put_of_lookup_none h he)

theorem calm_variableOf (g : Graph) (w : WalkId) (name : String) :
    Graph.Calm g (g.variableOf w name).1 := by
  cases h : (g.walk w).vars.lookup name with
  | some v =>
      rw [Graph.variableOf_known h]
      exact .refl g
  | none =>
      rw [Graph.variableOf_new h]
      exact calm_withVariable h

theorem calm_fieldOf (g : Graph) (i : ObjId) (name : String) :
    Graph.Calm g (g.fieldOf i name).1 := by
  unfold Graph.fieldOf
  split
  · exact .refl g
  · next hnone =>
      exact (Graph.calm_addCell g _).trans
        (Graph.calm_putField fun o ho => Option.bind_eq_none_iff.mp hnone o ho)

theorem calm_placeOf (g : Graph) (w : WalkId) (p : Place) (n : NodeId) :
    Graph.Calm g (g.placeOf w p n).1 := by
  unfold Graph.placeOf
  cases p.kind with
  | localVar => exact calm_variableOf g w p.name.text
  | instanceVar =>
      cases (g.walk w).self with
      | none => exact .refl g
      | some i => exact calm_fieldOf g i p.name.text

theorem calm_visit (g : Graph) (w : WalkId) (e : Expr) (n : NodeId) :
    Graph.Calm g (g.visit w e n).1 := by
  generalize hvisit : (g.visit w e n).1 = g'
  cases Graph.visits hvisit with
  | same => exact .refl g
  | place => exact calm_placeOf ..
  | method => exact Graph.calm_putMethod ..
  | entered => exact Graph.calm_modifyWalk (fun _ => rfl) fun _ he => he
  | defined h =>
      exact (Graph.calm_addClass h).trans (Graph.calm_modifyWalk (fun _ => rfl) fun _ he => he)
  | call => exact Graph.calm_modifySite n (fun _ _ => rfl) fun _ h => h
  | clone => exact Graph.calm_cloneObject g _

/-- The walk over an instance adds to the graph without changing it. -/
theorem calm_withBody (g : Graph) (body : Expr) (inputs : List (String × Ty))
    (owner : Option Atom) : Graph.Calm g (g.withBody body inputs owner) := by
  rw [Graph.withBody, Graph.addWalkOver_eq]
  exact ((Graph.calm_plant g body).trans (Graph.calm_addSlots _ _)).trans (Graph.calm_addWalk _ _)

theorem objects_withBody (g : Graph) (body : Expr) (inputs : List (String × Ty))
    (owner : Option Atom) : (g.withBody body inputs owner).objects = g.objects := by
  rw [Graph.withBody, Graph.addWalkOver_eq]
  exact (Graph.others_addSlots (g.plant body).1 _).1

theorem getElem?_withBody (g : Graph) (body : Expr) (inputs : List (String × Ty))
    (owner : Option Atom) {n : Nat} (hn : n < g.cells.size) :
    (g.withBody body inputs owner).cells[n]? = g.cells[n]? := by
  have hslots : ∀ (slots : List (Option String × Ty)) (g : Graph), n < g.cells.size →
      (g.addSlots slots).1.cells[n]? = g.cells[n]? := by
    intro slots
    induction slots with
    | nil => exact fun _ _ => rfl
    | cons s slots ih =>
        intro g hn
        refine (ih (g.addSlot s.1 (some s.2)).1 ?_).trans ?_
        · exact Nat.lt_of_lt_of_le hn (Graph.calm_addCell g _).size
        · simp only [Graph.addSlot, Graph.addCell, Array.getElem?_push, if_neg (Nat.ne_of_lt hn)]
  rw [Graph.withBody, Graph.addWalkOver_eq]
  refine (hslots _ (g.plant body).1 ?_).trans (Array.getElem?_append_left hn)
  exact Nat.lt_of_lt_of_le hn (Graph.calm_plant g body).size

theorem Graph.exists_of_method {n : NodeId} {m : Method} (h : g.method? n = some m) :
    ∃ x, g.cells[n]? = some x ∧ x.role = .method m := by
  cases hc : g.cells[n]? with
  | none => simp [method?, role, hc] at h
  | some x =>
      refine ⟨x, rfl, ?_⟩
      cases hr : x.role <;> simp_all [method?, role]

/-- What a method is like does not change when a body is added. -/
theorem method?_withBody {method : NodeId} {m : Method} (hm : g.method? method = some m)
    (body : Expr) (inputs : List (String × Ty)) (owner : Option Atom) :
    (g.withBody body inputs owner).method? method = some m := by
  obtain ⟨c, hc, -⟩ := Graph.blank_of_method hm
  rw [← hm, Graph.method?, Graph.method?, Graph.role, Graph.role,
    getElem?_withBody _ _ _ _ (Graph.lt_size_of_blank hc)]

/-- A method that has no instance for some types has none when a body is added. -/
theorem Graph.sameRow_withBody (hfields : ∀ i x v, g.Has (.field i x v) → v < g.cells.size)
    {m : Method} {row : List (Option Ty)}
    (hnew : Table.findBy? g.heap.sameRow row m.instances = none) (body : Expr)
    (inputs : List (String × Ty)) (owner : Option Atom) :
    ∀ e ∈ m.instances, (g.withBody body inputs owner).heap.sameRow e.1 row = false := by
  intro e he
  rw [heap_calm hfields (calm_withBody g body inputs owner) (objects_withBody g body inputs owner)]
  simp only [Table.findBy?, Option.map_eq_none_iff, List.find?_eq_none] at hnew
  simpa using hnew e he

theorem Sound.sameRow_withBody (hS : Sound L g) {method : NodeId} {m : Method}
    (hm : g.method? method = some m) {row : List (Option Ty)}
    (hnew : Table.findBy? g.heap.sameRow row m.instances = none) (body : Expr)
    (inputs : List (String × Ty)) (owner : Option Atom) (m' : Method)
    (hm' : (g.withBody body inputs owner).method? method = some m') :
    ∀ e ∈ m'.instances, (g.withBody body inputs owner).heap.sameRow e.1 row = false := by
  rw [method?_withBody hm] at hm'
  cases hm'
  exact Graph.sameRow_withBody (fun i x v hv => hS.bound (hS.entries (e := .field i x v) hv)) hnew
    body inputs owner

/-- What comes after the walk over an instance was added changes no type. -/
theorem calm_specialized_withBody (hS : Sound L g) {method : NodeId} {args : List Ty} {m : Method}
    (hm : g.method? method = some m)
    (hnew : Table.findBy? g.heap.sameRow (args.map some) m.instances = none) (c : NodeId)
    (s : Site) (params : List String) (body : Expr) (receiver : Option Ty) :
    Graph.Calm (g.withBody body (instanceInputs params receiver args) (receiver.bind Ty.atom?))
      (g.specialized c s method params body receiver args) := by
  have hinst : Graph.Calm _ (g.withInstance method params body receiver args) :=
    Graph.calm_addInstance (hS.sameRow_withBody hm hnew body _ _)
  exact (hinst.trans (Graph.calm_notice _ _)).trans
    (Graph.calm_modifySite c (fun _ h => h) fun _ h => h)

theorem calm_specialized (hS : Sound L g) {method : NodeId} {args : List Ty} {m : Method}
    (hm : g.method? method = some m)
    (hnew : Table.findBy? g.heap.sameRow (args.map some) m.instances = none) (c : NodeId)
    (s : Site) (params : List String) (body : Expr) (receiver : Option Ty) :
    Graph.Calm g (g.specialized c s method params body receiver args) :=
  (calm_withBody g body _ _).trans (calm_specialized_withBody hS hm hnew c s params body receiver)

/-- A new instance is known by the types that it is for. -/
theorem has_cached_specialized (hS : Sound L g) {c : NodeId} {s : Site} {method : NodeId}
    {params : List String} {body : Expr} {receiver : Option Ty} {args : List Ty} {m : Method}
    (hm : g.method? method = some m)
    (hnew : Table.findBy? g.heap.sameRow (args.map some) m.instances = none) :
    (g.specialized c s method params body receiver args).Has
      (.mark method (.cached (args.map some) g.instances.size)) := by
  let inputs := instanceInputs params receiver args
  have hm' := method?_withBody hm body inputs (receiver.bind Ty.atom?)
  have hsame := hS.sameRow_withBody hm hnew body inputs (receiver.bind Ty.atom?) m hm'
  have hinst : (g.withInstance method params body receiver args).Has
      (.mark method (.cached (args.map some) g.instances.size)) := by
    obtain ⟨x, hx, hmethod⟩ := Graph.exists_of_method hm'
    let t := m.instances.putBy (g.withBody body inputs (receiver.bind Ty.atom?)).heap.sameRow
      (args.map some) g.instances.size
    refine ⟨{ x with role := .method { m with instances := t } }, ?_,
      Table.mem_putBy_self hsame _⟩
    have hsize := g.instances_withBody body inputs (receiver.bind Ty.atom?)
    simp only [Graph.withInstance, Graph.addInstance, Graph.modifyMethod, Array.getElem?_modify,
      Graph.newInstance, if_true]
    simp only [inputs, t] at hx hsize ⊢
    rw [hx, hsize]
    simp [hmethod]
  have hl := (Graph.calm_notice (g.withInstance method params body receiver args) (.specialize
    (receiver.map (g.withInstance method params body receiver args).heap.tyName) s.name.text
    (args.map (g.withInstance method params body receiver args).heap.tyName))).trans
    (Graph.calm_modifySite c (f := fun s => { s with busy := true }) (fun _ h => h) fun _ h => h)
  exact hl.lasts _ rfl hinst

theorem calm_resolve (hS : Sound L g) {c : NodeId} (hl : g.Linked c) :
    Graph.Calm g (g.resolve c).1 := by
  obtain ⟨s, -, -, hcases⟩ := resolves_resolve hS hl
  generalize L.resolved g c = L', g.resolve c = step at hcases
  cases hcases with
  | waiting | dispatch | undefined | arity | frozen | inst => exact .refl g
  | newDispatch => exact (Graph.calm_addDispatch g s _ _).trans (Graph.calm_notice _ _)
  | newInst hcalls hfind => exact calm_specialized hS hcalls.found hfind ..

theorem calm_addMember (hS : Sound L g) {d : NodeId} {x : Dispatch}
    (hd : L d = some (.dispatch x)) (receiver : Option Atom) (args : List Atom) :
    Graph.Calm g (g.addMember d receiver args).1 := by
  obtain ⟨y, hy, -⟩ := Graph.dispatch_of_blank (hS.fits hd).1 rfl
  rw [Graph.addMember_eq hy]
  exact ((Graph.calm_addSlots g _).trans (Graph.calm_addCell _ _)).trans
    (Graph.calm_modifyDispatch d _)

theorem Graph.EdgeOK.unique {s o : NodeId} {r r' : Reaction} (h : g.EdgeOK L s o r)
    (h' : g.EdgeOK L s o r') : r' = r := by
  obtain ⟨-, -, h⟩ := h
  obtain ⟨-, -, h'⟩ := h'
  cases r with
  | merge =>
      cases r' with
      | merge => rfl
      | resolve => exact (h h'.1).elim
      | other => exact h'.elim
  | resolve =>
      cases r' with
      | merge => exact (h' h.1).elim
      | resolve => rfl
      | other => exact h'.elim
  | other => exact h.elim

/-- A task changes no type unless it stores one. -/
theorem calm_perform (hS : Sound L g) {task : Task} (ht : task.OK L g)
    (hstore : ∀ n t, task ≠ .store n t) (hwiden : ∀ n t, task ≠ .widen n t) :
    Graph.Calm g (g.perform task).1 := by
  cases task with
  | store n t => exact (hstore n t rfl).elim
  | widen n t => exact (hwiden n t rfl).elim
  | visit w e n => exact calm_visit g w e n
  | subscribe s o r =>
      exact Graph.calm_addObserver fun r' hr' => ht.unique (hS.edge hr')
  | deliver s o r =>
      rw [Graph.perform, hS.react_eq ht]
      exact .refl g
  | react s o r t =>
      obtain ⟨s', t', rfl, rfl, he, -⟩ := ht
      rw [Graph.perform, hS.react_eq he]
      exact .refl g
  | notify n => exact .refl g
  | bind w p n =>
      rw [Graph.perform, g.graph_bind]
      exact calm_placeOf g w p (n + 1)
  | resolve c => exact calm_resolve hS ht.1
  | aim c t => exact Graph.calm_modifySite c (fun _ h => h) fun _ _ => Option.some_ne_none t
  | member d r as =>
      obtain ⟨x, hd, -⟩ := ht
      exact calm_addMember hS hd r as
  | markNew c => exact Graph.calm_modifySite c (fun _ h => h) fun _ h => h
  | finish c i => exact Graph.calm_modifySite c (fun _ h => h) fun _ h => h
  | leave w outer => exact Graph.calm_modifyWalk (fun _ => rfl) fun _ h => h

/-- Storing a type changes nothing, or it changes the type of the node and tells its observers. -/
theorem Graph.storeType_cases (g : Graph) (n : NodeId) (t : Ty) :
    (g.storeType n t = g.next [] ∧ ∃ old, g.type n = some old ∧ g.heap.same old t = true) ∨
      g.storeType n t = (g.setType n t).next ((g.observers n).map fun o => .deliver n o.1 o.2) ∧
        ∀ old, g.type n = some old → g.heap.same old t = false := by
  unfold storeType
  cases ht : g.type n with
  | none => exact .inr ⟨rfl, by simp⟩
  | some old =>
      cases hs : g.heap.same old t with
      | true => exact .inl ⟨by simp [hs], old, rfl, hs⟩
      | false => exact .inr ⟨by simp [hs], by simpa using hs⟩

/-- What is left to do when a type is stored is to tell the observers. -/
theorem Graph.mem_storeType {g' : Graph} {n : NodeId} {t : Ty} {ts : List Task}
    (h : g.storeType n t = (g', .ok ts)) {u : Task} (hu : u ∈ ts) :
    ∃ o r, (o, r) ∈ g.observers n ∧ u = .deliver n o r := by
  rcases g.storeType_cases n t with ⟨hs, -⟩ | ⟨hs, -⟩ <;> rw [hs] at h <;> cases h
  · cases hu
  · obtain ⟨⟨o, r⟩, ho, rfl⟩ := List.mem_map.mp hu
    exact ⟨o, r, ho, rfl⟩

/-- The type of a node after another type was merged into it. -/
def Graph.joined (g : Graph) (n : NodeId) (t : Ty) : Ty :=
  match g.type n with
  | some old => g.heap.merge old t
  | none => t

theorem Graph.joined_of_none {n : NodeId} (h : g.type n = none) (t : Ty) : g.joined n t = t := by
  rw [joined, h]

theorem Graph.joined_of_some {n : NodeId} {old : Ty} (h : g.type n = some old) (t : Ty) :
    g.joined n t = g.heap.merge old t := by
  rw [joined, h]

/-- Widening the type of a node stores the type that it joins to. -/
theorem Graph.widenType_eq {n : NodeId} {t : Ty} (h : (g.joined n t).WellFormed) :
    g.widenType n t = g.storeType n (g.joined n t) := by
  unfold widenType
  cases hold : g.type n with
  | none => rw [joined_of_none hold]
  | some old =>
      rw [joined_of_some hold] at h ⊢
      exact if_pos h

theorem Sound.widenType_eq (hS : Sound L g) {n : NodeId} {t : Ty} (ht : t.Valid g) :
    g.widenType n t = g.storeType n (g.joined n t) := by
  refine Graph.widenType_eq ?_
  cases hold : g.type n with
  | none =>
      rw [Graph.joined_of_none hold]
      exact ht.wellFormed
  | some old =>
      rw [Graph.joined_of_some hold]
      exact (Ty.Valid.merge (hS.typed hold).2.1 ht g.heap).wellFormed

theorem grows_storeType (g : Graph) (n : NodeId) (t : Ty) : Graph.Grows g (g.storeType n t).1 := by
  rcases g.storeType_cases n t with ⟨h, -⟩ | ⟨h, -⟩
  · rw [h]
    exact .refl g
  · rw [h]
    exact Graph.grows_setType g n t

theorem lasts_storeType (g : Graph) (n : NodeId) (t : Ty) : Graph.Lasts g (g.storeType n t).1 := by
  rcases g.storeType_cases n t with ⟨h, -⟩ | ⟨h, -⟩
  · rw [h]
    exact fun _ _ he => he
  · rw [h]
    exact Graph.lasts_setType n t

/-- No task takes back what lasts. -/
theorem lasts_perform (hS : Sound L g) {task : Task} (ht : task.OK L g) :
    Graph.Lasts g (g.perform task).1 := by
  by_cases hstore : ∃ n t, task = .store n t
  · obtain ⟨n, t, rfl⟩ := hstore
    exact lasts_storeType g n t
  · by_cases hwiden : ∃ n t, task = .widen n t
    · obtain ⟨n, t, rfl⟩ := hwiden
      rw [Graph.perform, hS.widenType_eq ht.2]
      exact lasts_storeType g n _
    · exact (calm_perform hS ht (fun n t h => hstore ⟨n, t, h⟩)
        fun n t h => hwiden ⟨n, t, h⟩).lasts

end TypeFlow
