import TypeFlow.Proofs.Templates

/-! # What lookups find again

Whatever is done to a graph, a method goes on keeping an instance for the types that it keeps one
for, and a dispatch stays what it is. Nothing is asked here of the graph or of what is done, so that
this holds of sessions that meddle with the bodies of methods, which are then copied with all that
has become of them. -/

namespace TypeFlow

/-- What was there is still there, unless another value has taken its place. -/
theorem Table.mem_putBy {κ β : Type} (same : κ → κ → Bool) (k : κ) (v : β) {t : Table κ β}
    {e : κ × β} (h : e ∈ t) : e ∈ Table.putBy same k v t ∨ (e.1, v) ∈ Table.putBy same k v t := by
  induction t with
  | nil => cases h
  | cons a t ih =>
      rw [Table.putBy]
      split
      · rcases List.mem_cons.mp h with rfl | h
        · exact .inr (List.mem_cons_self ..)
        · exact .inl (List.mem_cons_of_mem _ h)
      · rcases List.mem_cons.mp h with rfl | h
        · exact .inl (List.mem_cons_self ..)
        · exact (ih h).imp (List.mem_cons_of_mem _) (List.mem_cons_of_mem _)

/-- What was just put under a key is found under it. -/
theorem Table.findBy?_putBy {κ β : Type} {same : κ → κ → Bool} {k : κ} (hk : same k k = true) (v : β)
    (t : Table κ β) : Table.findBy? same k (Table.putBy same k v t) = some v := by
  induction t with
  | nil => simp [findBy?, hk]
  | cons a t ih =>
      rw [putBy]
      split
      · next ha => simp [findBy?, ha]
      · next ha =>
          rw [findBy?, List.find?_cons_of_neg (by simpa using ha)]
          exact ih

namespace Graph

variable {g g' : Graph}

/-- One graph has what lookups find in another: the dispatches, and an instance for all types that
a method has one for, which can only have been replaced by a new one. No instance is kept that there
is not. -/
structure Retains (g g' : Graph) : Prop where
  blank : ∀ {n : NodeId} {c : Cell}, g.blank n = some c → g'.blank n = some c
  cached : ∀ {n : NodeId} {key : List (Option Ty)} {i : InstanceId},
    g.Has (.mark n (.cached key i)) →
      ∃ j, g'.Has (.mark n (.cached key j)) ∧ (j = i ∨ g.instances.size ≤ j)
  dispatch : ∀ d ∈ g.dispatches, d ∈ g'.dispatches
  size : g.instances.size ≤ g'.instances.size
  source : ∀ {n : NodeId} {key : List (Option Ty)} {i : InstanceId},
    g'.Has (.mark n (.cached key i)) →
      i < g'.instances.size ∨ ∃ m k, g.Has (.mark m (.cached k i))

namespace Retains

theorem refl (g : Graph) : Retains g g :=
  ⟨id, fun h => ⟨_, h, .inl rfl⟩, fun _ => id, Nat.le_refl _, fun h => .inr ⟨_, _, h⟩⟩

theorem trans {a b c : Graph} (h : Retains a b) (h' : Retains b c) : Retains a c where
  blank hn := h'.blank (h.blank hn)
  cached hn := by
    obtain ⟨j, hj, hlast⟩ := h.cached hn
    obtain ⟨k, hk, hlast'⟩ := h'.cached hj
    refine ⟨k, hk, ?_⟩
    rcases hlast' with rfl | hlast'
    · exact hlast
    · exact .inr (Nat.le_trans h.size hlast')
  dispatch d hd := h'.dispatch d (h.dispatch d hd)
  size := Nat.le_trans h.size h'.size
  source hn := by
    rcases h'.source hn with hlt | ⟨m, k, hn⟩
    · exact .inl hlt
    · exact (h.source hn).imp_left fun hlt => Nat.lt_of_lt_of_le hlt h'.size

end Retains

/-! ## Changes of one cell -/

/-- A change of a cell that keeps what the cell stands for, and the instances of a method. -/
theorem retains_modify {f : Cell → Cell} (hblank : ∀ c, (f c).blank = c.blank)
    (hcached : ∀ c key i, (f c).Has (.cached key i) ↔ c.Has (.cached key i)) (g : Graph)
    (n : NodeId) : Retains g { g with cells := g.cells.modify n f } where
  blank h := by rwa [blank_modify hblank]
  cached := by
    rintro m key i ⟨c, hc, hk⟩
    refine ⟨i, ?_, .inl rfl⟩
    by_cases hnm : n = m
    · subst hnm
      exact ⟨f c, by simp [Array.getElem?_modify, hc], (hcached c key i).mpr hk⟩
    · exact ⟨c, by simpa [Array.getElem?_modify, hnm] using hc, hk⟩
  dispatch _ h := h
  size := Nat.le_refl _
  source h := by
    rcases has_modify h with h | ⟨c, k, hc, heq, hk⟩
    · exact .inr ⟨_, _, h⟩
    · cases heq
      exact .inr ⟨n, _, c, hc, (hcached ..).mp hk⟩

theorem retains_setType (g : Graph) (n : NodeId) (t : Ty) : Retains g (g.setType n t) :=
  retains_modify (f := fun c => { c with type := some t }) (fun _ => rfl) (fun _ _ _ => .rfl) g n

theorem retains_addObserver (g : Graph) (n o : NodeId) (r : Reaction) :
    Retains g (g.addObserver n o r) :=
  retains_modify (f := fun c => { c with observers := c.observers.put o r }) (fun _ => rfl)
    (fun _ _ _ => .rfl) g n

theorem retains_modifySite (g : Graph) (n : NodeId) {f : Site → Site}
    (hf : ∀ s, (f s).blank = s.blank) : Retains g (g.modifySite n f) := by
  refine retains_modify (fun c => ?_) (fun c key i => ?_) g n
  · cases hr : c.role <;> simp [Cell.blank, Role.blank, hr, hf]
  · cases hr : c.role <;> simp [Cell.Has, Role.Has, hr]

theorem retains_modifyDispatch (g : Graph) (n : NodeId) {f : Dispatch → Dispatch}
    (hf : ∀ d, (f d).blank = d.blank) : Retains g (g.modifyDispatch n f) := by
  refine retains_modify (fun c => ?_) (fun c key i => ?_) g n
  · cases hr : c.role <;> simp [Cell.blank, Role.blank, hr, hf]
  · cases hr : c.role <;> simp [Cell.Has, Role.Has, hr]

/-! ## Additions -/

/-- The cells that were there are as before, and methods among the new ones keep instances that
there are, or that some method kept already. -/
theorem retains_append (hcells : ∀ n < g.cells.size, g'.cells[n]? = g.cells[n]?)
    (hdispatch : ∀ d ∈ g.dispatches, d ∈ g'.dispatches)
    (hsize : g.instances.size ≤ g'.instances.size)
    (hsource : ∀ {n : NodeId} {key : List (Option Ty)} {i : InstanceId},
      g'.Has (.mark n (.cached key i)) →
        i < g'.instances.size ∨ ∃ m k, g.Has (.mark m (.cached k i))) : Retains g g' where
  blank h := by rwa [blank, hcells _ (lt_size_of_blank h)]
  cached := by
    rintro n key i ⟨c, hc, hk⟩
    have hlt := (Array.getElem?_eq_some_iff.mp hc).1
    exact ⟨i, ⟨c, (hcells n hlt).trans hc, hk⟩, .inl rfl⟩
  dispatch := hdispatch
  size := hsize
  source := hsource

/-- Only what is not in cells has changed. -/
theorem retains_of_cells (hcells : g'.cells = g.cells)
    (hdispatch : ∀ d ∈ g.dispatches, d ∈ g'.dispatches)
    (hsize : g.instances.size ≤ g'.instances.size) : Retains g g' :=
  retains_append (fun _ _ => by rw [hcells]) hdispatch hsize fun ⟨c, hc, hk⟩ =>
    .inr ⟨_, _, c, by rwa [← hcells], hk⟩

theorem retains_addCell {c : Cell}
    (hc : ∀ key i, c.Has (.cached key i) → ∃ m k, g.Has (.mark m (.cached k i))) :
    Retains g (g.addCell c).1 := by
  refine retains_append (fun n hn => ?_) (fun _ h => h) (Nat.le_refl _) fun h => ?_
  · simp only [addCell, Array.getElem?_push, if_neg (Nat.ne_of_lt hn)]
  · rcases has_addCell h with h | ⟨k, heq, hk⟩
    · exact .inr ⟨_, _, h⟩
    · cases heq
      exact .inr (hc _ _ hk)

/-- What is no method keeps no instances. -/
theorem retains_addCell_of_ne (g : Graph) {c : Cell} (hc : ∀ m, c.role ≠ .method m) :
    Retains g (g.addCell c).1 := by
  refine retains_addCell fun key i h => ?_
  cases hr : c.role with
  | method m => exact (hc m hr).elim
  | _ => simp [Cell.Has, hr, Role.Has] at h

theorem retains_plant (g : Graph) (e : Expr) : Retains g (g.plant e).1 :=
  retains_append (fun _ hn => Array.getElem?_append_left hn) (fun _ h => h) (Nat.le_refl _) fun h =>
    .inr ⟨_, _, has_plant h⟩

theorem retains_addSlot (g : Graph) (name : Option String) (t : Option Ty) :
    Retains g (g.addSlot name t).1 :=
  retains_addCell_of_ne g (by simp)

theorem retains_addSlots (g : Graph) (slots : List (Option String × Ty)) :
    Retains g (g.addSlots slots).1 := by
  induction slots generalizing g with
  | nil => exact .refl g
  | cons s slots ih => exact (retains_addSlot g _ _).trans (ih _)

/-- The copy of a variable, whatever it stands for, keeps what the variable does. -/
theorem retains_copyFields (g : Graph) (fields : Table String NodeId) :
    Retains g (g.copyFields fields).1 := by
  induction fields generalizing g with
  | nil => exact .refl g
  | cons f fields ih =>
      refine Retains.trans (retains_addCell fun key i h => ?_) (ih _)
      cases hc : g.cells[f.2]? with
      | none => simp [Cell.Has, role, hc, Role.Has] at h
      | some c => exact ⟨f.2, key, c, hc, by simpa [Cell.Has, role, hc] using h⟩

theorem retains_cloneObject (g : Graph) (i : ObjId) : Retains g (g.cloneObject i).1 := by
  unfold cloneObject
  split
  · exact .refl g
  · exact (retains_copyFields g _).trans (retains_of_cells rfl (fun _ h => h) (Nat.le_refl _))

theorem retains_putMethod (g : Graph) (k : Option ObjId) (name : String) (m : NodeId) :
    Retains g (g.putMethod k name m) := by
  unfold putMethod
  split <;> exact retains_of_cells rfl (fun _ h => h) (Nat.le_refl _)

theorem retains_notice (g : Graph) (n : Notice) : Retains g (g.notice n) :=
  retains_of_cells rfl (fun _ h => h) (Nat.le_refl _)

theorem retains_modifyWalk (g : Graph) (w : WalkId) (f : Walk → Walk) :
    Retains g (g.modifyWalk w f) :=
  retains_of_cells rfl (fun _ h => h) (Nat.le_refl _)

theorem retains_addDispatch (g : Graph) (s : Site) (receiver : Option Ty) (args : List Ty) :
    Retains g (g.addDispatch s receiver args).1 :=
  (retains_addCell_of_ne g (by simp)).trans
    (retains_of_cells rfl (fun _ h => List.mem_append_left _ h) (Nat.le_refl _))

/-- An instance takes the place of another one at most. -/
theorem retains_addInstance (g : Graph) (x : Instance) : Retains g (g.addInstance x).1 where
  blank h := (grows_addInstance g x).blank h
  cached := by
    intro n key i h
    obtain ⟨m, hm, hmem⟩ := has_cached.mp h
    have hm' := method?_addInstance g x n
    rw [hm, Option.map_some] at hm'
    split at hm'
    · rcases Table.mem_putBy g.heap.sameRow x.params g.instances.size hmem with hput | hput
      · exact ⟨i, has_cached.mpr ⟨_, hm', hput⟩, .inl rfl⟩
      · exact ⟨_, has_cached.mpr ⟨_, hm', hput⟩, .inr (Nat.le_refl _)⟩
    · exact ⟨i, has_cached.mpr ⟨m, hm', hmem⟩, .inl rfl⟩
  dispatch _ h := h
  size := by simp [addInstance, modifyMethod]
  source h := by
    rcases has_addInstance h with h | h | ⟨key, h, -⟩
    · exact .inr ⟨_, _, h⟩
    · cases h
    · cases h
      exact .inl (by simp [addInstance, modifyMethod])

/-! ## Copies -/

theorem renumber_cases (base : Nat) (kept : List Nat) (n : Nat) :
    renumber base kept n = n ∨ renumber base kept n < base + kept.length := by
  unfold renumber
  split
  · next k hk => exact .inr (Nat.add_lt_add_left (List.idxOf?_eq_some_iff.mp hk).1 _)
  · exact .inl rfl

/-- A copied method keeps copies of the instances that the method keeps, or those instances. -/
theorem retains_copyPieces (g : Graph) (pieces : List Piece) : Retains g (g.copyPieces pieces).1 := by
  let kept := (List.range g.instances.size).filter fun i => pieces.contains (.inst i)
  have hsize : (g.copyPieces pieces).1.instances.size = g.instances.size + kept.length := by
    simpa [copyPieces, kept] using fun _ h _ => h
  refine retains_append (fun n hn => Array.getElem?_append_left hn) (fun _ h => h)
    (hsize ▸ Nat.le_add_right ..) ?_
  rintro n key i ⟨c, hc, hk⟩
  simp only [copyPieces, Array.getElem?_append] at hc
  split at hc
  · exact .inr ⟨n, key, c, hc, hk⟩
  · simp only [List.getElem?_toArray, List.getElem?_map, Option.map_eq_some_iff] at hc
    obtain ⟨c, hc, rfl⟩ := hc
    obtain ⟨n', -, hc⟩ := List.mem_filterMap.mp (List.mem_of_getElem? hc)
    cases hr : c.role with
    | method m =>
        simp only [Cell.Has, Renaming.cellOf, Renaming.role, hr, Role.Has, Renaming.method,
          List.mem_map, Prod.mk.injEq] at hk
        obtain ⟨e, he, -, rfl⟩ := hk
        rw [hsize]
        rcases renumber_cases g.instances.size kept e.2 with heq | hlt
        · rw [heq]
          exact .inr ⟨n', e.1, has_cached.mpr ⟨m, method?_eq_some_iff.mpr ⟨c, hc, hr⟩, he⟩⟩
        · exact .inl hlt
    | _ => simp [Cell.Has, Renaming.cellOf, Renaming.role, hr, Role.Has] at hk

theorem retains_copyTree {e : Expr} {root copy : NodeId} (h : g.copyTree? e root = some (g', copy)) :
    Retains g g' := by
  unfold copyTree? at h
  split at h
  · cases h
    exact retains_plant g e
  · obtain ⟨pieces, -, heq⟩ := Option.map_eq_some_iff.mp h
    cases heq
    exact retains_copyPieces g pieces

/-! ## Tasks -/

theorem retains_variableOf (g : Graph) (w : WalkId) (name : String) :
    Retains g (g.variableOf w name).1 := by
  unfold variableOf
  split
  · exact .refl g
  · exact (retains_addSlot g _ _).trans (retains_modifyWalk _ w _)

theorem retains_fieldOf (g : Graph) (i : ObjId) (name : String) :
    Retains g (g.fieldOf i name).1 := by
  unfold fieldOf
  split
  · exact .refl g
  · exact (retains_addSlot g _ _).trans (retains_of_cells rfl (fun _ h => h) (Nat.le_refl _))

theorem retains_placeOf (g : Graph) (w : WalkId) (p : Place) (n : NodeId) :
    Retains g (g.placeOf w p n).1 := by
  unfold placeOf
  cases p.kind with
  | localVar => exact retains_variableOf g w p.name.text
  | instanceVar =>
      cases (g.walk w).self with
      | none => exact .refl g
      | some i => exact retains_fieldOf g i p.name.text

theorem retains_visit (g : Graph) (w : WalkId) (e : Expr) (n : NodeId) :
    Retains g (g.visit w e n).1 := by
  generalize hvisit : (g.visit w e n).1 = g'
  cases Graph.visits hvisit with
  | same => exact .refl g
  | place => exact g.retains_placeOf ..
  | method => exact g.retains_putMethod ..
  | entered | defined => exact retains_of_cells rfl (fun _ h => h) (Nat.le_refl _)
  | call => exact g.retains_modifySite n fun _ => rfl
  | clone => exact g.retains_cloneObject _

theorem retains_storeType (g : Graph) (n : NodeId) (t : Ty) : Retains g (g.storeType n t).1 := by
  unfold storeType
  split
  · split
    · exact .refl g
    · exact retains_setType g n t
  · exact retains_setType g n t

theorem retains_widenType (g : Graph) (n : NodeId) (t : Ty) : Retains g (g.widenType n t).1 := by
  unfold widenType
  split
  · exact retains_storeType g n t
  · dsimp only
    split
    · exact retains_storeType g n _
    · exact .refl g

theorem retains_react (g : Graph) (source : Option NodeId) (n : NodeId) (r : Reaction)
    (t : Option Ty) : Retains g (g.react source n r t).1 := by
  have hhear : Retains g (g.hear ⟨n, source, r, t⟩) :=
    retains_of_cells rfl (fun _ h => h) (Nat.le_refl _)
  unfold react
  split
  · exact hhear
  · exact .refl g
  · exact hhear
  · exact .refl g
  · exact .refl g
  · exact .refl g

theorem retains_addMember (g : Graph) (d : NodeId) (r : Option Atom) (as : List Atom) :
    Retains g (g.addMember d r as).1 := by
  unfold addMember
  split
  · exact .refl g
  · exact (retains_addSlots g _).trans <| (retains_addSlots _ _).trans <|
      (retains_addCell_of_ne _ (by simp)).trans (retains_modifyDispatch _ d fun _ => rfl)

theorem retains_addWalkOver (g : Graph) (inputs : List (String × Ty)) (owner : Option Atom) :
    Retains g (g.addWalkOver inputs owner).1 := by
  rw [addWalkOver_eq]
  exact (retains_addSlots g _).trans (retains_of_cells rfl (fun _ h => h) (Nat.le_refl _))

theorem retains_specialize (g : Graph) (c : NodeId) (s : Site) (receiver : Option Ty)
    (args : List Ty) (method : NodeId) (m : Method) (body : Expr) (template : NodeId) :
    Retains g (g.specialize c s receiver args method m body template).1 := by
  unfold specialize
  split
  · exact .refl g
  · next g₀ root hcopy =>
      have hmade : ∀ inputs owner x,
          Retains g ((g₀.addWalkOver inputs owner).1.addInstance x).1 := fun inputs owner x =>
        (retains_copyTree hcopy).trans
          ((g₀.retains_addWalkOver inputs owner).trans (retains_addInstance _ x))
      dsimp only
      split
      · exact hmade ..
      · exact (hmade ..).trans
          ((retains_notice ..).trans (retains_modifySite _ c fun _ => rfl))

theorem retains_resolve (g : Graph) (c : NodeId) : Retains g (g.resolve c).1 := by
  generalize hstep : g.resolve c = step
  cases Graph.decides hstep with
  | stuck | refused | waiting | dispatch | inst => exact .refl g
  | newDispatch =>
      exact (retains_addDispatch g _ _ _).trans
        (retains_of_cells rfl (fun _ h => h) (Nat.le_refl _))
  | newInst => exact g.retains_specialize ..

theorem retains_bind (g : Graph) (w : WalkId) (p : Place) (n : NodeId) :
    Retains g (g.bind w p n).1 := by
  rw [g.graph_bind]
  exact g.retains_placeOf w p (n + 1)

/-- Whatever is done, what lookups find is found again. -/
theorem retains_perform (g : Graph) (task : Task) : Retains g (g.perform task).1 := by
  cases task with
  | visit w e n => exact g.retains_visit w e n
  | store n t => exact g.retains_storeType n t
  | widen n t => exact g.retains_widenType n t
  | subscribe s o r => exact g.retains_addObserver s o r
  | deliver s o r => exact g.retains_react ..
  | react s o r t => exact g.retains_react ..
  | notify n => exact .refl g
  | bind w p n => exact g.retains_bind w p n
  | resolve c => exact g.retains_resolve c
  | member d r as => exact g.retains_addMember d r as
  | aim c | markNew c | finish c => exact g.retains_modifySite c fun _ => rfl
  | leave w outer => exact g.retains_modifyWalk w _

theorem retains_unwind (g : Graph) (f : Fault) (ts : List Task) : Retains g (g.unwind f ts).1 := by
  induction ts generalizing g f with
  | nil => exact .refl g
  | cons t ts ih =>
      cases t with
      | finish c i =>
          exact (g.retains_modifySite c (f := fun s => { s with busy := false }) fun _ => rfl).trans
            (ih _ _)
      | leave w outer => exact (g.retains_modifyWalk w _).trans (ih _ _)
      | _ => exact ih g f

/-- So it is after any number of tasks, even if one of them fails. -/
theorem retains_run (budget : Nat) (g : Graph) (tasks : List Task) :
    Retains g (run budget g tasks).1 := by
  induction budget generalizing g tasks with
  | zero =>
      rw [run_zero]
      exact .refl g
  | succ budget ih =>
      cases tasks with
      | nil => exact .refl g
      | cons task rest =>
          have hstep := g.retains_perform task
          cases hp : g.perform task with
          | mk g' result =>
              rw [hp] at hstep
              cases result with
              | ok ts =>
                  rw [run_cons_ok budget hp]
                  exact hstep.trans (ih g' _)
              | error f =>
                  rw [run_cons_error budget hp]
                  exact hstep.trans (g'.retains_unwind f rest)

end Graph

end TypeFlow
