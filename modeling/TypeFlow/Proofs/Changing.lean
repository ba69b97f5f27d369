import TypeFlow.Proofs.Likeness
import TypeFlow.Workbench

/-! # Equality while object types change

Whatever has been done with types on a workbench, their equality is reflexive and transitive. It is
symmetric as long as the unions list members that are not alike, and ways through fields end. A
union keeps the members that it was built from, so that it may come to list equal ones. -/

namespace TypeFlow

namespace Graph

/-- No object type has two fields of one name. -/
def NamesFields (g : Graph) : Prop :=
  ∀ (i : ObjId) (o : ObjectType), g.objects[i]? = some o → (o.fields.map (·.1)).Nodup

variable {g g' : Graph}

theorem NamesFields.of_eq (h : g.NamesFields) (heq : g'.objects = g.objects) : g'.NamesFields := by
  rw [NamesFields, heq]
  exact h

theorem NamesFields.heap (h : g.NamesFields) (i : ObjId) :
    ((g.heap.fields i).map (·.1)).Nodup := by
  simp only [Graph.heap]
  cases ho : g.objects[i]? with
  | none => exact List.nodup_nil
  | some o => simpa [Function.comp_def] using h i o ho

theorem NamesFields.push (h : g.NamesFields) {o : ObjectType}
    (ho : (o.fields.map (·.1)).Nodup) (heq : g'.objects = g.objects.push o) : g'.NamesFields := by
  intro i x hx
  rw [heq, Array.getElem?_push] at hx
  split at hx
  · cases hx
    exact ho
  · exact h i x hx

theorem NamesFields.cloneObject (h : g.NamesFields) (i : ObjId) :
    (g.cloneObject i).1.NamesFields := by
  unfold Graph.cloneObject
  cases ho : g.objects[i]? with
  | none => exact h
  | some o =>
      refine h.push (o := { o with fields := (g.copyFields o.fields).2 }) ?_
        (congrArg (Array.push · _) (objects_copyFields g o.fields))
      have hnames : (g.copyFields o.fields).2.map (·.1) = o.fields.map (·.1) := by
        rw [snd_copyFields]
        exact List.ext_getElem (by simp) (by simp)
      rw [hnames]
      exact h i o ho

theorem NamesFields.setField (h : g.NamesFields) (i : ObjId) (name : String) (t : Option Ty) :
    (g.setField i name t).NamesFields := by
  intro j o ho
  simp only [Graph.setField, putField, addSlot, addCell, Array.getElem?_modify] at ho
  split at ho
  · obtain ⟨x, hx, rfl⟩ := Option.map_eq_some_iff.mp ho
    exact Table.nodup_put (h j x hx)
  · exact h j o ho

theorem objects_storeType (g : Graph) (n : NodeId) (t : Ty) :
    (g.storeType n t).1.objects = g.objects := by
  rcases g.storeType_cases n t with ⟨hs, -⟩ | ⟨hs, -⟩ <;> rw [hs] <;> rfl

theorem objects_widenType (g : Graph) (n : NodeId) (t : Ty) :
    (g.widenType n t).1.objects = g.objects := by
  unfold widenType
  split
  · exact objects_storeType g n t
  · dsimp only
    split
    · exact objects_storeType g n _
    · rfl

theorem objects_addSignature {m : NodeId} {params : List (Option Ty)} {result : Option Ty}
    (h : g.addSignature? m params result = some g') : g'.objects = g.objects := by
  simp only [addSignature?, Option.bind_eq_bind, Option.bind_eq_some_iff] at h
  obtain ⟨x, -, -, -, h⟩ := h
  cases h
  rfl

end Graph

namespace Workbench

variable {w : Workbench}

theorem objects_join (w : Workbench) (x y : Held) :
    (w.join x y).1.graph.objects = w.graph.objects := by
  unfold join
  dsimp only
  split
  · rfl
  · split <;> rfl

theorem objects_joinOption {x y : Option Held} {p : Workbench × Option Held}
    (h : w.joinOption x y = some p) : p.1.graph.objects = w.graph.objects := by
  cases x <;> cases y <;> simp only [joinOption, reduceCtorEq, Option.some.injEq] at h
  · subst h
    rfl
  · subst h
    exact w.objects_join _ _

theorem objects_joinAll {x : Option Held} {ys : List (Option Held)} {p : Workbench × Option Held}
    (h : w.joinAll x ys = some p) : p.1.graph.objects = w.graph.objects := by
  induction ys generalizing w x with
  | nil =>
      cases h
      rfl
  | cons y ys ih =>
      obtain ⟨q, hq, h⟩ := Option.bind_eq_some_iff.mp h
      exact (ih h).trans (objects_joinOption hq)

/-- A step adds an object type, gives one a field, or leaves all object types as they are. -/
theorem namesFields_step (h : w.graph.NamesFields) (s : WorkbenchStep) :
    (w.step s).1.graph.NamesFields := by
  cases s with
  | object name => exact h.push (o := ⟨name, _, []⟩) List.nodup_nil rfl
  | clone a =>
      simp only [step, clone]
      split
      · exact h.cloneObject _
      · exact h
  | setField a name b =>
      simp only [step, setField]
      split
      · exact h.setField _ _ _
      · exact h
  | widenField a name b =>
      simp only [step, widenField]
      split
      · exact h
      · split
        · exact h
        · split
          · exact h
          · exact h.of_eq (Graph.objects_widenType _ _ _)
  | merge a b =>
      simp only [step, merge]
      split
      · next heq => exact h.of_eq (objects_joinOption heq)
      · exact h
  | fold ts =>
      simp only [step, fold]
      split
      · exact h
      · split
        · next heq => exact h.of_eq (objects_joinAll heq)
        · exact h
  | union ts =>
      simp only [step, union]
      split
      · exact h
      · split <;> exact h.of_eq rfl
  | addSignature name ts r =>
      simp only [step, addSignature]
      split
      · exact h
      · split
        · exact h
        · split
          · next heq => exact h.of_eq (Graph.objects_addSignature heq)
          · exact h
  | define name arity frozen =>
      simp only [step, define]
      cases frozen <;> exact h.of_eq rfl
  | prim | equal => exact h
  | getInstance =>
      simp only [step, getInstance]
      split <;> exact h
  | members | name | fields =>
      simp only [step, ask]
      split <;> exact h
  | addMethod =>
      simp only [step, addMethod]
      split <;> exact h
  | findMethod =>
      simp only [step, findMethod]
      split <;> exact h
  | putInstance =>
      simp only [step, putInstance]
      split <;> exact h
  | keys =>
      simp only [step, keys]
      split <;> exact h

/-- The workbench after steps of any kind, refused ones included. -/
def run (steps : List WorkbenchStep) : Workbench := steps.foldl (fun w s => (w.step s).1) {}

theorem namesFields_run (steps : List WorkbenchStep) : (run steps).graph.NamesFields := by
  suffices hfold : ∀ w : Workbench, w.graph.NamesFields →
      (steps.foldl (fun w s => (w.step s).1) w).graph.NamesFields from
    hfold {} fun i o ho => by cases ho
  induction steps with
  | nil => exact fun _ h => h
  | cons s steps ih => exact fun _ h => ih _ (namesFields_step h s)

/-- After any steps equality is reflexive and transitive. It is symmetric between types from one of
which no way through fields leads on for ever, if all unions were built from members that are not
alike, and that are not alike now. -/
theorem equality_of_steps (steps : List WorkbenchStep) :
    let h := (run steps).graph.heap
    (∀ t, h.same t t = true) ∧
      (∀ s t u, h.same s t = true → h.same t u = true → h.same s u = true) ∧
      ((∀ i, ∀ f ∈ h.fields i, ∀ t ∈ f.2, t.Sharp h) → ∀ s t, s.Sharp h → t.Sharp h →
        s.Settles h ∨ t.Settles h → h.same s t = true → h.same t s = true) := by
  intro h
  have hb : h.Bounded := (run steps).graph.bounded_heap
  refine ⟨h.same_self, fun s t u hst htu => ?_, fun hunions s t hs ht hsettle hst => ?_⟩
  · exact Ty.sameBy_trans (fun _ _ ⟨_, hab, hbc⟩ => Heap.sameObjects_trans hb hab hbc) hst htu
  · have hh : h.Sharp := ⟨hb, (namesFields_run steps).heap, hunions⟩
    have halike := hh.alikeTypes_of_same hs ht hst (hsettle.imp_right .inl)
    exact hh.same_of_alikeTypes ht hs (h.alikeTypes_equivalence.symm halike)

/-- Three object types differ when two unions that list them are built, and have the same fields
later on. -/
def converging : List WorkbenchStep := [
  .prim "Int", .prim "Float", .object "C", .object "C", .object "C", .object "C",
  .setField 2 "v" (some 0), .setField 3 "v" none, .setField 4 "v" (some 1),
  .union [2, 3, 4], .union [2, 3, 5], .widenField 3 "v" (some 0), .setField 5 "v" (some 0)]

/-- Equality need not be symmetric, nor joining commutative: a union that lists equal members has an
equal one for each member of a union as long that lists nothing else, but not the other way round.
-/
theorem asymmetric_of_steps :
    let h := (run converging).graph.heap
    let s : Ty := .union [.obj 0, .obj 1, .obj 2] [.obj 0, .obj 1, .obj 2]
    let t : Ty := .union [.obj 0, .obj 1, .obj 3] [.obj 0, .obj 1, .obj 3]
    (run converging).type? 9 = some s ∧ (run converging).type? 10 = some t ∧
      h.same s t = true ∧ h.same t s = false ∧ h.same (h.merge s t) (h.merge t s) = false := by
  refine ⟨?_, ?_, ?_, ?_, ?_⟩ <;> decide +kernel

end Workbench

end TypeFlow
