import TypeFlow.Proofs.Seeds
import TypeFlow.Proofs.Telling

/-! # Where object types come from

Unions, dispatches, parameters and fields only pass concrete types on. An object type that is new to
a program is a clone that was made for the construction of an object. -/

namespace TypeFlow

/-- The concrete types that a task brings along. -/
def Task.atoms : Task → List Atom
  | .store _ t | .widen _ t => t.members
  | .react _ _ _ t => t.toList.flatMap Ty.members
  | .member _ r as => r.toList ++ as
  | _ => []

/-- What a task gives to a node itself, without regard to what the node has. -/
def Task.stored? : Task → Option (NodeId × Ty)
  | .store n t => some (n, t)
  | _ => none

namespace Graph

/-- A concrete type is in use: it is in the type of a cell or of a parameter of an instance, a task
brings it along, or it is the object type whose method a walk goes over. -/
inductive Uses (c : Config) : Atom → Prop where
  | typed {n : NodeId} {t : Ty} {a : Atom} : c.1.type n = some t → a ∈ t.members → Uses c a
  | param {i : InstanceId} {x : Instance} {t : Ty} {a : Atom} : c.1.instances[i]? = some x →
      some t ∈ x.params → a ∈ t.members → Uses c a
  | brought {task : Task} {a : Atom} : task ∈ c.2 → a ∈ task.atoms → Uses c a
  | self {w : WalkId} {i : ObjId} : (c.1.walk w).self = some i → Uses c (.obj i)

/-- The types that a walk gives to expressions of itself, each with the graph after that. -/
inductive Gives (g : Graph) (w : WalkId) : Expr → Ty → Graph → Prop where
  | prim {e : Expr} (name : String) : e.isNew = false → g.Gives w e (.prim name) g
  | own {c nm : Token} {as : List Expr} {p : Bool} {i : ObjId} : (g.walk w).self = some i →
      g.heap.name i = c.text → g.Gives w (.call (some (.const c)) nm as p) (.obj i) g
  | clone {c nm : Token} {as : List Expr} {p : Bool} {q : ObjId} :
      g.classes.lookup c.text = some q →
      g.Gives w (.call (some (.const c)) nm as p) (.obj (g.cloneObject q).2) (g.cloneObject q).1

variable {L : Labels} {g g' : Graph} {task : Task} {ts rest : List Task}

theorem Uses.mono {c c' : Config} {a : Atom} (h : Uses c a) (hg : c'.1 = c.1)
    (hts : ∀ t ∈ c.2, t ∈ c'.2) : Uses c' a := by
  cases h with
  | typed ht ha => exact .typed (by rwa [hg]) ha
  | param hx ht ha => exact .param (by rwa [hg]) ht ha
  | brought ht ha => exact .brought (hts _ ht) ha
  | self hi => exact .self (by rwa [hg])

theorem classes_copyFields (g : Graph) (fields : Table String NodeId) :
    (g.copyFields fields).1.classes = g.classes := by
  induction fields generalizing g with
  | nil => rfl
  | cons f fields ih => exact ih _

/-- A clone is behind all object types, and is like what it is a clone of but for its fields. -/
theorem cloneObject_spec {q : ObjId} {o : ObjectType} (ho : g.objects[q]? = some o) :
    (g.cloneObject q).2 = g.objects.size ∧ (g.cloneObject q).1.classes = g.classes ∧
      ∃ fields, (g.cloneObject q).1.objects = g.objects.push { o with fields } := by
  simp only [cloneObject, ho, objects_copyFields, classes_copyFields, true_and]
  exact ⟨_, rfl⟩

/-! ## What tasks bring along -/

theorem gives_of_visit {w : WalkId} {e : Expr} {n : NodeId} (hp : g.visit w e n = (g', .ok ts)) :
    ∀ u ∈ ts, (∃ t, u = .store n t ∧ g.Gives w e t g') ∨ u.stored? = none ∧ u.atoms = [] := by
  intro u hu
  cases follows_of_visit none hp hu with
  | literal | loop | empty => exact .inl ⟨_, rfl, .prim _ rfl⟩
  | own _ hself hname => exact .inl ⟨_, rfl, .own hself hname⟩
  | clone _ hclass => exact .inl ⟨_, rfl, .clone hclass⟩
  | _ => exact .inr ⟨rfl, rfl⟩

section step

variable (hS : Sound L g) (hok : task.OK L g)
include hS

/-- What is recorded when a call is resolved belongs to a new dispatch, or to a new instance for the
types of the inputs. -/
theorem has_resolve_inputs {c : NodeId} (hl : g.Linked c) {e : Entry}
    (h : (g.resolve c).1.Has e) : g.Has e ∨ e = .dispatch g.cells.size ∨
      ∃ s receiver args method params body, g.inputs? s = some (receiver, args) ∧
        g.NewInstance c method params body receiver args e := by
  obtain ⟨s, -, -, hcases⟩ := resolves_resolve hS hl
  generalize L.resolved g c = L', g.resolve c = step at hcases h
  cases hcases with
  | waiting | dispatch | undefined | arity | frozen | inst => exact .inl h
  | newDispatch => exact (has_addDispatch (has_notice h)).imp_right .inl
  | newInst hcalls =>
      exact (has_specialized h).imp_right fun hnew => .inr ⟨_, _, _, _, _, _, hcalls.inputs, hnew⟩

include hok

/-- The tasks that a task leaves bring along what it brought itself, or what some cell has; only a
walk gives types of its own. -/
theorem brings_perform (hp : g.perform task = (g', .ok ts)) : ∀ u ∈ ts,
    (∃ w e n t, task = .visit w e n ∧ u = .store n t ∧ g.Gives w e t g') ∨
      u.stored? = none ∧ ∀ a ∈ u.atoms, Uses (g, [task]) a := by
  intro u hu
  have hempty : u.stored? = none → u.atoms = [] →
      u.stored? = none ∧ ∀ a ∈ u.atoms, Uses (g, [task]) a := by
    intro hnone hnil
    refine ⟨hnone, fun a ha => ?_⟩
    rw [hnil] at ha
    cases ha
  by_cases hvisit : ∃ w e n, task = .visit w e n
  · obtain ⟨w, e, n, rfl⟩ := hvisit
    rcases gives_of_visit hp u hu with ⟨t, rfl, hgives⟩ | ⟨hnone, hnil⟩
    · exact .inl ⟨w, e, n, t, rfl, rfl, hgives⟩
    · exact .inr (hempty hnone hnil)
  right
  cases leads_perform hS hok hp hu with
  | subscribed ht => exact ⟨rfl, fun a ha => .typed ht (by simpa [Task.atoms] using ha)⟩
  | delivered ht => exact ⟨rfl, fun a ha => .typed ht ha⟩
  | merged =>
      exact ⟨rfl, fun a ha => .brought (List.mem_singleton_self _) (by simpa [Task.atoms] using ha)⟩
  | opened =>
      obtain ⟨s, receiver, args, -, -, hin, -, -, hmem⟩ := member_of_resolve hS hok.1 hp hu
      refine ⟨rfl, fun a ha => ?_⟩
      obtain ⟨t, ht, hat⟩ := exists_of_memberTasks hmem ha
      obtain ⟨v, -, hv⟩ := exists_of_inputs hin ht
      exact .typed hv hat
  | visited | typed | connected | assigned | called | made | entered =>
      exact (hvisit ⟨_, _, _, rfl⟩).elim
  | _ => exact hempty rfl rfl

/-- What a cell has after a task was in use before. -/
theorem typed_perform {n : NodeId} {t : Ty} (ht : (g.perform task).1.type n = some t) {a : Atom}
    (ha : a ∈ t.members) : Uses (g, [task]) a := by
  rcases has_perform hS hok (has_typed.mpr ht) with hold | hrec
  · exact .typed (has_typed.mp hold) ha
  generalize hen : Entry.mark n (.typed t) = en at hrec
  cases hrec with
  | stored =>
      cases hen
      exact .brought (List.mem_singleton_self _) ha
  | widened =>
      cases hen
      cases hold : g.type n with
      | none =>
          rw [joined_of_none hold] at ha
          exact .brought (List.mem_singleton_self _) ha
      | some old =>
          rw [joined_of_some hold] at ha
          rcases Heap.mem_of_mem_merge ha with ha | ha
          · exact .typed hold ha
          · exact .brought (List.mem_singleton_self _) ha
  | read h | bound h =>
      rcases h.var_or_field with rfl | ⟨_, -, rfl⟩ <;> cases hen
  | @slot d r as j s hj =>
      cases hen
      refine .brought (List.mem_singleton_self _) ?_
      rcases List.mem_append.mp (List.mem_of_getElem? hj) with hs | hs <;>
        obtain ⟨b, hb, rfl⟩ := List.mem_map.mp hs <;> cases List.mem_singleton.mp ha
      · exact List.mem_append_left _ hb
      · exact List.mem_append_right _ hb
  | @copied w c nm as p n' j t' =>
      rw [perform] at ht
      generalize hvisit : (g.visit w (.call (some (.const c)) nm as p) n').1 = g₁ at ht
      cases Graph.visits hvisit with
      | same => exact .typed ht ha
      | call => exact .typed ((g.type_modifySite n' n _).symm.trans ht) ha
      | @clone _ _ _ _ q _ hq =>
          -- A clone has types of fields only, and these are copies.
          obtain ⟨o, ho, -⟩ := hS.entries (e := .klass c.text q) (Table.mem_of_lookup hq)
          rcases has_cloneObject ho (hS.field_slot ho) (has_typed.mpr ht) with
            hold | ⟨j, f, -, ⟨t', ht', heq⟩ | heq⟩
          · exact .typed (has_typed.mp hold) ha
          · cases heq
            exact .typed ht' ha
          · cases heq
  | inst =>
      rcases has_resolve_inputs hS hok.1 (has_typed.mpr ht) with hold | heq |
        ⟨s, receiver, args, method, params, body, hin, hnew⟩
      · exact .typed (has_typed.mp hold) ha
      · cases heq
      · generalize hen' : Entry.mark n (.typed t) = en' at hnew
        cases hnew with
        | @slot j p hp =>
            cases hen'
            have hmem : p.2 ∈ receiver.toList ++ args := by
              rcases List.mem_append.mp (List.mem_of_getElem? hp) with hp | hp
              · obtain ⟨u, hu, rfl⟩ := List.mem_map.mp hp
                exact List.mem_append_left _ hu
              · exact List.mem_append_right _ (List.of_mem_zip hp).2
            obtain ⟨v, -, hv⟩ := exists_of_inputs hin hmem
            exact .typed hv ha
        | _ => cases hen'
  | _ => cases hen

/-- An instance was there before, or it is new and for the inputs of a call; and so is the object
type whose method a walk goes over. -/
theorem has_perform_inputs {e : Entry} (h : (g.perform task).1.Has e)
    (he : (∃ i x, e = .inst i x) ∨ ∃ w i, e = .self w i) :
    g.Has e ∨ ∃ c s receiver args method params body, g.inputs? s = some (receiver, args) ∧
      g.NewInstance c method params body receiver args e := by
  rcases has_perform hS hok h with hold | hrec
  · exact .inl hold
  cases hrec with
  | read hplace | bound hplace =>
      rcases hplace.var_or_field with rfl | ⟨_, -, rfl⟩ <;> simp at he
  | @inst c =>
      rcases has_resolve_inputs hS hok.1 h with hold | rfl | hnew
      · exact .inl hold
      · simp at he
      · exact .inr ⟨c, hnew⟩
  | _ => simp at he

/-- What a parameter of an instance has for a type was in use before. -/
theorem param_perform {i : InstanceId} {x : Instance}
    (hx : (g.perform task).1.instances[i]? = some x) {t : Ty} (ht : some t ∈ x.params) {a : Atom}
    (ha : a ∈ t.members) : Uses (g, [task]) a := by
  rcases has_perform_inputs hS hok (e := .inst i x) hx (.inl ⟨i, x, rfl⟩) with hold |
    ⟨c, s, receiver, args, method, params, body, hin, hnew⟩
  · exact .param hold ht ha
  generalize hen : Entry.inst i x = en at hnew
  cases hnew with
  | inst =>
      cases hen
      obtain ⟨u, hu, heq⟩ := List.mem_map.mp ht
      cases heq
      obtain ⟨v, -, hv⟩ := exists_of_inputs hin (List.mem_append_right _ hu)
      exact .typed hv ha
  | _ => cases hen

/-- The object type whose method a walk goes over was in use before. -/
theorem self_perform {w : WalkId} {i : ObjId} (hi : ((g.perform task).1.walk w).self = some i) :
    Uses (g, [task]) (.obj i) := by
  rcases has_perform_inputs hS hok (e := .self w i) hi (.inr ⟨w, i, rfl⟩) with hold |
    ⟨c, s, receiver, args, method, params, body, hin, hnew⟩
  · exact .self hold
  generalize hen : Entry.self w i = en at hnew
  cases hnew with
  | @self j hj =>
      cases hen
      obtain ⟨a, ha, haj⟩ := Option.bind_eq_some_iff.mp hj
      obtain ⟨u, hu, hua⟩ := Option.bind_eq_some_iff.mp ha
      obtain ⟨v, -, hv⟩ := exists_of_inputs hin
        (List.mem_append_left _ (Option.mem_toList.mpr hu))
      refine .typed hv ?_
      cases u with
      | union => cases hua
      | one b =>
          cases hua
          cases a with
          | prim => cases haj
          | obj k =>
              cases haj
              exact List.mem_singleton_self _
  | _ => cases hen

/-- A concrete type that is in use after a task was in use before, or a walk gives it to a node. -/
theorem uses_step (hp : g.perform task = (g', .ok ts)) {a : Atom} (ha : Uses (g', ts ++ rest) a) :
    Uses (g, task :: rest) a ∨
      ∃ w e n t, task = .visit w e n ∧ g.Gives w e t g' ∧ a ∈ t.members := by
  have hgraph : (g.perform task).1 = g' := by rw [hp]
  have hold : Uses (g, [task]) a → Uses (g, task :: rest) a := fun h =>
    h.mono rfl fun t ht => List.mem_cons.mpr (.inl (List.mem_singleton.mp ht))
  cases ha with
  | typed ht ha => exact .inl (hold (typed_perform hS hok (by rw [hgraph]; exact ht) ha))
  | param hx ht ha => exact .inl (hold (param_perform hS hok (by rw [hgraph]; exact hx) ht ha))
  | self hi => exact .inl (hold (self_perform hS hok (by rw [hgraph]; exact hi)))
  | brought hu ha =>
      rcases List.mem_append.mp hu with hu | hu
      · rcases brings_perform hS hok hp _ hu with ⟨w, e, n, t, rfl, rfl, hgives⟩ | ⟨-, huses⟩
        · exact .inr ⟨w, e, n, t, rfl, hgives, ha⟩
        · exact .inl (hold (huses _ ha))
      · exact .inl (.brought (List.mem_cons_of_mem _ hu) ha)

end step

end Graph

end TypeFlow
