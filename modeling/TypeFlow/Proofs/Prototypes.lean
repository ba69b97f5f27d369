import TypeFlow.Proofs.FieldFree
import TypeFlow.Proofs.Origins

/-! # Prototypes stay out of use

The prototype of a class is there to be cloned. No type has it for a member, be it the type of a
cell or of a parameter of an instance, and no walk goes over a method of it, so it never gets a
field. All object types that are in use are clones of prototypes. -/

namespace TypeFlow

/-- A key with one value has it. -/
theorem Table.lookup_of_unique {κ β : Type} [BEq κ] [LawfulBEq κ] {t : Table κ β} {k : κ} {v : β}
    (hk : (k, v) ∈ t) (h : ∀ v', (k, v') ∈ t → v' = v) : t.lookup k = some v := by
  cases hl : t.lookup k with
  | none => simpa using ne_of_lookup_none hl hk
  | some v' => rw [h v' (mem_of_lookup hl)]

namespace Graph

/-- An object type is a clone: it is not the prototype of a class, and its methods are those of the
prototype of the class that it is named after. -/
structure IsClone (g : Graph) (i : ObjId) : Prop where
  proper : ∀ name, (name, i) ∉ g.classes
  methods : ∃ o p q, g.objects[i]? = some o ∧ g.classes.lookup o.name = some p ∧
    g.objects[p]? = some q ∧ o.methods = q.methods

/-- Each class has one prototype, and no prototype has fields. -/
structure HasPrototypes (g : Graph) : Prop where
  unique : ∀ name p p', (name, p) ∈ g.classes → (name, p') ∈ g.classes → p' = p
  fieldless : ∀ name p x v, (name, p) ∈ g.classes → ¬ g.Has (.field p x v)

/-- All object types that are in use are clones. -/
structure Cloning (L : Labels) (c : Config) : Prop where
  sound : Sound.Config L c
  prototypes : c.1.HasPrototypes
  clones : ∀ i, Uses c (.obj i) → c.1.IsClone i

variable {L : Labels} {g g' : Graph} {task : Task} {ts rest : List Task}

section step

variable (hS : Sound L g) (hok : task.OK L g)
include hS

theorem lt_of_klass {name : String} {p : ObjId} (h : (name, p) ∈ g.classes) :
    p < g.objects.size := by
  obtain ⟨o, ho, -⟩ := hS.entries (e := .klass name p) h
  exact (Array.getElem?_eq_some_iff.mp ho).1

include hok

/-- A class was known before, or it is made known for the first time. -/
theorem klass_step (hp : g.perform task = (g', .ok ts)) {name : String} {p : ObjId}
    (h : (name, p) ∈ g'.classes) : (name, p) ∈ g.classes ∨
      p = g.objects.size ∧ (∀ p', (name, p') ∉ g.classes) ∧
        ∃ w nm b n, task = .visit w (.klass nm b) n := by
  rcases has_perform hS hok (e := .klass name p) (by rw [hp]; exact h) with hold | hrec
  · exact .inl hold
  generalize hen : Entry.klass name p = en at hrec
  cases hrec with
  | @klass w nm b n =>
      cases hen
      cases hl : g.classes.lookup nm.text with
      | some i =>
          simp only [perform, visit, visitClass, hl] at hp
          cases hp
          exact .inl h
      | none =>
          refine .inr ⟨rfl, fun p' hp' => ?_, w, nm, b, n, rfl⟩
          simpa using Table.ne_of_lookup_none hl hp'
  | read hplace | bound hplace =>
      rcases hplace.var_or_field with rfl | ⟨_, -, rfl⟩ <;> cases hen
  | inst hnew =>
      subst hen
      cases hnew
  | _ => cases hen

/-- An object type had a field before, or a walk goes over a method of it, or it is new. -/
theorem field_step (hp : g.perform task = (g', .ok ts)) {i : ObjId} {x : String} {v : NodeId}
    (h : g'.Has (.field i x v)) : g.Has (.field i x v) ∨ (∃ w, (g.walk w).self = some i) ∨
      i = g.objects.size ∧ ∃ w c nm as p n, task = .visit w (.call (some (.const c)) nm as p) n := by
  rcases has_perform hS hok (e := .field i x v) (by rw [hp]; exact h) with hold | hrec
  · exact .inl hold
  generalize hen : Entry.field i x v = en at hrec
  cases hrec with
  | read hplace | bound hplace =>
      rcases hplace.var_or_field with rfl | ⟨j, hj, rfl⟩ <;> cases hen
      exact .inr (.inl ⟨_, hj⟩)
  | @cloned w c nm as p n =>
      cases hen
      exact .inr (.inr ⟨rfl, w, c, nm, as, p, n, rfl⟩)
  | inst hnew =>
      subst hen
      cases hnew
  | _ => cases hen

end step

namespace Cloning

variable (h : Cloning L (g, task :: rest)) (hp : g.perform task = (g', .ok ts))
include h hp

theorem hasPrototypes_step : g'.HasPrototypes := by
  have hS := h.sound.graph
  have hok := h.sound.tasks task (List.mem_cons_self ..)
  have hnew : ∀ {i : ObjId} {o : ObjectType}, g.objects[i]? = some o → i ≠ g.objects.size :=
    fun ho => Nat.ne_of_lt (Array.getElem?_eq_some_iff.mp ho).1
  refine ⟨fun name p p' hk hk' => ?_, fun name p x v hk hf => ?_⟩
  · rcases klass_step hS hok hp hk with hold | ⟨rfl, hnone, -⟩ <;>
      rcases klass_step hS hok hp hk' with hold' | ⟨rfl, hnone', -⟩
    · exact h.prototypes.unique name p p' hold hold'
    · exact (hnone' p hold).elim
    · exact (hnone p' hold').elim
    · rfl
  · rcases field_step hS hok hp hf with holdf | ⟨w, hself⟩ | ⟨rfl, w, c, nm, as, p', n, htask⟩
    · rcases klass_step hS hok hp hk with hold | ⟨rfl, -, -⟩
      · exact h.prototypes.fieldless name p x v hold holdf
      · obtain ⟨o, ho, -⟩ := holdf
        exact hnew ho rfl
    · rcases klass_step hS hok hp hk with hold | ⟨rfl, -, -⟩
      · exact (h.clones p (.self hself)).proper name hold
      · obtain ⟨o, ho⟩ := hS.entries (e := .self w g.objects.size) hself
        exact hnew ho rfl
    · rcases klass_step hS hok hp hk with hold | ⟨-, -, w', nm', b, n', htask'⟩
      · exact Nat.lt_irrefl _ (lt_of_klass hS hold)
      · rw [htask] at htask'
        cases htask'

/-- A clone stays a clone. -/
theorem isClone_step {i : ObjId} (hi : g.IsClone i) : g'.IsClone i := by
  have hS := h.sound.graph
  have hok := h.sound.tasks task (List.mem_cons_self ..)
  have hgrows := (extends_of_perform hS hok hp).grows
  obtain ⟨o, p, q, ho, hlookup, hq, hmethods⟩ := hi.methods
  obtain ⟨o', ho', hname, hm'⟩ := hgrows.object ho
  obtain ⟨q', hq', -, hmq'⟩ := hgrows.object hq
  have hmem : (o.name, p) ∈ g'.classes :=
    lasts_of_perform hS hok hp (.klass o.name p) rfl (Table.mem_of_lookup hlookup)
  refine ⟨fun name hk => ?_, o', p, q', ho', ?_, hq', by rw [hm', hmq', hmethods]⟩
  · rcases klass_step hS hok hp hk with hold | ⟨rfl, -, -⟩
    · exact hi.proper name hold
    · exact Nat.lt_irrefl _ (Array.getElem?_eq_some_iff.mp ho).1
  · rw [hname]
    exact Table.lookup_of_unique hmem fun p' hp' =>
      (h.hasPrototypes_step hp).unique o.name p p' hmem hp'

theorem step : Cloning (L.performed g task) (g', ts ++ rest) := by
  have hS := h.sound.graph
  have hok := h.sound.tasks task (List.mem_cons_self ..)
  refine ⟨(h.sound.step hp).2, h.hasPrototypes_step hp, fun i hi => ?_⟩
  rcases uses_step hS hok hp hi with hold | ⟨w, e, n, t, htask, hgives, hmem⟩
  · exact h.isClone_step hp (h.clones i hold)
  cases hgives with
  | prim => cases List.mem_singleton.mp hmem
  | own hself =>
      cases List.mem_singleton.mp hmem
      exact h.isClone_step hp (h.clones i (.self hself))
  | @clone c nm as p q hlookup =>
      cases List.mem_singleton.mp hmem
      obtain ⟨o, ho, hname⟩ := hS.entries (e := .klass c.text q) (Table.mem_of_lookup hlookup)
      obtain ⟨hid, hclasses, fields, hobjects⟩ := cloneObject_spec ho
      rw [hid]
      refine ⟨fun name hk => ?_, { o with fields }, q, o, ?_, ?_, ?_, rfl⟩
      · rw [hclasses] at hk
        exact Nat.lt_irrefl _ (lt_of_klass hS hk)
      · rw [hobjects]
        exact Array.getElem?_push_size
      · rw [hclasses, hname]
        exact hlookup
      · rw [hobjects]
        exact getElem?_push_of_some _ ho

end Cloning

theorem objects_loaded (tree : Expr) : (Graph.loaded tree).objects = #[] := by
  have hbare := isBare_withBuiltins []
  rw [Graph.loaded, start_eq]
  generalize withBuiltins = g at hbare
  exact hbare.objects

/-- The instances of the built-in methods are for primitives. -/
theorem not_param_loaded (tree : Expr) {i : InstanceId} {x : Instance}
    (hx : (Graph.loaded tree).instances[i]? = some x) {t : Ty} (ht : some t ∈ x.params)
    (j : ObjId) : .obj j ∉ t.members := by
  have hbare := isBare_withBuiltins []
  rw [Graph.loaded, start_eq] at hx
  generalize withBuiltins = g at hbare hx
  obtain ⟨t', heq, htame⟩ := hbare.entries (e := .inst i x) hx _ ht
  cases heq
  intro hj
  obtain ⟨o, ho⟩ := htame.valid.1 j hj
  rw [hbare.objects] at ho
  cases ho

/-- There are no object types before a program is walked over. -/
theorem Cloning.loaded (tree : Expr) :
    Cloning (Labels.loaded tree) (Graph.loaded tree, [.visit 0 tree rootOf]) := by
  have hS := Sound.Config.loaded tree
  have hnone : ∀ {i : ObjId} {o : ObjectType}, (Graph.loaded tree).objects[i]? ≠ some o := by
    intro i o ho
    rw [objects_loaded] at ho
    cases ho
  have hclass : ∀ name p, (name, p) ∉ (Graph.loaded tree).classes := by
    intro name p hk
    obtain ⟨o, ho, -⟩ := hS.graph.entries (e := .klass name p) hk
    exact hnone ho
  refine ⟨hS, ⟨fun name p p' hk => (hclass name p hk).elim, fun name p x v hk =>
    (hclass name p hk).elim⟩, fun i hi => ?_⟩
  generalize ha : Atom.obj i = a at hi
  cases hi with
  | typed ht hmem =>
      subst ha
      obtain ⟨o, ho⟩ := (hS.graph.typed ht).2.1.1 i hmem
      exact (hnone ho).elim
  | param hx ht hmem =>
      subst ha
      exact (not_param_loaded tree hx ht i hmem).elim
  | brought ht hmem =>
      cases List.mem_singleton.mp ht
      cases hmem
  | @self w j hself =>
      obtain ⟨o, ho⟩ := hS.graph.entries (e := .self w j) hself
      exact (hnone ho).elim

end Graph

end TypeFlow
