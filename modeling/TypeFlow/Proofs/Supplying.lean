import TypeFlow.Proofs.Failing
import TypeFlow.Proofs.Informing

/-! # Variables and what they are given

A walk has one variable for each name, and a type that its call gives to it stays. Types of cells
that observe others only grow. -/

namespace TypeFlow

variable {P : Program} {L L' : Labels} {g g' : Graph} {task : Task} {ts rest : List Task}

/-! ## Types only grow -/

namespace Graph

/-- The names of the members of the type that a cell has, none if it has no type. -/
def tagsAt (g : Graph) (n : NodeId) : Finset Tag := (g.type n).elim ∅ g.heap.tags

theorem mem_tagsAt {n : NodeId} {t : Tag} :
    t ∈ g.tagsAt n ↔ ∃ T, g.type n = some T ∧ t ∈ g.heap.tags T := by
  unfold tagsAt
  cases g.type n <;> simp

theorem tagsAt_of_type {n : NodeId} {T : Ty} (h : g.type n = some T) :
    g.tagsAt n = g.heap.tags T := by
  rw [tagsAt, h, Option.elim_some]

end Graph

/-- Types with the same members by name are there or absent together, as a type has a member. -/
theorem Heap.map_tags_eq {h h' : Heap} {a b : Option Ty} (ha : ∀ T ∈ a, (h.tags T).Nonempty)
    (hb : ∀ T ∈ b, (h'.tags T).Nonempty) (heq : a.elim ∅ h.tags = b.elim ∅ h'.tags) :
    a.map h.tags = b.map h'.tags := by
  cases a with
  | none =>
      cases b with
      | none => rfl
      | some U => exact ((hb U rfl).ne_empty heq.symm).elim
  | some T =>
      cases b with
      | none => exact ((ha T rfl).ne_empty heq).elim
      | some U => exact congrArg some heq

/-- A type that accounts for another has the names of its members, if there are no fields. -/
theorem Ty.Covers.tags_subset {h : Heap} (hf : h.Flat) {T U : Ty} (hcov : U.Covers h.Equal T) :
    h.tags T ⊆ h.tags U := by
  intro t ht
  obtain ⟨y, hy, rfl⟩ := Heap.mem_tags.mp ht
  obtain ⟨x, hx, hxy⟩ := hcov y hy
  exact Heap.mem_tags.mpr ⟨x, hx, hf.sameAtom_iff.mp hxy⟩

section step

variable {names : List String} (hS : Sound.Config L (g, task :: rest))
  (hT : Tame.Config names L (g, task :: rest)) (hp : g.perform task = (g', .ok ts))
include hS hp

/-- A cell whose type stays the same keeps the names of its members. -/
theorem tagsAt_of_type_eq {n : NodeId} (h : g'.type n = g.type n) : g'.tagsAt n = g.tagsAt n := by
  have hext := extends_of_perform hS.graph (hS.tasks task (List.mem_cons_self ..)) hp
  unfold Graph.tagsAt
  rw [h]
  cases hT : g.type n with
  | none => rfl
  | some T => exact hext.grows.tags_eq (hS.graph.typed hT).2.1

include hT

/-- Merging a type into that of a cell adds the names of its members. -/
theorem tagsAt_of_widen {n : NodeId} {T : Ty} (htask : task = .widen n T) :
    g'.tagsAt n = g.tagsAt n ∪ g.heap.tags T := by
  subst htask
  obtain ⟨⟨l, hl, -⟩, hvalid⟩ := hS.tasks _ (List.mem_cons_self ..)
  have hnormal : T.Normal g.heap := (hT.tasks _ (List.mem_cons_self ..)).normal
  have hold : ∀ U ∈ g.type n, U.Normal g.heap := fun U hU => (hT.graph.typed hU).normal
  have hjoined : g.heap.tags (g.joined n T) = g.tagsAt n ∪ g.heap.tags T := by
    cases htype : g.type n with
    | none => simp [Graph.joined, Graph.tagsAt, htype]
    | some U =>
        simpa [Graph.joined, Graph.tagsAt, htype] using
          (hT.graph.flat.merge_tags (hold U htype) hnormal).2
  rw [← hjoined]
  rcases Graph.storeType_ok (Graph.widenType_ok hp) with ⟨rfl, -, U, hU, hsame⟩ | ⟨rfl, -⟩
  · -- The type that is there equals the one that would be stored.
    rw [Graph.tagsAt_of_type hU]
    refine (hT.graph.flat.same_iff (hold U hU) ?_).mp hsame
    rw [Graph.joined, hU]
    exact (hT.graph.flat.merge_tags (hold U hU) hnormal).1
  · have htype : (g.setType n (g.joined n T)).type n = some (g.joined n T) := by
      rw [Graph.type_setType, if_pos ⟨rfl, hS.graph.bound hl⟩]
    rw [Graph.tagsAt_of_type htype]
    rfl

/-- The type of a cell only grows, unless the cell has its type from itself. -/
theorem tagsAt_step (hseed : Seeded L g (task :: rest)) {n : NodeId} (hn : ¬ L.IsSeed n) :
    g.tagsAt n ⊆ g'.tagsAt n := by
  have hok := hS.tasks task (List.mem_cons_self ..)
  cases hT₀ : g.type n with
  | none => simp [Graph.tagsAt, hT₀]
  | some T =>
      obtain ⟨l, hl⟩ := Option.ne_none_iff_exists'.mp (hS.graph.typed hT₀).1
      rcases type_step hS.graph hok hp (hS.graph.bound hl) with htype | ⟨⟨u, rfl⟩ | ⟨u, htask⟩, -⟩
      · rw [tagsAt_of_type_eq hS hp htype]
      · exact (hn (hseed.tasks _ (List.mem_cons_self ..))).elim
      · rw [tagsAt_of_widen hS hT hp htask]
        exact Finset.subset_union_left

end step

/-- When nothing waits any more, a cell has the names of all that it merges. -/
theorem tagsAt_subset_of_finished {tree : Expr} (hfree : tree.FieldFree) {all : List Task}
    {now : Graph} (hend : Graph.Passes (Graph.loaded tree, [.visit 0 tree rootOf]) all (now, []))
    {s o : NodeId} (hedge : (o, .merge) ∈ now.observers s) : now.tagsAt s ⊆ now.tagsAt o := by
  obtain ⟨L, -, hT, -⟩ := (Tame.Config.loaded hfree.within).passes (.loaded tree) hend
  intro t ht
  obtain ⟨T, hT', hmem⟩ := Graph.mem_tagsAt.mp ht
  obtain ⟨U, hU, hcov⟩ := informed_of_finished hend hedge hT'
  have hequal := covers_equal_of_finished hend hfree hcov
  exact Graph.mem_tagsAt.mpr ⟨U, hU, hequal.tags_subset hT.graph.flat hmem⟩

/-! ## A variable for each name -/

/-- A walk has the variables that cells are labelled as, one for each name. -/
def Named (L : Labels) (g : Graph) : Prop :=
  ∀ {v : NodeId} {w x}, L v = some (.var w x) → (g.walk w).vars.lookup x = some v

/-- The place of a name is a variable that the walk has, or a new one. -/
theorem var_placed {w : WalkId} (hw : ∃ y, g.walks[w]? = some y) {p : Place}
    (hp : p.kind = .localVar) (n : NodeId) {v : NodeId} {w' : WalkId} {x : String}
    (hv : L.placed g w p v = some (.var w' x)) :
    L v = some (.var w' x) ∨ (g.walk w').vars.lookup x = none ∧
      ((g.placeOf w p n).1.walk w').vars.lookup x = some v := by
  cases hlookup : (g.walk w).vars.lookup p.name.text with
  | some u =>
      rw [Labels.placed_known hp hlookup] at hv
      exact .inl hv
  | none =>
      rw [Labels.placed_new hp hlookup] at hv
      rcases Labels.append_cases hv with ⟨-, hv⟩ | ⟨j, rfl, hj⟩
      · exact .inl hv
      · obtain ⟨rfl, heq⟩ := Labels.eq_of_singleton hj
        cases heq
        obtain ⟨y, hy⟩ := hw
        have hplace : (g.placeOf w p n).1 = g.withVariable w p.name.text := by
          rw [Graph.placeOf, hp]
          simp only [Graph.variableOf_new hlookup]
        have hwalk : (g.withVariable w p.name.text).walk w =
            { y with vars := y.vars.put p.name.text g.cells.size } := by
          simp [Graph.walk, Graph.withVariable, Graph.modifyWalk, Graph.addSlot, Graph.addCell,
            Array.getElem?_modify, hy]
        rw [hplace, hwalk, Table.lookup_put, if_pos (beq_self_eq_true _)]
        exact .inr ⟨hlookup, rfl⟩

theorem Graph.walk_specialized (g : Graph) (c : NodeId) (s : Site) (method : NodeId)
    (params : List String) (body : Expr) (receiver : Option Ty) (args : List Ty) :
    ((g.specialized c s method params body receiver args).walk g.walks.size).vars =
      varsOver (g.cells.size + body.size : Nat) (instanceInputs params receiver args) := by
  have hwalks : (g.specialized c s method params body receiver args).walks =
      (g.withBody body (instanceInputs params receiver args) (receiver.bind Ty.atom?)).walks := rfl
  rw [Graph.walk, hwalks, Graph.walk_withBody, Array.getElem?_push_size]
  rfl

/-- A variable of a walk over a new instance is that of an input. -/
theorem var_specialized {body : Expr} {inputs : List (String × Ty)} {v : NodeId} {w : WalkId}
    {x : String} (hv : L.specialized g body inputs v = some (.var w x)) :
    L v = some (.var w x) ∨ (g.walk w).vars.lookup x = none ∧ w = g.walks.size ∧
      (varsOver (g.cells.size + body.size : Nat) inputs).lookup x = some v := by
  rcases Labels.append_cases hv with ⟨-, hv⟩ | ⟨j, rfl, hj⟩
  · rcases Labels.append_cases hv with ⟨-, hv⟩ | ⟨j, -, hj⟩
    · exact .inl hv
    · obtain ⟨q, -, -, heq⟩ := Labels.mem_ofTree hj
      cases heq
  · simp only [Labels.ofInputs, List.getElem?_map, List.getElem?_mapIdx,
      Option.map_eq_some_iff, Option.some.injEq] at hj
    obtain ⟨_, ⟨p, -, rfl⟩, heq⟩ := hj
    split at heq
    · next hlookup =>
        cases heq
        refine .inr ⟨?_, rfl, ?_⟩
        · have hnone : g.walks[g.walks.size]? = none := Array.getElem?_eq_none (Nat.le_refl _)
          rw [show (g.plant body).1.walks = g.walks from rfl, Graph.walk, hnone]
          rfl
        · rwa [← Graph.cells_plant]
    · cases heq

/-- A variable was there before, or it is the first one of its name. -/
theorem var_step (hU : Underway P L (g, task :: rest)) (hp : g.perform task = (g', .ok ts))
    {v : NodeId} {w : WalkId} {x : String} (hv : L.performed g task v = some (.var w x)) :
    L v = some (.var w x) ∨
      (g.walk w).vars.lookup x = none ∧ (g'.walk w).vars.lookup x = some v := by
  have hS : Sound L g := hU.sound.graph
  have hT : Tame P.tree.classNames L g := hU.tame.graph
  have hok := hU.sound.tasks task (List.mem_cons_self ..)
  have hbrought := broughtBy_performed task v _ hv
  cases task with
  | visit w' e n =>
      obtain ⟨⟨r, k, hn⟩, hw⟩ := hok
      cases e with
      | place p =>
          have hlocal := (hT.within hn).place
          rcases var_placed hw hlocal n hv with hold | hnew
          · exact .inl hold
          · simp only [Graph.perform, Graph.visit] at hp
            split at hp <;> cases hp
            next heq =>
              rw [heq] at hnew
              exact .inr hnew
      | _ => exact hbrought.imp_right fun h => by simp [Graph.Brings] at h
  | bind w' p n =>
      obtain ⟨⟨r, k, e, hn⟩, hw⟩ := hok
      have hlocal := (hT.within hn).target
      rcases var_placed hw hlocal (n + 1) hv with hold | hnew
      · exact .inl hold
      · simp only [Graph.perform, Graph.bind] at hp
        split at hp <;> cases hp
        next heq =>
          rw [heq] at hnew
          exact .inr hnew
  | resolve c =>
      obtain ⟨s, L₁, -, hL₁, hcases⟩ := resolves_perform hS hok.1 hp
      rw [hL₁] at hv
      cases hcases with
      | waiting | dispatch | inst => exact .inl hv
      | newDispatch =>
          rcases Labels.append_cases hv with ⟨-, hv⟩ | ⟨j, -, hj⟩
          · exact .inl hv
          · obtain ⟨-, heq⟩ := Labels.eq_of_singleton hj
            cases heq
      | newInst =>
          rcases var_specialized hv with hold | ⟨hnone, rfl, hlookup⟩
          · exact .inl hold
          · rw [← Graph.walk_specialized] at hlookup
            exact .inr ⟨hnone, hlookup⟩
  | _ => exact hbrought.imp_right fun h => by simp [Graph.Brings] at h

theorem named_step (hU : Underway P L (g, task :: rest)) (hp : g.perform task = (g', .ok ts))
    (h : Named L g) : Named (L.performed g task) g' := by
  intro v w x hv
  rcases var_step hU hp hv with hold | ⟨-, hnew⟩
  · -- The variable is still there, and another one of its name would have to be new.
    have hlookup := h hold
    have hhas := lasts_of_perform hU.sound.graph (hU.sound.tasks task (List.mem_cons_self ..)) hp
      (.var w x v) rfl (Table.mem_of_lookup hlookup)
    cases hfind : (g'.walk w).vars.lookup x with
    | none =>
        have hne := Table.ne_of_lookup_none hfind hhas
        rw [beq_self_eq_true] at hne
        cases hne
    | some u =>
        have hu := (hU.step hp).sound.graph.entries (e := .var w x u) (Table.mem_of_lookup hfind)
        rcases var_step hU hp hu with hu | ⟨hnone, -⟩
        · rw [← h hu, hlookup]
        · rw [hlookup] at hnone
          cases hnone
  · exact hnew

/-! ## What calls give to variables -/

/-- A variable has the types that the call gives to it whose body is walked over. -/
def Supplied (P : Program) (g : Graph) : Prop :=
  ∀ {w f x t}, g.Framed w f → P.Input x t f → ∃ v, g.Has (.var w x v) ∧ t ∈ g.tagsAt v

theorem type_addSlots {slots : List (Option String × Ty)} {j : Nat} {s : Option String × Ty}
    (hj : slots[j]? = some s) : (g.addSlots slots).1.type (g.cells.size + j : Nat) = some s.2 := by
  induction slots generalizing g j with
  | nil => cases hj
  | cons p slots ih =>
      obtain ⟨name, T⟩ := p
      have hsize : (g.addSlot name (some T)).1.cells.size = g.cells.size + 1 := Array.size_push ..
      simp only [Graph.addSlots]
      cases j with
      | zero =>
          cases hj
          rw [(Graph.calm_addSlots _ slots).type _ (by rw [hsize]; exact Nat.lt_succ_self _)]
          rw [Graph.addSlot, Graph.type_addCell, if_pos (Nat.add_zero _)]
      | succ j =>
          have := ih (g := (g.addSlot name (some T)).1) hj
          rwa [hsize, Nat.add_assoc, Nat.add_comm 1 j] at this

/-- The variables of a walk over a new instance have the types of the inputs. -/
theorem Graph.Begins.supplies (hS : Sound L g) {c : NodeId} {s : Site} {receiver : Option Ty}
    {args : List Ty} {method : NodeId} {m : Method} {b : Expr}
    (hb : g.Begins L task g' ts c s receiver args method m b) {x : String} {T : Ty}
    (h : (Table.ofList (instanceInputs m.params receiver args)).lookup x = some T) :
    ∃ v, g'.Has (.var g.walks.size x v) ∧ g'.type v = some T := by
  let inputs := instanceInputs m.params receiver args
  rcases lookup_varsOver (g.cells.size + b.size : Nat) inputs x with
    ⟨-, hnone⟩ | ⟨j, p, hvar, hj, -, hlookup⟩
  · rw [hnone] at h
    cases h
  · rw [hlookup] at h
    cases h
    refine ⟨(g.cells.size + b.size + j : Nat), ?_, ?_⟩
    · rw [hb.graph, Graph.Has, Graph.walk_specialized]
      exact Table.mem_of_lookup hvar
    · have hslot : ((g.plant b).1.addSlots (inputs.map fun p => (some p.1, p.2))).1.type
          (g.cells.size + b.size + j : Nat) = some p.2 := by
        rw [← Graph.cells_plant]
        exact type_addSlots (s := (some p.1, p.2)) (by simp [hj])
      have hbody : (g.withBody b inputs (receiver.bind Ty.atom?)).type
          (g.cells.size + b.size + j : Nat) = some p.2 := by
        rw [Graph.withBody, Graph.addWalkOver_eq]
        exact hslot
      obtain ⟨cell, hcell, -⟩ := Option.bind_eq_some_iff.mp hbody
      rw [hb.graph, (calm_specialized_withBody hS hb.calls.found hb.fresh c s m.params b
        receiver).type _ (Array.getElem?_eq_some_iff.mp hcell).1]
      exact hbody

/-- A frame stays that of its walk. -/
theorem Underway.framed_later (hU : Underway P L (g, ts)) (hl : Later L g L' g') {w : WalkId}
    {f : Frame} (hf : g.Framed w f) : g'.Framed w f := by
  cases hf with
  | main => exact .main
  | @inst i y w as hy hw has =>
      obtain ⟨as', has', hvalid⟩ := hU.furnished.params hy hw
      have hinj : Function.Injective fun a : Atom => some (Ty.one a) := fun a b hab => by
        simpa using hab
      obtain rfl := hinj.list_map (has.symm.trans has')
      have hargs := hl.map_tag fun a ha => hvalid a (List.mem_append_right _ ha)
      have howner : y.owner.map g'.heap.tag = y.owner.map g.heap.tag :=
        Option.map_congr fun a ha => hl.tag_eq (hvalid a (by simp [Option.mem_def.mp ha]))
      rw [← hargs, ← howner]
      exact .inst (hl.extend.grows.inst hy) hw has

theorem supplied_step (hU : Underway P L (g, task :: rest)) (hseed : Seeded L g (task :: rest))
    (hp : g.perform task = (g', .ok ts)) (h : Supplied P g) : Supplied P g' := by
  intro w f x t hf hx
  have hS : Sound L g := hU.sound.graph
  have hok := hU.sound.tasks task (List.mem_cons_self ..)
  have hU' := hU.step hp
  have hl := later_of_perform hS hok hp
  cases id hf with
  | main => exact hx.elim
  | @inst i y w as hy hw has =>
      rcases inst_step hS hok hp hy with
        hy | ⟨c, s, receiver, args, method, m, b, hb, rfl, rfl⟩
      · -- The walk had the variable, and the type of the variable can only have grown.
        obtain ⟨f', hf'⟩ := hU.furnished.frame hy hw
        obtain rfl := hU'.furnished.frame_unique hf (hU.framed_later hl hf')
        obtain ⟨v, hv, ht⟩ := h hf' hx
        have hseed' : ¬ L.IsSeed v :=
          Labels.not_isSeed (hS.entries hv) fun _ _ _ _ heq => by cases heq
        exact ⟨v, lasts_of_perform hS hok hp _ rfl hv,
          tagsAt_step hU.sound hU.tame hp hseed hseed' ht⟩
      · obtain ⟨r, as, rfl, rfl, hcode, -, -, hframed, -⟩ := hb.opens hU hp (.refl _ _)
        cases hw
        rw [hU'.furnished.frame_unique hf hframed] at hx
        obtain ⟨ps, b', hcode', hlookup⟩ := hx
        obtain ⟨rfl, -⟩ := hcode'.unique hcode
        have hmap := concreteInputs_map g'.heap.tag m.params r as
        rw [concreteInputs] at hmap
        rw [hmap, Table.lookup_ofList_map] at hlookup
        obtain ⟨a, ha, rfl⟩ := Option.map_eq_some_iff.mp hlookup
        have hinput : (Table.ofList (instanceInputs m.params (r.map .one) (as.map .one))).lookup x =
            some (.one a) := by
          have hmap' : instanceInputs m.params (r.map .one) (as.map .one) =
              (concreteInputs m.params r as).map fun p => (p.1, Ty.one p.2) :=
            concreteInputs_map Ty.one m.params r as
          rw [hmap', Table.lookup_ofList_map, ha]
          rfl
        obtain ⟨v, hv, hT⟩ := hb.supplies hS hinput
        exact ⟨v, hv, Graph.mem_tagsAt.mpr ⟨_, hT, by simp⟩⟩

end TypeFlow
