import TypeFlow.Proofs.ClosedForm
import Mathlib.Data.List.Nodup

/-! # What recorders hear

Variables and recorders are made, observe each other and are given types, narrower ones too. A node
that gets another type tells its observers in turn, and may get one more while it does. Each of them
is told the type of that moment, so what a recorder hears last of a node is the type that the node
has in the end. All of this ends, since types that merge run out of members to gain. -/

namespace TypeFlow

/-! ## How far types rise -/

namespace Heap

variable {h : Heap} {atoms : List Atom}

/-- A type as merging leaves it: its members differ, and it is the type that they form. -/
def Reduced (h : Heap) (t : Ty) : Prop := ofMembers (h.distinct t.members) = t

instance : DecidablePred h.Reduced :=
  fun t => inferInstanceAs (Decidable (ofMembers (h.distinct t.members) = t))

/-- How often a node can get another type by merging, as long as all members are listed. A type
that merging has not touched yet may lose members by it once. -/
def rise (h : Heap) (atoms : List Atom) : Option Ty → Nat
  | none => atoms.length + 2
  | some t => if h.Reduced t then atoms.length - t.members.length else atoms.length + 1

theorem Reduced.members_eq {t : Ty} (ht : h.Reduced t) : h.distinct t.members = t.members := by
  rw [← members_ofMembers (h.distinct t.members), ht]

theorem reduced_ofMembers (xs : List Atom) : h.Reduced (ofMembers (h.distinct xs)) := by
  have hself : h.distinct (h.distinct xs) = [] ++ h.distinct xs :=
    foldl_insertMember_of_apart (pairwise_distinct xs)
  rw [Reduced, members_ofMembers, hself, List.nil_append]

/-- The members of a reduced type are no more than there are. -/
theorem Reduced.length_le {t : Ty} (ht : h.Reduced t) (hin : ∀ a ∈ t.members, a ∈ atoms) :
    t.members.length ≤ atoms.length := by
  have hnodup : t.members.Nodup := by
    rw [← ht.members_eq]
    refine (pairwise_distinct t.members).imp fun {a b} hne heq => hne ?_
    rw [heq]
    exact h.sameAtom_self b
  exact (List.subperm_of_subset hnodup hin).length_le

theorem prefix_insertMembers (kept xs : List Atom) : kept <+: xs.foldl h.insertMember kept := by
  induction xs generalizing kept with
  | nil => exact List.prefix_refl kept
  | cons x xs ih =>
      refine .trans ?_ (ih _)
      rw [insertMember_eq]
      split
      · exact List.prefix_refl kept
      · exact List.prefix_append kept [x]

/-- Merging into a reduced type adds members, if it changes the type at all. -/
theorem Reduced.length_lt_merge {t u : Ty} (ht : h.Reduced t)
    (hnew : h.same t (h.merge t u) = false) : t.members.length < (h.merge t u).members.length := by
  have hmerge : h.merge t u = ofMembers (h.distinct (t.members ++ u.members)) := by
    refine if_neg fun hsame => ?_
    rw [merge, if_pos hsame, h.same_self] at hnew
    cases hnew
  have hprefix : t.members <+: h.distinct (t.members ++ u.members) := by
    rw [distinct, List.foldl_append, ← distinct, ht.members_eq]
    exact prefix_insertMembers ..
  rw [hmerge, members_ofMembers]
  refine Nat.lt_of_le_of_ne hprefix.length_le fun hlength => ?_
  rw [hmerge, ← hprefix.eq_of_length hlength, ← ht.members_eq, ht, h.same_self] at hnew
  cases hnew

/-- A node that gets another type by merging can do so less often after that. -/
theorem rise_merge_lt {t u : Ty} (hin : ∀ a ∈ (h.merge t u).members, a ∈ atoms)
    (hnew : h.same t (h.merge t u) = false) :
    h.rise atoms (some (h.merge t u)) < h.rise atoms (some t) := by
  have hmerged : h.Reduced (h.merge t u) := by
    rw [merge] at hnew ⊢
    split
    · next hsame =>
        rw [if_pos hsame, h.same_self] at hnew
        cases hnew
    · exact reduced_ofMembers _
  have hle := hmerged.length_le hin
  simp only [rise, if_pos hmerged]
  split
  · next ht =>
      have := ht.length_lt_merge hnew
      omega
  · omega

theorem rise_some_lt (t : Ty) : h.rise atoms (some t) < h.rise atoms none := by
  simp only [rise]
  split <;> omega

theorem wellFormed_ofMembers {xs : List Atom} (hxs : xs ≠ []) : (ofMembers xs).WellFormed := by
  match xs with
  | [] => exact (hxs rfl).elim
  | [a] => trivial
  | a :: b :: xs => exact Nat.le_add_left 2 xs.length

theorem wellFormed_merge {t : Ty} (ht : t.WellFormed) (u : Ty) : (h.merge t u).WellFormed := by
  rw [merge]
  split
  · exact ht
  · refine wellFormed_ofMembers (h.distinct_ne_nil fun hnil => ?_)
    have hnone := (List.append_eq_nil_iff.mp hnil).1
    cases t with
    | one => cases hnone
    | union ms key =>
        have hlen : 2 ≤ ms.length := ht
        rw [show ms = [] from hnone] at hlen
        cases hlen

end Heap

/-! ## Steps on variables and recorders -/

/-- A node with an address from a base on. -/
def Graph.Owns (g : Graph) (base n : NodeId) : Prop := base ≤ n ∧ n < g.cells.size

/-- Steps that make variables and recorders, let them observe each other, give types to them and
let them tell their types. Only recorders are told without merging. -/
def PropagationStep.Allowed (base : NodeId) (g : Graph) : PropagationStep → Prop
  | .addSlot _ t => ∀ u ∈ t, u.WellFormed
  | .addRecorder => True
  | .clone n => g.Owns base n ∧ g.slotName? n ≠ none
  | .observe s o r =>
      g.Owns base s ∧ g.Owns base o ∧ (r = .merge ∨ r = .resolve ∧ g.role o = .recorder)
  | .setType n t | .addType n t => g.Owns base n ∧ ∀ u ∈ t, u.WellFormed
  | .react _ _ _ => False
  | .notify n => g.Owns base n

instance (base n : NodeId) (g : Graph) : Decidable (g.Owns base n) := instDecidableAnd

instance (r : Role) : Decidable (r = .recorder) :=
  match r with
  | .recorder => isTrue rfl
  | .plain | .call _ | .method _ | .slot _ | .result | .dispatch _ => isFalse nofun

instance (base : NodeId) (g : Graph) : DecidablePred (PropagationStep.Allowed base g)
  | .addSlot _ t => inferInstanceAs (Decidable (∀ u ∈ t, u.WellFormed))
  | .addRecorder => inferInstanceAs (Decidable True)
  | .clone n => inferInstanceAs (Decidable (g.Owns base n ∧ g.slotName? n ≠ none))
  | .observe s o r => inferInstanceAs (Decidable
      (g.Owns base s ∧ g.Owns base o ∧ (r = .merge ∨ r = .resolve ∧ g.role o = .recorder)))
  | .setType n t | .addType n t =>
      inferInstanceAs (Decidable (g.Owns base n ∧ ∀ u ∈ t, u.WellFormed))
  | .react _ _ _ => inferInstanceAs (Decidable False)
  | .notify n => inferInstanceAs (Decidable (g.Owns base n))

/-- Allowed steps on new nodes lead from one graph to another, each of them to its end. -/
inductive Graph.Sends (g : Graph) : Graph → Prop where
  | start : Sends g g
  | step {g₁ g₂ : Graph} {step : PropagationStep} {budget : Nat} : Sends g g₁ →
      step.Allowed g.cells.size g₁ → g₁.propagate budget step = (g₂, .finished) → Sends g g₂

/-- What a node heard last of another one. -/
def Graph.lastHeard? (g : Graph) (s o : NodeId) : Option Heard :=
  g.heard.toList.reverse.find? fun e => e.node = o ∧ e.source = some s

/-! ## Graphs while types are told -/

/-- What a recorder is told of the type that a node has. -/
def Graph.news (g : Graph) (s o : NodeId) (r : Reaction) : Heard := ⟨o, some s, r, g.type s⟩

/-- A task that tells types or merges them. -/
def Task.Tells (base : NodeId) (g : Graph) : Task → Prop
  | .deliver s o r => base ≤ s ∧ (o, r) ∈ g.observers s
  | .widen n t => g.Owns base n ∧ t.WellFormed
  | _ => False

/-- Variables and recorders that tell each other their types. What a recorder heard last of a
typed node is the type of the node, or a task waits to tell it. -/
structure Hearing (base : NodeId) (c : Graph.Config) : Prop where
  fields : ∀ (i : ObjId) (o : ObjectType), c.1.objects[i]? = some o → ∀ f ∈ o.fields, f.2 < base
  role : ∀ n, c.1.Owns base n → (∃ name, c.1.role n = .slot name) ∨ c.1.role n = .recorder
  edge : ∀ s o r, base ≤ s → (o, r) ∈ c.1.observers s →
    c.1.Owns base o ∧ (r = .merge ∨ r = .resolve ∧ c.1.role o = .recorder)
  apart : ∀ s, base ≤ s → ((c.1.observers s).map (·.1)).Nodup
  type : ∀ n t, base ≤ n → c.1.type n = some t → t.WellFormed
  tasks : ∀ t ∈ c.2, t.Tells base c.1
  told : ∀ s o t, base ≤ s → (o, .resolve) ∈ c.1.observers s → c.1.type s = some t →
    c.1.lastHeard? s o = some (c.1.news s o .resolve) ∨ .deliver s o .resolve ∈ c.2

variable {base : NodeId} {g g' : Graph} {task : Task} {ts rest : List Task} {s o n : NodeId}
  {r : Reaction}

theorem Graph.lastHeard?_hear (e : Heard) : (g.hear e).lastHeard? s o =
    if e.node = o ∧ e.source = some s then some e else g.lastHeard? s o := by
  simp only [lastHeard?, hear, Array.toList_push, List.reverse_append, List.reverse_singleton,
    List.singleton_append, List.find?_cons]
  split <;> simp_all

namespace Hearing

/-- A node observes another one in one way only. -/
theorem unique {c : Graph.Config} (h : Hearing base c) (hs : base ≤ s) {r r' : Reaction}
    (hr : (o, r) ∈ c.1.observers s) (hr' : (o, r') ∈ c.1.observers s) : r = r' :=
  congrArg Prod.snd (List.inj_on_of_nodup_map (h.apart s hs) hr hr' rfl)

/-- A task is dropped that tells nothing. -/
theorem drop (h : Hearing base (g, task :: rest))
    (htask : ∀ s o t, task = .deliver s o .resolve → g.type s ≠ some t) :
    Hearing base (g, rest) where
  fields := h.fields
  role := h.role
  edge := h.edge
  apart := h.apart
  type := h.type
  tasks t ht := h.tasks t (List.mem_cons_of_mem _ ht)
  told s o t hs ho ht := by
    refine (h.told s o t hs ho ht).imp_right fun hwaits => ?_
    rcases List.mem_cons.mp hwaits with heq | hwaits
    · exact absurd ht (htask s o t heq.symm)
    · exact hwaits

/-- Types may be told at any time. -/
theorem append (h : Hearing base (g, rest)) (hts : ∀ t ∈ ts, t.Tells base g) :
    Hearing base (g, ts ++ rest) where
  fields := h.fields
  role := h.role
  edge := h.edge
  apart := h.apart
  type := h.type
  tasks t ht := (List.mem_append.mp ht).elim (hts t) (h.tasks t)
  told s o t hs ho ht := (h.told s o t hs ho ht).imp_right (List.mem_append_right _)

/-- A recorder hears what it is told. -/
theorem hear (h : Hearing base (g, .deliver s o r :: rest)) :
    Hearing base (g.hear (g.news s o r), rest) where
  fields := h.fields
  role := h.role
  edge := h.edge
  apart := h.apart
  type := h.type
  tasks t ht := h.tasks t (List.mem_cons_of_mem _ ht)
  told s' o' t hs ho ht := by
    rw [Graph.lastHeard?_hear]
    have hedge := (h.tasks _ (List.mem_cons_self ..)).2
    split
    · next heq =>
        obtain ⟨rfl, heq⟩ := heq
        cases heq
        obtain rfl := h.unique hs hedge ho
        exact .inl rfl
    · next hne =>
        refine (h.told s' o' t hs ho ht).imp_right fun hwaits => ?_
        rcases List.mem_cons.mp hwaits with heq | hwaits
        · cases heq
          exact (hne ⟨rfl, rfl⟩).elim
        · exact hwaits

/-- A node that gets a type tells all of its observers. -/
theorem setType (h : Hearing base (g, rest)) (hn : g.Owns base n) {t : Ty} (ht : t.WellFormed) :
    Hearing base (g.setType n t, ((g.observers n).map fun o => .deliver n o.1 o.2) ++ rest) := by
  have howns : ∀ m, (g.setType n t).Owns base m ↔ g.Owns base m := fun m => by
    simp [Graph.Owns, Graph.setType]
  refine ⟨h.fields, fun m hm => ?_, fun s o r hs ho => ?_, fun s hs => ?_, fun m u hm hu => ?_,
    fun u hu => ?_, fun s o u hs ho hu => ?_⟩
  · rw [Graph.role_setType]
    exact h.role m ((howns m).mp hm)
  · rw [Graph.observers_setType] at ho
    rw [howns, Graph.role_setType]
    exact h.edge s o r hs ho
  · rw [Graph.observers_setType]
    exact h.apart s hs
  · rw [Graph.type_setType] at hu
    split at hu
    · cases hu
      exact ht
    · exact h.type m u hm hu
  · rcases List.mem_append.mp hu with hu | hu
    · obtain ⟨⟨o, r⟩, ho, rfl⟩ := List.mem_map.mp hu
      refine ⟨hn.1, ?_⟩
      rwa [Graph.observers_setType]
    · have htells := h.tasks u hu
      cases u with
      | deliver s o r => simpa only [Task.Tells, Graph.observers_setType] using htells
      | widen m u => simpa only [Task.Tells, howns] using htells
      | _ => exact htells.elim
  · rw [Graph.observers_setType] at ho
    by_cases hsn : s = n
    · subst hsn
      exact .inr (List.mem_append_left _ (List.mem_map.mpr ⟨(o, .resolve), ho, rfl⟩))
    · have hold : (g.setType n t).type s = g.type s := by
        rw [Graph.type_setType, if_neg fun heq => hsn heq.1.symm]
      rw [hold] at hu
      rw [Graph.news, hold]
      exact (h.told s o u hs ho hu).imp_right (List.mem_append_right _)

/-- A node that begins to observe another one is told. -/
theorem addObserver (h : Hearing base (g, [])) (hs : g.Owns base s) (ho : g.Owns base o)
    (hr : r = .merge ∨ r = .resolve ∧ g.role o = .recorder) :
    Hearing base (g.addObserver s o r, [.deliver s o r]) := by
  have howns : ∀ m, (g.addObserver s o r).Owns base m ↔ g.Owns base m := fun m => by
    simp [Graph.Owns, Graph.addObserver]
  have hnew : (o, r) ∈ (g.addObserver s o r).observers s := by
    rw [Graph.observers_addObserver, if_pos ⟨rfl, hs.2⟩]
    exact Table.mem_put_self ..
  have hedge : ∀ s' o' r', (o', r') ∈ (g.addObserver s o r).observers s' →
      (o', r') ∈ g.observers s' ∨ s' = s ∧ o' = o ∧ r' = r := by
    intro s' o' r' ho'
    rw [Graph.observers_addObserver] at ho'
    split at ho'
    · next heq =>
        refine (Table.mem_of_mem_put ho').imp_right fun hput => ?_
        cases hput
        exact ⟨heq.1.symm, rfl, rfl⟩
    · exact .inl ho'
  refine ⟨h.fields, fun m hm => ?_, fun s' o' r' hs' ho' => ?_, fun s' hs' => ?_,
    fun m u hm hu => ?_, fun u hu => ?_, fun s' o' u hs' ho' hu => ?_⟩
  · rw [Graph.role_addObserver]
    exact h.role m ((howns m).mp hm)
  · rw [howns, Graph.role_addObserver]
    rcases hedge s' o' r' ho' with ho' | ⟨rfl, rfl, rfl⟩
    · exact h.edge s' o' r' hs' ho'
    · exact ⟨ho, hr⟩
  · rw [Graph.observers_addObserver]
    split
    · exact Table.nodup_put (h.apart s' hs')
    · exact h.apart s' hs'
  · rw [Graph.type_addObserver] at hu
    exact h.type m u hm hu
  · cases List.mem_singleton.mp hu
    exact ⟨hs.1, hnew⟩
  · rw [Graph.type_addObserver] at hu
    rw [Graph.news, Graph.type_addObserver]
    rcases hedge s' o' .resolve ho' with ho' | ⟨rfl, rfl, rfl⟩
    · rcases h.told s' o' u hs' ho' hu with htold | hwaits
      · exact .inl htold
      · cases hwaits
    · exact .inr (List.mem_singleton_self _)

end Hearing

/-! ## What a task does -/

/-- What the tasks do that tell types: a variable is told a type, a recorder hears it, a type that
comes to a node changes nothing, or the node gets another type and tells its observers. -/
inductive Telling (g : Graph) : Task → Graph → List Task → Prop where
  | pass {s o : NodeId} : Telling g (.deliver s o .merge) g ((g.type s).toList.map (.widen o))
  | hear {s o : NodeId} {r : Reaction} {ts : List Task} :
      r = .merge ∧ ts = (g.type s).toList.map (.widen o) ∨ r = .resolve ∧ ts = [] →
      Telling g (.deliver s o r) (g.hear (g.news s o r)) ts
  | keep {n : NodeId} {t : Ty} : Telling g (.widen n t) g []
  | grow {n : NodeId} {t : Ty} : (g.joined n t).WellFormed →
      (∀ old, g.type n = some old → g.heap.same old (g.joined n t) = false) →
      Telling g (.widen n t) (g.setType n (g.joined n t))
        ((g.observers n).map fun o => .deliver n o.1 o.2)

namespace Hearing

/-- A type that comes to a well-formed one joins to one. -/
theorem wellFormed_joined {c : Graph.Config} (h : Hearing base c) (hn : base ≤ n) {t : Ty}
    (ht : t.WellFormed) : (c.1.joined n t).WellFormed := by
  cases hold : c.1.type n with
  | none => rwa [Graph.joined_of_none hold]
  | some old =>
      rw [Graph.joined_of_some hold]
      exact Heap.wellFormed_merge (h.type n old hn hold) t

/-- No task that waits fails. -/
theorem perform (h : Hearing base (g, task :: rest)) :
    ∃ g' ts, g.perform task = (g', .ok ts) ∧ Telling g task g' ts := by
  have htask := h.tasks _ (List.mem_cons_self ..)
  cases task with
  | deliver s o r =>
      obtain ⟨hs, hedge⟩ := htask
      obtain ⟨ho, rfl | ⟨rfl, hrole⟩⟩ := h.edge s o r hs hedge
      · rcases h.role o ho with ⟨name, hrole⟩ | hrole
        · exact ⟨_, _, by simp [Graph.perform, Graph.react, hrole, Graph.next], .pass⟩
        · exact ⟨_, _, by simp [Graph.perform, Graph.react, hrole, Graph.next, Graph.news],
            .hear (.inl ⟨rfl, rfl⟩)⟩
      · exact ⟨_, _, by simp [Graph.perform, Graph.react, hrole, Graph.next, Graph.news],
          .hear (.inr ⟨rfl, rfl⟩)⟩
  | widen n t =>
      obtain ⟨hn, ht⟩ := htask
      have hjoined := h.wellFormed_joined hn.1 ht
      rw [Graph.perform, Graph.widenType_eq hjoined]
      rcases g.storeType_cases n (g.joined n t) with ⟨hstore, -⟩ | ⟨hstore, hnew⟩
      · exact ⟨_, _, hstore, .keep⟩
      · exact ⟨_, _, hstore, .grow hjoined hnew⟩
  | _ => exact htask.elim

/-- A task keeps types on their way. -/
theorem step (h : Hearing base (g, task :: rest)) (hstep : Telling g task g' ts) :
    Hearing base (g', ts ++ rest) := by
  have htask := h.tasks _ (List.mem_cons_self ..)
  have hwidens : ∀ s o, base ≤ s → g.Owns base o →
      ∀ t ∈ (g.type s).toList.map (Task.widen o), t.Tells base g := by
    intro s o hs ho t ht
    obtain ⟨u, hu, rfl⟩ := List.mem_map.mp ht
    exact ⟨ho, h.type s u hs (Option.mem_toList.mp hu)⟩
  cases hstep with
  | @pass s o =>
      have ho := (h.edge s o _ htask.1 htask.2).1
      exact (h.drop fun _ _ _ heq => by cases heq).append (hwidens s o htask.1 ho)
  | @hear s o r _ hts =>
      have ho := (h.edge s o r htask.1 htask.2).1
      rcases hts with ⟨rfl, rfl⟩ | ⟨rfl, rfl⟩
      · exact h.hear.append (hwidens s o htask.1 ho)
      · exact h.hear
  | keep => exact h.drop fun _ _ _ heq => by cases heq
  | grow hjoined hnew => exact (h.drop fun _ _ _ heq => by cases heq).setType htask.1 hjoined

end Hearing

/-! ## Telling ends -/

/-- Listed concrete types are all that the types of nodes have and that tasks bring. -/
def Graph.Ranges (atoms : List Atom) (c : Graph.Config) : Prop :=
  (∀ n t, c.1.type n = some t → ∀ a ∈ t.members, a ∈ atoms) ∧
    ∀ n t, .widen n t ∈ c.2 → ∀ a ∈ t.members, a ∈ atoms

theorem Graph.exists_ranges (c : Graph.Config) : ∃ atoms, Graph.Ranges atoms c := by
  let held := (List.range c.1.cells.size).flatMap fun n => (c.1.type n).toList.flatMap Ty.members
  let brought := c.2.flatMap fun | .widen _ t => t.members | _ => []
  refine ⟨held ++ brought, fun n t ht a ha => ?_, fun n t ht a ha => ?_⟩
  · have hn : n < c.1.cells.size := by
      by_contra hge
      rw [Graph.type_of_le (Nat.le_of_not_lt hge)] at ht
      cases ht
    refine List.mem_append_left _ (List.mem_flatMap.mpr ⟨n, List.mem_range.mpr hn, ?_⟩)
    exact List.mem_flatMap.mpr ⟨t, Option.mem_toList.mpr ht, ha⟩
  · exact List.mem_append_right _ (List.mem_flatMap.mpr ⟨_, ht, ha⟩)

/-- How often the nodes can get other types. -/
def Graph.rise (atoms : List Atom) (g : Graph) : Nat :=
  ∑ n ∈ Finset.range g.cells.size, g.heap.rise atoms (g.type n)

/-- The members of a type that a node gets are members of those that it joins. -/
theorem Graph.Ranges.joined {atoms : List Atom} {t : Ty}
    (h : Graph.Ranges atoms (g, .widen n t :: rest)) : ∀ a ∈ (g.joined n t).members, a ∈ atoms := by
  intro a ha
  have hcomes := h.2 n t (List.mem_cons_self ..)
  cases hold : g.type n with
  | none =>
      rw [Graph.joined_of_none hold] at ha
      exact hcomes a ha
  | some old =>
      rw [Graph.joined_of_some hold] at ha
      exact (Heap.mem_of_mem_merge ha).elim (h.1 n old hold a) (hcomes a)

theorem Telling.ranges {atoms : List Atom} (hstep : Telling g task g' ts)
    (h : Graph.Ranges atoms (g, task :: rest)) : Graph.Ranges atoms (g', ts ++ rest) := by
  have hwidens : ∀ {s o}, ∀ n t, .widen n t ∈ (g.type s).toList.map (Task.widen o) →
      ∀ a ∈ t.members, a ∈ atoms := by
    intro s o n t ht
    obtain ⟨u, hu, heq⟩ := List.mem_map.mp ht
    cases heq
    exact h.1 s t (Option.mem_toList.mp hu)
  have hnew : (∀ n t, g'.type n = some t → ∀ a ∈ t.members, a ∈ atoms) ∧
      ∀ n t, .widen n t ∈ ts → ∀ a ∈ t.members, a ∈ atoms := by
    cases hstep with
    | pass => exact ⟨h.1, hwidens⟩
    | hear hts =>
        refine ⟨h.1, ?_⟩
        rcases hts with ⟨-, rfl⟩ | ⟨-, rfl⟩
        · exact hwidens
        · exact fun n t ht => by cases ht
    | keep => exact ⟨h.1, fun n t ht => by cases ht⟩
    | @grow n t =>
        refine ⟨fun m u hu => ?_, fun m u hu => ?_⟩
        · rw [Graph.type_setType] at hu
          split at hu
          · cases hu
            exact h.joined
          · exact h.1 m u hu
        · obtain ⟨_, -, heq⟩ := List.mem_map.mp hu
          cases heq
  refine ⟨hnew.1, fun n t ht => ?_⟩
  rcases List.mem_append.mp ht with ht | ht
  · exact hnew.2 n t ht
  · exact h.2 n t (List.mem_cons_of_mem _ ht)

/-- The types of fields stay as they are. -/
theorem Hearing.heap_setType (h : Hearing base (g, rest)) (hn : base ≤ n) (t : Ty) :
    (g.setType n t).heap = g.heap :=
  Graph.heap_eq rfl fun i o ho f hf => by
    have hlt := h.fields i o ho f hf
    refine (Graph.type_setType g n f.2 t).trans (if_neg ?_)
    rintro ⟨rfl, -⟩
    exact Nat.not_le_of_lt hlt hn

/-- A node gets another type by merging, or lighter tasks are left. -/
theorem Hearing.lowers {atoms : List Atom} (h : Hearing base (g, task :: rest))
    (hranges : Graph.Ranges atoms (g, task :: rest)) (hstep : Telling g task g' ts) :
    below (0, g'.rise atoms, weights (ts ++ rest)) (0, g.rise atoms, weights (task :: rest)) := by
  have hrest : weights (task :: rest) = task.weight + weights rest := by simp [weights]
  refine below_of_lt (.inr ⟨Nat.le_refl 0, ?_⟩)
  rw [weights_append, hrest]
  cases hstep with
  | @pass s =>
      refine .inr ⟨Nat.le_refl _, ?_⟩
      cases g.type s <;> simp [weights, Task.weight]
  | @hear s o r _ hts =>
      refine .inr ⟨Nat.le_refl _, ?_⟩
      rcases hts with ⟨rfl, rfl⟩ | ⟨rfl, rfl⟩
      · cases g.type s <;> simp [weights, Task.weight]
      · simp [weights, Task.weight]
  | keep => exact .inr ⟨Nat.le_refl _, by simp [weights, Task.weight]⟩
  | @grow n t hjoined hnew =>
      have hn : g.Owns base n := (h.tasks _ (List.mem_cons_self ..)).1
      have hlt : g.heap.rise atoms (some (g.joined n t)) < g.heap.rise atoms (g.type n) := by
        cases hold : g.type n with
        | none => exact Heap.rise_some_lt _
        | some old =>
            have hin := hranges.joined
            have hdiffers := hnew old hold
            rw [Graph.joined_of_some hold] at hin hdiffers ⊢
            exact Heap.rise_merge_lt hin hdiffers
      have htype : ∀ m, g.heap.rise atoms ((g.setType n (g.joined n t)).type m) =
          if n = m then g.heap.rise atoms (some (g.joined n t))
          else g.heap.rise atoms (g.type m) := by
        intro m
        rw [Graph.type_setType]
        by_cases hm : n = m
        · rw [if_pos ⟨hm, hn.2⟩, if_pos hm]
        · rw [if_neg fun heq => hm heq.1, if_neg hm]
      have hsize : (g.setType n (g.joined n t)).cells.size = g.cells.size := by
        simp [Graph.setType]
      refine .inl ?_
      rw [Graph.rise, Graph.rise, h.heap_setType hn.1, hsize]
      refine Finset.sum_lt_sum (fun m _ => ?_) ⟨n, Finset.mem_range.mpr hn.2, ?_⟩
      · rw [htype]
        by_cases hm : n = m
        · subst hm
          rw [if_pos rfl]
          exact hlt.le
        · rw [if_neg hm]
      · rwa [htype, if_pos rfl]

/-- What a run over tasks that tell types comes to. -/
theorem Hearing.passes {c c' : Graph.Config} {done : List Task} (h : Hearing base c)
    (hpass : Graph.Passes c done c') : Hearing base c' :=
  hpass.preserves (Hearing base) h fun g task rest g' ts hinv hp => by
    obtain ⟨g₁, ts₁, hp₁, hstep⟩ := hinv.perform
    rw [hp] at hp₁
    cases hp₁
    exact hinv.step hstep

/-- Types that are on their way arrive. -/
theorem Hearing.finishes {c : Graph.Config} (h : Hearing base c) :
    ∃ budget, (Graph.run budget c.1 c.2).2 = .finished := by
  obtain ⟨atoms, hatoms⟩ := Graph.exists_ranges c
  obtain ⟨budget, hended⟩ := Graph.exists_run_ended
    (fun (_ : Unit) c => Hearing base c ∧ Graph.Ranges atoms c)
    (fun _ c => (0, c.1.rise atoms, weights c.2)) wellFounded_below
    (fun _ g task rest g' ts hinv hp => by
      obtain ⟨g₁, ts₁, hp₁, hstep⟩ := hinv.1.perform
      rw [hp] at hp₁
      cases hp₁
      exact ⟨(), ⟨hinv.1.step hstep, hstep.ranges hinv.2⟩, hinv.1.lowers hinv.2 hstep⟩)
    () c.1 c.2 ⟨h, hatoms⟩
  rcases hout : (Graph.run budget c.1 c.2).2 with _ | f | _
  · exact ⟨budget, hout⟩
  · obtain ⟨done, g₁, task, rest, g₂, f₂, hpass, hfail, -⟩ := Graph.passes_of_run_failed hout
    obtain ⟨g₃, ts, hp, -⟩ := (h.passes hpass).perform
    rw [hfail] at hp
    cases hp
  · exact (hended hout).elim

/-! ## Sequences of steps -/

/-- A new node has no observers. -/
theorem Hearing.addCell (h : Hearing base (g, [])) {cell : Cell}
    (hrole : (∃ name, cell.role = .slot name) ∨ cell.role = .recorder)
    (hobservers : cell.observers = []) (htype : ∀ t, cell.type = some t → t.WellFormed) :
    Hearing base ((g.addCell cell).1, []) := by
  have hlt : ∀ {m : NodeId}, (g.addCell cell).1.Owns base m → m ≠ g.cells.size → g.Owns base m := by
    intro m hm hne
    have := hm.2
    simp only [Graph.addCell, Array.size_push] at this
    exact ⟨hm.1, Nat.lt_of_le_of_ne (Nat.lt_succ_iff.mp this) hne⟩
  have hgrow : ∀ {m : NodeId}, g.Owns base m → (g.addCell cell).1.Owns base m := by
    intro m hm
    refine ⟨hm.1, ?_⟩
    simp only [Graph.addCell, Array.size_push]
    exact Nat.lt_succ_of_lt hm.2
  have hedge : ∀ {s o r}, (o, r) ∈ (g.addCell cell).1.observers s →
      s ≠ g.cells.size ∧ (o, r) ∈ g.observers s := by
    intro s o r ho
    rw [Graph.observers_addCell] at ho
    split at ho
    · rw [hobservers] at ho
      cases ho
    · next hne => exact ⟨hne, ho⟩
  refine ⟨h.fields, fun m hm => ?_, fun s o r hs ho => ?_, fun s hs => ?_, fun m u hm hu => ?_,
    fun u hu => (by cases hu), fun s o u hs ho hu => ?_⟩
  · rw [Graph.role_addCell]
    split
    · exact hrole
    · next hne => exact h.role m (hlt hm hne)
  · obtain ⟨hown, hr⟩ := h.edge s o r hs (hedge ho).2
    rw [Graph.role_addCell, if_neg hown.2.ne]
    exact ⟨hgrow hown, hr⟩
  · rw [Graph.observers_addCell]
    split
    · simp [hobservers]
    · exact h.apart s hs
  · rw [Graph.type_addCell] at hu
    split at hu
    · exact htype u hu
    · exact h.type m u hm hu
  · obtain ⟨hne, ho⟩ := hedge ho
    rw [Graph.type_addCell, if_neg hne] at hu
    rw [Graph.news, Graph.type_addCell, if_neg hne]
    exact h.told s o u hs ho hu

/-- After a first task at most, a step only tells types. -/
theorem Hearing.begin (h : Hearing base (g, [])) {step : PropagationStep}
    (hstep : step.Allowed base g) : ∃ c extra, Hearing base c ∧ ∀ budget,
      Graph.run (budget + extra) (g.begin step).1 (g.begin step).2 = Graph.run budget c.1 c.2 := by
  have hdeliver : ∀ {n}, g.Owns base n →
      ∀ t ∈ ((g.observers n).map fun o => Task.deliver n o.1 o.2), t.Tells base g := by
    intro n hn t ht
    obtain ⟨o, ho, rfl⟩ := List.mem_map.mp ht
    exact ⟨hn.1, ho⟩
  cases step with
  | addSlot name t =>
      have hcell : Hearing base ((g.addSlot name t).1, []) := h.addCell (.inl ⟨name, rfl⟩) rfl hstep
      exact ⟨_, 0, hcell, fun _ => rfl⟩
  | addRecorder => exact ⟨(_, []), 0, h.addCell (.inr rfl) rfl (by simp), fun _ => rfl⟩
  | clone n =>
      obtain ⟨hn, hslot⟩ := hstep
      obtain ⟨name, hrole⟩ : ∃ name, g.role n = .slot name := by
        unfold Graph.slotName? at hslot
        split at hslot
        · next name hrole => exact ⟨name, hrole⟩
        · exact absurd rfl hslot
      exact ⟨(_, []), 0, h.addCell (.inl ⟨name, hrole⟩) rfl (h.type n · hn.1), fun _ => rfl⟩
  | observe s o r =>
      obtain ⟨hs, ho, hr⟩ := hstep
      have hadd := h.addObserver hs ho hr
      cases htype : g.type s with
      | none =>
          refine ⟨_, 1, hadd.drop fun s' o' t heq => ?_, fun budget => ?_⟩
          · cases heq
            rw [Graph.type_addObserver, htype]
            simp
          · simp [Graph.begin, Graph.run, Graph.perform, Graph.subscribe, htype, Graph.next]
      | some t =>
          refine ⟨_, 1, hadd, fun budget => ?_⟩
          have htold : (g.addObserver s o r).type s = some t := by
            rw [Graph.type_addObserver, htype]
          cases budget <;>
            simp [Graph.begin, Graph.run, Graph.perform, Graph.subscribe, htype, htold, Graph.next]
  | setType n t =>
      obtain ⟨hn, ht⟩ := hstep
      cases t with
      | none => exact ⟨_, 0, h, fun _ => rfl⟩
      | some t =>
          have hperform : g.perform (.store n t) = g.storeType n t := rfl
          rcases g.storeType_cases n t with ⟨hstore, -⟩ | ⟨hstore, -⟩ <;> rw [hstore] at hperform
          · exact ⟨_, 1, h, fun budget => Graph.run_cons_ok budget hperform⟩
          · exact ⟨_, 1, h.setType hn (ht t rfl), fun budget => Graph.run_cons_ok budget hperform⟩
  | addType n t =>
      obtain ⟨hn, ht⟩ := hstep
      refine ⟨(g, t.toList.map (.widen n) ++ []), 0, h.append fun u hu => ?_, fun budget => ?_⟩
      · obtain ⟨v, hv, rfl⟩ := List.mem_map.mp hu
        exact ⟨hn, ht v (Option.mem_toList.mp hv)⟩
      · rw [List.append_nil]
        rfl
  | react n r t => exact hstep.elim
  | notify n => exact ⟨_, 1, h.append (hdeliver hstep), fun budget => Graph.run_cons_ok budget rfl⟩

/-- Allowed steps lead to a graph in which nothing waits to be told. -/
theorem Graph.Sends.hearing (hfields : g.HasFields) (h : g.Sends g') :
    Hearing g.cells.size (g', []) := by
  induction h with
  | start =>
      refine ⟨hfields, fun n hn => (Nat.not_le_of_lt hn.2 hn.1).elim, fun s o r hs ho => ?_,
        fun s hs => ?_, fun n t hn ht => ?_, fun t ht => (by cases ht), fun s o t hs ho => ?_⟩
      · rw [observers_of_le hs] at ho
        cases ho
      · rw [observers_of_le hs]
        exact List.nodup_nil
      · rw [type_of_le hn] at ht
        cases ht
      · rw [observers_of_le hs] at ho
        cases ho
  | @step g₁ g₂ step budget _ hallowed hrun ih =>
      obtain ⟨c, extra, hc, heq⟩ := ih.begin hallowed
      have hmore : run (budget + extra) (g₁.begin step).1 (g₁.begin step).2 = (g₂, .finished) := by
        rw [run_of_le _ (Nat.le_add_right budget extra)]
        · exact hrun
        · exact fun hexhausted => by
            rw [show run budget (g₁.begin step).1 (g₁.begin step).2 = (g₂, .finished) from hrun]
              at hexhausted
            cases hexhausted
      rw [heq] at hmore
      obtain ⟨done, hpass⟩ := passes_of_run_finished (congrArg Prod.snd hmore)
      rw [hmore] at hpass
      exact hc.passes hpass

/-- After each of any steps that are allowed, a recorder that observes a typed node without
merging heard last of it the type that it has, whatever was told in between, and every further
step that is allowed comes to its end. -/
theorem Graph.Sends.hears (hfields : g.HasFields) (h : g.Sends g') :
    (∀ s o t, g.cells.size ≤ s → (o, .resolve) ∈ g'.observers s → g'.type s = some t →
      g'.lastHeard? s o = some ⟨o, some s, .resolve, some t⟩) ∧
    ∀ step : PropagationStep, step.Allowed g.cells.size g' →
      ∃ budget g'', g'.propagate budget step = (g'', .finished) := by
  have hhearing := h.hearing hfields
  refine ⟨fun s o t hs ho ht => ?_, fun step hstep => ?_⟩
  · rcases hhearing.told s o t hs ho ht with htold | hwaits
    · rw [htold, news, ht]
    · cases hwaits
  · obtain ⟨c, extra, hc, heq⟩ := hhearing.begin hstep
    obtain ⟨budget, hfinished⟩ := hc.finishes
    exact ⟨budget + extra, _, (heq budget).trans (Prod.ext rfl hfinished)⟩

/-- The graph that steps lead to, the latest of which comes first. -/
def Graph.sent (budget : Nat) (g : Graph) : List PropagationStep → Graph
  | [] => g
  | step :: earlier => ((g.sent budget earlier).propagate budget step).1

/-- Each of several steps is allowed and comes to its end. -/
def Graph.CanSend (budget : Nat) (g : Graph) : List PropagationStep → Prop
  | [] => True
  | step :: earlier => g.CanSend budget earlier ∧
      step.Allowed g.cells.size (g.sent budget earlier) ∧
      ((g.sent budget earlier).propagate budget step).2 = .finished

instance Graph.decidableCanSend (budget : Nat) (g : Graph) : DecidablePred (g.CanSend budget)
  | [] => .isTrue trivial
  | _ :: earlier =>
      have := g.decidableCanSend budget earlier
      instDecidableAnd

theorem Graph.sends_sent {budget : Nat} {steps : List PropagationStep}
    (h : g.CanSend budget steps) : g.Sends (g.sent budget steps) := by
  induction steps with
  | nil => exact .start
  | cons step earlier ih => exact .step (ih h.1) h.2.1 (Prod.ext rfl h.2.2)

/-- Two variables that observe each other, and a recorder that observes both of them. One of them
gets a wider type while it tells a wider type to the other, and then a narrower one. -/
def gossip : List PropagationStep :=
  [.setType 0 (some (.prim "Int")), .notify 1,
    .addType 1 (some (.union [.obj 1, .prim "Int"] [.obj 1, .prim "Int"])), .observe 1 2 .resolve,
    .observe 0 2 .resolve, .observe 1 2 .merge, .observe 1 0 .merge, .observe 0 1 .merge,
    .addRecorder, .addSlot (some "b") none, .addSlot (some "a") (some (.obj 0))]

theorem hears_gossip : boxes.HasFields ∧ boxes.Sends (boxes.sent 50 gossip) ∧
    (boxes.sent 50 gossip).type 0 = some (.prim "Int") ∧
    (∀ s o t, boxes.cells.size ≤ s → (o, .resolve) ∈ (boxes.sent 50 gossip).observers s →
      (boxes.sent 50 gossip).type s = some t →
      (boxes.sent 50 gossip).lastHeard? s o = some ⟨o, some s, .resolve, some t⟩) ∧
    ∀ step : PropagationStep, step.Allowed boxes.cells.size (boxes.sent 50 gossip) →
      ∃ budget g'', (boxes.sent 50 gossip).propagate budget step = (g'', .finished) := by
  have hfields : boxes.HasFields := by decide +kernel
  have hsends : boxes.Sends (boxes.sent 50 gossip) := Graph.sends_sent (by decide +kernel)
  exact ⟨hfields, hsends, by decide +kernel, hsends.hears hfields⟩

end TypeFlow
