import TypeFlow.Proofs.Ending
import TypeFlow.Proofs.Joining
import Mathlib.Logic.Relation

/-! # Types that spread over a network

Variables that merge what they observe, and the types that were given to some of them, make up a
network. While a type spreads, each variable has nothing but what was given to a variable from which
it can be reached, and whatever it does not have yet a task that waits will bring. Each task leaves
less to do: it makes a variable know a member that it lacked, or it is followed by lighter tasks. -/

namespace TypeFlow

open Relation

/-! ## Networks -/

/-- The edges between variables, and the types that were given to variables. The addresses of
variables begin after those of all that was there before them. -/
structure Network where
  base : NodeId
  heap : Heap
  links : List (NodeId × NodeId)
  given : List (NodeId × Ty)

namespace Network

variable {N N' : Network}

/-- A path of edges leads from one variable to another, or they are the same. -/
def Reaches (N : Network) : NodeId → NodeId → Prop := ReflTransGen fun s o => (s, o) ∈ N.links

/-- A concrete type equals a member of a type that was given to a variable from which this one can be
reached. -/
def Brings (N : Network) (n : NodeId) (a : Atom) : Prop :=
  ∃ m t, (m, t) ∈ N.given ∧ N.Reaches m n ∧ ∃ b ∈ t.members, N.heap.Equal a b

/-- A variable may get a type: the members differ, and edges bring all of them. -/
structure Carries (N : Network) (n : NodeId) (t : Ty) : Prop where
  proper : t.Proper N.heap
  brings : ∀ a ∈ t.members, N.Brings n a

theorem Carries.along {s o : NodeId} {t : Ty} (h : N.Carries s t) (hlink : (s, o) ∈ N.links) :
    N.Carries o t where
  proper := h.proper
  brings a ha := by
    obtain ⟨m, u, hgiven, hpath, hb⟩ := h.brings a ha
    exact ⟨m, u, hgiven, hpath.tail hlink, hb⟩

theorem Carries.merge {n : NodeId} {t u : Ty} (ht : N.Carries n t) (hu : N.Carries n u) :
    N.Carries n (N.heap.merge t u) where
  proper := ht.proper.merge
  brings a ha := (Heap.mem_of_mem_merge ha).elim (ht.brings a) (hu.brings a)

theorem Carries.of_given (heq : Equivalence N.heap.Equal) {n : NodeId} {t : Ty}
    (h : (n, t) ∈ N.given) (ht : t.Proper N.heap) : N.Carries n t where
  proper := ht
  brings a ha := ⟨n, t, h, .refl, a, ha, heq.refl a⟩

/-- A network with more edges and more types that were given. -/
structure Sub (N N' : Network) : Prop where
  base : N'.base = N.base
  heap : N'.heap = N.heap
  links : ∀ e ∈ N.links, e ∈ N'.links
  given : ∀ e ∈ N.given, e ∈ N'.given

theorem Sub.brings (h : Sub N N') {n : NodeId} {a : Atom} (ha : N.Brings n a) : N'.Brings n a := by
  obtain ⟨m, t, hgiven, hpath, hb⟩ := ha
  refine ⟨m, t, h.given _ hgiven, ReflTransGen.mono (fun s o hlink => h.links _ hlink) _ _ hpath, ?_⟩
  rwa [h.heap]

theorem Sub.carries (h : Sub N N') {n : NodeId} {t : Ty} (ht : N.Carries n t) :
    N'.Carries n t where
  proper := h.heap ▸ ht.proper
  brings a ha := h.brings (ht.brings a ha)

/-- A variable of the network. -/
def Var (N : Network) (g : Graph) (n : NodeId) : Prop := N.base ≤ n ∧ n < g.cells.size

end Network

/-! ## Graphs while types spread -/

/-- A node has a type that accounts for another one. -/
def Graph.Holds (g : Graph) (h : Heap) (n : NodeId) (t : Ty) : Prop :=
  ∃ u, g.type n = some u ∧ u.Covers h.Equal t

/-- A task that brings types along the edges of a network. -/
def Task.Spreads (N : Network) (g : Graph) : Task → Prop
  | .subscribe s o r | .deliver s o r => r = .merge ∧ (s, o) ∈ N.links
  | .react s o r t => (∃ s', s = some s') ∧ r = .merge ∧ ∃ u, t = some u ∧ N.Var g o ∧ N.Carries o u
  | .widen n t => N.Var g n ∧ N.Carries n t
  | _ => False

theorem Task.spreads_congr {N : Network} {g g' : Graph} (hsize : g'.cells.size = g.cells.size)
    {t : Task} : t.Spreads N g' ↔ t.Spreads N g := by
  cases t <;> simp [Task.Spreads, Network.Var, hsize]

/-- The variables of a graph are those of a network, with types on their way. -/
structure Spreading (N : Network) (c : Graph.Config) : Prop where
  base : N.base ≤ c.1.cells.size
  heap : c.1.heap = N.heap
  fields : ∀ (i : ObjId) (o : ObjectType), c.1.objects[i]? = some o → ∀ f ∈ o.fields, f.2 < N.base
  slot : ∀ n, N.Var c.1 n → ∃ name, c.1.role n = .slot name
  edge : ∀ s o r, N.base ≤ s → (o, r) ∈ c.1.observers s → r = .merge ∧ (s, o) ∈ N.links
  type : ∀ n t, N.base ≤ n → c.1.type n = some t → N.Carries n t
  tasks : ∀ t ∈ c.2, t.Spreads N c.1
  links : ∀ s o, (s, o) ∈ N.links → N.Var c.1 s ∧ N.Var c.1 o
  linked : ∀ s o, (s, o) ∈ N.links → (o, .merge) ∈ c.1.observers s ∨ .subscribe s o .merge ∈ c.2
  told : ∀ s o, (s, o) ∈ N.links → (o, .merge) ∈ c.1.observers s →
    c.1.Told c.2 s o (c.1.Holds N.heap o)
  given : ∀ n t, (n, t) ∈ N.given → N.Var c.1 n ∧ (.widen n t ∈ c.2 ∨ c.1.Holds N.heap n t)

variable {N : Network} {g g' : Graph} {task : Task} {ts rest : List Task}

/-! ## What a task does -/

/-- What the tasks do that spread types. A type that a node accounts for changes nothing. -/
inductive Network.Step (N : Network) (g : Graph) : Task → Graph → List Task → Prop where
  | subscribe {s o : NodeId} : (s, o) ∈ N.links → N.Step g (.subscribe s o .merge)
      (g.addObserver s o .merge) ((g.type s).toList.map fun t => .react (some s) o .merge (some t))
  | deliver {s o : NodeId} : (s, o) ∈ N.links →
      N.Step g (.deliver s o .merge) g ((g.type s).toList.map (.widen o))
  | react {s : Option NodeId} {o : NodeId} {t : Ty} : N.Var g o → N.Carries o t →
      N.Step g (.react s o .merge (some t)) g [.widen o t]
  | keep {n : NodeId} {t : Ty} : g.Holds N.heap n t → N.Step g (.widen n t) g []
  | grow {n : NodeId} {t : Ty} : N.Var g n → N.Carries n t → ¬ g.Holds N.heap n t →
      N.Step g (.widen n t) (g.setType n (g.joined n t))
        ((g.observers n).map fun o => .deliver n o.1 o.2)

theorem Graph.react_slot {name : Option String} {s : Option NodeId} {o : NodeId} {t : Option Ty}
    (h : g.role o = .slot name) : g.react s o .merge t = g.next (t.toList.map (.widen o)) := by
  simp [react, h]

section step

variable (hequal : Equivalence N.heap.Equal)

/-- The type of a variable and one that comes to it join to one that the variable may get. -/
theorem Spreading.carries_joined {c : Graph.Config} (h : Spreading N c) {n : NodeId} {t : Ty}
    (hn : N.base ≤ n) (ht : N.Carries n t) : N.Carries n (c.1.joined n t) := by
  cases hold : c.1.type n with
  | none => rwa [Graph.joined_of_none hold]
  | some old =>
      rw [Graph.joined_of_some hold, h.heap]
      exact (h.type n old hn hold).merge ht

/-- No task that waits fails. -/
theorem Spreading.perform (h : Spreading N (g, task :: rest)) :
    ∃ g' ts, g.perform task = (g', .ok ts) ∧ N.Step g task g' ts := by
  have htask := h.tasks _ (List.mem_cons_self ..)
  cases task with
  | subscribe s o r =>
      obtain ⟨rfl, hlink⟩ := htask
      refine ⟨_, _, ?_, .subscribe hlink⟩
      simp only [Graph.perform, Graph.subscribe, Graph.next]
      cases g.type s <;> rfl
  | deliver s o r =>
      obtain ⟨rfl, hlink⟩ := htask
      obtain ⟨name, hrole⟩ := h.slot o (h.links s o hlink).2
      exact ⟨_, _, Graph.react_slot hrole, .deliver hlink⟩
  | react s o r t =>
      obtain ⟨-, rfl, u, rfl, hvar, hu⟩ := htask
      obtain ⟨name, hrole⟩ := h.slot o hvar
      exact ⟨_, _, Graph.react_slot hrole, .react hvar hu⟩
  | widen n t =>
      obtain ⟨hvar, ht⟩ := htask
      have hjoined := h.carries_joined hvar.1 ht
      rw [Graph.perform, Graph.widenType_eq hjoined.proper.wellFormed]
      by_cases hheld : g.Holds N.heap n t
      · obtain ⟨old, hold, hcov⟩ := hheld
        refine ⟨g, [], ?_, .keep ⟨old, hold, hcov⟩⟩
        have hproper := (h.type n old hvar.1 hold).proper
        rw [Graph.joined_of_some hold, h.heap, hproper.merge_eq_self hcov, Graph.storeType, hold]
        exact if_pos (g.heap.same_self old)
      · refine ⟨_, _, ?_, .grow hvar ht hheld⟩
        unfold Graph.storeType
        cases hold : g.type n with
        | none => rfl
        | some old =>
            refine if_neg fun hsame => hheld ⟨old, hold, ?_⟩
            have hfull := (h.type n old hvar.1 hold).proper.full
            have hcov := Heap.merge_covers hfull ht.proper.full (h := N.heap)
            rw [Graph.joined_of_some hold, h.heap] at hsame
            exact (Heap.covers_of_same hfull (Heap.full_merge hfull) hsame).trans hcov.2
              fun x y z hxy hyz => by
                rw [← h.heap] at hxy hyz ⊢
                exact hxy.trans g.bounded_heap hyz
  | _ => exact htask.elim

end step

/-! ## What a task leaves as it is -/

namespace Network.Step

variable (h : N.Step g task g' ts)
include h

theorem objects : g'.objects = g.objects := by cases h <;> rfl

theorem size : g'.cells.size = g.cells.size := by
  cases h <;> simp [Graph.addObserver, Graph.setType]

theorem role (n : NodeId) : g'.role n = g.role n := by
  cases h with
  | subscribe => exact g.role_addObserver ..
  | grow => exact g.role_setType ..
  | deliver | react | keep => rfl

theorem var {n : NodeId} : N.Var g' n ↔ N.Var g n := by
  rw [Network.Var, Network.Var, h.size]

/-- The type of a node stays as it is and accounts for what is merged into it, or the node is a
variable that gets a type merged into its own and tells all of its observers. -/
theorem type (n : NodeId) :
    (g'.type n = g.type n ∧ ∀ t, task = .widen n t → g.Holds N.heap n t) ∨
      ∃ t, task = .widen n t ∧ N.Var g n ∧ N.Carries n t ∧ ¬ g.Holds N.heap n t ∧
        g'.type n = some (g.joined n t) ∧ ∀ o r, (o, r) ∈ g.observers n → .deliver n o r ∈ ts := by
  cases h with
  | subscribe => exact .inl ⟨g.type_addObserver .., fun _ heq => by cases heq⟩
  | deliver | react => exact .inl ⟨rfl, fun _ heq => by cases heq⟩
  | keep hheld =>
      refine .inl ⟨rfl, fun _ heq => ?_⟩
      cases heq
      exact hheld
  | @grow m t hvar ht hnew =>
      rw [Graph.type_setType]
      by_cases hm : m = n
      · subst hm
        rw [if_pos ⟨rfl, hvar.2⟩]
        exact .inr ⟨t, rfl, hvar, ht, hnew, rfl,
          fun o r ho => List.mem_map.mpr ⟨(o, r), ho, rfl⟩⟩
      · rw [if_neg fun hn => hm hn.1]
        refine .inl ⟨rfl, fun _ heq => ?_⟩
        cases heq
        exact (hm rfl).elim

theorem type_below {n : NodeId} (hn : n < N.base) : g'.type n = g.type n := by
  rcases h.type n with ⟨h, -⟩ | ⟨t, -, hvar, -⟩
  · exact h
  · exact (Nat.not_le_of_lt hn hvar.1).elim

theorem edge {s o : NodeId} {r : Reaction} (ho : (o, r) ∈ g'.observers s) :
    (o, r) ∈ g.observers s ∨ task = .subscribe s o r ∧ r = .merge ∧ (s, o) ∈ N.links := by
  cases h with
  | @subscribe m k hlink =>
      rw [Graph.observers_addObserver] at ho
      split at ho
      · next heq =>
          obtain ⟨rfl, -⟩ := heq
          rcases Table.mem_of_mem_put ho with ho | heq
          · exact .inl ho
          · cases heq
            exact .inr ⟨rfl, rfl, hlink⟩
      · exact .inl ho
  | deliver | react | keep => exact .inl ho
  | grow => exact .inl (by rwa [Graph.observers_setType] at ho)

end Network.Step

section step

variable (h : Spreading N (g, task :: rest)) (hstep : N.Step g task g' ts)
include h hstep

theorem Spreading.heap_step : g'.heap = N.heap := by
  rw [← h.heap]
  exact Graph.heap_eq hstep.objects fun i o ho f hf => hstep.type_below (h.fields i o ho f hf)

/-- An edge of the network stays where it is, and a task that makes one makes it. -/
theorem Spreading.edge_step {s o : NodeId} (hlink : (s, o) ∈ N.links)
    (hedge : (o, .merge) ∈ g.observers s ∨ task = .subscribe s o .merge) :
    (o, .merge) ∈ g'.observers s := by
  cases hstep with
  | @subscribe m k hnew =>
      have hcalm : Graph.Calm g (g.addObserver m k .merge) :=
        Graph.calm_addObserver fun r hr => (h.edge m k r (h.links m k hnew).1.1 hr).1
      rcases hedge with hedge | heq
      · exact Graph.has_edge.mp (hcalm.lasts _ rfl (Graph.has_edge.mpr hedge))
      · cases heq
        rw [Graph.observers_addObserver, if_pos ⟨rfl, (h.links s o hlink).1.2⟩]
        exact Table.mem_put_self ..
  | deliver | react | keep => exact hedge.elim id fun heq => by cases heq
  | grow =>
      rw [Graph.observers_setType]
      exact hedge.elim id fun heq => by cases heq

/-- A variable goes on to account for what it accounts for, and accounts for what is merged into it. -/
theorem Spreading.holds_step {n : NodeId} {t : Ty} (hn : N.base ≤ n)
    (hheld : g.Holds N.heap n t ∨ task = .widen n t) : g'.Holds N.heap n t := by
  have htrans : ∀ x y z, N.heap.Equal x y → N.heap.Equal y z → N.heap.Equal x z := by
    rw [← h.heap]
    exact fun x y z hxy hyz => hxy.trans g.bounded_heap hyz
  rcases hstep.type n with ⟨htype, hwiden⟩ | ⟨u, rfl, hvar, hu, hnew, htype, -⟩
  · obtain ⟨old, hold, hcov⟩ := hheld.elim id (hwiden t)
    exact ⟨old, htype.trans hold, hcov⟩
  · have hcov : (g.joined n u).Covers N.heap.Equal u ∧
        ∀ old, g.type n = some old → (g.joined n u).Covers N.heap.Equal old := by
      cases hold : g.type n with
      | none =>
          rw [Graph.joined_of_none hold]
          exact ⟨N.heap.covers_self u, fun _ heq => by cases heq⟩
      | some old =>
          rw [Graph.joined_of_some hold, h.heap]
          have hmerge := Heap.merge_covers (h := N.heap) (h.type n old hn hold).proper.full
            hu.proper.full
          refine ⟨hmerge.2, fun old' heq => ?_⟩
          cases heq
          exact hmerge.1
    rcases hheld with ⟨old, hold, hcov'⟩ | heq
    · exact ⟨_, htype, (hcov.2 old hold).trans hcov' htrans⟩
    · cases heq
      exact ⟨_, htype, hcov.1⟩

theorem Spreading.tasks_step : ∀ t ∈ ts, t.Spreads N g := by
  intro t ht
  cases hstep with
  | @subscribe s o hlink =>
      obtain ⟨u, hu, rfl⟩ := List.mem_map.mp ht
      have hvar := h.links s o hlink
      exact ⟨⟨s, rfl⟩, rfl, u, rfl, hvar.2,
        (h.type s u hvar.1.1 (Option.mem_toList.mp hu)).along hlink⟩
  | @deliver s o hlink =>
      obtain ⟨u, hu, rfl⟩ := List.mem_map.mp ht
      have hvar := h.links s o hlink
      exact ⟨hvar.2, (h.type s u hvar.1.1 (Option.mem_toList.mp hu)).along hlink⟩
  | react hvar hu =>
      cases List.mem_singleton.mp ht
      exact ⟨hvar, hu⟩
  | keep => cases ht
  | grow hvar =>
      obtain ⟨⟨o, r⟩, ho, rfl⟩ := List.mem_map.mp ht
      exact h.edge _ o r hvar.1 ho

/-- An observer of a variable goes on to be told. -/
theorem Spreading.told_step {s o : NodeId} (hlink : (s, o) ∈ N.links)
    (hedge : (o, .merge) ∈ g'.observers s) :
    g'.Told (ts ++ rest) s o (g'.Holds N.heap o) := by
  have ho := (h.links s o hlink).2.1
  have hold := hstep.edge hedge
  refine Graph.told_step task (g.Holds N.heap o) ?_ (h.told s o hlink) ?_ ?_ ?_ ?_ ?_
  · rcases hstep.type s with ⟨htype, -⟩ | ⟨t, rfl, -, -, -, -, htell⟩
    · exact .inl htype
    · refine .inr (htell o .merge (hold.elim id ?_))
      rintro ⟨heq, -⟩
      cases heq
  · refine hold.imp_right ?_
    rintro ⟨rfl, -⟩ t ht
    cases hstep
    simp [ht]
  · rintro rfl t ht
    cases hstep
    simp [ht]
  · rintro t rfl
    cases hstep
    simp
  · exact fun t htask _ => h.holds_step hstep ho (.inr htask)
  · exact fun t _ hheard => h.holds_step hstep ho (.inl hheard)

/-- A task keeps types on their way over the network. -/
theorem Spreading.step : Spreading N (g', ts ++ rest) where
  base := hstep.size ▸ h.base
  heap := h.heap_step hstep
  fields i o ho := h.fields i o (by rwa [← hstep.objects])
  slot n hn := by
    rw [hstep.role]
    exact h.slot n (hstep.var.mp hn)
  edge s o r hs ho := by
    rcases hstep.edge ho with ho | ⟨-, hr, hlink⟩
    · exact h.edge s o r hs ho
    · exact ⟨hr, hlink⟩
  type n t hn ht := by
    rcases hstep.type n with ⟨htype, -⟩ | ⟨u, -, -, hu, -, htype, -⟩
    · exact h.type n t hn (htype ▸ ht)
    · cases htype.symm.trans ht
      exact h.carries_joined hn hu
  tasks t ht := (Task.spreads_congr hstep.size).mpr <|
    (List.mem_append.mp ht).elim (h.tasks_step hstep t) fun hrest =>
      h.tasks t (List.mem_cons_of_mem _ hrest)
  links s o hlink := by
    rw [hstep.var, hstep.var]
    exact h.links s o hlink
  linked s o hlink := by
    rcases h.linked s o hlink with hedge | hwaits
    · exact .inl (h.edge_step hstep hlink (.inl hedge))
    · rcases List.mem_cons.mp hwaits with heq | hrest
      · exact .inl (h.edge_step hstep hlink (.inr heq.symm))
      · exact .inr (List.mem_append_right _ hrest)
  told s o hlink hedge := h.told_step hstep hlink hedge
  given n t hgiven := by
    obtain ⟨hvar, hwaits⟩ := h.given n t hgiven
    refine ⟨hstep.var.mpr hvar, ?_⟩
    rcases hwaits with hwaits | hheld
    · rcases List.mem_cons.mp hwaits with heq | hrest
      · exact .inr (h.holds_step hstep hvar.1 (.inr heq.symm))
      · exact .inl (List.mem_append_right _ hrest)
    · exact .inr (h.holds_step hstep hvar.1 (.inl hheld))

end step

/-! ## Spreading ends -/

/-- A node has a member for a concrete type. -/
def Graph.knows (g : Graph) (h : Heap) (n : NodeId) (a : Atom) : Bool :=
  (g.type n).any fun t => t.members.any (h.sameAtom · a)

theorem Graph.knows_iff {h : Heap} {n : NodeId} {a : Atom} :
    g.knows h n a = true ↔ ∃ t, g.type n = some t ∧ ∃ x ∈ t.members, h.Equal x a := by
  simp [knows, Heap.Equal, Option.any_eq_true]

/-- The concrete types that were given that a node has no member for. -/
def Network.lacking (N : Network) (g : Graph) (n : NodeId) : Finset Atom :=
  (N.given.flatMap (·.2.members)).toFinset.filter fun a => g.knows N.heap n a = false

def Network.lack (N : Network) (g : Graph) : Nat :=
  ∑ n ∈ Finset.range g.cells.size, (N.lacking g n).card

section measure

variable (hequal : Equivalence N.heap.Equal) (h : Spreading N (g, task :: rest))
  (hstep : N.Step g task g' ts)
include h hstep

theorem Spreading.lacking_subset (n : NodeId) : N.lacking g' n ⊆ N.lacking g n := by
  intro a ha
  simp only [Network.lacking, Finset.mem_filter, Bool.eq_false_iff, ne_eq, Graph.knows_iff] at ha ⊢
  refine ⟨ha.1, fun ⟨t, ht, x, hx, hxa⟩ => ha.2 ?_⟩
  by_cases hn : N.base ≤ n
  · obtain ⟨u, hu, hcov⟩ := h.holds_step hstep hn (.inl ⟨t, ht, N.heap.covers_self t⟩)
    obtain ⟨y, hy, hyx⟩ := hcov x hx
    rw [← h.heap] at hyx hxa ⊢
    exact ⟨u, hu, y, hy, hyx.trans g.bounded_heap hxa⟩
  · exact ⟨t, (hstep.type_below (Nat.lt_of_not_le hn)).trans ht, x, hx, hxa⟩

include hequal

/-- A type that is merged into that of a node and not accounted for yet brings a member that the node
lacks. -/
theorem Spreading.lacking_ssubset {n : NodeId} {t : Ty} (htask : task = .widen n t)
    (ht : N.Carries n t) (hn : N.base ≤ n) (hnew : ¬ g.Holds N.heap n t) :
    N.lacking g' n ⊂ N.lacking g n := by
  obtain ⟨a, ha, hlack⟩ : ∃ a ∈ t.members, g.knows N.heap n a = false := by
    by_contra hall
    push Not at hall
    obtain ⟨a, ha⟩ := List.exists_mem_of_ne_nil _ ht.proper.members_ne_nil
    obtain ⟨u, hu, -⟩ := Graph.knows_iff.mp (Bool.eq_true_of_not_eq_false (hall a ha))
    refine hnew ⟨u, hu, fun y hy => ?_⟩
    obtain ⟨u', hu', hx⟩ := Graph.knows_iff.mp (Bool.eq_true_of_not_eq_false (hall y hy))
    rw [hu] at hu'
    cases hu'
    exact hx
  obtain ⟨m, u, hgiven, -, b, hb, hab⟩ := ht.brings a ha
  refine (Finset.ssubset_iff_of_subset (h.lacking_subset hstep n)).mpr ⟨b, ?_, ?_⟩
  · simp only [Network.lacking, Finset.mem_filter, List.mem_toFinset, List.mem_flatMap]
    refine ⟨⟨_, hgiven, hb⟩, Bool.eq_false_iff.mpr fun hknows => ?_⟩
    obtain ⟨v, hv, x, hx, hxb⟩ := Graph.knows_iff.mp hknows
    rw [Bool.eq_false_iff] at hlack
    exact hlack (Graph.knows_iff.mpr ⟨v, hv, x, hx, hequal.trans hxb (hequal.symm hab)⟩)
  · obtain ⟨v, hv, hcov⟩ := h.holds_step hstep hn (.inr htask)
    obtain ⟨x, hx, hxa⟩ := hcov a ha
    simp only [Network.lacking, Finset.mem_filter, not_and, Bool.not_eq_false]
    exact fun _ => Graph.knows_iff.mpr ⟨v, hv, x, hx, hequal.trans hxa hab⟩

/-- A task makes a node know more, or it leaves lighter tasks. -/
theorem Spreading.lowers :
    below (0, N.lack g', weights (ts ++ rest)) (0, N.lack g, weights (task :: rest)) := by
  have hle : ∀ n ∈ Finset.range g.cells.size, (N.lacking g' n).card ≤ (N.lacking g n).card :=
    fun n _ => Finset.card_le_card (h.lacking_subset hstep n)
  have hlack : N.lack g' ≤ N.lack g := by
    rw [Network.lack, hstep.size]
    exact Finset.sum_le_sum hle
  have hrest : weights (task :: rest) = task.weight + weights rest := by simp [weights]
  refine below_of_lt (.inr ⟨Nat.le_refl 0, ?_⟩)
  rw [weights_append, hrest]
  cases hstep with
  | @subscribe s o =>
      refine .inr ⟨hlack, ?_⟩
      cases g.type s <;> simp [weights, Task.weight]
  | @deliver s o =>
      refine .inr ⟨hlack, ?_⟩
      cases g.type s <;> simp [weights, Task.weight]
  | react => exact .inr ⟨hlack, by simp [weights, Task.weight]⟩
  | keep => exact .inr ⟨hlack, by simp [weights, Task.weight]⟩
  | @grow n t hvar ht hnew =>
      have hlt := Finset.card_lt_card
        (h.lacking_ssubset hequal (.grow hvar ht hnew) rfl ht hvar.1 hnew)
      refine .inl ?_
      rw [Network.lack, Network.Step.size (.grow hvar ht hnew)]
      exact Finset.sum_lt_sum hle ⟨n, Finset.mem_range.mpr hvar.2, hlt⟩

end measure

/-- Types that are on their way arrive: the run over the tasks that wait finishes. -/
theorem Spreading.finishes {c : Graph.Config} (hequal : Equivalence N.heap.Equal)
    (h : Spreading N c) : ∃ budget g', Graph.run budget c.1 c.2 = (g', .finished) ∧
      Spreading N (g', []) ∧ g'.cells.size = c.1.cells.size := by
  have hstep : ∀ {g g' : Graph} {task : Task} {ts rest : List Task},
      Spreading N (g, task :: rest) → g.perform task = (g', .ok ts) → N.Step g task g' ts := by
    intro g g' task ts rest hinv hp
    obtain ⟨g₁, ts₁, hp₁, hstep⟩ := hinv.perform
    rw [hp] at hp₁
    cases hp₁
    exact hstep
  obtain ⟨budget, hended⟩ := Graph.exists_run_ended (fun (_ : Unit) c => Spreading N c)
    (fun _ c => (0, N.lack c.1, weights c.2)) wellFounded_below
    (fun _ g task rest g' ts hinv hp => ⟨(), hinv.step (hstep hinv hp),
      hinv.lowers hequal (hstep hinv hp)⟩) () c.1 c.2 h
  have hpasses : ∀ {done c'}, Graph.Passes c done c' →
      Spreading N c' ∧ c'.1.cells.size = c.1.cells.size := fun hpass =>
    hpass.preserves (fun c' => Spreading N c' ∧ c'.1.cells.size = c.1.cells.size) ⟨h, rfl⟩
      fun g task rest g' ts hinv hp =>
        ⟨hinv.1.step (hstep hinv.1 hp), (hstep hinv.1 hp).size.trans hinv.2⟩
  rcases hout : (Graph.run budget c.1 c.2).2 with _ | f | _
  · obtain ⟨done, hpass⟩ := Graph.passes_of_run_finished hout
    exact ⟨budget, _, Prod.ext rfl hout, hpasses hpass⟩
  · obtain ⟨done, g₁, task, rest, g₂, f₂, hpass, hfail, -⟩ := Graph.passes_of_run_failed hout
    obtain ⟨g₃, ts, hp, -⟩ := (hpasses hpass).1.perform
    rw [hfail] at hp
    cases hp
  · exact (hended hout).elim

end TypeFlow
