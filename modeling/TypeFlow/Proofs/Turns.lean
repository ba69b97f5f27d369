import TypeFlow.Proofs.Seeds
import TypeFlow.Proofs.Suiting

/-! # Every node has its turn once

A walk comes to each node once, and no two walks come to the same node. So a literal, a loop, an
empty block and the construction of a new object have no type when a walk gives them theirs. -/

namespace TypeFlow

/-! ## The stops of a tree -/

namespace Expr

theorem map_parts (e : Expr) (k : Option String) (i : Nat) :
    (e.parts k i).map (fun p => (p.node, p.expr)) =
      (e.parts none i).map fun p => (p.node, p.expr) := by
  cases e with
  | literal | place | const | method | assign | loop | klass => rfl
  | block es => simp [parts, Function.comp_def]
  | cond c t f => simp [parts, Function.comp_def]
  | call r n as q =>
      simp only [parts]
      split <;> simp [Function.comp_def]

/-- The nodes that a walk comes to do not depend on the class around them. -/
theorem map_node_stops (e : Expr) (k : Option String) (i : Nat) :
    (e.stops k i).map (·.node) = (e.stops none i).map (·.node) := by
  induction e using indParts generalizing k i with
  | h e ih =>
      have hbelow : ∀ k', ((e.parts k' i).flatMap fun p => p.expr.stops p.klass p.node).map (·.node) =
          ((e.parts k' i).map fun p => (p.node, p.expr)).flatMap
            fun x => (x.2.stops none x.1).map (·.node) := by
        intro k'
        rw [List.map_flatMap, List.flatMap_map]
        exact List.flatMap_congr fun p hp => ih k' i p hp p.klass p.node
      rw [stops_eq, stops_eq, List.map_cons, List.map_cons, hbelow, hbelow, map_parts]

theorem mem_map_node_stops {e : Expr} {k : Option String} {i : Nat} {q : Stop}
    (h : q ∈ e.stops k i) : q.node ∈ (e.stops none i).map (·.node) := by
  rw [← map_node_stops e k]
  exact List.mem_map_of_mem h

/-- A walk comes to the nodes of a tree in their order. -/
theorem pairwise_stops (e : Expr) (k : Option String) (i : Nat) :
    (e.stops k i).Pairwise fun q s => q.node < s.node := by
  induction e using indParts generalizing k i with
  | h e ih =>
      rw [stops_eq, List.pairwise_cons, List.pairwise_flatMap]
      refine ⟨fun s hs => ?_, fun p hp => ih k i p hp p.klass p.node,
        (parts_pairwise e k i).imp fun {p p'} hpp q hq s hs => ?_⟩
      · obtain ⟨p, hp, hs⟩ := List.mem_flatMap.mp hs
        exact Nat.lt_of_lt_of_le (mem_parts hp).1 (stop_range hs).1
      · have hqr := stop_range hq
        have hsr := stop_range hs
        have hpos := q.expr.size_pos
        omega

theorem nodup_stops (e : Expr) (k : Option String) (i : Nat) :
    ((e.stops k i).map (·.node)).Nodup :=
  (List.pairwise_map.mpr (e.pairwise_stops k i)).imp Nat.ne_of_lt

end Expr

/-! ## Turns -/

/-- The nodes that a task is still to walk over, or to give a type to. -/
def Task.turns : Task → List Nat
  | .visit _ e n => (e.stops none n).map (·.node)
  | .store n _ => [n]
  | _ => []

/-- The nodes whose turn is still to come. -/
def turns (ts : List Task) : List Nat := ts.flatMap Task.turns

theorem turns_append (ts us : List Task) : turns (ts ++ us) = turns ts ++ turns us :=
  List.flatMap_append

theorem turns_eq_nil {ts : List Task} (h : ∀ t ∈ ts, t.turns = []) : turns ts = [] :=
  List.flatMap_eq_nil_iff.mpr h

variable {L : Labels} {g g' : Graph} {task : Task} {ts rest : List Task} {n : NodeId}

/-- The turns of walks over trees that follow each other come in the order of the nodes. -/
theorem turns_visits (w : WalkId) {xs : List (Nat × Expr)}
    (h : xs.Pairwise fun x y => x.1 + x.2.size ≤ y.1) :
    (turns (xs.map fun x => .visit w x.2 x.1)).Pairwise (· < ·) := by
  rw [turns, List.flatMap_map, List.pairwise_flatMap]
  refine ⟨fun x _ => ?_, h.imp fun {x y} hxy m hm m' hm' => ?_⟩
  · rw [Task.turns, List.pairwise_map]
    exact x.2.pairwise_stops none x.1
  · obtain ⟨q, hq, rfl⟩ := List.mem_map.mp hm
    obtain ⟨s, hs, rfl⟩ := List.mem_map.mp hm'
    have hqr := Expr.stop_range hq
    have hsr := Expr.stop_range hs
    have hpos := q.expr.size_pos
    omega

/-- A walk over a node goes on to its parts, in their order, and it may give the node a type. -/
theorem exists_visits {w : WalkId} {e : Expr} {n : NodeId} (hp : g.visit w e n = (g', .ok ts)) :
    ∃ (xs : List (Nat × Expr)) (own : List Nat), turns ts = turns (xs.map fun x => .visit w x.2 x.1) ++ own ∧
      xs.Sublist ((e.parts none n).map fun p => (p.node, p.expr)) ∧ own.Sublist [n] := by
  cases e with
  | literal l =>
      cases hp
      exact ⟨[], [n], rfl, .slnil, .refl _⟩
  | const | method =>
      cases hp
      exact ⟨[], [], rfl, .slnil, List.nil_sublist _⟩
  | place p =>
      simp only [Graph.visit] at hp
      split at hp <;> cases hp
      exact ⟨[], [], rfl, .slnil, List.nil_sublist _⟩
  | assign t v =>
      cases hp
      exact ⟨[(n + 2, v)], [], by simp [turns, Task.turns], by simp [Expr.parts],
        List.nil_sublist _⟩
  | loop c b =>
      cases hp
      exact ⟨[(n + 1, c), (n + 1 + c.size, b)], [n], by simp [turns, Task.turns],
        by simp [Expr.parts], .refl _⟩
  | klass nm b =>
      cases hp
      exact ⟨[(n + 1, b)], [], by simp [turns, Task.turns], by simp [Expr.parts],
        List.nil_sublist _⟩
  | block es =>
      simp only [Graph.visit] at hp
      cases hp
      have hsub : (Expr.spread (n + 1) es).Sublist
          (((Expr.block es).parts none n).map fun p => (p.node, p.expr)) := by
        simp [Expr.parts, Function.comp_def]
      cases (Expr.spread (n + 1) es).getLast? with
      | none => exact ⟨_, [n], turns_append .., hsub, .refl _⟩
      | some x => exact ⟨_, [], turns_append .., hsub, List.nil_sublist _⟩
  | cond c y no =>
      simp only [Graph.visit] at hp
      cases hp
      refine ⟨[(n + 1, c), (n + 1 + c.size, y)] ++ no.toList.map fun x =>
        (n + 1 + c.size + y.size, x), [], ?_, by simp [Expr.parts, Function.comp_def],
        List.nil_sublist _⟩
      split <;> simp [turns, Task.turns, List.flatMap_map, Function.comp_def]
  | call rc nm as p =>
      rcases g.visit_call w rc nm as p n with ⟨hnew, hvisit⟩ | ⟨c, rfl, hname, hvisit⟩
      · rw [hvisit] at hp
        cases hp
        refine ⟨(rc.toList.map fun r => (n + 1, r)) ++ Expr.spread (n + 1 + Expr.sizeOption rc) as,
          [], ?_, by simp [Expr.parts, hnew, Function.comp_def], List.nil_sublist _⟩
        rw [List.append_nil, turns_append, turns_eq_nil, List.nil_append]
        intro t ht
        simp only [List.mem_append, List.mem_map] at ht
        rcases ht with (⟨x, -, rfl⟩ | ⟨x, -, rfl⟩) | ht
        · rfl
        · rfl
        · split at ht
          · obtain rfl := List.mem_singleton.mp ht
            rfl
          · cases ht
      · rw [hvisit] at hp
        obtain ⟨i, rfl, -⟩ := Graph.instantiate_ok hp
        exact ⟨[], [n], rfl, List.nil_sublist _, .refl _⟩

/-- No turn comes twice with a walk over a node, and none that did not come with it before. -/
theorem turns_visit {w : WalkId} {e : Expr} {n : NodeId} (hp : g.visit w e n = (g', .ok ts)) :
    (turns ts).Nodup ∧ ∀ m ∈ turns ts, m ∈ (Task.visit w e n).turns := by
  obtain ⟨xs, own, hts, hxs, hown⟩ := exists_visits hp
  have hpart : ∀ x ∈ xs, ∃ p ∈ e.parts none n, (p.node, p.expr) = x := fun x hx =>
    List.mem_map.mp (hxs.subset hx)
  have hbelow : ∀ m ∈ turns (xs.map fun x => .visit w x.2 x.1),
      ∃ q ∈ e.stops none n, q.node = m ∧ n < m := by
    intro m hm
    obtain ⟨t, ht, hm⟩ := List.mem_flatMap.mp hm
    obtain ⟨x, hx, rfl⟩ := List.mem_map.mp ht
    obtain ⟨p, hp, rfl⟩ := hpart x hx
    rw [Task.turns, ← Expr.map_node_stops p.expr p.klass] at hm
    obtain ⟨q, hq, rfl⟩ := List.mem_map.mp hm
    exact ⟨q, Expr.mem_stops_iff.mpr (.inr ⟨p, hp, hq⟩), rfl,
      Nat.lt_of_lt_of_le (Expr.mem_parts hp).1 (Expr.stop_range hq).1⟩
  have hself : ∀ m ∈ own, m = n := fun m hm => List.mem_singleton.mp (hown.subset hm)
  have hsorted := turns_visits w (List.pairwise_map.mpr (e.parts_pairwise none n) |>.sublist hxs)
  rw [hts]
  refine ⟨List.nodup_append.mpr ⟨hsorted.imp Nat.ne_of_lt, (List.pairwise_singleton _ n).sublist hown,
    fun m hm m' hm' heq => ?_⟩, fun m hm => ?_⟩
  · obtain ⟨-, -, -, hlt⟩ := hbelow m hm
    rw [heq, hself m' hm'] at hlt
    exact Nat.lt_irrefl _ hlt
  · rcases List.mem_append.mp hm with hm | hm
    · obtain ⟨q, hq, rfl, -⟩ := hbelow m hm
      exact Expr.mem_map_node_stops hq
    · rw [hself m hm]
      exact Expr.mem_map_node_stops (Expr.mem_stops_self e none n)

section step

variable (hS : Sound L g) (hok : task.OK L g)
include hS hok

/-- The turns that are still to come are those of nodes that are there. -/
theorem lt_of_mem_turns {m : Nat} (hm : m ∈ task.turns) : m < g.cells.size := by
  cases task with
  | visit w e n =>
      obtain ⟨⟨r, k, hn⟩, -⟩ := hok
      rw [Task.turns, ← Expr.map_node_stops e k] at hm
      obtain ⟨q, hq, rfl⟩ := List.mem_map.mp hm
      exact hS.bound (hS.stop hn hq)
  | store n t =>
      obtain ⟨⟨w, r, k, e, hn⟩, -⟩ := hok
      obtain rfl := List.mem_singleton.mp hm
      exact hS.bound hn
  | _ => cases hm

/-- A seed gets a type only from a task that stores it there. -/
theorem type_of_seed (hp : (g.perform task).1 = g') (hseeded : task.Seeded L) (hn : L.IsSeed n)
    {t : Ty} (ht : g'.type n = some t) : g.type n = some t ∨ task = .store n t := by
  have hlt : (n : Nat) < g.cells.size := by
    obtain ⟨w, r, k, e, hl, -⟩ := hn
    exact hS.bound hl
  have hrec := has_perform hS hok (e := .mark n (.typed t)) (by
    rw [hp]
    exact Graph.has_typed.mpr ht)
  refine hrec.imp Graph.has_typed.mp fun h => ?_
  generalize hen : Entry.mark n (.typed t) = en at h
  cases h with
  | stored =>
      cases hen
      rfl
  | widened =>
      cases hen
      exact absurd hn hseeded
  | read h | bound h =>
      rcases h.var_or_field with rfl | ⟨_, -, rfl⟩ <;> cases hen
  | copied j t =>
      cases hen
      exact absurd hlt (Nat.not_lt.mpr (Nat.le_add_right _ j))
  | slot hj =>
      cases hen
      exact absurd hlt (Nat.not_lt.mpr (Nat.le_add_right _ _))
  | inst h =>
      subst hen
      cases h
      exact absurd hlt (Nat.not_lt.mpr (Nat.le_trans (Nat.le_add_right _ _) (Nat.le_add_right _ _)))
  | _ => cases hen

/-- A task takes its turns away, or it passes them on. New turns are those of the nodes in the body
of a new instance, and these have no types. -/
theorem turns_perform (hp : g.perform task = (g', .ok ts)) :
    (turns ts).Nodup ∧ ∀ m ∈ turns ts, m ∈ task.turns ∨ g.cells.size ≤ m ∧ g'.type m = none := by
  by_cases hvisit : ∃ w e n, task = .visit w e n
  · obtain ⟨w, e, n, rfl⟩ := hvisit
    obtain ⟨hnodup, hmem⟩ := turns_visit hp
    exact ⟨hnodup, fun m hm => .inl (hmem m hm)⟩
  rcases begins_or_plain hS hok hp with ⟨c, s, receiver, args, method, m, b, hbegin⟩ | ⟨-, hnone⟩
  · have hturns : turns ts = (b.stops none g.cells.size).map (·.node) := by
      simp [hbegin.tasks, turns, Task.turns]
    rw [hturns]
    refine ⟨b.nodup_stops none g.cells.size, fun m' hm' => .inr ?_⟩
    obtain ⟨q, hq, rfl⟩ := List.mem_map.mp hm'
    have hrange := Expr.stop_range hq
    have hpos := q.expr.size_pos
    refine ⟨hrange.1, Option.eq_none_iff_forall_ne_some.mpr fun t ht => ?_⟩
    rw [hbegin.graph] at ht
    rcases Graph.has_specialized (Graph.has_typed.mpr ht) with hold | hnew
    · obtain ⟨cell, hcell, -⟩ := hold
      have := (Array.getElem?_eq_some_iff.mp hcell).1
      omega
    · generalize hen : Entry.mark q.node (.typed t) = en at hnew
      cases hnew with
      | @slot j p hj =>
          have heq : q.node = g.cells.size + b.size + j := (Entry.mark.inj hen).1
          omega
      | _ => cases hen
  · have hnil : ∀ t ∈ ts, t.turns = [] := by
      intro t ht
      cases leads_perform hS hok hp ht with
      | visited | typed => exact (hvisit ⟨_, _, _, rfl⟩).elim
      | began => exact (hnone _ _ _ _ rfl ht).elim
      | _ => rfl
    rw [turns_eq_nil hnil]
    exact ⟨.nil, fun m hm => absurd hm List.not_mem_nil⟩

end step

/-! ## Runs -/

/-- No turn comes twice, and no seed whose turn is still to come has a type. -/
structure InTurn (L : Labels) (c : Graph.Config) : Prop where
  sound : Sound.Config L c
  seeded : Seeded L c.1 c.2
  once : (turns c.2).Nodup
  untyped : ∀ m ∈ turns c.2, L.IsSeed m → c.1.type m = none

namespace InTurn

theorem step (h : InTurn L (g, task :: rest)) (hp : g.perform task = (g', .ok ts)) :
    InTurn (L.performed g task) (g', ts ++ rest) := by
  have hS := h.sound.graph
  have hok := h.sound.tasks task (List.mem_cons_self ..)
  have hext := extends_of_perform hS hok hp
  obtain ⟨hnodup, hmem⟩ := turns_perform hS hok hp
  have hlt : ∀ m ∈ turns (task :: rest), m < g.cells.size := by
    intro m hm
    obtain ⟨t, ht, hm⟩ := List.mem_flatMap.mp hm
    exact lt_of_mem_turns hS (h.sound.tasks t ht) hm
  have honce : (task.turns ++ turns rest).Nodup := h.once
  obtain ⟨-, hrest, hapart⟩ := List.nodup_append.mp honce
  -- The type that a seed has now it had before, unless it is stored there, and then its turn is over.
  have hold : ∀ m ∈ turns (task :: rest), L.IsSeed m → (∀ t, task ≠ .store m t) →
      g'.type m = none := by
    intro m hm hseed hne
    refine Option.eq_none_iff_forall_ne_some.mpr fun t ht => ?_
    have htype := h.untyped m hm hseed
    rcases type_of_seed hS hok (by rw [hp]) (h.seeded.tasks task (List.mem_cons_self ..)) hseed
      ht with hold | heq
    · rw [htype] at hold
      cases hold
    · exact hne t heq
  have hseed : ∀ m ∈ turns (task :: rest), (L.performed g task).IsSeed m → L.IsSeed m := by
    rintro m hm ⟨w, r, k, e, hl, he⟩
    exact ⟨w, r, k, e, by rwa [hext.label m (hlt m hm)] at hl, he⟩
  refine ⟨(h.sound.step hp).2, seeded_step hS hok hp h.seeded fun t ht =>
    h.sound.tasks t (List.mem_cons_of_mem _ ht), ?_, fun m hm hs => ?_⟩
  · rw [turns_append]
    refine List.nodup_append.mpr ⟨hnodup, hrest, fun m hm m' hm' heq => ?_⟩
    subst heq
    rcases hmem m hm with hm | ⟨hle, -⟩
    · exact hapart m hm m hm' rfl
    · exact Nat.not_lt.mpr hle (hlt m (List.mem_append_right _ hm'))
  · rw [turns_append, List.mem_append] at hm
    rcases hm with hm | hm
    · rcases hmem m hm with hin | ⟨-, hnone⟩
      · have hin' : m ∈ turns (task :: rest) := List.mem_append_left _ hin
        refine hold m hin' (hseed m hin' hs) fun t heq => ?_
        subst heq
        have hts : turns ts = [] := by
          refine turns_eq_nil fun u hu => ?_
          obtain ⟨o, r, -, rfl⟩ := Graph.mem_storeType hp hu
          rfl
        rw [hts] at hm
        cases hm
      · exact hnone
    · have hin : m ∈ turns (task :: rest) := List.mem_append_right _ hm
      refine hold m hin (hseed m hin hs) fun t heq => ?_
      subst heq
      exact hapart m (List.mem_singleton_self m) m hm rfl

theorem passes {c c' : Graph.Config} {done : List Task} (h : InTurn L c)
    (hpass : Graph.Passes c done c') : ∃ L', InTurn L' c' :=
  hpass.preserves (fun c => ∃ L, InTurn L c) ⟨L, h⟩ fun _ _ _ _ _ ⟨_, hL⟩ hp => ⟨_, hL.step hp⟩

theorem loaded (tree : Expr) :
    InTurn (Labels.loaded tree) (Graph.loaded tree, [.visit 0 tree rootOf]) := by
  have hturns : turns [.visit 0 tree rootOf] = (tree.stops none rootOf).map (·.node) := by
    simp [turns, Task.turns]
  refine ⟨.loaded tree, seeded_loaded tree, ?_, fun m hm _ => ?_⟩
  · rw [hturns]
    exact tree.nodup_stops none rootOf
  · rw [hturns] at hm
    obtain ⟨q, hq, rfl⟩ := List.mem_map.mp hm
    exact type_loaded_of_le tree (Expr.stop_range hq).1

/-- A walk gives a type to a node that has none. -/
theorem untyped_of_store {t : Ty} (h : InTurn L (g, .store n t :: rest)) : g.type n = none := by
  have hhead : n ∈ turns (.store n t :: rest) := List.mem_append_left _ (List.mem_singleton_self n)
  exact h.untyped n hhead (h.seeded.tasks _ (List.mem_cons_self ..))

end InTurn

end TypeFlow
