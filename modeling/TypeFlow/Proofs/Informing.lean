import TypeFlow.Proofs.Seeds
import TypeFlow.Proofs.Targets
import TypeFlow.Proofs.Telling
import Mathlib.Logic.Relation

/-! # Nobody misses an update

Whatever a node has for a type reaches all nodes that merge it into their own. A member that comes to
a node is kept unless it equals one that the node has, and a member is only given up for one that it
equals. Object types that were equal then may differ later on. Without instance variables they never
do, and at the end each member of a node's type equals one of each observer's type. -/

namespace TypeFlow

open Relation

variable {L : Labels} {g g' : Graph} {task : Task} {ts rest : List Task} {start : Graph.Config}
  {done : List Task} {n m : NodeId}

namespace Graph

/-- When some type was merged into a node, a member that the node has from then on was equal to one
of that type, or to one that the node had before. -/
def StandsFor (start : Config) (m : NodeId) (x y : Atom) : Prop :=
  ∃ done g T rest g' ts U, Passes start done (g, .widen m T :: rest) ∧
    g.perform (.widen m T) = (g', .ok ts) ∧ g'.type m = some U ∧ x ∈ U.members ∧
    (y ∈ T.members ∨ ∃ old, g.type m = some old ∧ y ∈ old.members) ∧ g.heap.Equal x y

/-- A node has a type that accounts for another, member by member: at the time when a member was
merged in or given up, one that stood for it was there. -/
def Informed (start : Config) (g : Graph) (m : NodeId) (T : Ty) : Prop :=
  ∃ U, g.type m = some U ∧ U.Covers (ReflTransGen (StandsFor start m)) T

/-- All that merge the type of a node have heard of it, or are about to. -/
def Informs (start : Config) (c : Config) : Prop :=
  ∀ n m, (m, .merge) ∈ c.1.observers n → c.1.Told c.2 n m (Informed start c.1 m)

end Graph

/-! ## Steps -/

section step

variable (hS : Sound L g) (hok : task.OK L g) (hp : g.perform task = (g', .ok ts))
include hS hok hp

/-- A task changes the type of a node only if it stores a type there, or merges one into it. A node
whose type changes tells all its observers. -/
theorem type_step (hn : (n : Nat) < g.cells.size) :
    g'.type n = g.type n ∨ ((∃ t, task = .store n t) ∨ ∃ t, task = .widen n t) ∧
      ∀ o r, (o, r) ∈ g.observers n → .deliver n o r ∈ ts := by
  by_cases hs : ∃ k t, task = .store k t
  · obtain ⟨k, t, rfl⟩ := hs
    rcases eq_or_ne n k with rfl | hne
    · exact (Graph.tells_of_storeType hp n).imp_right fun h => ⟨.inl ⟨t, rfl⟩, h⟩
    · exact .inl ((Graph.others_storeType hp).1 n hne)
  · by_cases hw : ∃ k t, task = .widen k t
    · obtain ⟨k, t, rfl⟩ := hw
      have hst := Graph.widenType_ok hp
      rcases eq_or_ne n k with rfl | hne
      · exact (Graph.tells_of_storeType hst n).imp_right fun h => ⟨.inr ⟨t, rfl⟩, h⟩
      · exact .inl ((Graph.others_storeType hst).1 n hne)
    · have hcalm := calm_perform hS hok (fun k t h => hs ⟨k, t, h⟩) fun k t h => hw ⟨k, t, h⟩
      rw [hp] at hcalm
      exact .inl (hcalm.type n hn)

/-- Merging a type into a node accounts for that type, and for the one that the node had. -/
theorem standsFor_of_widen (hpass : Graph.Passes start done (g, task :: rest)) {T : Ty}
    (htask : task = .widen m T) : ∃ U, g'.type m = some U ∧
      U.Covers (Graph.StandsFor start m) T ∧
      ∀ old, g.type m = some old → U.Covers (Graph.StandsFor start m) old := by
  subst htask
  obtain ⟨⟨l, hl, -⟩, hT⟩ := hok
  obtain ⟨U, hU, hnew, hold⟩ := Graph.exists_type_of_widen (hS.bound hl) hT.full
    (fun old h => (hS.typed h).2.1.full) hp
  refine ⟨U, hU, hnew.mono fun x hx y hy hxy => ?_, fun old h => (hold old h).mono ?_⟩
  · exact ⟨done, g, T, rest, g', ts, U, hpass, hp, hU, hx, .inl hy, hxy⟩
  · exact fun x hx y hy hxy => ⟨done, g, T, rest, g', ts, U, hpass, hp, hU, hx, .inr ⟨old, h, hy⟩, hxy⟩

/-- A node that observes others goes on to account for what it has heard of. -/
theorem informed_step (hseed : Seeded L g (task :: rest)) (hm : (m : Nat) < g.cells.size)
    (hobs : ¬ L.IsSeed m) (hpass : Graph.Passes start done (g, task :: rest)) {T : Ty}
    (h : g.Informed start m T) : g'.Informed start m T := by
  obtain ⟨U, hU, hcov⟩ := h
  rcases type_step hS hok hp hm with htype | ⟨⟨t, rfl⟩ | ⟨t, htask⟩, -⟩
  · exact ⟨U, htype.trans hU, hcov⟩
  · exact (hobs (hseed.tasks _ (List.mem_cons_self ..))).elim
  · obtain ⟨U', hU', -, hold⟩ := standsFor_of_widen hS hok hp hpass htask
    exact ⟨U', hU', (hold U hU).trans hcov fun x y z hxy hyz => .head hxy hyz⟩

theorem informs_step (hseed : Seeded L g (task :: rest))
    (hpass : Graph.Passes start done (g, task :: rest))
    (h : Graph.Informs start (g, task :: rest)) : Graph.Informs start (g', ts ++ rest) := by
  intro n m hedge
  have hstep := edge_step hS hok hp hedge
  have hedgeOK : g.EdgeOK L n m .merge := by
    rcases hstep with h | rfl
    · exact hS.edge h
    · exact hok
  obtain ⟨l, hn⟩ := Option.ne_none_iff_exists'.mp hedgeOK.1
  obtain ⟨l', hm, -⟩ := id hedgeOK.2.1
  have hobs : ¬ L.IsSeed m := by
    rcases hstep with h | rfl
    · exact hseed.edge h
    · exact hseed.tasks _ (List.mem_cons_self ..)
  have hreact : ∀ s T, g.react (some s) m .merge (some T) = (g', .ok ts) →
      g.EdgeOK L s m .merge → .widen m T ∈ ts := by
    intro s T hr he
    rw [hS.react_eq he] at hr
    cases hr
    exact List.mem_singleton_self _
  refine Graph.told_step task (g.Informed start m) ?_ (fun hold => h n m hold) ?_
    ?_ ?_ ?_ ?_
  · rcases type_step hS hok hp (hS.bound hn) with htype | ⟨hst, htell⟩
    · exact .inl htype
    · rcases hstep with h | rfl
      · exact .inr (htell _ _ h)
      · rcases hst with ⟨t, ht⟩ | ⟨t, ht⟩ <;> cases ht
  · refine hstep.imp_right fun htask T hT => ?_
    subst htask
    simp only [Graph.perform, Graph.subscribe, hT] at hp
    cases hp
    exact List.mem_singleton_self _
  · rintro rfl T hT
    rw [Graph.perform, hT] at hp
    exact hreact n T hp hok
  · rintro T rfl
    obtain ⟨s', t', hs, ht, he, -⟩ := hok
    cases hs
    exact hreact n T hp he
  · intro T htask hT
    obtain ⟨U, hU, hcov, -⟩ := standsFor_of_widen hS hok hp hpass htask
    exact ⟨U, hU, hcov.mono fun x _ y _ hxy => .single hxy⟩
  · exact fun T _ hT => informed_step hS hok hp hseed (hS.bound hm) hobs hpass hT

end step

/-! ## Runs -/

/-- What is known of a configuration that a run comes to. -/
structure Informing (start : Graph.Config) (L : Labels) (now : Graph.Config) : Prop where
  sound : Sound.Config L now
  seeded : Seeded L now.1 now.2
  informs : Graph.Informs start now

theorem Informing.loaded (tree : Expr) (start : Graph.Config) :
    Informing start (Labels.loaded tree) (Graph.loaded tree, [.visit 0 tree rootOf]) where
  sound := .loaded tree
  seeded := seeded_loaded tree
  informs n m h := by
    rw [observers_loaded] at h
    cases h

theorem Informing.passes {now : Graph.Config} (h : Informing start L start)
    (hpass : Graph.Passes start done now) : ∃ L, Informing start L now := by
  induction hpass with
  | refl => exact ⟨L, h⟩
  | @perform done tasks rest task g g' hpass hp ih =>
      obtain ⟨L, hL⟩ := ih
      have hok := hL.sound.tasks task (List.mem_cons_self ..)
      exact ⟨L.performed g task, (hL.sound.step hp).2,
        seeded_step hL.sound.graph hok hp hL.seeded
          fun t ht => hL.sound.tasks t (List.mem_cons_of_mem _ ht),
        informs_step hL.sound.graph hok hp hL.seeded hpass hL.informs⟩

/-! ## Programs without instance variables -/

/-- Members that are known by name stay equal to those that they stand for. -/
theorem Graph.StandsFor.tag_eq {names : List String} (hS : Sound.Config L start)
    (hT : Tame.Config names L start) {all : List Task} {now : Graph}
    (hend : Passes start all (now, [])) {x y : Atom} (h : StandsFor start m x y) :
    now.heap.tag x = now.heap.tag y := by
  obtain ⟨done, g, T, rest, g', ts, U, hpass, hp, hU, hx, hy, hxy⟩ := h
  obtain ⟨L₁, hS₁, hT₁, -⟩ := hT.passes hS hpass
  obtain ⟨after, hafter⟩ := hpass.to_end hend
  obtain ⟨-, -, -, hgrows⟩ := hT₁.passes hS₁ hafter
  obtain ⟨-, hvalid⟩ := hS₁.tasks _ (List.mem_cons_self ..)
  have hyv : (Ty.one y).Valid g := by
    rcases hy with hy | ⟨old, hold, hy⟩
    · exact hvalid.member hy
    · exact (hS₁.graph.typed hold).2.1.member hy
  have hxv : (Ty.one x).Valid g := by
    have hS₂ := (hS₁.step hp).2
    have hU' := ((hS₂.graph.typed hU).2.1).member hx
    have hobj : g'.objects = g.objects := (others_storeType (widenType_ok hp)).2.2.2.2
    simpa [Ty.Valid, hobj] using hU'
  rw [hgrows.tag_eq fun i hi => hxv.1 i (by simp [hi]),
    hgrows.tag_eq fun i hi => hyv.1 i (by simp [hi])]
  exact hT₁.graph.flat.sameAtom_iff.mp hxy

section finished

variable {tree : Expr} {all : List Task} {now : Graph}
  (hend : Graph.Passes (Graph.loaded tree, [.visit 0 tree rootOf]) all (now, []))
include hend

/-- When nothing waits any more, a node has heard of all that it merges. -/
theorem informed_of_finished (hedge : (m, .merge) ∈ now.observers n) {T : Ty}
    (hT : now.type n = some T) :
    now.Informed (Graph.loaded tree, [.visit 0 tree rootOf]) m T := by
  obtain ⟨L, hL⟩ := (Informing.loaded tree _).passes hend
  rcases hL.informs n m hedge T hT with h | h | h | h
  · cases h
  · cases h
  · cases h
  · exact h

/-- Without instance variables all members equal those that they stand for. -/
theorem covers_equal_of_finished (hfree : tree.FieldFree) {T U : Ty}
    (hcov : U.Covers (ReflTransGen
      (Graph.StandsFor (Graph.loaded tree, [.visit 0 tree rootOf]) m)) T) :
    U.Covers now.heap.Equal T := by
  have hS := Sound.Config.loaded tree
  have hT := Tame.Config.loaded hfree.within
  obtain ⟨L, -, htame, -⟩ := hT.passes hS hend
  have hchain : ∀ x y, ReflTransGen
      (Graph.StandsFor (Graph.loaded tree, [.visit 0 tree rootOf]) m) x y →
      now.heap.tag x = now.heap.tag y := by
    intro x y hxy
    induction hxy with
    | refl => rfl
    | tail _ hstep ih => exact ih.trans (hstep.tag_eq hS hT hend)
  exact hcov.mono fun x _ y _ hxy => htame.graph.flat.sameAtom_iff.mpr (hchain x y hxy)

end finished

/-! ## Programs -/

/-- Each node that merges the type of another has a type that accounts for it: every member of the
one type came to the node and was kept, or an equal one stood for it then, or one that stood for
that later on. Without instance variables every member equals one of the node's type. -/
theorem inferTypes_informs (budget : Nat) (tree : Expr)
    (hfin : (inferTypes budget tree).2 = .finished)
    (hedge : (m, .merge) ∈ (inferTypes budget tree).1.graph.observers n) {T : Ty}
    (hT : (inferTypes budget tree).1.graph.type n = some T) :
    ∃ U, (inferTypes budget tree).1.graph.type m = some U ∧
      U.Covers (ReflTransGen
        (Graph.StandsFor (Graph.loaded tree, [.visit 0 tree rootOf]) m)) T ∧
      (tree.FieldFree → U.Covers (inferTypes budget tree).1.graph.heap.Equal T) := by
  rw [inferTypes_outcome] at hfin
  rw [inferTypes_graph] at hedge hT ⊢
  obtain ⟨done, hpass⟩ := Graph.passes_of_run_finished hfin
  obtain ⟨U, hU, hcov⟩ := informed_of_finished hpass hedge hT
  exact ⟨U, hU, hcov, fun hfree => covers_equal_of_finished hpass hfree hcov⟩

/-- A variable is assigned two new objects, and the first one gets a field. -/
def reassigned : Expr :=
  let name (text : String) : Token := ⟨text, 0⟩
  let x : Place := ⟨.localVar, name "x"⟩
  let box : Expr := .call (some (.const (name "Box"))) (name "new") [] true
  .block [
    .klass (name "Box") (.block [
      .method (name "put") [name "v"] (.block [
        .assign ⟨.instanceVar, name "v"⟩ (.place ⟨.localVar, name "v"⟩)])]),
    .assign x box,
    .assign x box,
    .call (some (.place x)) (name "put") [.literal ⟨.int, .int 1, 0⟩] true]

theorem run_reassigned :
    (inferTypes 200 reassigned).2 = .finished ∧
      (rootOf + 19, .merge) ∈ (inferTypes 200 reassigned).1.graph.observers (rootOf + 12) ∧
      (inferTypes 200 reassigned).1.graph.type (rootOf + 12) = some (.obj 2) ∧
      (inferTypes 200 reassigned).1.graph.type (rootOf + 19) = some (.obj 1) ∧
      (inferTypes 200 reassigned).1.graph.heap.sameAtom (.obj 1) (.obj 2) = false ∧
      (inferTypes 200 reassigned).1.graph.heap.sameAtom (.obj 2) (.obj 1) = false := by
  decide +kernel

/-- The second assignment, whose type is merged into that of the variable: the variable keeps the
object type of the first. -/
theorem inferTypes_informs_reassigned :
    let g := (inferTypes 200 reassigned).1.graph
    ((inferTypes 200 reassigned).2 = .finished ∧
      (rootOf + 19, .merge) ∈ g.observers (rootOf + 12) ∧
      g.type (rootOf + 12) = some (.obj 2)) ∧
    ∃ U, g.type (rootOf + 19) = some U ∧
      U.Covers (ReflTransGen (Graph.StandsFor
        (Graph.loaded reassigned, [.visit 0 reassigned rootOf]) (rootOf + 19))) (.obj 2) ∧
      (reassigned.FieldFree → U.Covers g.heap.Equal (.obj 2)) := by
  intro g
  obtain ⟨hfin, hedge, hT, -⟩ := run_reassigned
  exact ⟨⟨hfin, hedge, hT⟩, inferTypes_informs 200 reassigned hfin hedge hT⟩

/-- With instance variables the members need not be equal any more at the end, whichever of them is
on the left: the variable has lost track of the second object. -/
theorem informs_outgrown :
    ¬ ∀ budget tree, (inferTypes budget tree).2 = .finished → ∀ n m T,
      (m, .merge) ∈ (inferTypes budget tree).1.graph.observers n →
      (inferTypes budget tree).1.graph.type n = some T →
      ∃ U, (inferTypes budget tree).1.graph.type m = some U ∧ U.Covers (fun x y =>
        (inferTypes budget tree).1.graph.heap.Equal x y ∨
          (inferTypes budget tree).1.graph.heap.Equal y x) T := by
  intro h
  obtain ⟨hfin, hedge, hT, htype, hne, hne'⟩ := run_reassigned
  obtain ⟨U, hU, hcov⟩ := h 200 reassigned hfin _ _ _ hedge hT
  rw [htype] at hU
  cases hU
  obtain ⟨x, hx, hxy⟩ := hcov (.obj 2) (List.mem_singleton_self _)
  cases List.mem_singleton.mp hx
  rcases hxy with hxy | hxy
  · rw [Heap.Equal, hne] at hxy
    cases hxy
  · rw [Heap.Equal, hne'] at hxy
    cases hxy

end TypeFlow
