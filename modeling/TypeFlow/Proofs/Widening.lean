import TypeFlow.Proofs.Telling
import TypeFlow.Proofs.Turns

/-! # Types only widen

A node that has a type never loses it, and it never gets another one that does not account for all
that it had. -/

namespace TypeFlow

/-- A type gives way to another one, which it does not equal, and of which some member equals each
of its members, in one order or the other. -/
structure Heap.Widens (h : Heap) (T U : Ty) : Prop where
  covers : ∀ a ∈ T.members, ∃ b ∈ U.members, h.sameAtom a b = true ∨ h.sameAtom b a = true
  unequal : h.same T U = false

variable {L : Labels} {g : Graph} {task : Task} {rest : List Task} {n : NodeId} {T : Ty}

/-- Merging a type into that of a node widens it, or leaves it as it is. -/
theorem widens_joined (hS : Sound L g) {t : Ty} (ht : t.Valid g) (hT : g.type n = some T)
    (hne : g.heap.same T (g.joined n t) = false) : g.heap.Widens T (g.joined n t) := by
  refine ⟨fun a ha => ?_, hne⟩
  rw [Graph.joined_of_some hT]
  obtain ⟨hcovers, -⟩ := Heap.merge_covers (h := g.heap) (hS.typed hT).2.1.full ht.full
  obtain ⟨b, hb, hba⟩ := hcovers a ha
  exact ⟨b, hb, .inr hba⟩

theorem type_unwind (g : Graph) (f : Fault) (ts : List Task) (n : NodeId) :
    (g.unwind f ts).1.type n = g.type n := by
  induction ts generalizing g f with
  | nil => rfl
  | cons task rest ih =>
      cases task with
      | finish c i =>
          rw [Graph.unwind]
          exact (ih ..).trans (g.type_modifySite c n _)
      | leave w outer =>
          rw [Graph.unwind]
          exact ih ..
      | _ => exact ih ..

/-- A task leaves the type of a node alone, or it widens it. -/
theorem InTurn.type_perform (h : InTurn L (g, task :: rest)) (hT : g.type n = some T) :
    ∃ U, (g.perform task).1.type n = some U ∧ (U = T ∨ g.heap.Widens T U) := by
  have hS := h.sound.graph
  have hok := h.sound.tasks task (List.mem_cons_self ..)
  have hlt : (n : Nat) < g.cells.size := by
    obtain ⟨l, hl⟩ := Option.ne_none_iff_exists'.mp (hS.typed hT).1
    exact hS.bound hl
  have hstore : ∀ m t, (m = n → g.heap.same T t = false → g.heap.Widens T t) →
      ∃ U, (g.storeType m t).1.type n = some U ∧ (U = T ∨ g.heap.Widens T U) := by
    intro m t hwidens
    rcases g.storeType_cases m t with ⟨hs, -⟩ | ⟨hs, hne⟩ <;> rw [hs]
    · exact ⟨T, hT, .inl rfl⟩
    · by_cases hm : m = n
      · subst hm
        exact ⟨t, (g.type_setType m m t).trans (if_pos ⟨rfl, hlt⟩), .inr (hwidens rfl (hne T hT))⟩
      · exact ⟨T, ((g.type_setType m n t).trans (if_neg fun hmn => hm hmn.1)).trans hT, .inl rfl⟩
  by_cases hst : ∃ m t, task = .store m t
  · obtain ⟨m, t, rfl⟩ := hst
    refine hstore m t fun hm => ?_
    subst hm
    rw [h.untyped_of_store] at hT
    cases hT
  by_cases hwd : ∃ m t, task = .widen m t
  · obtain ⟨m, t, rfl⟩ := hwd
    rw [Graph.perform, hS.widenType_eq hok.2]
    refine hstore m _ fun hm hne => ?_
    subst hm
    exact widens_joined hS hok.2 hT hne
  have hcalm := calm_perform hS hok (fun m t heq => hst ⟨m, t, heq⟩) fun m t heq => hwd ⟨m, t, heq⟩
  exact ⟨T, (hcalm.type n hlt).trans hT, .inl rfl⟩

/-- At each moment of a walk over a program, whether it is going to succeed or to fail, a node that
has a type keeps it, or gets one that is wider then. -/
theorem inferTypes_widens (budget : Nat) (tree : Expr) (n : NodeId) (T : Ty)
    (hT : (inferTypes budget tree).1.graph.type n = some T) :
    ∃ U, (inferTypes (budget + 1) tree).1.graph.type n = some U ∧
      (U = T ∨ (inferTypes budget tree).1.graph.heap.Widens T U) := by
  rw [inferTypes_graph] at hT ⊢
  rw [inferTypes_graph]
  rcases Graph.run_succ budget (Graph.loaded tree) [.visit 0 tree rootOf] with
    heq | ⟨done, g, task, rest, hpass, hnow, hnext⟩
  · rw [heq]
    exact ⟨T, hT, .inl rfl⟩
  · obtain ⟨L, hL⟩ := (InTurn.loaded tree).passes hpass
    rw [hnow] at hT ⊢
    rw [hnext]
    obtain ⟨U, hU, hwiden⟩ := hL.type_perform hT
    refine ⟨U, ?_, hwiden⟩
    rcases hp : g.perform task with ⟨g', f | ts⟩
    · rw [hp] at hU
      rw [Graph.run_cons_error 0 hp]
      exact (type_unwind g' f rest n).trans hU
    · rw [hp] at hU
      rw [Graph.run_cons_ok 0 hp, Graph.run_zero]
      exact hU

/-- A program that assigns an integer and then a character to a variable. -/
def assignedTwice : Expr :=
  let x : Place := ⟨.localVar, ⟨"x", 0⟩⟩
  .block [.assign x (.literal ⟨.int, .int 1, 0⟩), .assign x (.literal ⟨.char, .text "c", 0⟩)]

/-- The moment at which the type of the variable becomes a union. -/
theorem inferTypes_widens_assignedTwice :
    ((inferTypes 23 assignedTwice).1.graph.type (rootOf + 7) = some (.prim "Int") ∧
      (inferTypes 24 assignedTwice).1.graph.type (rootOf + 7) =
        some (.union [.prim "Int", .prim "Char"] [.prim "Int", .prim "Char"])) ∧
    ∃ U, (inferTypes (23 + 1) assignedTwice).1.graph.type (rootOf + 7) = some U ∧
      (U = .prim "Int" ∨ (inferTypes 23 assignedTwice).1.graph.heap.Widens (.prim "Int") U) := by
  have h : (inferTypes 23 assignedTwice).1.graph.type (rootOf + 7) = some (.prim "Int") ∧
      (inferTypes 24 assignedTwice).1.graph.type (rootOf + 7) =
        some (.union [.prim "Int", .prim "Char"] [.prim "Int", .prim "Char"]) := by
    decide +kernel
  exact ⟨h, inferTypes_widens 23 assignedTwice (rootOf + 7) (.prim "Int") h.1⟩

end TypeFlow
