import TypeFlow.Proofs.Courses

/-! # Cells that no walk comes to

A walk over a tree leaves the bodies of methods alone, and what is written inside the construction of
an object. The cells of these nodes stay without a label. -/

namespace TypeFlow

variable {L : Labels} {g g' : Graph} {task : Task} {ts : List Task}

/-- All cells of a tree that a walk goes over are there, and those that the walk does not come to
are for nothing. -/
def Outlined (L : Labels) (g : Graph) : Prop :=
  ∀ {n : Nat} {w r k e}, L n = some (.node w r k e) → n + e.size ≤ g.cells.size ∧
    ∀ m, n ≤ m → m < n + e.size → (∀ q ∈ e.stops k n, q.node ≠ m) → L m = none

theorem outlined_ofTree {w : WalkId} {b : Expr} {q : Stop} (hq : q ∈ b.stops none g.cells.size) :
    q.node + q.expr.size ≤ (g.plant b).1.cells.size ∧
      ∀ m, q.node ≤ m → m < q.node + q.expr.size →
        (∀ s ∈ q.expr.stops q.klass q.node, s.node ≠ m) →
        L.append g (Labels.ofTree w g.cells.size b) m = none := by
  have hrange := Expr.stop_range hq
  refine ⟨?_, fun m hle hlt hstop => ?_⟩
  · rw [Graph.cells_plant]
    exact hrange.2
  · obtain ⟨p, hp, rfl⟩ : ∃ p ∈ b.nodes g.cells.size, p.1 = m := by
      rw [← List.mem_map, Expr.map_fst_nodes, List.mem_range'_1]
      omega
    refine Labels.append_ofTree_none hp fun s hs heq => ?_
    exact hstop s (Expr.mem_stops_of_within hq hs (by omega) (by omega)) heq

theorem outlined_step (hS : Sound L g) (hok : task.OK L g) (hp : g.perform task = (g', .ok ts))
    (h : Outlined L g) : Outlined (L.performed g task) g' := by
  intro n w r k e hn
  have hext := extends_of_perform hS hok hp
  rcases node_step hS hok hp hn with hn | ⟨c, s, receiver, args, method, m, b, hb, rfl, rfl, hq⟩
  · obtain ⟨hsize, hnone⟩ := h hn
    refine ⟨hsize.trans hext.grows.size_le, fun m hle hlt hstop => ?_⟩
    rw [hext.label m (by omega)]
    exact hnone m hle hlt hstop
  · obtain ⟨hsize, hnone⟩ := outlined_ofTree (L := L) (w := g.walks.size) hq
    have hle := g.size_le_specialized c s method m.params b receiver args
    rw [Graph.cells_plant] at hsize
    rw [hb.performed_eq hS, hb.graph]
    refine ⟨hsize.trans hle, fun m' hle hlt hstop => ?_⟩
    rw [Labels.specialized, Labels.walked, Labels.append_old _ _ (by
      rw [Graph.cells_plant]
      exact Nat.lt_of_lt_of_le hlt hsize)]
    exact hnone m' hle hlt hstop

theorem outlined_loaded (tree : Expr) : Outlined (Labels.loaded tree) (Graph.loaded tree) := by
  intro n w r k e hn
  rcases label_loaded hn with ⟨heq, -⟩ | ⟨q, hq, rfl, heq⟩ <;> cases heq
  unfold Graph.loaded Labels.loaded
  unfold rootOf at hq ⊢
  generalize Labels.builtins Graph.withBuiltins = L
  generalize Session.start.graph = g at hq ⊢
  exact outlined_ofTree (w := 0) hq

end TypeFlow
