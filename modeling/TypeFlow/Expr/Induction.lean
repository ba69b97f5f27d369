import TypeFlow.Expr.Basic

/-! Induction over programs, and the law of addresses: the nodes of a tree that lies at `i` have
the addresses from `i` on, one each. -/

namespace TypeFlow

namespace Expr

/-- Induction over all parts of a program. -/
@[induction_eliminator]
theorem ind {motive : Expr → Prop}
    (literal : ∀ l, motive (.literal l))
    (place : ∀ p, motive (.place p))
    (const : ∀ n, motive (.const n))
    (assign : ∀ t v, motive v → motive (.assign t v))
    (block : ∀ es, (∀ e ∈ es, motive e) → motive (.block es))
    (loop : ∀ c b, motive c → motive b → motive (.loop c b))
    (cond : ∀ c t f, motive c → motive t → (∀ e ∈ f, motive e) → motive (.cond c t f))
    (call : ∀ r n as p, (∀ e ∈ r, motive e) → (∀ e ∈ as, motive e) → motive (.call r n as p))
    (method : ∀ n ps b, motive b → motive (.method n ps b))
    (klass : ∀ n b, motive b → motive (.klass n b)) : ∀ e, motive e :=
  @Expr.rec motive (fun es => ∀ e ∈ es, motive e) (fun r => ∀ e ∈ r, motive e)
    literal place const assign block loop cond call method klass
    (fun _ h => nomatch h)
    (fun _ _ head tail e h => by
      rcases List.mem_cons.mp h with rfl | h
      · exact head
      · exact tail e h)
    (fun _ h => nomatch h)
    (fun _ here e h => by
      cases h
      exact here)

theorem size_pos (e : Expr) : 0 < e.size := by
  cases e <;> simp only [size] <;> omega

theorem cons_range' (i n : Nat) : i :: List.range' (i + 1) n = List.range' i (1 + n) := by
  rw [Nat.add_comm 1 n, List.range'_succ]

/-- The addresses of trees that follow each other, if each of them keeps to its own. -/
theorem map_fst_nodesList (es : List Expr)
    (h : ∀ e ∈ es, ∀ i, (e.nodes i).map (·.1) = List.range' i e.size) (i : Nat) :
    (nodesList i es).map (·.1) = List.range' i (sizeList es) := by
  induction es generalizing i with
  | nil => rfl
  | cons e es ih =>
      rw [nodesList, sizeList, List.map_append, h e (List.mem_cons_self ..),
        ih fun x hx => h x (List.mem_cons_of_mem _ hx), List.range'_append_1]

theorem map_fst_nodesOption (r : Option Expr)
    (h : ∀ e ∈ r, ∀ i, (e.nodes i).map (·.1) = List.range' i e.size) (i : Nat) :
    (nodesOption i r).map (·.1) = List.range' i (sizeOption r) := by
  cases r with
  | none => rfl
  | some e => exact h e rfl i

/-- The nodes of a tree have the addresses from its own on, in preorder. -/
theorem map_fst_nodes (e : Expr) (i : Nat) : (e.nodes i).map (·.1) = List.range' i e.size := by
  induction e generalizing i with
  | literal l => rfl
  | place p => rfl
  | const n => rfl
  | assign t v hv =>
      rw [nodes, List.map_cons, List.map_cons, hv, cons_range', cons_range', size, ← Nat.add_assoc]
  | block es h => rw [nodes, List.map_cons, map_fst_nodesList es h, cons_range', size]
  | loop c b hc hb =>
      rw [nodes, List.cons_append, List.map_cons, List.map_append, hc, hb, List.range'_append_1,
        cons_range', size, Nat.add_assoc]
  | cond c t f hc ht hf =>
      rw [nodes, List.cons_append, List.cons_append, List.map_cons, List.map_append,
        List.map_append, hc, ht, map_fst_nodesOption f hf, List.range'_append_1,
        Nat.add_assoc (i + 1), List.range'_append_1, cons_range', size, Nat.add_assoc,
        Nat.add_assoc, Nat.add_assoc]
  | call r n as p hr has =>
      rw [nodes, List.cons_append, List.map_cons, List.map_append, map_fst_nodesOption r hr,
        map_fst_nodesList as has, List.range'_append_1, cons_range', size, Nat.add_assoc]
  | method n ps b hb => rw [nodes, List.map_cons, hb, cons_range', size]
  | klass n b hb => rw [nodes, List.map_cons, hb, cons_range', size]

theorem length_nodes (e : Expr) (i : Nat) : (e.nodes i).length = e.size := by
  have h := congrArg List.length (map_fst_nodes e i)
  simpa using h

end Expr

end TypeFlow
