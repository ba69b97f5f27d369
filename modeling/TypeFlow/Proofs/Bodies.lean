import TypeFlow.Proofs.Allocating

/-! # Where bodies lie

The nodes of a tree lie one after the other, those below a node right after it. The body of a
method is a part of the tree that no walk over the tree comes to, wherever the method stands. -/

namespace TypeFlow.Expr

/-- The trees right below a node, whether a walk goes over them or not. -/
def branches (i : Nat) : Expr → List (Nat × Expr)
  | .literal _ | .place _ | .const _ => []
  | .assign t v => [(i + 1, .place t), (i + 2, v)]
  | .block es => spread (i + 1) es
  | .loop c b => [(i + 1, c), (i + 1 + c.size, b)]
  | .cond c t f =>
      [(i + 1, c), (i + 1 + c.size, t)] ++ f.toList.map fun x => (i + 1 + c.size + t.size, x)
  | .call r _ as _ => (r.toList.map fun x => (i + 1, x)) ++ spread (i + 1 + sizeOption r) as
  | .method _ _ b | .klass _ b => [(i + 1, b)]

theorem nodes_eq (e : Expr) (i : Nat) :
    e.nodes i = (i, e) :: (e.branches i).flatMap fun x => x.2.nodes x.1 := by
  cases e with
  | literal | place | const | loop | method | klass => simp [nodes, branches]
  | assign t v => simp [nodes, branches]
  | block es => simp [nodes, branches, nodesList_eq]
  | cond c t f => cases f <;> simp [nodes, branches, nodesOption]
  | call r n as p => cases r <;> simp [nodes, branches, nodesOption, nodesList_eq]

theorem mem_nodes_iff {e : Expr} {i : Nat} {x : Nat × Expr} :
    x ∈ e.nodes i ↔ x = (i, e) ∨ ∃ y ∈ e.branches i, x ∈ y.2.nodes y.1 := by
  rw [nodes_eq]
  simp

/-- A tree below a node lies strictly inside the tree of the node. -/
theorem mem_branches {e : Expr} {i : Nat} {x : Nat × Expr} (h : x ∈ e.branches i) :
    i < x.1 ∧ x.1 + x.2.size ≤ i + e.size := by
  cases e with
  | literal | place | const => simp [branches] at h
  | assign t v =>
      simp only [branches, List.mem_cons, List.not_mem_nil, or_false] at h
      rcases h with rfl | rfl <;> simp only [size] <;> omega
  | block es =>
      obtain ⟨-, hlow, hhigh⟩ := mem_spread h
      simp only [size]
      omega
  | loop c b =>
      simp only [branches, List.mem_cons, List.not_mem_nil, or_false] at h
      rcases h with rfl | rfl <;> simp only [size] <;> omega
  | cond c t f =>
      simp only [branches, List.cons_append, List.nil_append, List.mem_cons, List.mem_map] at h
      rcases h with rfl | rfl | ⟨x, hx, rfl⟩
      · simp only [size]; omega
      · simp only [size]; omega
      · cases Option.mem_toList.mp hx
        simp only [size, sizeOption]; omega
  | call r n as p =>
      simp only [branches, List.mem_append, List.mem_map] at h
      rcases h with ⟨x, hx, rfl⟩ | h
      · cases Option.mem_toList.mp hx
        simp only [size, sizeOption]; omega
      · obtain ⟨-, hlow, hhigh⟩ := mem_spread h
        simp only [size]; omega
  | method n ps b | klass n b =>
      obtain rfl := List.mem_singleton.mp h
      simp only [size]; omega

/-- Induction over the trees right below a node. -/
theorem indBranches {motive : Expr → Prop}
    (h : ∀ e, (∀ i, ∀ x ∈ e.branches i, motive x.2) → motive e) (e : Expr) : motive e := by
  induction hn : e.size using Nat.strongRecOn generalizing e with
  | ind n ih =>
      subst hn
      refine h e fun i x hx => ih _ ?_ _ rfl
      obtain ⟨hlow, hhigh⟩ := mem_branches hx
      omega

theorem node_range {e : Expr} {i : Nat} {x : Nat × Expr} (h : x ∈ e.nodes i) :
    i ≤ x.1 ∧ x.1 + x.2.size ≤ i + e.size := by
  induction e using indBranches generalizing i with
  | h e ih =>
      rcases mem_nodes_iff.mp h with rfl | ⟨y, hy, hx⟩
      · exact ⟨Nat.le_refl _, Nat.le_refl _⟩
      · have hrange := mem_branches hy
        have := ih i y hy hx
        omega

theorem exists_node {e : Expr} {i j : Nat} (hlow : i ≤ j) (hhigh : j < i + e.size) :
    ∃ x ∈ e.nodes i, x.1 = j := by
  have hmem : j ∈ (e.nodes i).map (·.1) := by
    rw [map_fst_nodes]
    exact List.mem_range'_1.mpr ⟨hlow, hhigh⟩
  exact List.mem_map.mp hmem

/-- The nodes below a node of a tree are nodes of the tree. -/
theorem nodes_trans {e : Expr} {i : Nat} {x y : Nat × Expr} (hx : x ∈ e.nodes i)
    (hy : y ∈ x.2.nodes x.1) : y ∈ e.nodes i := by
  induction e using indBranches generalizing i with
  | h e ih =>
      rcases mem_nodes_iff.mp hx with rfl | ⟨z, hz, hx⟩
      · exact hy
      · exact mem_nodes_iff.mpr (.inr ⟨z, hz, ih i z hz hx⟩)

/-- The nodes of the body of a method lie behind the method. -/
theorem nodes_of_method {e : Expr} {i : Nat} {n : Nat} {nm : Token} {ps : List Token} {b : Expr}
    (h : (n, .method nm ps b) ∈ e.nodes i) : ∀ y ∈ b.nodes (n + 1), y ∈ e.nodes i :=
  fun y hy => nodes_trans h (by simp [nodes, hy])

theorem map_snd_branches (e : Expr) (i j : Nat) :
    (e.branches i).map (·.2) = (e.branches j).map (·.2) := by
  cases e with
  | cond c t f => simp [branches, Function.comp_def]
  | block | call => simp [branches, spread_map_snd, Function.comp_def]
  | _ => rfl

/-- The nodes of a tree are the same in the same order, wherever the tree lies. -/
theorem map_snd_nodes (e : Expr) (i j : Nat) :
    (e.nodes i).map (·.2) = (e.nodes j).map (·.2) := by
  induction e using indBranches generalizing i j with
  | h e ih =>
      have hbelow : ∀ i, ((e.branches i).flatMap fun x => x.2.nodes x.1).map (·.2) =
          ((e.branches i).map (·.2)).flatMap fun x => (x.nodes 0).map (·.2) := by
        intro i
        rw [List.map_flatMap, List.flatMap_map]
        exact List.flatMap_congr fun x hx => ih i x hx x.1 0
      rw [nodes_eq, nodes_eq, List.map_cons, List.map_cons, hbelow, hbelow, map_snd_branches e i j]

/-- A walk goes over the trees below a node, or it leaves all of them alone. -/
theorem mem_parts_of_branches (e : Expr) (k : Option String) (i : Nat) :
    e.stops k i = [⟨i, k, e⟩] ∨
      ∀ x ∈ e.branches i, ∃ p ∈ e.parts k i, x = (p.node, p.expr) := by
  cases e with
  | method n ps b => exact .inl rfl
  | literal | place | const => exact .inl rfl
  | assign | loop | klass => exact .inr fun x hx => by simpa [branches, parts] using hx
  | block es => exact .inr fun x hx => ⟨_, List.mem_map_of_mem hx, rfl⟩
  | cond c t f => exact .inr fun x hx => by cases f <;> simpa [branches, parts] using hx
  | call r n as p =>
      by_cases hnew : (Expr.call r n as p).isNew
      · exact .inl (by simp [stops, hnew])
      · refine .inr fun x hx => ?_
        simp only [branches, List.mem_append, List.mem_map] at hx
        simp only [parts, hnew, Bool.false_eq_true, if_false, List.mem_append, List.mem_map]
        rcases hx with ⟨y, hy, rfl⟩ | hx
        · exact ⟨_, .inl ⟨y, hy, rfl⟩, rfl⟩
        · exact ⟨_, .inr ⟨x, hx, rfl⟩, rfl⟩

/-- A walk comes to no node in the body of any method of its tree, also if it does not come to the
method. -/
theorem stop_not_in_body {e : Expr} {k : Option String} {i m : Nat} {nm : Token}
    {ps : List Token} {b : Expr} {q : Stop} (hm : (m, .method nm ps b) ∈ e.nodes i)
    (hq : q ∈ e.stops k i) : q.node < m + 1 ∨ m + 1 + b.size ≤ q.node := by
  induction e using indParts generalizing k i with
  | h e ih =>
      have hlow := (node_range hm).1
      rcases mem_nodes_iff.mp hm with heq | ⟨x, hx, hmx⟩
      · cases heq
        obtain rfl := List.mem_singleton.mp hq
        exact .inl (Nat.lt_succ_self _)
      rcases mem_stops_iff.mp hq with rfl | ⟨p, hp, hqp⟩
      · exact .inl (Nat.lt_succ_of_le hlow)
      rcases mem_parts_of_branches e k i with hself | hparts
      · rw [hself] at hq
        obtain rfl := List.mem_singleton.mp hq
        exact .inl (Nat.lt_succ_of_le hlow)
      · obtain ⟨p', hp', rfl⟩ := hparts x hx
        have hqr := stop_range hqp
        have hmr := node_range hmx
        have hqs := q.expr.size_pos
        simp only [size] at hmr
        rcases parts_apart hp' hp with rfl | hbefore | hafter
        · exact ih k i p' hp' hmx hqp
        · exact .inr (by omega)
        · exact .inl (by omega)

end TypeFlow.Expr
