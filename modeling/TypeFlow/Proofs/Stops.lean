import TypeFlow.Expr.Induction
import Mathlib.Data.List.Pairwise

/-! # The nodes that a walk comes to

A walk leaves two parts of a tree alone: the body of a method, and whatever is written inside the
construction of a new object. -/

namespace TypeFlow

/-- A node that a walk comes to, with the class in whose body it is. -/
structure Stop where
  node : Nat
  klass : Option String
  expr : Expr

namespace Expr

/-- The construction of a new object of a class. -/
def isNew : Expr → Bool
  | .call (some (.const _)) n _ _ => n.text == "new"
  | _ => false

mutual
/-- The stops of a walk over a tree that lies at an address, inside the body of a class. -/
def stops (k : Option String) (i : Nat) : Expr → List Stop
  | e@(.literal _) | e@(.place _) | e@(.const _) | e@(.method _ _ _) => [⟨i, k, e⟩]
  | e@(.assign t v) => ⟨i, k, e⟩ :: ⟨i + 1, k, .place t⟩ :: v.stops k (i + 2)
  | e@(.block es) => ⟨i, k, e⟩ :: stopsList k (i + 1) es
  | e@(.loop c b) => ⟨i, k, e⟩ :: (c.stops k (i + 1) ++ b.stops k (i + 1 + c.size))
  | e@(.cond c t f) =>
      ⟨i, k, e⟩ :: (c.stops k (i + 1) ++ (t.stops k (i + 1 + c.size) ++
        stopsOption k (i + 1 + c.size + t.size) f))
  | e@(.call r _ as _) =>
      ⟨i, k, e⟩ :: if e.isNew then []
        else stopsOption k (i + 1) r ++ stopsList k (i + 1 + sizeOption r) as
  | e@(.klass n b) => ⟨i, k, e⟩ :: b.stops (some n.text) (i + 1)

def stopsList (k : Option String) (i : Nat) : List Expr → List Stop
  | [] => []
  | e :: es => e.stops k i ++ stopsList k (i + e.size) es

def stopsOption (k : Option String) (i : Nat) : Option Expr → List Stop
  | none => []
  | some e => e.stops k i
end

/-! ## Parts

The stops below a node lie in a few parts, each a tree of its own. -/

/-- The trees right below a node that a walk goes over. -/
def parts (k : Option String) (i : Nat) : Expr → List Stop
  | .literal _ | .place _ | .const _ | .method _ _ _ => []
  | .assign t v => [⟨i + 1, k, .place t⟩, ⟨i + 2, k, v⟩]
  | .block es => (spread (i + 1) es).map fun x => ⟨x.1, k, x.2⟩
  | .loop c b => [⟨i + 1, k, c⟩, ⟨i + 1 + c.size, k, b⟩]
  | .cond c t f =>
      [⟨i + 1, k, c⟩, ⟨i + 1 + c.size, k, t⟩] ++
        f.toList.map fun x => ⟨i + 1 + c.size + t.size, k, x⟩
  | e@(.call r _ as _) =>
      if e.isNew then []
      else (r.toList.map fun x => ⟨i + 1, k, x⟩) ++
        (spread (i + 1 + sizeOption r) as).map fun x => ⟨x.1, k, x.2⟩
  | .klass n b => [⟨i + 1, some n.text, b⟩]

theorem stopsList_eq (k : Option String) (i : Nat) (es : List Expr) :
    stopsList k i es = (spread i es).flatMap fun x => x.2.stops k x.1 := by
  induction es generalizing i with
  | nil => rfl
  | cons e es ih => simp [stopsList, spread, ih]

theorem nodesList_eq (i : Nat) (es : List Expr) :
    nodesList i es = (spread i es).flatMap fun x => x.2.nodes x.1 := by
  induction es generalizing i with
  | nil => rfl
  | cons e es ih => simp [nodesList, spread, ih]

theorem stops_eq (e : Expr) (k : Option String) (i : Nat) :
    e.stops k i = ⟨i, k, e⟩ :: (e.parts k i).flatMap fun p => p.expr.stops p.klass p.node := by
  cases e with
  | literal | place | const | method | loop | klass => simp [stops, parts]
  | assign t v => simp [stops, parts]
  | block es => simp [stops, parts, stopsList_eq, List.flatMap_map]
  | cond c t f => cases f <;> simp [stops, parts, stopsOption]
  | call r n as p =>
      cases r <;> simp only [stops, parts, stopsOption, stopsList_eq] <;> split <;>
        simp [List.flatMap_map]

theorem mem_stops_self (e : Expr) (k : Option String) (i : Nat) : ⟨i, k, e⟩ ∈ e.stops k i := by
  simp [stops_eq e]

theorem mem_stops_iff {e : Expr} {k : Option String} {i : Nat} {q : Stop} :
    q ∈ e.stops k i ↔
      q = ⟨i, k, e⟩ ∨ ∃ p ∈ e.parts k i, q ∈ p.expr.stops p.klass p.node := by
  rw [stops_eq]
  simp

/-! ## Trees that follow each other -/

theorem spread_map_snd (i : Nat) (es : List Expr) : (spread i es).map (·.2) = es := by
  induction es generalizing i with
  | nil => rfl
  | cons e es ih => simp [spread, ih]

/-- The last of several trees is still the last one with its address. -/
theorem getLast?_spread (i : Nat) (es : List Expr) :
    (spread i es).getLast?.map (·.2) = es.getLast? := by
  rw [← List.getLast?_map, spread_map_snd]

theorem length_spread (i : Nat) (es : List Expr) : (spread i es).length = es.length := by
  rw [← List.length_map (·.2), spread_map_snd]

theorem mem_spread {es : List Expr} {i : Nat} {x : Nat × Expr} (h : x ∈ spread i es) :
    x.2 ∈ es ∧ i ≤ x.1 ∧ x.1 + x.2.size ≤ i + sizeList es := by
  induction es generalizing i with
  | nil => simp [spread] at h
  | cons e es ih =>
      rcases List.mem_cons.mp h with rfl | h
      · simp only [sizeList]
        exact ⟨List.mem_cons_self .., by omega, by omega⟩
      · obtain ⟨hmem, hlow, hhigh⟩ := ih h
        simp only [sizeList]
        exact ⟨List.mem_cons_of_mem _ hmem, by omega, by omega⟩

theorem spread_pairwise (i : Nat) (es : List Expr) :
    (spread i es).Pairwise fun x y => x.1 + x.2.size ≤ y.1 := by
  induction es generalizing i with
  | nil => exact .nil
  | cons e es ih => exact .cons (fun y hy => (mem_spread hy).2.1) (ih _)

/-! ## Where the parts and the stops lie -/

theorem parts_pairwise (e : Expr) (k : Option String) (i : Nat) :
    (e.parts k i).Pairwise fun p q => p.node + p.expr.size ≤ q.node := by
  cases e with
  | literal | place | const | method | klass => simp [parts]
  | assign t v => simp [parts, size]
  | loop c b => simp [parts]
  | block es => simpa [parts, List.pairwise_map] using spread_pairwise (i + 1) es
  | cond c t f => cases f <;> simp [parts]
  | call r n as q =>
      simp only [parts]
      split
      · exact .nil
      · have hargs := spread_pairwise (i + 1 + sizeOption r) as
        cases r with
        | none => simpa [List.pairwise_map] using hargs
        | some x =>
            simp only [Option.toList_some, List.map_cons, List.map_nil, List.cons_append,
              List.nil_append, List.pairwise_cons, List.pairwise_map, List.mem_map]
            refine ⟨?_, hargs⟩
            rintro _ ⟨y, hy, rfl⟩
            exact (mem_spread hy).2.1

/-- A part lies strictly inside its tree. -/
theorem mem_parts {e : Expr} {k : Option String} {i : Nat} {p : Stop} (h : p ∈ e.parts k i) :
    i < p.node ∧ p.node + p.expr.size ≤ i + e.size ∧
      ∀ x ∈ p.expr.nodes p.node, x ∈ e.nodes i := by
  cases e with
  | literal | place | const | method => simp [parts] at h
  | assign t v =>
      simp only [parts, List.mem_cons, List.not_mem_nil, or_false] at h
      rcases h with rfl | rfl
      · have := v.size_pos
        exact ⟨by simp, by simp only [size]; omega, by simp [nodes]⟩
      · exact ⟨by simp, by simp only [size]; omega, by simp +contextual [nodes]⟩
  | block es =>
      simp only [parts, List.mem_map] at h
      obtain ⟨x, hx, rfl⟩ := h
      obtain ⟨_, hlow, hhigh⟩ := mem_spread hx
      refine ⟨by simp only; omega, by simp only [size]; omega, fun y hy => ?_⟩
      simp only [nodes, nodesList_eq, List.mem_cons, List.mem_flatMap]
      exact .inr ⟨x, hx, hy⟩
  | loop c b =>
      simp only [parts, List.mem_cons, List.not_mem_nil, or_false] at h
      rcases h with rfl | rfl
      · exact ⟨by simp, by simp only [size]; omega, by simp +contextual [nodes]⟩
      · exact ⟨by simp only; omega, by simp only [size]; omega, by simp +contextual [nodes]⟩
  | cond c t f =>
      simp only [parts, List.cons_append, List.nil_append, List.mem_cons, List.mem_map] at h
      rcases h with rfl | rfl | ⟨x, hx, rfl⟩
      · exact ⟨by simp, by simp only [size]; omega, by simp +contextual [nodes]⟩
      · exact ⟨by simp only; omega, by simp only [size]; omega, by simp +contextual [nodes]⟩
      · cases Option.mem_toList.mp hx
        exact ⟨by simp only; omega, by simp only [size, sizeOption]; omega,
          by simp +contextual [nodes, nodesOption]⟩
  | call r n as q =>
      simp only [parts] at h
      split at h
      · simp at h
      · simp only [List.mem_append, List.mem_map] at h
        rcases h with ⟨x, hx, rfl⟩ | ⟨x, hx, rfl⟩
        · cases Option.mem_toList.mp hx
          exact ⟨by simp, by simp only [size, sizeOption]; omega,
            by simp +contextual [nodes, nodesOption]⟩
        · obtain ⟨_, hlow, hhigh⟩ := mem_spread hx
          refine ⟨by simp only; omega, by simp only [size]; omega, fun y hy => ?_⟩
          simp only [nodes, nodesList_eq, List.cons_append, List.mem_cons, List.mem_append,
            List.mem_flatMap]
          exact .inr (.inr ⟨x, hx, hy⟩)
  | klass n b =>
      simp only [parts, List.mem_cons, List.not_mem_nil, or_false] at h
      subst h
      exact ⟨by simp, by simp only [size]; omega, by simp +contextual [nodes]⟩

theorem size_lt_of_mem_parts {e : Expr} {k : Option String} {i : Nat} {p : Stop}
    (h : p ∈ e.parts k i) : p.expr.size < e.size := by
  obtain ⟨hlow, hhigh, _⟩ := mem_parts h
  omega

/-- Induction over the parts that a walk goes over. -/
theorem indParts {motive : Expr → Prop}
    (h : ∀ e, (∀ k i, ∀ p ∈ e.parts k i, motive p.expr) → motive e) (e : Expr) : motive e := by
  induction hn : e.size using Nat.strongRecOn generalizing e with
  | ind n ih =>
      subst hn
      exact h e fun k i p hp => ih _ (size_lt_of_mem_parts hp) _ rfl

theorem stop_range {e : Expr} {k : Option String} {i : Nat} {q : Stop} (h : q ∈ e.stops k i) :
    i ≤ q.node ∧ q.node + q.expr.size ≤ i + e.size := by
  induction e using indParts generalizing k i with
  | h e ih =>
      rcases mem_stops_iff.mp h with rfl | ⟨p, hp, hq⟩
      · exact ⟨Nat.le_refl _, Nat.le_refl _⟩
      · obtain ⟨hlow, hhigh, _⟩ := mem_parts hp
        have := ih k i p hp hq
        omega

theorem mem_nodes_self (e : Expr) (i : Nat) : (i, e) ∈ e.nodes i := by
  cases e <;> simp [nodes]

/-- The tree at a stop is part of the tree. -/
theorem nodes_subset_of_mem_stops {e : Expr} {k : Option String} {i : Nat} {q : Stop}
    (h : q ∈ e.stops k i) : ∀ x ∈ q.expr.nodes q.node, x ∈ e.nodes i := by
  induction e using indParts generalizing k i with
  | h e ih =>
      rcases mem_stops_iff.mp h with rfl | ⟨p, hp, hq⟩
      · exact fun _ hx => hx
      · exact fun x hx => (mem_parts hp).2.2 x (ih k i p hp hq x hx)

/-- Each stop is a node of the tree. -/
theorem mem_nodes_of_mem_stops {e : Expr} {k : Option String} {i : Nat} {q : Stop}
    (h : q ∈ e.stops k i) : (q.node, q.expr) ∈ e.nodes i :=
  nodes_subset_of_mem_stops h _ (mem_nodes_self ..)

/-- A walk over a tree comes to all stops of a walk over a tree below it. -/
theorem stops_trans {e : Expr} {k : Option String} {i : Nat} {q s : Stop}
    (hq : q ∈ e.stops k i) (hs : s ∈ q.expr.stops q.klass q.node) : s ∈ e.stops k i := by
  induction e using indParts generalizing k i with
  | h e ih =>
      rcases mem_stops_iff.mp hq with rfl | ⟨p, hp, hq⟩
      · exact hs
      · exact mem_stops_iff.mpr (.inr ⟨p, hp, ih k i p hp hq⟩)

theorem mem_stops_of_mem_parts {e : Expr} {k : Option String} {i : Nat} {p : Stop}
    (h : p ∈ e.parts k i) : p ∈ e.stops k i :=
  mem_stops_iff.mpr (.inr ⟨p, h, mem_stops_self ..⟩)

theorem parts_apart {e : Expr} {k : Option String} {i : Nat} {p q : Stop} (hp : p ∈ e.parts k i)
    (hq : q ∈ e.parts k i) :
    p = q ∨ p.node + p.expr.size ≤ q.node ∨ q.node + q.expr.size ≤ p.node := by
  let apart (p q : Stop) : Prop :=
    p = q ∨ p.node + p.expr.size ≤ q.node ∨ q.node + q.expr.size ≤ p.node
  have : Std.Symm apart := ⟨by
    rintro x y (rfl | h | h)
    · exact .inl rfl
    · exact .inr (.inr h)
    · exact .inr (.inl h)⟩
  exact List.Pairwise.forall_of_forall (R := apart) (fun _ _ => .inl rfl)
    ((parts_pairwise e k i).imp fun h => .inr (.inl h)) hp hq

/-- A walk comes to each node once. -/
theorem stop_unique {e : Expr} {k : Option String} {i : Nat} {q s : Stop} (hq : q ∈ e.stops k i)
    (hs : s ∈ e.stops k i) (h : q.node = s.node) : q = s := by
  induction e using indParts generalizing k i with
  | h e ih =>
      rcases mem_stops_iff.mp hq with rfl | ⟨p, hp, hqp⟩ <;>
        rcases mem_stops_iff.mp hs with rfl | ⟨p', hp', hsp⟩
      · rfl
      · have hpart := mem_parts hp'
        have hrange := stop_range hsp
        simp only at h
        omega
      · have hpart := mem_parts hp
        have hrange := stop_range hqp
        simp only at h
        omega
      · have hqr := stop_range hqp
        have hsr := stop_range hsp
        have hqs := q.expr.size_pos
        have hss := s.expr.size_pos
        rcases parts_apart hp hp' with rfl | hlt | hlt
        · exact ih k i p hp hqp hsp
        · omega
        · omega

/-- A stop inside the tree at another stop is a stop of that tree. -/
theorem mem_stops_of_within {e : Expr} {k : Option String} {i : Nat} {q s : Stop}
    (hq : q ∈ e.stops k i) (hs : s ∈ e.stops k i) (hle : q.node ≤ s.node)
    (hlt : s.node < q.node + q.expr.size) : s ∈ q.expr.stops q.klass q.node := by
  induction e using indParts generalizing k i with
  | h e ih =>
      rcases mem_stops_iff.mp hq with rfl | ⟨p, hp, hqp⟩
      · exact hs
      · have hpq := stop_range hqp
        rcases mem_stops_iff.mp hs with rfl | ⟨p', hp', hsp⟩
        · have := (mem_parts hp).1
          simp only at hle
          omega
        · have hps := stop_range hsp
          have hpos := s.expr.size_pos
          rcases parts_apart hp hp' with rfl | hbelow | habove
          · exact ih k i p hp hqp hsp
          · omega
          · omega

/-- A walk never comes to the body of a method. -/
theorem stop_not_in_method {e : Expr} {k : Option String} {i : Nat} {m q : Stop} {n ps b}
    (hm : m ∈ e.stops k i) (hmethod : m.expr = .method n ps b) (hq : q ∈ e.stops k i) :
    q.node ≤ m.node ∨ m.node + m.expr.size ≤ q.node := by
  induction e using indParts generalizing k i with
  | h e ih =>
      rcases mem_stops_iff.mp hm with rfl | ⟨p, hp, hmp⟩
      · simp only at hmethod
        subst hmethod
        simp only [stops, List.mem_singleton] at hq
        subst hq
        exact .inl (Nat.le_refl _)
      · have hmr := stop_range hmp
        rcases mem_stops_iff.mp hq with rfl | ⟨p', hp', hqp⟩
        · have hpart := mem_parts hp
          exact .inl (by simp only; omega)
        · have hqr := stop_range hqp
          have hqs := q.expr.size_pos
          rcases parts_apart hp hp' with rfl | hlt | hlt
          · exact ih k i p hp hmp hqp
          · omega
          · omega

end Expr

end TypeFlow
