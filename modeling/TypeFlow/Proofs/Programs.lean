import TypeFlow.Proofs.Ending

/-! # Programs that define before they do

A program first defines its methods and classes, and then does what it does. Nothing is defined
after that, nor in the body of a method. -/

namespace TypeFlow

namespace Expr

/-! ## Where a tree lies does not matter -/

theorem stopsList_shift {es : List Expr} {k : Option String} {d : Nat}
    (h : ∀ e ∈ es, ∀ i, e.stops k (i + d) =
      (e.stops k i).map fun q => { q with node := q.node + d }) (i : Nat) :
    stopsList k (i + d) es =
      (stopsList k i es).map fun q => { q with node := q.node + d } := by
  induction es generalizing i with
  | nil => rfl
  | cons e es ih =>
      rw [stopsList, stopsList, List.map_append, h e (by simp), Nat.add_right_comm,
        ih fun x hx => h x (by simp [hx])]

/-- The stops of a tree move with the tree. -/
theorem stops_shift (e : Expr) (k : Option String) (i d : Nat) :
    e.stops k (i + d) = (e.stops k i).map fun q => { q with node := q.node + d } := by
  induction e generalizing k i with
  | literal | place | const | method => rfl
  | assign t v hv =>
      rw [stops, stops, List.map_cons, List.map_cons, Nat.add_right_comm i d 1,
        Nat.add_right_comm i d 2, hv]
  | block es h =>
      rw [stops, stops, List.map_cons, Nat.add_right_comm i, stopsList_shift fun e he => h e he k]
  | loop c b hc hb =>
      rw [stops, stops, List.map_cons, List.map_append, Nat.add_right_comm i, hc,
        Nat.add_right_comm (i + 1), hb]
  | cond c t f hc ht hf =>
      have hno : ∀ j, stopsOption k (j + d) f =
          (stopsOption k j f).map fun q => { q with node := q.node + d } := by
        intro j
        cases f with
        | none => rfl
        | some x => exact hf x rfl k j
      rw [stops, stops, List.map_cons, List.map_append, List.map_append, Nat.add_right_comm i, hc,
        Nat.add_right_comm (i + 1), ht, Nat.add_right_comm (i + 1 + c.size), hno]
  | call r n as p hr has =>
      have hreceiver : ∀ j, stopsOption k (j + d) r =
          (stopsOption k j r).map fun q => { q with node := q.node + d } := by
        intro j
        cases r with
        | none => rfl
        | some x => exact hr x rfl k j
      rw [stops, stops, List.map_cons, Nat.add_right_comm i, hreceiver,
        Nat.add_right_comm (i + 1), stopsList_shift fun e he => has e he k]
      split <;> simp
  | klass n b hb => rw [stops, stops, List.map_cons, Nat.add_right_comm i, hb]

/-- A stop of a tree is a stop of the tree anywhere else. -/
theorem mem_stops_shift {e : Expr} {k : Option String} {i : Nat} {q : Stop}
    (h : q ∈ e.stops k i) (j : Nat) :
    ∃ m, q.node = i + m ∧ ⟨j + m, q.klass, q.expr⟩ ∈ e.stops k j := by
  rw [← Nat.zero_add i, stops_shift] at h
  obtain ⟨s, hs, rfl⟩ := List.mem_map.mp h
  refine ⟨s.node, Nat.add_comm .., ?_⟩
  rw [← Nat.zero_add j, stops_shift]
  exact List.mem_map.mpr ⟨s, hs, by simp [Nat.add_comm]⟩

/-! ## Plain trees and definitions -/

/-- Neither a definition nor an instance variable. -/
def isPlain : Expr → Bool
  | .method _ _ _ | .klass _ _ => false
  | e => !e.isInstanceVar

/-- A tree without definitions and without instance variables. -/
def Plain (e : Expr) : Prop := ∀ x ∈ e.all, x.isPlain = true

instance (e : Expr) : Decidable e.Plain := List.decidableBAll ..

/-- Nothing but methods with plain bodies, in classes or outside of them. -/
inductive Definitional : Expr → Prop where
  | method {nm : Token} {ps : List Token} {b : Expr} : b.Plain → Definitional (.method nm ps b)
  | klass {nm : Token} {b : Expr} : Definitional b → Definitional (.klass nm b)
  | block {es : List Expr} : (∀ e ∈ es, Definitional e) → Definitional (.block es)

theorem Plain.of_nodes {e x : Expr} {i j : Nat} (h : e.Plain)
    (hx : ∀ y ∈ x.nodes j, y ∈ e.nodes i) : x.Plain := by
  intro y hy
  obtain ⟨k, hk⟩ := (mem_all j).mp hy
  exact h y ((mem_all i).mpr ⟨k, hx _ hk⟩)

/-- A walk over a plain tree comes to plain trees only. -/
theorem Plain.stop {e : Expr} {k : Option String} {i : Nat} {q : Stop} (h : e.Plain)
    (hq : q ∈ e.stops k i) : q.expr.Plain :=
  h.of_nodes (nodes_subset_of_mem_stops hq)

theorem Plain.self {e : Expr} (h : e.Plain) : e.isPlain = true :=
  h e ((mem_all 0).mpr ⟨0, mem_nodes_self e 0⟩)

theorem Plain.place {p : Place} (h : (Expr.place p).Plain) : p.kind = .localVar := by
  have hp := h.self
  cases hk : p.kind with
  | localVar => rfl
  | instanceVar => simp [isPlain, isInstanceVar, hk] at hp

theorem Plain.target {p : Place} {v : Expr} (h : (Expr.assign p v).Plain) : p.kind = .localVar :=
  Plain.place (h.stop (k := none) (i := 0) (mem_stops_of_mem_parts (p := ⟨1, none, .place p⟩)
    (by simp [parts])))

theorem Plain.fieldFree {e : Expr} (h : e.Plain) : e.FieldFree := by
  intro x hx
  have hp := h x hx
  cases x with
  | place p => simpa [isPlain] using hp
  | _ => rfl

theorem all_block (es : List Expr) : (Expr.block es).all = .block es :: es.flatMap all := by
  have hlist : ∀ i, (nodesList i es).map (·.2) = es.flatMap all := by
    induction es with
    | nil => exact fun _ => rfl
    | cons e es ih =>
        intro i
        rw [nodesList, List.map_append, ih, List.flatMap_cons, all, map_snd_nodes e i 0]
  rw [all, nodes, List.map_cons, hlist]

theorem all_method (nm : Token) (ps : List Token) (b : Expr) :
    (Expr.method nm ps b).all = .method nm ps b :: b.all := by
  rw [all, nodes, List.map_cons, map_snd_nodes b _ 0, all]

theorem all_klass (nm : Token) (b : Expr) : (Expr.klass nm b).all = .klass nm b :: b.all := by
  rw [all, nodes, List.map_cons, map_snd_nodes b _ 0, all]

theorem FieldFree.block {es : List Expr} (h : ∀ e ∈ es, e.FieldFree) :
    (Expr.block es).FieldFree := by
  intro x hx
  rw [all_block] at hx
  rcases List.mem_cons.mp hx with rfl | hx
  · rfl
  · obtain ⟨e, he, hx⟩ := List.mem_flatMap.mp hx
    exact h e he x hx

theorem Definitional.fieldFree {e : Expr} (h : e.Definitional) : e.FieldFree := by
  induction h with
  | method hb =>
      intro x hx
      rw [all_method] at hx
      rcases List.mem_cons.mp hx with rfl | hx
      · rfl
      · exact hb.fieldFree x hx
  | klass _ ih =>
      intro x hx
      rw [all_klass] at hx
      rcases List.mem_cons.mp hx with rfl | hx
      · rfl
      · exact ih x hx
  | block _ ih => exact .block ih

/-- A walk over definitions comes to definitions only. -/
theorem Definitional.part {e : Expr} {k : Option String} {i : Nat} {p : Stop}
    (h : e.Definitional) (hp : p ∈ e.parts k i) : p.expr.Definitional := by
  cases h with
  | method => simp [parts] at hp
  | klass hb =>
      obtain rfl : p = _ := by simpa [parts] using hp
      exact hb
  | block hes =>
      simp only [parts, List.mem_map] at hp
      obtain ⟨x, hx, rfl⟩ := hp
      exact hes x.2 (mem_spread hx).1

theorem Definitional.stop {e : Expr} {k : Option String} {i : Nat} {q : Stop}
    (h : e.Definitional) (hq : q ∈ e.stops k i) : q.expr.Definitional := by
  induction e using indParts generalizing k i with
  | h e ih =>
      rcases mem_stops_iff.mp hq with rfl | ⟨p, hp, hq⟩
      · exact h
      · exact ih k i p hp (h.part hp) hq

theorem spread_append (i : Nat) (xs ys : List Expr) :
    spread i (xs ++ ys) = spread i xs ++ spread (i + sizeList xs) ys := by
  induction xs generalizing i with
  | nil => rfl
  | cons x xs ih => rw [List.cons_append, spread, spread, ih, sizeList, Nat.add_assoc]; rfl

end Expr

/-! ## Programs -/

/-- A program that defines before it does. -/
structure Program where
  defs : List Expr
  stmts : List Expr
  definitional : ∀ e ∈ defs, e.Definitional
  plain : ∀ e ∈ stmts, e.Plain

namespace Program

variable (P : Program)

def tree : Expr := .block (P.defs ++ P.stmts)

/-- The parts of a program, with their addresses. -/
def lines : List (Nat × Expr) := Expr.spread (rootOf + 1) (P.defs ++ P.stmts)

/-- The address of the first statement after the definitions. -/
def mainAt : Nat := rootOf + 1 + Expr.sizeList P.defs

/-- A method that the program defines, with its parameters and its body. -/
def Code (m : NodeId) (params : List String) (body : Expr) : Prop :=
  ∃ x ∈ Expr.spread (rootOf + 1) P.defs, ∃ k nm ps,
    ⟨m, k, .method nm ps body⟩ ∈ x.2.stops none x.1 ∧ params = ps.map (·.text)

/-- What the program itself does, and what is in it. -/
def Main (e : Expr) : Prop := ∃ x ∈ P.defs ++ P.stmts, ∃ q ∈ x.stops none 0, q.expr = e

theorem fieldFree : P.tree.FieldFree := by
  refine .block fun e he => ?_
  rcases List.mem_append.mp he with he | he
  · exact (P.definitional e he).fieldFree
  · exact (P.plain e he).fieldFree

theorem mem_stops {q : Stop} : q ∈ P.tree.stops none rootOf ↔
    q = ⟨rootOf, none, P.tree⟩ ∨ ∃ x ∈ P.lines, q ∈ x.2.stops none x.1 := by
  rw [Expr.mem_stops_iff]
  refine or_congr_right ?_
  simp only [tree, Expr.parts, List.mem_map]
  constructor
  · rintro ⟨p, ⟨x, hx, rfl⟩, hq⟩
    exact ⟨x, hx, hq⟩
  · rintro ⟨x, hx, hq⟩
    exact ⟨_, ⟨x, hx, rfl⟩, hq⟩

/-- What is in the program is in one of its parts, except for the program as a whole. -/
theorem main_of_stop {q : Stop} (h : q ∈ P.tree.stops none rootOf) :
    q.expr = P.tree ∨ P.Main q.expr := by
  rcases P.mem_stops.mp h with rfl | ⟨x, hx, hq⟩
  · exact .inl rfl
  · obtain ⟨m, -, hm⟩ := Expr.mem_stops_shift hq 0
    exact .inr ⟨x.2, (Expr.mem_spread hx).1, _, hm, rfl⟩

theorem stop_of_main {e : Expr} (h : P.Main e) : ∃ n k, ⟨n, k, e⟩ ∈ P.tree.stops none rootOf := by
  obtain ⟨x, hx, q, hq, rfl⟩ := h
  obtain ⟨y, hy, rfl⟩ : ∃ y ∈ P.lines, y.2 = x := by
    rw [← Expr.spread_map_snd (rootOf + 1) (P.defs ++ P.stmts)] at hx
    obtain ⟨y, hy, rfl⟩ := List.mem_map.mp hx
    exact ⟨y, hy, rfl⟩
  obtain ⟨m, -, hm⟩ := Expr.mem_stops_shift hq y.1
  exact ⟨_, _, P.mem_stops.mpr (.inr ⟨y, hy, hm⟩)⟩

/-- Only the definitions hold methods, and the bodies of these are plain. -/
theorem code_of_stop {n : Nat} {k : Option String} {nm : Token} {ps : List Token} {b : Expr}
    (h : ⟨n, k, .method nm ps b⟩ ∈ P.tree.stops none rootOf) :
    P.Code n (ps.map (·.text)) b ∧ b.Plain := by
  rcases P.mem_stops.mp h with heq | ⟨x, hx, hq⟩
  · have hexpr : Expr.method nm ps b = P.tree := congrArg Stop.expr heq
    cases hexpr
  · rw [lines, Expr.spread_append] at hx
    rcases List.mem_append.mp hx with hx | hx
    · refine ⟨⟨x, hx, k, nm, ps, hq, rfl⟩, ?_⟩
      have := (P.definitional _ (Expr.mem_spread hx).1).stop hq
      cases this with
      | method hb => exact hb
    · have := ((P.plain _ (Expr.mem_spread hx).1).stop hq).self
      simp [Expr.isPlain] at this

theorem Code.stop {P : Program} {m : NodeId} {params : List String} {b : Expr}
    (h : P.Code m params b) : ∃ k nm ps, ⟨m, k, .method nm ps b⟩ ∈ P.tree.stops none rootOf ∧
      params = ps.map (·.text) := by
  obtain ⟨x, hx, k, nm, ps, hq, hps⟩ := h
  refine ⟨k, nm, ps, P.mem_stops.mpr (.inr ⟨x, ?_, hq⟩), hps⟩
  rw [lines, Expr.spread_append]
  exact List.mem_append_left _ hx

theorem Code.unique {P : Program} {m : NodeId} {params params' : List String} {b b' : Expr}
    (h : P.Code m params b) (h' : P.Code m params' b') : params = params' ∧ b = b' := by
  obtain ⟨k, nm, ps, hq, rfl⟩ := h.stop
  obtain ⟨k', nm', ps', hq', rfl⟩ := h'.stop
  have heq := Expr.stop_unique hq hq' rfl
  cases heq
  exact ⟨rfl, rfl⟩

/-- Programs with the same definitions and with the same statements in another order. -/
theorem main_perm {P Q : Program} (hdefs : P.defs = Q.defs) (hstmts : P.stmts.Perm Q.stmts)
    (e : Expr) : P.Main e ↔ Q.Main e := by
  have hmem : ∀ x, x ∈ P.defs ++ P.stmts ↔ x ∈ Q.defs ++ Q.stmts := by
    intro x
    rw [List.mem_append, List.mem_append, hdefs, hstmts.mem_iff]
  simp only [Main, hmem]

end Program

end TypeFlow
