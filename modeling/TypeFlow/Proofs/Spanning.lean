import TypeFlow.Expr.Span
import TypeFlow.Proofs.FieldFree
import Mathlib.Order.Bounds.Basic

/-! # What a part of a program spans

The two ends of a part are found by going down one side of the tree, and a part without spots of
its own leaves its end to the part before it. In a tree that is spotted in the order in which it
is written, the two ends bound the spots of all names and literals in between. -/

namespace TypeFlow.Expr

/-! ## Spots in the order of writing -/

mutual
/-- The spots of all names and literals, in the order in which they are written. The parameters of a
method have spots as well, but these are left out: the ends of a method do not depend on them. -/
def spots : Expr → List Int
  | .literal l => [l.spot]
  | .place p => [p.name.spot]
  | .const n => [n.spot]
  | .assign t v => t.name.spot :: v.spots
  | .block es => spotsList es
  | .loop c b => c.spots ++ b.spots
  | .cond c t f => c.spots ++ (t.spots ++ spotsOption f)
  | .call r n as _ => spotsOption r ++ n.spot :: spotsList as
  | .method n _ b => n.spot :: b.spots
  | .klass n b => n.spot :: b.spots

def spotsList : List Expr → List Int
  | [] => []
  | e :: es => e.spots ++ spotsList es

def spotsOption : Option Expr → List Int
  | none => []
  | some e => e.spots
end

/-- The spot of the name or literal that a node is written with. -/
def spot? : Expr → Option Int
  | .literal l => some l.spot
  | e => e.name?.map Token.spot

/-- The trees right below a node that are neither a body nor a branch. -/
def operands : Expr → List Expr
  | .literal _ | .place _ | .const _ | .method _ _ _ | .klass _ _ => []
  | .assign _ v => [v]
  | .block es => es
  | .loop c _ | .cond c _ _ => [c]
  | .call r _ as _ => r.toList ++ as

instance (e : Expr) : Decidable (e = .block []) :=
  match e with
  | .block [] => isTrue rfl
  | .block (_ :: _) | .literal _ | .place _ | .const _ | .assign _ _ | .loop _ _ | .cond _ _ _
  | .call _ _ _ _ | .method _ _ _ | .klass _ _ => isFalse nofun

/-- An empty block is only ever a body or a branch. -/
def Filled (e : Expr) : Prop := ∀ x ∈ e.all, ∀ y ∈ x.operands, y ≠ .block []

instance (e : Expr) : Decidable e.Filled := List.decidableBAll ..

variable {e x : Expr} {i : Nat}

theorem sublist_spotsList {es : List Expr} (h : e ∈ es) : e.spots.Sublist (spotsList es) := by
  induction es with
  | nil => simp at h
  | cons y ys ih =>
      rw [spotsList]
      rcases List.mem_cons.mp h with rfl | h
      · exact List.sublist_append_left ..
      · exact (ih h).trans (List.sublist_append_right ..)

theorem sublist_of_branches {y : Nat × Expr} (h : y ∈ e.branches i) :
    y.2.spots.Sublist e.spots := by
  cases e with
  | literal | place | const => simp [branches] at h
  | assign t v =>
      simp only [branches, List.mem_cons, List.not_mem_nil, or_false] at h
      rcases h with rfl | rfl <;> simp [spots]
  | block es => exact sublist_spotsList (mem_spread h).1
  | loop c b =>
      simp only [branches, List.mem_cons, List.not_mem_nil, or_false] at h
      rcases h with rfl | rfl <;> simp [spots]
  | cond c t f =>
      simp only [branches, List.cons_append, List.nil_append, List.mem_cons, List.mem_map] at h
      have hrest : (t.spots ++ spotsOption f).Sublist (spots (.cond c t f)) :=
        List.sublist_append_right ..
      rcases h with rfl | rfl | ⟨z, hz, rfl⟩
      · exact List.sublist_append_left ..
      · exact (List.sublist_append_left ..).trans hrest
      · cases Option.mem_toList.mp hz
        exact (List.sublist_append_right ..).trans hrest
  | call r n as p =>
      simp only [branches, List.mem_append, List.mem_map] at h
      rcases h with ⟨z, hz, rfl⟩ | h
      · cases Option.mem_toList.mp hz
        exact List.sublist_append_left ..
      · exact ((sublist_spotsList (mem_spread h).1).cons _).trans (List.sublist_append_right ..)
  | method n ps b | klass n b =>
      obtain rfl := List.mem_singleton.mp h
      exact List.sublist_cons_self ..

/-- The spots of a part of a tree are spots of the tree, in the same order. -/
theorem sublist_of_nodes {y : Nat × Expr} (h : y ∈ e.nodes i) : y.2.spots.Sublist e.spots := by
  induction e using indBranches generalizing i with
  | h e ih =>
      rcases mem_nodes_iff.mp h with rfl | ⟨z, hz, hy⟩
      · exact .refl _
      · exact (ih i z hz hy).trans (sublist_of_branches hz)

theorem mem_spotsList {s : Int} {es : List Expr} (i : Nat) :
    s ∈ spotsList es ↔ ∃ y ∈ spread i es, s ∈ y.2.spots := by
  induction es generalizing i with
  | nil => simp [spotsList, spread]
  | cons y ys ih => simp [spotsList, spread, ih (i + y.size)]

theorem mem_spots_iff {s : Int} (i : Nat) :
    s ∈ e.spots ↔ e.spot? = some s ∨ ∃ y ∈ e.branches i, s ∈ y.2.spots := by
  cases e with
  | literal | place | const | method | klass | assign | loop =>
      simp [spots, spot?, name?, branches, eq_comm]
  | block es => simp [spots, spot?, name?, branches, mem_spotsList (i + 1)]
  | cond c t f => cases f <;> simp [spots, spotsOption, spot?, name?, branches]
  | call r n as p =>
      have hargs : s ∈ spotsList as ↔ ∃ y ∈ spread (i + 1 + sizeOption r) as, s ∈ y.2.spots :=
        mem_spotsList _
      cases r <;>
        simp [spots, spotsOption, spot?, name?, branches, eq_comm, or_left_comm, or_and_right,
          exists_or, hargs]

theorem mem_spots_iff_nodes {s : Int} (i : Nat) :
    s ∈ e.spots ↔ ∃ y ∈ e.nodes i, y.2.spot? = some s := by
  induction e using indBranches generalizing i with
  | h e ih =>
      rw [mem_spots_iff i, nodes_eq]
      constructor
      · rintro (hs | ⟨y, hy, hs⟩)
        · exact ⟨(i, e), List.mem_cons_self .., hs⟩
        · obtain ⟨z, hz, hs⟩ := (ih i y hy y.1).mp hs
          exact ⟨z, List.mem_cons_of_mem _ (List.mem_flatMap.mpr ⟨y, hy, hz⟩), hs⟩
      · rintro ⟨z, hz, hs⟩
        rcases List.mem_cons.mp hz with rfl | hz
        · exact .inl hs
        · obtain ⟨y, hy, hz⟩ := List.mem_flatMap.mp hz
          exact .inr ⟨y, hy, (ih i y hy y.1).mpr ⟨z, hz, hs⟩⟩

/-- The spots of a tree are those of the names and literals at its nodes. -/
theorem mem_spots {s : Int} : s ∈ e.spots ↔ ∃ y ∈ e.all, y.spot? = some s := by
  rw [mem_spots_iff_nodes 0, all]
  simp only [List.mem_map, exists_exists_and_eq_and]

/-- A tree as it is read off a text: all spots are positive and come in the order of writing. -/
structure Spotted (e : Expr) : Prop where
  filled : e.Filled
  positive : ∀ s ∈ e.spots, 0 < s
  ordered : e.spots.Pairwise (· < ·)

theorem Spotted.of_nodes {j : Nat} (h : e.Spotted) (hx : (j, x) ∈ e.nodes i) : x.Spotted := by
  have hsub : x.spots.Sublist e.spots := sublist_of_nodes hx
  refine ⟨fun y hy => ?_, fun s hs => h.positive s (hsub.subset hs), h.ordered.sublist hsub⟩
  obtain ⟨k, hk⟩ := (mem_all j).mp hy
  exact h.filled y ((mem_all i).mpr ⟨k, nodes_trans hx hk⟩)

theorem Spotted.branch (h : e.Spotted) (hx : ∃ j, (j, x) ∈ e.branches 0) : x.Spotted := by
  obtain ⟨j, hx⟩ := hx
  exact h.of_nodes (mem_nodes_iff.mpr (.inr ⟨(j, x), hx, mem_nodes_self ..⟩))

theorem mem_branches_of_mem_operands (hx : x ∈ e.operands) : ∃ j, (j, x) ∈ e.branches 0 := by
  have hspread : ∀ {es : List Expr} {i : Nat}, x ∈ es → ∃ j, (j, x) ∈ spread i es := by
    intro es i hx
    rw [← spread_map_snd i es] at hx
    obtain ⟨y, hy, rfl⟩ := List.mem_map.mp hx
    exact ⟨y.1, hy⟩
  cases e with
  | literal | place | const | method | klass => simp [operands] at hx
  | assign t v | loop c b | cond c t f =>
      obtain rfl := List.mem_singleton.mp hx
      simp [branches]
  | block es => exact hspread hx
  | call r n as p =>
      rcases List.mem_append.mp hx with hr | has
      · exact ⟨1, List.mem_append_left _ (List.mem_map.mpr ⟨x, hr, rfl⟩)⟩
      · obtain ⟨j, hj⟩ := hspread (i := 0 + 1 + sizeOption r) has
        exact ⟨j, List.mem_append_right _ hj⟩

theorem Spotted.operand (h : e.Spotted) (hx : x ∈ e.operands) : x.Spotted ∧ x ≠ .block [] :=
  ⟨h.branch (mem_branches_of_mem_operands hx),
    h.filled e ((mem_all 0).mpr ⟨0, mem_nodes_self ..⟩) x hx⟩

/-! ## The two ends -/

/-- The left end is the first spot. -/
theorem head?_spots (h : e.Spotted) (hne : e ≠ .block []) : e.spots.head? = some e.left := by
  induction e with
  | literal | place | const | assign | method | klass => rfl
  | block es ih =>
      cases es with
      | nil => exact absurd rfl hne
      | cons y ys =>
          obtain ⟨hy, hyne⟩ := h.operand (x := y) (by simp [operands])
          rw [spots, spotsList, List.head?_append, ih y (by simp) hy hyne, Option.some_or, left]
  | loop c b hc hb =>
      obtain ⟨htest, htestne⟩ := h.operand (x := c) (by simp [operands])
      rw [spots, List.head?_append, hc htest htestne, Option.some_or, left]
  | cond c t f hc ht hf =>
      obtain ⟨htest, htestne⟩ := h.operand (x := c) (by simp [operands])
      rw [spots, List.head?_append, hc htest htestne, Option.some_or, left]
  | call r n as p hr has =>
      cases r with
      | none => rfl
      | some x =>
          obtain ⟨hx, hxne⟩ := h.operand (x := x) (by simp [operands])
          rw [spots, spotsOption, List.head?_append, hr x rfl hx hxne, Option.some_or, left]

/-- The last spot of several trees is the right end of the last of them. -/
theorem getLast?_spotsList (spot : Int) {es : List Expr}
    (h : ∀ x ∈ es, x.spots.getLast? = some x.right) :
    (spotsList es).getLast?.getD spot = rightOfLast spot es := by
  induction es with
  | nil => rfl
  | cons y ys ih =>
      cases ys with
      | nil => simp [spotsList, rightOfLast, h y]
      | cons z zs =>
          obtain ⟨s, hs⟩ : ∃ s, (spotsList (z :: zs)).getLast? = some s := by
            simp [spotsList, h z]
          rw [rightOfLast, ← ih fun x hx => h x (List.mem_cons_of_mem _ hx), spotsList,
            List.getLast?_append, hs, Option.some_or]

/-- Only an empty block leaves the end to the part before it. -/
theorem orSpot_right (h : e.Spotted) (hlast : e ≠ .block [] → e.spots.getLast? = some e.right)
    (other : Int) : orSpot e.right other = e.spots.getLast?.getD other := by
  by_cases he : e = .block []
  · subst he
    rfl
  · have := h.positive e.right (List.mem_of_getLast? (hlast he))
    rw [hlast he, Option.getD_some, orSpot, if_neg (by omega)]

/-- The branches of a conditional end where the last of them that has spots ends. -/
theorem orSpot_rightOfElse {t : Expr} {f : Option Expr} (ht : t.Spotted)
    (htlast : t ≠ .block [] → t.spots.getLast? = some t.right) (hf : ∀ x ∈ f, x.Spotted)
    (hflast : ∀ x ∈ f, x ≠ .block [] → x.spots.getLast? = some x.right) (other : Int) :
    orSpot (rightOfElse t.right f) other =
      (t.spots ++ spotsOption f).getLast?.getD other := by
  cases f with
  | none => rw [rightOfElse, spotsOption, List.append_nil, orSpot_right ht htlast]
  | some x =>
      by_cases hx : x = .block []
      · subst hx
        rw [rightOfElse, spotsOption, spots, spotsList, List.append_nil, orSpot_right ht htlast]
      · have hright : rightOfElse t.right (some x) = x.right := by
          rw [rightOfElse]
          exact hx
        rw [hright, orSpot_right (hf x rfl) (hflast x rfl), spotsOption, List.getLast?_append,
          hflast x rfl hx, Option.some_or]

/-- The right end is the last spot. -/
theorem getLast?_spots (h : e.Spotted) (hne : e ≠ .block []) :
    e.spots.getLast? = some e.right := by
  induction e with
  | literal | place | const => rfl
  | assign t v hv =>
      obtain ⟨hvalue, hvaluene⟩ := h.operand (x := v) (by simp [operands])
      rw [spots, List.getLast?_cons, hv hvalue hvaluene, Option.getD_some, right]
  | block es ih =>
      cases es with
      | nil => exact absurd rfl hne
      | cons y ys =>
          have hparts : ∀ x ∈ y :: ys, x.spots.getLast? = some x.right := fun x hx =>
            ih x hx (h.operand hx).1 (h.operand hx).2
          obtain ⟨s, hs⟩ : ∃ s, (spotsList (y :: ys)).getLast? = some s := by
            simp [spotsList, hparts y]
          rw [right, ← getLast?_spotsList 0 hparts, spots, hs, Option.getD_some]
  | loop c b hc hb =>
      obtain ⟨htest, htestne⟩ := h.operand (x := c) (by simp [operands])
      have hbody : b.Spotted := h.branch ⟨0 + 1 + c.size, by simp [branches]⟩
      rw [right, orSpot_right hbody (hb hbody), spots, List.getLast?_append, hc htest htestne]
      cases b.spots.getLast? <;> rfl
  | cond c t f hc ht hf =>
      obtain ⟨htest, htestne⟩ := h.operand (x := c) (by simp [operands])
      have hyes : t.Spotted := h.branch ⟨0 + 1 + c.size, by simp [branches]⟩
      have hno : ∀ x ∈ f, x.Spotted := fun x hx =>
        h.branch ⟨0 + 1 + c.size + t.size, by simp [branches, Option.mem_def.mp hx]⟩
      rw [right, orSpot_rightOfElse hyes (ht hyes) hno fun x hx => hf x hx (hno x hx), spots,
        List.getLast?_append, hc htest htestne]
      cases (t.spots ++ spotsOption f).getLast? <;> rfl
  | call r n as p hr has =>
      have hparts : ∀ x ∈ as, x.spots.getLast? = some x.right := fun x hx =>
        have hx' : x ∈ operands (.call r n as p) := List.mem_append_right _ hx
        has x hx (h.operand hx').1 (h.operand hx').2
      rw [right, ← getLast?_spotsList n.spot hparts, spots, List.getLast?_append,
        List.getLast?_cons, Option.some_or]
  | method n ps b hb =>
      have hbody : b.Spotted := h.branch ⟨0 + 1, by simp [branches]⟩
      rw [right, orSpot_right hbody (hb hbody), spots, List.getLast?_cons]
  | klass n b hb =>
      have hbody : b.Spotted := h.branch ⟨0 + 1, by simp [branches]⟩
      rw [right, orSpot_right hbody (hb hbody), spots, List.getLast?_cons]

/-! ## Bounds -/

/-- In a tree that is spotted in the order of writing, every part but an empty block starts at
the least spot of the names and literals in it and ends at the greatest. -/
theorem Spotted.spans (h : e.Spotted) : ∀ x ∈ e.all, x ≠ .block [] →
    IsLeast {s | ∃ y ∈ x.all, y.spot? = some s} x.left ∧
      IsGreatest {s | ∃ y ∈ x.all, y.spot? = some s} x.right := by
  intro x hx hne
  obtain ⟨j, hj⟩ := (mem_all 0).mp hx
  have hspotted : x.Spotted := h.of_nodes hj
  have hordered := hspotted.ordered
  have hfirst := head?_spots hspotted hne
  have hlast := getLast?_spots hspotted hne
  simp only [← mem_spots]
  constructor
  · refine ⟨List.mem_of_head? hfirst, fun s hs => ?_⟩
    obtain ⟨rest, hrest⟩ := List.head?_eq_some_iff.mp hfirst
    rw [Set.mem_ofPred_eq, hrest] at hs
    rw [hrest] at hordered
    rcases List.mem_cons.mp hs with rfl | hs
    · exact le_rfl
    · exact (List.rel_of_pairwise_cons hordered hs).le
  · refine ⟨List.mem_of_getLast? hlast, fun s hs => ?_⟩
    obtain ⟨before, hbefore⟩ := List.getLast?_eq_some_iff.mp hlast
    rw [Set.mem_ofPred_eq, hbefore] at hs
    rw [hbefore] at hordered
    rcases List.mem_append.mp hs with hs | hs
    · exact ((List.pairwise_append.mp hordered).2.2 s hs _ (List.mem_singleton_self _)).le
    · exact (List.mem_singleton.mp hs).le

/-- A class with a method, the body of which is a loop around a conditional with an empty
branch, and with a call behind it whose receiver is an assignment. -/
def spanned : Expr :=
  .klass ⟨"Point", 1⟩ (.block [
    .method ⟨"scale", 2⟩ [⟨"by", 0⟩] (.block [
      .loop (.place ⟨.localVar, ⟨"by", 3⟩⟩) (.block [
        .cond (.const ⟨"Point", 4⟩) (.block []) (some (.block []))])]),
    .call (some (.assign ⟨.instanceVar, ⟨"x", 5⟩⟩ (.literal ⟨.int, .int 1, 6⟩))) ⟨"+", 7⟩
      [.cond (.literal ⟨.bool, .bool true, 8⟩) (.place ⟨.localVar, ⟨"y", 9⟩⟩) none] false])

theorem spanned_spotted : spanned.Spotted where
  filled := by decide +kernel
  positive := by decide +kernel
  ordered := by decide +kernel

theorem spans_spanned : spanned.Spotted ∧ ∀ x ∈ spanned.all, x ≠ .block [] →
    IsLeast {s | ∃ y ∈ x.all, y.spot? = some s} x.left ∧
      IsGreatest {s | ∃ y ∈ x.all, y.spot? = some s} x.right :=
  ⟨spanned_spotted, Spotted.spans spanned_spotted⟩

end TypeFlow.Expr
