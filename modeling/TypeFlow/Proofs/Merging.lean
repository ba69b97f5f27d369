import TypeFlow.Proofs.Changing
import TypeFlow.Proofs.Joining
import TypeFlow.Proofs.Searching

/-! # Merging is joining

As long as equality is an equivalence, and unions were built from all of their members, which
differ, two types have a least type that accounts for both, and that is what merging them gives. -/

namespace TypeFlow

namespace Heap

variable {h : Heap}

/-- Members that differ are added unless a kept one equals them. -/
theorem foldl_insertMember_eq_filter {xs kept : List Atom}
    (hxs : xs.Pairwise fun x y => ¬ h.Equal x y) :
    xs.foldl h.insertMember kept =
      kept ++ xs.filter fun y => ∀ x ∈ kept, ¬ h.Equal x y := by
  induction xs generalizing kept with
  | nil => simp
  | cons x xs ih =>
      obtain ⟨hx, hxs⟩ := List.pairwise_cons.mp hxs
      rw [List.foldl_cons, insertMember_eq, List.filter_cons]
      by_cases hin : ∃ k ∈ kept, h.Equal k x
      · have hnot : ¬ ∀ k ∈ kept, ¬ h.Equal k x := by simpa using hin
        simp only [hin, hnot, if_true, decide_false, Bool.false_eq_true, if_false]
        exact ih hxs
      · have hall : ∀ k ∈ kept, ¬ h.Equal k x := by simpa using hin
        have hrest : xs.filter (fun y => ∀ k ∈ kept ++ [x], ¬ h.Equal k y) =
            xs.filter fun y => ∀ k ∈ kept, ¬ h.Equal k y := by
          refine List.filter_congr fun y hy => ?_
          simp [or_imp, forall_and, hx y hy]
        rw [if_neg hin, ih hxs, hrest, if_pos (decide_eq_true hall), List.append_assoc,
          List.singleton_append]

end Heap

namespace Ty.Proper

variable {h : Heap} {a b c : Ty}

/-- A join lists the members of the first type in their order, and after them those of the second
type that equal none of them. -/
theorem members_merge (ha : a.Proper h) (hb : b.Proper h) :
    (h.merge a b).members =
      a.members ++ b.members.filter fun y => ∀ x ∈ a.members, ¬ h.Equal x y := by
  have hself : a.members.foldl h.insertMember [] = [] ++ a.members :=
    Heap.foldl_insertMember_of_apart ha.apart
  have hdistinct : h.distinct (a.members ++ b.members) =
      a.members ++ b.members.filter fun y => ∀ x ∈ a.members, ¬ h.Equal x y := by
    rw [Heap.distinct, List.foldl_append, hself, List.nil_append,
      Heap.foldl_insertMember_eq_filter hb.apart]
  by_cases hsame : h.same a b = true
  · have hnone : b.members.filter (fun y => ∀ x ∈ a.members, ¬ h.Equal x y) = [] := by
      refine List.filter_eq_nil_iff.mpr fun y hy hall => ?_
      obtain ⟨x, hx, hxy⟩ := Heap.covers_of_same ha.full hb.full hsame y hy
      exact of_decide_eq_true hall x hx hxy
    rw [Heap.merge, if_pos hsame, hnone, List.append_nil]
  · rw [Heap.merge, if_neg hsame, Heap.members_ofMembers, hdistinct]

/-- A union that a join makes is one that can be built from its members. -/
theorem union?_merge (ha : a.Proper h) (hmixed : (h.merge a b).isMixed = true) :
    h.union? ((h.merge a b).members.map Ty.one) = some (h.merge a b) := by
  have hproper := ha.merge (b := b)
  have hatoms : ∀ xs : List Atom, (xs.map Ty.one).mapM Ty.atom? = some xs := by
    intro xs
    induction xs with
    | nil => rfl
    | cons x xs ih => simp [List.mapM_cons, ih, Ty.atom?]
  have hkeep : h.distinct (h.merge a b).members = [] ++ (h.merge a b).members :=
    Heap.foldl_insertMember_of_apart hproper.apart
  have hlen : ¬ ((h.merge a b).members.map Ty.one).length < 2 := by
    have hlong : 1 < (h.merge a b).members.length := of_decide_eq_true hmixed
    rw [List.length_map]
    omega
  rw [Heap.union?, if_neg hlen, hatoms, Option.map_some, hkeep, List.nil_append]
  cases heq : h.merge a b with
  | one x =>
      rw [heq] at hmixed
      cases hmixed
  | union ms key =>
      have hfull : key = ms := by
        have hjoin := hproper.full
        rw [heq] at hjoin
        exact hjoin
      rw [hfull]
      rfl

section equal

variable (hequal : Equivalence h.Equal)
include hequal

/-- Types are equal just when each accounts for the other. -/
theorem same_iff_covers (ha : a.Proper h) (hb : b.Proper h) :
    h.same a b = true ↔ a.Covers h.Equal b ∧ b.Covers h.Equal a := by
  refine ⟨fun hsame => ?_, fun ⟨hab, hba⟩ => ha.same_of_covers hequal hb hab hba⟩
  have hcov := Heap.covers_of_same ha.full hb.full hsame
  have hlen : a.members.length = b.members.length := by
    cases a with
    | one x =>
        cases b with
        | one y => rfl
        | union => simp [Heap.same, Ty.sameBy] at hsame
    | union ms key =>
        cases b with
        | one y => simp [Heap.same, Ty.sameBy] at hsame
        | union ns key' =>
            obtain rfl : key = ms := ha.full
            obtain rfl : key' = ns := hb.full
            simp only [Heap.same, Ty.sameBy, Bool.and_eq_true, beq_iff_eq] at hsame
            exact hsame.1
  refine ⟨hcov, fun x hx => ?_⟩
  obtain ⟨y, hy, hxy⟩ := covers_of_length_le hequal hb.apart hcov hlen.le x hx
  exact ⟨y, hy, hequal.symm hxy⟩

omit hequal in
/-- A type that accounts for both parts of a join accounts for the join. -/
theorem covers_merge (hac : c.Covers h.Equal a) (hbc : c.Covers h.Equal b) :
    c.Covers h.Equal (h.merge a b) := fun x hx =>
  (Heap.mem_of_mem_merge hx).elim (hac x) (hbc x)

theorem merge_comm (ha : a.Proper h) (hb : b.Proper h) :
    h.same (h.merge a b) (h.merge b a) = true := by
  obtain ⟨haba, habb⟩ := Heap.merge_covers (h := h) ha.full hb.full
  obtain ⟨hbab, hbaa⟩ := Heap.merge_covers (h := h) hb.full ha.full
  exact (same_iff_covers hequal ha.merge hb.merge).mpr
    ⟨covers_merge habb haba, covers_merge hbaa hbab⟩

theorem merge_assoc (ha : a.Proper h) (hb : b.Proper h) (hc : c.Proper h) :
    h.same (h.merge (h.merge a b) c) (h.merge a (h.merge b c)) = true := by
  have htrans : ∀ {T U V : Ty}, T.Covers h.Equal U → U.Covers h.Equal V → T.Covers h.Equal V :=
    fun hTU hUV => hTU.trans hUV fun _ _ _ hxy hyz => hequal.trans hxy hyz
  obtain ⟨haba, habb⟩ := Heap.merge_covers (h := h) ha.full hb.full
  obtain ⟨hbcb, hbcc⟩ := Heap.merge_covers (h := h) hb.full hc.full
  obtain ⟨hleft, hlc⟩ := Heap.merge_covers (h := h) (ha.merge (b := b)).full hc.full
  obtain ⟨hra, hright⟩ := Heap.merge_covers (h := h) ha.full (hb.merge (b := c)).full
  refine (same_iff_covers hequal ha.merge.merge ha.merge).mpr ⟨?_, ?_⟩
  · exact covers_merge (htrans hleft haba) (covers_merge (htrans hleft habb) hlc)
  · exact covers_merge (covers_merge hra (htrans hright hbcb)) (htrans hright hbcc)

/-- A join equals the first type just when that accounts for the second one. -/
theorem merge_same_iff (ha : a.Proper h) (hb : b.Proper h) :
    h.same (h.merge a b) a = true ↔ a.Covers h.Equal b := by
  constructor
  · intro hsame
    have hcov := ((same_iff_covers hequal ha.merge ha).mp hsame).2
    exact hcov.trans (Heap.merge_covers ha.full hb.full).2
      fun _ _ _ hxy hyz => hequal.trans hxy hyz
  · intro hcov
    rw [ha.merge_eq_self hcov]
    exact h.same_self a

end equal

end Ty.Proper

/-! ## Joins -/

/-- Merging is a join: it is idempotent, commutative and associative up to equality, and gives a
type back just when that accounts for the other one. What it gives has the members of the first type
in their order, and then those of the second type that are new, and is a single type or one that
passes for a union of its members. -/
theorem Heap.merge_joins {h : Heap} (hequal : Equivalence h.Equal) {a b c : Ty}
    (ha : a.Proper h) (hb : b.Proper h) (hc : c.Proper h) :
    h.same (h.merge a a) a = true ∧
      h.same (h.merge a b) (h.merge b a) = true ∧
      h.same (h.merge (h.merge a b) c) (h.merge a (h.merge b c)) = true ∧
      (h.same (h.merge a b) a = true ↔
        ∀ y ∈ b.members, ∃ x ∈ a.members, h.sameAtom x y = true) ∧
      (h.merge a b).members =
        a.members ++ b.members.filter (fun y => ∀ x ∈ a.members, h.sameAtom x y = false) ∧
      (h.merge a b).members.Pairwise (fun x y => h.sameAtom x y = false) ∧
      (∀ y ∈ b.members, ∃ x ∈ (h.merge a b).members, h.sameAtom x y = true) ∧
      ((∃ x, h.merge a b = .one x) ∨
        h.union? ((h.merge a b).members.map Ty.one) = some (h.merge a b)) := by
  refine ⟨?_, ha.merge_comm hequal hb, ha.merge_assoc hequal hb hc, ha.merge_same_iff hequal hb,
    ?_, ?_, (merge_covers ha.full hb.full).2, ?_⟩
  · exact (ha.merge_same_iff hequal ha).mpr fun x hx => ⟨x, hx, hequal.refl x⟩
  · simpa [Equal] using ha.members_merge hb
  · exact (ha.merge (b := b)).apart.imp fun hxy => Bool.eq_false_iff.mpr hxy
  · cases hm : h.merge a b with
    | one x => exact .inl ⟨x, rfl⟩
    | union ms key =>
        have hmixed : (h.merge a b).isMixed = true := by
          rw [hm]
          have hwell := (ha.merge (b := b)).wellFormed
          rw [hm] at hwell
          exact decide_eq_true hwell
        exact .inr (hm ▸ ha.union?_merge hmixed)

/-- A list of nodes or an integer, a list of nodes, and a node or a string. -/
theorem Heap.merge_joins_chained :
    (Equivalence chained.Equal ∧
      (Ty.union [.obj 2, .prim "Int"] [.obj 2, .prim "Int"]).Proper chained ∧
      (Ty.obj 3).Proper chained ∧
      (Ty.union [.obj 0, .prim "Str"] [.obj 0, .prim "Str"]).Proper chained) ∧
    chained.same (chained.merge (.union [.obj 2, .prim "Int"] [.obj 2, .prim "Int"]) (.obj 3))
      (chained.merge (.obj 3) (.union [.obj 2, .prim "Int"] [.obj 2, .prim "Int"])) = true := by
  have hequal : Equivalence chained.Equal := sharp_chained.equivalence settles_chained
  have ha : (Ty.union [.obj 2, .prim "Int"] [.obj 2, .prim "Int"]).Proper chained :=
    ⟨rfl, le_refl 2, List.pairwise_pair.mpr (by decide +kernel)⟩
  have hb : (Ty.obj 3).Proper chained := proper_one chained (.obj 3)
  have hc : (Ty.union [.obj 0, .prim "Str"] [.obj 0, .prim "Str"]).Proper chained :=
    ⟨rfl, le_refl 2, List.pairwise_pair.mpr (by decide +kernel)⟩
  exact ⟨⟨hequal, ha, hb, hc⟩, (merge_joins hequal ha hb hc).2.1⟩

namespace Workbench

/-- Two object types are equal when a union of them is built, and differ when the next one is. -/
def outgrowing : List WorkbenchStep := [
  .prim "Int", .object "C", .object "C", .union [1, 2], .setField 2 "v" (some 0), .union [1, 2]]

theorem equivalence_outgrowing : Equivalence (run outgrowing).graph.heap.Equal := by
  apply Heap.equivalence_of_prims (run outgrowing).graph.bounded_heap
  · exact fun i _ => (namesFields_run outgrowing).heap i
  · intro i f hf t ht
    match i, hf with
    | 1, hf =>
        cases List.mem_singleton.mp hf
        cases ht
        exact ⟨"Int", rfl⟩

/-- The members of unions may differ now, while they did not when a union was built. Joining such a
union with one of the same members does not give it back. -/
theorem merge_of_outgrown :
    let h := (run outgrowing).graph.heap
    let s : Ty := .union [.obj 0, .obj 1] [.obj 0]
    let t : Ty := .union [.obj 0, .obj 1] [.obj 0, .obj 1]
    (run outgrowing).type? 3 = some s ∧ (run outgrowing).type? 5 = some t ∧
      Equivalence h.Equal ∧ h.sameAtom (.obj 0) (.obj 1) = false ∧
      (∀ y ∈ t.members, ∃ x ∈ s.members, h.sameAtom x y = true) ∧
      h.same (h.merge s t) s = false := by
  refine ⟨by decide +kernel, by decide +kernel, equivalence_outgrowing, by decide +kernel,
    fun y hy => ⟨y, hy, Heap.sameAtom_self _ y⟩, by decide +kernel⟩

end Workbench

end TypeFlow
