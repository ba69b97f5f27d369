import TypeFlow.Ty.Search
import TypeFlow.Proofs.Likeness

/-! # The search for a difference

The search ends, and takes out of the set of pairs under comparison all that it put there. What it
answers is the equality of types. -/

namespace TypeFlow

/-! ## Searches that leave the pairs as they found them -/

/-- A search that starts with some pairs under comparison ends with the same ones and an answer. -/
def Search.Answers (m : Search Bool) (assumed : List (ObjId × ObjId)) (r : Bool) : Prop :=
  m.run assumed = some (r, assumed)

namespace Search

variable {assumed : List (ObjId × ObjId)}

theorem Answers.bind {m : Search Bool} {f : Bool → Search Bool} {r s : Bool}
    (hm : m.Answers assumed r) (hf : (f r).Answers assumed s) : (m >>= f).Answers assumed s := by
  rw [Answers] at hm
  rw [Answers, StateT.run_bind, hm]
  exact hf

theorem answers_allM {α : Type} {p : α → Search Bool} {q : α → Bool} {xs : List α}
    (h : ∀ x ∈ xs, (p x).Answers assumed (q x)) : (xs.allM p).Answers assumed (xs.all q) := by
  induction xs with
  | nil => rfl
  | cons x xs ih =>
      have htail := ih fun y hy => h y (List.mem_cons_of_mem _ hy)
      refine (h x (List.mem_cons_self ..)).bind ?_
      rw [List.all_cons]
      cases q x with
      | true => exact htail
      | false => rfl

theorem answers_anyM {α : Type} {p : α → Search Bool} {q : α → Bool} {xs : List α}
    (h : ∀ x ∈ xs, (p x).Answers assumed (q x)) : (xs.anyM p).Answers assumed (xs.any q) := by
  induction xs with
  | nil => rfl
  | cons x xs ih =>
      have htail := ih fun y hy => h y (List.mem_cons_of_mem _ hy)
      refine (h x (List.mem_cons_self ..)).bind ?_
      rw [List.any_cons]
      cases q x with
      | true => rfl
      | false => exact htail

end Search

section answers

open Search

variable {assumed : List (ObjId × ObjId)} {objects : ObjId → ObjId → Search Bool}
  {r : ObjId → ObjId → Bool} (h : ∀ a b, (objects a b).Answers assumed (r a b))
include h

theorem Atom.answers_searchBy (x y : Atom) :
    (x.searchBy objects y).Answers assumed (x.sameBy r y) := by
  cases x <;> cases y
  · rfl
  · rfl
  · rfl
  · exact h _ _

theorem Ty.answers_searchBy (s t : Ty) : (s.searchBy objects t).Answers assumed (s.sameBy r t) := by
  cases s with
  | one a =>
      cases t with
      | one b => exact Atom.answers_searchBy h a b
      | union => rfl
  | union _ ka =>
      cases t with
      | one => rfl
      | union _ kb =>
          rw [Ty.searchBy, Ty.sameBy]
          cases ka.length == kb.length with
          | true => exact answers_allM fun y _ => answers_anyM fun x _ => x.answers_searchBy h y
          | false => rfl

theorem Ty.answers_searchOptionBy (s t : Option Ty) :
    (Ty.searchOptionBy objects s t).Answers assumed (Ty.sameOptionBy r s t) := by
  cases s <;> cases t
  · rfl
  · rfl
  · rfl
  · exact Ty.answers_searchBy h _ _

theorem answers_searchFieldsBy (fs gs : List (String × Option Ty)) :
    (searchFieldsBy objects fs gs).Answers assumed (sameFieldsBy r fs gs) := by
  rw [searchFieldsBy, sameFieldsBy]
  cases fs.length == gs.length with
  | false => rfl
  | true =>
      refine answers_allM fun f _ => ?_
      cases gs.lookup f.1 with
      | none => rfl
      | some t => exact Ty.answers_searchOptionBy h f.2 t

end answers

namespace Heap

variable {h : Heap}

/-- Fields that are not there on both sides are compared without opening any pair. -/
theorem answers_searchFields_of_unbounded (hb : h.Bounded) {a b : ObjId}
    (hab : ¬ (a < h.size ∧ b < h.size)) (objects : ObjId → ObjId → Search Bool)
    (r : ObjId → ObjId → Bool) (assumed : List (ObjId × ObjId)) :
    (searchFieldsBy objects (h.fields a) (h.fields b)).Answers assumed
      (sameFieldsBy r (h.fields a) (h.fields b)) := by
  have hnil : h.fields a = [] ∨ h.fields b = [] := by
    rcases Nat.lt_or_ge a h.size with ha | ha
    · exact .inr (hb b (Nat.le_of_not_lt fun hlt => hab ⟨ha, hlt⟩))
    · exact .inl (hb a ha)
  rw [searchFieldsBy, sameFieldsBy]
  rcases hnil with hnil | hnil <;> rw [hnil]
  · cases h.fields b <;> rfl
  · cases h.fields a <;> rfl

/-- A search that may go deeper than there are pairs to be opened has an answer. -/
theorem answers_searchObjects (hb : h.Bounded) (depth : Nat) (assumed : List (ObjId × ObjId))
    (hdepth : (h.unopened assumed).card < depth) (a b : ObjId) :
    (h.searchObjects depth a b).Answers assumed (h.sameObjectsWithin depth assumed a b) := by
  induction depth generalizing assumed a b with
  | zero => exact absurd hdepth (Nat.not_lt_zero _)
  | succ depth ih =>
      by_cases hself : a = b
      · simp [searchObjects, sameObjectsWithin, hself, Search.Answers]
      by_cases hname : h.name a = h.name b
      · by_cases hmem : (a, b) ∈ assumed
        · simp [searchObjects, sameObjectsWithin, hself, hname, hmem, Search.Answers]
        have hfields : (searchFieldsBy (h.searchObjects depth) (h.fields a) (h.fields b)).Answers
            ((a, b) :: assumed)
            (sameFieldsBy (h.sameObjectsWithin depth ((a, b) :: assumed)) (h.fields a)
              (h.fields b)) := by
          by_cases hlt : a < h.size ∧ b < h.size
          · have hopen : (a, b) ∈ h.unopened assumed := by simp [unopened, hlt, hmem]
            refine answers_searchFieldsBy (fun x y => ih _ ?_ x y) _ _
            have := card_unopened_cons hopen
            omega
          · exact answers_searchFields_of_unbounded hb hlt _ _ _
        rw [Search.Answers] at hfields ⊢
        simp [searchObjects, sameObjectsWithin, hself, hname, hmem, hfields]
      · simp [searchObjects, sameObjectsWithin, hself, hname, Search.Answers]

/-- The search for a difference between two types ends, leaves the pairs under comparison as it
found them, and answers whether the types are equal. Types that are alike are equal; equal types are
alike unless ways through their fields lead on for ever from both of them, and equality is not
symmetric. -/
theorem search_decides (h : Heap) (hh : h.Sharp) {s t : Ty} (hs : s.Sharp h) (ht : t.Sharp h)
    {depth : Nat} (hdepth : h.size * h.size < depth) :
    (∀ assumed, ∃ r, (h.search depth s t).Answers assumed r) ∧
      (h.search depth s t).Answers [] (h.same s t) ∧
      (h.AlikeTypes s t → h.same s t = true) ∧
      (s.Settles h ∨ t.Settles h ∨
          (∀ a b, h.sameObjects a b = true → h.sameObjects b a = true) →
        h.same s t = true → h.AlikeTypes s t) := by
  have hcard : ∀ assumed, (h.unopened assumed).card < depth := by
    intro assumed
    refine Nat.lt_of_le_of_lt ?_ hdepth
    simpa [unopened, Finset.card_product] using Finset.card_le_card
      (Finset.sdiff_subset (s := Finset.range h.size ×ˢ Finset.range h.size)
        (t := assumed.toFinset))
  have hends : ∀ assumed, (h.search depth s t).Answers assumed
      (s.sameBy (h.sameObjectsWithin depth assumed) t) := fun assumed =>
    Ty.answers_searchBy (answers_searchObjects hh.bounded depth assumed (hcard assumed)) s t
  refine ⟨fun assumed => ⟨_, hends assumed⟩, ?_, hh.same_of_alikeTypes hs ht,
    fun hexact hst => hh.alikeTypes_of_same hs ht hst hexact⟩
  have hobjects : h.sameObjectsWithin depth [] = h.sameObjects := by
    funext a b
    rw [Bool.eq_iff_iff, sameObjects_iff hh.bounded, sameObjectsWithin_iff hh.bounded (hcard [])]
  rw [same, ← hobjects]
  exact hends []

end Heap

/-! ## Object types that refer to themselves -/

/-- Two nodes that refer to themselves, and two lists of either a node or an integer. -/
def chained : Heap where
  size := 4
  name i := if i < 2 then "Node" else "List"
  fields
    | 0 => [("next", some (.obj 0))]
    | 1 => [("next", some (.obj 1))]
    | 2 => [("item", some (.union [.obj 0, .prim "Int"] [.obj 0, .prim "Int"]))]
    | 3 => [("item", some (.union [.prim "Int", .obj 1] [.prim "Int", .obj 1]))]
    | _ => []

theorem sharp_chained : chained.Sharp := by
  refine ⟨fun i hi => ?_, fun i => ?_, fun i f hf t ht => ?_⟩
  · match i, hi with
    | i + 4, _ => rfl
  · match i with
    | 0 | 1 | 2 | 3 => exact List.nodup_singleton _
    | _ + 4 => exact List.nodup_nil
  · match i, hf with
    | 0, hf | 1, hf =>
        cases List.mem_singleton.mp hf
        cases ht
        exact ⟨trivial, List.pairwise_singleton _ _⟩
    | 2, hf | 3, hf =>
        cases List.mem_singleton.mp hf
        cases ht
        exact ⟨rfl, by simp [Heap.AlikeAtoms, Atom.RelatedBy]⟩

theorem settles_chained (i : ObjId) : chained.Settles i := by
  refine Heap.settles_of_rank (fun i => if i < 2 then 0 else 1) ?_ ?_ i
  · rintro i j ⟨f, hf, hj⟩
    match i, hf with
    | 0, hf | 1, hf | 2, hf | 3, hf =>
        cases List.mem_singleton.mp hf
        cases hj <;> decide
  · rintro i j ⟨f, hf, t, ht, hj⟩
    match i, hf with
    | 0, hf | 1, hf =>
        cases List.mem_singleton.mp hf
        cases ht
        exact hj.elim
    | 2, hf | 3, hf =>
        cases List.mem_singleton.mp hf
        cases ht
        simp only [Ty.Lists, List.mem_cons, Atom.obj.injEq, List.not_mem_nil, or_false,
          reduceCtorEq, false_or] at hj
        subst hj
        decide

theorem search_decides_chained :
    (chained.Sharp ∧ (Ty.obj 2).Sharp chained ∧ (Ty.obj 3).Sharp chained ∧
      chained.size * chained.size < 17) ∧
    (∀ assumed, ∃ r, (chained.search 17 (.obj 2) (.obj 3)).Answers assumed r) ∧
    (chained.search 17 (.obj 2) (.obj 3)).Answers [] true ∧
    chained.AlikeTypes (.obj 2) (.obj 3) := by
  have hone : ∀ i, (Ty.obj i).Sharp chained := fun i => ⟨trivial, List.pairwise_singleton _ _⟩
  have hsame : chained.same (.obj 2) (.obj 3) = true := by decide +kernel
  obtain ⟨hends, hanswer, -, halike⟩ :=
    chained.search_decides sharp_chained (hone 2) (hone 3) (show _ < 17 by decide)
  rw [hsame] at hanswer
  exact ⟨⟨sharp_chained, hone 2, hone 3, by decide⟩, hends, hanswer,
    halike (.inl fun i _ => settles_chained i) hsame⟩

/-- Five object types of a class, of which two have no fields. -/
def tangled : Heap where
  size := 5
  name _ := "C"
  fields
    | 0 => [("u", some (.union [.obj 0, .obj 1] [.obj 0, .obj 1]))]
    | 2 => [("u", some (.union [.obj 2, .obj 3] [.obj 2, .obj 3]))]
    | 3 => [("u", some (.union [.obj 3, .obj 4] [.obj 3, .obj 4]))]
    | _ => []

/-- Equal types need not be alike, and equality need not be symmetric, even if no union lists two
members that are alike. The search takes the first object type to be equal to the second one while
it compares their fields, and thereby finds an equal member on the left for each one on the
right. -/
theorem same_of_not_alike :
    tangled.Sharp ∧ tangled.same (.obj 0) (.obj 2) = true ∧
      ¬ tangled.AlikeTypes (.obj 0) (.obj 2) ∧ tangled.same (.obj 2) (.obj 0) = false := by
  have hfields : ∀ {a b}, tangled.Alike a b →
      ((tangled.fields a).lookup "u").isSome = ((tangled.fields b).lookup "u").isSome :=
    fun h => h.isSome_lookup "u"
  have h23 : ¬ tangled.Alike 2 3 := by
    intro h
    have hunion : (tangled.fields 2).lookup "u" = some (some _) := rfl
    obtain ⟨x, hx, hx4⟩ := (h.of_lookup hunion rfl).2 (.obj 4) (by simp)
    rcases List.mem_pair.mp hx with rfl | rfl <;> exact absurd (hfields hx4) (by decide)
  have h02 : ¬ tangled.Alike 0 2 := by
    intro h
    have hunion : (tangled.fields 0).lookup "u" = some (some _) := rfl
    obtain ⟨y, hy, h1y⟩ := (h.of_lookup hunion rfl).1 (.obj 1) (by simp)
    rcases List.mem_pair.mp hy with rfl | rfl <;> exact absurd (hfields h1y) (by decide)
  have hpair : ∀ {a b}, ¬ tangled.Alike a b →
      (Ty.union [.obj a, .obj b] [.obj a, .obj b]).Sharp tangled :=
    fun h => ⟨rfl, List.pairwise_pair.mpr h⟩
  refine ⟨⟨fun i hi => ?_, fun i => ?_, fun i f hf t ht => ?_⟩, by decide +kernel, h02,
    by decide +kernel⟩
  · match i, hi with
    | i + 5, _ => rfl
  · match i with
    | 0 | 2 | 3 => exact List.nodup_singleton _
    | 1 | _ + 4 => exact List.nodup_nil
  · match i, hf with
    | 0, hf =>
        cases List.mem_singleton.mp hf
        cases ht
        exact hpair fun h => absurd (hfields h) (by decide)
    | 2, hf =>
        cases List.mem_singleton.mp hf
        cases ht
        exact hpair h23
    | 3, hf =>
        cases List.mem_singleton.mp hf
        cases ht
        exact hpair fun h => absurd (hfields h) (by decide)

end TypeFlow
