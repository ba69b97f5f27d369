import TypeFlow.Proofs.Likeness

/-! # Types whose members differ

As long as equality is an equivalence, a type is as good as the classes of its members: types are
equal if each accounts for the other, and joining them joins the classes. -/

namespace TypeFlow

/-- The members of a type differ, and a union was built from all of them. -/
structure Ty.Proper (h : Heap) (t : Ty) : Prop where
  full : t.Full
  wellFormed : t.WellFormed
  apart : t.members.Pairwise fun x y => ¬ h.Equal x y

namespace Heap

variable {h : Heap}

instance : DecidableRel h.Equal := fun a b => inferInstanceAs (Decidable (h.sameAtom a b = true))

theorem proper_one (h : Heap) (a : Atom) : (Ty.one a).Proper h := ⟨trivial, trivial, by simp⟩

/-! ## Keeping unequal members -/

theorem insertMember_eq (kept : List Atom) (x : Atom) :
    h.insertMember kept x = if ∃ k ∈ kept, h.Equal k x then kept else kept ++ [x] :=
  if_congr (by simp [Equal]) rfl rfl

theorem pairwise_insertMember {kept : List Atom} (hk : kept.Pairwise fun x y => ¬ h.Equal x y)
    (x : Atom) : (h.insertMember kept x).Pairwise fun x y => ¬ h.Equal x y := by
  rw [insertMember_eq]
  split
  · exact hk
  · next hnew =>
      refine List.pairwise_append.mpr ⟨hk, by simp, fun k hkept y hy heq => hnew ⟨k, hkept, ?_⟩⟩
      rwa [List.mem_singleton.mp hy] at heq

/-- The members that are kept differ. -/
theorem pairwise_distinct (xs : List Atom) :
    (h.distinct xs).Pairwise fun x y => ¬ h.Equal x y := by
  suffices hfold : ∀ kept : List Atom, (kept.Pairwise fun x y => ¬ h.Equal x y) →
      (xs.foldl h.insertMember kept).Pairwise fun x y => ¬ h.Equal x y from hfold [] .nil
  induction xs with
  | nil => exact fun _ hk => hk
  | cons x xs ih => exact fun _ hk => ih _ (pairwise_insertMember hk x)

/-- Members that differ are all kept. -/
theorem foldl_insertMember_of_apart {xs kept : List Atom}
    (hxs : (kept ++ xs).Pairwise fun x y => ¬ h.Equal x y) :
    xs.foldl h.insertMember kept = kept ++ xs := by
  induction xs generalizing kept with
  | nil => simp
  | cons x xs ih =>
      have hnew : ¬ ∃ k ∈ kept, h.Equal k x := by
        rintro ⟨k, hk, heq⟩
        exact (List.pairwise_append.mp hxs).2.2 k hk x (List.mem_cons_self ..) heq
      rw [List.foldl_cons, insertMember_eq, if_neg hnew, ih (by simpa using hxs)]
      simp

/-- Members that equal kept ones are all dropped. -/
theorem foldl_insertMember_of_covered {xs kept : List Atom}
    (hxs : ∀ x ∈ xs, ∃ k ∈ kept, h.Equal k x) : xs.foldl h.insertMember kept = kept := by
  induction xs with
  | nil => rfl
  | cons x xs ih =>
      rw [List.foldl_cons, insertMember_eq, if_pos (hxs x (List.mem_cons_self ..))]
      exact ih fun y hy => hxs y (List.mem_cons_of_mem _ hy)

end Heap

namespace Ty.Proper

variable {h : Heap} {a b : Ty}

theorem members_ne_nil (ha : a.Proper h) : a.members ≠ [] := by
  cases a with
  | one => simp
  | union ms key =>
      have hlen : 2 ≤ ms.length := ha.wellFormed
      rintro rfl
      simp at hlen

/-- A type is given by its members. -/
theorem ofMembers_eq (ha : a.Proper h) : Heap.ofMembers a.members = a := by
  cases a with
  | one => rfl
  | union ms key =>
      obtain rfl : key = ms := ha.full
      have hlen : 2 ≤ key.length := ha.wellFormed
      cases key with
      | nil => simp at hlen
      | cons x xs =>
          cases xs with
          | nil => simp at hlen
          | cons => rfl

/-- Joining with a type that is accounted for changes nothing. -/
theorem merge_eq_self (ha : a.Proper h) (hcov : a.Covers h.Equal b) : h.merge a b = a := by
  have hkeep : h.distinct (a.members ++ b.members) = a.members := by
    have hself : a.members.foldl h.insertMember [] = [] ++ a.members :=
      Heap.foldl_insertMember_of_apart ha.apart
    rw [Heap.distinct, List.foldl_append, hself, List.nil_append]
    exact Heap.foldl_insertMember_of_covered hcov
  rw [Heap.merge, hkeep, ha.ofMembers_eq]
  split <;> rfl

theorem merge (ha : a.Proper h) : (h.merge a b).Proper h := by
  rw [Heap.merge]
  split
  · exact ha
  · have hne : h.distinct (a.members ++ b.members) ≠ [] :=
      h.distinct_ne_nil (by simp [ha.members_ne_nil])
    refine ⟨Heap.full_ofMembers _, ?_, ?_⟩
    · unfold Heap.ofMembers
      split
      · trivial
      · next hone =>
          change 2 ≤ _
          rcases hd : h.distinct (a.members ++ b.members) with _ | ⟨x, _ | ⟨y, ys⟩⟩
          · exact (hne hd).elim
          · exact (hone x hd).elim
          · simp
    · rw [Heap.members_ofMembers]
      exact Heap.pairwise_distinct _

end Ty.Proper

/-! ## Equal types -/

section equal

variable {h : Heap} (hequal : Equivalence h.Equal)
include hequal

/-- Types are equal if each accounts for the other. -/
theorem Ty.Proper.same_of_covers {a b : Ty} (ha : a.Proper h) (hb : b.Proper h)
    (hab : a.Covers h.Equal b) (hba : b.Covers h.Equal a) : h.same a b = true := by
  have hlen : a.members.length = b.members.length :=
    Nat.le_antisymm (length_le_of_covers hequal ha.apart hba)
      (length_le_of_covers hequal hb.apart hab)
  cases a with
  | one x =>
      cases b with
      | one y =>
          obtain ⟨z, hz, hzy⟩ := hab y (by simp)
          cases List.mem_singleton.mp hz
          exact hzy
      | union ms key =>
          have hlong : 2 ≤ ms.length := hb.wellFormed
          simp only [Ty.members_one, Ty.members_union, List.length_singleton] at hlen
          omega
  | union ms key =>
      obtain rfl : key = ms := ha.full
      cases b with
      | one y =>
          have hlong : 2 ≤ key.length := ha.wellFormed
          simp only [Ty.members_one, Ty.members_union, List.length_singleton] at hlen
          omega
      | union ms' key' =>
          obtain rfl : key' = ms' := hb.full
          simp only [Heap.same, Ty.sameBy, Bool.and_eq_true, beq_iff_eq, List.all_eq_true,
            List.any_eq_true]
          exact ⟨hlen, hab⟩

end equal

end TypeFlow
