import TypeFlow.Proofs.Reactions
import Mathlib.Data.Finset.Card
import Mathlib.Data.Finset.Lattice.Lemmas

/-! # Types by the names of their members

Object types without fields are equal when they have one name. As long as there are no fields, a
type is therefore as good as the set of the names of its members, and joining types is joining
sets. -/

namespace TypeFlow

/-- A concrete type by its name. -/
inductive Tag where
  | prim (name : String)
  | obj (klass : String)
  deriving DecidableEq

namespace Heap

/-- No object type has a field. -/
def Flat (h : Heap) : Prop := ∀ i, h.fields i = []

def tag (h : Heap) : Atom → Tag
  | .prim n => .prim n
  | .obj i => .obj (h.name i)

/-- The names of the members of a type. -/
def tags (h : Heap) (t : Ty) : Finset Tag := (t.members.map h.tag).toFinset

def tagRow (h : Heap) (ts : List (Option Ty)) : List (Option (Finset Tag)) :=
  ts.map fun t => t.map h.tags

variable {h : Heap}

theorem mem_tags {t : Ty} {x : Tag} : x ∈ h.tags t ↔ ∃ a ∈ t.members, h.tag a = x := by
  simp [tags]

@[simp] theorem tags_one (a : Atom) : h.tags (.one a) = {h.tag a} := rfl

end Heap

/-- The members of a type differ by name, and a union was built from all of them. -/
def Ty.Normal (h : Heap) (t : Ty) : Prop :=
  (t.members.map h.tag).Nodup ∧
    match t with
    | .one _ => True
    | .union ms key => key = ms ∧ 2 ≤ ms.length

theorem Ty.Normal.one (h : Heap) (a : Atom) : (Ty.one a).Normal h :=
  ⟨List.nodup_singleton _, trivial⟩

theorem Ty.Normal.wellFormed {h : Heap} {t : Ty} (ht : t.Normal h) : t.WellFormed := by
  cases t with
  | one => trivial
  | union => exact ht.2.2

theorem Ty.Normal.members_ne_nil {h : Heap} {t : Ty} (ht : t.Normal h) : t.members ≠ [] := by
  cases t with
  | one => simp
  | union ms key =>
      rintro rfl
      simpa using ht.2.2

theorem Ty.Normal.card_tags {h : Heap} {t : Ty} (ht : t.Normal h) :
    (h.tags t).card = t.members.length := by
  rw [Heap.tags, List.toFinset_card_of_nodup ht.1, List.length_map]

namespace Heap.Flat

variable {h : Heap} (hf : h.Flat)
include hf

/-! ## Equality -/

theorem sameObjects (a b : ObjId) : h.sameObjects a b = (h.name a == h.name b) := by
  rw [Heap.sameObjects, sameObjectsWithin]
  by_cases hab : a = b
  · simp [hab]
  · simp [hab, hf a, hf b, sameFieldsBy]

theorem sameAtom_iff {a b : Atom} : h.sameAtom a b = true ↔ h.tag a = h.tag b := by
  cases a <;> cases b <;> simp [Heap.sameAtom, Atom.sameBy, hf.sameObjects, tag]

/-- Types are equal if they have the same members by name. -/
theorem same_iff {a b : Ty} (ha : a.Normal h) (hb : b.Normal h) :
    h.same a b = true ↔ h.tags a = h.tags b := by
  have hcarda := ha.card_tags
  have hcardb := hb.card_tags
  cases a with
  | one x =>
      cases b with
      | one y =>
          rw [tags_one, tags_one, Finset.singleton_inj, ← hf.sameAtom_iff]
          rfl
      | union ms key =>
          refine ⟨fun hs => Bool.noConfusion hs, fun heq => ?_⟩
          have hlen := hb.2.2
          rw [heq, hcardb] at hcarda
          simp at hcarda
          omega
  | union ms key =>
      cases b with
      | one y =>
          refine ⟨fun hs => Bool.noConfusion hs, fun heq => ?_⟩
          have hlen := ha.2.2
          rw [← heq, hcarda] at hcardb
          simp at hcardb
          omega
      | union ns key' =>
          obtain ⟨rfl, -⟩ := ha.2
          obtain ⟨rfl, -⟩ := hb.2
          simp only [Ty.members_union] at hcarda hcardb
          have hsame : h.same (.union key key) (.union key' key') = true ↔
              key.length = key'.length ∧ h.tags (.union key' key') ⊆ h.tags (.union key key) := by
            simp only [same, Ty.sameBy, Bool.and_eq_true, beq_iff_eq, List.all_eq_true,
              List.any_eq_true]
            refine and_congr_right fun _ => ?_
            constructor
            · intro hall x hx
              obtain ⟨y, hy, rfl⟩ := mem_tags.mp hx
              obtain ⟨z, hz, hzy⟩ := hall y hy
              exact mem_tags.mpr ⟨z, hz, hf.sameAtom_iff.mp hzy⟩
            · intro hsub y hy
              obtain ⟨z, hz, hzy⟩ := mem_tags.mp (hsub (mem_tags.mpr ⟨y, hy, rfl⟩))
              exact ⟨z, hz, hf.sameAtom_iff.mpr hzy⟩
          rw [hsame]
          constructor
          · rintro ⟨hlen, hsub⟩
            exact (Finset.eq_of_subset_of_card_le hsub (by rw [hcarda, hcardb, hlen])).symm
          · intro heq
            refine ⟨by rw [← hcarda, heq, hcardb], by rw [heq]⟩

theorem sameOption_iff {a b : Option Ty} (ha : ∀ t ∈ a, t.Normal h) (hb : ∀ t ∈ b, t.Normal h) :
    h.sameOption a b = true ↔ a.map h.tags = b.map h.tags := by
  cases a with
  | none => cases b <;> simp [sameOption, Ty.sameOptionBy]
  | some x =>
      cases b with
      | none => simp [sameOption, Ty.sameOptionBy]
      | some y =>
          rw [Option.map_some, Option.map_some, Option.some.injEq,
            ← hf.same_iff (ha x rfl) (hb y rfl)]
          rfl

/-- Rows of types are equal if their members have the same names throughout. -/
theorem sameRow_iff {as bs : List (Option Ty)} (ha : ∀ a ∈ as, ∀ t ∈ a, t.Normal h)
    (hb : ∀ b ∈ bs, ∀ t ∈ b, t.Normal h) :
    h.sameRow as bs = true ↔ h.tagRow as = h.tagRow bs := by
  induction as generalizing bs with
  | nil => cases bs <;> simp [sameRow, tagRow]
  | cons a as ih =>
      cases bs with
      | nil => simp [sameRow, tagRow]
      | cons b bs =>
          rw [sameRow, Bool.and_eq_true, hf.sameOption_iff (ha a (by simp)) (hb b (by simp)),
            ih (fun x hx => ha x (by simp [hx])) fun x hx => hb x (by simp [hx])]
          simp [tagRow]

/-! ## Joining -/

theorem insertMember_tags {kept : List Atom} (hk : (kept.map h.tag).Nodup) (x : Atom) :
    ((h.insertMember kept x).map h.tag).Nodup ∧
      ((h.insertMember kept x).map h.tag).toFinset =
        insert (h.tag x) (kept.map h.tag).toFinset := by
  have hany : kept.any (h.sameAtom · x) = true ↔ h.tag x ∈ kept.map h.tag := by
    simp [hf.sameAtom_iff]
  unfold insertMember
  split
  · next hin =>
      refine ⟨hk, ?_⟩
      rw [Finset.insert_eq_of_mem (by simpa using hany.mp hin)]
  · next hout =>
      have hx : h.tag x ∉ kept.map h.tag := fun hx => hout (hany.mpr hx)
      rw [List.map_append, List.map_cons, List.map_nil]
      refine ⟨?_, ?_⟩
      · refine List.nodup_append.mpr ⟨hk, List.nodup_singleton _, ?_⟩
        rintro y hy z hz rfl
        exact hx (List.mem_singleton.mp hz ▸ hy)
      · ext y
        simp

theorem distinct_tags (xs : List Atom) :
    ((h.distinct xs).map h.tag).Nodup ∧
      ((h.distinct xs).map h.tag).toFinset = (xs.map h.tag).toFinset := by
  suffices hfold : ∀ kept : List Atom, (kept.map h.tag).Nodup →
      ((xs.foldl h.insertMember kept).map h.tag).Nodup ∧
        ((xs.foldl h.insertMember kept).map h.tag).toFinset =
          (kept.map h.tag).toFinset ∪ (xs.map h.tag).toFinset by
    simpa [distinct] using hfold [] .nil
  induction xs with
  | nil =>
      intro kept hk
      simpa using hk
  | cons x xs ih =>
      intro kept hk
      obtain ⟨hnodup, htags⟩ := hf.insertMember_tags hk x
      obtain ⟨hnodup', htags'⟩ := ih _ hnodup
      refine ⟨hnodup', ?_⟩
      rw [List.foldl_cons, htags', htags]
      ext y
      simp

/-- Joining types joins the names of their members. -/
theorem merge_tags {a b : Ty} (ha : a.Normal h) (hb : b.Normal h) :
    (h.merge a b).Normal h ∧ h.tags (h.merge a b) = h.tags a ∪ h.tags b := by
  unfold merge
  split
  · next hs => exact ⟨ha, by rw [(hf.same_iff ha hb).mp hs, Finset.union_idempotent]⟩
  · obtain ⟨hnodup, htags⟩ := hf.distinct_tags (a.members ++ b.members)
    have hunion : ((h.distinct (a.members ++ b.members)).map h.tag).toFinset =
        h.tags a ∪ h.tags b := by
      rw [htags, List.map_append, List.toFinset_append]
      rfl
    have hne := h.distinct_ne_nil (List.append_ne_nil_of_left_ne_nil ha.members_ne_nil b.members)
    revert hnodup hunion hne
    match h.distinct (a.members ++ b.members) with
    | [] => exact fun _ _ hne => (hne rfl).elim
    | [x] => exact fun _ hunion _ => ⟨.one h x, hunion⟩
    | x :: y :: xs => exact fun hnodup hunion _ => ⟨⟨hnodup, rfl, by simp⟩, hunion⟩

end Heap.Flat

end TypeFlow
