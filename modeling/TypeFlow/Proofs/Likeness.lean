import TypeFlow.Proofs.Telling
import Mathlib.Data.Option.Basic
import Mathlib.Data.Finset.Card
import Mathlib.Logic.Relation

/-! # Types that are alike

Two types are alike if no way through their fields tells them apart, where unions may list their
members in any order and number. Being alike is an equivalence. As long as no union lists two
members that are alike, the comparison finds all types that are alike. It may find more: a union is
compared by the number of its members and in one direction only, which suffices as long as no way
through the fields leads from one union into the next for ever. -/

namespace TypeFlow

/-! ## Members that differ -/

section apart

variable {α : Type} {R : α → α → Prop} (hR : Equivalence R) {xs ys : List α}
  (hxs : xs.Pairwise fun x y => ¬ R x y) (hcov : ∀ x ∈ xs, ∃ y ∈ ys, R y x)
include hR hxs hcov

/-- Members that differ are related to different ones. -/
theorem exists_injOn_of_covers [DecidableEq α] : xs.Nodup ∧ ∃ f : α → α,
    Set.MapsTo f xs.toFinset ys.toFinset ∧ Set.InjOn f xs.toFinset ∧ ∀ x ∈ xs, R (f x) x := by
  have hapart : ∀ x ∈ xs, ∀ y ∈ xs, R x y → x = y := by
    have hsymm : Std.Symm fun x y => ¬ R x y := ⟨fun _ _ hne heq => hne (hR.symm heq)⟩
    intro x hx y hy hxy
    by_contra hne
    exact hxs.forall hx hy hne hxy
  choose! f hf heq using hcov
  refine ⟨hxs.imp fun {x y} hne heq => hne (by rw [heq]; exact hR.refl y), f, ?_, ?_, heq⟩
  · intro x hx
    simpa using hf x (by simpa using hx)
  · intro x hx y hy hxy
    simp only [Finset.mem_coe, List.mem_toFinset] at hx hy
    have hfy := heq y hy
    rw [← hxy] at hfy
    exact hapart x hx y hy (hR.trans (hR.symm (heq x hx)) hfy)

/-- Members that differ are at most as many as those that account for them. -/
theorem length_le_of_covers : xs.length ≤ ys.length := by
  classical
  obtain ⟨hnodup, f, hmaps, hinj, -⟩ := exists_injOn_of_covers hR hxs hcov
  calc xs.length = xs.toFinset.card := (List.toFinset_card_of_nodup hnodup).symm
    _ ≤ ys.toFinset.card := Finset.card_le_card_of_injOn f hmaps hinj
    _ ≤ ys.length := ys.toFinset_card_le

/-- Members that differ account for those that account for them, unless these are more. -/
theorem covers_of_length_le (hlen : ys.length ≤ xs.length) : ∀ y ∈ ys, ∃ x ∈ xs, R y x := by
  classical
  obtain ⟨hnodup, f, hmaps, hinj, hf⟩ := exists_injOn_of_covers hR hxs hcov
  have hcard : ys.toFinset.card ≤ xs.toFinset.card := by
    rw [List.toFinset_card_of_nodup hnodup]
    exact ys.toFinset_card_le.trans hlen
  intro y hy
  obtain ⟨x, hx, rfl⟩ := Finset.surj_on_of_inj_on_of_card_le (fun x _ => f x)
    (fun x hx => hmaps hx) (fun x x' hx hx' h => hinj hx hx' h) hcard y (by simpa using hy)
  have hx : x ∈ xs := by simpa using hx
  exact ⟨x, hx, hf x hx⟩

end apart

/-! ## One level, given how object types are related -/

/-- Primitives are related when their names agree, and never to object types. -/
def Atom.RelatedBy (r : ObjId → ObjId → Prop) : Atom → Atom → Prop
  | .prim a, .prim b => a = b
  | .obj a, .obj b => r a b
  | _, _ => False

/-- Unions are related when every member of each is related to some member of the other. -/
def Ty.RelatedBy (r : ObjId → ObjId → Prop) : Ty → Ty → Prop
  | .one a, .one b => a.RelatedBy r b
  | .union ms _, .union ns _ =>
      (∀ x ∈ ms, ∃ y ∈ ns, x.RelatedBy r y) ∧ ∀ y ∈ ns, ∃ x ∈ ms, x.RelatedBy r y
  | _, _ => False

/-- The same fields are there, and those of one name are both without a type or of related types. -/
def FieldsRelatedBy (r : ObjId → ObjId → Prop) (fs gs : List (String × Option Ty)) : Prop :=
  ∀ name, Option.Rel (Option.Rel (Ty.RelatedBy r)) (fs.lookup name) (gs.lookup name)

section related

variable {r s t : ObjId → ObjId → Prop}

theorem Atom.RelatedBy.mono (hrs : ∀ a b, r a b → s a b) {x y : Atom} (h : x.RelatedBy r y) :
    x.RelatedBy s y := by
  cases x <;> cases y
  · exact h
  · exact h
  · exact h
  · exact hrs _ _ h

theorem Atom.RelatedBy.refl (hr : ∀ a, r a a) (x : Atom) : x.RelatedBy r x := by
  cases x with
  | prim => rfl
  | obj i => exact hr i

theorem Atom.RelatedBy.flip (hrs : ∀ a b, r a b → s b a) {x y : Atom} (h : x.RelatedBy r y) :
    y.RelatedBy s x := by
  cases x <;> cases y
  · exact Eq.symm h
  · exact h
  · exact h
  · exact hrs _ _ h

theorem Atom.RelatedBy.comp (ht : ∀ a b c, r a b → s b c → t a c) {x y z : Atom}
    (hxy : x.RelatedBy r y) (hyz : y.RelatedBy s z) : x.RelatedBy t z := by
  cases x <;> cases y <;> cases z <;>
    first
      | exact hxy.elim
      | exact hyz.elim
      | exact Eq.trans hxy hyz
      | exact ht _ _ _ hxy hyz

/-- Equal concrete types are related if their object types are. -/
theorem Atom.relatedBy_of_sameBy {p : ObjId → ObjId → Bool} {x y : Atom}
    (h : x.sameBy p y = true) (hr : ∀ i j, x = .obj i → y = .obj j → p i j = true → r i j) :
    x.RelatedBy r y := by
  cases x <;> cases y
  · exact beq_iff_eq.mp h
  · simp [Atom.sameBy] at h
  · simp [Atom.sameBy] at h
  · exact hr _ _ rfl rfl h

theorem Ty.RelatedBy.mono (hrs : ∀ a b, r a b → s a b) {x y : Ty} (h : x.RelatedBy r y) :
    x.RelatedBy s y := by
  cases x with
  | one a =>
      cases y with
      | one b => exact Atom.RelatedBy.mono hrs (x := a) (y := b) h
      | union => exact h
  | union ms =>
      cases y with
      | one => exact h
      | union ns =>
          refine ⟨fun x hx => ?_, fun y hy => ?_⟩
          · exact (h.1 x hx).imp fun y hy => ⟨hy.1, hy.2.mono hrs⟩
          · exact (h.2 y hy).imp fun x hx => ⟨hx.1, hx.2.mono hrs⟩

theorem Ty.RelatedBy.refl (hr : ∀ a, r a a) (x : Ty) : x.RelatedBy r x := by
  cases x with
  | one a => exact Atom.RelatedBy.refl hr a
  | union ms => exact ⟨fun x hx => ⟨x, hx, .refl hr x⟩, fun x hx => ⟨x, hx, .refl hr x⟩⟩

theorem Ty.RelatedBy.flip (hrs : ∀ a b, r a b → s b a) {x y : Ty} (h : x.RelatedBy r y) :
    y.RelatedBy s x := by
  cases x with
  | one a =>
      cases y with
      | one b => exact Atom.RelatedBy.flip hrs (x := a) (y := b) h
      | union => exact h
  | union ms =>
      cases y with
      | one => exact h
      | union ns =>
          refine ⟨fun y hy => ?_, fun x hx => ?_⟩
          · exact (h.2 y hy).imp fun x hx => ⟨hx.1, hx.2.flip hrs⟩
          · exact (h.1 x hx).imp fun y hy => ⟨hy.1, hy.2.flip hrs⟩

theorem Ty.RelatedBy.comp (ht : ∀ a b c, r a b → s b c → t a c) {x y z : Ty}
    (hxy : x.RelatedBy r y) (hyz : y.RelatedBy s z) : x.RelatedBy t z := by
  cases x with
  | one a =>
      cases y with
      | union => exact hxy.elim
      | one b =>
          cases z with
          | union => exact hyz.elim
          | one c => exact Atom.RelatedBy.comp ht (x := a) (y := b) (z := c) hxy hyz
  | union ms =>
      cases y with
      | one => exact hxy.elim
      | union ns =>
          cases z with
          | one => exact hyz.elim
          | union ks =>
              refine ⟨fun x hx => ?_, fun z hz => ?_⟩
              · obtain ⟨y, hy, hxy'⟩ := hxy.1 x hx
                obtain ⟨z, hz, hyz'⟩ := hyz.1 y hy
                exact ⟨z, hz, hxy'.comp ht hyz'⟩
              · obtain ⟨y, hy, hyz'⟩ := hyz.2 z hz
                obtain ⟨x, hx, hxy'⟩ := hxy.2 y hy
                exact ⟨x, hx, hxy'.comp ht hyz'⟩

end related

/-! ## Options and fields -/

section rel

variable {α β γ : Type} {p : α → β → Prop} {x : Option α} {y : Option β}

theorem rel_imp {q : α → β → Prop} (h : Option.Rel p x y)
    (hpq : ∀ a ∈ x, ∀ b ∈ y, p a b → q a b) : Option.Rel q x y := by
  cases h with
  | some h => exact .some (hpq _ rfl _ rfl h)
  | none => exact .none

theorem rel_of_mem (h : Option.Rel p x y) {a : α} {b : β} (ha : a ∈ x) (hb : b ∈ y) :
    p a b := by
  cases ha
  cases hb
  cases h with
  | some h => exact h

theorem rel_flip {q : β → α → Prop} (h : Option.Rel p x y) (hpq : ∀ a b, p a b → q b a) :
    Option.Rel q y x := by
  cases h with
  | some h => exact .some (hpq _ _ h)
  | none => exact .none

theorem rel_comp {q : β → γ → Prop} {k : α → γ → Prop} {z : Option γ} (h : Option.Rel p x y)
    (h' : Option.Rel q y z) (hk : ∀ a b c, p a b → q b c → k a c) : Option.Rel k x z := by
  cases h with
  | some h =>
      cases h' with
      | some h' => exact .some (hk _ _ _ h h')
  | none =>
      cases h'
      exact .none

theorem rel_refl {q : α → α → Prop} (hq : ∀ a, q a a) (x : Option α) : Option.Rel q x x := by
  cases x with
  | some a => exact .some (hq a)
  | none => exact .none

end rel

theorem sameOptionBy_iff {r : ObjId → ObjId → Bool} {x y : Option Ty} :
    Ty.sameOptionBy r x y = true ↔ Option.Rel (fun s t => s.sameBy r t = true) x y := by
  constructor
  · intro h
    cases x <;> cases y
    · exact .none
    · simp [Ty.sameOptionBy] at h
    · simp [Ty.sameOptionBy] at h
    · exact .some h
  · rintro (h | _)
    · exact h
    · rfl

/-- Fields agree if those of one name do, as long as no name occurs twice. -/
theorem sameFieldsBy_iff_lookup {r : ObjId → ObjId → Bool} {fs gs : List (String × Option Ty)}
    (hf : (fs.map (·.1)).Nodup) (hg : (gs.map (·.1)).Nodup) :
    sameFieldsBy r fs gs = true ↔ ∀ name,
      Option.Rel (Option.Rel fun s t => s.sameBy r t = true) (fs.lookup name) (gs.lookup name) := by
  have hfound : ∀ {ks : List (String × Option Ty)} {name : String},
      name ∈ ks.map (·.1) ↔ ∃ t, ks.lookup name = some t := by
    intro ks name
    constructor
    · intro hmem
      cases hl : ks.lookup name with
      | some t => exact ⟨t, rfl⟩
      | none =>
          obtain ⟨e, he, rfl⟩ := List.mem_map.mp hmem
          simpa using Table.ne_of_lookup_none hl he
    · rintro ⟨t, ht⟩
      exact List.mem_map_of_mem (f := (·.1)) (Table.mem_of_lookup ht)
  rw [sameFieldsBy_iff]
  constructor
  · rintro ⟨hlen, hall⟩ name
    have hsub : fs.map (·.1) ⊆ gs.map (·.1) := by
      intro x hx
      obtain ⟨e, he, rfl⟩ := List.mem_map.mp hx
      obtain ⟨t, ht, -⟩ := hall e he
      exact hfound.mpr ⟨t, ht⟩
    cases hs : fs.lookup name with
    | some s =>
        obtain ⟨t, ht, hst⟩ := hall _ (Table.mem_of_lookup hs)
        rw [ht]
        exact .some (sameOptionBy_iff.mp hst)
    | none =>
        -- As many names are there on both sides, so there are no other ones on the right.
        have hback : gs.map (·.1) ⊆ fs.map (·.1) :=
          ((List.subperm_of_subset hf hsub).perm_of_length_le (by simp [hlen])).symm.subset
        cases ht : gs.lookup name with
        | none => exact .none
        | some t =>
            obtain ⟨s, hs'⟩ := hfound.mp (hback (hfound.mpr ⟨t, ht⟩))
            rw [hs] at hs'
            cases hs'
  · intro hrel
    have hnames : ∀ name, name ∈ fs.map (·.1) ↔ name ∈ gs.map (·.1) := by
      intro name
      have hname := hrel name
      rw [hfound, hfound]
      generalize fs.lookup name = s, gs.lookup name = t at hname
      cases hname <;> simp
    refine ⟨?_, fun f hfs => ?_⟩
    · simpa using ((List.perm_ext_iff_of_nodup hf hg).mpr hnames).length_eq
    · have hl := Table.lookup_of_mem hf hfs
      have hname := hrel f.1
      rw [hl] at hname
      generalize hgl : gs.lookup f.1 = y at hname
      cases hname with
      | some h => exact ⟨_, rfl, sameOptionBy_iff.mpr h⟩

namespace Heap

/-! ## Being alike -/

/-- Object types that are related have one name and related fields. -/
def Respects (h : Heap) (r : ObjId → ObjId → Prop) : Prop :=
  ∀ a b, r a b → h.name a = h.name b ∧ FieldsRelatedBy r (h.fields a) (h.fields b)

/-- Object types are alike if any relation relates them that fields respect. -/
def Alike (h : Heap) (a b : ObjId) : Prop := ∃ r, h.Respects r ∧ r a b

variable {h : Heap}

/-- Fields respect being alike. -/
theorem respects_alike (h : Heap) : h.Respects h.Alike := by
  rintro a b ⟨r, hr, hab⟩
  obtain ⟨hname, hfields⟩ := hr a b hab
  have hle : ∀ x y, r x y → h.Alike x y := fun x y hxy => ⟨r, hr, hxy⟩
  exact ⟨hname, fun name => rel_imp (hfields name) fun s _ t _ hst =>
    rel_imp hst fun _ _ _ _ hxy => hxy.mono hle⟩

theorem alike_equivalence (h : Heap) : Equivalence h.Alike where
  refl a := by
    refine ⟨Eq, ?_, rfl⟩
    rintro a b rfl
    exact ⟨rfl, fun name => rel_refl (rel_refl (.refl fun _ => rfl)) _⟩
  symm := by
    rintro a b ⟨r, hr, hab⟩
    refine ⟨fun x y => r y x, fun x y hxy => ?_, hab⟩
    obtain ⟨hname, hfields⟩ := hr y x hxy
    exact ⟨hname.symm, fun name => rel_flip (hfields name) fun _ _ hst =>
      rel_flip hst fun _ _ hxy => hxy.flip fun _ _ hxy => hxy⟩
  trans := by
    rintro a b c ⟨r, hr, hab⟩ ⟨s, hs, hbc⟩
    refine ⟨fun x z => ∃ y, r x y ∧ s y z, ?_, b, hab, hbc⟩
    rintro x z ⟨y, hxy, hyz⟩
    obtain ⟨hname, hfields⟩ := hr x y hxy
    obtain ⟨hname', hfields'⟩ := hs y z hyz
    exact ⟨hname.trans hname', fun name => rel_comp (hfields name) (hfields' name)
      fun _ _ _ hst htu => rel_comp hst htu fun _ _ _ hxy hyz =>
        hxy.comp (fun u v w huv hvw => ⟨v, huv, hvw⟩) hyz⟩

/-- Object types that are alike have the same fields. -/
theorem Alike.isSome_lookup {a b : ObjId} (hab : h.Alike a b) (name : String) :
    ((h.fields a).lookup name).isSome = ((h.fields b).lookup name).isSome := by
  have hname := (h.respects_alike a b hab).2 name
  generalize (h.fields a).lookup name = s, (h.fields b).lookup name = t at hname
  cases hname <;> rfl

/-- Fields of one name that have a type have types that are alike. -/
theorem Alike.of_lookup {a b : ObjId} (hab : h.Alike a b) {name : String} {s t : Ty}
    (hs : (h.fields a).lookup name = some (some s)) (ht : (h.fields b).lookup name = some (some t)) :
    s.RelatedBy h.Alike t :=
  rel_of_mem (rel_of_mem ((h.respects_alike a b hab).2 name) hs ht) rfl rfl

/-- Being alike, between concrete types. -/
def AlikeAtoms (h : Heap) (x y : Atom) : Prop := x.RelatedBy h.Alike y

theorem alikeAtoms_equivalence (h : Heap) : Equivalence h.AlikeAtoms where
  refl x := .refl h.alike_equivalence.refl x
  symm hxy := hxy.flip fun _ _ hab => h.alike_equivalence.symm hab
  trans := Atom.RelatedBy.comp (r := h.Alike) (s := h.Alike) (t := h.Alike)
    fun _ _ _ => h.alike_equivalence.trans

/-- Being alike, between all types. -/
def AlikeTypes (h : Heap) (s t : Ty) : Prop := s.RelatedBy h.Alike t

theorem alikeTypes_equivalence (h : Heap) : Equivalence h.AlikeTypes where
  refl t := .refl h.alike_equivalence.refl t
  symm hst := hst.flip fun _ _ hab => h.alike_equivalence.symm hab
  trans := Ty.RelatedBy.comp (r := h.Alike) (s := h.Alike) (t := h.Alike)
    fun _ _ _ => h.alike_equivalence.trans

end Heap

/-! ## Unions of members that are not alike -/

/-- A union was built from all its members, and no two of them are alike. -/
structure Ty.Sharp (h : Heap) (t : Ty) : Prop where
  full : t.Full
  apart : t.members.Pairwise fun x y => ¬ h.AlikeAtoms x y

/-- No object type has two fields of one name, there are finitely many with fields, and each union
among the types of fields was built from members that are not alike. -/
structure Heap.Sharp (h : Heap) : Prop where
  bounded : h.Bounded
  names : ∀ i, ((h.fields i).map (·.1)).Nodup
  unions : ∀ i, ∀ f ∈ h.fields i, ∀ t ∈ f.2, t.Sharp h

/-- A union lists an object type. -/
def Ty.Lists : Ty → ObjId → Prop
  | .one _, _ => False
  | .union ms _, i => .obj i ∈ ms

theorem Ty.Lists.mem {t : Ty} {i : ObjId} (h : t.Lists i) : .obj i ∈ t.members := by
  cases t with
  | one => exact h.elim
  | union => exact h

namespace Ty.Sharp

variable {h : Heap} {s t : Ty} (hs : s.Sharp h) (ht : t.Sharp h)
include hs ht

/-- Types that are alike are equal if object types that are alike are. -/
theorem sameBy_of_alike {r : ObjId → ObjId → Bool} (hr : ∀ a b, h.Alike a b → r a b = true)
    (hst : h.AlikeTypes s t) : s.sameBy r t = true := by
  have hatom : ∀ {x y : Atom}, h.AlikeAtoms x y → x.sameBy r y = true := by
    intro x y hxy
    cases x <;> cases y
    · exact beq_iff_eq.mpr hxy
    · exact hxy.elim
    · exact hxy.elim
    · exact hr _ _ hxy
  cases s with
  | one a =>
      cases t with
      | one b => exact hatom hst
      | union => exact hst.elim
  | union ms key =>
      cases t with
      | one => exact hst.elim
      | union ns key' =>
          obtain rfl : key = ms := hs.full
          obtain rfl : key' = ns := ht.full
          have heq := h.alikeAtoms_equivalence
          simp only [Ty.sameBy, Bool.and_eq_true, beq_iff_eq, List.all_eq_true, List.any_eq_true]
          refine ⟨Nat.le_antisymm ?_ ?_, fun y hy => ?_⟩
          · exact length_le_of_covers heq hs.apart fun x hx =>
              (hst.1 x hx).imp fun y hy => ⟨hy.1, heq.symm hy.2⟩
          · exact length_le_of_covers heq ht.apart hst.2
          · exact (hst.2 y hy).imp fun x hx => ⟨hx.1, hatom hx.2⟩

/-- Equal types are related if their object types are related, or listed in unions and alike. -/
theorem related_of_sameBy {r : ObjId → ObjId → Bool} {q : ObjId → ObjId → Prop}
    (hq : ∀ a b, h.Alike a b → q a b) (hsame : s.sameBy r t = true)
    (hone : ∀ i j, s = .obj i → t = .obj j → r i j = true → q i j)
    (hlisted : ∀ i j, s.Lists i → t.Lists j → r i j = true → h.Alike i j) : s.RelatedBy q t := by
  cases s with
  | one a =>
      cases t with
      | union => simp [Ty.sameBy] at hsame
      | one b =>
          refine Atom.relatedBy_of_sameBy (x := a) (y := b) hsame ?_
          rintro i j rfl rfl
          exact hone i j rfl rfl
  | union ms key =>
      cases t with
      | one => simp [Ty.sameBy] at hsame
      | union ns key' =>
          obtain rfl : key = ms := hs.full
          obtain rfl : key' = ns := ht.full
          have heq := h.alikeAtoms_equivalence
          simp only [Ty.sameBy, Bool.and_eq_true, beq_iff_eq, List.all_eq_true,
            List.any_eq_true] at hsame
          have hback : ∀ y ∈ key', ∃ x ∈ key, h.AlikeAtoms x y := by
            intro y hy
            obtain ⟨x, hx, hxy⟩ := hsame.2 y hy
            refine ⟨x, hx, Atom.relatedBy_of_sameBy hxy ?_⟩
            rintro i j rfl rfl
            exact hlisted i j hx hy
          refine ⟨fun x hx => ?_, fun y hy => ?_⟩
          · obtain ⟨y, hy, hxy⟩ := covers_of_length_le heq ht.apart hback hsame.1.le x hx
            exact ⟨y, hy, hxy.mono hq⟩
          · exact (hback y hy).imp fun x hx => ⟨hx.1, hx.2.mono hq⟩

end Ty.Sharp

/-- Types that are equal both ways are related by the equality of their object types, if that is
symmetric. -/
theorem Ty.related_of_sameBy_both {r : ObjId → ObjId → Bool}
    (hsymm : ∀ a b, r a b = true → r b a = true) {s t : Ty} (hs : s.Full) (ht : t.Full)
    (hst : s.sameBy r t = true) (hts : t.sameBy r s = true) :
    s.RelatedBy (fun a b => r a b = true) t := by
  have hatom : ∀ {x y : Atom}, x.sameBy r y = true → x.RelatedBy (fun a b => r a b = true) y :=
    fun hxy => Atom.relatedBy_of_sameBy hxy fun _ _ _ _ => id
  cases s with
  | one a =>
      cases t with
      | one b => exact hatom hst
      | union => simp [Ty.sameBy] at hst
  | union ms key =>
      cases t with
      | one => simp [Ty.sameBy] at hst
      | union ns key' =>
          obtain rfl : key = ms := hs
          obtain rfl : key' = ns := ht
          simp only [Ty.sameBy, Bool.and_eq_true, beq_iff_eq, List.all_eq_true,
            List.any_eq_true] at hst hts
          refine ⟨fun x hx => ?_, fun y hy => ?_⟩
          · obtain ⟨y, hy, hyx⟩ := hts.2 x hx
            exact ⟨y, hy, (hatom hyx).flip hsymm⟩
          · obtain ⟨x, hx, hxy⟩ := hst.2 y hy
            exact ⟨x, hx, hatom hxy⟩

/-! ## Ways through fields -/

namespace Heap

variable {h : Heap}

/-- A field of the first object type is of the second one. -/
def Holds (h : Heap) (i j : ObjId) : Prop := ∃ f ∈ h.fields i, f.2 = some (.obj j)

/-- A field of the first object type is of a union that lists the second one. -/
def Lists (h : Heap) (i j : ObjId) : Prop := ∃ f ∈ h.fields i, ∃ t ∈ f.2, t.Lists j

/-- A way through fields leads into a union, and to an object type that is listed there. -/
def Picks (h : Heap) (i k : ObjId) : Prop := ∃ j, Relation.ReflTransGen h.Holds i j ∧ h.Lists j k

/-- No way through fields leads from one union into the next for ever. -/
def Settles (h : Heap) (i : ObjId) : Prop := Acc (fun k i => h.Picks i k) i

/-- Ways through fields end if a rank falls whenever they lead into a union, and never rises. -/
theorem settles_of_rank (rank : ObjId → Nat) (hholds : ∀ i j, h.Holds i j → rank j ≤ rank i)
    (hlists : ∀ i j, h.Lists i j → rank j < rank i) (i : ObjId) : h.Settles i := by
  have hle : ∀ {i j}, Relation.ReflTransGen h.Holds i j → rank j ≤ rank i := by
    intro i j hij
    induction hij with
    | refl => exact Nat.le_refl _
    | tail _ hstep ih => exact (hholds _ _ hstep).trans ih
  have hlt : ∀ k i, h.Picks i k → rank k < rank i := by
    rintro k i ⟨j, hij, hjk⟩
    exact (hlists j k hjk).trans_le (hle hij)
  exact Subrelation.accessible (hlt _ _) (InvImage.accessible rank (Nat.lt_wfRel.wf.apply _))

/-- Equal object types are alike as long as those are that ways through fields find in unions. -/
theorem Sharp.alike_of_same (hs : h.Sharp) {P : ObjId → ObjId → Prop}
    (hholds : ∀ a b x y, P a b → h.Holds a x → h.Holds b y → P x y)
    (hlists : ∀ a b x y, P a b → h.Lists a x → h.Lists b y → h.sameObjects x y = true →
      h.Alike x y) {a b : ObjId} (hP : P a b) (hab : h.sameObjects a b = true) : h.Alike a b := by
  refine ⟨fun x y => P x y ∧ h.sameObjects x y = true ∨ h.Alike x y, ?_, .inl ⟨hP, hab⟩⟩
  rintro x y (⟨hP, hxy⟩ | halike)
  · rcases simulates_sameObjects hs.bounded x y hxy with rfl | ⟨hname, hfields⟩
    · exact ⟨rfl, fun name => rel_refl (rel_refl (.refl fun z =>
        .inr (h.alike_equivalence.refl z))) _⟩
    · refine ⟨hname, fun name => ?_⟩
      rw [sameFieldsBy_iff_lookup (hs.names x) (hs.names y)] at hfields
      refine rel_imp (hfields name) fun u hu v hv huv => rel_imp huv fun s hsu t htv hst => ?_
      have hx := Table.mem_of_lookup hu
      have hy := Table.mem_of_lookup hv
      refine (hs.unions x _ hx s hsu).related_of_sameBy (hs.unions y _ hy t htv)
        (fun _ _ => .inr) hst ?_ ?_
      · rintro i j rfl rfl hij
        exact .inl ⟨hholds x y i j hP ⟨_, hx, hsu⟩ ⟨_, hy, htv⟩, hij⟩
      · intro i j hi hj hij
        exact hlists x y i j hP ⟨_, hx, s, hsu, hi⟩ ⟨_, hy, t, htv, hj⟩ hij
  · obtain ⟨hname, hfields⟩ := h.respects_alike x y halike
    exact ⟨hname, fun name => rel_imp (hfields name) fun _ _ _ _ hst =>
      rel_imp hst fun _ _ _ _ hxy => hxy.mono fun _ _ => .inr⟩

/-- Object types that are alike are equal. -/
theorem Sharp.same_of_alike (hs : h.Sharp) {a b : ObjId} (hab : h.Alike a b) :
    h.sameObjects a b = true := by
  classical
  refine sameObjects_of_simulates (r := fun x y => decide (h.Alike x y)) (fun x y hxy => ?_)
    (decide_eq_true hab)
  obtain ⟨hname, hfields⟩ := h.respects_alike x y (of_decide_eq_true hxy)
  refine .inr ⟨hname, (sameFieldsBy_iff_lookup (hs.names x) (hs.names y)).mpr fun name => ?_⟩
  refine rel_imp (hfields name) fun u hu v hv huv => rel_imp huv fun s hsu t htv hst => ?_
  exact (hs.unions x _ (Table.mem_of_lookup hu) s hsu).sameBy_of_alike
    (hs.unions y _ (Table.mem_of_lookup hv) t htv) (fun _ _ => decide_eq_true) hst

theorem Settles.alike_left (hs : h.Sharp) {a b : ObjId} (ha : h.Settles a)
    (hab : h.sameObjects a b = true) : h.Alike a b := by
  induction ha generalizing b with
  | intro a _ ih =>
      refine hs.alike_of_same (P := fun x _ => Relation.ReflTransGen h.Holds a x) ?_ ?_ .refl hab
      · exact fun x y u v hx hu _ => hx.tail hu
      · exact fun x y u v hx hu _ huv => ih u ⟨x, hx, hu⟩ huv

theorem Settles.alike_right (hs : h.Sharp) {a b : ObjId} (hb : h.Settles b)
    (hab : h.sameObjects a b = true) : h.Alike a b := by
  induction hb generalizing a with
  | intro b _ ih =>
      refine hs.alike_of_same (P := fun _ y => Relation.ReflTransGen h.Holds b y) ?_ ?_ .refl hab
      · exact fun x y u v hy _ hv => hy.tail hv
      · exact fun x y u v hy _ hv huv => ih v ⟨y, hy, hv⟩ huv

/-- Where equality is symmetric, unions account for each other, so that equal object types are
alike. -/
theorem Sharp.alike_of_symm (hs : h.Sharp)
    (hsymm : ∀ a b, h.sameObjects a b = true → h.sameObjects b a = true) {a b : ObjId}
    (hab : h.sameObjects a b = true) : h.Alike a b := by
  refine ⟨fun x y => h.sameObjects x y = true, fun x y hxy => ?_, hab⟩
  rcases simulates_sameObjects hs.bounded x y hxy with rfl | ⟨hname, hfields⟩
  · exact ⟨rfl, fun name => rel_refl (rel_refl (.refl h.sameObjects_self)) _⟩
  rcases simulates_sameObjects hs.bounded y x (hsymm x y hxy) with rfl | ⟨-, hback⟩
  · exact ⟨rfl, fun name => rel_refl (rel_refl (.refl h.sameObjects_self)) _⟩
  refine ⟨hname, fun name => ?_⟩
  rw [sameFieldsBy_iff_lookup (hs.names _) (hs.names _)] at hfields hback
  refine rel_imp (hfields name) fun u hu v hv huv => rel_imp huv fun s hsu t htv hst => ?_
  have hts := rel_of_mem (rel_of_mem (hback name) hv hu) htv hsu
  exact Ty.related_of_sameBy_both hsymm (hs.unions x _ (Table.mem_of_lookup hu) s hsu).full
    (hs.unions y _ (Table.mem_of_lookup hv) t htv).full hst hts

end Heap

/-! ## What the comparison decides -/

/-- No way through fields leads on from the members of a type for ever. -/
def Ty.Settles (h : Heap) (t : Ty) : Prop := ∀ i, .obj i ∈ t.members → h.Settles i

namespace Heap

variable {h : Heap} {s t : Ty}

/-- Types that are alike are equal. -/
theorem Sharp.same_of_alikeTypes (hh : h.Sharp) (hs : s.Sharp h) (ht : t.Sharp h)
    (hst : h.AlikeTypes s t) : h.same s t = true :=
  hs.sameBy_of_alike ht (fun _ _ => hh.same_of_alike) hst

/-- Equal types are alike unless ways through fields lead on for ever from both of them and equality
is not symmetric. -/
theorem Sharp.alikeTypes_of_same (hh : h.Sharp) (hs : s.Sharp h) (ht : t.Sharp h)
    (hst : h.same s t = true) (hexact : s.Settles h ∨ t.Settles h ∨
      ∀ a b, h.sameObjects a b = true → h.sameObjects b a = true) : h.AlikeTypes s t := by
  have halike : ∀ i j, .obj i ∈ s.members → .obj j ∈ t.members → h.sameObjects i j = true →
      h.Alike i j := by
    intro i j hi hj hij
    rcases hexact with hsettle | hsettle | hsymm
    · exact (hsettle i hi).alike_left hh hij
    · exact (hsettle j hj).alike_right hh hij
    · exact hh.alike_of_symm hsymm hij
  refine hs.related_of_sameBy ht (fun _ _ => id) hst ?_ fun i j hi hj => ?_
  · rintro i j rfl rfl
    exact halike i j (List.mem_singleton_self _) (List.mem_singleton_self _)
  · exact halike i j (Ty.Lists.mem hi) (Ty.Lists.mem hj)

/-- Where no way through fields leads on for ever, equality is an equivalence. -/
theorem Sharp.equivalence (hh : h.Sharp) (hall : ∀ i, h.Settles i) : Equivalence h.Equal := by
  have hiff : ∀ x y, h.Equal x y ↔ h.AlikeAtoms x y := by
    intro x y
    have hx : (Ty.one x).Sharp h := ⟨trivial, List.pairwise_singleton _ _⟩
    have hy : (Ty.one y).Sharp h := ⟨trivial, List.pairwise_singleton _ _⟩
    exact ⟨fun heq => hh.alikeTypes_of_same hx hy heq (.inl fun i _ => hall i),
      hh.same_of_alikeTypes hx hy⟩
  have heq := h.alikeAtoms_equivalence
  refine ⟨fun x => (hiff x x).mpr (heq.refl x), fun {x y} hxy => ?_, fun {x y z} hxy hyz => ?_⟩
  · exact (hiff y x).mpr (heq.symm ((hiff x y).mp hxy))
  · exact (hiff x z).mpr (heq.trans ((hiff x y).mp hxy) ((hiff y z).mp hyz))

/-- If all fields hold primitives, equality is an equivalence. -/
theorem equivalence_of_prims (hb : h.Bounded)
    (hnames : ∀ i < h.size, ((h.fields i).map (·.1)).Nodup)
    (hprims : ∀ i, ∀ f ∈ h.fields i, ∀ t ∈ f.2, ∃ name, t = .prim name) : Equivalence h.Equal := by
  have hsharp : h.Sharp := by
    refine ⟨hb, fun i => ?_, fun i f hf t ht => ?_⟩
    · by_cases hi : i < h.size
      · exact hnames i hi
      · rw [hb i (Nat.le_of_not_lt hi)]
        exact List.nodup_nil
    · obtain ⟨name, rfl⟩ := hprims i f hf t ht
      exact ⟨trivial, List.pairwise_singleton _ _⟩
  apply hsharp.equivalence
  apply settles_of_rank (fun _ => 0)
  · intros
    exact le_rfl
  · rintro i j ⟨f, hf, t, ht, hj⟩
    obtain ⟨name, rfl⟩ := hprims i f hf t ht
    exact hj.elim

end Heap

end TypeFlow
