import TypeFlow.Ty.Equality
import Mathlib.Data.Finset.Card
import Mathlib.Data.Finset.Prod

/-! # What comparing types decides

The comparison of object types searches along their fields and takes a pair that is already under
comparison for equal. It thereby decides the largest relation between object types that every field
respects. Equality of types is reflexive and transitive for that reason. It is symmetric only as
long as the members of each union differ. -/

namespace TypeFlow

/-! ## Comparing with more pairs equal -/

/-- Two lists of fields agree if they are of one length and each field of the first has the type
that the second gives it. -/
theorem sameFieldsBy_iff {r : ObjId → ObjId → Bool} {fs gs : List (String × Option Ty)} :
    sameFieldsBy r fs gs = true ↔ fs.length = gs.length ∧ ∀ f ∈ fs, ∃ t,
      gs.lookup f.1 = some t ∧ Ty.sameOptionBy r f.2 t = true := by
  simp only [sameFieldsBy, Bool.and_eq_true, beq_iff_eq, List.all_eq_true]
  refine and_congr_right fun _ => forall₂_congr fun f _ => ?_
  cases gs.lookup f.1 with
  | none => simp
  | some t => simp

section mono

variable {r s : ObjId → ObjId → Bool} (hrs : ∀ a b, r a b = true → s a b = true)
include hrs

theorem Atom.sameBy_mono {a b : Atom} (h : a.sameBy r b = true) : a.sameBy s b = true := by
  cases a <;> cases b
  · exact h
  · exact h
  · exact h
  · exact hrs _ _ h

theorem Ty.sameBy_mono {a b : Ty} (h : a.sameBy r b = true) : a.sameBy s b = true := by
  cases a with
  | one a =>
      cases b with
      | one b => exact Atom.sameBy_mono hrs (a := a) (b := b) h
      | union => exact h
  | union ms ka =>
      cases b with
      | one => exact h
      | union ms' kb =>
          simp only [Ty.sameBy, Bool.and_eq_true, List.all_eq_true, List.any_eq_true] at h ⊢
          refine ⟨h.1, fun y hy => ?_⟩
          obtain ⟨x, hx, hxy⟩ := h.2 y hy
          exact ⟨x, hx, Atom.sameBy_mono hrs hxy⟩

theorem Ty.sameOptionBy_mono {a b : Option Ty} (h : Ty.sameOptionBy r a b = true) :
    Ty.sameOptionBy s a b = true := by
  cases a <;> cases b
  · exact h
  · exact h
  · exact h
  · exact Ty.sameBy_mono hrs h

theorem sameFieldsBy_mono {fs gs : List (String × Option Ty)} (h : sameFieldsBy r fs gs = true) :
    sameFieldsBy s fs gs = true := by
  rw [sameFieldsBy_iff] at h ⊢
  refine ⟨h.1, fun f hf => ?_⟩
  obtain ⟨t, ht, hft⟩ := h.2 f hf
  exact ⟨t, ht, Ty.sameOptionBy_mono hrs hft⟩

end mono

/-! ## Comparing twice -/

section trans

variable {r s : ObjId → ObjId → Bool}

/-- Two objects are related by way of a third. -/
def viaObject (r s : ObjId → ObjId → Bool) (a c : ObjId) : Prop :=
  ∃ b, r a b = true ∧ s b c = true

variable {t : ObjId → ObjId → Bool} (ht : ∀ a c, viaObject r s a c → t a c = true)
include ht

theorem Atom.sameBy_trans {a b c : Atom} (hab : a.sameBy r b = true) (hbc : b.sameBy s c = true) :
    a.sameBy t c = true := by
  cases a with
  | prim x =>
      cases b with
      | prim y =>
          cases c with
          | prim z =>
              simp only [Atom.sameBy, beq_iff_eq] at hab hbc ⊢
              exact hab.trans hbc
          | obj => simp [Atom.sameBy] at hbc
      | obj => simp [Atom.sameBy] at hab
  | obj i =>
      cases b with
      | prim => simp [Atom.sameBy] at hab
      | obj j =>
          cases c with
          | prim => simp [Atom.sameBy] at hbc
          | obj k => exact ht i k ⟨j, hab, hbc⟩

theorem Ty.sameBy_trans {a b c : Ty} (hab : a.sameBy r b = true) (hbc : b.sameBy s c = true) :
    a.sameBy t c = true := by
  cases a with
  | one a =>
      cases b with
      | union => simp [Ty.sameBy] at hab
      | one b =>
          cases c with
          | union => simp [Ty.sameBy] at hbc
          | one c => exact Atom.sameBy_trans ht (b := b) hab hbc
  | union _ ka =>
      cases b with
      | one => simp [Ty.sameBy] at hab
      | union _ kb =>
          cases c with
          | one => simp [Ty.sameBy] at hbc
          | union _ kc =>
              simp only [Ty.sameBy, Bool.and_eq_true, beq_iff_eq, List.all_eq_true,
                List.any_eq_true] at hab hbc ⊢
              refine ⟨hab.1.trans hbc.1, fun z hz => ?_⟩
              obtain ⟨y, hy, hyz⟩ := hbc.2 z hz
              obtain ⟨x, hx, hxy⟩ := hab.2 y hy
              exact ⟨x, hx, Atom.sameBy_trans ht hxy hyz⟩

theorem Ty.sameOptionBy_trans {a b c : Option Ty} (hab : Ty.sameOptionBy r a b = true)
    (hbc : Ty.sameOptionBy s b c = true) : Ty.sameOptionBy t a c = true := by
  cases a with
  | none =>
      cases b with
      | none =>
          cases c with
          | none => rfl
          | some => simp [Ty.sameOptionBy] at hbc
      | some => simp [Ty.sameOptionBy] at hab
  | some a =>
      cases b with
      | none => simp [Ty.sameOptionBy] at hab
      | some b =>
          cases c with
          | none => simp [Ty.sameOptionBy] at hbc
          | some c => exact Ty.sameBy_trans ht (b := b) hab hbc

theorem sameFieldsBy_trans {fs gs ks : List (String × Option Ty)}
    (hab : sameFieldsBy r fs gs = true) (hbc : sameFieldsBy s gs ks = true) :
    sameFieldsBy t fs ks = true := by
  rw [sameFieldsBy_iff] at hab hbc ⊢
  refine ⟨hab.1.trans hbc.1, fun f hf => ?_⟩
  obtain ⟨u, hu, hfu⟩ := hab.2 f hf
  obtain ⟨v, hv, huv⟩ := hbc.2 (f.1, u) (by
    obtain ⟨l, l', heq, -⟩ := List.lookup_eq_some_iff.mp hu
    simp [heq])
  exact ⟨v, hv, Ty.sameOptionBy_trans ht hfu huv⟩

end trans

namespace Heap

/-! ## Equality is reflexive -/

theorem sameObjects_self (h : Heap) (a : ObjId) : h.sameObjects a a = true := by
  simp [sameObjects, sameObjectsWithin]

theorem sameAtom_self (h : Heap) (a : Atom) : h.sameAtom a a = true := by
  cases a with
  | prim n => simp [sameAtom, Atom.sameBy]
  | obj i => exact h.sameObjects_self i

theorem same_self (h : Heap) (t : Ty) : h.same t t = true := by
  cases t with
  | one a => exact h.sameAtom_self a
  | union ms key =>
      simp only [same, Ty.sameBy, beq_self_eq_true, Bool.true_and, List.all_eq_true,
        List.any_eq_true]
      exact fun y hy => ⟨y, hy, h.sameAtom_self y⟩

theorem sameRow_self (h : Heap) (ts : List (Option Ty)) : h.sameRow ts ts = true := by
  induction ts with
  | nil => rfl
  | cons t ts ih =>
      rw [sameRow, ih, Bool.and_true]
      cases t with
      | none => rfl
      | some t => exact h.same_self t

variable {h : Heap}

/-- Rows compare both ways alike if types do. -/
theorem sameRow_symm (hsymm : ∀ s t, h.same s t = true → h.same t s = true)
    {ts us : List (Option Ty)} (htu : h.sameRow ts us = true) : h.sameRow us ts = true := by
  induction ts generalizing us with
  | nil =>
      cases us with
      | nil => rfl
      | cons => cases htu
  | cons t ts ih =>
      cases us with
      | nil => cases htu
      | cons u us =>
          simp only [sameRow, Bool.and_eq_true] at htu ⊢
          refine ⟨?_, ih htu.2⟩
          cases t <;> cases u
          · rfl
          · cases htu.1
          · cases htu.1
          · exact hsymm _ _ htu.1

/-! ## Relations that fields respect -/

/-- Object types that are related are the same, or have one name and fields of related types. -/
def Simulates (h : Heap) (r : ObjId → ObjId → Bool) : Prop :=
  ∀ a b, r a b = true →
    a = b ∨ h.name a = h.name b ∧ sameFieldsBy r (h.fields a) (h.fields b) = true

/-- The comparison finds all pairs that some such relation relates equal. -/
theorem sameObjectsWithin_of_simulates {r : ObjId → ObjId → Bool} (hr : h.Simulates r) (depth : Nat)
    (assumed : List (ObjId × ObjId)) {a b : ObjId} (hab : r a b = true) :
    h.sameObjectsWithin depth assumed a b = true := by
  induction depth generalizing assumed a b with
  | zero => rfl
  | succ depth ih =>
      simp only [sameObjectsWithin, Bool.or_eq_true, Bool.and_eq_true, beq_iff_eq]
      refine (hr a b hab).imp_right fun hf => ⟨hf.1, .inr ?_⟩
      exact sameFieldsBy_mono (fun x y hxy => ih _ hxy) hf.2

theorem sameObjects_of_simulates {r : ObjId → ObjId → Bool} (hr : h.Simulates r) {a b : ObjId}
    (hab : r a b = true) : h.sameObjects a b = true :=
  sameObjectsWithin_of_simulates hr _ _ hab

/-! ## The comparison is such a relation -/

/-- Object types without an address below the size of the heap have no fields. -/
def Bounded (h : Heap) : Prop := ∀ i, h.size ≤ i → h.fields i = []

/-- A relation that is respected by the fields as far as the assumed pairs allow for it. -/
def SimulatesUpTo (h : Heap) (assumed : List (ObjId × ObjId)) (r : ObjId → ObjId → Bool) : Prop :=
  ∀ a b, r a b = true → a = b ∨ h.name a = h.name b ∧
    sameFieldsBy (fun x y => r x y || assumed.contains (x, y)) (h.fields a) (h.fields b) = true

/-- The pairs of object types that are not under comparison. -/
def unopened (h : Heap) (assumed : List (ObjId × ObjId)) : Finset (ObjId × ObjId) :=
  (Finset.range h.size ×ˢ Finset.range h.size) \ assumed.toFinset

theorem card_unopened_cons {assumed : List (ObjId × ObjId)} {p : ObjId × ObjId}
    (hp : p ∈ h.unopened assumed) :
    (h.unopened (p :: assumed)).card < (h.unopened assumed).card := by
  refine Finset.card_lt_card (Finset.ssubset_iff_of_subset ?_ |>.mpr ⟨p, hp, ?_⟩)
  · refine Finset.sdiff_subset_sdiff (Finset.Subset.refl _) ?_
    simp [List.toFinset_cons]
  · simp [unopened]

/-- Object types whose fields agree are below the size of the heap, or have no fields. -/
theorem Bounded.lt_of_sameFields (hb : h.Bounded) {r : ObjId → ObjId → Bool} {a b : ObjId}
    (hf : sameFieldsBy r (h.fields a) (h.fields b) = true) :
    h.fields a = [] ∨ a < h.size ∧ b < h.size := by
  by_cases ha : h.fields a = []
  · exact .inl ha
  · refine .inr ⟨Nat.lt_of_not_le fun hle => ha (hb a hle), Nat.lt_of_not_le fun hle => ha ?_⟩
    have hlen := (sameFieldsBy_iff.mp hf).1
    rwa [hb b hle, List.length_nil, List.length_eq_zero_iff] at hlen

/-- A pair that the comparison takes for equal is assumed, or related by a relation that is
respected up to the assumed pairs. Each pair that is opened on the way uses up one of those that
are not under comparison, so that the search does not stop early. -/
theorem exists_simulatesUpTo (hb : h.Bounded) (depth : Nat) (assumed : List (ObjId × ObjId))
    (hdepth : (h.unopened assumed).card < depth) {a b : ObjId}
    (hab : h.sameObjectsWithin depth assumed a b = true) :
    (a, b) ∈ assumed ∨ ∃ r, h.SimulatesUpTo assumed r ∧ r a b = true := by
  classical
  induction depth generalizing assumed a b with
  | zero => exact absurd hdepth (Nat.not_lt_zero _)
  | succ depth ih =>
      simp only [sameObjectsWithin, Bool.or_eq_true, Bool.and_eq_true, beq_iff_eq,
        List.contains_eq_mem, decide_eq_true_eq] at hab
      rcases hab with rfl | ⟨hname, hmem | hfields⟩
      · refine .inr ⟨fun x y => x == y, fun x y hxy => .inl ?_, ?_⟩
        · simpa using hxy
        · simp
      · exact .inl hmem
      · by_cases hmem : (a, b) ∈ assumed
        · exact .inl hmem
        -- All pairs related while the pair itself is assumed, and that pair, bear each other out.
        let G : ObjId → ObjId → Bool := fun x y =>
          decide (∃ r, h.SimulatesUpTo ((a, b) :: assumed) r ∧ r x y = true)
        let r : ObjId → ObjId → Bool := fun x y => G x y || ((x, y) == (a, b))
        have hstep : ∀ x y, (G x y || ((a, b) :: assumed).contains (x, y)) = true →
            (r x y || assumed.contains (x, y)) = true := by
          intro x y hxy
          simp only [r, List.contains_cons, Bool.or_eq_true] at hxy ⊢
          tauto
        have hG : h.SimulatesUpTo ((a, b) :: assumed) G := by
          intro x y hxy
          obtain ⟨s, hs, hsxy⟩ := of_decide_eq_true hxy
          refine (hs x y hsxy).imp_right fun hf => ⟨hf.1, sameFieldsBy_mono ?_ hf.2⟩
          intro u v huv
          rcases Bool.or_eq_true_iff.mp huv with huv | huv
          · exact Bool.or_eq_true_iff.mpr (.inl (decide_eq_true ⟨s, hs, huv⟩))
          · exact Bool.or_eq_true_iff.mpr (.inr huv)
        have hpair : sameFieldsBy (fun x y => r x y || assumed.contains (x, y)) (h.fields a)
            (h.fields b) = true := by
          rcases hb.lt_of_sameFields hfields with hnil | ⟨ha, hb'⟩
          · rw [sameFieldsBy_iff] at hfields ⊢
            exact ⟨hfields.1, fun f hf => absurd hf (by simp [hnil])⟩
          · have hopen : (a, b) ∈ h.unopened assumed := by
              simp [unopened, ha, hb', hmem]
            refine sameFieldsBy_mono (fun x y hxy => hstep x y ?_) hfields
            rcases ih ((a, b) :: assumed) (by have := card_unopened_cons hopen; omega) hxy with
              hin | hr
            · exact Bool.or_eq_true_iff.mpr (.inr (by simpa using hin))
            · exact Bool.or_eq_true_iff.mpr (.inl (decide_eq_true hr))
        refine .inr ⟨r, fun x y hxy => ?_, by simp [r]⟩
        rcases Bool.or_eq_true_iff.mp hxy with hxy | hxy
        · exact (hG x y hxy).imp_right fun hf => ⟨hf.1, sameFieldsBy_mono hstep hf.2⟩
        · obtain ⟨rfl, rfl⟩ := Prod.mk.inj (eq_of_beq hxy)
          exact .inr ⟨hname, hpair⟩

/-- A comparison that may open all pairs decides the largest relation that fields respect. -/
theorem sameObjectsWithin_iff (hb : h.Bounded) {depth : Nat}
    (hdepth : (h.unopened []).card < depth) {a b : ObjId} :
    h.sameObjectsWithin depth [] a b = true ↔ ∃ r, h.Simulates r ∧ r a b = true := by
  refine ⟨fun hab => ?_, fun ⟨_, hr, hab⟩ => sameObjectsWithin_of_simulates hr _ _ hab⟩
  rcases exists_simulatesUpTo hb depth [] hdepth hab with hin | ⟨r, hr, hrab⟩
  · cases hin
  · exact ⟨r, fun x y hxy => by simpa using hr x y hxy, hrab⟩

theorem card_unopened_nil (h : Heap) : (h.unopened []).card < h.size * h.size + 1 := by
  simp [unopened, Finset.card_product]

/-- The comparison of object types decides the largest relation that their fields respect. -/
theorem sameObjects_iff (hb : h.Bounded) {a b : ObjId} :
    h.sameObjects a b = true ↔ ∃ r, h.Simulates r ∧ r a b = true :=
  sameObjectsWithin_iff hb h.card_unopened_nil

/-- Object types that compare as equal have fields that compare as equal. -/
theorem simulates_sameObjects (hb : h.Bounded) : h.Simulates h.sameObjects := by
  intro a b hab
  obtain ⟨r, hr, hrab⟩ := (sameObjects_iff hb).mp hab
  refine (hr a b hrab).imp_right fun hf => ⟨hf.1, sameFieldsBy_mono ?_ hf.2⟩
  exact fun x y hxy => sameObjects_of_simulates hr hxy

/-! ## Equality is transitive -/

theorem sameObjects_trans (hb : h.Bounded) {a b c : ObjId} (hab : h.sameObjects a b = true)
    (hbc : h.sameObjects b c = true) : h.sameObjects a c = true := by
  classical
  let r : ObjId → ObjId → Bool := fun x z => decide (viaObject h.sameObjects h.sameObjects x z)
  have hvia : ∀ x z, viaObject h.sameObjects h.sameObjects x z → r x z = true :=
    fun x z hxz => decide_eq_true hxz
  have hself : ∀ x z, h.sameObjects x z = true → r x z = true := by
    intro x z hxz
    exact hvia x z ⟨x, h.sameObjects_self x, hxz⟩
  refine sameObjects_of_simulates (r := r) (fun x z hxz => ?_) (hvia a c ⟨b, hab, hbc⟩)
  obtain ⟨y, hxy, hyz⟩ := of_decide_eq_true hxz
  rcases simulates_sameObjects hb x y hxy with rfl | ⟨hname, hfields⟩
  · exact (simulates_sameObjects hb x z hyz).imp_right fun hf =>
      ⟨hf.1, sameFieldsBy_mono hself hf.2⟩
  · rcases simulates_sameObjects hb y z hyz with rfl | ⟨hname', hfields'⟩
    · exact .inr ⟨hname, sameFieldsBy_mono hself hfields⟩
    · exact .inr ⟨hname.trans hname', sameFieldsBy_trans hvia hfields hfields'⟩

/-- Equality of concrete types is transitive. -/
theorem sameAtom_trans (hb : h.Bounded) {a b c : Atom} (hab : h.sameAtom a b = true)
    (hbc : h.sameAtom b c = true) : h.sameAtom a c = true :=
  Atom.sameBy_trans (fun _ _ ⟨_, hxy, hyz⟩ => sameObjects_trans hb hxy hyz) hab hbc

/-! ## Only names and fields count -/

end Heap

/-- The concrete types that the equality of a type depends on. -/
def Ty.decisive : Ty → List Atom
  | .one a => [a]
  | .union _ key => key

/-- The object types that the equality of a type depends on have addresses below a number. -/
def Ty.Below (n : Nat) (t : Ty) : Prop := ∀ i, .obj i ∈ t.decisive → i < n

section congr

variable {r s : ObjId → ObjId → Bool} {n : Nat} (hrs : ∀ a < n, ∀ b < n, r a b = s a b)
include hrs

theorem Atom.sameBy_congr {a b : Atom} (ha : ∀ i, a = .obj i → i < n)
    (hb : ∀ i, b = .obj i → i < n) : a.sameBy r b = a.sameBy s b := by
  cases a with
  | prim => cases b <;> rfl
  | obj i =>
      cases b with
      | prim => rfl
      | obj j => exact hrs i (ha i rfl) j (hb j rfl)

theorem Ty.sameBy_congr {a b : Ty} (ha : a.Below n) (hb : b.Below n) :
    a.sameBy r b = a.sameBy s b := by
  cases a with
  | one a =>
      cases b with
      | union => rfl
      | one b =>
          exact Atom.sameBy_congr hrs (fun i h => ha i (by simp [Ty.decisive, h]))
            fun i h => hb i (by simp [Ty.decisive, h])
  | union _ ka =>
      cases b with
      | one => rfl
      | union _ kb =>
          have hatom : ∀ y ∈ kb, ∀ x ∈ ka, x.sameBy r y = x.sameBy s y := fun y hy x hx =>
            Atom.sameBy_congr hrs (fun i h => ha i (by simpa [Ty.decisive, ← h] using hx))
              fun i h => hb i (by simpa [Ty.decisive, ← h] using hy)
          rw [Bool.eq_iff_iff]
          simp only [Ty.sameBy, Bool.and_eq_true, List.all_eq_true, List.any_eq_true]
          exact and_congr_right fun _ => forall₂_congr fun y hy => exists_congr fun x =>
            and_congr_right fun hx => by rw [hatom y hy x hx]

theorem Ty.sameOptionBy_congr {a b : Option Ty} (ha : ∀ t ∈ a, t.Below n)
    (hb : ∀ t ∈ b, t.Below n) : Ty.sameOptionBy r a b = Ty.sameOptionBy s a b := by
  cases a with
  | none => cases b <;> rfl
  | some a =>
      cases b with
      | none => rfl
      | some b => exact Ty.sameBy_congr hrs (ha a rfl) (hb b rfl)

theorem sameFieldsBy_congr {fs gs : List (String × Option Ty)}
    (hf : ∀ f ∈ fs, ∀ t ∈ f.2, t.Below n) (hg : ∀ f ∈ gs, ∀ t ∈ f.2, t.Below n) :
    sameFieldsBy r fs gs = sameFieldsBy s fs gs := by
  rw [Bool.eq_iff_iff, sameFieldsBy_iff, sameFieldsBy_iff]
  refine and_congr_right fun _ => forall₂_congr fun f hfs => exists_congr fun t =>
    and_congr_right fun ht => ?_
  obtain ⟨l, l', heq, -⟩ := List.lookup_eq_some_iff.mp ht
  rw [Ty.sameOptionBy_congr hrs (hf f hfs) (hg (f.1, t) (by simp [heq]))]

end congr

namespace Heap

/-- The fields of the object types of a heap are of types of the same heap. -/
def Closed (h : Heap) : Prop := ∀ i, ∀ f ∈ h.fields i, ∀ t ∈ f.2, t.Below h.size

/-- Two heaps have the same names and fields up to an address. -/
def AgreeBelow (n : Nat) (h h' : Heap) : Prop :=
  ∀ i < n, h.name i = h'.name i ∧ h.fields i = h'.fields i

theorem AgreeBelow.symm {n : Nat} {h h' : Heap} (hag : AgreeBelow n h h') : AgreeBelow n h' h :=
  fun i hi => ⟨(hag i hi).1.symm, (hag i hi).2.symm⟩

/-- What fields respect in one heap they respect in another one that agrees with it, among the
object types of both. -/
theorem Simulates.restrict {n : Nat} {h h' : Heap} {r : ObjId → ObjId → Bool} (hr : h.Simulates r)
    (hag : AgreeBelow n h h') (hbelow : ∀ i < n, ∀ f ∈ h.fields i, ∀ t ∈ f.2, t.Below n) :
    h'.Simulates fun a b => r a b && (decide (a < n) && decide (b < n)) := by
  intro a b hab
  simp only [Bool.and_eq_true, decide_eq_true_eq] at hab
  obtain ⟨hab, ha, hb⟩ := hab
  refine (hr a b hab).imp_right fun ⟨hname, hfields⟩ => ?_
  rw [← (hag a ha).1, ← (hag b hb).1, ← (hag a ha).2, ← (hag b hb).2]
  refine ⟨hname, ?_⟩
  rw [← hfields]
  exact sameFieldsBy_congr (fun x hx y hy => by simp [hx, hy]) (hbelow a ha) (hbelow b hb)

variable {h h' : Heap} (hb : h.Bounded) (hb' : h'.Bounded) (hclosed : h.Closed)
  (hag : AgreeBelow h.size h h')
include hb hb' hclosed hag

/-- Whether two object types are equal depends on nothing but the names and fields of the object
types that were there when they were. -/
theorem sameObjects_congr {a b : ObjId} (ha : a < h.size) (hlt : b < h.size) :
    h'.sameObjects a b = h.sameObjects a b := by
  rw [Bool.eq_iff_iff, sameObjects_iff hb, sameObjects_iff hb']
  constructor
  · rintro ⟨r, hr, hab⟩
    refine ⟨_, hr.restrict hag.symm fun i hi => ?_, by simp [hab, ha, hlt]⟩
    rw [← (hag i hi).2]
    exact hclosed i
  · rintro ⟨r, hr, hab⟩
    exact ⟨_, hr.restrict hag fun i _ => hclosed i, by simp [hab, ha, hlt]⟩

theorem sameRow_congr {ts us : List (Option Ty)} (ht : ∀ t ∈ ts, ∀ x ∈ t, x.Below h.size)
    (hu : ∀ u ∈ us, ∀ x ∈ u, x.Below h.size) : h'.sameRow ts us = h.sameRow ts us := by
  induction ts generalizing us with
  | nil => cases us <;> rfl
  | cons t ts ih =>
      cases us with
      | nil => rfl
      | cons u us =>
          rw [sameRow, sameRow, ih (fun x hx => ht x (List.mem_cons_of_mem _ hx))
            fun x hx => hu x (List.mem_cons_of_mem _ hx), sameOption, sameOption,
            Ty.sameOptionBy_congr (fun a ha b hlt => sameObjects_congr hb hb' hclosed hag ha hlt)
              (ht t (List.mem_cons_self ..)) (hu u (List.mem_cons_self ..))]

end Heap

end TypeFlow
