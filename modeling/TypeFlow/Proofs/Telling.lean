import TypeFlow.Proofs.Comparing
import TypeFlow.Proofs.Lasting

/-! # What observers are told

A type that is merged into a node is accounted for by the type that the node has then. So whatever a
node has for a type, each of its observers has heard of it, or a task that waits will tell it. -/

namespace TypeFlow

/-! ## Types that account for others -/

/-- Each member of the second type is related to a member of the first. -/
def Ty.Covers (R : Atom → Atom → Prop) (T U : Ty) : Prop := ∀ y ∈ U.members, ∃ x ∈ T.members, R x y

/-- A union was built from all of its members. -/
def Ty.Full : Ty → Prop
  | .one _ => True
  | .union ms key => key = ms

theorem Ty.Valid.full {g : Graph} {t : Ty} (ht : t.Valid g) : t.Full := by
  cases ht' : t with
  | one => trivial
  | union ms key =>
      subst ht'
      exact ht.2.1

theorem Ty.Covers.mono {R S : Atom → Atom → Prop} {T U : Ty} (h : T.Covers R U)
    (hRS : ∀ x ∈ T.members, ∀ y ∈ U.members, R x y → S x y) : T.Covers S U := by
  intro y hy
  obtain ⟨x, hx, hxy⟩ := h y hy
  exact ⟨x, hx, hRS x hx y hy hxy⟩

theorem Ty.Covers.trans {R S Q : Atom → Atom → Prop} {T U V : Ty} (h : T.Covers R U)
    (h' : U.Covers S V) (hQ : ∀ x y z, R x y → S y z → Q x z) : T.Covers Q V := by
  intro z hz
  obtain ⟨y, hy, hyz⟩ := h' z hz
  obtain ⟨x, hx, hxy⟩ := h y hy
  exact ⟨x, hx, hQ x y z hxy hyz⟩

namespace Heap

/-- Two concrete types are equal at present, the first one on the left. -/
def Equal (h : Heap) (a b : Atom) : Prop := h.sameAtom a b = true

variable {h : Heap}

theorem Equal.refl (h : Heap) (a : Atom) : h.Equal a a := h.sameAtom_self a

theorem Equal.trans (hb : h.Bounded) {a b c : Atom} (hab : h.Equal a b) (hbc : h.Equal b c) :
    h.Equal a c := sameAtom_trans hb hab hbc

theorem covers_self (h : Heap) (t : Ty) : t.Covers h.Equal t := fun y hy => ⟨y, hy, .refl h y⟩

/-- A type accounts for any type that it is equal to. -/
theorem covers_of_same {a b : Ty} (ha : a.Full) (hb : b.Full) (hab : h.same a b = true) :
    a.Covers h.Equal b := by
  cases a with
  | one x =>
      cases b with
      | one y =>
          intro z hz
          cases List.mem_singleton.mp hz
          exact ⟨x, List.mem_singleton_self _, hab⟩
      | union => simp [same, Ty.sameBy] at hab
  | union ms ka =>
      cases b with
      | one => simp [same, Ty.sameBy] at hab
      | union ms' kb =>
          obtain rfl : ka = ms := ha
          obtain rfl : kb = ms' := hb
          simp only [same, Ty.sameBy, Bool.and_eq_true, List.all_eq_true, List.any_eq_true] at hab
          exact hab.2

@[simp] theorem members_ofMembers (xs : List Atom) : (ofMembers xs).members = xs := by
  unfold ofMembers
  split <;> rfl

theorem full_ofMembers (xs : List Atom) : (ofMembers xs).Full := by
  unfold ofMembers
  split
  · trivial
  · rfl

theorem full_merge {a b : Ty} (ha : a.Full) : (h.merge a b).Full := by
  unfold merge
  split
  · exact ha
  · exact full_ofMembers _

/-- Keeping the first of any equal members leaves an equal one for each. -/
theorem exists_mem_insertMember (kept : List Atom) (x : Atom) :
    (∀ y ∈ kept, y ∈ h.insertMember kept x) ∧ ∃ z ∈ h.insertMember kept x, h.Equal z x := by
  unfold insertMember
  split
  · next hany =>
      obtain ⟨z, hz, hzx⟩ := List.any_eq_true.mp hany
      exact ⟨fun y hy => hy, z, hz, hzx⟩
  · exact ⟨fun y hy => List.mem_append_left _ hy,
      x, List.mem_append_right _ (List.mem_singleton_self x), .refl h x⟩

theorem exists_mem_foldl_insertMember (xs kept : List Atom) :
    (∀ y ∈ kept, y ∈ xs.foldl h.insertMember kept) ∧
      ∀ y ∈ xs, ∃ z ∈ xs.foldl h.insertMember kept, h.Equal z y := by
  induction xs generalizing kept with
  | nil => exact ⟨fun y hy => hy, fun y hy => (List.not_mem_nil hy).elim⟩
  | cons x xs ih =>
      obtain ⟨hkept, z, hz, hzx⟩ := exists_mem_insertMember (h := h) kept x
      obtain ⟨hkeep, hfind⟩ := ih (h.insertMember kept x)
      refine ⟨fun y hy => hkeep y (hkept y hy), fun y hy => ?_⟩
      rcases List.mem_cons.mp hy with rfl | hy
      · exact ⟨z, hkeep z hz, hzx⟩
      · exact hfind y hy

theorem exists_mem_distinct {xs : List Atom} {y : Atom} (hy : y ∈ xs) :
    ∃ z ∈ h.distinct xs, h.Equal z y :=
  (exists_mem_foldl_insertMember xs []).2 y hy

/-- A join accounts for both of its parts. -/
theorem merge_covers {a b : Ty} (ha : a.Full) (hb : b.Full) :
    (h.merge a b).Covers h.Equal a ∧ (h.merge a b).Covers h.Equal b := by
  unfold merge
  split
  · next hab => exact ⟨h.covers_self a, covers_of_same ha hb hab⟩
  · simp only [Ty.Covers, members_ofMembers]
    exact ⟨fun y hy => exists_mem_distinct (List.mem_append_left _ hy),
      fun y hy => exists_mem_distinct (List.mem_append_right _ hy)⟩

/-- The members of a join are members of its parts. -/
theorem mem_of_mem_merge {a b : Ty} {x : Atom} (hx : x ∈ (h.merge a b).members) :
    x ∈ a.members ∨ x ∈ b.members := by
  unfold merge at hx
  split at hx
  · exact .inl hx
  · rw [members_ofMembers] at hx
    exact List.mem_append.mp (h.mem_of_mem_distinct hx)

end Heap

/-! ## Storing and widening -/

namespace Graph

variable {g g' : Graph} {n m : NodeId} {t : Ty} {ts : List Task}

/-- Only object types that were made have fields. -/
theorem bounded_heap (g : Graph) : g.heap.Bounded := by
  intro i hi
  have hnone : g.objects[i]? = none := Array.getElem?_eq_none hi
  simp only [heap, hnone, Option.map_none, Option.getD_none]

/-- Storing a type leaves the graph as it is if the node has an equal one, and tells all observers
otherwise. -/
theorem storeType_ok (h : g.storeType n t = (g', .ok ts)) :
    (g' = g ∧ ts = [] ∧ ∃ old, g.type n = some old ∧ g.heap.same old t = true) ∨
      g' = g.setType n t ∧ ts = (g.observers n).map fun o => .deliver n o.1 o.2 := by
  rcases g.storeType_cases n t with ⟨hs, hold⟩ | ⟨hs, -⟩
  · rw [hs] at h
    cases h
    exact .inl ⟨rfl, rfl, hold⟩
  · rw [hs] at h
    cases h
    exact .inr ⟨rfl, rfl⟩

theorem widenType_ok (h : g.widenType n t = (g', .ok ts)) :
    g.storeType n (g.joined n t) = (g', .ok ts) := by
  unfold widenType at h
  unfold joined
  cases hold : g.type n with
  | none => rwa [hold] at h
  | some old =>
      simp only [hold] at h
      split at h
      · exact h
      · cases h

/-- Storing a type changes the type of no other node, and of no node its observers or what it is
for. -/
theorem others_storeType (h : g.storeType n t = (g', .ok ts)) :
    (∀ m, m ≠ n → g'.type m = g.type m) ∧ (∀ m, g'.observers m = g.observers m) ∧
      (∀ m, g'.role m = g.role m) ∧ g'.cells.size = g.cells.size ∧ g'.objects = g.objects := by
  rcases storeType_ok h with ⟨rfl, -, -⟩ | ⟨rfl, -⟩
  · exact ⟨fun _ _ => rfl, fun _ => rfl, fun _ => rfl, rfl, rfl⟩
  · refine ⟨fun m hm => ?_, fun m => g.observers_setType n m t, fun m => g.role_setType n m t,
      by simp [setType], rfl⟩
    rw [type_setType, if_neg fun hn => hm hn.1.symm]

/-- A node whose type changes as one is stored tells all of its observers. -/
theorem tells_of_storeType (h : g.storeType n t = (g', .ok ts)) (m : NodeId) :
    g'.type m = g.type m ∨ ∀ o r, (o, r) ∈ g.observers m → .deliver m o r ∈ ts := by
  by_cases hm : m = n
  · subst hm
    rcases storeType_ok h with ⟨rfl, -, -⟩ | ⟨-, rfl⟩
    · exact .inl rfl
    · exact .inr fun o r ho => List.mem_map.mpr ⟨(o, r), ho, rfl⟩
  · exact .inl ((others_storeType h).1 m hm)

/-- The type that a node has after another was merged into it accounts for both. -/
theorem exists_type_of_widen (hn : (n : Nat) < g.cells.size) (ht : t.Full)
    (hfull : ∀ old, g.type n = some old → old.Full) (h : g.widenType n t = (g', .ok ts)) :
    ∃ U, g'.type n = some U ∧ U.Covers g.heap.Equal t ∧
      ∀ old, g.type n = some old → U.Covers g.heap.Equal old := by
  rcases storeType_ok (widenType_ok h) with ⟨rfl, -, old, hold, hsame⟩ | ⟨rfl, -⟩
  · have hf := hfull old hold
    rw [joined, hold] at hsame
    have hcov := Heap.merge_covers (h := g'.heap) hf ht
    refine ⟨old, hold, ?_, fun old' hold' => ?_⟩
    · exact (Heap.covers_of_same hf (Heap.full_merge hf) hsame).trans hcov.2
        fun x y z => Heap.Equal.trans g'.bounded_heap
    · rw [hold] at hold'
      cases hold'
      exact g'.heap.covers_self old
  · have htype : (g.setType n (g.joined n t)).type n = some (g.joined n t) := by
      rw [type_setType, if_pos ⟨rfl, hn⟩]
    refine ⟨g.joined n t, htype, ?_⟩
    unfold joined
    cases hold : g.type n with
    | none => exact ⟨g.heap.covers_self t, fun old h => by cases h⟩
    | some old =>
        have hcov := Heap.merge_covers (h := g.heap) (hfull old hold) ht
        refine ⟨hcov.2, fun old' hold' => ?_⟩
        cases hold'
        exact hcov.1

/-! ## Nobody is left out -/

/-- Whatever type a node has, an observer has heard of it, or a task that waits will tell it. What it
is to have heard of a type is left open. -/
def Told (g : Graph) (ts : List Task) (n m : NodeId) (Heard : Ty → Prop) : Prop :=
  ∀ T, g.type n = some T → .deliver n m .merge ∈ ts ∨ .react (some n) m .merge (some T) ∈ ts ∨
    .widen m T ∈ ts ∨ Heard T

theorem Told.mono {us : List Task} {Heard Heard' : Ty → Prop} (h : g.Told ts n m Heard)
    (hsub : ∀ t ∈ ts, t ∈ us) (hheard : ∀ T, g.type n = some T → Heard T → Heard' T)
    (htype : g'.type n = g.type n) : g'.Told us n m Heard' := by
  intro T hT
  rw [htype] at hT
  rcases h T hT with h | h | h | h
  · exact .inl (hsub _ h)
  · exact .inr (.inl (hsub _ h))
  · exact .inr (.inr (.inl (hsub _ h)))
  · exact .inr (.inr (.inr (hheard T hT h)))

/-- One task keeps an observer informed: a change is told, a telling is merged, and what was merged
has been heard. -/
theorem told_step (task : Task) {rest : List Task} (Heard : Ty → Prop) {Heard' : Ty → Prop}
    (hchange : g'.type n = g.type n ∨ .deliver n m .merge ∈ ts)
    (hedge : (m, .merge) ∈ g.observers n → g.Told (task :: rest) n m Heard)
    (hnew : (m, .merge) ∈ g.observers n ∨
      ∀ T, g.type n = some T → .react (some n) m .merge (some T) ∈ ts)
    (hdeliver : task = .deliver n m .merge → ∀ T, g.type n = some T → .widen m T ∈ ts)
    (hreact : ∀ T, task = .react (some n) m .merge (some T) → .widen m T ∈ ts)
    (hwiden : ∀ T, task = .widen m T → g.type n = some T → Heard' T)
    (hheard : ∀ T, g.type n = some T → Heard T → Heard' T) :
    g'.Told (ts ++ rest) n m Heard' := by
  intro T hT
  rcases hchange with htype | hdel
  · rw [htype] at hT
    rcases hnew with hold | hnew
    · rcases hedge hold T hT with h | h | h | h
      · rcases List.mem_cons.mp h with heq | h
        · exact .inr (.inr (.inl (List.mem_append_left _ (hdeliver heq.symm T hT))))
        · exact .inl (List.mem_append_right _ h)
      · rcases List.mem_cons.mp h with heq | h
        · exact .inr (.inr (.inl (List.mem_append_left _ (hreact T heq.symm))))
        · exact .inr (.inl (List.mem_append_right _ h))
      · rcases List.mem_cons.mp h with heq | h
        · exact .inr (.inr (.inr (hwiden T heq.symm hT)))
        · exact .inr (.inr (.inl (List.mem_append_right _ h)))
      · exact .inr (.inr (.inr (hheard T hT h)))
    · exact .inr (.inl (List.mem_append_left _ (hnew T hT)))
  · exact .inl (List.mem_append_left _ hdel)

end Graph

end TypeFlow
