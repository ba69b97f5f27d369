import TypeFlow.Builtins
import TypeFlow.Proofs.Growth

/-! # What a graph records

A graph is read as the set of its entries, so that each change is described by the entries that
it may add. An untouched cell has none. -/

namespace TypeFlow

/-! ## Tables -/

namespace Table

theorem mem_of_findBy? {κ β : Type} {same : κ → κ → Bool} {k : κ} {t : Table κ β} {v : β}
    (h : findBy? same k t = some v) : ∃ k', (k', v) ∈ t ∧ same k' k = true := by
  simp only [Table.findBy?, Option.map_eq_some_iff] at h
  obtain ⟨e, he, rfl⟩ := h
  exact ⟨e.1, List.mem_of_find?_eq_some he, by simpa using List.find?_some he⟩

theorem mem_of_mem_putBy {κ β : Type} {same : κ → κ → Bool} {k : κ} {v : β} {t : Table κ β}
    {e : κ × β} (h : e ∈ Table.putBy same k v t) :
    e ∈ t ∨ e.2 = v ∧ (e.1 = k ∨ same e.1 k = true ∧ ∃ b, (e.1, b) ∈ t) := by
  induction t with
  | nil =>
      obtain rfl := List.mem_singleton.mp h
      exact .inr ⟨rfl, .inl rfl⟩
  | cons a t ih =>
      rw [Table.putBy] at h
      split at h
      · next hs =>
          rcases List.mem_cons.mp h with rfl | h
          · exact .inr ⟨rfl, .inr ⟨hs, a.2, by simp⟩⟩
          · exact .inl (List.mem_cons_of_mem _ h)
      · rcases List.mem_cons.mp h with rfl | h
        · exact .inl (by simp)
        · rcases ih h with h | ⟨hv, hk | ⟨hs, b, hb⟩⟩
          · exact .inl (List.mem_cons_of_mem _ h)
          · exact .inr ⟨hv, .inl hk⟩
          · exact .inr ⟨hv, .inr ⟨hs, b, List.mem_cons_of_mem _ hb⟩⟩

theorem mem_of_mem_put {κ β : Type} [BEq κ] [LawfulBEq κ] {k : κ} {v : β} {t : Table κ β}
    {e : κ × β} (h : e ∈ t.put k v) : e ∈ t ∨ e = (k, v) := by
  rcases mem_of_mem_putBy h with h | ⟨hv, hk | ⟨hs, _⟩⟩
  · exact .inl h
  · exact .inr (Prod.ext hk hv)
  · exact .inr (Prod.ext (by simpa using hs) hv)

theorem mem_of_lookup {κ β : Type} [BEq κ] [LawfulBEq κ] {k : κ} {v : β} {t : Table κ β}
    (h : t.lookup k = some v) : (k, v) ∈ t := by
  induction t with
  | nil => simp at h
  | cons e t ih =>
      rw [List.lookup_cons] at h
      split at h
      · next heq =>
          obtain rfl := eq_of_beq heq
          simp only [Option.some.injEq] at h
          subst h
          exact List.mem_cons_self ..
      · exact List.mem_cons_of_mem _ (ih h)

/-- A key that was put has the value that was put last. -/
theorem lookup_put {κ β : Type} [BEq κ] [LawfulBEq κ] (t : Table κ β) (k x : κ) (v : β) :
    (t.put k v).lookup x = if x == k then some v else t.lookup x := by
  induction t with
  | nil =>
      rw [put, putBy_nil, List.lookup_cons]
      cases x == k <;> rfl
  | cons e t ih =>
      rw [put, putBy]
      cases hk : e.1 == k with
      | true =>
          obtain rfl := eq_of_beq hk
          rw [if_pos rfl, List.lookup_cons, List.lookup_cons]
          cases x == e.1 <;> rfl
      | false =>
          have ih' : (putBy (· == ·) k v t).lookup x = _ := ih
          rw [if_neg Bool.false_ne_true, List.lookup_cons, List.lookup_cons, ih']
          cases hx : x == e.1 with
          | true =>
              obtain rfl := eq_of_beq hx
              rw [hk]
              rfl
          | false => rfl

theorem nodup_put {κ β : Type} [BEq κ] [LawfulBEq κ] {t : Table κ β} {k : κ} {v : β}
    (h : (t.map (·.1)).Nodup) : ((t.put k v).map (·.1)).Nodup := by
  rw [put, keys_putBy]
  split
  · exact h
  · next hany =>
      refine List.nodup_append.mpr ⟨h, by simp, fun a ha b hb hab => hany ?_⟩
      obtain rfl := List.mem_singleton.mp hb
      obtain ⟨e, he, rfl⟩ := List.mem_map.mp ha
      exact List.any_eq_true.mpr ⟨e, he, by simp [hab]⟩

theorem lookup_of_mem {κ β : Type} [BEq κ] [LawfulBEq κ] {t : Table κ β} {k : κ} {v : β}
    (h : (t.map (·.1)).Nodup) (hk : (k, v) ∈ t) : t.lookup k = some v := by
  induction t with
  | nil => cases hk
  | cons e t ih =>
      simp only [List.map_cons, List.nodup_cons] at h
      rw [List.lookup_cons]
      rcases List.mem_cons.mp hk with rfl | hk
      · simp
      · have hne : (k == e.1) = false := by
          refine beq_eq_false_iff_ne.mpr fun heq => h.1 ?_
          rw [← heq]
          exact List.mem_map_of_mem (f := (·.1)) hk
        rw [hne]
        exact ih h.2 hk

/-- The table of listed pairs: of pairs with one key the last one counts. -/
def ofList {κ β : Type} [BEq κ] (ps : List (κ × β)) : Table κ β :=
  ps.foldl (fun t p => put t p.1 p.2) []

theorem lookup_ofList_concat {κ β : Type} [BEq κ] [LawfulBEq κ] (ps : List (κ × β)) (p : κ × β)
    (x : κ) : (ofList (ps ++ [p])).lookup x = if x == p.1 then some p.2 else (ofList ps).lookup x := by
  rw [ofList, List.foldl_append]
  exact lookup_put ..

theorem nodup_ofList {κ β : Type} [BEq κ] [LawfulBEq κ] (ps : List (κ × β)) :
    ((ofList ps).map (·.1)).Nodup := by
  suffices hfold : ∀ t : Table κ β, (t.map (·.1)).Nodup →
      ((ps.foldl (fun t p => put t p.1 p.2) t).map (·.1)).Nodup from hfold [] .nil
  induction ps with
  | nil => exact fun _ h => h
  | cons p ps ih => exact fun t h => ih _ (nodup_put h)

theorem mem_of_mem_ofList {κ β : Type} [BEq κ] [LawfulBEq κ] {ps : List (κ × β)} {e : κ × β}
    (h : e ∈ ofList ps) : e ∈ ps := by
  suffices hfold : ∀ t : Table κ β, e ∈ ps.foldl (fun t p => put t p.1 p.2) t → e ∈ t ∨ e ∈ ps by
    simpa using hfold [] h
  clear h
  induction ps with
  | nil => exact fun _ h => .inl h
  | cons p ps ih =>
      intro t h
      rcases ih _ h with h | h
      · rcases mem_of_mem_put h with h | rfl
        · exact .inl h
        · exact .inr (List.mem_cons_self ..)
      · exact .inr (List.mem_cons_of_mem _ h)

end Table

/-! ## Entries -/

/-- What may be recorded in a cell. -/
inductive Mark where
  | typed (type : Ty)
  | edge (observer : NodeId) (reaction : Reaction)
  | linked
  | aimed (target : Target)
  /-- Some target or other. -/
  | found
  | busy
  | made
  | cached (key : List (Option Ty)) (inst : InstanceId)
  | member (key : Option Atom × List Atom) (call : NodeId)

namespace Role

/-- What is recorded in a role. -/
def Has : Role → Mark → Prop
  | .call s, .linked => s.linked = true
  | .call s, .aimed t => s.target = some t
  | .call s, .found => s.target ≠ none
  | .call s, .busy => s.busy = true
  | .call s, .made => s.isNew = true
  | .method m, .cached key i => (key, i) ∈ m.instances
  | .dispatch d, .member key c => (key, c) ∈ d.calls
  | _, _ => False

end Role

namespace Cell

def Has (c : Cell) : Mark → Prop
  | .typed t => c.type = some t
  | .edge o r => (o, r) ∈ c.observers
  | k => c.role.Has k

/-- A cell in which nothing is recorded is as it was made. -/
theorem eq_blank_of_forall_not_has {c : Cell} (h : ∀ k, ¬ c.Has k) : c = c.blank := by
  have htype : c.type = none := Option.eq_none_iff_forall_ne_some.mpr fun t => h (.typed t)
  have hobs : c.observers = [] := List.eq_nil_iff_forall_not_mem.mpr fun e => h (.edge e.1 e.2)
  have hrole : c.role = c.role.blank := by
    cases hr : c.role with
    | call s =>
        have hlinked := h .linked
        have htarget := fun t => h (.aimed t)
        have hbusy := h .busy
        have hmade := h .made
        simp only [Has, hr, Role.Has, Bool.not_eq_true] at hlinked htarget hbusy hmade
        have htarget' := Option.eq_none_iff_forall_ne_some.mpr htarget
        cases s
        simp_all [Role.blank, Site.blank]
    | method m =>
        have hcached := fun e : List (Option Ty) × InstanceId => h (.cached e.1 e.2)
        simp only [Has, hr, Role.Has] at hcached
        have hnone := List.eq_nil_iff_forall_not_mem.mpr hcached
        cases m
        simp_all [Role.blank, Method.blank]
    | dispatch d =>
        have hmember := fun e : (Option Atom × List Atom) × NodeId => h (.member e.1 e.2)
        simp only [Has, hr, Role.Has] at hmember
        have hnone := List.eq_nil_iff_forall_not_mem.mpr hmember
        cases d
        simp_all [Role.blank, Dispatch.blank]
    | plain | slot | result | recorder => rfl
  obtain ⟨role, type, observers, extent⟩ := c
  cases htype
  cases hobs
  exact congrArg (fun r => Cell.mk r none [] extent) hrole

/-- Nothing has happened to a cell in which nothing is recorded, if it was made so. -/
theorem isPristine_of_forall_not_has {c : Cell} (h : ∀ k, ¬ c.Has k)
    (hrole : c.blank.role.isPristine = true) : c.isPristine = true := by
  rw [eq_blank_of_forall_not_has h]
  simpa [isPristine, blank] using hrole

theorem not_has_of_isPristine {c : Cell} (h : c.isPristine = true)
    (hr : ∀ d, c.role ≠ .dispatch d) (k : Mark) : ¬ c.Has k := by
  simp only [isPristine, Bool.and_eq_true, Option.isNone_iff_eq_none, List.isEmpty_iff] at h
  obtain ⟨⟨htype, hobs⟩, hrole⟩ := h
  cases hc : c.role <;> cases k <;> simp_all [Has, Role.Has, Role.isPristine]

end Cell

/-- What may be recorded in a graph. -/
inductive Entry where
  | mark (node : NodeId) (mark : Mark)
  | var (walk : WalkId) (name : String) (slot : NodeId)
  | field (object : ObjId) (name : String) (slot : NodeId)
  | method (node : NodeId)
  | inst (id : InstanceId) (inst : Instance)
  | dispatch (node : NodeId)
  | self (walk : WalkId) (object : ObjId)
  | klass (name : String) (prototype : ObjId)

namespace Graph

def Has (g : Graph) : Entry → Prop
  | .mark n k => ∃ c, g.cells[n]? = some c ∧ c.Has k
  | .var w x v => (x, v) ∈ (g.walk w).vars
  | .field i x v => ∃ o, g.objects[i]? = some o ∧ (x, v) ∈ o.fields
  | .method m =>
      (∃ name, (name, m) ∈ g.methods) ∨ (∃ t ∈ g.tables, ∃ name, (name, m) ∈ t) ∨
        ∃ ty t name, (ty, t) ∈ g.natives ∧ (name, m) ∈ t
  | .inst i x => g.instances[i]? = some x
  | .dispatch d => d ∈ g.dispatches
  | .self w i => (g.walk w).self = some i
  | .klass name i => (name, i) ∈ g.classes

variable {g : Graph} {e : Entry}

theorem has_mark {n : NodeId} {c : Cell} {k : Mark} (hc : g.cells[n]? = some c) :
    g.Has (.mark n k) ↔ c.Has k := by
  simp [Has, hc]

theorem not_has_mark {n : NodeId} {k : Mark} (hc : g.cells[n]? = none) : ¬ g.Has (.mark n k) := by
  simp [Has, hc]

theorem has_typed {n : NodeId} {t : Ty} : g.Has (.mark n (.typed t)) ↔ g.type n = some t := by
  simp [Has, Cell.Has, type, Option.bind_eq_some_iff]

theorem has_edge {n o : NodeId} {r : Reaction} :
    g.Has (.mark n (.edge o r)) ↔ (o, r) ∈ g.observers n := by
  cases hc : g.cells[n]? with
  | none => simp [not_has_mark hc, observers, hc]
  | some c => rw [has_mark hc]; simp [Cell.Has, observers, hc]

theorem has_linked {c : NodeId} : g.Has (.mark c .linked) ↔ g.Linked c := by
  rw [linked_iff]
  refine exists_congr fun x => ?_
  cases hr : x.role <;> simp [Cell.Has, Role.Has, hr]

theorem has_aimed {c : NodeId} {t : Target} :
    g.Has (.mark c (.aimed t)) ↔ ∃ s, g.site? c = some s ∧ s.target = some t := by
  cases hc : g.cells[c]? with
  | none => simp [not_has_mark hc, site?, role, hc]
  | some x =>
      rw [has_mark hc]
      cases hr : x.role <;> simp [Cell.Has, Role.Has, site?, role, hc, hr]

theorem has_cached {m : NodeId} {key : List (Option Ty)} {i : InstanceId} :
    g.Has (.mark m (.cached key i)) ↔ ∃ x, g.method? m = some x ∧ (key, i) ∈ x.instances := by
  cases hc : g.cells[m]? with
  | none => simp [not_has_mark hc, method?, role, hc]
  | some x =>
      rw [has_mark hc]
      cases hr : x.role <;> simp [Cell.Has, Role.Has, method?, role, hc, hr]

theorem has_member {d : NodeId} {key : Option Atom × List Atom} {c : NodeId} :
    g.Has (.mark d (.member key c)) ↔ ∃ x, g.dispatch? d = some x ∧ (key, c) ∈ x.calls := by
  cases hc : g.cells[d]? with
  | none => simp [not_has_mark hc, dispatch?, role, hc]
  | some x =>
      rw [has_mark hc]
      cases hr : x.role <;> simp [Cell.Has, Role.Has, dispatch?, role, hc, hr]

/-! ## What the changes add -/

/-- A change of a cell adds what it records anew in that cell. -/
theorem has_modify {f : Cell → Cell} {n : NodeId}
    (h : Graph.Has { g with cells := g.cells.modify n f } e) :
    g.Has e ∨ ∃ c k, g.cells[n]? = some c ∧ e = .mark n k ∧ (f c).Has k := by
  cases e with
  | mark m k =>
      obtain ⟨c, hc, hk⟩ := h
      simp only [Array.getElem?_modify] at hc
      split at hc
      · next heq =>
          subst heq
          obtain ⟨c', hc', rfl⟩ := Option.map_eq_some_iff.mp hc
          exact .inr ⟨c', k, hc', rfl, hk⟩
      · exact .inl ⟨c, hc, hk⟩
  | var | field | method | inst | dispatch | self | klass => exact .inl h

theorem has_setType {n : NodeId} {t : Ty} (h : (g.setType n t).Has e) :
    g.Has e ∨ e = .mark n (.typed t) := by
  rcases has_modify h with h | ⟨c, k, hc, rfl, hk⟩
  · exact .inl h
  · cases k with
    | typed t' =>
        simp only [Cell.Has, Option.some.injEq] at hk
        exact .inr (by rw [hk])
    | _ => exact .inl ⟨c, hc, hk⟩

theorem has_addObserver {n o : NodeId} {r : Reaction} (h : (g.addObserver n o r).Has e) :
    g.Has e ∨ e = .mark n (.edge o r) := by
  rcases has_modify h with h | ⟨c, k, hc, rfl, hk⟩
  · exact .inl h
  · cases k with
    | edge o' r' =>
        rcases Table.mem_of_mem_put hk with hk | hk
        · exact .inl ⟨c, hc, hk⟩
        · cases hk
          exact .inr rfl
    | _ => exact .inl ⟨c, hc, hk⟩

theorem has_modifySite {n : NodeId} {f : Site → Site} (h : (g.modifySite n f).Has e) :
    g.Has e ∨ ∃ s k, g.site? n = some s ∧ e = .mark n k ∧ (Role.call (f s)).Has k := by
  rcases has_modify h with h | ⟨c, k, hc, rfl, hk⟩
  · exact .inl h
  · cases hr : c.role with
    | call s =>
        simp only [hr] at hk
        cases k with
        | typed | edge => exact .inl ⟨c, hc, hk⟩
        | _ => exact .inr ⟨s, _, by simp [site?, role, hc, hr], rfl, hk⟩
    | _ =>
        simp only [hr] at hk
        exact .inl ⟨c, hc, hk⟩

theorem has_modifyMethod {n : NodeId} {f : Method → Method} (h : (g.modifyMethod n f).Has e) :
    g.Has e ∨ ∃ m k, g.method? n = some m ∧ e = .mark n k ∧ (Role.method (f m)).Has k := by
  rcases has_modify h with h | ⟨c, k, hc, rfl, hk⟩
  · exact .inl h
  · cases hr : c.role with
    | method m =>
        simp only [hr] at hk
        cases k with
        | typed | edge => exact .inl ⟨c, hc, hk⟩
        | _ => exact .inr ⟨m, _, by simp [method?, role, hc, hr], rfl, hk⟩
    | _ =>
        simp only [hr] at hk
        exact .inl ⟨c, hc, hk⟩

theorem has_modifyDispatch {n : NodeId} {f : Dispatch → Dispatch}
    (h : (g.modifyDispatch n f).Has e) :
    g.Has e ∨ ∃ d k, g.dispatch? n = some d ∧ e = .mark n k ∧ (Role.dispatch (f d)).Has k := by
  rcases has_modify h with h | ⟨c, k, hc, rfl, hk⟩
  · exact .inl h
  · cases hr : c.role with
    | dispatch d =>
        simp only [hr] at hk
        cases k with
        | typed | edge => exact .inl ⟨c, hc, hk⟩
        | _ => exact .inr ⟨d, _, by simp [dispatch?, role, hc, hr], rfl, hk⟩
    | _ =>
        simp only [hr] at hk
        exact .inl ⟨c, hc, hk⟩

theorem has_addCell {c : Cell} (h : (g.addCell c).1.Has e) :
    g.Has e ∨ ∃ k, e = .mark g.cells.size k ∧ c.Has k := by
  cases e with
  | mark m k =>
      obtain ⟨c', hc', hk⟩ := h
      simp only [addCell, Array.getElem?_push] at hc'
      split at hc'
      · next heq =>
          cases hc'
          exact .inr ⟨k, by rw [heq], hk⟩
      · exact .inl ⟨c', hc', hk⟩
  | var | field | method | inst | dispatch | self | klass => exact .inl h

theorem has_addSlot {x : Option String} {t : Option Ty} (h : (g.addSlot x t).1.Has e) :
    g.Has e ∨ ∃ t', t = some t' ∧ e = .mark g.cells.size (.typed t') := by
  rcases has_addCell h with h | ⟨k, rfl, hk⟩
  · exact .inl h
  · cases k with
    | typed t' => exact .inr ⟨t', hk, rfl⟩
    | edge => cases hk
    | _ => exact hk.elim

theorem has_addSlots {slots : List (Option String × Ty)} (h : (g.addSlots slots).1.Has e) :
    g.Has e ∨ ∃ j s, slots[j]? = some s ∧ e = .mark (g.cells.size + j) (.typed s.2) := by
  induction slots generalizing g with
  | nil => exact .inl h
  | cons s slots ih =>
      rcases ih h with h | ⟨j, s', hj, rfl⟩
      · rcases has_addSlot h with h | ⟨t, ht, rfl⟩
        · exact .inl h
        · cases ht
          exact .inr ⟨0, s, rfl, rfl⟩
      · refine .inr ⟨j + 1, s', by simpa using hj, ?_⟩
        simp only [Array.size_push, Nat.add_assoc, Nat.add_comm 1]

theorem freshRole_isPristine (i : NodeId) (e : Expr) :
    (freshRole i e).isPristine = true ∧ ∀ d, freshRole i e ≠ .dispatch d := by
  cases e <;> simp [freshRole, Role.isPristine]

/-- A new tree records nothing. -/
theorem has_plant {tree : Expr} (h : (g.plant tree).1.Has e) : g.Has e := by
  cases e with
  | mark m k =>
      obtain ⟨c, hc, hk⟩ := h
      simp only [plant, Array.getElem?_append] at hc
      split at hc
      · exact ⟨c, hc, hk⟩
      · simp only [List.getElem?_toArray, List.getElem?_map, Option.map_eq_some_iff] at hc
        obtain ⟨p, -, rfl⟩ := hc
        obtain ⟨hp, hd⟩ := freshRole_isPristine p.1 p.2
        exact (Cell.not_has_of_isPristine (by simp [Cell.isPristine, hp]) hd k hk).elim
  | var | field | method | inst | dispatch | self | klass => exact h

theorem has_addWalk {w : Walk} (h : (g.addWalk w).1.Has e) :
    g.Has e ∨ (∃ x v, e = .var g.walks.size x v ∧ (x, v) ∈ w.vars) ∨
      ∃ i, e = .self g.walks.size i ∧ w.self = some i := by
  cases e with
  | var u x v =>
      simp only [Has, walk, addWalk, Array.getElem?_push] at h
      split at h
      · next heq => exact .inr (.inl ⟨x, v, by rw [heq], h⟩)
      · exact .inl h
  | self u i =>
      simp only [Has, walk, addWalk, Array.getElem?_push] at h
      split at h
      · next heq => exact .inr (.inr ⟨i, by rw [heq], h⟩)
      · exact .inl h
  | mark | field | method | inst | dispatch | klass => exact .inl h

theorem has_modifyWalk {w : WalkId} {f : Walk → Walk} (hf : ∀ x, (f x).self = x.self)
    (h : (g.modifyWalk w f).Has e) :
    g.Has e ∨ ∃ x v, e = .var w x v ∧ (x, v) ∈ (f (g.walk w)).vars := by
  cases e with
  | self u i =>
      simp only [Has, walk, modifyWalk, Array.getElem?_modify] at h
      refine .inl ?_
      split at h
      · next heq => cases hw : g.walks[u]? <;> simp_all [Has, walk]
      · exact h
  | var u x v =>
      simp only [Has, walk, modifyWalk, Array.getElem?_modify] at h
      split at h
      · next heq =>
          subst heq
          cases hw : g.walks[w]? with
          | none => simp [hw] at h
          | some y => exact .inr ⟨x, v, rfl, by simpa [walk, hw] using h⟩
      · exact .inl h
  | mark | field | method | inst | dispatch | klass => exact .inl h

theorem has_notice {n : Notice} (h : (g.notice n).Has e) : g.Has e := by
  cases e <;> exact h

theorem has_addInstance {x : Instance} (h : (g.addInstance x).1.Has e) :
    g.Has e ∨ e = .inst g.instances.size x ∨
      ∃ key, e = .mark x.method (.cached key g.instances.size) ∧
        (key = x.params ∨ g.heap.sameRow key x.params = true ∧
          ∃ i, g.Has (.mark x.method (.cached key i))) := by
  rcases has_modifyMethod h with h | ⟨m, k, hm, rfl, hk⟩
  · cases e with
    | inst i y =>
        simp only [Has, Array.getElem?_push] at h
        split at h
        · next heq =>
            cases h
            exact .inr (.inl (by rw [heq]))
        · exact .inl h
    | mark | var | field | method | dispatch | self | klass => exact .inl h
  · have hm' : g.method? x.method = some m := hm
    cases k with
    | cached key i =>
        rcases Table.mem_of_mem_putBy hk with hk | ⟨hi, hkey | ⟨hs, j, hj⟩⟩
        · exact .inl (has_cached.mpr ⟨m, hm', hk⟩)
        · simp only at hi hkey
          exact .inr (.inr ⟨key, by rw [hi], .inl hkey⟩)
        · simp only at hi hs hj
          exact .inr (.inr ⟨key, by rw [hi], .inr ⟨hs, j, has_cached.mpr ⟨m, hm', hj⟩⟩⟩)
    | _ => exact hk.elim

theorem has_addClass {name : String} (h : (g.addClass name).1.Has e) :
    g.Has e ∨ e = .klass name g.objects.size := by
  cases e with
  | field i x v =>
      obtain ⟨o, ho, hx⟩ := h
      simp only [addClass, Array.getElem?_push] at ho
      split at ho
      · cases ho
        cases hx
      · exact .inl ⟨o, ho, hx⟩
  | method m =>
      rcases h with h | ⟨t, ht, name, hname⟩ | h
      · exact .inl (.inl h)
      · simp only [addClass, Array.mem_push] at ht
        rcases ht with ht | rfl
        · exact .inl (.inr (.inl ⟨t, ht, name, hname⟩))
        · cases hname
      · exact .inl (.inr (.inr h))
  | klass name' i =>
      rcases Table.mem_of_mem_put h with h | h
      · exact .inl h
      · cases h
        exact .inr rfl
  | mark | var | inst | dispatch | self => exact .inl h

theorem has_putMethod {k : Option ObjId} {name : String} {m : NodeId}
    (h : (g.putMethod k name m).Has e) : g.Has e ∨ e = .method m := by
  unfold putMethod at h
  cases e with
  | method m' =>
      split at h
      · next o ho =>
          rcases h with h | ⟨t, ht, name', hname⟩ | h
          · exact .inl (.inl h)
          · obtain ⟨j, hj, rfl⟩ := Array.mem_iff_getElem.mp ht
            simp only [Array.getElem_modify] at hname
            split at hname
            · rcases Table.mem_of_mem_put hname with hname | hname
              · exact .inl (.inr (.inl ⟨_, Array.getElem_mem _, name', hname⟩))
              · cases hname
                exact .inr rfl
            · exact .inl (.inr (.inl ⟨_, Array.getElem_mem _, name', hname⟩))
          · exact .inl (.inr (.inr h))
      · rcases h with ⟨name', hname⟩ | h | h
        · rcases Table.mem_of_mem_put hname with hname | hname
          · exact .inl (.inl ⟨name', hname⟩)
          · cases hname
            exact .inr rfl
        · exact .inl (.inr (.inl h))
        · exact .inl (.inr (.inr h))
  | mark | var | field | inst | dispatch | self | klass =>
      left
      split at h <;> exact h

theorem has_addDispatch {s : Site} {receiver : Option Ty} {args : List Ty}
    (h : (g.addDispatch s receiver args).1.Has e) :
    g.Has e ∨ e = .dispatch g.cells.size := by
  let d : Dispatch := ⟨s.name, s.origin, receiver, args, s.parens, []⟩
  have hcell {e} (h : (g.addCell { role := .dispatch d }).1.Has e) : g.Has e := by
    rcases has_addCell h with h | ⟨k, rfl, hk⟩
    · exact h
    · cases k <;> cases hk
  cases e with
  | dispatch d =>
      rcases List.mem_append.mp h with h | h
      · exact .inl h
      · exact .inr (by rw [List.mem_singleton.mp h])
  | mark n k => exact .inl (hcell (e := .mark n k) h)
  | var | field | method | inst | self | klass => exact .inl h

theorem has_putField {i : ObjId} {name : String} {v : NodeId}
    (h : (g.putField i name v).Has e) : g.Has e ∨ e = .field i name v := by
  cases e with
  | field j x u =>
      obtain ⟨o, ho, hx⟩ := h
      simp only [putField, Array.getElem?_modify] at ho
      split at ho
      · next heq =>
          subst heq
          obtain ⟨o', ho', rfl⟩ := Option.map_eq_some_iff.mp ho
          rcases Table.mem_of_mem_put hx with hx | hx
          · exact .inl ⟨o', ho', hx⟩
          · cases hx
            exact .inr rfl
      · exact .inl ⟨o, ho, hx⟩
  | mark | var | method | inst | dispatch | self | klass => exact .inl h

/-! ## Copies of objects -/

theorem cells_copyFields (g : Graph) (fields : Table String NodeId) :
    (g.copyFields fields).1.cells.size = g.cells.size + fields.length := by
  induction fields generalizing g with
  | nil => rfl
  | cons f fields ih =>
      simp only [copyFields, ih, addCell, Array.size_push, List.length_cons]
      omega

/-- The copies of the fields lie one after the other, in new cells. -/
theorem snd_copyFields (g : Graph) (fields : Table String NodeId) :
    (g.copyFields fields).2 = fields.mapIdx fun j f => (f.1, g.cells.size + j) := by
  induction fields generalizing g with
  | nil => rfl
  | cons f fields ih =>
      simp only [copyFields, ih, addCell, Array.size_push, List.mapIdx_cons, Nat.add_zero]
      refine congrArg _ (congrArg (List.mapIdx · fields) ?_)
      funext j f
      rw [Nat.add_assoc, Nat.add_comm 1]

theorem objects_copyFields (g : Graph) (fields : Table String NodeId) :
    (g.copyFields fields).1.objects = g.objects := by
  induction fields generalizing g with
  | nil => rfl
  | cons f fields ih => exact ih _

/-- A copied variable is a variable of the same type. -/
theorem blank_copyFields {fields : Table String NodeId}
    (hslot : ∀ f ∈ fields, f.2 < g.cells.size ∧ ∃ x, g.role f.2 = .slot x) {j : Nat}
    {f : String × NodeId} (hj : fields[j]? = some f) :
    ∃ x, (g.copyFields fields).1.blank (g.cells.size + j) = some { role := .slot x } := by
  induction fields generalizing g j with
  | nil => simp at hj
  | cons a fields ih =>
      obtain ⟨hlt, x, hx⟩ := hslot a (List.mem_cons_self ..)
      let copy : Cell := { role := g.role a.2, type := g.type a.2 }
      have hslot' : ∀ f ∈ fields, f.2 < (g.addCell copy).1.cells.size ∧
          ∃ x, (g.addCell copy).1.role f.2 = .slot x := by
        intro f hf
        obtain ⟨hlt, x, hx⟩ := hslot f (List.mem_cons_of_mem _ hf)
        refine ⟨by simp only [addCell, Array.size_push]; exact Nat.lt_succ_of_lt hlt, x, ?_⟩
        rw [role_addCell, if_neg (Nat.ne_of_lt hlt), hx]
      cases j with
      | zero =>
          refine ⟨x, (grows_copyFields (g.addCell copy).1 fields).blank ?_⟩
          simp [blank, addCell, copy, Cell.blank, Role.blank, hx]
      | succ j =>
          obtain ⟨y, hy⟩ := ih hslot' (by simpa using hj)
          refine ⟨y, ?_⟩
          have hsize : (g.addCell copy).1.cells.size + j = g.cells.size + (j + 1) := by
            simp only [addCell, Array.size_push]
            omega
          rwa [hsize] at hy

theorem has_copyFields {fields : Table String NodeId}
    (hslot : ∀ f ∈ fields, f.2 < g.cells.size ∧ ∃ x, g.role f.2 = .slot x)
    (h : (g.copyFields fields).1.Has e) :
    g.Has e ∨ ∃ j f t, fields[j]? = some f ∧ g.type f.2 = some t ∧
      e = .mark (g.cells.size + j) (.typed t) := by
  induction fields generalizing g with
  | nil => exact .inl h
  | cons a fields ih =>
      obtain ⟨hlt, x, hx⟩ := hslot a (List.mem_cons_self ..)
      let copy : Cell := { role := g.role a.2, type := g.type a.2 }
      have hslot' : ∀ f ∈ fields, f.2 < (g.addCell copy).1.cells.size ∧
          ∃ x, (g.addCell copy).1.role f.2 = .slot x := by
        intro f hf
        obtain ⟨hlt, x, hx⟩ := hslot f (List.mem_cons_of_mem _ hf)
        refine ⟨by simp only [addCell, Array.size_push]; exact Nat.lt_succ_of_lt hlt, x, ?_⟩
        rw [role_addCell, if_neg (Nat.ne_of_lt hlt), hx]
      rcases ih hslot' h with h | ⟨j, f, t, hj, ht, rfl⟩
      · rcases has_addCell h with h | ⟨k, rfl, hk⟩
        · exact .inl h
        · cases k with
          | typed t => exact .inr ⟨0, a, t, rfl, hk, rfl⟩
          | edge => cases hk
          | _ => simp [Cell.Has, copy, hx, Role.Has] at hk
      · have hf := (hslot f (List.mem_cons_of_mem _ (List.mem_of_getElem? hj))).1
        rw [type_addCell, if_neg (Nat.ne_of_lt hf)] at ht
        refine .inr ⟨j + 1, f, t, by simpa using hj, ht, ?_⟩
        simp only [addCell, Array.size_push, Nat.add_assoc, Nat.add_comm 1]

theorem has_cloneObject {i : ObjId} {o : ObjectType} (ho : g.objects[i]? = some o)
    (hslot : ∀ f ∈ o.fields, f.2 < g.cells.size ∧ ∃ x, g.role f.2 = .slot x)
    (h : (g.cloneObject i).1.Has e) :
    g.Has e ∨ ∃ j f, o.fields[j]? = some f ∧
      ((∃ t, g.type f.2 = some t ∧ e = .mark (g.cells.size + j) (.typed t)) ∨
        e = .field g.objects.size f.1 (g.cells.size + j)) := by
  have hclone : g.cloneObject i = ({ (g.copyFields o.fields).1 with
      objects := (g.copyFields o.fields).1.objects.push
        { o with fields := (g.copyFields o.fields).2 } },
      (g.copyFields o.fields).1.objects.size) := by
    simp [cloneObject, ho]
  have hcopy {e} (h : (g.copyFields o.fields).1.Has e) :
      g.Has e ∨ ∃ j f, o.fields[j]? = some f ∧
        ((∃ t, g.type f.2 = some t ∧ e = .mark (g.cells.size + j) (.typed t)) ∨
          e = .field g.objects.size f.1 (g.cells.size + j)) := by
    rcases has_copyFields hslot h with h | ⟨j, f, t, hj, ht, rfl⟩
    · exact .inl h
    · exact .inr ⟨j, f, hj, .inl ⟨t, ht, rfl⟩⟩
  rw [hclone] at h
  cases e with
  | field k x v =>
      obtain ⟨o', ho', hx⟩ := h
      simp only [Array.getElem?_push] at ho'
      split at ho'
      · next heq =>
          cases ho'
          simp only [snd_copyFields] at hx
          obtain ⟨j, hj⟩ := List.getElem?_of_mem hx
          simp only [List.getElem?_mapIdx, Option.map_eq_some_iff, Prod.mk.injEq] at hj
          obtain ⟨f, hf, rfl, rfl⟩ := hj
          rw [objects_copyFields] at heq
          exact .inr ⟨j, f, hf, .inr (by rw [heq])⟩
      · exact hcopy (e := .field k x v) ⟨o', ho', hx⟩
  | mark n k => exact hcopy (e := .mark n k) h
  | var w x v => exact hcopy (e := .var w x v) h
  | method m => exact hcopy (e := .method m) h
  | inst i x => exact hcopy (e := .inst i x) h
  | dispatch d => exact hcopy (e := .dispatch d) h
  | self w i => exact hcopy (e := .self w i) h
  | klass name i => exact hcopy (e := .klass name i) h

end Graph

end TypeFlow
