import TypeFlow.Proofs.Labels

/-! # Spreading types keeps the labelling -/

namespace TypeFlow

/-! ## Joined types are valid -/

namespace Heap

variable (h : Heap)

theorem insertMember_mem {kept : List Atom} {x y : Atom} (hy : y ∈ h.insertMember kept x) :
    y ∈ kept ∨ y = x := by
  unfold insertMember at hy
  split at hy
  · exact .inl hy
  · simpa using hy

theorem insertMember_ne_nil (kept : List Atom) (x : Atom) : h.insertMember kept x ≠ [] := by
  unfold insertMember
  split
  · next hany =>
      rintro rfl
      simp at hany
  · simp

theorem mem_of_mem_distinct {xs : List Atom} {y : Atom} (hy : y ∈ h.distinct xs) : y ∈ xs := by
  suffices hfold : ∀ kept, y ∈ xs.foldl h.insertMember kept → y ∈ kept ∨ y ∈ xs by
    simpa using hfold [] hy
  clear hy
  induction xs with
  | nil => intro kept hk; exact .inl hk
  | cons x xs ih =>
      intro kept hk
      rcases ih _ hk with hk | hk
      · rcases h.insertMember_mem hk with hk | rfl
        · exact .inl hk
        · exact .inr (by simp)
      · exact .inr (by simp [hk])

theorem distinct_ne_nil {xs : List Atom} (hxs : xs ≠ []) : h.distinct xs ≠ [] := by
  suffices hfold : ∀ kept, kept ≠ [] ∨ xs ≠ [] → xs.foldl h.insertMember kept ≠ [] from
    hfold [] (.inr hxs)
  clear hxs
  induction xs with
  | nil => intro kept hk; simpa using hk
  | cons x xs ih =>
      intro kept _
      exact ih _ (.inl (h.insertMember_ne_nil kept x))

end Heap

namespace Ty

theorem Valid.members_ne_nil {g : Graph} {t : Ty} (ht : t.Valid g) : t.members ≠ [] := by
  cases t with
  | one => simp
  | union ms key =>
      rintro rfl
      simpa using ht.2.2

theorem Valid.wellFormed {g : Graph} {t : Ty} (ht : t.Valid g) : t.WellFormed := by
  cases t with
  | one => trivial
  | union ms key => exact ht.2.2

theorem Valid.ofMembers {g : Graph} {xs : List Atom} (hxs : xs ≠ [])
    (h : ∀ i, .obj i ∈ xs → ∃ o, g.objects[i]? = some o) : (Heap.ofMembers xs).Valid g := by
  match xs with
  | [] => exact (hxs rfl).elim
  | [a] => exact ⟨h, trivial⟩
  | a :: b :: xs => exact ⟨h, rfl, by simp⟩

theorem Valid.merge {g : Graph} {a b : Ty} (ha : a.Valid g) (hb : b.Valid g) (h : Heap) :
    (h.merge a b).Valid g := by
  unfold Heap.merge
  split
  · exact ha
  · refine .ofMembers (h.distinct_ne_nil (by simp [ha.members_ne_nil])) fun i hi => ?_
    rcases List.mem_append.mp (h.mem_of_mem_distinct hi) with hi | hi
    · exact ha.1 i hi
    · exact hb.1 i hi

end Ty

/-! ## Steps that keep the labelling -/

theorem Graph.Grows.size_le {g g' : Graph} (h : Graph.Grows g g') :
    g.cells.size ≤ g'.cells.size := by
  rcases Nat.eq_zero_or_pos g.cells.size with h0 | hpos
  · omega
  · have hlast : g.blank (g.cells.size - 1) = some (g.cells[g.cells.size - 1].blank) := by
      simp [Graph.blank, Nat.sub_lt hpos]
    have hlt : g.cells.size - 1 < g'.cells.size := Graph.lt_size_of_blank (h.blank hlast)
    omega

/-- A change keeps a labelling sound if no new cell needs a label. -/
theorem Sound.grow {L : Labels} {g g' : Graph} (hS : Sound L g) (hg : Graph.Grows g g')
    (hentries : ∀ {en}, g'.Has en → g.Has en ∨ en.OK L g') : Sound L g' := by
  refine (Extends.of_grows hg).sound hS (fun hl => ?_) (fun hn hl => ?_) hentries
  · exact Nat.lt_of_lt_of_le (hS.bound hl) hg.size_le
  · exact absurd (hS.bound hl) (Nat.not_lt.mpr hn)

/-- What a step leaves behind has a labelling that extends the given one. A step fails only with
an error of the program. -/
structure Keeps (L : Labels) (g : Graph) (L' : Labels) (s : Step) : Prop where
  extend : Extends L g L' s.1
  sound : Sound L' s.1
  tasks : ∀ ts, s.2 = .ok ts → ∀ t ∈ ts, t.OK L' s.1
  fault : ∀ f, s.2 = .error f → ∃ e, f = .inference e

theorem Keeps.next {L L' : Labels} {g g' : Graph} {ts : List Task} (he : Extends L g L' g')
    (hS : Sound L' g') (ht : ∀ t ∈ ts, t.OK L' g') : Keeps L g L' (g'.next ts) where
  extend := he
  sound := hS
  tasks := by
    intro ts' h
    cases h
    exact ht
  fault := by
    intro f h
    cases h

theorem Keeps.fail {L L' : Labels} {g g' : Graph} {e : InferenceError} (he : Extends L g L' g')
    (hS : Sound L' g') : Keeps L g L' (g'.fail (.inference e)) where
  extend := he
  sound := hS
  tasks := by
    intro ts h
    cases h
  fault := by
    intro f h
    cases h
    exact ⟨e, rfl⟩

variable {L : Labels} {g : Graph}

theorem Sound.edge (hS : Sound L g) {s o : NodeId} {r : Reaction} (h : (o, r) ∈ g.observers s) :
    g.EdgeOK L s o r :=
  hS.entries (Graph.has_edge.mpr h)

theorem Sound.typed (hS : Sound L g) {n : NodeId} {t : Ty} (h : g.type n = some t) :
    L n ≠ none ∧ t.Valid g ∧ ∀ t', L n = some (.input t') → t = t' :=
  hS.entries (Graph.has_typed.mpr h)

theorem keeps_setType (hS : Sound L g) {n : NodeId} {t : Ty} (hn : L.IsOpen n)
    (ht : t.Valid g) :
    Keeps L g L ((g.setType n t).next ((g.observers n).map fun o => .deliver n o.1 o.2)) := by
  have hext : Extends L g L (g.setType n t) := .of_grows (Graph.grows_setType g n t)
  refine .next hext (hS.grow hext.grows fun hen => ?_) fun task htask => ?_
  · rcases Graph.has_setType hen with hen | rfl
    · exact .inl hen
    · obtain ⟨l, hl, hfixed⟩ := hn
      refine .inr ⟨by simp [hl], hext.valid ht, fun a ha => ?_⟩
      rw [hl] at ha
      cases ha
      cases hfixed
  · obtain ⟨o, ho, rfl⟩ := List.mem_map.mp htask
    exact hext.edge hS (hS.edge ho)

theorem keeps_storeType (hS : Sound L g) {n : NodeId} {t : Ty} (hn : L.IsOpen n)
    (ht : t.Valid g) : Keeps L g L (g.storeType n t) := by
  have hkeep := keeps_setType hS hn ht
  unfold Graph.storeType
  simp only
  split
  · split
    · exact .next (.refl L g) hS (by simp)
    · exact hkeep
  · exact hkeep

theorem keeps_widenType (hS : Sound L g) {n : NodeId} {t : Ty} (hn : L.IsOpen n)
    (ht : t.Valid g) : Keeps L g L (g.widenType n t) := by
  unfold Graph.widenType
  split
  · exact keeps_storeType hS hn ht
  · next old hold =>
      have hvalid := Ty.Valid.merge (hS.typed hold).2.1 ht g.heap
      simp only [hvalid.wellFormed, if_true]
      exact keeps_storeType hS hn hvalid

theorem keeps_subscribe (hS : Sound L g) {s o : NodeId} {r : Reaction} (he : g.EdgeOK L s o r) :
    Keeps L g L (g.subscribe s o r) := by
  have hext : Extends L g L (g.addObserver s o r) := .of_grows (Graph.grows_addObserver g s o r)
  refine .next hext (hS.grow hext.grows fun hen => ?_) fun task htask => ?_
  · rcases Graph.has_addObserver hen with hen | rfl
    · exact .inl hen
    · exact .inr (hext.edge hS he)
  · split at htask
    · next t ht =>
        obtain rfl := List.mem_singleton.mp htask
        exact ⟨s, t, rfl, rfl, hext.edge hS he, hext.valid (hS.typed ht).2.1⟩
    · simp at htask

theorem Sound.site_of_isCall (hS : Sound L g) {c : NodeId} (hc : L.IsCall c) :
    ∃ s, g.site? c = some s := by
  rcases hc with ⟨w, r, k, rc, n, as, p, hc, -⟩ | ⟨d, r, as, hc⟩
  · obtain ⟨s, hs, -⟩ := Graph.site_of_blank (hS.fits hc).1 rfl
    exact ⟨s, hs⟩
  · obtain ⟨x, s, -, hb, -⟩ := hS.fits hc
    obtain ⟨s', hs', -⟩ := Graph.site_of_blank hb rfl
    exact ⟨s', hs'⟩

theorem Graph.role_of_blank {n : NodeId} {c : Cell} (h : g.blank n = some c) :
    (g.role n).blank = c.role := by
  unfold Graph.blank at h
  cases hc : g.cells[n]? with
  | none => simp [hc] at h
  | some c' =>
      simp only [hc, Option.map_some, Option.some.injEq] at h
      simp [Graph.role, hc, ← h, Cell.blank]

/-- A cell that types are merged into only merges them. -/
theorem Sound.role_ne_recorder (hS : Sound L g) {n : NodeId} (hn : L.IsOpen n) :
    g.role n ≠ .recorder := by
  obtain ⟨l, hl, hfixed⟩ := hn
  obtain ⟨c, hc, hrole⟩ : ∃ c, g.blank n = some c ∧ c.role ≠ .recorder := by
    cases l with
    | node w r k e => exact ⟨_, (hS.fits hl).1, by cases e <;> simp [Graph.freshRole]⟩
    | var | field =>
        obtain ⟨x, hx⟩ := hS.fits hl
        exact ⟨_, hx, by simp⟩
    | dispatch d => exact ⟨_, (hS.fits hl).1, by simp⟩
    | member d r as =>
        obtain ⟨x, s, -, hb, -⟩ := hS.fits hl
        exact ⟨_, hb, by simp⟩
    | input | builtin => cases hfixed
  intro hrec
  have hblank := Graph.role_of_blank hc
  rw [hrec] at hblank
  exact hrole hblank.symm

theorem Sound.role_of_isCall (hS : Sound L g) {c : NodeId} (hc : L.IsCall c) :
    ∃ s, g.role c = .call s := by
  obtain ⟨s, hs⟩ := hS.site_of_isCall hc
  refine ⟨s, ?_⟩
  unfold Graph.site? at hs
  split at hs
  · next h => rw [h]; cases hs; rfl
  · cases hs

/-- What an observer does when it is told a type. -/
def reactionTasks (o : NodeId) (t : Option Ty) : Reaction → List Task
  | .resolve => [.resolve o]
  | _ => t.toList.map (.widen o)

theorem Sound.react_eq (hS : Sound L g) {s o : NodeId} {r : Reaction} (he : g.EdgeOK L s o r)
    (t : Option Ty) : g.react (some s) o r t = g.next (reactionTasks o t r) := by
  obtain ⟨-, ho, hr⟩ := he
  unfold Graph.react
  cases r with
  | merge =>
      have hrec := hS.role_ne_recorder ho
      simp only [reactionTasks]
  | resolve =>
      obtain ⟨site, hsite⟩ := hS.role_of_isCall hr.2.1
      simp only [hsite, reactionTasks]
  | other => exact hr.elim

theorem keeps_react (hS : Sound L g) {s o : NodeId} {r : Reaction} {t : Option Ty}
    (he : g.EdgeOK L s o r) (ht : ∀ t' ∈ t, t'.Valid g) :
    Keeps L g L (g.react (some s) o r t) := by
  rw [hS.react_eq he]
  obtain ⟨-, ho, hr⟩ := he
  refine .next (.refl L g) hS fun task htask => ?_
  cases r with
  | merge =>
      obtain ⟨t', ht', rfl⟩ := List.mem_map.mp htask
      exact ⟨ho, ht t' (Option.mem_toList.mp ht')⟩
  | resolve =>
      obtain rfl := List.mem_singleton.mp htask
      exact ⟨hr.2.2, hr.2.1⟩
  | other => exact hr.elim

/-! ## Marks -/

theorem Graph.has_of_site {c : NodeId} {s : Site} {k : Mark} (hs : g.site? c = some s)
    (hk : (Role.call s).Has k) : g.Has (.mark c k) := by
  unfold Graph.site? Graph.role at hs
  cases hc : g.cells[c]? with
  | none => simp [hc] at hs
  | some x =>
      rw [Graph.has_mark hc]
      simp only [hc, Option.map_some, Option.getD_some] at hs
      split at hs
      · next hr =>
          cases hs
          rw [← hr] at hk
          cases k with
          | typed | edge => rw [hr] at hk; exact hk.elim
          | _ => exact hk
      · cases hs

theorem keeps_modifySite (hS : Sound L g) {c : NodeId} {f : Site → Site}
    (hf : ∀ s, (f s).blank = s.blank) (hl : ∀ s, s.linked = true → (f s).linked = true)
    (hnew : ∀ s k, g.site? c = some s → (Role.call (f s)).Has k → (Role.call s).Has k ∨
      (Entry.mark c k).OK L g) (ts : List Task) (hts : ∀ t ∈ ts, t.OK L (g.modifySite c f)) :
    Keeps L g L ((g.modifySite c f).next ts) := by
  have hext : Extends L g L (g.modifySite c f) := .of_grows (Graph.grows_modifySite g c hf hl)
  refine .next hext (hS.grow hext.grows fun hen => ?_) hts
  rcases Graph.has_modifySite hen with hen | ⟨s, k, hs, rfl, hk⟩
  · exact .inl hen
  · rcases hnew s k hs hk with hk | hk
    · exact .inl (Graph.has_of_site hs hk)
    · exact .inr (hext.entry hS hk)

theorem keeps_aim (hS : Sound L g) {c : NodeId} {t : Target} (hc : L.IsCall c)
    (ht : g.TargetOK L t) :
    Keeps L g L ((g.modifySite c fun s => { s with target := some t }).next []) := by
  refine keeps_modifySite (f := fun s => { s with target := some t }) hS (fun _ => rfl)
    (fun _ h => h) (fun s k _ hk => ?_) [] (fun _ h => nomatch h)
  cases k with
  | aimed t' =>
      simp only [Role.Has, Option.some.injEq] at hk
      subst hk
      exact .inr ⟨hc, ht⟩
  | found => exact .inr hc
  | _ => exact .inl hk

theorem keeps_markNew (hS : Sound L g) {c : NodeId} (hc : L c ≠ none) :
    Keeps L g L ((g.modifySite c fun s => { s with isNew := true }).next []) := by
  refine keeps_modifySite (f := fun s => { s with isNew := true }) hS (fun _ => rfl)
    (fun _ h => h) (fun s k _ hk => ?_) [] (fun _ h => nomatch h)
  cases k with
  | made => exact .inr hc
  | _ => exact .inl hk

theorem keeps_finish (hS : Sound L g) {c : NodeId} :
    Keeps L g L ((g.modifySite c fun s => { s with busy := false }).next []) := by
  refine keeps_modifySite (f := fun s => { s with busy := false }) hS (fun _ => rfl)
    (fun _ h => h) (fun s k _ hk => ?_) [] (fun _ h => nomatch h)
  cases k with
  | busy => simp [Role.Has] at hk
  | _ => exact .inl hk

theorem keeps_leave (hS : Sound L g) {w : WalkId} {outer : Option ObjId} :
    Keeps L g L ((g.modifyWalk w fun x => { x with klass := outer }).next []) := by
  have hg := Graph.grows_modifyWalk g w (f := fun x => { x with klass := outer }) fun _ => rfl
  refine .next (.of_grows hg) (hS.grow hg fun hen => ?_) (fun _ h => nomatch h)
  rcases Graph.has_modifyWalk (f := fun x => { x with klass := outer }) (fun _ => rfl) hen with hen | ⟨x, v, rfl, hv⟩
  · exact .inl hen
  · exact .inl hv

end TypeFlow
