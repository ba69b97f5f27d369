import TypeFlow.Proofs.Visiting

/-! # New trees and new variables have labels -/

namespace TypeFlow

variable {L : Labels} {g : Graph}

theorem Extends.trans {L' L'' : Labels} {g' g'' : Graph} (h : Extends L g L' g')
    (h' : Extends L' g' L'' g'') : Extends L g L'' g'' where
  grows := h.grows.trans h'.grows
  label n hn := by rw [h'.label n (Nat.lt_of_lt_of_le hn h.grows.size_le), h.label n hn]

/-! ## Trees -/

namespace Expr

/-- The addresses of a tree follow each other. -/
theorem fst_of_getElem?_nodes {e : Expr} {i j : Nat} {p : Nat × Expr}
    (h : (e.nodes i)[j]? = some p) : p.1 = i + j := by
  have hmap : ((e.nodes i).map (·.1))[j]? = some p.1 := by simp [h]
  have hj : j < e.size := by
    rw [← e.length_nodes i]
    exact (List.getElem?_eq_some_iff.mp h).1
  rw [map_fst_nodes, List.getElem?_range' hj] at hmap
  have := Option.some.inj hmap
  omega

theorem getElem?_of_mem_nodes {e : Expr} {i : Nat} {p : Nat × Expr} (h : p ∈ e.nodes i) :
    ∃ j, p.1 = i + j ∧ (e.nodes i)[j]? = some p := by
  obtain ⟨j, hj⟩ := List.getElem?_of_mem h
  exact ⟨j, fst_of_getElem?_nodes hj, hj⟩

/-- Nodes of a tree at one address are the same. -/
theorem nodes_unique {e : Expr} {i : Nat} {p q : Nat × Expr} (hp : p ∈ e.nodes i)
    (hq : q ∈ e.nodes i) (h : p.1 = q.1) : p = q := by
  obtain ⟨j, hj, hpj⟩ := getElem?_of_mem_nodes hp
  obtain ⟨k, hk, hqk⟩ := getElem?_of_mem_nodes hq
  obtain rfl : j = k := by omega
  rw [hpj] at hqk
  exact Option.some.inj hqk

end Expr

namespace Graph

theorem cells_plant (g : Graph) (e : Expr) :
    (g.plant e).1.cells.size = g.cells.size + e.size := by
  simp [plant, Expr.length_nodes]

theorem blank_plant {e : Expr} {p : Nat × Expr} (hp : p ∈ e.nodes g.cells.size) :
    (g.plant e).1.blank p.1 = some { role := freshRole p.1 p.2, extent := p.2.size } := by
  obtain ⟨j, hj, hpj⟩ := Expr.getElem?_of_mem_nodes hp
  have hfresh : ∀ x : Expr, (freshRole p.1 x).blank = freshRole p.1 x := by
    intro x
    cases x <;> rfl
  have hcell : (g.plant e).1.cells[p.1]? =
      some { role := freshRole p.1 p.2, extent := p.2.size } := by
    rw [plant, hj, Array.getElem?_append_right (Nat.le_add_right ..)]
    simp [hpj, hj]
  simp [blank, hcell, Cell.blank, hfresh]

end Graph

/-- The labels of the cells of a tree that a walk goes over. -/
def Labels.ofTree (w : WalkId) (root : NodeId) (e : Expr) : List (Option Label) :=
  (e.nodes root).map fun p =>
    ((e.stops none root).find? fun q => q.node == p.1).map fun q => .node w root q.klass q.expr

theorem Labels.length_ofTree (w : WalkId) (root : NodeId) (e : Expr) :
    (ofTree w root e).length = e.size := by
  simp [ofTree, Expr.length_nodes]

theorem Labels.append_ofTree_stop {w : WalkId} {e : Expr} {q : Stop}
    (hq : q ∈ e.stops none g.cells.size) :
    L.append g (ofTree w g.cells.size e) q.node = some (.node w g.cells.size q.klass q.expr) := by
  obtain ⟨j, hj, hnode⟩ := Expr.getElem?_of_mem_nodes (Expr.mem_nodes_of_mem_stops hq)
  simp only at hj
  have hfind : (e.stops none g.cells.size).find? (fun s => s.node == q.node) = some q := by
    cases hs : (e.stops none g.cells.size).find? fun s => s.node == q.node with
    | none => simpa using List.find?_eq_none.mp hs q hq
    | some s =>
        rw [Expr.stop_unique (List.mem_of_find?_eq_some hs) hq (by simpa using List.find?_some hs)]
  rw [hj]
  refine L.append_new g ?_
  simp [ofTree, hnode, hfind]

theorem Labels.append_ofTree_none {w : WalkId} {e : Expr} {p : Nat × Expr}
    (hp : p ∈ e.nodes g.cells.size) (hstop : ∀ q ∈ e.stops none g.cells.size, q.node ≠ p.1) :
    L.append g (ofTree w g.cells.size e) p.1 = none := by
  obtain ⟨j, hj, hnode⟩ := Expr.getElem?_of_mem_nodes hp
  have hfind : (e.stops none g.cells.size).find? (fun s => s.node == p.1) = none := by
    simpa using hstop
  rw [hj]
  simp [append, ofTree, hnode, hfind]

theorem Labels.mem_ofTree {w : WalkId} {root : NodeId} {e : Expr} {j : Nat} {l : Label}
    (h : (ofTree w root e)[j]? = some (some l)) :
    ∃ q ∈ e.stops none root, q.node = root + j ∧ l = .node w root q.klass q.expr := by
  simp only [ofTree, List.getElem?_map, Option.map_eq_some_iff] at h
  obtain ⟨p, hp, q, hq, rfl⟩ := h
  refine ⟨q, List.mem_of_find?_eq_some hq, ?_, rfl⟩
  have := List.find?_some hq
  simp only [beq_iff_eq] at this
  rw [this, Expr.fst_of_getElem?_nodes hp]

/-- A new tree gets the labels of a walk over it. -/
theorem extends_plant (hS : Sound L g) (w : WalkId) (e : Expr) :
    Extends L g (L.append g (Labels.ofTree w g.cells.size e)) (g.plant e).1 ∧
      Sound (L.append g (Labels.ofTree w g.cells.size e)) (g.plant e).1 := by
  refine hS.append _ (Graph.grows_plant g e)
    (by rw [Graph.cells_plant, Labels.length_ofTree]) (fun j l hj => ?_)
    fun hen => .inl (Graph.has_plant hen)
  obtain ⟨q, hq, hnode, rfl⟩ := Labels.mem_ofTree hj
  rw [← hnode]
  have hnodes := Expr.mem_nodes_of_mem_stops hq
  refine ⟨Graph.blank_plant hnodes, (Expr.stop_range hq).1, fun p hp => ?_, ?_⟩
  · exact Labels.append_ofTree_stop (Expr.stops_trans hq (Expr.mem_stops_of_mem_parts hp))
  · intro name ps b hmethod p hp
    have hbody : p ∈ e.nodes g.cells.size :=
      Expr.nodes_subset_of_mem_stops hq p (by simp [hmethod, Expr.nodes, hp])
    refine ⟨Labels.append_ofTree_none hbody fun s hs heq => ?_, Graph.blank_plant hbody⟩
    obtain ⟨i, hi, hpi⟩ := Expr.getElem?_of_mem_nodes hp
    have hi' : i < b.size := by
      rw [← Expr.length_nodes b (q.node + 1)]
      exact (List.getElem?_eq_some_iff.mp hpi).1
    have hsize : q.expr.size = 1 + b.size := by rw [hmethod, Expr.size]
    rcases Expr.stop_not_in_method hq hmethod hs with h | h <;> omega

/-! ## Variables -/

namespace Graph

theorem cells_addSlots (g : Graph) (slots : List (Option String × Ty)) :
    (g.addSlots slots).1.cells.size = g.cells.size + slots.length := by
  induction slots generalizing g with
  | nil => rfl
  | cons s slots ih =>
      simp only [addSlots, ih, addSlot, addCell, Array.size_push, List.length_cons]
      omega

theorem snd_addSlots (g : Graph) (slots : List (Option String × Ty)) :
    (g.addSlots slots).2 = List.range' g.cells.size slots.length := by
  induction slots generalizing g with
  | nil => rfl
  | cons s slots ih =>
      simp only [addSlots, ih, addSlot, addCell, Array.size_push, List.length_cons,
        List.range'_succ]

theorem blank_addSlots {slots : List (Option String × Ty)} {j : Nat} {s : Option String × Ty}
    (hj : slots[j]? = some s) :
    (g.addSlots slots).1.blank (g.cells.size + j) = some { role := .slot s.1 } := by
  induction slots generalizing g j with
  | nil => simp at hj
  | cons a slots ih =>
      cases j with
      | zero =>
          obtain rfl : a = s := by simpa using hj
          refine (grows_addSlots (g.addSlot a.1 (some a.2)).1 slots).blank ?_
          simp [blank, addSlot, addCell, Cell.blank, Role.blank]
      | succ j =>
          have hslot := ih (g := (g.addSlot a.1 (some a.2)).1) (by simpa using hj)
          have hsize : (g.addSlot a.1 (some a.2)).1.cells.size + j = g.cells.size + (j + 1) := by
            simp only [addSlot, addCell, Array.size_push]
            omega
          rwa [hsize] at hslot

theorem others_addSlots (g : Graph) (slots : List (Option String × Ty)) :
    (g.addSlots slots).1.objects = g.objects ∧ (g.addSlots slots).1.walks = g.walks := by
  induction slots generalizing g with
  | nil => exact ⟨rfl, rfl⟩
  | cons s slots ih => exact ih (g.addSlot s.1 (some s.2)).1

end Graph

/-- New variables with types get the labels of what they are for. -/
theorem extends_addSlots (hS : Sound L g) (slots : List (Option String × Ty)) (ls : List Label)
    (hlen : ls.length = slots.length) (hvalid : ∀ s ∈ slots, s.2.Valid g)
    (hls : ∀ (j : Nat) s l, slots[j]? = some s → ls[j]? = some l →
      (∃ w x, l = .var w x) ∨ l = .input s.2) :
    Extends L g (L.append g (ls.map some)) (g.addSlots slots).1 ∧
      Sound (L.append g (ls.map some)) (g.addSlots slots).1 := by
  refine hS.append _ (Graph.grows_addSlots g slots)
    (by rw [Graph.cells_addSlots, List.length_map, hlen]) (fun j l hj => ?_) fun hen => ?_
  · obtain ⟨s, hs⟩ : ∃ s, slots[j]? = some s := by
      have hlt := (List.getElem?_eq_some_iff.mp hj).1
      rw [List.length_map, hlen] at hlt
      exact ⟨_, List.getElem?_eq_getElem hlt⟩
    have hblank := Graph.blank_addSlots (g := g) hs
    rcases hls j s l hs (by simpa using hj) with ⟨w, x, rfl⟩ | rfl <;> exact ⟨_, hblank⟩
  · rcases Graph.has_addSlots hen with hen | ⟨j, s, hs, rfl⟩
    · exact .inl hen
    · obtain ⟨l, hl⟩ : ∃ l, ls[j]? = some l := by
        have hlt := (List.getElem?_eq_some_iff.mp hs).1
        exact ⟨_, List.getElem?_eq_getElem (by omega)⟩
      have hnew : L.append g (ls.map some) (g.cells.size + j) = some l :=
        L.append_new g (by simp [hl])
      have hs' := (Extends.of_grows (Graph.grows_addSlots g slots) (L := L)).valid
        (hvalid s (List.mem_of_getElem? hs))
      refine .inr ⟨by simp [hnew], hs', fun t' ht' => ?_⟩
      rw [hnew] at ht'
      rcases hls j s l hs hl with ⟨w, x, rfl⟩ | rfl
      · cases ht'
      · cases ht'
        rfl

/-! ## Walks over instances -/

/-- The variables of a walk whose inputs lie from an address on. -/
def varsOver (base : NodeId) (inputs : List (String × Ty)) : Table String NodeId :=
  Table.ofList ((inputs.map (·.1)).zip (List.range' base inputs.length))

/-- The labels of the inputs of a walk. An input is hidden by a later one of the same name. -/
def Labels.ofInputs (w : WalkId) (base : NodeId) (inputs : List (String × Ty)) : List Label :=
  inputs.mapIdx fun j p =>
    if (varsOver base inputs).lookup p.1 = some (base + j) then .var w p.1 else .input p.2

/-- The labelling after the walk over an instance was added. -/
def Labels.walked (L : Labels) (g : Graph) (inputs : List (String × Ty)) : Labels :=
  L.append g ((ofInputs g.walks.size g.cells.size inputs).map some)

/-- An object type, if it is one. -/
def Atom.object? : Atom → Option ObjId
  | .prim _ => none
  | .obj i => some i

theorem Graph.addWalkOver_eq (g : Graph) (inputs : List (String × Ty)) (owner : Option Atom) :
    g.addWalkOver inputs owner =
      (g.addSlots (inputs.map fun p => (some p.1, p.2))).1.addWalk
        { vars := varsOver g.cells.size inputs, self := owner.bind Atom.object? } := by
  simp only [addWalkOver, snd_addSlots, List.length_map]
  rcases owner with _ | _ | _ <;> rfl

theorem Labels.walked_var {inputs : List (String × Ty)} {x : String} {v : NodeId}
    (h : (x, v) ∈ varsOver g.cells.size inputs) :
    L.walked g inputs v = some (.var g.walks.size x) := by
  have hlookup : (varsOver g.cells.size inputs).lookup x = some v :=
    Table.lookup_of_mem (Table.nodup_ofList _) h
  obtain ⟨j, hj⟩ := List.getElem?_of_mem (Table.mem_of_mem_ofList h)
  obtain ⟨hx, hv⟩ := List.getElem?_zip_eq_some.mp hj
  rw [List.getElem?_map] at hx
  obtain ⟨p, hp, rfl⟩ := Option.map_eq_some_iff.mp hx
  have hlt := (List.getElem?_eq_some_iff.mp hp).1
  obtain rfl : g.cells.size + j = v := by
    rw [List.getElem?_range' hlt] at hv
    simpa using hv
  refine L.append_new g ?_
  simp only [ofInputs, List.getElem?_map, List.getElem?_mapIdx, hp, Option.map_some]
  rw [if_pos hlookup]

theorem extends_addWalkOver (hS : Sound L g) {inputs : List (String × Ty)} (owner : Option Atom)
    (hvalid : ∀ p ∈ inputs, p.2.Valid g)
    (howner : ∀ i, owner = some (.obj i) → ∃ o, g.objects[i]? = some o) :
    Extends L g (L.walked g inputs) (g.addWalkOver inputs owner).1 ∧
      Sound (L.walked g inputs) (g.addWalkOver inputs owner).1 := by
  obtain ⟨hext, hsound⟩ := extends_addSlots hS (inputs.map fun p => (some p.1, p.2))
    (Labels.ofInputs g.walks.size g.cells.size inputs) (by simp [Labels.ofInputs])
    (fun s hs => by
      obtain ⟨p, hp, rfl⟩ := List.mem_map.mp hs
      exact hvalid p hp) (fun j s l hs hl => by
      simp only [List.getElem?_map, Option.map_eq_some_iff] at hs
      obtain ⟨p, hp, rfl⟩ := hs
      simp only [Labels.ofInputs, List.getElem?_mapIdx, hp, Option.map_some,
        Option.some.injEq] at hl
      subst hl
      split
      · exact .inl ⟨_, _, rfl⟩
      · exact .inr rfl)
  obtain ⟨hobjects, hwalks⟩ :=
    Graph.others_addSlots g (inputs.map fun p => (some p.1, p.2))
  rw [Graph.addWalkOver_eq]
  have hwalk := Graph.grows_addWalk (g.addSlots (inputs.map fun p => (some p.1, p.2))).1
    { vars := varsOver g.cells.size inputs, self := owner.bind Atom.object? }
  refine ⟨⟨hext.grows.trans hwalk, hext.label⟩, hsound.grow hwalk fun hen => ?_⟩
  rcases Graph.has_addWalk hen with hen | ⟨x, v, rfl, hv⟩ | ⟨i, rfl, hi⟩
  · exact .inl hen
  · rw [hwalks]
    exact .inr (Labels.walked_var hv)
  · refine .inr ?_
    obtain ⟨a, rfl, ha⟩ := Option.bind_eq_some_iff.mp hi
    cases a with
    | prim => cases ha
    | obj j =>
        cases ha
        obtain ⟨o, ho⟩ := howner i rfl
        exact ⟨o, by simpa [Graph.addWalk, hobjects] using ho⟩

end TypeFlow
