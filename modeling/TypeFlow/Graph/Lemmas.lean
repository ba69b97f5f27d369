import TypeFlow.Graph.Planting
import TypeFlow.Graph.Update

/-! What each change of the graph does to what is read from it. Types, roles and observers are
read cell by cell, so a change shows at one address and nowhere else. -/

namespace TypeFlow

namespace Graph

variable (g : Graph) (n m : NodeId)

/-! ## Types -/

theorem type_setType (t : Ty) :
    (g.setType n t).type m = if n = m ∧ n < g.cells.size then some t else g.type m := by
  simp only [type, setType, Array.getElem?_modify]
  by_cases h : n = m
  · subst h
    by_cases hn : n < g.cells.size <;> simp [hn]
  · simp [h]

theorem role_setType (t : Ty) : (g.setType n t).role m = g.role m := by
  simp only [role, setType, Array.getElem?_modify]
  split <;> simp [Option.map_map, Function.comp_def]

theorem observers_setType (t : Ty) : (g.setType n t).observers m = g.observers m := by
  simp only [observers, setType, Array.getElem?_modify]
  split <;> simp [Option.map_map, Function.comp_def]

/-! ## Observers -/

theorem type_addObserver (o : NodeId) (r : Reaction) : (g.addObserver n o r).type m = g.type m := by
  simp only [type, addObserver, Array.getElem?_modify]
  split
  · rw [Option.bind_map]
    rfl
  · rfl

theorem role_addObserver (o : NodeId) (r : Reaction) : (g.addObserver n o r).role m = g.role m := by
  simp only [role, addObserver, Array.getElem?_modify]
  split <;> simp [Option.map_map, Function.comp_def]

theorem observers_addObserver (o : NodeId) (r : Reaction) :
    (g.addObserver n o r).observers m =
      if n = m ∧ n < g.cells.size then (g.observers m).put o r else g.observers m := by
  simp only [observers, addObserver, Array.getElem?_modify]
  by_cases h : n = m
  · subst h
    by_cases hn : n < g.cells.size <;> simp [hn]
  · simp [h]

/-! ## Calls -/

theorem type_modifySite (f : Site → Site) : (g.modifySite n f).type m = g.type m := by
  simp only [type, modifySite, Array.getElem?_modify]
  split
  · rw [Option.bind_map]
    congr 1
    funext c
    cases c with
    | mk role type observers => cases role <;> rfl
  · rfl

theorem site?_modifySite (f : Site → Site) :
    (g.modifySite n f).site? m = if n = m then (g.site? m).map f else g.site? m := by
  simp only [site?, role, modifySite, Array.getElem?_modify]
  by_cases h : n = m
  · subst h
    cases hc : g.cells[n]? with
    | none => simp
    | some c => cases c with
      | mk role type observers => cases role <;> simp
  · simp [h]

/-! ## New cells -/

@[simp] theorem addCell_snd (c : Cell) : (g.addCell c).2 = g.cells.size := rfl

theorem type_addCell (c : Cell) :
    (g.addCell c).1.type m = if m = g.cells.size then c.type else g.type m := by
  simp only [type, addCell, Array.getElem?_push]
  split <;> rfl

theorem observers_addCell (c : Cell) :
    (g.addCell c).1.observers m = if m = g.cells.size then c.observers else g.observers m := by
  simp only [observers, addCell, Array.getElem?_push]
  split <;> rfl

theorem role_addCell (c : Cell) :
    (g.addCell c).1.role m = if m = g.cells.size then c.role else g.role m := by
  simp only [role, addCell, Array.getElem?_push]
  split <;> rfl

/-- A tree takes the addresses after all cells that were there before. -/
@[simp] theorem plant_snd (e : Expr) : (g.plant e).2 = g.cells.size := rfl

theorem type_plant (e : Expr) : (g.plant e).1.type m = g.type m := by
  simp only [type, plant]
  by_cases h : m < g.cells.size
  · rw [Array.getElem?_append_left h]
  · rw [Array.getElem?_append_right (Nat.le_of_not_lt h),
      Array.getElem?_eq_none (Nat.le_of_not_lt h)]
    simp only [List.getElem?_toArray, List.getElem?_map, Option.bind_none]
    cases (e.nodes g.cells.size)[m - g.cells.size]? <;> rfl

end Graph

end TypeFlow
