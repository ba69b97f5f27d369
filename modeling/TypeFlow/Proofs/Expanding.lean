import TypeFlow.Proofs.Leading
import TypeFlow.Proofs.Solving
import TypeFlow.Proofs.Templates

/-! # The members of a dispatch

A dispatch gets a member for each choice of concrete types, one after the other and in their order,
however often calls come back to it in the meantime. No member replaces another one, as the choices
differ. -/

namespace TypeFlow

/-! ## Choices that differ -/

theorem map_choices {α β : Type} (f : α → β) (ls : List (List α)) :
    (choices ls).map (List.map f) = choices (ls.map (List.map f)) := by
  induction ls with
  | nil => rfl
  | cons l ls ih =>
      simp only [choices, List.map_cons, List.map_flatMap, List.flatMap_map, ← ih, List.map_map]
      rfl

/-- Lists without repetitions lead to choices without repetitions. -/
theorem nodup_choices {α : Type} {ls : List (List α)} (h : ∀ l ∈ ls, l.Nodup) :
    (choices ls).Nodup := by
  induction ls with
  | nil => exact List.nodup_singleton _
  | cons l ls ih =>
      have hrest := ih fun l hl => h l (List.mem_cons_of_mem _ hl)
      refine List.nodup_flatMap.mpr ⟨fun x _ => hrest.map fun _ _ heq => (List.cons.inj heq).2, ?_⟩
      refine (h l (List.mem_cons_self ..)).imp fun {x y} hxy => ?_
      rintro _ hx hy
      obtain ⟨xs, -, rfl⟩ := List.mem_map.mp hx
      obtain ⟨ys, -, heq⟩ := List.mem_map.mp hy
      exact hxy (List.cons.inj heq).1.symm

namespace Heap

/-- A choice of concrete types by their names. -/
def tagChoice (h : Heap) (k : Option Atom × List Atom) : Option Tag × List Tag :=
  (k.1.map h.tag, k.2.map h.tag)

/-- The choices for types whose members differ by name differ by name. -/
theorem nodup_combinations {h : Heap} {receiver : Option Ty} {args : List Ty}
    (hdiffer : ∀ t ∈ receiver.toList ++ args, (t.members.map h.tag).Nodup) :
    ((combinations receiver args).map h.tagChoice).Nodup := by
  have hchoices : ((choices (args.map Ty.members)).map (List.map h.tag)).Nodup := by
    rw [map_choices, List.map_map]
    refine nodup_choices fun l hl => ?_
    obtain ⟨t, ht, rfl⟩ := List.mem_map.mp hl
    exact hdiffer t (List.mem_append_right _ ht)
  have hmap : (combinations receiver args).map h.tagChoice =
      ((receiver.elim [none] fun t => t.members.map some).map (Option.map h.tag)).flatMap fun r =>
        ((choices (args.map Ty.members)).map (List.map h.tag)).map fun as => (r, as) := by
    simp only [combinations, List.map_flatMap, List.flatMap_map, List.map_map]
    rfl
  have hreceivers : ((receiver.elim [none] fun t => t.members.map some).map
      (Option.map h.tag)).Nodup := by
    cases receiver with
    | none => exact List.nodup_singleton _
    | some t =>
        have ht := (hdiffer t (by simp)).map (Option.some_injective Tag)
        simpa [List.map_map, Function.comp_def] using ht
  rw [hmap]
  refine List.nodup_flatMap.mpr
    ⟨fun r _ => hchoices.map fun _ _ heq => (Prod.mk.inj heq).2, hreceivers.imp fun {r r'} hr => ?_⟩
  rintro _ hx hy
  obtain ⟨_, -, rfl⟩ := List.mem_map.mp hx
  obtain ⟨_, -, heq⟩ := List.mem_map.mp hy
  exact hr (Prod.mk.inj heq).1.symm

/-- Choices have equal types if these have the same names. -/
theorem Flat.sameRow_choice {h : Heap} (hf : h.Flat) (k k' : Option Atom × List Atom) :
    h.sameRow (k.1.map Ty.one :: k.2.map fun a => some (.one a))
        (k'.1.map Ty.one :: k'.2.map fun a => some (.one a)) = true ↔
      h.tagChoice k = h.tagChoice k' := by
  have hrow : ∀ k : Option Atom × List Atom,
      ∀ t ∈ k.1.map Ty.one :: k.2.map fun a => some (Ty.one a), ∀ T ∈ t, T.Normal h := by
    intro k t ht T hT
    rcases List.mem_cons.mp ht with rfl | ht
    · obtain ⟨a, -, rfl⟩ := Option.mem_map.mp hT
      exact .one h a
    · obtain ⟨a, -, rfl⟩ := List.mem_map.mp ht
      cases hT
      exact .one h a
  have htags : ∀ k : Option Atom × List Atom,
      h.tagRow (k.1.map Ty.one :: k.2.map fun a => some (.one a)) =
        (h.tagChoice k).1.map (fun t => {t}) :: (h.tagChoice k).2.map fun t => some {t} := by
    intro k
    rw [tagRow, List.map_cons, ← tagRow, tagRow_concrete, tagChoice, Option.map_map, Option.map_map]
    rfl
  have hsingle : Function.Injective fun t : Tag => ({t} : Finset Tag) := Finset.singleton_injective
  rw [hf.sameRow_iff (hrow k) (hrow k'), htags, htags, List.cons.injEq,
    (Option.map_injective hsingle).eq_iff, singletons_injective.list_map.eq_iff, Prod.ext_iff]

end Heap

/-! ## Other tasks leave the members alone -/

namespace Graph

/-- All dispatches are as they were. -/
def KeepsMembers (g g' : Graph) : Prop :=
  ∀ (d : NodeId) (x : Dispatch), g.dispatch? d = some x → g'.dispatch? d = some x

variable {g g' g'' : Graph}

theorem KeepsMembers.refl (g : Graph) : KeepsMembers g g := fun _ _ h => h

theorem KeepsMembers.trans (h : KeepsMembers g g') (h' : KeepsMembers g' g'') :
    KeepsMembers g g'' := fun d x hx => h' d x (h d x hx)

theorem dispatch?_eq_some_iff {d : NodeId} {x : Dispatch} :
    g.dispatch? d = some x ↔ ∃ c, g.cells[d]? = some c ∧ c.role = .dispatch x := by
  cases hc : g.cells[d]? with
  | none => simp [dispatch?, role, hc]
  | some c => cases hr : c.role <;> simp [dispatch?, role, hc, hr]

theorem keepsMembers_modify {f : Cell → Cell} (n : NodeId)
    (hf : ∀ c x, c.role = .dispatch x → (f c).role = .dispatch x) :
    KeepsMembers g { g with cells := g.cells.modify n f } := by
  intro d x hx
  obtain ⟨c, hc, hr⟩ := dispatch?_eq_some_iff.mp hx
  refine dispatch?_eq_some_iff.mpr ?_
  by_cases hnd : n = d
  · exact ⟨f c, by simp [Array.getElem?_modify, hnd, hc], hf c x hr⟩
  · exact ⟨c, by simp [Array.getElem?_modify, hnd, hc], hr⟩

theorem keepsMembers_append (hcells : ∀ n < g.cells.size, g'.cells[n]? = g.cells[n]?) :
    KeepsMembers g g' := by
  intro d x hx
  obtain ⟨c, hc, hr⟩ := dispatch?_eq_some_iff.mp hx
  exact dispatch?_eq_some_iff.mpr
    ⟨c, (hcells d (Array.getElem?_eq_some_iff.mp hc).1).trans hc, hr⟩

theorem keepsMembers_of_cells (hcells : g'.cells = g.cells) : KeepsMembers g g' :=
  keepsMembers_append fun _ _ => by rw [hcells]

theorem keepsMembers_addCell (g : Graph) (c : Cell) : KeepsMembers g (g.addCell c).1 :=
  keepsMembers_append fun n hn => by
    simp only [addCell, Array.getElem?_push, if_neg (Nat.ne_of_lt hn)]

theorem keepsMembers_addSlots (g : Graph) (slots : List (Option String × Ty)) :
    KeepsMembers g (g.addSlots slots).1 := by
  induction slots generalizing g with
  | nil => exact .refl g
  | cons s slots ih => exact (keepsMembers_addCell g _).trans (ih _)

theorem keepsMembers_copyFields (g : Graph) (fields : Table String NodeId) :
    KeepsMembers g (g.copyFields fields).1 := by
  induction fields generalizing g with
  | nil => exact .refl g
  | cons f fields ih => exact (keepsMembers_addCell g _).trans (ih _)

theorem keepsMembers_modifySite (g : Graph) (n : NodeId) (f : Site → Site) :
    KeepsMembers g (g.modifySite n f) :=
  keepsMembers_modify n fun c x hr => by simp [hr]

theorem keepsMembers_modifyMethod (g : Graph) (n : NodeId) (f : Method → Method) :
    KeepsMembers g (g.modifyMethod n f) :=
  keepsMembers_modify n fun c x hr => by simp [hr]

theorem keepsMembers_storeType (g : Graph) (n : NodeId) (t : Ty) :
    KeepsMembers g (g.storeType n t).1 := by
  rcases g.storeType_cases n t with ⟨h, -⟩ | ⟨h, -⟩ <;> rw [h]
  · exact .refl g
  · exact keepsMembers_modify n fun _ _ hr => hr

theorem keepsMembers_placeOf (g : Graph) (w : WalkId) (p : Place) (n : NodeId) :
    KeepsMembers g (g.placeOf w p n).1 := by
  have hslot : ∀ {g' : Graph}, g'.cells = (g.addSlot (some p.name.text) none).1.cells →
      KeepsMembers g g' := fun h => (keepsMembers_addCell g _).trans (keepsMembers_of_cells h)
  unfold placeOf
  cases p.kind with
  | localVar =>
      dsimp only [variableOf]
      split
      · exact .refl g
      · exact hslot rfl
  | instanceVar =>
      dsimp only
      split
      · dsimp only [fieldOf]
        split
        · exact .refl g
        · exact hslot rfl
      · exact .refl g

theorem keepsMembers_visit (g : Graph) (w : WalkId) (e : Expr) (n : NodeId) :
    KeepsMembers g (g.visit w e n).1 := by
  generalize hvisit : (g.visit w e n).1 = g'
  cases Graph.visits hvisit with
  | same => exact .refl g
  | place => exact g.keepsMembers_placeOf w _ n
  | method =>
      unfold putMethod
      split <;> exact keepsMembers_of_cells rfl
  | entered | defined => exact keepsMembers_of_cells rfl
  | call => exact g.keepsMembers_modifySite n _
  | clone =>
      unfold cloneObject
      split
      · exact .refl g
      · exact (keepsMembers_copyFields g _).trans (keepsMembers_of_cells rfl)

theorem keepsMembers_addMember (g : Graph) (x : Dispatch) (r : Option Atom) (as : List Atom) :
    KeepsMembers g (g.withMember x r as) :=
  (keepsMembers_addSlots g _).trans (keepsMembers_addCell _ _)

section step

variable {L : Labels} {task : Task}

theorem keepsMembers_resolve (hS : Sound L g) {c : NodeId} (hl : g.Linked c) :
    KeepsMembers g (g.resolve c).1 := by
  obtain ⟨s, -, -, hcases⟩ := resolves_resolve hS hl
  generalize L.resolved g c = L', g.resolve c = step at hcases
  cases hcases with
  | waiting | dispatch | undefined | arity | frozen | inst => exact .refl g
  | newDispatch => exact (keepsMembers_addCell g _).trans (keepsMembers_of_cells rfl)
  | newInst =>
      have hbody : ∀ body inputs owner, KeepsMembers g (g.withBody body inputs owner) :=
        fun body inputs owner => keepsMembers_append fun n hn => getElem?_withBody _ _ _ _ hn
      have hinst : ∀ g' : Graph, ∀ x, KeepsMembers g' (g'.addInstance x).1 := fun g' x =>
        (keepsMembers_of_cells rfl : KeepsMembers g' { g' with instances := _ }).trans
          (keepsMembers_modifyMethod _ _ _)
      exact (((hbody _ _ _).trans (hinst _ _)).trans (keepsMembers_of_cells rfl)).trans
        (keepsMembers_modifySite _ c _)

/-- Only a task that adds a member changes a dispatch. -/
theorem keepsMembers_perform (hS : Sound L g) (hok : task.OK L g)
    (hne : ∀ d r as, task ≠ .member d r as) : KeepsMembers g (g.perform task).1 := by
  cases task with
  | visit w e n => exact g.keepsMembers_visit w e n
  | store n t => exact g.keepsMembers_storeType n t
  | widen n t =>
      rw [perform, hS.widenType_eq hok.2]
      exact g.keepsMembers_storeType n _
  | subscribe s o r => exact keepsMembers_modify s fun _ _ hr => hr
  | deliver s o r =>
      have he : g.EdgeOK L s o r := hok
      rw [perform, hS.react_eq he]
      exact .refl g
  | react s o r t =>
      obtain ⟨s', t', rfl, rfl, he, -⟩ := hok
      rw [perform, hS.react_eq he]
      exact .refl g
  | notify => exact hok.elim
  | bind w p n =>
      rw [perform, g.graph_bind]
      exact g.keepsMembers_placeOf w p (n + 1)
  | resolve c => exact keepsMembers_resolve hS hok.1
  | aim | markNew | finish => exact g.keepsMembers_modifySite _ _
  | leave => exact keepsMembers_of_cells rfl
  | member d r as => exact (hne d r as rfl).elim

end step

end Graph

/-! ## Members in order -/

variable {L : Labels} {g g' : Graph} {task : Task} {ts rest : List Task} {d c : NodeId}

/-- The choices for which a dispatch is yet to get a member. -/
def awaited (d : NodeId) (ts : List Task) : List (Option Atom × List Atom) :=
  ts.filterMap fun
    | .member d' r as => if d' = d then some (r, as) else none
    | _ => none

theorem awaited_append (d : NodeId) (ts us : List Task) :
    awaited d (ts ++ us) = awaited d ts ++ awaited d us :=
  List.filterMap_append ..

theorem awaited_cons_member (d : NodeId) (r : Option Atom) (as : List Atom) (ts : List Task) :
    awaited d (.member d r as :: ts) = (r, as) :: awaited d ts :=
  List.filterMap_cons_some (if_pos rfl)

theorem awaited_eq_nil (h : ∀ r as, .member d r as ∉ ts) : awaited d ts = [] := by
  refine List.filterMap_eq_nil_iff.mpr fun t ht => ?_
  split
  · next d' r as =>
      refine if_neg fun hd => h r as ?_
      rwa [← hd]
  · rfl

theorem awaited_memberTasks (d : NodeId) (receiver : Option Ty) (args : List Ty) :
    awaited d (Graph.memberTasks d receiver args) = combinations receiver args := by
  rw [memberTasks_eq, awaited, List.filterMap_map]
  exact (List.filterMap_congr fun k _ => if_pos rfl).trans List.filterMap_some

/-- A dispatch is over a union. It has members for the first of its choices, in their order, each
over variables of the types that were chosen, and members for the others will follow. It has no
other members. -/
structure Graph.Expands (L : Labels) (g : Graph) (ts : List Task) (d : NodeId) (x : Dispatch) :
    Prop where
  mixed : (x.receiver.toList ++ x.args).any Ty.isMixed = true
  keys : x.calls.map (·.1) ++ awaited d ts = combinations x.receiver x.args
  members : ∀ e ∈ x.calls, L e.2 = some (.member d e.1.1 e.1.2) ∧
    g.Given e.2 (e.1.1.map .one, e.1.2.map .one) ∧ g.Observes ts e.2 d .merge
  only : ∀ {c r as}, L c = some (.member d r as) → ((r, as), c) ∈ x.calls

/-- All dispatches have their members, or will get them. -/
def Expanding (L : Labels) (g : Graph) (ts : List Task) : Prop :=
  ∀ d x, L.IsDispatch d → g.dispatch? d = some x → g.Expands L ts d x

theorem dispatch?_addMember {x : Dispatch} {r : Option Atom} {as : List Atom}
    (hx : g.dispatch? d = some x) (hp : g.perform (.member d r as) = (g', .ok ts)) :
    g'.dispatch? d = some { x with
      calls := x.calls.putBy (g.withMember x r as).sameMember (r, as) (g.memberAt r as) } ∧
    ∀ d' x', d' ≠ d → g.dispatch? d' = some x' → g'.dispatch? d' = some x' := by
  rw [Graph.perform, Graph.addMember_eq hx] at hp
  cases hp
  have hkeep := g.keepsMembers_addMember x r as
  refine ⟨?_, fun d' x' hne hx' => ?_⟩
  · obtain ⟨cell, hcell, hrole⟩ := Graph.dispatch?_eq_some_iff.mp (hkeep d x hx)
    refine Graph.dispatch?_eq_some_iff.mpr ⟨{ cell with role := .dispatch { x with
      calls := x.calls.putBy (g.withMember x r as).sameMember (r, as) (g.memberAt r as) } }, ?_, rfl⟩
    simp [Graph.modifyDispatch, Array.getElem?_modify, hcell, hrole]
  · obtain ⟨cell, hcell, hrole⟩ := Graph.dispatch?_eq_some_iff.mp (hkeep d' x' hx')
    refine Graph.dispatch?_eq_some_iff.mpr ⟨cell, ?_, hrole⟩
    simp [Graph.modifyDispatch, Array.getElem?_modify, hne.symm, hcell]

/-- The only new call is the member. -/
theorem member_joined {d' : NodeId} {r r' : Option Atom} {as as' : List Atom}
    (h : L.joined g d r as c = some (.member d' r' as')) :
    L c = some (.member d' r' as') ∨ c = g.memberAt r as ∧ d' = d ∧ r' = r ∧ as' = as := by
  rcases Labels.append_cases h with ⟨-, h⟩ | ⟨j, rfl, hj⟩
  · exact .inl h
  · right
    rw [List.getElem?_append] at hj
    split at hj
    · obtain ⟨s, -, heq⟩ := List.mem_map.mp (List.mem_of_getElem? hj)
      cases heq
    · next hlt =>
        rw [List.length_map] at hlt hj
        obtain ⟨hj, heq⟩ := Labels.eq_of_singleton hj
        cases heq
        exact ⟨congrArg (g.cells.size + ·) (by omega), rfl, rfl, rfl⟩

/-- A dispatch that is made has no members yet, and tasks that wait will add them. -/
theorem Graph.Makes.dispatch? {y : Dispatch} (h : g.Makes task d y g' ts) :
    g'.dispatch? d = some y ∧ (y.receiver.toList ++ y.args).any Ty.isMixed = true ∧
      y.calls = [] ∧ awaited d ts = combinations y.receiver y.args := by
  cases h with
  | intro n hs hin hmixed =>
      refine ⟨g.dispatch?_addDispatch .., hmixed, rfl, ?_⟩
      rw [awaited_append, awaited_memberTasks, awaited_eq_nil (by simp), List.append_nil]
      rfl

theorem Graph.Makes.not_isDispatch {y : Dispatch} (h : g.Makes task d y g' ts) (hS : Sound L g) :
    ¬ L.IsDispatch d := by
  rintro ⟨z, hz⟩
  exact Nat.lt_irrefl _ (h.eq_size ▸ hS.bound hz)

theorem Graph.Makes.type {y : Dispatch} (h : g.Makes task d y g' ts) : g'.type d = none := by
  cases h
  simp [Graph.notice, Graph.addDispatch, Graph.addCell, Graph.type]

section step

variable (hS : Sound L g) (hok : task.OK L g) (hp : g.perform task = (g', .ok ts))
include hS hok hp

/-- What a member is given stays. -/
theorem given_member_step {r : Option Atom} {as : List Atom} {y : Option Ty × List Ty}
    (hc : L c = some (.member d r as)) (h : g.Given c y) : g'.Given c y := by
  obtain ⟨s, hs, -⟩ := id h
  refine (Graph.Given.of_types (extends_of_perform hS hok hp).grows hs fun v hv => ?_).mpr h
  obtain ⟨t, ht⟩ := hS.input_of_member hc hv
  exact type_of_fixed hS hok hp ht rfl

/-- Only a task that adds a member to a dispatch does so, and no task asks for more members of a
dispatch that is there. -/
theorem dispatch_step_of_ne (rest : List Task) (hd : L.IsDispatch d)
    (hne : ∀ r as, task ≠ .member d r as) :
    (∀ x, g.dispatch? d = some x → g'.dispatch? d = some x) ∧
      awaited d (ts ++ rest) = awaited d (task :: rest) := by
  refine ⟨fun x hx => ?_, ?_⟩
  · by_cases hmember : ∃ d' r as, task = .member d' r as
    · obtain ⟨d', r, as, rfl⟩ := hmember
      obtain ⟨y, hy, -⟩ := hok
      obtain ⟨x', hx', -⟩ := Graph.dispatch_of_blank (hS.fits hy).1 rfl
      exact (dispatch?_addMember hx' hp).2 d x (fun h => hne r as (h ▸ rfl)) hx
    · have hkeep := Graph.keepsMembers_perform hS hok fun d' r as h => hmember ⟨d', r, as, h⟩
      rw [hp] at hkeep
      exact hkeep d x hx
  · have hnew : awaited d ts = [] := awaited_eq_nil fun r as hmem => by
      obtain ⟨y, hy⟩ := hd
      cases leads_perform hS hok hp hmem with
      | opened => exact Nat.lt_irrefl _ (hS.bound hy)
    have hold : awaited d [task] = [] := awaited_eq_nil fun r as hmem =>
      hne r as (List.mem_singleton.mp hmem).symm
    rw [awaited_append, hnew, List.nil_append, ← List.singleton_append, awaited_append, hold,
      List.nil_append]

end step

section tame

variable {names : List String} {x : Dispatch} (hS : Sound L g) (hT : Tame names L g)
  (hd : L.IsDispatch d) (hx : g.dispatch? d = some x)
include hS hT hd hx

/-- The types that a dispatch is over are known by name. -/
theorem Tame.dispatch_inputs : ∀ t ∈ x.receiver.toList ++ x.args, t.Tame names g :=
  hT.labels (hS.label_eq_dispatch hd hx)

/-- The choices for a dispatch differ by name. -/
theorem Tame.nodup_choices : ((combinations x.receiver x.args).map g.heap.tagChoice).Nodup :=
  Heap.nodup_combinations fun t ht => (hT.dispatch_inputs hS hd hx t ht).apart

/-- Members that were made differ from the next one. -/
theorem Graph.Expands.fresh {r : Option Atom} {as : List Atom}
    (h : g.Expands L (.member d r as :: rest) d x) :
    ∀ e ∈ x.calls, (g.withMember x r as).sameMember e.1 (r, as) = false := by
  intro e he
  have hcalm : Graph.Calm g (g.withMember x r as) :=
    (Graph.calm_addSlots g _).trans (Graph.calm_addCell _ _)
  have hheap : (g.withMember x r as).heap = g.heap :=
    hS.heap_calm hcalm (Graph.others_addSlots g _).1
  have hnodup := hT.nodup_choices hS hd hx
  rw [← h.keys, awaited_cons_member, List.map_append, List.map_cons] at hnodup
  have hne : g.heap.tagChoice e.1 ≠ g.heap.tagChoice (r, as) := fun heq =>
    (List.nodup_append.mp hnodup).2.2 _ (List.mem_map_of_mem (List.mem_map_of_mem he)) _
      (List.mem_cons_self ..) heq
  have hsame := (hT.flat.sameRow_choice e.1 (r, as)).not.mpr hne
  rw [Graph.sameMember, hheap]
  exact Bool.eq_false_iff.mpr hsame

end tame

theorem expanding_step {names : List String} (hS : Sound.Config L (g, task :: rest))
    (hT : Tame.Config names L (g, task :: rest)) (hp : g.perform task = (g', .ok ts))
    (h : Expanding L g (task :: rest)) : Expanding (L.performed g task) g' (ts ++ rest) := by
  intro d x hd hx
  have hok := hS.tasks task (List.mem_cons_self ..)
  have hext := extends_of_perform hS.graph hok hp
  obtain ⟨y, hd⟩ := hd
  rcases made_step hS hp hd with hy | hmade
  · have hthere : L.IsDispatch d := ⟨y, hy⟩
    obtain ⟨x₀, hx₀, -⟩ := Graph.dispatch_of_blank (hS.graph.fits hy).1 rfl
    have hold := h d x₀ hthere hx₀
    have hmembers : ∀ e ∈ x₀.calls, L.performed g task e.2 = some (.member d e.1.1 e.1.2) ∧
        g'.Given e.2 (e.1.1.map .one, e.1.2.map .one) ∧
          g'.Observes (ts ++ rest) e.2 d .merge := by
      intro e he
      obtain ⟨hlabel, hgiven, hobs⟩ := hold.members e he
      exact ⟨hext.keeps hS.graph hlabel, given_member_step hS.graph hok hp hlabel hgiven,
        observes_step hS.graph hok hp hobs⟩
    by_cases hmember : ∃ r as, task = .member d r as
    · obtain ⟨r, as, rfl⟩ := hmember
      have hx' := (dispatch?_addMember hx₀ hp).1
      rw [hx'] at hx
      cases hx
      have hgiven := given_addMember hx₀ hp
      rw [Table.putBy_of_forall (hold.fresh hS.graph hT.graph hthere hx₀)]
      rw [Graph.perform, Graph.addMember_eq hx₀] at hp
      cases hp
      refine ⟨hold.mixed, ?_, fun e he => ?_, fun hc => ?_⟩
      · have hkeys := hold.keys
        rw [awaited_cons_member] at hkeys
        rw [List.map_append, List.append_assoc, awaited_append, awaited_eq_nil (by simp)]
        exact hkeys
      · rcases List.mem_append.mp he with he | he
        · exact hmembers e he
        · obtain rfl := List.mem_singleton.mp he
          exact ⟨Labels.joined_memberAt, hgiven, .inr (by simp)⟩
      · rcases member_joined hc with hc | ⟨rfl, -, rfl, rfl⟩
        · exact List.mem_append_left _ (hold.only hc)
        · simp
    · have hne : ∀ r as, task ≠ .member d r as := fun r as heq => hmember ⟨r, as, heq⟩
      obtain ⟨hkeep, hawaited⟩ := dispatch_step_of_ne hS.graph hok hp rest hthere hne
      rw [hkeep x₀ hx₀] at hx
      cases hx
      refine ⟨hold.mixed, by rw [hawaited, hold.keys], hmembers, fun hc => ?_⟩
      rcases broughtBy_performed task _ _ hc with hc | htask
      · exact hold.only hc
      · exact (hne _ _ htask).elim
  · -- Nothing is known of the new dispatch, so no task and no label is about it.
    have hnew := hmade.not_isDispatch hS.graph
    obtain ⟨hx', hmixed, hcalls, hawaited⟩ := hmade.dispatch?
    rw [hx'] at hx
    cases hx
    have hrest : awaited d rest = [] := awaited_eq_nil fun r as hmem => by
      obtain ⟨y, hy, -⟩ := hS.tasks _ (List.mem_cons_of_mem _ hmem)
      exact hnew ⟨y, hy⟩
    refine ⟨hmixed, ?_, fun e he => ?_, fun {c r as} hc => ?_⟩
    · rw [hcalls, awaited_append, hrest, hawaited]
      simp
    · rw [hcalls] at he
      cases he
    · rcases broughtBy_performed task c _ hc with hc | htask
      · obtain ⟨y, -, hy, -⟩ := hS.graph.fits hc
        exact (hnew ⟨y, hy⟩).elim
      · have htask : task = .member d r as := htask
        rw [htask] at hok
        obtain ⟨y, hy, -⟩ := hok
        exact (hnew ⟨y, hy⟩).elim

theorem expanding_loaded (tree : Expr) :
    Expanding (Labels.loaded tree) (Graph.loaded tree) [.visit 0 tree rootOf] := by
  rintro d x ⟨y, hd⟩ -
  rcases label_loaded hd with ⟨heq, -⟩ | ⟨q, -, -, heq⟩ <;> cases heq

end TypeFlow
