import TypeFlow.Proofs.FieldFree
import Mathlib

/-! # What a run may still give rise to

Three numbers, of which a task lowers one without raising an earlier one: how many instances and
dispatches may still be made, how far types may still grow, and how much work waits. -/

namespace TypeFlow

/-! ## Rows of types -/

/-- The types of parameters or of inputs by name. -/
abbrev Row := List (Option (Finset Tag))

/-- All types by name, and the lack of one. -/
noncomputable def typeSets (names : List String) : List (Option (Finset Tag)) :=
  none :: (Tag.known names).powerset.toList.map some

/-- All rows of a length. -/
noncomputable def rows (names : List String) (length : Nat) : List Row :=
  choices (List.replicate length (typeSets names))

theorem mem_rows {names : List String} {row : Row} (h : ∀ x ∈ row, x ∈ typeSets names) :
    row ∈ rows names row.length := by
  rw [rows, mem_choices]
  induction row with
  | nil => exact .nil
  | cons x row ih => exact .cons (h x (by simp)) (ih fun y hy => h y (by simp [hy]))

theorem tagRow_mem_rows {names : List String} {g : Graph} {ts : List (Option Ty)}
    (h : TameRow names g ts) :
    g.heap.tagRow ts ∈ rows names ts.length := by
  have hlen : (g.heap.tagRow ts).length = ts.length := List.length_map ..
  rw [← hlen]
  refine mem_rows fun x hx => ?_
  obtain ⟨t, ht, rfl⟩ := List.mem_map.mp hx
  cases t with
  | none => exact List.mem_cons_self ..
  | some t =>
      refine List.mem_cons_of_mem _ (List.mem_map_of_mem (f := some) ?_)
      rw [Finset.mem_toList, Finset.mem_powerset]
      exact (h _ ht t rfl).known

open scoped Classical in
/-- The number of rows that something has not been done for. -/
noncomputable def room (names : List String) (length : Nat) (done : Row → Prop) : Nat :=
  ((rows names length).toFinset.filter fun r => ¬ done r).card

theorem room_mono {names : List String} {length : Nat} {P Q : Row → Prop}
    (h : ∀ r, P r → Q r) : room names length Q ≤ room names length P := by
  classical
  refine Finset.card_le_card fun r hr => ?_
  rw [Finset.mem_filter] at hr ⊢
  exact ⟨hr.1, fun hp => hr.2 (h r hp)⟩

theorem room_lt {names : List String} {length : Nat} {P Q : Row → Prop}
    (h : ∀ r, P r → Q r) {r : Row} (hr : r ∈ rows names length) (hP : ¬ P r) (hQ : Q r) :
    room names length Q < room names length P := by
  classical
  refine Finset.card_lt_card ⟨fun x hx => ?_, fun hsub => ?_⟩
  · rw [Finset.mem_filter] at hx ⊢
    exact ⟨hx.1, fun hp => hx.2 (h x hp)⟩
  · have hmem := hsub (Finset.mem_filter.mpr ⟨List.mem_toFinset.mpr hr, hP⟩)
    exact (Finset.mem_filter.mp hmem).2 hQ

theorem room_le (names : List String) (length : Nat) (P : Row → Prop) :
    room names length P ≤ (rows names length).length := by
  classical
  exact (Finset.card_filter_le _ _).trans (List.toFinset_card_le _)

/-! ## Instances and dispatches -/

/-- A method was called with types of these names. -/
def Graph.Called (g : Graph) (method : NodeId) (row : Row) : Prop :=
  ∃ key i, g.Has (.mark method (.cached key i)) ∧ g.heap.tagRow key = row

/-- A call was dispatched over types of these names. -/
def Graph.Dispatched (g : Graph) (origin : NodeId) (row : Row) : Prop :=
  ∃ d x, g.Has (.dispatch d) ∧ g.dispatch? d = some x ∧ x.origin = origin ∧
    g.heap.tagRow (x.receiver :: x.args.map some) = row

/-- What a tree may give rise to wherever it is copied to. -/
def Expr.demand (cap : Nat → Nat) : Expr → Nat
  | .literal _ | .place _ | .const _ => 0
  | .assign _ v => v.demand cap
  | .block es => demandList es
  | .loop c b => c.demand cap + b.demand cap
  | .cond c t f => c.demand cap + t.demand cap + demandOption f
  | .call r _ as _ => cap (1 + as.length) + demandOption r + demandList as
  | .method _ ps b => cap ps.length * (1 + b.demand cap)
  | .klass _ b => b.demand cap
where
  demandList : List Expr → Nat
    | [] => 0
    | e :: es => e.demand cap + demandList es
  demandOption : Option Expr → Nat
    | none => 0
    | some e => e.demand cap

namespace Expr

/-- What a node gives rise to by itself. -/
def ownDemand (cap : Nat → Nat) : Expr → Nat
  | .call _ _ as _ => cap (1 + as.length)
  | .method _ ps b => cap ps.length * (1 + b.demand cap)
  | _ => 0

variable (cap : Nat → Nat)

theorem demandList_eq (es : List Expr) (i : Nat) :
    demand.demandList cap es = ((spread i es).map fun x => x.2.demand cap).sum := by
  induction es generalizing i with
  | nil => rfl
  | cons e es ih => rw [demand.demandList, ih (i + e.size)]; rfl

theorem demand_parts (e : Expr) (k : Option String) (i : Nat) :
    e.ownDemand cap + ((e.parts k i).map fun p => p.expr.demand cap).sum ≤ e.demand cap := by
  cases e with
  | literal | place | const | method => simp [ownDemand, parts, demand]
  | assign t v => simp [ownDemand, parts, demand]
  | loop c b => simp [ownDemand, parts, demand]
  | klass n b => simp [ownDemand, parts, demand]
  | block es =>
      rw [demand, demandList_eq cap es (i + 1)]
      simp [ownDemand, parts, Function.comp_def]
  | cond c t f =>
      cases f <;> simp [ownDemand, parts, demand, demand.demandOption, Nat.add_assoc]
  | call r n as p =>
      rw [demand, demandList_eq cap as (i + 1 + sizeOption r)]
      simp only [ownDemand, parts]
      split
      · simp
        omega
      · cases r <;> simp [demand.demandOption, Function.comp_def, Nat.add_assoc]

/-- A tree gives rise to what the nodes that a walk comes to give rise to. -/
theorem demand_stops (e : Expr) (k : Option String) (i : Nat) :
    ((e.stops k i).map fun q => q.expr.ownDemand cap).sum ≤ e.demand cap := by
  induction e using indParts generalizing k i with
  | h e ih =>
      have hsum : ∀ ps : List Stop, (∀ p ∈ ps, p ∈ e.parts k i) →
          ((ps.flatMap fun p => p.expr.stops p.klass p.node).map fun q =>
            q.expr.ownDemand cap).sum ≤ (ps.map fun p => p.expr.demand cap).sum := by
        intro ps
        induction ps with
        | nil => exact fun _ => Nat.le_refl _
        | cons p ps ihps =>
            intro hps
            have hp := ih k i p (hps p (List.mem_cons_self ..)) p.klass p.node
            have hrest := ihps fun p' hp' => hps p' (List.mem_cons_of_mem _ hp')
            rw [List.flatMap_cons, List.map_append, List.sum_append, List.map_cons,
              List.sum_cons]
            omega
      have hparts := hsum (e.parts k i) fun _ hp => hp
      have hown := e.demand_parts cap k i
      rw [stops_eq, List.map_cons, List.sum_cons]
      simp only
      omega

end Expr

/-- What is found for each of several addresses adds up to at most what there is. -/
theorem sum_find?_le {α β : Type} (key : α → Nat) (address : β → Nat) (cost : α → Nat)
    (xs : List β) (hnodup : (xs.map address).Nodup) (ys : List α) :
    (xs.map fun x => (ys.find? fun y => key y == address x).elim 0 cost).sum ≤
      (ys.map cost).sum := by
  induction ys with
  | nil => simp
  | cons y ys ih =>
      have hone : (xs.map fun x => if key y == address x then cost y else 0).sum ≤ cost y := by
        clear ih
        induction xs with
        | nil => simp
        | cons x xs ih =>
            rw [List.map_cons, List.nodup_cons] at hnodup
            rw [List.map_cons, List.sum_cons]
            cases hx : key y == address x with
            | true =>
                have hzero : (xs.map fun x => if key y == address x then cost y else 0).sum = 0 := by
                  refine List.sum_eq_zero fun c hc => ?_
                  obtain ⟨x', hx', rfl⟩ := List.mem_map.mp hc
                  have hne : (key y == address x') = false := by
                    rw [beq_eq_false_iff_ne]
                    intro heq
                    refine hnodup.1 (List.mem_map.mpr ⟨x', hx', ?_⟩)
                    rw [← heq, eq_of_beq hx]
                  simp [hne]
                rw [hzero, if_pos rfl, Nat.add_zero]
            | false => simpa using ih hnodup.2
      have hsplit : (xs.map fun x =>
          ((y :: ys).find? fun y => key y == address x).elim 0 cost).sum ≤
          (xs.map fun x => if key y == address x then cost y else 0).sum +
            (xs.map fun x => (ys.find? fun y => key y == address x).elim 0 cost).sum := by
        clear ih hone hnodup
        induction xs with
        | nil => simp
        | cons x xs ih =>
            simp only [List.map_cons, List.sum_cons]
            cases hx : key y == address x <;> simp [List.find?_cons, hx] at ih ⊢ <;> omega
      rw [List.map_cons, List.sum_cons]
      omega

/-! ## The potential of a graph -/

/-- The number of rows of a length. -/
noncomputable def cap (names : List String) (length : Nat) : Nat := (rows names length).length

/-- The instances and dispatches that a cell may still give rise to. -/
noncomputable def Label.room (names : List String) (g : Graph) (n : NodeId) : Label → Nat
  | .node _ _ _ (.call _ _ as _) => TypeFlow.room names (1 + as.length) (g.Dispatched n)
  | .node _ _ _ (.method _ ps b) =>
      TypeFlow.room names ps.length (g.Called n) * (1 + b.demand (cap names))
  | _ => 0

/-- The instances and dispatches that a graph may still give rise to. -/
noncomputable def potential (names : List String) (L : Labels) (g : Graph) : Nat :=
  ∑ n ∈ Finset.range g.cells.size, (L n).elim 0 (Label.room names g n)

variable {names : List String} {L L' : Labels} {g g' : Graph}

theorem Label.room_le_ownDemand (n w : Nat) (r : NodeId) (k : Option String) (e : Expr) :
    (Label.node w r k e).room names g n ≤ e.ownDemand (cap names) := by
  cases e with
  | call rc nm as p => exact room_le ..
  | method nm ps b => exact Nat.mul_le_mul_right _ (room_le ..)
  | _ => exact Nat.zero_le _

/-- What lies at some places of a list adds up to at most what there is. -/
theorem sum_getElem?_le {α : Type} (f : α → Nat) (xs : List α) (d : Nat) :
    ∑ j ∈ Finset.range d, xs[j]?.elim 0 f ≤ (xs.map f).sum := by
  induction xs generalizing d with
  | nil => simp
  | cons x xs ih =>
      cases d with
      | zero => simp
      | succ d =>
          rw [Finset.sum_range_succ', List.map_cons, List.sum_cons]
          have := ih d
          simp only [List.getElem?_cons_succ, List.getElem?_cons_zero, Option.elim_some]
          omega

/-- A sum that drops at one place drops. -/
theorem sum_add_le {s : Finset Nat} {f f' : Nat → Nat} (h : ∀ n ∈ s, f' n ≤ f n) {m d : Nat}
    (hm : m ∈ s) (hd : f' m + d ≤ f m) : ∑ n ∈ s, f' n + d ≤ ∑ n ∈ s, f n := by
  rw [← Finset.add_sum_erase s f hm, ← Finset.add_sum_erase s f' hm]
  have := Finset.sum_le_sum (s := s.erase m) fun n hn => h n (Finset.mem_of_mem_erase hn)
  omega

/-- What a label allows for wherever its tree is copied to. -/
noncomputable def Label.demand (names : List String) : Label → Nat
  | .node _ _ _ e => e.ownDemand (cap names)
  | _ => 0

theorem Label.room_le_demand (n : Nat) (l : Label) : l.room names g n ≤ l.demand names := by
  cases l with
  | node w r k e => exact room_le_ownDemand ..
  | _ => exact Nat.zero_le _

/-- What the labels of a new tree allow for is at most its demand. -/
theorem sum_ofTree_le (w : WalkId) (root : NodeId) (e : Expr) :
    ((Labels.ofTree w root e).map fun l => l.elim 0 (Label.demand names)).sum ≤
      e.demand (cap names) := by
  refine Nat.le_trans ?_ (e.demand_stops (cap names) none root)
  have hfind := sum_find?_le (fun q : Stop => q.node) (fun p : Nat × Expr => p.1)
    (fun q => q.expr.ownDemand (cap names)) (e.nodes root)
    (by rw [Expr.map_fst_nodes]; exact List.nodup_range') (e.stops none root)
  refine Nat.le_trans (Nat.le_of_eq ?_) hfind
  rw [Labels.ofTree, List.map_map]
  congr 1
  refine List.map_congr_left fun p _ => ?_
  simp only [Function.comp_apply]
  cases (e.stops none root).find? fun q => q.node == p.1 <;> rfl

/-! ## What was done is not done again -/

section lasts

variable (hS : Sound L g) (hT : Tame names L g)
include hS hT

omit hS in
theorem Graph.Called.lasts {m : NodeId} {row : Row} (h : g.Called m row)
    (hg : Graph.Grows g g') (hl : Graph.Lasts g g') : g'.Called m row := by
  obtain ⟨key, i, hkey, rfl⟩ := h
  exact ⟨key, i, hl _ rfl hkey, (hT.cached hkey).tagRow_eq hg⟩

theorem Graph.Dispatched.lasts {n : NodeId} {row : Row} (h : g.Dispatched n row)
    (hg : Graph.Grows g g') (hl : Graph.Lasts g g') : g'.Dispatched n row := by
  obtain ⟨d, x, hd, hx, rfl, rfl⟩ := h
  obtain ⟨_, hblank, hrole⟩ := Graph.blank_of_dispatch hx
  obtain ⟨z, hz, hzx⟩ := Graph.dispatch_of_blank (hg.blank hblank) hrole
  simp only [Dispatch.blank, Dispatch.mk.injEq] at hzx
  obtain ⟨-, horigin, hreceiver, hargs, -⟩ := hzx
  refine ⟨d, z, hl _ rfl hd, hz, horigin, ?_⟩
  rw [hreceiver, hargs]
  exact (hT.dispatch hS hd hx).tagRow_eq hg

/-- A cell never allows for more than before. -/
theorem room_label_anti (n : Nat) (l : Label) (hg : Graph.Grows g g') (hl : Graph.Lasts g g') :
    l.room names g' n ≤ l.room names g n := by
  cases l with
  | node w r k e =>
      cases e with
      | call rc nm as p => exact room_mono fun row h => Graph.Dispatched.lasts hS hT h hg hl
      | method nm ps b =>
          exact Nat.mul_le_mul_right _ (room_mono fun row h => Graph.Called.lasts hT h hg hl)
      | _ => exact Nat.le_refl _
  | _ => exact Nat.le_refl _

omit hS hT in
/-- The potential of what was there, and of what is new. -/
theorem potential_split (hext : Extends L g L' g') :
    potential names L' g' =
      ∑ n ∈ Finset.range g.cells.size, (L n).elim 0 (Label.room names g' n) +
        ∑ j ∈ Finset.range (g'.cells.size - g.cells.size),
          (L' (g.cells.size + j)).elim 0 (Label.room names g' (g.cells.size + j)) := by
  have hsplit := Finset.sum_range_add (fun n => (L' n).elim 0 (Label.room names g' n))
    g.cells.size (g'.cells.size - g.cells.size)
  rw [Nat.add_sub_cancel' hext.grows.size_le] at hsplit
  rw [potential, hsplit]
  congr 1
  refine Finset.sum_congr rfl fun n hn => ?_
  rw [hext.label n (Finset.mem_range.mp hn)]

theorem room_old_le (n : Nat) (hg : Graph.Grows g g') (hl : Graph.Lasts g g') :
    (L n).elim 0 (Label.room names g' n) ≤ (L n).elim 0 (Label.room names g n) := by
  cases L n with
  | none => exact Nat.le_refl _
  | some l => exact room_label_anti hS hT n l hg hl

/-- New cells that no walk comes to leave the potential as it is. -/
theorem potential_le (hext : Extends L g L' g') (hl : Graph.Lasts g g')
    (hnew : ∀ n : Nat, g.cells.size ≤ n → ∀ w r k e, L' n ≠ some (.node w r k e)) :
    potential names L' g' ≤ potential names L g := by
  have hzero : ∑ j ∈ Finset.range (g'.cells.size - g.cells.size),
      (L' (g.cells.size + j)).elim 0 (Label.room names g' (g.cells.size + j)) = 0 := by
    refine Finset.sum_eq_zero fun j _ => ?_
    cases hl : L' (g.cells.size + j) with
    | none => rfl
    | some l =>
        cases l with
        | node w r k e => exact (hnew _ (Nat.le_add_right ..) w r k e hl).elim
        | _ => rfl
  rw [potential_split hext, hzero, Nat.add_zero]
  exact Finset.sum_le_sum fun n _ => room_old_le hS hT n hext.grows hl

/-- What an old cell has less must be made up for by new cells. -/
theorem potential_lt (hext : Extends L g L' g') (hl : Graph.Lasts g g') {m d : Nat} {l : Label}
    (hm : L m = some l) (hd : l.room names g' m + d ≤ l.room names g m)
    (hnew : ∑ j ∈ Finset.range (g'.cells.size - g.cells.size),
      (L' (g.cells.size + j)).elim 0 (Label.room names g' (g.cells.size + j)) < d) :
    potential names L' g' < potential names L g := by
  have hold := sum_add_le (f := fun n => (L n).elim 0 (Label.room names g n))
    (fun n _ => room_old_le hS hT n hext.grows hl) (Finset.mem_range.mpr (hS.bound hm))
    (d := d) (by simpa [hm] using hd)
  rw [potential_split hext]
  exact Nat.lt_of_lt_of_le (Nat.add_lt_add_left hnew _) hold

end lasts

end TypeFlow
