import TypeFlow.Proofs.Measure
import Mathlib.Order.RelClasses

/-! # Inference ends

Each task lowers a measure of three numbers: the instances and dispatches to come, then how far
types may grow and new cells be made, then the work that waits. -/

namespace TypeFlow

variable {names : List String} {L L' : Labels} {g g' : Graph}

/-! ## New instances and new dispatches -/

/-- A dispatch for types that a call was not dispatched over before uses up some potential. -/
theorem potential_addDispatch (hS : Sound L g) (hT : Tame names L g) {c : NodeId} {s : Site}
    (hc : L.IsCall c) (hs : g.site? c = some s) {receiver : Option Ty} {args : List Ty}
    (hin : g.inputs? s = some (receiver, args))
    (hnew : g.findDispatch? s.origin receiver args = none) (n : Notice) :
    potential names (L.append g [some (.dispatch (s.dispatch receiver args))])
      ((g.addDispatch s receiver args).1.notice n) < potential names L g := by
  have hlen : args.length = s.args.length :=
    (Graph.inputs?_eq_some_iff.mp hin).2.length_eq.symm
  obtain ⟨w, r, k, rc, as, p, ho, has⟩ := hS.origin_of_call hc hs
  have hrow : TameRow names g (receiver :: args.map some) := .inputs (hT.inputs hin)
  obtain ⟨hext, -⟩ := extends_addDispatch hS hc hs receiver hlen
  have hgrows := hext.grows.trans (Graph.grows_notice (g.addDispatch s receiver args).1 n)
  have hcalm := (Graph.calm_addDispatch g s receiver args).trans (Graph.calm_notice _ n)
  have hbefore : ¬ g.Dispatched s.origin (g.heap.tagRow (receiver :: args.map some)) := by
    rintro ⟨d, x, hd, hx, horigin, htags⟩
    have hfind := List.find?_eq_none.mp hnew d hd
    simp only [hx, horigin, beq_self_eq_true, Bool.true_and] at hfind
    exact hfind (((hT.dispatch hS hd hx).sameRow_iff hT.flat hrow).mpr htags)
  have hafter : ((g.addDispatch s receiver args).1.notice n).Dispatched s.origin
      (g.heap.tagRow (receiver :: args.map some)) := by
    refine ⟨g.cells.size, s.dispatch receiver args, List.mem_append_right _ (by simp), ?_, rfl,
      hrow.tagRow_eq hgrows⟩
    simp [Graph.dispatch?, Graph.role, Graph.notice, Graph.addDispatch, Graph.addCell,
      Site.dispatch]
  refine potential_lt hS hT (d := 1) ⟨hgrows, hext.label⟩ hcalm.lasts ho ?_ ?_
  · refine room_lt (fun row h => Graph.Dispatched.lasts hS hT h hgrows hcalm.lasts) ?_ hbefore
      hafter
    have hmem := tagRow_mem_rows hrow
    rwa [List.length_cons, List.length_map, hlen, ← has, Nat.add_comm] at hmem
  · refine Nat.lt_of_le_of_lt (Nat.le_of_eq (Finset.sum_eq_zero fun j _ => ?_)) Nat.one_pos
    cases hl : L.append g [some (.dispatch (s.dispatch receiver args))] (g.cells.size + j) with
    | none => rfl
    | some l =>
        rcases Labels.append_cases hl with ⟨hlt, -⟩ | ⟨i, -, hi⟩
        · omega
        · obtain ⟨-, rfl⟩ := Labels.eq_of_singleton hi
          rfl

/-- The labels of a new instance allow for no more than its body calls for. -/
theorem sum_specialized_le (body : Expr) (inputs : List (String × Ty)) (d : Nat) :
    ∑ j ∈ Finset.range d, (L.specialized g body inputs (g.cells.size + j)).elim 0
      (Label.room names g' (g.cells.size + j)) ≤ body.demand (cap names) := by
  refine Nat.le_trans (Finset.sum_le_sum fun j _ => ?_)
    (Nat.le_trans (sum_getElem?_le (fun l => l.elim 0 (Label.demand names))
      (Labels.ofTree g.walks.size g.cells.size body) d) (sum_ofTree_le ..))
  cases hl : L.specialized g body inputs (g.cells.size + j) with
  | none => exact Nat.zero_le _
  | some l =>
      rcases Labels.append_cases hl with ⟨-, hl⟩ | ⟨i, -, hi⟩
      · rcases Labels.append_cases hl with ⟨hlt, -⟩ | ⟨i, hij, hi⟩
        · omega
        · obtain rfl : i = j := by omega
          rw [hi]
          exact Label.room_le_demand _ l
      · simp only [Labels.ofInputs, List.getElem?_map, List.getElem?_mapIdx,
          Option.map_eq_some_iff, Option.some.injEq] at hi
        obtain ⟨_, ⟨p, -, rfl⟩, rfl⟩ := hi
        split <;> exact Nat.zero_le _

/-- An instance for types that a method was not called with before uses up some potential. -/
theorem potential_specialized (hS : Sound L g) (hT : Tame names L g) {c : NodeId} {s : Site}
    {receiver : Option Ty} {args : List Ty} {method : NodeId} {m : Method} {w : WalkId}
    {r : NodeId} {k : Option String} {nm : Token} {ps : List Token} {b : Expr}
    (hcall : g.Calls s receiver args method m)
    (hnew : Table.findBy? g.heap.sameRow (args.map some) m.instances = none)
    (hm : L method = some (.node w r k (.method nm ps b))) (hps : m.params = ps.map (·.text))
    (hext : Extends L g (L.specialized g b (instanceInputs m.params receiver args))
      (g.specialized c s method m.params b receiver args)) :
    potential names (L.specialized g b (instanceInputs m.params receiver args))
      (g.specialized c s method m.params b receiver args) < potential names L g := by
  have hrow : TameRow names g (args.map some) :=
    .args fun t ht => hT.inputs hcall.inputs t (List.mem_append_right _ ht)
  have hlasts := (calm_specialized hS hcall.found hnew c s m.params b receiver).lasts
  have hbefore : ¬ g.Called method (g.heap.tagRow (args.map some)) := by
    rintro ⟨key, i, hkey, htags⟩
    obtain ⟨x, hx, hmem⟩ := Graph.has_cached.mp hkey
    rw [hcall.found] at hx
    cases hx
    simp only [Table.findBy?, Option.map_eq_none_iff, List.find?_eq_none] at hnew
    exact hnew _ hmem (((hT.cached hkey).sameRow_iff hT.flat hrow).mpr htags)
  have hafter : (g.specialized c s method m.params b receiver args).Called method
      (g.heap.tagRow (args.map some)) :=
    ⟨_, _, has_cached_specialized hS hcall.found hnew, hrow.tagRow_eq hext.grows⟩
  have hroom : room names ps.length ((g.specialized c s method m.params b receiver args).Called
      method) + 1 ≤ room names ps.length (g.Called method) := by
    refine room_lt (fun row h => Graph.Called.lasts hT h hext.grows hlasts) ?_ hbefore hafter
    have hmem := tagRow_mem_rows hrow
    have hlen := hcall.arity
    rw [hps, List.length_map] at hlen
    rwa [List.length_map, ← hlen] at hmem
  refine potential_lt hS hT (d := 1 + b.demand (cap names)) hext hlasts hm ?_ ?_
  · have hmul := Nat.mul_le_mul_right (1 + b.demand (cap names)) hroom
    rwa [Nat.add_mul, Nat.one_mul] at hmul
  · exact Nat.lt_of_le_of_lt (sum_specialized_le ..) (by omega)

/-! ## How far types may grow -/

/-- The number of names that the type of a cell lacks. -/
def gap (names : List String) (g : Graph) (n : Nat) : Nat :=
  (Tag.known names).card - (g.type n).elim 0 fun t => (g.heap.tags t).card

def slack (names : List String) (g : Graph) : Nat :=
  ∑ n ∈ Finset.range g.cells.size, gap names g n

theorem gap_le (n : Nat) : gap names g n ≤ (Tag.known names).card := Nat.sub_le ..

theorem gap_eq (hS : Sound L g) {n : NodeId} (hg : Graph.Grows g g') (h : g'.type n = g.type n) :
    gap names g' n = gap names g n := by
  rw [gap, gap, h]
  cases ht : g.type n with
  | none => rfl
  | some t => simp only [Option.elim_some, hg.tags_eq (hS.typed ht).2.1]

/-- Only new cells add to what types lack, as long as no type changes. -/
theorem slack_calm (names : List String) (hS : Sound L g) (hg : Graph.Grows g g') (h : Graph.Calm g g') :
    slack names g' ≤
      slack names g + (Tag.known names).card * (g'.cells.size - g.cells.size) := by
  have hsplit := Finset.sum_range_add (gap names g') g.cells.size
    (g'.cells.size - g.cells.size)
  rw [Nat.add_sub_cancel' h.size] at hsplit
  have hold : ∑ n ∈ Finset.range g.cells.size, gap names g' n = slack names g :=
    Finset.sum_congr rfl fun n hn => gap_eq hS hg (h.type n (Finset.mem_range.mp hn))
  have hnew := Finset.sum_le_card_nsmul (Finset.range (g'.cells.size - g.cells.size))
    (fun j => gap names g' (g.cells.size + j)) _ fun j _ => gap_le (g.cells.size + j)
  rw [Finset.card_range, Nat.nsmul_eq_mul, Nat.mul_comm] at hnew
  rw [slack, hsplit, hold]
  omega

/-- A stored type changes what one cell lacks. -/
theorem slack_setType (names : List String) (hS : Sound L g) {n : Nat} (hn : n < g.cells.size)
    (t : Ty) :
    slack names (g.setType n t) + gap names g n =
      slack names g + gap names (g.setType n t) n := by
  have hgrows := Graph.grows_setType g n t
  have hsize : (g.setType n t).cells.size = g.cells.size := Array.size_modify ..
  have hmem : n ∈ Finset.range g.cells.size := Finset.mem_range.mpr hn
  have hother : ∑ m ∈ (Finset.range g.cells.size).erase n, gap names (g.setType n t) m =
      ∑ m ∈ (Finset.range g.cells.size).erase n, gap names g m := by
    refine Finset.sum_congr rfl fun m hm => gap_eq hS hgrows ?_
    rw [Graph.type_setType, if_neg fun h => Finset.ne_of_mem_erase hm h.1.symm]
  rw [slack, slack, hsize, ← Finset.add_sum_erase _ _ hmem, ← Finset.add_sum_erase _ _ hmem, hother]
  omega

/-! ## What waits -/

/-- How much a task may add to what types lack. -/
def Task.latent (known : Nat) : Task → Nat
  | .visit _ e _ => (known + 1) * e.size
  | .store _ _ => known + 1
  | .bind _ _ _ => known
  | .member _ _ as => known * (2 + as.length)
  | _ => 0

/-- How much work a task is, as long as types stay as they are. -/
def Task.weight : Task → Nat
  | .visit _ e _ => 20 * e.size - 8
  | .subscribe _ _ .merge => 3
  | .subscribe _ _ _ => 7
  | .deliver _ _ .merge | .react _ _ .merge _ => 2
  | .deliver _ _ _ | .react _ _ _ _ => 6
  | .resolve _ => 5
  | .bind _ _ _ => 7
  | .member _ _ _ => 9
  | _ => 1

def latents (known : Nat) (ts : List Task) : Nat := (ts.map (Task.latent known)).sum

def weights (ts : List Task) : Nat := (ts.map Task.weight).sum

@[simp] theorem latents_append (known : Nat) (ts us : List Task) :
    latents known (ts ++ us) = latents known ts + latents known us := by simp [latents]

@[simp] theorem weights_append (ts us : List Task) :
    weights (ts ++ us) = weights ts + weights us := by simp [weights]

/-- The walks over several trees are less work than the walk over all of them. -/
theorem visits_spread (known : Nat) (w : WalkId) (i : Nat) (es : List Expr) :
    latents known ((Expr.spread i es).map fun x => .visit w x.2 x.1) =
        (known + 1) * Expr.sizeList es ∧
      weights ((Expr.spread i es).map fun x => .visit w x.2 x.1) =
        20 * Expr.sizeList es - 8 * es.length ∧ es.length ≤ Expr.sizeList es := by
  induction es generalizing i with
  | nil => exact ⟨rfl, rfl, Nat.le_refl _⟩
  | cons e es ih =>
      obtain ⟨hlatent, hweight, hle⟩ := ih (i + e.size)
      have := e.size_pos
      simp only [latents, weights, Expr.spread, List.map_cons, List.sum_cons, Task.latent,
        Task.weight, Expr.sizeList, List.length_cons, Nat.mul_add] at hlatent hweight ⊢
      omega

/-- What a step that changes no type costs: the cells that it adds, and the tasks that it sets. -/
structure Spends (known : Nat) (g : Graph) (task : Task) (s : Step) : Prop where
  latent : ∀ ts, s.2 = .ok ts →
    known * (s.1.cells.size - g.cells.size) + latents known ts ≤ task.latent known
  weight : ∀ ts, s.2 = .ok ts → weights ts < task.weight

theorem Spends.next {known : Nat} {task : Task} {ts : List Task}
    (hl : known * (g'.cells.size - g.cells.size) + latents known ts ≤ task.latent known)
    (hw : weights ts < task.weight) : Spends known g task (g'.next ts) where
  latent ts' h := by
    cases h
    exact hl
  weight ts' h := by
    cases h
    exact hw

theorem Spends.fail {known : Nat} {task : Task} {f : Fault} : Spends known g task (g'.fail f) where
  latent ts' h := by cases h
  weight ts' h := by cases h

theorem size_placeOf (g : Graph) (w : WalkId) (p : Place) (n : NodeId) :
    (g.placeOf w p n).1.cells.size ≤ g.cells.size + 1 := by
  unfold Graph.placeOf
  cases p.kind with
  | localVar =>
      dsimp only
      unfold Graph.variableOf
      split <;> simp [Graph.modifyWalk, Graph.addSlot, Graph.addCell]
  | instanceVar =>
      dsimp only
      split
      · unfold Graph.fieldOf
        split <;> simp [Graph.putField, Graph.addSlot, Graph.addCell]
      · simp

section steps

variable (hS : Sound L g) (hT : Tame names L g)

/-- A place may have to be made before it is used. -/
theorem spends_placeOf {known : Nat} {w : WalkId} {p : Place} {n : NodeId} {task : Task}
    {f : NodeId → List Task} (hl : ∀ v, known + latents known (f v) ≤ task.latent known)
    (hw : ∀ v, weights (f v) < task.weight) :
    Spends known g task (match g.placeOf w p n with
      | (g, .ok v) => g.next (f v)
      | (g, .error e) => g.fail e) := by
  have hsize := size_placeOf g w p n
  revert hsize
  rcases g.placeOf w p n with ⟨g', e | v⟩ <;> intro hsize
  · exact .fail
  · refine .next ?_ (hw v)
    have hone : g'.cells.size - g.cells.size ≤ 1 := Nat.sub_le_iff_le_add'.mpr hsize
    have := Nat.mul_le_mul_left known hone
    have := hl v
    omega

theorem spends_visitCall {known : Nat} (w : WalkId) (rc : Option Expr) (nm : Token)
    (as : List Expr) (p : Bool) (n : NodeId) :
    Spends known g (.visit w (.call rc nm as p) n) (g.visitCall w rc as n) := by
  have hsize : (g.modifySite n fun s => { s with linked := true }).cells.size = g.cells.size :=
    Array.size_modify ..
  obtain ⟨hlatent, hweight, hle⟩ := visits_spread known w (n + 1 + Expr.sizeOption rc) as
  have hsub : ∀ xs : List (Nat × Expr),
      latents known (xs.map fun x => .subscribe x.1 n .resolve) = 0 ∧
        weights (xs.map fun x => .subscribe x.1 n .resolve) = 7 * xs.length := by
    intro xs
    simp [latents, weights, Task.latent, Task.weight, Function.comp_def, Nat.mul_comm]
  have hreceiver : ∀ i : Nat,
      latents known ((rc.toList.map fun r => (i, r)).map fun x => .visit w x.2 x.1) =
          (known + 1) * Expr.sizeOption rc ∧
        weights ((rc.toList.map fun r => (i, r)).map fun x => .visit w x.2 x.1) =
          20 * Expr.sizeOption rc - 8 * rc.toList.length ∧
        rc.toList.length ≤ Expr.sizeOption rc := by
    intro i
    cases rc with
    | none => exact ⟨rfl, rfl, Nat.le_refl _⟩
    | some r =>
        have := r.size_pos
        simp only [Option.toList_some, List.map_cons, List.map_nil, latents, weights,
          List.sum_cons, List.sum_nil, Task.latent, Task.weight, Expr.sizeOption, List.length_cons,
          List.length_nil]
        omega
  have hargs := hsub (Expr.spread (n + 1 + Expr.sizeOption rc) as)
  have hrc := hsub (rc.toList.map fun r => (n + 1, r))
  rw [Expr.length_spread] at hargs
  rw [List.length_map] at hrc
  have hself : ∀ b : Bool, latents known (if b then [.resolve n] else []) = 0 ∧
      weights (if b then [.resolve n] else []) ≤ 5 := by
    intro b
    cases b <;> simp [latents, weights, Task.latent, Task.weight]
  unfold Graph.visitCall
  refine .next ?_ ?_
  · simp only [latents_append, List.map_append, hsize, hargs.1, hrc.1, (hself _).1, hlatent,
      (hreceiver _).1, Nat.sub_self, Nat.mul_zero, Task.latent, Expr.size, Nat.mul_add]
    omega
  · have hlen := (hreceiver (n + 1)).2.2
    have hresolve := (hself ((rc.toList.map fun r => (n + 1, r)).isEmpty &&
      (Expr.spread (n + 1 + Expr.sizeOption rc) as).isEmpty)).2
    simp only [weights_append, List.map_append, hargs.2, hrc.2, hweight, (hreceiver _).2.1,
      Task.weight, Expr.size]
    omega

include hS hT

theorem spends_instantiate {w : WalkId} {c nm : Token} {as : List Expr} {p : Bool} {n : NodeId}
    (const : NodeId) :
    Spends (Tag.known names).card g (.visit w (.call (some (.const c)) nm as p) n)
      (g.instantiate w c const n) := by
  have hmade : ∀ {g' : Graph} (i : ObjId), g'.cells.size = g.cells.size →
      Spends (Tag.known names).card g (.visit w (.call (some (.const c)) nm as p) n)
        (g'.next [.store n (.obj i), .markNew n]) := by
    intro g' i hsize
    refine .next ?_ ?_
    · simp only [hsize, latents, List.map_cons, List.map_nil, List.sum_cons, List.sum_nil,
        Task.latent, Expr.size, Expr.sizeOption, Nat.mul_add, Nat.sub_self, Nat.mul_zero]
      omega
    · simp only [weights, List.map_cons, List.map_nil, List.sum_cons, List.sum_nil, Task.weight,
        Expr.size, Expr.sizeOption]
      omega
  unfold Graph.instantiate
  dsimp only
  split
  · exact hmade _ rfl
  · split
    · next i hi =>
        refine hmade _ ?_
        obtain ⟨o, ho, -⟩ := hS.entries (e := .klass c.text i) (Table.mem_of_lookup hi)
        simp [Graph.cloneObject, ho, Graph.cells_copyFields, (hT.objects ho).1]
    · exact .fail

theorem spends_visit (w : WalkId) (e : Expr) (n : NodeId) :
    Spends (Tag.known names).card g (.visit w e n) (g.visit w e n) := by
  cases e with
  | literal l =>
      refine .next ?_ ?_ <;> simp [latents, weights, Task.latent, Task.weight, Expr.size]
  | place p =>
      unfold Graph.visit
      exact spends_placeOf (f := fun v => [.subscribe v n .merge])
        (by simp [latents, Task.latent, Expr.size])
        (by simp [weights, Task.weight, Expr.size])
  | const c => exact .next (by simp [latents]) (by simp [weights, Task.weight, Expr.size])
  | assign t v =>
      have := v.size_pos
      refine .next ?_ ?_
      · simp [latents, Task.latent, Expr.size, Nat.mul_add]
        omega
      · simp [weights, Task.weight, Expr.size, Nat.mul_add]
        omega
  | block es =>
      obtain ⟨hlatent, hweight, hle⟩ := visits_spread (Tag.known names).card w (n + 1) es
      simp only [Graph.visit]
      refine .next ?_ ?_
      · rw [latents_append, hlatent]
        cases (Expr.spread (n + 1) es).getLast? <;>
          simp [latents, Task.latent, Expr.size, Nat.mul_add]
        omega
      · rw [weights_append, hweight]
        cases (Expr.spread (n + 1) es).getLast? <;>
          simp only [weights, Task.weight, Expr.size, Nat.mul_add, List.map_cons,
            List.map_nil, List.sum_cons, List.sum_nil] <;> omega
  | loop c b =>
      have := c.size_pos
      have := b.size_pos
      refine .next ?_ ?_
      · simp [latents, Task.latent, Expr.size, Nat.mul_add]
        omega
      · simp [weights, Task.weight, Expr.size, Nat.mul_add]
        omega
  | cond c t f =>
      have := c.size_pos
      have := t.size_pos
      simp only [Graph.visit]
      refine .next ?_ ?_
      · cases f <;> split <;>
          simp [latents, Task.latent, Expr.size, Expr.sizeOption, Nat.mul_add] <;> omega
      · cases f with
        | none =>
            split <;> simp [weights, Task.weight, Expr.size, Expr.sizeOption, Nat.mul_add] <;> omega
        | some f =>
            have := f.size_pos
            split <;> simp [weights, Task.weight, Expr.size, Expr.sizeOption, Nat.mul_add] <;> omega
  | call rc nm as p =>
      rcases g.visit_call w rc nm as p n with ⟨-, hvisit⟩ | ⟨c, rfl, -, hvisit⟩
      · rw [hvisit]
        exact spends_visitCall w rc nm as p n
      · rw [hvisit]
        exact spends_instantiate hS hT (n + 1)
  | method nm ps b =>
      have hsize : (g.putMethod (g.walk w).klass nm.text n).cells.size = g.cells.size := by
        unfold Graph.putMethod
        split <;> rfl
      refine .next ?_ ?_
      · simp [hsize, latents]
      · simp [weights, Task.weight, Expr.size]
        omega
  | klass nm b =>
      have henter : ∀ {g' : Graph} {i : ObjId} {outer : Option ObjId},
          g'.cells.size = g.cells.size → Spends (Tag.known names).card g (.visit w (.klass nm b) n)
            ((g'.modifyWalk w fun x => { x with klass := some i }).next
              [.visit w b (n + 1), .leave w outer]) := by
        intro g' i outer hsize
        have := b.size_pos
        refine .next ?_ ?_
        · simp [Graph.modifyWalk, hsize, latents, Task.latent, Expr.size, Nat.mul_add]
        · simp [weights, Task.weight, Expr.size, Nat.mul_add]
          omega
      simp only [Graph.visit, Graph.visitClass]
      cases g.classes.lookup nm.text with
      | some i => exact henter rfl
      | none => exact henter rfl

end steps

/-! ## The measure -/

/-- The three numbers of a configuration. -/
noncomputable def measure (names : List String) (L : Labels) (c : Graph.Config) : Nat × Nat × Nat :=
  (potential names L c.1, slack names c.1 + latents (Tag.known names).card c.2, weights c.2)

/-- One measure is below another if the first number in which they differ is. -/
def below : Nat × Nat × Nat → Nat × Nat × Nat → Prop := Prod.Lex (· < ·) (Prod.Lex (· < ·) (· < ·))

theorem wellFounded_below : WellFounded below :=
  wellFounded_lt.prod_lex (wellFounded_lt.prod_lex wellFounded_lt)

theorem below_of_lt {a a' b b' c c' : Nat}
    (h : a' < a ∨ a' ≤ a ∧ (b' < b ∨ b' ≤ b ∧ c' < c)) : below (a', b', c') (a, b, c) := by
  rcases h with h | ⟨ha, h⟩
  · exact .left _ _ h
  · rcases Nat.lt_or_eq_of_le ha with ha | rfl
    · exact .left _ _ ha
    · refine .right _ ?_
      rcases h with h | ⟨hb, h⟩
      · exact .left _ _ h
      · rcases Nat.lt_or_eq_of_le hb with hb | rfl
        · exact .left _ _ hb
        · exact .right _ h

section lower

variable (hS : Sound L g) (hT : Tame names L g)
include hS hT

/-- What a task does to the three numbers. -/
def Lowers (names : List String) (L : Labels) (g : Graph) (task : Task) (L' : Labels) (s : Step) :
    Prop :=
  ∀ ts, s.2 = .ok ts → potential names L' s.1 < potential names L g ∨
    potential names L' s.1 ≤ potential names L g ∧
      (slack names s.1 + latents (Tag.known names).card ts <
          slack names g + task.latent (Tag.known names).card ∨
        slack names s.1 + latents (Tag.known names).card ts ≤
          slack names g + task.latent (Tag.known names).card ∧ weights ts < task.weight)

/-- A step that changes no type, and brings no new nodes. -/
theorem Spends.lowers {task : Task} {s : Step} (h : Spends (Tag.known names).card g task s)
    (hext : Extends L g L' s.1) (hcalm : Graph.Calm g s.1) (hplain : L'.Plain g) :
    Lowers names L g task L' s := by
  intro ts hts
  have hlatent := h.latent ts hts
  have hslack := slack_calm names hS hext.grows hcalm
  exact .inr ⟨potential_le hS hT hext hcalm.lasts hplain,
    .inr ⟨by omega, h.weight ts hts⟩⟩

theorem lowers_resolve {c : NodeId} (hc : L.IsCall c) (hl : g.Linked c) :
    Lowers names L g (.resolve c) (L.resolved g c) (g.resolve c) := by
  have hkeep := keeps_resolve hS hc hl
  obtain ⟨s, hs, -, hcases⟩ := resolves_resolve hS hl
  have hsame : ∀ {t : Task} {ts : List Task}, latents (Tag.known names).card ts = 0 →
      weights ts < t.weight → Lowers names L g t L (g.next ts) := by
    intro t ts hlatent hweight ts' hts
    cases hts
    refine .inr ⟨Nat.le_refl _, .inr ⟨?_, hweight⟩⟩
    rw [hlatent]
    exact Nat.le_add_right ..
  generalize L.resolved g c = L', g.resolve c = step at hcases hkeep
  cases hcases with
  | waiting => exact hsame rfl (by simp [weights, Task.weight])
  | dispatch | inst =>
      exact hsame (by simp [latents, Task.latent]) (by simp [weights, Task.weight])
  | undefined | arity | frozen =>
      intro ts hts
      cases hts
  | newDispatch n hin _ hnew =>
      exact fun ts _ => .inl (potential_addDispatch hS hT hc hs hin hnew n)
  | newInst hcall hnew hm hps =>
      exact fun ts _ => .inl (potential_specialized hS hT hcall hnew hm hps hkeep.extend)

theorem lowers_store {n : NodeId} (hn : (n : Nat) < g.cells.size) (t : Ty) :
    Lowers names L g (.store n t) L (g.storeType n t) := by
  have hpotential := potential_le hS hT (.of_grows (grows_storeType g n t))
    (lasts_storeType g n t) (plain_self hS)
  intro ts hts
  refine .inr ⟨hpotential, .inl ?_⟩
  rcases g.storeType_cases n t with ⟨h, -⟩ | ⟨h, -⟩ <;> rw [h] at hts ⊢ <;> cases hts
  · simp [Graph.next, latents, Task.latent]
  · have hslack := slack_setType names hS hn t
    have hgap : gap names (g.setType n t) n ≤ (Tag.known names).card := gap_le n
    have hzero : latents (Tag.known names).card
        ((g.observers n).map fun o => .deliver n o.1 o.2) = 0 := by
      simp [latents, Task.latent, Function.comp_def]
    simp only [Graph.next, hzero, Task.latent]
    omega

theorem lowers_widen {n : NodeId} (hn : (n : Nat) < g.cells.size) {t : Ty}
    (ht : t.Tame names g) : Lowers names L g (.widen n t) L (g.widenType n t) := by
  rw [hS.widenType_eq ht.valid]
  generalize hjoined : g.joined n t = joined
  have hpotential := potential_le hS hT (.of_grows (grows_storeType g n joined))
    (lasts_storeType g n joined) (plain_self hS)
  intro ts hts
  refine .inr ⟨hpotential, ?_⟩
  rcases g.storeType_cases n joined with ⟨h, -⟩ | ⟨h, hdiff⟩ <;> rw [h] at hts ⊢ <;> cases hts
  · exact .inr ⟨by simp [Graph.next, latents], by simp [weights, Task.weight]⟩
  · left
    have hslack := slack_setType names hS hn joined
    have hgrows := Graph.grows_setType g n joined
    have hzero : latents (Tag.known names).card
        ((g.observers n).map fun o => .deliver n o.1 o.2) = 0 := by
      simp [latents, Task.latent, Function.comp_def]
    have hgap : gap names (g.setType n joined) n < gap names g n := by
      have htype : (g.setType n joined).type n = some joined := by
        rw [Graph.type_setType, if_pos ⟨rfl, hn⟩]
      rw [gap, gap, htype, Option.elim_some]
      cases hold : g.type n with
      | none =>
          simp only [Graph.joined, hold] at hjoined
          subst hjoined
          have hknown := Finset.card_le_card ht.known
          have hpos := ht.tags_nonempty.card_pos
          rw [hgrows.tags_eq ht.valid, Option.elim_none]
          omega
      | some old =>
          simp only [Graph.joined, hold] at hjoined
          subst hjoined
          have hT' := hT.typed hold
          obtain ⟨hmerged, htags⟩ := Ty.Tame.merge hT.flat hT' ht
          have hne : g.heap.tags old ≠ g.heap.tags (g.heap.merge old t) := by
            intro heq
            have := (hT.flat.same_iff hT'.normal hmerged.normal).mpr heq
            rw [hdiff old hold] at this
            cases this
          have hlt : (g.heap.tags old).card < (g.heap.tags (g.heap.merge old t)).card := by
            refine Finset.card_lt_card (Finset.ssubset_iff_subset_ne.mpr ⟨?_, hne⟩)
            rw [htags]
            exact Finset.subset_union_left
          have hknown := Finset.card_le_card hmerged.known
          rw [hgrows.tags_eq hmerged.valid, Option.elim_some]
          omega
    simp only [Graph.next, hzero]
    omega

theorem lowers_perform {task : Task} (hok : task.OK L g) (ht : task.Tame names g) :
    Lowers names L g task (L.performed g task) (g.perform task) := by
  by_cases hstore : ∃ n t, task = .store n t
  · obtain ⟨n, t, rfl⟩ := hstore
    obtain ⟨⟨w, r, k, e, hn⟩, -⟩ := hok
    exact lowers_store hS hT (hS.bound hn) t
  by_cases hwiden : ∃ n t, task = .widen n t
  · obtain ⟨n, t, rfl⟩ := hwiden
    obtain ⟨⟨l, hn, -⟩, -⟩ := hok
    exact lowers_widen hS hT (hS.bound hn) ht
  by_cases hresolve : ∃ c, task = .resolve c
  · obtain ⟨c, rfl⟩ := hresolve
    exact lowers_resolve hS hT hok.2 hok.1
  refine Spends.lowers hS hT ?_ (keeps_perform hS hok).extend
    (calm_perform hS hok (fun n t h => hstore ⟨n, t, h⟩) fun n t h => hwiden ⟨n, t, h⟩)
    (plain_performed hS fun c h => hresolve ⟨c, h⟩)
  have hreact : ∀ (t : Task) (s o : NodeId) (r : Reaction) (t' : Option Ty), g.EdgeOK L s o r →
      weights (reactionTasks o t' r) < t.weight →
      Spends (Tag.known names).card g t (g.react (some s) o r t') := by
    intro t s o r t' he hw
    rw [hS.react_eq he]
    refine .next ?_ hw
    have hzero : latents (Tag.known names).card (reactionTasks o t' r) = 0 := by
      cases r <;> cases t' <;> rfl
    simp [hzero]
  have hmark : ∀ (t : Task) (c : NodeId) (f : Site → Site), t.weight = 1 →
      Spends (Tag.known names).card g t ((g.modifySite c f).next []) := by
    intro t c f hw
    exact .next (by simp [Graph.modifySite, latents]) (by simp [weights, hw])
  cases task with
  | visit w e n => exact spends_visit hS hT w e n
  | store n t => exact (hstore ⟨n, t, rfl⟩).elim
  | widen n t => exact (hwiden ⟨n, t, rfl⟩).elim
  | subscribe s o r =>
      refine .next ?_ ?_
      · cases g.type s <;> simp [Graph.addObserver, latents, Task.latent]
      · cases g.type s <;> cases r <;> simp [weights, Task.weight]
  | deliver s o r =>
      refine hreact _ s o r (g.type s) hok ?_
      cases r <;> cases g.type s <;> simp [reactionTasks, weights, Task.weight]
  | react s o r t =>
      obtain ⟨s', t', rfl, rfl, he, -⟩ := hok
      refine hreact _ s' o r (some t') he ?_
      cases r <;> simp [reactionTasks, weights, Task.weight]
  | notify n => exact hok.elim
  | bind w p n =>
      exact spends_placeOf (f := fun v => [.subscribe n v .merge, .subscribe v (n + 1) .merge])
        (by simp [latents, Task.latent]) (by simp [weights, Task.weight])
  | resolve c => exact (hresolve ⟨c, rfl⟩).elim
  | aim c t => exact hmark _ c _ rfl
  | markNew c => exact hmark _ c _ rfl
  | finish c i => exact hmark _ c _ rfl
  | leave w outer => exact .next (by simp [Graph.modifyWalk, latents]) (by simp [weights, Task.weight])
  | member d r as =>
      obtain ⟨x, hd, -⟩ := hok
      obtain ⟨y, hy, -⟩ := Graph.dispatch_of_blank (hS.fits hd).1 rfl
      simp only [Graph.perform, Graph.addMember_eq hy]
      refine .next ?_ (by simp [weights, Task.weight])
      have hsize : (g.withMember y r as).cells.size =
          g.cells.size + (r.toList.length + as.length) + 1 := by
        rw [Graph.withMember, Graph.addCell, Array.size_push, Graph.cells_addSlots, memberSlots]
        simp
      have hone : r.toList.length ≤ 1 := by cases r <;> simp
      simp only [Graph.modifyDispatch, Array.size_modify, hsize, latents, List.map_cons,
        List.map_nil, List.sum_cons, List.sum_nil, Task.latent]
      refine Nat.mul_le_mul_left _ ?_
      omega

end lower

/-- Each task of a run lowers the measure. -/
theorem below_step {g' : Graph} {task : Task} {tasks rest : List Task}
    (hS : Sound.Config L (g, task :: rest)) (hT : Tame.Config names L (g, task :: rest))
    (hp : g.perform task = (g', .ok tasks)) :
    below (measure names (L.performed g task) (g', tasks ++ rest))
      (measure names L (g, task :: rest)) := by
  have hlow := lowers_perform hS.graph hT.graph (hS.tasks task (List.mem_cons_self ..))
    (hT.tasks task (List.mem_cons_self ..))
  rw [hp] at hlow
  have hcons : latents (Tag.known names).card (task :: rest) =
      task.latent (Tag.known names).card + latents (Tag.known names).card rest := List.sum_cons
  have hweights : weights (task :: rest) = task.weight + weights rest := List.sum_cons
  refine below_of_lt ((hlow tasks rfl).imp_right (And.imp_right ?_))
  simp only [latents_append, weights_append, hcons, hweights]
  omega

/-! ## Programs -/

namespace Expr

/-- An instance variable, read or assigned to. -/
def isInstanceVar : Expr → Bool
  | .place p => p.kind == .instanceVar
  | _ => false

/-- No node of a tree is an instance variable. -/
def FieldFree (e : Expr) : Prop := ∀ x ∈ e.all, x.isInstanceVar = false

instance (e : Expr) : Decidable e.FieldFree := List.decidableBAll ..

/-- The names of the classes in a tree. -/
def classNames (e : Expr) : List String :=
  e.all.filterMap fun
    | .klass n _ => some n.text
    | _ => none

theorem FieldFree.within {e : Expr} (h : e.FieldFree) : e.Within e.classNames := by
  refine fun x hx => ⟨fun p hp => ?_, fun n b hn => ?_⟩
  · subst hp
    have := h _ hx
    cases hk : p.kind with
    | localVar => rfl
    | instanceVar => simp [isInstanceVar, hk] at this
  · subst hn
    exact List.mem_filterMap.mpr ⟨_, hx, rfl⟩

end Expr

/-- A fault stays an error of the program as it is told by the calls that wait. -/
theorem Graph.unwind_inference (g : Graph) (e : InferenceError) (rest : List Task) :
    ∃ e', (g.unwind (.inference e) rest).2 = .inference e' := by
  induction rest generalizing g e with
  | nil => exact ⟨e, rfl⟩
  | cons task rest ih =>
      cases task with
      | finish c i =>
          rw [unwind]
          cases g.site? c with
          | none => exact ih _ e
          | some s => exact ih _ _
      | leave w outer => exact ih _ e
      | _ => exact ih g e

/-- A program that fails has an error in it. -/
theorem inferTypes_failed {budget : Nat} {tree : Expr} {f : Fault}
    (h : (inferTypes budget tree).2 = .failed f) : ∃ e, f = .inference e := by
  rw [inferTypes_outcome] at h
  obtain ⟨done, g₁, task, rest, g₂, f₂, hpass, hfail, hend⟩ := Graph.passes_of_run_failed h
  obtain ⟨L, hL⟩ := (Sound.Config.loaded tree).passes hpass
  obtain ⟨e, rfl⟩ := hL.fault hfail
  obtain ⟨e', he'⟩ := g₂.unwind_inference e rest
  exact ⟨e', by rw [← he', ← hend]⟩

/-- Inference of a program without instance variables ends, with types or with an error of the
program, and more steps change nothing about how it ends. -/
theorem inferTypes_ends (tree : Expr) (h : tree.FieldFree) :
    ∃ budget, ((inferTypes budget tree).2 = .finished ∨
        ∃ e, (inferTypes budget tree).2 = .failed (.inference e)) ∧
      ∀ budget' ≥ budget, inferTypes budget' tree = inferTypes budget tree := by
  obtain ⟨budget, hend⟩ := Graph.exists_run_ended
    (fun L c => Sound.Config L c ∧ Tame.Config tree.classNames L c)
    (measure tree.classNames) wellFounded_below
    (fun L g task rest g' tasks hinv hp => ⟨L.performed g task,
      ⟨(hinv.1.step hp).2, hinv.2.step hinv.1 hp⟩, below_step hinv.1 hinv.2 hp⟩)
    (Labels.loaded tree) (Graph.loaded tree) [.visit 0 tree rootOf]
    ⟨.loaded tree, .loaded h.within⟩
  refine ⟨budget, ?_, fun budget' hle => ?_⟩
  · rw [← inferTypes_outcome] at hend
    cases hout : (inferTypes budget tree).2 with
    | finished => exact .inl rfl
    | exhausted => exact (hend hout).elim
    | failed f =>
        obtain ⟨e, rfl⟩ := inferTypes_failed hout
        exact .inr ⟨e, rfl⟩
  · rw [inferTypes_eq, inferTypes_eq, Graph.run_of_le hend hle]

/-- Two methods that call each other, one of them through a method of its own, and a variable that
feeds back into the call that defines it. -/
def evenOdd : Expr :=
  let name (text : String) : Token := ⟨text, 0⟩
  let var (text : String) : Expr := .place ⟨.localVar, name text⟩
  let call (f : String) (e : Expr) : Expr := .call none (name f) [e] true
  let less (e : Expr) (k : LiteralKind) : Expr :=
    .call (some e) (name "-") [.literal ⟨k, .none, 0⟩] false
  .block [
    .method (name "even") [name "n"] (.block [
      .method (name "step") [name "m"] (.block [call "odd" (less (var "m") .int)]),
      call "step" (var "n")]),
    .method (name "odd") [name "n"] (.block [call "even" (less (var "n") .float)]),
    .assign ⟨.localVar, name "x"⟩ (.literal ⟨.int, .none, 0⟩),
    .assign ⟨.localVar, name "x"⟩ (call "even" (var "x"))]

theorem inferTypes_ends_evenOdd :
    evenOdd.FieldFree ∧ ∃ budget, ((inferTypes budget evenOdd).2 = .finished ∨
        ∃ e, (inferTypes budget evenOdd).2 = .failed (.inference e)) ∧
      ∀ budget' ≥ budget, inferTypes budget' evenOdd = inferTypes budget evenOdd :=
  ⟨by decide, inferTypes_ends evenOdd (by decide)⟩

end TypeFlow
