import TypeFlow.Proofs.Lasting

/-! # Every node is connected

A walk leaves no node out: what a node needs to learn its type is there, or a task that waits will
see to it. When nothing waits any more, all nodes that walks come to are connected. -/

namespace TypeFlow

namespace Graph

/-- One node observes another, or is about to. -/
def Observes (g : Graph) (ts : List Task) (s o : NodeId) (r : Reaction) : Prop :=
  g.Has (.mark s (.edge o r)) ∨ .subscribe s o r ∈ ts

/-- A node has a type, or is about to get one. -/
def Settled (g : Graph) (ts : List Task) (n : NodeId) : Prop :=
  g.type n ≠ none ∨ ∃ t, .store n t ∈ ts

/-- A cell is what a name stands for in a walk. -/
def PlaceAt (g : Graph) (w : WalkId) (p : Place) (v : NodeId) : Prop :=
  match p.kind with
  | .localVar => g.Has (.var w p.name.text v)
  | .instanceVar => ∃ i, g.Has (.self w i) ∧ g.Has (.field i p.name.text v)

/-- What a node needs, by its kind. The target of an assignment is seen to by the assignment. -/
def Duty (g : Graph) (ts : List Task) (w : WalkId) (n : Nat) : Expr → Prop
  | .literal _ | .loop _ _ => g.Settled ts n
  | .place p => (∃ v, g.PlaceAt w p v ∧ g.Observes ts v n .merge) ∨
      ∃ m : Nat, n = m + 1 ∧ .bind w p m ∈ ts
  | .assign t _ => g.Observes ts (n + 2) n .merge ∧
      ((∃ v, g.PlaceAt w t v ∧ g.Observes ts n v .merge) ∨ .bind w t n ∈ ts)
  | .block es =>
      match (Expr.spread (n + 1) es).getLast? with
      | some x => g.Observes ts x.1 n .merge
      | none => g.Settled ts n
  | .cond c t f => g.Observes ts (n + 1 + c.size) n .merge ∧
      (Expr.hasElse f = true → g.Observes ts (n + 1 + c.size + t.size) n .merge)
  | .call rc nm as p =>
      if (Expr.call rc nm as p).isNew then g.Settled ts n
      else g.Linked n ∧ ∀ v ∈ g.inputsOf n, g.Observes ts v n .resolve
  | .const _ | .method _ _ _ | .klass _ _ => True

end Graph

/-- A walk that waits will come to a node. -/
def Awaited (ts : List Task) (w : WalkId) (q : Stop) : Prop :=
  ∃ e k, ∃ i : Nat, .visit w e i ∈ ts ∧ q ∈ e.stops k i

/-- All nodes that walks come to are connected, or will be. -/
def Wired (L : Labels) (g : Graph) (ts : List Task) : Prop :=
  ∀ {n w r k e}, L n = some (.node w r k e) → Awaited ts w ⟨n, k, e⟩ ∨ g.Duty ts w n e

variable {L L' : Labels} {g g' : Graph} {task : Task} {ts rest : List Task}

/-! ## What a task brings about -/

theorem Graph.has_addObserver_self {s o : NodeId} {r : Reaction} (hs : (s : Nat) < g.cells.size) :
    (g.addObserver s o r).Has (.mark s (.edge o r)) := by
  refine Graph.has_edge.mpr ?_
  rw [Graph.observers_addObserver, if_pos ⟨rfl, hs⟩]
  exact Table.mem_put_self ..

section perform

variable (hS : Sound L g) (hok : task.OK L g) (hp : g.perform task = (g', .ok ts))
include hS hok hp

theorem extends_of_perform : Extends L g (L.performed g task) g' := by
  have := (keeps_perform hS hok).extend
  rwa [hp] at this

theorem lasts_of_perform : Graph.Lasts g g' := by
  have := lasts_perform hS hok
  rwa [hp] at this

/-- A type stays known. -/
theorem type_of_perform {n : NodeId} (hn : g.type n ≠ none) : g'.type n ≠ none := by
  obtain ⟨t, ht⟩ := Option.ne_none_iff_exists'.mp hn
  have hbound : (n : Nat) < g.cells.size := by
    obtain ⟨l, hl⟩ := Option.ne_none_iff_exists'.mp (hS.typed ht).1
    exact hS.bound hl
  have hstore : ∀ m t', (g.storeType m t').1.type n ≠ none := by
    intro m t'
    rcases g.storeType_cases m t' with ⟨h, -⟩ | ⟨h, -⟩ <;> rw [h]
    · exact hn
    · simp only [Graph.next, Graph.type_setType]
      split
      · simp
      · exact hn
  by_cases hs : ∃ m t', task = .store m t'
  · obtain ⟨m, t', rfl⟩ := hs
    have := hstore m t'
    rw [Graph.perform] at hp
    rwa [hp] at this
  · by_cases hw : ∃ m t', task = .widen m t'
    · obtain ⟨m, t', rfl⟩ := hw
      have := hstore m (g.joined m t')
      rw [Graph.perform, hS.widenType_eq hok.2] at hp
      rwa [hp] at this
    · have hcalm := (calm_perform hS hok (fun m t h => hs ⟨m, t, h⟩) fun m t h => hw ⟨m, t, h⟩).type
        n hbound
      rw [hp] at hcalm
      rwa [hcalm]

theorem observes_step {s o : NodeId} {r : Reaction} (h : g.Observes (task :: rest) s o r) :
    g'.Observes (ts ++ rest) s o r := by
  rcases h with h | h
  · exact .inl (lasts_of_perform hS hok hp _ rfl h)
  · rcases List.mem_cons.mp h with rfl | h
    · left
      obtain ⟨l, hl⟩ := Option.ne_none_iff_exists'.mp hok.1
      cases hp
      exact Graph.has_addObserver_self (hS.bound hl)
    · exact .inr (List.mem_append_right _ h)

theorem settled_step {n : NodeId} (h : g.Settled (task :: rest) n) :
    g'.Settled (ts ++ rest) n := by
  rcases h with h | ⟨t, h⟩
  · exact .inl (type_of_perform hS hok hp h)
  · rcases List.mem_cons.mp h with rfl | h
    · left
      obtain ⟨⟨w, r, k, e, hn⟩, -⟩ := hok
      rcases g.storeType_cases n t with ⟨hst, old, hold, -⟩ | ⟨hst, -⟩ <;>
        rw [Graph.perform, hst] at hp <;> cases hp
      · simp [hold]
      · rw [Graph.type_setType, if_pos ⟨rfl, hS.bound hn⟩]
        simp
    · exact .inr ⟨t, List.mem_append_right _ h⟩

theorem placeAt_step {w : WalkId} {p : Place} {v : NodeId} (h : g.PlaceAt w p v) :
    g'.PlaceAt w p v := by
  have hl := lasts_of_perform hS hok hp
  unfold Graph.PlaceAt at h ⊢
  cases hk : p.kind with
  | localVar =>
      rw [hk] at h
      exact hl _ rfl h
  | instanceVar =>
      rw [hk] at h
      obtain ⟨i, hi, hv⟩ := h
      exact ⟨i, hl _ rfl hi, hl _ rfl hv⟩

end perform

/-- The place of a name is there once it was looked up. -/
theorem placeAt_placeOf (hS : Sound L g) {w : WalkId} (hw : ∃ x, g.walks[w]? = some x) {p : Place}
    {n : NodeId} {v : NodeId} (h : (g.placeOf w p n).2 = .ok v) :
    (g.placeOf w p n).1.PlaceAt w p v := by
  unfold Graph.placeOf at h ⊢
  unfold Graph.PlaceAt
  cases hk : p.kind with
  | localVar =>
      simp only [hk] at h ⊢
      cases hv : (g.walk w).vars.lookup p.name.text with
      | some u =>
          rw [Graph.variableOf_known hv] at h ⊢
          cases h
          exact Table.mem_of_lookup hv
      | none =>
          rw [Graph.variableOf_new hv] at h ⊢
          cases h
          obtain ⟨x, hx⟩ := hw
          have hwalk : (g.withVariable w p.name.text).walk w =
              { x with vars := x.vars.put p.name.text g.cells.size } := by
            simp [Graph.walk, Graph.withVariable, Graph.modifyWalk, Graph.addSlot, Graph.addCell,
              Array.getElem?_modify, hx]
          simp only [Graph.Has, hwalk]
          exact Table.mem_put_self ..
  | instanceVar =>
      simp only [hk] at h ⊢
      cases hi : (g.walk w).self with
      | none => simp [hi] at h
      | some i =>
          obtain ⟨o, ho⟩ := hS.entries (e := .self w i) hi
          simp only [hi] at h ⊢
          cases h
          unfold Graph.fieldOf
          cases hf : g.objects[i]?.bind fun o => o.fields.lookup p.name.text with
          | some u =>
              obtain ⟨o', ho', hu⟩ := Option.bind_eq_some_iff.mp hf
              exact ⟨i, hi, o', ho', Table.mem_of_lookup hu⟩
          | none =>
              refine ⟨i, hi, { o with fields := o.fields.put p.name.text g.cells.size }, ?_,
                Table.mem_put_self ..⟩
              simp [Graph.putField, Graph.addSlot, Graph.addCell, Array.getElem?_modify, ho]

/-! ## Nodes that were connected stay connected -/

section duty

variable (hS : Sound L g) (hok : task.OK L g) (hp : g.perform task = (g', .ok ts))
include hS hok hp

/-- A binding that was due has been made. -/
theorem bind_step {w : WalkId} {p : Place} {n : NodeId} (h : .bind w p n ∈ task :: rest) :
    .bind w p n ∈ ts ++ rest ∨ ∃ v, g'.PlaceAt w p v ∧ .subscribe n v .merge ∈ ts ∧
      .subscribe v (n + 1) .merge ∈ ts := by
  rcases List.mem_cons.mp h with rfl | h
  · right
    rw [Graph.perform, Graph.bind] at hp
    rcases hpl : g.placeOf w p (n + 1) with ⟨g₁, f | v⟩
    · rw [hpl] at hp
      cases hp
    · have hplace := placeAt_placeOf hS hok.2 (p := p) (n := n + 1) (v := v) (by rw [hpl])
      rw [hpl] at hp hplace
      cases hp
      exact ⟨v, hplace, by simp, by simp⟩
  · exact .inl (List.mem_append_right _ h)

theorem duty_step {w : WalkId} {n : Nat} {e : Expr} (hn : n < g.cells.size)
    (h : g.Duty (task :: rest) w n e) : g'.Duty (ts ++ rest) w n e := by
  have hgrows := (extends_of_perform hS hok hp).grows
  cases e with
  | const | method | klass => trivial
  | literal | loop => exact settled_step hS hok hp h
  | place p =>
      rcases h with ⟨v, hv, hobs⟩ | ⟨m, rfl, hm⟩
      · exact .inl ⟨v, placeAt_step hS hok hp hv, observes_step hS hok hp hobs⟩
      · rcases bind_step hS hok hp hm with hm | ⟨v, hv, -, hsub⟩
        · exact .inr ⟨m, rfl, hm⟩
        · exact .inl ⟨v, hv, .inr (List.mem_append_left _ hsub)⟩
  | assign t v =>
      refine ⟨observes_step hS hok hp h.1, ?_⟩
      rcases h.2 with ⟨v, hv, hobs⟩ | hm
      · exact .inl ⟨v, placeAt_step hS hok hp hv, observes_step hS hok hp hobs⟩
      · rcases bind_step hS hok hp hm with hm | ⟨v, hv, hsub, -⟩
        · exact .inr hm
        · exact .inl ⟨v, hv, .inr (List.mem_append_left _ hsub)⟩
  | block es =>
      simp only [Graph.Duty] at h ⊢
      cases hlast : (Expr.spread (n + 1) es).getLast? with
      | some x =>
          rw [hlast] at h
          exact observes_step hS hok hp h
      | none =>
          rw [hlast] at h
          exact settled_step hS hok hp h
  | cond c t f =>
      exact ⟨observes_step hS hok hp h.1, fun he => observes_step hS hok hp (h.2 he)⟩
  | call rc nm as p =>
      simp only [Graph.Duty] at h ⊢
      split at h
      · next hnew =>
          rw [if_pos hnew]
          exact settled_step hS hok hp h
      · next hnew =>
          rw [if_neg hnew, hgrows.inputsOf hn]
          exact ⟨hgrows.linked h.1, fun v hv => observes_step hS hok hp (h.2 v hv)⟩

end duty

/-! ## Nodes that a walk comes to -/

/-- The walk over a node goes on to its parts, but leaves the target of an assignment to the
binding. -/
theorem visit_parts {w : WalkId} {e : Expr} {n : NodeId} {k : Option String}
    (hp : g.visit w e n = (g', .ok ts)) {p : Stop} (hpart : p ∈ e.parts k n) :
    .visit w p.expr p.node ∈ ts ∨
      ∃ t v, e = .assign t v ∧ p = ⟨n + 1, k, .place t⟩ ∧ .bind w t n ∈ ts := by
  cases e with
  | literal | place | const | method => simp [Expr.parts] at hpart
  | assign t v =>
      cases hp
      simp only [Expr.parts, List.mem_cons, List.not_mem_nil, or_false] at hpart
      rcases hpart with rfl | rfl
      · exact .inr ⟨t, v, rfl, rfl, by simp⟩
      · exact .inl (by simp)
  | loop c b =>
      cases hp
      simp only [Expr.parts, List.mem_cons, List.not_mem_nil, or_false] at hpart
      rcases hpart with rfl | rfl <;> exact .inl (by simp)
  | klass nm b =>
      cases hp
      simp only [Expr.parts, List.mem_singleton] at hpart
      subst hpart
      exact .inl (by simp)
  | block es =>
      cases hp
      simp only [Expr.parts, List.mem_map] at hpart
      obtain ⟨x, hx, rfl⟩ := hpart
      exact .inl (List.mem_append_left _ (List.mem_map_of_mem hx))
  | cond c t f =>
      simp only [Graph.visit] at hp
      cases hp
      simp only [Expr.parts, List.cons_append, List.nil_append, List.mem_cons, List.mem_map] at hpart
      rcases hpart with rfl | rfl | ⟨x, hx, rfl⟩
      · exact .inl (by simp)
      · exact .inl (by simp)
      · cases Option.mem_toList.mp hx
        exact .inl (by simp)
  | call rc nm as q =>
      rcases g.visit_call w rc nm as q n with ⟨hnew, hvisit⟩ | ⟨c, rfl, hnew, hvisit⟩
      · rw [hvisit] at hp
        simp only [Expr.parts, hnew, Bool.false_eq_true, if_false, List.mem_append,
          List.mem_map] at hpart
        cases hp
        left
        refine List.mem_append_right _ (List.mem_map.mpr ?_)
        rcases hpart with ⟨x, hx, rfl⟩ | ⟨x, hx, rfl⟩
        · exact ⟨(n + 1, x), by simp [Option.mem_toList.mp hx], rfl⟩
        · exact ⟨x, List.mem_append_right _ hx, rfl⟩
      · simp [Expr.parts, Expr.isNew, hnew] at hpart

/-- The walk over a node connects it. -/
theorem duty_visit (hS : Sound L g) {w : WalkId} {e : Expr} {n : Nat}
    (hok : (Task.visit w e n).OK L g) (hp : g.visit w e n = (g', .ok ts)) :
    g'.Duty ts w n e := by
  obtain ⟨⟨r, k, hn⟩, hw⟩ := hok
  cases e with
  | const | method | klass => trivial
  | literal l =>
      cases hp
      exact .inr ⟨_, List.mem_singleton_self _⟩
  | loop c b =>
      cases hp
      exact .inr ⟨.void, by simp⟩
  | place p =>
      rw [Graph.visit] at hp
      rcases hpl : g.placeOf w p n with ⟨g₁, f | v⟩
      · rw [hpl] at hp
        cases hp
      · have hplace := placeAt_placeOf hS hw (p := p) (n := n) (v := v) (by rw [hpl])
        rw [hpl] at hp hplace
        cases hp
        exact .inl ⟨v, hplace, .inr (by simp)⟩
  | assign t v =>
      cases hp
      exact ⟨.inr (by simp), .inr (by simp)⟩
  | block es =>
      simp only [Graph.visit] at hp
      cases hp
      simp only [Graph.Duty]
      cases (Expr.spread (n + 1) es).getLast? with
      | some x => exact .inr (by simp)
      | none => exact .inr ⟨.void, by simp⟩
  | cond c t f =>
      simp only [Graph.visit] at hp
      cases hp
      exact ⟨.inr (by simp), fun he => .inr (by simp [he])⟩
  | call rc nm as p =>
      rcases g.visit_call w rc nm as p n with ⟨hnew, hvisit⟩ | ⟨c, rfl, hnew, hvisit⟩
      · rw [hvisit] at hp
        have hcall : L.IsCall n := .inl ⟨w, r, k, rc, nm, as, p, hn, hnew⟩
        obtain ⟨s, hs⟩ := hS.site_of_isCall hcall
        simp only [Graph.Duty, hnew, Bool.false_eq_true, if_false]
        have hgrows := Graph.grows_modifySite g n (f := fun s => { s with linked := true })
          (fun _ => rfl) fun _ _ => rfl
        have hinputs := hS.inputsOf_call hn
        cases hp
        refine ⟨⟨{ s with linked := true }, by simp [Graph.site?_modifySite, hs], rfl⟩,
          fun v hv => ?_⟩
        rw [hgrows.inputsOf (hS.bound hn), hinputs] at hv
        rcases List.mem_append.mp hv with hv | hv
        · cases rc with
          | none => simp at hv
          | some x =>
              obtain rfl : v = n + 1 := by simpa using hv
              exact .inr (by simp)
        · obtain ⟨x, hx, rfl⟩ := List.mem_map.mp hv
          refine .inr ?_
          simp only [List.mem_append, List.mem_map]
          exact .inl (.inl (.inl ⟨x, hx, rfl⟩))
      · simp only [Graph.Duty, Expr.isNew, hnew, beq_self_eq_true, if_true]
        rw [hvisit] at hp
        obtain ⟨i, rfl, -⟩ := Graph.instantiate_ok hp
        exact .inr ⟨_, List.mem_cons_self ..⟩

/-! ## Every node -/

theorem duty_mono {us : List Task} (hsub : ∀ t ∈ ts, t ∈ us) {w : WalkId} {n : Nat} {e : Expr}
    (h : g.Duty ts w n e) : g.Duty us w n e := by
  have hobs : ∀ {s o r}, g.Observes ts s o r → g.Observes us s o r :=
    fun h => h.imp_right (hsub _)
  have hset : ∀ {n}, g.Settled ts n → g.Settled us n :=
    fun h => h.imp_right fun ⟨t, ht⟩ => ⟨t, hsub _ ht⟩
  cases e with
  | const | method | klass => trivial
  | literal | loop => exact hset h
  | place p =>
      exact h.imp (fun ⟨v, hv, ho⟩ => ⟨v, hv, hobs ho⟩) fun ⟨m, hm, ht⟩ => ⟨m, hm, hsub _ ht⟩
  | assign t v =>
      exact ⟨hobs h.1, h.2.imp (fun ⟨v, hv, ho⟩ => ⟨v, hv, hobs ho⟩) (hsub _)⟩
  | block es =>
      simp only [Graph.Duty] at h ⊢
      split at h
      · exact hobs h
      · exact hset h
  | cond c t f => exact ⟨hobs h.1, fun he => hobs (h.2 he)⟩
  | call rc nm as p =>
      simp only [Graph.Duty] at h ⊢
      split at h
      · next hnew =>
          rw [if_pos hnew]
          exact hset h
      · next hnew =>
          rw [if_neg hnew]
          exact ⟨h.1, fun v hv => hobs (h.2 v hv)⟩

/-- What a waiting walk was to come to is connected when the walk comes to it. -/
theorem wired_visit (hS : Sound L g) {w : WalkId} {e : Expr} {i : NodeId} {k : Option String}
    (hok : (Task.visit w e i).OK L g) (hp : g.perform (.visit w e i) = (g', .ok ts)) {q : Stop}
    (hq : q ∈ e.stops k i) : Awaited (ts ++ rest) w q ∨ g'.Duty (ts ++ rest) w q.node q.expr := by
  rcases Expr.mem_stops_iff.mp hq with rfl | ⟨p, hpart, hqp⟩
  · exact .inr (duty_mono (fun _ => List.mem_append_left _) (duty_visit hS hok hp))
  · rcases visit_parts hp hpart with hvisit | ⟨t, v, rfl, rfl, hbind⟩
    · exact .inl ⟨p.expr, p.klass, p.node, List.mem_append_left _ hvisit, hqp⟩
    · obtain rfl := List.mem_singleton.mp hqp
      exact .inr (.inr ⟨i, rfl, List.mem_append_left _ hbind⟩)

/-- The nodes of a new instance wait for the walk over it. -/
theorem awaited_specialized {body : Expr} {inputs : List (String × Ty)}
    (hvisit : .visit g.walks.size body g.cells.size ∈ ts) {n : Nat} (hn : g.cells.size ≤ n)
    {w r k e} (hl : L.specialized g body inputs n = some (.node w r k e)) :
    Awaited ts w ⟨n, k, e⟩ := by
  rcases Labels.append_cases hl with ⟨-, hl⟩ | ⟨j, -, hj⟩
  · rcases Labels.append_cases hl with ⟨hlt, -⟩ | ⟨j, rfl, hj⟩
    · omega
    · obtain ⟨q, hq, hnode, heq⟩ := Labels.mem_ofTree hj
      cases heq
      rw [← hnode]
      exact ⟨body, none, g.cells.size, hvisit, hq⟩
  · simp only [Labels.ofInputs, List.getElem?_map, List.getElem?_mapIdx, Option.map_eq_some_iff,
      Option.some.injEq] at hj
    obtain ⟨_, ⟨p, -, rfl⟩, heq⟩ := hj
    split at heq <;> cases heq

theorem wired_step (hS : Sound L g) (hok : task.OK L g) (hp : g.perform task = (g', .ok ts))
    (h : Wired L g (task :: rest)) : Wired (L.performed g task) g' (ts ++ rest) := by
  intro n w r k e hn
  by_cases hlt : (n : Nat) < g.cells.size
  · rw [(extends_of_perform hS hok hp).label n hlt] at hn
    rcases h hn with ⟨e', k', i, hvisit, hq⟩ | hduty
    · rcases List.mem_cons.mp hvisit with rfl | hvisit
      · exact wired_visit hS hok hp hq
      · exact .inl ⟨e', k', i, List.mem_append_right _ hvisit, hq⟩
    · exact .inr (duty_step hS hok hp hlt hduty)
  · have hle := Nat.le_of_not_lt hlt
    by_cases hres : ∃ c, task = .resolve c
    · obtain ⟨c, rfl⟩ := hres
      obtain ⟨s, L', -, hL', hcases⟩ := resolves_perform hS hok.1 hp
      rw [hL'] at hn
      cases hcases with
      | waiting | dispatch | inst => exact (hlt (hS.bound hn)).elim
      | newDispatch => exact (plain_append_one (by simp) n hle w r k e hn).elim
      | newInst =>
          exact .inl (awaited_specialized (by simp) hle hn)
    · exact (plain_performed hS (fun c h => hres ⟨c, h⟩) n hle w r k e hn).elim

/-! ## Runs -/

theorem wired_loaded (tree : Expr) :
    Wired (Labels.loaded tree) (Graph.loaded tree) [.visit 0 tree rootOf] := by
  intro n w r k e hn
  left
  rcases label_loaded hn with ⟨heq, -⟩ | ⟨q, hq, hnode, heq⟩ <;> cases heq
  exact ⟨tree, none, _, List.mem_singleton_self _, hnode ▸ hq⟩

end TypeFlow
