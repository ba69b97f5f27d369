import TypeFlow.Proofs.Lasting

/-! # What a task records

Each task records entries of its own kind, about the nodes that it names and about what it makes.
Whatever else a graph records was there before. -/

namespace TypeFlow

namespace Graph

/-- What is recorded about a name when it is first mentioned. -/
def NewPlace (g : Graph) (w : WalkId) (p : Place) (e : Entry) : Prop :=
  match p.kind with
  | .localVar => e = .var w p.name.text g.cells.size
  | .instanceVar => ∃ i, (g.walk w).self = some i ∧ e = .field i p.name.text g.cells.size

/-- What a task may record. -/
inductive Records (g : Graph) : Task → Entry → Prop where
  | stored {n : NodeId} {t : Ty} : g.Records (.store n t) (.mark n (.typed t))
  | widened {n : NodeId} {t : Ty} : g.Records (.widen n t) (.mark n (.typed (g.joined n t)))
  | edge {s o : NodeId} {r : Reaction} : g.Records (.subscribe s o r) (.mark s (.edge o r))
  | read {w : WalkId} {p : Place} {n : NodeId} {e : Entry} : g.NewPlace w p e →
      g.Records (.visit w (.place p) n) e
  | bound {w : WalkId} {p : Place} {n : NodeId} {e : Entry} : g.NewPlace w p e →
      g.Records (.bind w p n) e
  | linked {w : WalkId} {rc : Option Expr} {nm : Token} {as : List Expr} {p : Bool} {n : NodeId} :
      (Expr.call rc nm as p).isNew = false →
      g.Records (.visit w (.call rc nm as p) n) (.mark n .linked)
  | copied {w : WalkId} {c nm : Token} {as : List Expr} {p : Bool} {n : NodeId} (j : Nat) (t : Ty) :
      g.Records (.visit w (.call (some (.const c)) nm as p) n) (.mark (g.cells.size + j) (.typed t))
  | cloned {w : WalkId} {c nm : Token} {as : List Expr} {p : Bool} {n : NodeId} (j : Nat)
      (x : String) : g.Records (.visit w (.call (some (.const c)) nm as p) n)
        (.field g.objects.size x (g.cells.size + j))
  | method {w : WalkId} {nm : Token} {ps : List Token} {b : Expr} {n : NodeId} :
      g.Records (.visit w (.method nm ps b) n) (.method n)
  | klass {w : WalkId} {nm : Token} {b : Expr} {n : NodeId} :
      g.Records (.visit w (.klass nm b) n) (.klass nm.text g.objects.size)
  | dispatch {c : NodeId} : g.Records (.resolve c) (.dispatch g.cells.size)
  | inst {c method : NodeId} {params : List String} {body : Expr} {receiver : Option Ty}
      {args : List Ty} {e : Entry} : g.NewInstance c method params body receiver args e →
      g.Records (.resolve c) e
  | slot {d : NodeId} {r : Option Atom} {as : List Atom} {j : Nat} {s : Option String × Ty} :
      (memberSlots r as)[j]? = some s →
      g.Records (.member d r as) (.mark (g.cells.size + j) (.typed s.2))
  | taken {d : NodeId} {r : Option Atom} {as : List Atom} :
      g.Records (.member d r as) (.mark (g.memberAt r as) .linked)
  | member {d : NodeId} {r : Option Atom} {as : List Atom} (key : Option Atom × List Atom) :
      g.Records (.member d r as) (.mark d (.member key (g.memberAt r as)))
  | aimed {c : NodeId} {t : Target} : g.Records (.aim c t) (.mark c (.aimed t))
  | found {c : NodeId} {t : Target} : g.Records (.aim c t) (.mark c .found)
  | made {c : NodeId} : g.Records (.markNew c) (.mark c .made)

variable {g : Graph} {L : Labels}

/-- What is new about a place is a variable of the walk, or a field of the object type whose method
the walk goes over. -/
theorem NewPlace.var_or_field {w : WalkId} {p : Place} {e : Entry} (h : g.NewPlace w p e) :
    e = .var w p.name.text g.cells.size ∨
      ∃ i, (g.walk w).self = some i ∧ e = .field i p.name.text g.cells.size := by
  unfold NewPlace at h
  split at h
  · exact .inl h
  · exact .inr h

/-! ## Edits -/

theorem has_storeType {n : NodeId} {t : Ty} {e : Entry} (h : (g.storeType n t).1.Has e) :
    g.Has e ∨ e = .mark n (.typed t) := by
  rcases g.storeType_cases n t with ⟨hs, -⟩ | ⟨hs, -⟩ <;> rw [hs] at h
  · exact .inl h
  · exact has_setType h

theorem has_placeOf {w : WalkId} {p : Place} {n : NodeId} {e : Entry}
    (h : (g.placeOf w p n).1.Has e) : g.Has e ∨ g.NewPlace w p e := by
  unfold placeOf at h
  unfold NewPlace
  cases hk : p.kind with
  | localVar =>
      simp only [hk] at h
      cases hv : (g.walk w).vars.lookup p.name.text with
      | some v =>
          rw [variableOf_known hv] at h
          exact .inl h
      | none =>
          rw [variableOf_new hv] at h
          exact has_withVariable h
  | instanceVar =>
      simp only [hk] at h
      cases hi : (g.walk w).self with
      | none =>
          simp only [hi] at h
          exact .inl h
      | some i =>
          simp only [hi, fieldOf] at h
          split at h
          · exact .inl h
          · rcases has_putField h with h | rfl
            · rcases has_addSlot h with h | ⟨t, ht, -⟩
              · exact .inl h
              · cases ht
            · exact .inr ⟨i, rfl, rfl⟩

/-- A mark on a call that is no new link, target, or other mark was there before. -/
theorem has_modifySite_of {c : NodeId} {f : Site → Site} {e : Entry}
    (h : (g.modifySite c f).Has e) :
    g.Has e ∨ ∃ s k, e = .mark c k ∧ (Role.call (f s)).Has k ∧ ¬ (Role.call s).Has k := by
  rcases has_modifySite h with h | ⟨s, k, hs, rfl, hk⟩
  · exact .inl h
  · by_cases hold : (Role.call s).Has k
    · exact .inl (has_of_site hs hold)
    · exact .inr ⟨s, k, rfl, hk, hold⟩

end Graph

open TypeFlow.Graph

variable {L : Labels} {g : Graph}

/-! ## Tasks -/

theorem has_visit (hS : Sound L g) {w : WalkId} {x : Expr} {n : NodeId} {e : Entry}
    (h : (g.visit w x n).1.Has e) : g.Has e ∨ g.Records (.visit w x n) e := by
  generalize hvisit : (g.visit w x n).1 = g' at h
  cases Graph.visits hvisit with
  | same => exact .inl h
  | place => exact (has_placeOf h).imp_right .read
  | method =>
      rcases has_putMethod h with h | rfl
      · exact .inl h
      · exact .inr .method
  | @entered nm b i =>
      rcases has_modifyWalk (f := fun x => { x with klass := some i }) (fun _ => rfl) h with
        h | ⟨x, v, rfl, hv⟩
      · exact .inl h
      · exact .inl hv
  | @defined nm b =>
      have hadd : (g.addClass nm.text).1.Has e := by
        rcases has_modifyWalk (f := fun x => { x with klass := some (g.addClass nm.text).2 })
          (fun _ => rfl) h with h | ⟨x, v, rfl, hv⟩
        · exact h
        · exact hv
      rcases has_addClass hadd with h | rfl
      · exact .inl h
      · exact .inr .klass
  | call hnew =>
      rcases has_modifySite_of h with h | ⟨s, k, rfl, hk, hold⟩
      · exact .inl h
      · cases k with
        | linked => exact .inr (.linked hnew)
        | _ => exact (hold hk).elim
  | @clone c nm as p q _ hq =>
      obtain ⟨o, ho, -⟩ := hS.entries (e := .klass c.text q) (Table.mem_of_lookup hq)
      rcases has_cloneObject ho (hS.field_slot ho) h with h | ⟨j, f, -, ⟨t, -, rfl⟩ | rfl⟩
      · exact .inl h
      · exact .inr (.copied j t)
      · exact .inr (.cloned j f.1)

theorem has_resolve (hS : Sound L g) {c : NodeId} (hl : g.Linked c) {e : Entry}
    (h : (g.resolve c).1.Has e) : g.Has e ∨ g.Records (.resolve c) e := by
  obtain ⟨s, -, -, hcases⟩ := resolves_resolve hS hl
  generalize L.resolved g c = L', g.resolve c = step at hcases h
  cases hcases with
  | waiting | dispatch | undefined | arity | frozen | inst => exact .inl h
  | newDispatch =>
      rcases has_addDispatch (has_notice h) with h | rfl
      · exact .inl h
      · exact .inr .dispatch
  | newInst => exact (has_specialized h).imp_right .inst

theorem has_addMember (hS : Sound L g) {d : NodeId} {y : Dispatch} (hd : L d = some (.dispatch y))
    {r : Option Atom} {as : List Atom} {e : Entry} (h : (g.addMember d r as).1.Has e) :
    g.Has e ∨ g.Records (.member d r as) e := by
  obtain ⟨x, hx, -⟩ := dispatch_of_blank (hS.fits hd).1 rfl
  rw [addMember_eq hx] at h
  have hwith : ∀ {e : Entry}, (g.withMember x r as).Has e →
      g.Has e ∨ g.Records (.member d r as) e := by
    intro e h
    rcases has_addCell h with h | ⟨k, rfl, hk⟩
    · rcases has_addSlots h with h | ⟨j, s, hs, rfl⟩
      · exact .inl h
      · exact .inr (.slot hs)
    · rw [cells_addSlots]
      cases k with
      | linked => exact .inr .taken
      | typed | edge | cached | member => cases hk
      | aimed | found | busy | made => simp [Cell.Has, Role.Has, Dispatch.member] at hk
  rcases has_modifyDispatch h with h | ⟨z, k, hz, rfl, hk⟩
  · exact hwith h
  · cases k with
    | member key c =>
        rcases Table.mem_of_mem_putBy hk with hk | ⟨rfl, -⟩
        · exact hwith (has_member.mpr ⟨z, hz, hk⟩)
        · exact .inr (.member key)
    | _ => exact hk.elim

/-- What is recorded after a task was there before, or the task may record it. -/
theorem has_perform (hS : Sound L g) {task : Task} (hok : task.OK L g) {e : Entry}
    (h : (g.perform task).1.Has e) : g.Has e ∨ g.Records task e := by
  cases task with
  | visit w x n => exact has_visit hS h
  | store n t =>
      rcases has_storeType h with h | rfl
      · exact .inl h
      · exact .inr .stored
  | widen n t =>
      rw [perform, hS.widenType_eq hok.2] at h
      rcases has_storeType h with h | rfl
      · exact .inl h
      · exact .inr .widened
  | subscribe s o r =>
      rcases has_addObserver h with h | rfl
      · exact .inl h
      · exact .inr .edge
  | deliver s o r =>
      rw [perform, hS.react_eq hok] at h
      exact .inl h
  | react s o r t =>
      obtain ⟨s', t', rfl, rfl, he, -⟩ := hok
      rw [perform, hS.react_eq he] at h
      exact .inl h
  | notify n => exact hok.elim
  | bind w p n =>
      rw [perform, g.graph_bind] at h
      exact (has_placeOf h).imp_right .bound
  | resolve c => exact has_resolve hS hok.1 h
  | aim c t =>
      rcases has_modifySite_of h with h | ⟨s, k, rfl, hk, hold⟩
      · exact .inl h
      · cases k with
        | aimed t' =>
            simp only [Role.Has, Option.some.injEq] at hk
            subst hk
            exact .inr .aimed
        | found => exact .inr .found
        | _ => exact (hold hk).elim
  | member d r as =>
      obtain ⟨x, hd, -⟩ := hok
      exact has_addMember hS hd h
  | markNew c =>
      rcases has_modifySite_of h with h | ⟨s, k, rfl, hk, hold⟩
      · exact .inl h
      · cases k with
        | made => exact .inr .made
        | _ => exact (hold hk).elim
  | finish c i =>
      rcases has_modifySite_of h with h | ⟨s, k, rfl, hk, hold⟩
      · exact .inl h
      · cases k with
        | busy => simp [Role.Has] at hk
        | _ => exact (hold hk).elim
  | leave w outer =>
      rcases has_modifyWalk (f := fun x => { x with klass := outer }) (fun _ => rfl) h
        with h | ⟨x, v, rfl, hv⟩
      · exact .inl h
      · exact .inl hv

/-! ## Tasks that fail -/

theorem Graph.storeType_ne_error {g' : Graph} {n : NodeId} {t : Ty} {f : Fault} :
    g.storeType n t ≠ (g', .error f) := by
  intro h
  rcases g.storeType_cases n t with ⟨hs, -⟩ | ⟨hs, -⟩ <;> rw [hs] at h <;> cases h

/-- Only an instance variable may be out of place. -/
theorem placeOf_error {g' : Graph} {w : WalkId} {p : Place} {n : NodeId} {f : Fault}
    (h : g.placeOf w p n = (g', .error f)) :
    g' = g ∧ p.kind = .instanceVar ∧ f = .inference (.cause .misplacedInstanceVar
      ⟨n, .instanceVar, p.name.text, (p.name.spot, p.name.spot)⟩) := by
  unfold placeOf at h
  cases hk : p.kind with
  | localVar =>
      simp only [hk] at h
      cases h
  | instanceVar =>
      simp only [hk] at h
      cases hi : (g.walk w).self with
      | none =>
          simp only [hi] at h
          cases h
          exact ⟨rfl, rfl, rfl⟩
      | some i =>
          simp only [hi] at h
          cases h

/-- A task that fails, the cause, and the part of the program that the error points at. -/
inductive Graph.Breaks (g : Graph) : Task → Cause → ErrorSite → Prop where
  | place {w : WalkId} {p : Place} {n : NodeId} : p.kind = .instanceVar →
      g.Breaks (.visit w (.place p) n) .misplacedInstanceVar
        ⟨n, .instanceVar, p.name.text, (p.name.spot, p.name.spot)⟩
  | target {w : WalkId} {p : Place} {n : NodeId} : p.kind = .instanceVar →
      g.Breaks (.bind w p n) .misplacedInstanceVar
        ⟨n + 1, .instanceVar, p.name.text, (p.name.spot, p.name.spot)⟩
  | const {w : WalkId} {c nm : Token} {as : List Expr} {p : Bool} {n : NodeId} :
      nm.text = "new" → g.classes.lookup c.text = none →
      g.Breaks (.visit w (.call (some (.const c)) nm as p) n)
        (.unknownConstant c.text) ⟨n + 1, .const, c.text, (c.spot, c.spot)⟩
  | call {c : NodeId} {s : Site} {k : Cause} : g.site? c = some s →
      g.Breaks (.resolve c) k (s.errorSite c)

/-- A task that fails changes nothing, and tells an error with a cause and nothing that wraps it. -/
theorem breaks_of_error (hS : Sound L g) {task : Task} (hok : task.OK L g) {g' : Graph} {f : Fault}
    (hp : g.perform task = (g', .error f)) :
    g' = g ∧ ∃ k site, f = .inference (.cause k site) ∧ g.Breaks task k site := by
  cases task with
  | visit w e n =>
      cases e with
      | place p =>
          simp only [perform, visit] at hp
          split at hp <;> cases hp
          next heq =>
            obtain ⟨rfl, hkind, rfl⟩ := placeOf_error heq
            exact ⟨rfl, _, _, rfl, .place hkind⟩
      | literal | const | method | assign | loop | block | cond => cases hp
      | klass => cases hp
      | call rc nm as p =>
          rcases g.visit_call w rc nm as p n with ⟨-, hvisit⟩ | ⟨c, rfl, hnew, hvisit⟩
          · rw [perform, hvisit] at hp
            cases hp
          · rw [perform, hvisit, instantiate] at hp
            dsimp only at hp
            split at hp
            · cases hp
            · split at hp <;> cases hp
              next hnone => exact ⟨rfl, _, _, rfl, .const hnew hnone⟩
  | store n t => exact (storeType_ne_error hp).elim
  | widen n t =>
      rw [perform, hS.widenType_eq hok.2] at hp
      exact (storeType_ne_error hp).elim
  | deliver s o r =>
      rw [perform, hS.react_eq hok] at hp
      cases hp
  | react s o r t =>
      obtain ⟨s', t', rfl, rfl, he, -⟩ := hok
      rw [perform, hS.react_eq he] at hp
      cases hp
  | notify => exact hok.elim
  | bind w p n =>
      simp only [perform, Graph.bind] at hp
      split at hp <;> cases hp
      next heq =>
        obtain ⟨rfl, hkind, rfl⟩ := placeOf_error heq
        exact ⟨rfl, _, _, rfl, .target hkind⟩
  | subscribe | aim | markNew | finish | leave => cases hp
  | member d r as =>
      obtain ⟨x, hd, -⟩ := hok
      obtain ⟨y, hy, -⟩ := dispatch_of_blank (hS.fits hd).1 rfl
      rw [perform, addMember_eq hy] at hp
      cases hp
  | resolve c =>
      obtain ⟨s, L', hs, -, hcases⟩ := resolves_perform hS hok.1 hp
      cases hcases with
      | undefined | arity | frozen => exact ⟨rfl, _, _, rfl, .call hs⟩

end TypeFlow
