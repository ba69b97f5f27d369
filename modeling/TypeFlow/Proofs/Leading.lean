import TypeFlow.Proofs.Recording

/-! # What a task leads to

Each task leads to tasks of its own kinds, about the nodes that it names, about those that observe
them, and about what it makes. -/

namespace TypeFlow

/-- An expression that has its type from itself alone. -/
def Expr.isSeed : Expr → Bool
  | .literal _ | .loop _ _ | .block [] => true
  | e => e.isNew

theorem Expr.isSeed_call (rc : Option Expr) (nm : Token) (as : List Expr) (p : Bool) :
    (Expr.call rc nm as p).isSeed = (Expr.call rc nm as p).isNew := rfl

namespace Graph

/-- What a task may leave to do. -/
inductive Leads (g : Graph) : Task → Task → Prop where
  | stored {n o : NodeId} {t : Ty} {r : Reaction} : (o, r) ∈ g.observers n →
      g.Leads (.store n t) (.deliver n o r)
  | widened {n o : NodeId} {t : Ty} {r : Reaction} : (o, r) ∈ g.observers n →
      g.Leads (.widen n t) (.deliver n o r)
  | subscribed {s o : NodeId} {r : Reaction} {t : Ty} : g.type s = some t →
      g.Leads (.subscribe s o r) (.react (some s) o r (some t))
  | delivered {s o : NodeId} {t : Ty} : g.type s = some t →
      g.Leads (.deliver s o .merge) (.widen o t)
  | merged {s o : NodeId} {t : Ty} : g.Leads (.react (some s) o .merge (some t)) (.widen o t)
  | prompted {s o : NodeId} : g.Leads (.deliver s o .resolve) (.resolve o)
  | stirred {s o : NodeId} {t : Option Ty} : g.Leads (.react (some s) o .resolve t) (.resolve o)
  | visited {w : WalkId} {e x : Expr} {n m : NodeId} : g.Leads (.visit w e n) (.visit w x m)
  | typed {w : WalkId} {e : Expr} {n : NodeId} {t : Ty} : e.isSeed = true →
      g.Leads (.visit w e n) (.store n t)
  | connected {w : WalkId} {e : Expr} {s n : NodeId} {r : Reaction} : e.isSeed = false →
      g.Leads (.visit w e n) (.subscribe s n r)
  | assigned {w : WalkId} {e : Expr} {p : Place} {n : NodeId} : g.Leads (.visit w e n) (.bind w p n)
  | called {w : WalkId} {e : Expr} {n : NodeId} : g.Leads (.visit w e n) (.resolve n)
  | made {w : WalkId} {e : Expr} {n : NodeId} : g.Leads (.visit w e n) (.markNew n)
  | entered {w : WalkId} {e : Expr} {n : NodeId} {k : Option ObjId} :
      g.Leads (.visit w e n) (.leave w k)
  | bound {w : WalkId} {p : Place} {n v : NodeId} : (g.placeOf w p (n + 1)).2 = .ok v →
      g.Leads (.bind w p n) (.subscribe n v .merge)
  | shown {w : WalkId} {p : Place} {n v : NodeId} :
      g.Leads (.bind w p n) (.subscribe v (n + 1) .merge)
  | pointed {c s : NodeId} : g.Leads (.resolve c) (.subscribe s c .merge)
  | aimed {c : NodeId} {t : Target} : g.Leads (.resolve c) (.aim c t)
  | opened {c : NodeId} {r : Option Atom} {as : List Atom} :
      g.Leads (.resolve c) (.member g.cells.size r as)
  | began {c : NodeId} {w : WalkId} {b : Expr} {n : NodeId} : g.Leads (.resolve c) (.visit w b n)
  | ended {c : NodeId} {i : InstanceId} : g.Leads (.resolve c) (.finish c i)
  | joined {d : NodeId} {r : Option Atom} {as : List Atom} :
      g.Leads (.member d r as) (.subscribe (g.memberAt r as) d .merge)
  | taken {d : NodeId} {r : Option Atom} {as : List Atom} :
      g.Leads (.member d r as) (.resolve (g.memberAt r as))

end Graph

variable {L : Labels} {g g' : Graph} {task t : Task} {ts : List Task}

theorem leads_visit {w : WalkId} {e : Expr} {n : NodeId} (hp : g.visit w e n = (g', .ok ts))
    (ht : t ∈ ts) : g.Leads (.visit w e n) t := by
  cases follows_of_visit none hp ht with
  | part => exact .visited
  | literal | loop | empty => exact .typed rfl
  | own hnew | clone hnew => exact .typed hnew
  | made => exact .made
  | read | value | yes | no => exact .connected rfl
  | input hnew => exact .connected hnew
  | @last es _ _ hlast =>
      cases es with
      | nil => cases hlast
      | cons => exact .connected rfl
  | target => exact .assigned
  | called => exact .called
  | left => exact .entered

theorem leads_resolve (hS : Sound L g) {c : NodeId} (hl : g.Linked c)
    (hp : g.resolve c = (g', .ok ts)) (ht : t ∈ ts) : g.Leads (.resolve c) t := by
  obtain ⟨s, L', -, -, hcases⟩ := resolves_perform hS hl hp
  cases hcases with
  | waiting =>
      cases ht
  | dispatch | inst =>
      simp only [List.mem_cons, List.not_mem_nil, or_false] at ht
      rcases ht with rfl | rfl
      · exact .pointed
      · exact .aimed
  | newDispatch =>
      rcases List.mem_append.mp ht with ht | ht
      · obtain ⟨r, as, rfl, -⟩ := Graph.mem_memberTasks.mp ht
        exact .opened
      · simp only [List.mem_cons, List.not_mem_nil, or_false] at ht
        rcases ht with rfl | rfl
        · exact .pointed
        · exact .aimed
  | newInst =>
      simp only [List.mem_cons, List.not_mem_nil, or_false] at ht
      rcases ht with rfl | rfl | rfl | rfl
      · exact .began
      · exact .ended
      · exact .pointed
      · exact .aimed

/-- Only a call that is resolved to a new dispatch gives that members, for what its inputs may be. -/
theorem member_of_resolve (hS : Sound L g) {c : NodeId} (hl : g.Linked c)
    (hp : g.resolve c = (g', .ok ts)) {d : NodeId} {r : Option Atom} {as : List Atom}
    (ht : .member d r as ∈ ts) :
    ∃ s receiver args note, g.site? c = some s ∧ g.inputs? s = some (receiver, args) ∧
      (receiver.toList ++ args).any Ty.isMixed = true ∧
      g' = (g.addDispatch s receiver args).1.notice note ∧
      .member d r as ∈ Graph.memberTasks g.cells.size receiver args := by
  obtain ⟨s, L', hs, -, hcases⟩ := resolves_perform hS hl hp
  cases hcases with
  | waiting | dispatch | inst | newInst => simp at ht
  | newDispatch note hin hmixed =>
      exact ⟨s, _, _, note, hs, hin, hmixed, rfl, by simpa using ht⟩

/-- A task is left to do after another one only if that leads to it. -/
theorem leads_perform (hS : Sound L g) (hok : task.OK L g) (hp : g.perform task = (g', .ok ts))
    (ht : t ∈ ts) : g.Leads task t := by
  cases task with
  | visit w e n => exact leads_visit hp ht
  | resolve c => exact leads_resolve hS hok.1 hp ht
  | store n u =>
      obtain ⟨o, r, ho, rfl⟩ := Graph.mem_storeType hp ht
      exact .stored ho
  | widen n u =>
      rw [Graph.perform, hS.widenType_eq hok.2] at hp
      obtain ⟨o, r, ho, rfl⟩ := Graph.mem_storeType hp ht
      exact .widened ho
  | subscribe s o r =>
      simp only [Graph.perform, Graph.subscribe] at hp
      cases hp
      split at ht
      · next hs =>
          cases List.mem_singleton.mp ht
          exact .subscribed hs
      · cases ht
  | deliver s o r =>
      have he : g.EdgeOK L s o r := hok
      rw [Graph.perform, hS.react_eq he] at hp
      cases hp
      cases r with
      | merge =>
          obtain ⟨u, hu, rfl⟩ := List.mem_map.mp ht
          exact .delivered (Option.mem_toList.mp hu)
      | resolve =>
          cases List.mem_singleton.mp ht
          exact .prompted
      | other => exact he.2.2.elim
  | react s o r u =>
      obtain ⟨s', u', rfl, rfl, he, -⟩ := hok
      rw [Graph.perform, hS.react_eq he] at hp
      cases hp
      cases r with
      | merge =>
          cases List.mem_singleton.mp ht
          exact .merged
      | resolve =>
          cases List.mem_singleton.mp ht
          exact .stirred
      | other => exact he.2.2.elim
  | notify => exact hok.elim
  | bind w p n =>
      simp only [Graph.perform, Graph.bind] at hp
      split at hp <;> cases hp
      next v hv =>
        simp only [List.mem_cons, List.not_mem_nil, or_false] at ht
        rcases ht with rfl | rfl
        · exact .bound (by rw [hv])
        · exact .shown
  | aim | markNew | finish | leave =>
      cases hp
      cases ht
  | member d r as =>
      obtain ⟨x, hd, -⟩ := hok
      obtain ⟨y, hy, -⟩ := Graph.dispatch_of_blank (hS.fits hd).1 rfl
      rw [Graph.perform, Graph.addMember_eq hy] at hp
      cases hp
      simp only [List.mem_cons, List.not_mem_nil, or_false] at ht
      rcases ht with rfl | rfl
      · exact .joined
      · exact .taken

end TypeFlow
