import TypeFlow.Proofs.Ending

/-! # Nothing goes wrong but the program

Whatever a run looks up is there: the types that nodes have, the methods that calls find, and all
that the waiting tasks refer to. So a run that ends has assigned types, or has found an error in the
program. -/

namespace TypeFlow

variable {L : Labels} {g : Graph}

/-! ## References that lead somewhere -/

/-- A node merges what it observes, or it is a call that was taken up and resolves itself. -/
def Graph.Hearable (g : Graph) (s o : NodeId) (r : Reaction) : Prop :=
  (s : Nat) < g.cells.size ∧ (o : Nat) < g.cells.size ∧
    (r = .merge ∧ g.role o ≠ .recorder ∨ r = .resolve ∧ g.Linked o)

/-- What a graph refers to is there. -/
structure Graph.Grounded (g : Graph) : Prop where
  typed : ∀ {n : NodeId} {t : Ty}, g.type n = some t → t.Valid g
  observed : ∀ {s o : NodeId} {r : Reaction}, (o, r) ∈ g.observers s → g.Hearable s o r
  found : ∀ {receiver : Option Ty} {name : String} {m : NodeId},
    (g.scopeOf receiver).lookup name = some m → ∃ x, g.method? m = some x ∧
      ∀ e ∈ x.instances, ∃ i, g.instances[e.2]? = some i ∧ (i.body : Nat) < g.cells.size
  klass : ∀ {name : String} {i : ObjId}, g.classes.lookup name = some i →
    ∃ o, g.objects[i]? = some o
  self : ∀ {w : WalkId} {i : ObjId}, (g.walk w).self = some i → ∃ o, g.objects[i]? = some o

/-- What a task refers to is there. -/
def Task.Grounded (g : Graph) : Task → Prop
  | .visit w _ n | .bind w _ n => (n : Nat) < g.cells.size ∧ ∃ x, g.walks[w]? = some x
  | .store n t | .widen n t => (n : Nat) < g.cells.size ∧ t.Valid g
  | .subscribe s o r | .deliver s o r => g.Hearable s o r
  | .react s o r t => ∃ s' t', s = some s' ∧ t = some t' ∧ g.Hearable s' o r ∧ t'.Valid g
  | .notify n => (n : Nat) < g.cells.size
  | .resolve c => g.Linked c
  | .aim c (.inst i) => (∃ s, g.site? c = some s) ∧ ∃ x, g.instances[i]? = some x
  | .aim c (.dispatch d) => (∃ s, g.site? c = some s) ∧ ∃ x, g.dispatch? d = some x
  | .member d r as => ∃ x, g.dispatch? d = some x ∧ as.length = x.args.length ∧
      ∀ a ∈ r.toList ++ as, (Ty.one a).Valid g
  | .markNew c => (c : Nat) < g.cells.size
  | .finish c i => (c : Nat) < g.cells.size ∧ ∃ x, g.instances[i]? = some x
  | .leave _ _ => True

/-! ## What is labelled is there -/

theorem Sound.lt_size (hS : Sound L g) {n : NodeId} (h : L n ≠ none) : (n : Nat) < g.cells.size := by
  obtain ⟨l, hl⟩ := Option.ne_none_iff_exists'.mp h
  exact hS.bound hl

theorem Sound.hearable (hS : Sound L g) {s o : NodeId} {r : Reaction} (h : g.EdgeOK L s o r) :
    g.Hearable s o r := by
  obtain ⟨hs, ho, hr⟩ := h
  obtain ⟨l, hl, -⟩ := id ho
  refine ⟨hS.lt_size hs, hS.bound hl, ?_⟩
  cases r with
  | merge => exact .inl ⟨rfl, hS.role_ne_recorder ho⟩
  | resolve => exact .inr ⟨rfl, hr.2.2⟩
  | other => exact hr.elim

theorem Sound.dispatch_of_label (hS : Sound L g) {d : NodeId} {y : Dispatch}
    (h : L d = some (.dispatch y)) : ∃ x, g.dispatch? d = some x ∧ x.blank = y :=
  Graph.dispatch_of_blank (hS.fits h).1 rfl

theorem Sound.grounded (hS : Sound L g) : g.Grounded where
  typed h := (hS.typed h).2.1
  observed h := hS.hearable (hS.edge h)
  found h := by
    obtain ⟨x, hx⟩ := hS.method_of_ok (hS.method_of_scope h)
    refine ⟨x, hx, fun e he => ?_⟩
    obtain ⟨-, i, hi, -⟩ := hS.entries (Graph.has_cached.mpr ⟨x, hx, he⟩)
    refine ⟨i, hi, ?_⟩
    rcases hS.entries (e := .inst e.2 i) hi with ⟨-, hb⟩ | ⟨w, v, r, k, n, ps, b, -, -, -, hb⟩
    · exact hS.bound hb
    · exact hS.bound hb
  klass {name i} h := by
    obtain ⟨o, ho, -⟩ := hS.entries (e := .klass name i) (Table.mem_of_lookup h)
    exact ⟨o, ho⟩
  self {w i} h := hS.entries (e := .self w i) h

theorem Sound.task_grounded (hS : Sound L g) {task : Task} (h : task.OK L g) :
    task.Grounded g := by
  cases task with
  | visit w e n =>
      obtain ⟨⟨r, k, hn⟩, hw⟩ := h
      exact ⟨hS.bound hn, hw⟩
  | bind w p n =>
      obtain ⟨⟨r, k, v, hn⟩, hw⟩ := h
      exact ⟨hS.bound hn, hw⟩
  | store n t =>
      obtain ⟨⟨w, r, k, e, hn⟩, ht⟩ := h
      exact ⟨hS.bound hn, ht⟩
  | widen n t =>
      obtain ⟨⟨l, hl, -⟩, ht⟩ := h
      exact ⟨hS.bound hl, ht⟩
  | subscribe s o r => exact hS.hearable h
  | deliver s o r => exact hS.hearable h
  | react s o r t =>
      obtain ⟨s', t', hs, ht, he, hv⟩ := h
      exact ⟨s', t', hs, ht, hS.hearable he, hv⟩
  | notify n => exact h.elim
  | resolve c => exact h.1
  | aim c t =>
      obtain ⟨hc, ht⟩ := h
      cases t with
      | inst i => exact ⟨hS.site_of_isCall hc, ht⟩
      | dispatch d =>
          obtain ⟨y, hy⟩ := ht
          obtain ⟨x, hx, -⟩ := hS.dispatch_of_label hy
          exact ⟨hS.site_of_isCall hc, x, hx⟩
  | member d r as =>
      obtain ⟨y, hy, hlen, hv⟩ := h
      obtain ⟨x, hx, rfl⟩ := hS.dispatch_of_label hy
      exact ⟨x, hx, hlen, hv⟩
  | markNew c => exact hS.lt_size h
  | finish c i => exact ⟨hS.lt_size h.1, h.2⟩
  | leave w outer => trivial

/-! ## Built-in methods -/

/-- Each signature of a built-in method has as many types as the others. -/
theorem Builtin.length_signature :
    ∀ b ∈ Builtin.all, ∀ s ∈ b.signatures, s.1.length = b.arity := by
  decide

theorem Graph.addSignature?_isSome {m : NodeId} {x : Method} {params : List (Option Ty)}
    (hm : g.method? m = some x) (hlen : params.length = x.params.length) (result : Option Ty) :
    (g.addSignature? m params result).isSome := by
  simp [addSignature?, hm, hlen]

/-! ## Programs -/

/-- At each moment of a run all references lead somewhere. A run over a program that ends has
assigned types or has found an error in the program, and no signature of a built-in method is turned
down. -/
theorem inferTypes_safe (tree : Expr) :
    (∀ done g ts, Graph.Passes (Graph.loaded tree, [.visit 0 tree rootOf]) done (g, ts) →
      g.Grounded ∧ ∀ t ∈ ts, t.Grounded g) ∧
    (∀ budget, (inferTypes budget tree).2 ≠ .exhausted → (inferTypes budget tree).2 = .finished ∨
      ∃ e, (inferTypes budget tree).2 = .failed (.inference e)) ∧
    ∀ b ∈ Builtin.all, ∀ s ∈ b.signatures, ∀ (g : Graph) m x, g.method? m = some x →
      x.params.length = b.arity →
      (g.addSignature? m (s.1.map fun t => some (.prim t)) (some (.prim s.2))).isSome := by
  refine ⟨fun done g ts hpass => ?_, fun budget hend => ?_, fun b hb s hs g m x hm hlen => ?_⟩
  · obtain ⟨L, hL⟩ := (Sound.Config.loaded tree).passes hpass
    exact ⟨hL.graph.grounded, fun t ht => hL.graph.task_grounded (hL.tasks t ht)⟩
  · cases hout : (inferTypes budget tree).2 with
    | finished => exact .inl rfl
    | exhausted => exact (hend hout).elim
    | failed f =>
        obtain ⟨e, rfl⟩ := inferTypes_failed hout
        exact .inr ⟨e, rfl⟩
  · refine Graph.addSignature?_isSome hm ?_ _
    rw [List.length_map, Builtin.length_signature b hb s hs, hlen]

/-- A variable may be an integer or a string, and only one of these has a length. -/
def misfit : Expr :=
  let name (text : String) : Token := ⟨text, 0⟩
  let x : Place := ⟨.localVar, name "x"⟩
  .block [
    .assign x (.literal ⟨.int, .int 1, 0⟩),
    .assign x (.literal ⟨.string, .none, 0⟩),
    .call (some (.place x)) (name "length") [] false]

theorem inferTypes_safe_misfit :
    (inferTypes 50 misfit).2 ≠ .exhausted ∧ (inferTypes 50 misfit).2 ≠ .finished ∧
      ∃ e, (inferTypes 50 misfit).2 = .failed (.inference e) := by
  have hend : (inferTypes 50 misfit).2 ≠ .exhausted := by decide +kernel
  have hfin : (inferTypes 50 misfit).2 ≠ .finished := by decide +kernel
  exact ⟨hend, hfin, ((inferTypes_safe misfit).2.1 50 hend).resolve_left hfin⟩

end TypeFlow
