import TypeFlow.Proofs.Completing

/-! # The order of statements

The types that a run finds are those that can be derived, and an error is raised exactly if one can
be derived. The rules do not speak of the order of statements, so two programs that define the same
and do the same in another order both fail, or both get the same types. -/

namespace TypeFlow

variable {P Q : Program} {L L' : Labels} {g g' : Graph}

/-! ## What a tree has for types -/

/-- The names of the members of the type that a cell has, if it has one. -/
def Graph.tagType (g : Graph) (n : NodeId) : Option (Finset Tag) := (g.type n).map g.heap.tags

/-- A walk over a tree comes to a node at some distance from its root, and the rules give the type
to that node. -/
def Program.Expects (P : Program) (f : Frame) (e : Expr) (d : Nat) (t : Tag) : Prop :=
  ∃ q ∈ e.stops none 0, q.node = d ∧ P.Derives (.type f q.expr t)

theorem Program.Expects.of_perm (hdefs : P.defs = Q.defs) (hstmts : P.stmts.Perm Q.stmts)
    {f : Frame} {e : Expr} {d : Nat} {t : Tag} (h : P.Expects f e d t) : Q.Expects f e d t := by
  obtain ⟨q, hq, hd, ht⟩ := h
  exact ⟨q, hq, hd, ht.of_perm hdefs hstmts⟩

namespace Completed

section one

variable (h : Completed P L g)
include h

/-- The nodes of a tree have the types that the rules give them, those that no walk comes to have
none. -/
theorem mem_tagsAt_iff {n : Nat} {w : WalkId} {r : NodeId} {e : Expr} {f : Frame}
    (hn : L n = some (.node w r none e)) (hf : g.Framed w f) {d : Nat} (hd : d < e.size) {t : Tag} :
    t ∈ g.tagsAt (n + d : Nat) ↔ P.Expects f e d t := by
  have hS : Sound L g := h.attended.underway.sound.graph
  -- The stops of the tree are those of the same tree at the address of its root.
  have hmoved : P.Expects f e d t ↔
      ∃ q ∈ e.stops none n, q.node = n + d ∧ P.Derives (.type f q.expr t) := by
    constructor
    · rintro ⟨q, hq, hnode, ht⟩
      obtain ⟨m, hm, hmem⟩ := Expr.mem_stops_shift hq n
      exact ⟨_, hmem, by simp only; omega, ht⟩
    · rintro ⟨q, hq, hnode, ht⟩
      obtain ⟨m, hm, hmem⟩ := Expr.mem_stops_shift hq 0
      exact ⟨_, hmem, by simp only; omega, ht⟩
  rw [hmoved]
  by_cases hstop : ∃ q ∈ e.stops none n, q.node = n + d
  · obtain ⟨q, hq, hnode⟩ := hstop
    rw [← hnode, h.tagsAt_iff (hS.stop hn hq) hf]
    constructor
    · exact fun ht => ⟨q, hq, rfl, ht⟩
    · rintro ⟨s, hs, heq, ht⟩
      rwa [Expr.stop_unique hq hs heq.symm]
  · have hnone := (h.attended.outlined hn).2 (n + d) (Nat.le_add_right ..) (by omega)
      fun q hq heq => hstop ⟨q, hq, heq⟩
    constructor
    · intro ht
      obtain ⟨T, hT, -⟩ := Graph.mem_tagsAt.mp ht
      exact ((hS.typed hT).1 hnone).elim
    · rintro ⟨q, hq, heq, -⟩
      exact (hstop ⟨q, hq, heq⟩).elim

/-- The walk over the program comes to each of its parts. -/
theorem label_of_line {i : Nat} {x : Expr} (hx : (i, x) ∈ P.lines) :
    L i = some (.node 0 rootOf none x) :=
  h.attended.underway.sound.graph.stop (q := ⟨i, none, x⟩) h.attended.underway.root
    (P.mem_stops.mpr (.inr ⟨_, hx, Expr.mem_stops_self ..⟩))

/-- Methods that have instances are built-in ones and those that the program defines. -/
theorem code_of_cached {m : NodeId} {key : List (Option Ty)} {i : InstanceId}
    (hkey : g.Has (.mark m (.cached key i))) : (m : Nat) < rootOf ∨ ∃ ps b, P.Code m ps b := by
  have hU := h.attended.underway
  rcases (hU.sound.graph.entries hkey).1 with ⟨w, r, k, nm, ps, b, hm⟩ | ⟨hm, -⟩
  · exact .inr ⟨_, _, Homed.code hU.homed hm⟩
  · exact .inl ((hU.stocked.label m).mp hm)

end one

/-! ## Two runs -/

section two

variable (h : Completed P L g) (h' : Completed Q L' g')
include h h'

theorem tagType_eq {n n' : NodeId} (hiff : ∀ t, t ∈ g.tagsAt n ↔ t ∈ g'.tagsAt n') :
    g.tagType n = g'.tagType n' :=
  Heap.map_tags_eq
    (fun _ hT => (h.attended.underway.tame.graph.typed hT).tags_nonempty)
    (fun _ hT => (h'.attended.underway.tame.graph.typed hT).tags_nonempty) (Finset.ext hiff)

variable (hdefs : P.defs = Q.defs) (hstmts : P.stmts.Perm Q.stmts)
include hdefs hstmts

/-- A tree that both runs walk over in the same frame has the same types in both. -/
theorem tagType_add_eq {n n' : Nat} {w w' : WalkId} {r r' : NodeId} {e : Expr} {f : Frame}
    (hn : L n = some (.node w r none e)) (hf : g.Framed w f)
    (hn' : L' n' = some (.node w' r' none e)) (hf' : g'.Framed w' f) {d : Nat} (hd : d < e.size) :
    g.tagType (n + d : Nat) = g'.tagType (n' + d : Nat) := by
  refine h.tagType_eq h' fun t => ?_
  rw [h.mem_tagsAt_iff hn hf hd, h'.mem_tagsAt_iff hn' hf' hd]
  exact ⟨.of_perm hdefs hstmts, .of_perm hdefs.symm hstmts.symm⟩

/-- What a method has an instance for in one run it has one for in the other. -/
theorem cached_of_perm {m : NodeId} {key : List (Option Ty)} {i : InstanceId}
    (hkey : g.Has (.mark m (.cached key i))) :
    ∃ key' j, g'.Has (.mark m (.cached key' j)) ∧ g'.heap.tagRow key' = g.heap.tagRow key := by
  rcases h.code_of_cached hkey with hlt | ⟨ps, b, hcode⟩
  · have hstart := h.attended.underway.stocked.cached hlt hkey
    exact ⟨key, i, h'.attended.underway.stocked.lasts _ rfl hstart, tagRow_of_start hstart ..⟩
  · obtain ⟨y, w, as, -, rfl, rfl, hopens⟩ := h.opens_of_cached hkey hcode
    cases hopens.reached.of_perm hdefs hstmts with
    | inst hasked hfind _ _ =>
        obtain ⟨y', hy'⟩ := h'.present hasked
        obtain ⟨j, -, -, hkey', hrow'⟩ := h'.params_of_keeps hy' hfind
        rw [← Heap.tagRow_concrete g.heap, ← hopens.params] at hrow'
        exact ⟨_, j, hkey', hrow'⟩

end two

end Completed

/-! ## The same types -/

/-- The types, by name, that a method has instances for. -/
def Graph.rowsOf (g : Graph) (m : NodeId) : List (List (Option (Finset Tag))) :=
  (g.instancesOf m).map fun e => g.heap.tagRow e.1

/-- Two programs with the same definitions have the same types in two graphs. -/
structure Program.SameTypes (P Q : Program) (g g' : Graph) : Prop where
  /-- All nodes of a part of both programs have the same types. -/
  lines : ∀ {i j : Nat} {x : Expr}, (i, x) ∈ P.lines → (j, x) ∈ Q.lines → ∀ d < x.size,
    g.tagType (i + d : Nat) = g'.tagType (j + d : Nat)
  /-- Each method has instances for the same types. -/
  rows : ∀ m row, row ∈ g.rowsOf m ↔ row ∈ g'.rowsOf m
  /-- Instances of a method for the same types have the same types in their bodies. -/
  bodies : ∀ {m : NodeId} {e e' : List (Option Ty) × InstanceId}, e ∈ g.instancesOf m →
    e' ∈ g'.instancesOf m → g.heap.tagRow e.1 = g'.heap.tagRow e'.1 →
    ∃ y y', g.instances[e.2]? = some y ∧ g'.instances[e'.2]? = some y' ∧
      g.tagType y.body = g'.tagType y'.body ∧ ∀ ps b, P.Code m ps b → ∀ d < b.size,
        g.tagType ((y.body : Nat) + d : Nat) = g'.tagType ((y'.body : Nat) + d : Nat)

namespace Completed

variable (h : Completed P L g) (h' : Completed Q L' g') (hdefs : P.defs = Q.defs)
  (hstmts : P.stmts.Perm Q.stmts)
include h h' hdefs hstmts

theorem rowsOf_subset (m : NodeId) : g.rowsOf m ⊆ g'.rowsOf m := by
  intro row hrow
  obtain ⟨e, he, rfl⟩ := List.mem_map.mp hrow
  obtain ⟨key, j, hkey, hrow⟩ :=
    h.cached_of_perm h' hdefs hstmts (Graph.mem_instancesOf.mp he)
  exact List.mem_map.mpr ⟨(key, j), Graph.mem_instancesOf.mpr hkey, hrow⟩

/-- Instances of a method for the same types have the same types in their bodies. -/
theorem tagType_bodies {m : NodeId} {key key' : List (Option Ty)} {i i' : InstanceId}
    (hkey : g.Has (.mark m (.cached key i))) (hkey' : g'.Has (.mark m (.cached key' i')))
    (hrow : g.heap.tagRow key = g'.heap.tagRow key') :
    ∃ y y', g.instances[i]? = some y ∧ g'.instances[i']? = some y' ∧
      g.tagType y.body = g'.tagType y'.body ∧ ∀ ps b, P.Code m ps b → ∀ d < b.size,
        g.tagType ((y.body : Nat) + d : Nat) = g'.tagType ((y'.body : Nat) + d : Nat) := by
  have hU := h.attended.underway
  have hU' := h'.attended.underway
  rcases h.code_of_cached hkey with hlt | ⟨ps, b, hcode⟩
  · have hstart := hU.stocked.cached hlt hkey
    have hstart' := hU'.stocked.cached hlt hkey'
    obtain rfl := unique_row_of_start hstart hstart' hrow
    obtain ⟨-, y, hy, -⟩ := Sound.start.entries hstart
    obtain ⟨-, T, hT⟩ := builtin_of_start hy
    refine ⟨y, y, hU.stocked.grows.inst hy, hU'.stocked.grows.inst hy, ?_, fun ps b hcode => ?_⟩
    · have hvalid := (Sound.start.typed hT).2.1
      rw [Graph.tagType, Graph.tagType, hU.stocked.type_of_start hT, hU'.stocked.type_of_start hT,
        Option.map_some, Option.map_some, hU.stocked.grows.tags_eq hvalid,
        hU'.stocked.grows.tags_eq hvalid]
    · obtain ⟨k, nm, ps', hlabel, -⟩ := hU.label_of_code hcode
      rw [(hU.stocked.label m).mpr hlt] at hlabel
      cases hlabel
  · have hcode' := (Program.code_iff hdefs).mp hcode
    obtain ⟨y, w, as, hy, hmethod, rfl, hopens⟩ := h.opens_of_cached hkey hcode
    obtain ⟨y', w', as', hy', hmethod', rfl, hopens'⟩ := h'.opens_of_cached hkey' hcode'
    have hframe := hopens.frame
    have hframe' := hopens'.frame
    rw [hopens.params, hopens'.params, Heap.tagRow_concrete, Heap.tagRow_concrete] at hrow
    have has := singletons_injective.list_map hrow
    have howner : y.owner.map g.heap.tag = y'.owner.map g'.heap.tag := by
      cases hopens.reached with
      | inst _ hfind _ _ =>
          cases hopens'.reached with
          | inst _ hfind' _ _ =>
              rw [← Program.tables_eq hdefs, hmethod', ← hmethod] at hfind'
              exact P.filed.unique hfind hfind'
    rw [hmethod, howner, has] at hframe
    rw [hmethod'] at hframe'
    have hsame := fun d hd =>
      h.tagType_add_eq h' hdefs hstmts hopens.body hframe hopens'.body hframe' (d := d) hd
    refine ⟨y, y', hy, hy', hsame 0 b.size_pos, fun ps' b' hb' d hd => ?_⟩
    obtain ⟨-, rfl⟩ := hcode.unique hb'
    exact hsame d hd

theorem sameTypes : P.SameTypes Q g g' where
  lines hi hj _ hd := h.tagType_add_eq h' hdefs hstmts (h.label_of_line hi) .main
    (h'.label_of_line hj) .main hd
  rows m _ := ⟨fun hrow => h.rowsOf_subset h' hdefs hstmts m hrow,
    fun hrow => h'.rowsOf_subset h hdefs.symm hstmts.symm m hrow⟩
  bodies he he' hrow := h.tagType_bodies h' hdefs hstmts (Graph.mem_instancesOf.mp he)
    (Graph.mem_instancesOf.mp he') hrow

end Completed

/-! ## Programs -/

/-- Inference of a program ends with an error if one can be derived, and otherwise with all types
that can be derived. -/
theorem Program.exists_outcome (P : Program) : ∃ budget, ∀ n ≥ budget,
    (P.Fails ∧ ∃ e, (inferTypes n P.tree).2 = .failed (.inference e)) ∨
      (¬ P.Fails ∧ (inferTypes n P.tree).2 = .finished ∧
        ∃ L, Completed P L (inferTypes n P.tree).1.graph) := by
  obtain ⟨budget, hend⟩ := Graph.exists_run_ended
    (fun L c => Sound.Config L c ∧ Tame.Config P.tree.classNames L c)
    (measure P.tree.classNames) wellFounded_below
    (fun L g task rest g' tasks hinv hp => ⟨L.performed g task,
      ⟨(hinv.1.step hp).2, hinv.2.step hinv.1 hp⟩, below_step hinv.1 hinv.2 hp⟩)
    (Labels.loaded P.tree) (Graph.loaded P.tree) [.visit 0 P.tree rootOf]
    ⟨.loaded P.tree, .loaded P.fieldFree.within⟩
  refine ⟨budget, fun n hn => ?_⟩
  have hrun := Graph.run_of_le hend hn
  cases hout : (inferTypes n P.tree).2 with
  | exhausted =>
      rw [inferTypes_outcome, hrun] at hout
      exact (hend hout).elim
  | finished =>
      right
      have hout' := hout
      rw [inferTypes_outcome] at hout'
      obtain ⟨done, hpass⟩ := Graph.passes_of_run_finished hout'
      rw [← inferTypes_graph] at hpass
      obtain ⟨L, hL⟩ := completed_of_passes hpass
      exact ⟨hL.not_fails, rfl, L, hL⟩
  | failed f =>
      left
      obtain ⟨e, rfl⟩ := inferTypes_failed hout
      rw [inferTypes_outcome] at hout
      obtain ⟨done, g, task, rest, g', f, hpass, hfail, -⟩ := Graph.passes_of_run_failed hout
      obtain ⟨L, hcourse⟩ := hpass.course (Labels.loaded P.tree)
      obtain ⟨hU, hW⟩ := hcourse.warranted
      exact ⟨hW.fails hU hfail, e, rfl⟩

/-- Programs that define the same and do the same in another order are inferred alike: both with an
error, or both with the same types. -/
theorem inferTypes_perm (P Q : Program) (hdefs : P.defs = Q.defs) (hstmts : P.stmts.Perm Q.stmts) :
    ∃ budget, ∀ n ≥ budget,
      ((∃ e, (inferTypes n P.tree).2 = .failed (.inference e)) ∧
        ∃ e, (inferTypes n Q.tree).2 = .failed (.inference e)) ∨
      ((inferTypes n P.tree).2 = .finished ∧ (inferTypes n Q.tree).2 = .finished ∧
        P.SameTypes Q (inferTypes n P.tree).1.graph (inferTypes n Q.tree).1.graph) := by
  obtain ⟨b, hb⟩ := P.exists_outcome
  obtain ⟨b', hb'⟩ := Q.exists_outcome
  refine ⟨max b b', fun n hn => ?_⟩
  rcases hb n (le_of_max_le_left hn) with ⟨hfails, hout⟩ | ⟨hfails, hout, L, hL⟩
  · rcases hb' n (le_of_max_le_right hn) with ⟨-, hout'⟩ | ⟨hfails', -, -⟩
    · exact .inl ⟨hout, hout'⟩
    · exact (hfails' (hfails.of_perm hdefs hstmts)).elim
  · rcases hb' n (le_of_max_le_right hn) with ⟨hfails', -⟩ | ⟨-, hout', L', hL'⟩
    · exact (hfails (hfails'.of_perm hdefs.symm hstmts.symm)).elim
    · exact .inr ⟨hout, hout', hL.sameTypes hL' hdefs hstmts⟩

/-- A variable is given to a method before it is assigned values of two types. -/
def early : Program where
  defs := [.method ⟨"same", 0⟩ [⟨"v", 0⟩] (.block [.place ⟨.localVar, ⟨"v", 0⟩⟩])]
  stmts := [
    .assign ⟨.localVar, ⟨"y", 0⟩⟩ (.call none ⟨"same", 0⟩ [.place ⟨.localVar, ⟨"x", 0⟩⟩] true),
    .assign ⟨.localVar, ⟨"x", 0⟩⟩ (.literal ⟨.int, .int 1, 0⟩),
    .assign ⟨.localVar, ⟨"x", 0⟩⟩ (.literal ⟨.float, .none, 0⟩)]
  definitional := List.forall_mem_singleton.mpr (.method (by decide))
  plain := by decide

/-- The same after the assignments, in the other order. -/
def late : Program where
  defs := early.defs
  stmts := early.stmts.reverse
  definitional := early.definitional
  plain e he := early.plain e (List.mem_reverse.mp he)

theorem inferTypes_perm_early :
    (early.defs = late.defs ∧ early.stmts.Perm late.stmts) ∧ ∃ budget, ∀ n ≥ budget,
      ((∃ e, (inferTypes n early.tree).2 = .failed (.inference e)) ∧
        ∃ e, (inferTypes n late.tree).2 = .failed (.inference e)) ∨
      ((inferTypes n early.tree).2 = .finished ∧ (inferTypes n late.tree).2 = .finished ∧
        early.SameTypes late (inferTypes n early.tree).1.graph (inferTypes n late.tree).1.graph) :=
  have hstmts : early.stmts.Perm late.stmts := early.stmts.reverse_perm.symm
  ⟨⟨rfl, hstmts⟩, inferTypes_perm early late rfl hstmts⟩

end TypeFlow
