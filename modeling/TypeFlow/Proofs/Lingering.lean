import TypeFlow.Proofs.Repeating
import TypeFlow.Proofs.Retaining
import TypeFlow.Proofs.Sessions

/-! # What a failed resolution leaves behind

An instance is kept before its body is walked over, and a dispatch before it has members, so that
calls that come back to them find them. They stay when the resolution fails later on: when the call
is resolved again it finds what was kept, and there is nothing left to fail. Only an error of the
call itself is told each time. -/

namespace TypeFlow

variable {g g' : Graph} {c z : NodeId} {t : Target}

/-- A target that there was not before. -/
def Target.IsNew (g : Graph) : Target → Prop
  | .inst i => g.instances.size ≤ i
  | .dispatch d => g.cells.size ≤ d

/-! ## What calls ask for -/

/-- What a call asks for once it has passed its checks: an instance of a method for the types of its
arguments, or the dispatch that was made for its name token and the types of all its inputs. -/
inductive Question where
  | inst (method : NodeId) (row : List (Option Ty))
  | dispatch (origin : NodeId) (row : List (Option Ty))

/-- An answer to the first question is one to the second: they are about equal types. -/
def Question.Covers (h : Heap) : Question → Question → Prop
  | .inst m row, .inst m' row' => m = m' ∧ h.sameRow row row' = true
  | .dispatch o row, .dispatch o' row' => o = o' ∧ h.sameRow row row' = true
  | _, _ => False

theorem Question.covers_self (h : Heap) (q : Question) : q.Covers h q := by
  cases q <;> exact ⟨rfl, h.sameRow_self _⟩

namespace Graph

/-- A call whose inputs have types passes its checks, and asks a question. -/
inductive Asks (g : Graph) (c : NodeId) : Question → Prop where
  | inst {s : Site} {receiver : Option Ty} {args : List Ty} {method : NodeId} {m : Method} :
      g.site? c = some s → (receiver = none → s.linked = true) →
      g.Calls s receiver args method m → g.Asks c (.inst method (args.map some))
  | dispatch {s : Site} {receiver : Option Ty} {args : List Ty} :
      g.site? c = some s → s.linked = true → g.inputs? s = some (receiver, args) →
      (receiver.toList ++ args).any Ty.isMixed = true →
      g.Asks c (.dispatch s.origin (receiver :: args.map some))

/-- An answer is kept for a question, whatever has become of it. -/
inductive Kept (g : Graph) : Question → Target → Prop where
  | inst {method : NodeId} {row : List (Option Ty)} {i : InstanceId} :
      g.Has (.mark method (.cached row i)) → i < g.instances.size →
      g.Kept (.inst method row) (.inst i)
  | dispatch {d : NodeId} {x : Dispatch} : d ∈ g.dispatches → g.dispatch? d = some x →
      g.Kept (.dispatch x.origin (x.receiver :: x.args.map some)) (.dispatch d)

/-- All instances that are kept exist. -/
def Backed (g : Graph) : Prop :=
  ∀ n key i, g.Has (.mark n (.cached key i)) → i < g.instances.size

theorem Backed.retains (hb : g.Backed) (h : Retains g g') : g'.Backed := by
  intro n key i hi
  rcases h.source hi with hlt | ⟨m, k, hi⟩
  · exact hlt
  · exact Nat.lt_of_lt_of_le (hb m k i hi) h.size

/-- An answer is kept for good, or another instance takes its place. -/
theorem Retains.kept (h : Retains g g') (hb : g.Backed) {q : Question} (hq : g.Kept q t) :
    ∃ t', g'.Kept q t' ∧ (t' = t ∨ t'.IsNew g) := by
  cases hq with
  | @inst method row i hi hlt =>
      obtain ⟨j, hj, hlast⟩ := h.cached hi
      exact ⟨.inst j, .inst hj (hb.retains h _ _ _ hj), hlast.imp_left (congrArg Target.inst)⟩
  | @dispatch d x hd hx =>
      obtain ⟨y, hy, hr⟩ := blank_of_dispatch hx
      obtain ⟨x', hx', hblank⟩ := dispatch_of_blank (h.blank hy) hr
      have hkept := Kept.dispatch (h.dispatch d hd) hx'
      have horigin : x'.blank.origin = x.blank.origin := by rw [hblank]
      have hreceiver : x'.blank.receiver = x.blank.receiver := by rw [hblank]
      have hargs : x'.blank.args = x.blank.args := by rw [hblank]
      simp only [Dispatch.blank] at horigin hreceiver hargs
      rw [horigin, hreceiver, hargs] at hkept
      exact ⟨_, hkept, .inl rfl⟩

/-- A call that asks for what there is an answer to finds one. -/
theorem Asks.recalls {q k : Question} (h : g.Asks c q) (hb : g.Backed) (hk : g.Kept k t)
    (hcovers : k.Covers g.heap q) : ∃ z t, g.Recalls c z t := by
  cases h with
  | @inst s receiver args method m hs hlinked hcalls =>
      cases hk with
      | dispatch => exact hcovers.elim
      | @inst _ row i hi hlt =>
          obtain ⟨rfl, hrow⟩ := hcovers
          obtain ⟨m', hm', hmem⟩ := has_cached.mp hi
          rw [hcalls.found] at hm'
          cases hm'
          cases hfind : Table.findBy? g.heap.sameRow (args.map some) m.instances with
          | none =>
              rw [Table.findBy?, Option.map_eq_none_iff, List.find?_eq_none] at hfind
              exact (hfind _ hmem hrow).elim
          | some j =>
              obtain ⟨key, hkey, -⟩ := Table.mem_of_findBy? hfind
              have hlt := hb _ key j (has_cached.mpr ⟨m, hcalls.found, hkey⟩)
              exact ⟨_, _, .inst hs hlinked hcalls hfind (Array.getElem?_eq_getElem hlt)⟩
  | @dispatch s receiver args hs hlinked hin hmixed =>
      cases hk with
      | inst => exact hcovers.elim
      | @dispatch d x hd hx =>
          obtain ⟨horigin, hrow⟩ := hcovers
          cases hfind : g.findDispatch? s.origin receiver args with
          | none =>
              rw [findDispatch?, List.find?_eq_none] at hfind
              have hnot := hfind d hd
              simp [hx, horigin, hrow] at hnot
          | some d' => exact ⟨_, _, .dispatch hs hlinked hin hmixed hfind⟩

/-- What a call finds is an answer to what it asks. -/
theorem Recalls.asks (h : g.Recalls c z t) :
    ∃ q k, g.Asks c q ∧ g.Kept k t ∧ k.Covers g.heap q := by
  cases h with
  | @dispatch s receiver args d hs hlinked hin hmixed hfind =>
      obtain ⟨hd, x, hx, horigin, hrow⟩ := exists_of_findDispatch hfind
      exact ⟨_, _, .dispatch hs hlinked hin hmixed, .dispatch hd hx, horigin, hrow⟩
  | @inst s receiver args method m i x hs hlinked hcalls hfind hx =>
      obtain ⟨key, hkey, hrow⟩ := Table.mem_of_findBy? hfind
      exact ⟨_, _, .inst hs hlinked hcalls, .inst (has_cached.mpr ⟨m, hcalls.found, hkey⟩)
        (Array.getElem?_eq_some_iff.mp hx).1, rfl, hrow⟩

/-! ## Resolving a call -/

theorem heap_addInstance (g : Graph) (x : Instance) : (g.addInstance x).1.heap = g.heap := by
  refine heap_eq rfl fun _ _ _ f _ => ?_
  rw [addInstance, modifyMethod, type_modify]
  · rfl
  · intro y
    cases y.role <;> rfl

theorem heap_busy (g : Graph) (n : Notice) (c : NodeId) (f : Site → Site) :
    ((g.notice n).modifySite c f).heap = g.heap :=
  heap_eq rfl fun _ _ _ _ _ => type_modifySite ..

/-- What may come of resolving a call. Its own checks fail and leave the graph as it is, or they are not
made since an input has no type yet, or the call asks a question to which an answer is kept already,
or is made and kept. No program leads to any other fault. -/
inductive Tries (g : Graph) (c : NodeId) : Step → Prop where
  | refused {s : Site} {cause : Cause} : g.site? c = some s →
      g.Tries c (g.fail (.inference (.cause cause (s.errorSite c))))
  | stuck {g' : Graph} {f : Fault} : (∀ e, f ≠ .inference e) → g.Tries c (g', .error f)
  | waiting : g.Tries c (g.next [])
  | asked {g' : Graph} {ts : List Task} {q k : Question} {t : Target} : g.Asks c q →
      g.Kept k t ∨ t.IsNew g → g'.Kept k t → k.Covers g'.heap q → g.Tries c (g', .ok ts)

/-- A call that finds an answer has asked for it. -/
theorem Recalls.tries (h : g.Recalls c z t) :
    g.Tries c (g.next [.subscribe z c .merge, .aim c t]) := by
  obtain ⟨q, k, hask, hkept, hcovers⟩ := h.asks
  exact .asked hask (.inl hkept) hkept hcovers

/-- A new instance is kept for types that are equal to those that the call asks with. -/
theorem tries_specialize {s : Site} {receiver : Option Ty} {args : List Ty} {method : NodeId}
    {m : Method} (hs : g.site? c = some s) (hknown : receiver = none → s.linked = true)
    (hcalls : g.Calls s receiver args method m) (body : Expr) (template : NodeId) :
    g.Tries c (g.specialize c s receiver args method m body template) := by
  unfold specialize
  split
  · exact .stuck nofun
  · next g₀ root hcopy =>
      dsimp only
      split
      · exact .stuck nofun
      · generalize receiver.toList.map (fun t => ("self", t)) ++ m.params.zip args = inputs
        generalize receiver.bind Ty.atom? = owner
        generalize hg₂ : (g₀.addWalkOver inputs owner).1 = g₂
        have hretains : Retains g g₂ := by
          rw [← hg₂]
          exact (retains_copyTree hcopy).trans (g₀.retains_addWalkOver inputs owner)
        obtain ⟨y, hy, hr⟩ := blank_of_method hcalls.found
        obtain ⟨m₂, hm₂, -⟩ := method_of_blank (hretains.blank hy) hr
        obtain ⟨key, hkey, hrow⟩ := Table.mem_of_findBy?
          (Table.findBy?_putBy (g₂.heap.sameRow_self (args.map some)) g₂.instances.size m₂.instances)
        refine .asked (k := .inst method key) (t := .inst g₂.instances.size)
          (.inst hs hknown hcalls) (.inr hretains.size) (.inst (has_cached.mpr ⟨{ m₂ with
            instances := m₂.instances.putBy g₂.heap.sameRow (args.map some) g₂.instances.size },
            ?_, hkey⟩) ?_) ⟨rfl, ?_⟩
        · rw [method?_modifySite]
          refine (method?_addInstance g₂ _ method).trans ?_
          rw [if_pos rfl, hm₂]
          rfl
        · exact Nat.lt_of_lt_of_eq (Nat.lt_succ_self _) (Array.size_push ..).symm
        · rw [heap_busy, heap_addInstance]
          exact hrow

/-- Resolving a call comes to one of these. -/
theorem tries_resolve (g : Graph) (c : NodeId) : g.Tries c (g.resolve c) := by
  generalize hstep : g.resolve c = step
  cases Graph.decides hstep with
  | stuck hfault => exact .stuck hfault
  | refused hs => exact .refused hs
  | waiting => exact .waiting
  | dispatch hs hlinked hin hmixed hfind =>
      exact (Recalls.dispatch hs hlinked hin hmixed hfind).tries
  | newDispatch _ hs hlinked hin hmixed =>
      exact .asked (.dispatch hs hlinked hin hmixed) (.inr (Nat.le_refl _))
        (.dispatch (List.mem_append_right _ (List.mem_singleton_self _))
          (g.dispatch?_addDispatch ..)) (Question.covers_self _ _)
  | inst hs hknown hcalls hfind hx => exact (Recalls.inst hs hknown hcalls hfind hx).tries
  | newInst hs hknown hcalls => exact tries_specialize hs hknown hcalls ..

end Graph

/-! ## Sessions -/

namespace Session

variable {s s' : Session}

/-- The sessions that any steps lead to, wherever they aim and whether they fail or not. -/
inductive Arises : Session → Prop where
  | start : Arises Session.start
  | step {s : Session} (h : Arises s) (a : SessionStep) (budget : Nat) : Arises (s.step budget a).1
  | typeOf {s s' : Session} {source : TypeSource} {t : Ty} (h : Arises s)
      (ht : s.typeOf? source = some (s', t)) : Arises s'
  | clearNotices {s : Session} (h : Arises s) : Arises s.clearNotices

theorem begin_retains (s : Session) (a : SessionStep) :
    Graph.Retains s.graph (s.begin a).1.graph := by
  cases a with
  | visit tree => exact s.graph.retains_plant tree
  | fresh tree =>
      exact (s.graph.retains_plant tree).trans
        (Graph.retains_of_cells rfl (fun _ h => h) (Nat.le_refl _))
  | recalc | addType | setType => exact .refl _

theorem Arises.backed (h : s.Arises) : s.graph.Backed := by
  induction h with
  | start =>
      intro n key i hi
      obtain ⟨m, hm, hmem⟩ := Graph.has_cached.mp hi
      obtain ⟨-, -, x, hx, -⟩ := Graph.wellKeyed_start.fits n m hm _ hmem
      exact (Array.getElem?_eq_some_iff.mp hx).1
  | @step s h a budget ih =>
      have hrun := Graph.retains_run budget (s.begin a).1.graph (s.begin a).2
      rw [← step_graph] at hrun
      exact (ih.retains (s.begin_retains a)).retains hrun
  | @typeOf s s' source t h ht ih =>
      cases source with
      | primitive name =>
          cases ht
          exact ih
      | cloneOf name =>
          obtain ⟨i, -, hi⟩ := Option.map_eq_some_iff.mp ht
          cases hi
          exact ih.retains (s.graph.retains_cloneObject i)
  | clearNotices h ih => exact ih

/-- What a failed resolution has left behind, from a session to the next one: an answer to what the
call asked for. It was kept already, or it was made and kept before anything could fail. As long as
the types that it is kept for are equal to those that the call asks with, the call finds an answer
when it is resolved again. It then does nothing but subscribe to the answer and point at it, and
returns, unless the type of the answer is news to it. -/
structure Lingers (s s' : Session) (c : NodeId) : Prop where
  kept : ∃ q k t t', s.graph.Asks c q ∧ (s.graph.Kept k t ∨ t.IsNew s.graph) ∧
    (s.graph.resolve c).1.Kept k t ∧ k.Covers (s.graph.resolve c).1.heap q ∧
    s'.graph.Kept k t' ∧ (t' = t ∨ t'.IsNew (s.graph.resolve c).1) ∧
    ∀ q', s'.graph.Asks c q' → k.Covers s'.graph.heap q' → ∃ z u, s'.graph.Recalls c z u
  again : ∀ z u, s'.graph.Recalls c z u → ∀ n,
    s'.step (n + 1) (.recalc c) = s'.run n [.subscribe z c .merge, .aim c u]
  returns : ∀ z u, s'.graph.Recalls c z u → s'.graph.Knows c z → ∀ n ≥ 5,
    (s'.step n (.recalc c)).2 = .finished ∧
      ∃ x, (s'.step n (.recalc c)).1.graph.site? c = some x ∧ x.target = some u

theorem step_of_recalls (s : Session) {u : Target} (h : s.graph.Recalls c z u) (n : Nat) :
    s.step (n + 1) (.recalc c) = s.run n [.subscribe z c .merge, .aim c u] := by
  have hresolve : s.graph.perform (.resolve c) =
      (s.graph, .ok [.subscribe z c .merge, .aim c u]) := h.resolve
  simp only [step, run, Graph.run_cons_ok n hresolve, List.append_nil]

theorem returns_of_recalls (s : Session) {u : Target} (h : s.graph.Recalls c z u)
    (hknows : s.graph.Knows c z) {n : Nat} (hn : 5 ≤ n) :
    (s.step n (.recalc c)).2 = .finished ∧
      ∃ x, (s.step n (.recalc c)).1.graph.site? c = some x ∧ x.target = some u := by
  obtain ⟨x, hrole⟩ := h.role
  have hsite : (s.graph.addObserver z c .merge).site? c = some x := by
    simp only [Graph.site?, Graph.role_addObserver, hrole]
  simp only [step, run, h.run hknows hn, true_and]
  exact ⟨_, Graph.site?_pointed hsite u, rfl⟩

/-- When the resolution of a call fails with an error of the program, either a check of the call
itself has failed, nothing has changed, and the call fails again in the same way as often as it is
resolved again; or the call had passed its checks, and the answer that it found or made lingers. -/
theorem Arises.recalc_failed (h : s.Arises) {budget : Nat} {e : InferenceError}
    (hfail : (s.step budget (.recalc c)).2 = .failed (.inference e)) :
    ((s.step budget (.recalc c)).1 = s ∧
        (∃ x cause, s.graph.site? c = some x ∧ e = .cause cause (x.errorSite c)) ∧
        ∀ n, s.step (n + 1) (.recalc c) = (s, .failed (.inference e))) ∨
      s.Lingers (s.step budget (.recalc c)).1 c := by
  have htries := s.graph.tries_resolve c
  generalize hres : s.graph.resolve c = result at htries
  have hp : s.graph.perform (.resolve c) = result := hres
  cases budget with
  | zero => cases hfail
  | succ n =>
      cases htries with
      | @refused x cause hx =>
          have hstep : ∀ n, s.step (n + 1) (.recalc c) =
              (s, .failed (.inference (.cause cause (x.errorSite c)))) := by
            intro n
            simp only [Session.step, Session.run, Graph.run_cons_error n hp, Graph.unwind]
          rw [hstep] at hfail ⊢
          cases hfail
          exact .inl ⟨rfl, ⟨x, cause, hx, rfl⟩, hstep⟩
      | @stuck g' f hne =>
          simp only [Session.step, Session.run, Graph.run_cons_error n hp, Graph.unwind,
            Graph.Outcome.failed.injEq] at hfail
          exact (hne e hfail).elim
      | waiting =>
          have hend : Graph.run n s.graph [] = (s.graph, .finished) := by cases n <;> rfl
          simp only [Session.step, Session.run, Graph.run_cons_ok n hp, List.append_nil, hend] at hfail
          cases hfail
      | @asked g₁ ts q k t hask hmade hkept hcovers =>
          have hgraph : (s.step (n + 1) (.recalc c)).1.graph = (Graph.run n g₁ (ts ++ [])).1 := by
            simp only [Session.step, Session.run, Graph.run_cons_ok n hp]
          have hbacked : g₁.Backed := by
            have hretains := s.graph.retains_resolve c
            rw [hres] at hretains
            exact h.backed.retains hretains
          have hretains : Graph.Retains g₁ (s.step (n + 1) (.recalc c)).1.graph := by
            rw [hgraph]
            exact Graph.retains_run n g₁ _
          obtain ⟨t', hkept', hlast⟩ := hretains.kept hbacked hkept
          exact .inr {
            kept := ⟨q, k, t, t', hask, hmade, by rw [hres]; exact hkept,
              by rw [hres]; exact hcovers, hkept', by rw [hres]; exact hlast,
              fun q' hask' hcovers' => hask'.recalls (hbacked.retains hretains) hkept' hcovers'⟩
            again := fun z u hrec => step_of_recalls _ hrec
            returns := fun z u hrec hknows n hn => returns_of_recalls _ hrec hknows hn }

/-- A method is called before there is one of that name. It is then defined, but its body calls a
method that there is not. -/
def premature : Session :=
  let name (text : String) : Token := ⟨text, 0⟩
  let call : Expr := .call none (name "oops") [.literal ⟨.int, .int 1, 0⟩] true
  let method : Expr := .method (name "oops") [name "x"]
    (.call (some (.place ⟨.localVar, name "x"⟩)) (name "nothing") [] true)
  ((Session.start.step 100 (.visit call)).1.step 100 (.visit method)).1

theorem arises_premature : premature.Arises := (Arises.start.step _ 100).step _ 100

/-- The error when that call is resolved again. -/
def prematureError : InferenceError :=
  .instantiating ⟨rootOf, .call, "oops", (0, 0)⟩ 46 <|
    .cause (.undefinedMethod "nothing" (some "Int") true) ⟨rootOf + 5, .call, "nothing", (0, 0)⟩

theorem run_premature :
    (premature.step 100 (.recalc rootOf)).2 = .failed (.inference prematureError) := by
  decide +kernel

theorem recalc_failed_premature :
    (premature.Arises ∧
      (premature.step 100 (.recalc rootOf)).2 = .failed (.inference prematureError)) ∧
    (((premature.step 100 (.recalc rootOf)).1 = premature ∧
        (∃ x cause, premature.graph.site? rootOf = some x ∧
          prematureError = .cause cause (x.errorSite rootOf)) ∧
        ∀ n, premature.step (n + 1) (.recalc rootOf) =
          (premature, .failed (.inference prematureError))) ∨
      premature.Lingers (premature.step 100 (.recalc rootOf)).1 rootOf) :=
  ⟨⟨arises_premature, run_premature⟩, arises_premature.recalc_failed run_premature⟩

/-- A call whose resolution has failed may return when it is resolved again. -/
theorem recalc_forgets :
    ¬ ∀ (s : Session) (budget : Nat) (c : NodeId) (e : InferenceError), s.Arises →
      (s.step budget (.recalc c)).2 = .failed (.inference e) →
      ∀ n, ((s.step budget (.recalc c)).1.step n (.recalc c)).2 ≠ .finished := by
  intro h
  have hreturns : ((premature.step 100 (.recalc rootOf)).1.step 100 (.recalc rootOf)).2 =
      .finished := by decide +kernel
  exact h premature 100 rootOf _ arises_premature run_premature 100 hreturns

end Session

end TypeFlow
