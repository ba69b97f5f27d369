import TypeFlow.Proofs.Nesting

/-! # How errors are wrapped

An error arises in one task, and it has a cause. On its way out each walk over an instance that has
not ended wraps it once, the innermost walk first, and nothing else does. -/

namespace TypeFlow

variable {L : Labels} {g g' : Graph} {task : Task} {start : Graph.Config} {done : List Task}

/-! ## Errors within errors -/

namespace InferenceError

/-- An error wrapped once for each of several calls, the first of them outermost. -/
def wrap (xs : List (ErrorSite × InstanceId)) (e : InferenceError) : InferenceError :=
  xs.foldr (fun x e => .instantiating x.1 x.2 e) e

theorem root_wrap (xs : List (ErrorSite × InstanceId)) (e : InferenceError) :
    (wrap xs e).root = e.root := by
  induction xs with
  | nil => rfl
  | cons x xs ih => exact ih

theorem chain_wrap (xs : List (ErrorSite × InstanceId)) (e : InferenceError) :
    (wrap xs e).chain.map (fun x => (x.site, x.message)) =
      xs.map (fun x => (x.1, "instantiating '" ++ x.1.name ++ "'")) ++
        e.chain.map fun x => (x.site, x.message) := by
  induction xs with
  | nil => rfl
  | cons x xs ih => exact congrArg _ ih

end InferenceError

/-! ## Walks that are open -/

/-- A walk over the body of an instance, with the call that it is for as that is now. -/
structure OpenWalk where
  before : List Task
  call : NodeId
  site : Site
  inst : InstanceId

namespace OpenWalk

/-- What is told of a walk when an error comes out of it. -/
def step (x : OpenWalk) : ErrorSite × InstanceId := (x.site.errorSite x.call, x.inst)

end OpenWalk

namespace Graph

/-- After the tasks `done`, a walk has begun and has something left to do. -/
def InProgress (start : Config) (done : List Task) (now : Graph) (x : OpenWalk) : Prop :=
  now.site? x.call = some x.site ∧ ∃ left, left ≠ [] ∧ Walks start done x.before x.call x.inst left

theorem Grows.errorSite {c : NodeId} {s : Site} (h : Grows g g') (hs : g.site? c = some s) :
    ∃ s', g'.site? c = some s' ∧ s'.errorSite c = s.errorSite c := by
  obtain ⟨x, hx, hr⟩ := blank_of_site hs
  obtain ⟨s', hs', hblank⟩ := site_of_blank (h.blank hx) hr
  refine ⟨s', hs', ?_⟩
  have hname : s'.blank.name = s.blank.name := by rw [hblank]
  have hspan : s'.blank.span = s.blank.span := by rw [hblank]
  exact congr_arg₂ (fun (n : Token) sp => ErrorSite.mk c .call n.text sp) hname hspan

/-- The walks `ws`, innermost first, are those that end among the tasks `waiting`, which come after
the tasks `above`, and each of them wraps an error that comes out of them. -/
structure Enclosed (start : Config) (done : List Task) (now : Graph) (above waiting : List Task)
    (ws : List OpenWalk) : Prop where
  sorted : ws.Pairwise fun v w => w.before.length < v.before.length
  mem_iff : ∀ w, w ∈ ws ↔ now.site? w.call = some w.site ∧ ∃ left, above.length ≤ left.length ∧
    Walks start done w.before w.call w.inst left
  unwind : ∀ e g', Grows now g' → (g'.unwind (.inference e) waiting).2 =
    .inference (.wrap (ws.map OpenWalk.step).reverse e)

section enclosed

variable {above waiting : List Task} {t : Task} {ws : List OpenWalk} {now : Graph}

theorem enclosed_nil (hpass : Passes start done (now, above)) :
    Enclosed start done now above [] [] where
  sorted := .nil
  mem_iff w := by
    refine ⟨fun h => (List.not_mem_nil h).elim, ?_⟩
    rintro ⟨-, left, hle, hwalks⟩
    obtain ⟨below, rfl⟩ := hwalks.stack hpass
    simp only [List.length_append, List.length_cons] at hle
    omega
  unwind e g' _ := rfl

variable (hpass : Passes start done (now, above ++ t :: waiting))
include hpass

/-- A walk that has all the tasks above left to do has the next one left, too, or ends with it. -/
theorem Walks.finish_or_le {before left : List Task} {c : NodeId} {i : InstanceId}
    (h : Walks start done before c i left) (hle : above.length ≤ left.length) :
    t = .finish c i ∧ left = above ∨ (above ++ [t]).length ≤ left.length := by
  rcases Nat.eq_or_lt_of_le hle with heq | hlt
  · obtain ⟨below, hbelow⟩ := h.stack hpass
    obtain ⟨rfl, htail⟩ := List.append_inj hbelow heq
    exact .inl ⟨(List.cons.inj htail).1, rfl⟩
  · exact .inr (by simpa using hlt)

theorem Enclosed.skip (h : Enclosed start done now (above ++ [t]) waiting ws)
    (hne : ∀ c i, t ≠ .finish c i) : Enclosed start done now above (t :: waiting) ws where
  sorted := h.sorted
  mem_iff w := by
    refine (h.mem_iff w).trans (and_congr_right fun _ => exists_congr fun left => ?_)
    refine and_congr_left fun hwalks => ⟨fun hle => Nat.le_trans (by simp) hle, fun hle => ?_⟩
    exact (hwalks.finish_or_le hpass hle).resolve_left fun hfinish => hne _ _ hfinish.1
  unwind e g' hgrows := by
    cases t with
    | finish c i => exact (hne c i rfl).elim
    | leave w outer => exact h.unwind e _ (hgrows.trans (grows_modifyWalk g' w fun _ => rfl))
    | _ => exact h.unwind e g' hgrows

theorem Enclosed.finish {c : NodeId} {i : InstanceId} {before : List Task} {s : Site}
    (h : Enclosed start done now (above ++ [t]) waiting ws) (ht : t = .finish c i)
    (hwalks : Walks start done before c i above) (hs : now.site? c = some s) :
    Enclosed start done now above (t :: waiting) (⟨before, c, s, i⟩ :: ws) where
  sorted := by
    refine List.pairwise_cons.mpr ⟨fun w hw => ?_, h.sorted⟩
    obtain ⟨-, left, hle, hwalks'⟩ := (h.mem_iff w).mp hw
    exact hwalks.before_lt hwalks' (by simpa using hle) hpass
  mem_iff w := by
    rw [List.mem_cons, h.mem_iff]
    constructor
    · rintro (rfl | ⟨hsite, left, hle, hwalks'⟩)
      · exact ⟨hs, above, Nat.le_refl _, hwalks⟩
      · exact ⟨hsite, left, Nat.le_trans (by simp) hle, hwalks'⟩
    · rintro ⟨hsite, left, hle, hwalks'⟩
      rcases hwalks'.finish_or_le hpass hle with ⟨-, rfl⟩ | hle
      · obtain ⟨hbefore, hc, hi, -⟩ := hwalks'.eq_of_length hwalks rfl hpass
        left
        cases w
        simp only at hbefore hc hi hsite
        subst hbefore hc hi
        rw [hs] at hsite
        cases hsite
        rfl
      · exact .inr ⟨hsite, left, hle, hwalks'⟩
  unwind e g' hgrows := by
    subst ht
    obtain ⟨s', hs', hsite⟩ := hgrows.errorSite hs
    have hbusy := grows_modifySite g' c (f := fun s => { s with busy := false })
      (fun _ => rfl) fun _ h => h
    rw [Graph.unwind, hs']
    refine (h.unwind (.instantiating (s'.errorSite c) i e) _ (hgrows.trans hbusy)).trans ?_
    rw [hsite]
    simp [InferenceError.wrap, OpenWalk.step]

end enclosed

/-- The walks that end among the tasks that wait, innermost first, wrap an error in turn. -/
theorem Passes.exists_enclosed {now : Graph} {above waiting : List Task}
    (hpass : Passes start done (now, above ++ waiting)) (hS : Sound.Config L start)
    (hnone : ∀ c i, .finish c i ∉ start.2) :
    ∃ ws, Enclosed start done now above waiting ws := by
  induction waiting generalizing above with
  | nil => exact ⟨[], enclosed_nil (by simpa using hpass)⟩
  | cons t waiting ih =>
      have hbelow : Passes start done (now, (above ++ [t]) ++ waiting) := by simpa using hpass
      obtain ⟨ws, h⟩ := ih hbelow
      by_cases hfinish : ∃ c i, t = .finish c i
      · obtain ⟨c, i, rfl⟩ := hfinish
        obtain ⟨before, hwalks⟩ := hpass.exists_walks hS hnone rfl
        obtain ⟨s, hs⟩ := hwalks.exists_site hS hpass
        exact ⟨_, h.finish hpass rfl hwalks hs⟩
      · exact ⟨ws, h.skip hpass fun c i ht => hfinish ⟨c, i, ht⟩⟩

end Graph

/-! ## Programs that fail -/

/-- How an error came about: after the tasks `done` one more task failed, and the walks over bodies
that had begun and not ended wrapped its error in turn, the one that began first outermost. -/
structure Graph.Traced (start : Graph.Config) (e : InferenceError) (done : List Task) (g : Graph)
    (ws : List OpenWalk) (cause : Cause) (site : ErrorSite) : Prop where
  raised : ∃ task rest, Passes start done (g, task :: rest) ∧
    g.perform task = (g, .error (.inference (.cause cause site)))
  walks : ∀ w, w ∈ ws ↔ InProgress start done g w
  sorted : ws.Pairwise fun v w => v.before.length < w.before.length
  wrapped : e = .wrap (ws.map OpenWalk.step) (.cause cause site)
  chain : e.chain.map (fun x => (x.site, x.message)) = ws.map (fun w =>
    (w.site.errorSite w.call, "instantiating '" ++ w.site.name.text ++ "'")) ++
      [(site, cause.message)]
  root : e.root = .cause cause site

/-- When inference fails, the error tells of the calls whose methods were being walked over when one
task failed, and of nothing else. -/
theorem inferTypes_wraps (budget : Nat) (tree : Expr) {e : InferenceError}
    (hfail : (inferTypes budget tree).2 = .failed (.inference e)) :
    ∃ done g ws cause site,
      Graph.Traced (Graph.loaded tree, [.visit 0 tree rootOf]) e done g ws cause site := by
  rw [inferTypes_outcome] at hfail
  obtain ⟨done, g, task, rest, g', f, hpass, hp, hend⟩ := Graph.passes_of_run_failed hfail
  have hS := Sound.Config.loaded tree
  obtain ⟨L, hL⟩ := hS.passes hpass
  have hok := hL.tasks task (List.mem_cons_self ..)
  obtain ⟨rfl, cause, site, rfl, -⟩ := breaks_of_error hL.graph hok hp
  have hstack : Graph.Passes _ done (g', [task] ++ rest) := hpass
  obtain ⟨ws, hsorted, hmem, hunwind⟩ := hstack.exists_enclosed hS (by simp)
  have hwrap := hunwind (.cause cause site) g' (.refl g')
  rw [← hend, Fault.inference.injEq, ← List.map_reverse] at hwrap
  exact ⟨done, g', ws.reverse, cause, site, {
    raised := ⟨task, rest, hpass, hp⟩
    walks := fun w => by
      rw [List.mem_reverse, hmem]
      refine and_congr_right fun _ => exists_congr fun left => and_congr_left fun _ => ?_
      cases left <;> simp
    sorted := List.pairwise_reverse.mpr hsorted
    wrapped := hwrap
    chain := by
      rw [hwrap, InferenceError.chain_wrap, List.map_map]
      rfl
    root := by
      rw [hwrap, InferenceError.root_wrap]
      rfl }⟩

/-- A method calls another one, which calls a method that there is not. -/
def astray : Expr :=
  let name (text : String) : Token := ⟨text, 0⟩
  let x : Expr := .place ⟨.localVar, name "x"⟩
  .block [
    .method (name "inner") [name "x"] (.call (some x) (name "missing") [] true),
    .method (name "outer") [name "x"] (.call none (name "inner") [x] true),
    .call none (name "outer") [.literal ⟨.int, .int 1, 0⟩] true]

theorem inferTypes_wraps_astray :
    let call (n : NodeId) (name : String) : ErrorSite := ⟨n, .call, name, (0, 0)⟩
    let e : InferenceError := .instantiating (call (rootOf + 7) "outer") 46 <|
      .instantiating (call (rootOf + 9) "inner") 47 <|
        .cause (.undefinedMethod "missing" (some "Int") true) (call (rootOf + 12) "missing")
    (inferTypes 100 astray).2 = .failed (.inference e) ∧ ∃ done g ws cause site,
      Graph.Traced (Graph.loaded astray, [.visit 0 astray rootOf]) e done g ws cause site := by
  intro call e
  have hfail : (inferTypes 100 astray).2 = .failed (.inference e) := by decide +kernel
  exact ⟨hfail, inferTypes_wraps 100 astray hfail⟩

end TypeFlow
