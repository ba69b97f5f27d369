import TypeFlow.Proofs.Sparing

/-! # Instances are isolated

Whatever becomes of a program, the bodies of its methods stay as they were planted, and each
instance of a method has a body of its own, a copy of that of the method. -/

namespace TypeFlow

namespace Graph

variable {g g' : Graph}

/-- The cells of the body of a method are as they were planted. -/
theorem Tidy.template_cell (h : g.Tidy) {m : NodeId} {b : Expr} {t : NodeId}
    (hm : g.HasTemplate m b t) {x : Nat × Expr} (hx : x ∈ b.nodes t) :
    g.cells[x.1]? = some (planted x) := by
  have hblank := (h.laid m b t hm).2 x hx
  cases hc : g.cells[x.1]? with
  | none => simp [blank, hc] at hblank
  | some c =>
      have hnone : ∀ k, ¬ c.Has k := fun k hk => h.not_has hm hx k ((has_mark hc).mpr hk)
      rw [Cell.eq_blank_of_forall_not_has hnone]
      simpa [blank, hc] using hblank

/-- Trees at two addresses have no node in common. -/
def Apart (i : NodeId) (e : Expr) (j : NodeId) (f : Expr) : Prop :=
  ∀ x ∈ e.nodes i, ∀ y ∈ f.nodes j, x.1 ≠ y.1

theorem Apart.symm {i j : NodeId} {e f : Expr} (h : Apart i e j f) : Apart j f i e :=
  fun x hx y hy heq => h y hy x hx heq.symm

theorem apart_of_le {i j : Nat} {e f : Expr} (h : i + e.size ≤ j) : Apart i e j f := by
  intro x hx y hy heq
  have hxr := Expr.node_range hx
  have hyr := Expr.node_range hy
  have hpos := x.2.size_pos
  omega

/-- Every instance of a method with a body has a copy of the body that lies behind the method, and
behind the copies of all instances that were made before. -/
structure Isolated (g : Graph) : Prop where
  known : ∀ (i : InstanceId) x, g.instances[i]? = some x → (x.method : Nat) < g.cells.size
  stands : ∀ (i : InstanceId) x b t, g.instances[i]? = some x → g.HasTemplate x.method b t →
    (x.method : Nat) < x.body ∧ g.Stands x.body b
  apart : ∀ (i j : InstanceId) x y b c t u, i < j → g.instances[i]? = some x →
    g.instances[j]? = some y → g.HasTemplate x.method b t → g.HasTemplate y.method c u →
    (x.body : Nat) + b.size ≤ y.body

theorem instances_plant (g : Graph) (e : Expr) : (g.plant e).1.instances = g.instances := rfl

namespace Isolated

theorem adds (h : g.Isolated) (ha : Adds g g') : g'.Isolated where
  known i x hx := by
    rw [ha.inst] at hx
    exact Nat.lt_of_lt_of_le (h.known i x hx) ha.grows.size_le
  stands i x b t hx hm := by
    rw [ha.inst] at hx
    obtain ⟨hlt, hstands⟩ := h.stands i x b t hx (ha.keepsTemplates _ _ _ hm)
    exact ⟨hlt, hstands.grow ha.grows⟩
  apart i j x y b c t u hij hx hy hm hn := by
    rw [ha.inst] at hx hy
    exact h.apart i j x y b c t u hij hx hy (ha.keepsTemplates _ _ _ hm)
      (ha.keepsTemplates _ _ _ hn)

theorem gains (h : g.Isolated) (hl : g.Laid) {x : Instance} {m : Method} {b : Expr} {t : NodeId}
    (hx : Gains g x m b t g') : g'.Isolated := by
  have hg := hx.grows_of
  have htemplate : ∀ {n : Nat} {c u}, n < g.cells.size → g'.HasTemplate n c u →
      g.HasTemplate n c u := fun hn hc => hg.template_of_lt hc hn
  have hold : ∀ {i : Nat} {y : Instance}, g'.instances[i]? = some y →
      i < g.instances.size ∧ g.instances[i]? = some y ∨ i = g.instances.size ∧ y = x := by
    intro i y hy
    rw [hx.inst, Array.getElem?_push] at hy
    split at hy
    · next heq => exact .inr ⟨heq, (Option.some.inj hy).symm⟩
    · exact .inl ⟨(Array.getElem?_eq_some_iff.mp hy).1, hy⟩
  have hfound : (x.method : Nat) < g.cells.size := by
    obtain ⟨c, hc, -⟩ := method?_eq_some_iff.mp hx.found
    exact (Array.getElem?_eq_some_iff.mp hc).1
  -- All copies that were made before end where the new one begins.
  have hend : ∀ {i : Nat} {y : Instance} {c u}, g.instances[i]? = some y →
      g'.HasTemplate y.method c u → (y.body : Nat) + c.size ≤ x.body := by
    intro i y c u hy hc
    rw [hx.body]
    exact (h.stands i y c u hy (htemplate (h.known i y hy) hc)).2.carries.end_le
  refine ⟨fun i y hy => ?_, fun i y c u hy hc => ?_, fun i j y z c d u v hij hy hz hc hd => ?_⟩
  · rcases hold hy with ⟨-, hy⟩ | ⟨-, rfl⟩
    · exact Nat.lt_of_lt_of_le (h.known i y hy) hg.size_le
    · exact Nat.lt_of_lt_of_le hfound hg.size_le
  · rcases hold hy with ⟨-, hy⟩ | ⟨-, rfl⟩
    · obtain ⟨hlt, hstands⟩ := h.stands i y c u hy (htemplate (h.known i y hy) hc)
      exact ⟨hlt, hstands.grow hg⟩
    · obtain ⟨m', hm', hsource⟩ := htemplate hfound hc
      rw [hx.found] at hm'
      cases hm'
      rw [hx.source] at hsource
      cases hsource
      rw [hx.body]
      exact ⟨hfound, (stands_plant hl b).grow hx.grows⟩
  · rcases hold hy with ⟨-, hy⟩ | ⟨rfl, rfl⟩
    · rcases hold hz with ⟨-, hz⟩ | ⟨-, rfl⟩
      · exact h.apart i j y z c d u v hij hy hz (htemplate (h.known i y hy) hc)
          (htemplate (h.known j z hz) hd)
      · exact hend hy hc
    · rcases hold hz with ⟨hlt, -⟩ | ⟨rfl, -⟩
      · exact absurd hij (Nat.lt_asymm hlt)
      · exact absurd hij (Nat.lt_irrefl _)

theorem changes (h : g.Isolated) (hl : g.Laid) (hc : Changes g g') : g'.Isolated := by
  rcases hc with ha | ⟨x, m, b, t, hx⟩
  · exact h.adds ha
  · exact h.gains hl hx

/-- All instances that are there before a program is walked over are of built-in methods. -/
theorem loaded (tree : Expr) : (Graph.loaded tree).Isolated := by
  have hg : Grows Session.start.graph (Graph.loaded tree) := grows_plant _ tree
  have hknown : ∀ {i : Nat} {x : Instance}, (Graph.loaded tree).instances[i]? = some x →
      (x.method : Nat) < Session.start.graph.cells.size := by
    intro i x hx
    rw [Graph.loaded, instances_plant] at hx
    exact (builtin_of_start hx).1
  have hnone : ∀ {i : Nat} {x : Instance} {b t}, (Graph.loaded tree).instances[i]? = some x →
      ¬ (Graph.loaded tree).HasTemplate x.method b t := fun hx hm =>
    not_hasTemplate_start _ _ _ (hg.template_of_lt hm (hknown hx))
  exact ⟨fun i x hx => Nat.lt_of_lt_of_le (hknown hx) hg.size_le,
    fun i x b t hx hm => (hnone hx hm).elim, fun i j x y b c t u _ hx _ hm => (hnone hx hm).elim⟩

end Isolated

end Graph

/-! ## Programs -/

open TypeFlow.Graph in
theorem isolated_inferTypes (budget : Nat) (tree : Expr) :
    (inferTypes budget tree).1.graph.Tidy ∧ (inferTypes budget tree).1.graph.Isolated := by
  rw [inferTypes_graph]
  have h := Tidy.Config.loaded tree
  exact ⟨h.run budget, h.run_preserves (.loaded tree) (fun _ _ ht hg hc => hg.changes ht.laid hc)
    budget⟩

namespace Graph

/-- Nothing has happened to a cell since it was planted: it has no type and no observers, and a
call in it was not linked and has no target. -/
structure IsUntouched (g : Graph) (x : Nat × Expr) : Prop where
  cell : g.cells[x.1]? = some (planted x)
  type : g.type x.1 = none
  observers : g.observers x.1 = []
  call : ∀ s, g.site? x.1 = some s → s.linked = false ∧ s.target = none

/-- A copy of a tree has each node of the tree, in the order of the tree, in a cell made for it. The
calls in it are known by tokens of their own. -/
structure IsCopy (g : Graph) (root : NodeId) (b : Expr) : Prop where
  carries : g.Carries root b
  tokens : ∀ y ∈ b.nodes root, ∀ s, g.site? y.1 = some s → s.origin = y.1

variable {g : Graph}

theorem isUntouched_of_cell {x : Nat × Expr} (h : g.cells[x.1]? = some (planted x)) :
    g.IsUntouched x := by
  refine ⟨h, by simp [Graph.type, h, planted], by simp [Graph.observers, h, planted], fun s hs => ?_⟩
  obtain ⟨_, e⟩ := x
  cases e <;> simp [site?, role, h, planted, freshRole] at hs
  subst hs
  exact ⟨rfl, rfl⟩

theorem isCopy_of_carries {root : NodeId} {b : Expr} (h : g.Carries root b) : g.IsCopy root b := by
  refine ⟨h, fun y hy s hs => ?_⟩
  obtain ⟨c, hc, hr⟩ := blank_of_site hs
  rw [h y hy] at hc
  cases hc
  obtain ⟨n, e⟩ := y
  cases e <;> simp only [planted, freshRole, reduceCtorEq, Role.call.injEq] at hr
  exact (congrArg Site.origin hr).symm

end Graph

/-- Whatever a walk over a program has done, the bodies of methods wait as they were planted, those
of methods in copies of bodies as well. Each instance of a method with a body has a copy of it. The
copies of two instances have no node in common, nor do a copy and the body of a method, unless the
method itself stands in the copy; so each copy is apart from the body that it is a copy of. -/
theorem inferTypes_isolates (budget : Nat) (tree : Expr) :
    let g := (inferTypes budget tree).1.graph
    (∀ m b t, g.HasTemplate m b t → ∀ x ∈ b.nodes t, g.IsUntouched x) ∧
    ∀ (i : InstanceId) x b t, g.instances[i]? = some x → g.HasTemplate x.method b t →
      g.IsCopy x.body b ∧ Graph.Apart x.body b t b ∧
      (∀ (j : InstanceId) y c u, j ≠ i → g.instances[j]? = some y → g.HasTemplate y.method c u →
        Graph.Apart x.body b y.body c) ∧
      ∀ m c u, g.HasTemplate m c u → Graph.Apart x.body b u c ∨
        ∃ nm ps, (m, .method nm ps c) ∈ b.nodes x.body := by
  intro g
  obtain ⟨htidy, hiso⟩ : g.Tidy ∧ g.Isolated := isolated_inferTypes budget tree
  refine ⟨fun m b t hm x hx => Graph.isUntouched_of_cell (htidy.template_cell hm hx),
    fun i x b t hx hm => ?_⟩
  obtain ⟨hlt, hstands⟩ := hiso.stands i x b t hx hm
  refine ⟨Graph.isCopy_of_carries hstands.carries, ?_, fun j y c u hne hy hc => ?_,
    fun m c u hc => ?_⟩
  · exact (Graph.apart_of_le (hstands.before x.method b t hm hlt)).symm
  · rcases Nat.lt_or_gt_of_ne hne with hji | hij
    · exact (Graph.apart_of_le (hiso.apart j i y x c b u t hji hy hx hc hm)).symm
    · exact Graph.apart_of_le (hiso.apart i j x y b c t u hij hx hy hm hc)
  · rcases hstands.apart htidy.laid hc with hbefore | hbehind | hnode
    · exact .inl (Graph.apart_of_le hbefore).symm
    · exact .inl (Graph.apart_of_le (Nat.le_of_lt hbehind))
    · exact .inr hnode

/-- A method that defines another one is called with an integer and with a character. -/
def nested : Expr :=
  let name (text : String) : Token := ⟨text, 0⟩
  .block [
    .method (name "outer") [name "x"]
      (.block [.method (name "inner") [] (.place ⟨.localVar, name "x"⟩)]),
    .call none (name "outer") [.literal ⟨.int, .int 1, 0⟩] true,
    .call none (name "outer") [.literal ⟨.char, .text "c", 0⟩] true]

/-- The two instances of the method have copies of its body that are apart. -/
theorem inferTypes_isolates_nested :
    let g := (inferTypes 100 nested).1.graph
    ∃ x y b t, g.instances[46]? = some x ∧ g.instances[47]? = some y ∧
      g.HasTemplate x.method b t ∧ g.HasTemplate y.method b t ∧ (∀ z ∈ b.nodes t, g.IsUntouched z) ∧
      g.IsCopy x.body b ∧ g.IsCopy y.body b ∧ Graph.Apart x.body b y.body b := by
  intro g
  obtain ⟨huntouched, hcopies⟩ := inferTypes_isolates 100 nested
  have hinst : (g.instances[46]?.map (·.method) = some (rootOf + 1) ∧
      g.instances[47]?.map (·.method) = some (rootOf + 1)) ∧
      ((g.method? (rootOf + 1)).bind fun m => m.source.body?).isSome = true := by decide +kernel
  obtain ⟨⟨hx, hy⟩, hbody⟩ := hinst
  obtain ⟨x, hx, hxm⟩ := Option.map_eq_some_iff.mp hx
  obtain ⟨y, hy, hym⟩ := Option.map_eq_some_iff.mp hy
  obtain ⟨⟨b, t⟩, hbody⟩ := Option.isSome_iff_exists.mp hbody
  have htemplate : g.HasTemplate (rootOf + 1) b t := Graph.hasTemplate_iff_body.mpr hbody
  have htx : g.HasTemplate x.method b t := hxm ▸ htemplate
  have hty : g.HasTemplate y.method b t := hym ▸ htemplate
  obtain ⟨hcopy, -, hapart, -⟩ := hcopies 46 x b t hx htx
  exact ⟨x, y, b, t, hx, hy, htx, hty, huntouched _ b t htx, hcopy, (hcopies 47 y b t hy hty).1,
    hapart 47 y b t (by decide) hy hty⟩

end TypeFlow
