import TypeFlow.Proofs.Courses

/-! # Walks within walks

A call that makes an instance walks over the body of the instance, and all that the walk sets off is
done before it ends. So the walks that have begun and not ended lie within each other, and the mark
that waits at the end of each tells which they are. -/

namespace TypeFlow

variable {L : Labels} {g g' : Graph} {task : Task} {ts rest : List Task} {start now : Graph.Config}
  {done : List Task}

/-! ## Parts of runs -/

namespace Graph

theorem Passes.of_append {xs ys : List Task} (h : Passes start (xs ++ ys) now) :
    ∃ mid, Passes start xs mid ∧ Passes mid ys now := by
  generalize hall : xs ++ ys = all at h
  induction h generalizing ys with
  | refl =>
      obtain ⟨rfl, rfl⟩ := List.append_eq_nil_iff.mp hall
      exact ⟨start, .refl start, .refl start⟩
  | @perform done ts rest task g g' h hp ih =>
      rcases List.eq_nil_or_concat ys with rfl | ⟨zs, z, rfl⟩
      · rw [List.append_nil] at hall
        subst hall
        exact ⟨_, .perform h hp, .refl _⟩
      · rw [List.concat_eq_append, ← List.append_assoc] at hall
        obtain ⟨hdone, hz⟩ := List.append_inj' hall rfl
        cases hz
        obtain ⟨mid, hxs, hys⟩ := ih hdone
        rw [List.concat_eq_append]
        exact ⟨mid, hxs, .perform hys hp⟩

/-- The last task of a run. -/
theorem Passes.of_snoc (h : Passes start (done ++ [task]) now) :
    ∃ g rest g' ts, Passes start done (g, task :: rest) ∧ g.perform task = (g', .ok ts) ∧
      now = (g', ts ++ rest) := by
  obtain ⟨mid, hdone, hlast⟩ := h.of_append
  rcases hlast.cases_head with ⟨heq, -⟩ | ⟨g, t, rest, g', ts, done', rfl, heq, hp, hrest⟩
  · cases heq
  · cases heq
    rcases hrest.cases_head with ⟨-, rfl⟩ | ⟨_, _, _, _, _, _, _, heq, -⟩
    · exact ⟨g, rest, g', ts, hdone, hp, rfl⟩
    · cases heq

/-- The tasks that are done decide what a run has come to. -/
theorem Passes.unique {now' : Config} (h : Passes start done now) (h' : Passes start done now') :
    now = now' := by
  induction h generalizing now' with
  | refl =>
      rcases h'.cases_head with ⟨-, rfl⟩ | ⟨_, _, _, _, _, _, _, heq, -⟩
      · rfl
      · cases heq
  | perform _ hp ih =>
      obtain ⟨g₁, rest₁, g₁', ts₁, h₁, hp₁, rfl⟩ := h'.of_snoc
      cases ih h₁
      rw [hp] at hp₁
      cases hp₁
      rfl

/-- A run does not depend on what waits below it. -/
theorem Passes.above {ts' : List Task} (h : Passes (g, ts) done (g', ts')) (below : List Task) :
    Passes (g, ts ++ below) done (g', ts' ++ below) := by
  generalize hnow : (g', ts') = c at h
  induction h generalizing g' ts' with
  | refl =>
      cases hnow
      exact .refl _
  | perform _ hp ih =>
      cases hnow
      rw [List.append_assoc]
      exact .perform (ih rfl) hp

end Graph

/-! ## What walks have left to do -/

/-- After the tasks `done`, the walk over the body of an instance that a call began after the tasks
`before` has `left` left to do. -/
inductive Graph.Walks (start : Graph.Config) (done before : List Task) (c : NodeId) (i : InstanceId)
    (left : List Task) : Prop where
  | intro {g₁ g₂ g : Graph} {rest more during : List Task} {w : WalkId} {b : Expr} {n : NodeId} :
      done = before ++ .resolve c :: during → Passes start before (g₁, .resolve c :: rest) →
      g₁.perform (.resolve c) = (g₂, .ok (.visit w b n :: .finish c i :: more)) →
      Passes (g₂, [.visit w b n]) during (g, left) → Graph.Walks start done before c i left

namespace Graph.Walks

variable {before before' left left' : List Task} {c c' : NodeId} {i i' : InstanceId}

/-- What a walk has left to do waits on top of what waited when the walk began. -/
theorem now_eq {g₁ g₂ : Graph} {first : Task} {below during : List Task}
    (hbefore : Passes start before (g₁, .resolve c :: rest))
    (hopen : g₁.perform (.resolve c) = (g₂, .ok (first :: below)))
    (hduring : Passes (g₂, [first]) during (g, left))
    (hpass : Passes start (before ++ .resolve c :: during) now) :
    now = (g, left ++ (below ++ rest)) := by
  have hrun := (Passes.perform hbefore hopen).trans (hduring.above (below ++ rest))
  rw [List.append_assoc, List.singleton_append] at hrun
  exact hpass.unique hrun

theorem stack (h : Walks start done before c i left) (hpass : Passes start done now) :
    ∃ below, now.2 = left ++ .finish c i :: below := by
  obtain ⟨rfl, hbefore, hopen, hduring⟩ := h
  cases now_eq hbefore hopen hduring hpass
  exact ⟨_, rfl⟩

/-- A walk that began later lies within one that has not ended, and has less left to do. -/
theorem length_lt (h : Walks start done before c i left) (h' : Walks start done before' c' i' left')
    (hlt : before.length < before'.length) (hpass : Passes start done now) :
    left'.length < left.length := by
  obtain ⟨hdone, hbefore, hopen, hduring⟩ := h
  obtain ⟨hdone', hbefore', hopen', hduring'⟩ := h'
  obtain ⟨later, rfl⟩ := List.prefix_of_prefix_length_le ⟨_, hdone.symm⟩ ⟨_, hdone'.symm⟩ hlt.le
  rw [hdone, List.append_assoc, List.append_cancel_left_eq] at hdone'
  cases later with
  | nil => simp at hlt
  | cons t later =>
      obtain ⟨rfl, rfl⟩ := List.cons.inj hdone'
      -- The later walk began as part of what the earlier one does.
      obtain ⟨⟨g₃, ts₃⟩, hlater, hinner⟩ := hduring.of_append
      rcases hinner.cases_head with ⟨heq, -⟩ | ⟨_, _, inner, _, _, _, hmid, heq, -⟩
      · cases heq
      · cases heq
        cases hmid
        cases now_eq hbefore hopen hlater hbefore'
        subst hdone
        cases now_eq hbefore hopen hduring hpass
        have hnow := now_eq hbefore' hopen' hduring' (by simpa using hpass)
        have hlen := congrArg (·.2.length) hnow
        simp only [List.append_eq, List.length_append, List.length_cons] at hlen
        omega

/-- A walk is known by when it began. -/
theorem eq_of_before (h : Walks start done before c i left) (h' : Walks start done before c' i' left') :
    c = c' ∧ i = i' ∧ left = left' := by
  obtain ⟨rfl, hbefore, hopen, hduring⟩ := h
  obtain ⟨hdone', hbefore', hopen', hduring'⟩ := h'
  rw [List.append_cancel_left_eq] at hdone'
  cases hdone'
  cases hbefore.unique hbefore'
  rw [hopen] at hopen'
  cases hopen'
  cases hduring.unique hduring'
  exact ⟨rfl, rfl, rfl⟩

theorem before_eq_of_length (h : Walks start done before c i left)
    (h' : Walks start done before' c' i' left') (hlen : before.length = before'.length) :
    before = before' := by
  obtain ⟨hdone, -⟩ := h
  obtain ⟨hdone', -⟩ := h'
  exact (List.append_inj (hdone.symm.trans hdone') hlen).1

/-- Of two walks the one with more left to do began earlier. -/
theorem before_lt (h : Walks start done before c i left) (h' : Walks start done before' c' i' left')
    (hlt : left.length < left'.length) (hpass : Passes start done now) :
    before'.length < before.length := by
  rcases Nat.lt_trichotomy before.length before'.length with hb | hb | hb
  · exact (Nat.lt_asymm hlt (h.length_lt h' hb hpass)).elim
  · obtain rfl := h.before_eq_of_length h' hb
    rw [(h.eq_of_before h').2.2] at hlt
    exact (Nat.lt_irrefl _ hlt).elim
  · exact hb

/-- Walks with equally much left to do are the same. -/
theorem eq_of_length (h : Walks start done before c i left)
    (h' : Walks start done before' c' i' left') (hlen : left.length = left'.length)
    (hpass : Passes start done now) : before = before' ∧ c = c' ∧ i = i' ∧ left = left' := by
  rcases Nat.lt_trichotomy before.length before'.length with hb | hb | hb
  · exact (Nat.ne_of_gt (h.length_lt h' hb hpass) hlen).elim
  · obtain rfl := h.before_eq_of_length h' hb
    exact ⟨rfl, h.eq_of_before h'⟩
  · exact (Nat.ne_of_lt (h'.length_lt h hb hpass) hlen).elim

theorem step (h : Walks start done before c i (task :: left))
    (hpass : Passes start done (g, task :: rest)) (hp : g.perform task = (g', .ok ts)) :
    Walks start (done ++ [task]) before c i (ts ++ left) := by
  obtain ⟨rfl, hbefore, hopen, hduring⟩ := h
  cases now_eq hbefore hopen hduring hpass
  exact ⟨by rw [List.append_assoc, List.cons_append], hbefore, hopen, .perform hduring hp⟩

/-- Only a call makes instances. -/
theorem exists_site (h : Walks start done before c i left) (hS : Sound.Config L start)
    (hpass : Passes start done now) : ∃ s, now.1.site? c = some s := by
  obtain ⟨rfl, hbefore, hopen, -⟩ := h
  obtain ⟨mid, hbefore', hafter⟩ := hpass.of_append
  cases hbefore.unique hbefore'
  obtain ⟨L₁, hS₁⟩ := hS.passes hbefore
  obtain ⟨L₂, hcourse⟩ := hafter.course L₁
  have hgrows := (hcourse.later hS₁).2.extend.grows
  obtain ⟨s, hs, -⟩ := (hS₁.tasks _ (List.mem_cons_self ..)).1
  obtain ⟨x, hx, hr⟩ := blank_of_site hs
  obtain ⟨s', hs', -⟩ := site_of_blank (hgrows.blank hx) hr
  exact ⟨s', hs'⟩

end Graph.Walks

/-- Only the walk over a new instance ends with a mark. -/
theorem finish_of_perform (hS : Sound L g) (hok : task.OK L g) (hp : g.perform task = (g', .ok ts))
    {c : NodeId} {i : InstanceId} (h : .finish c i ∈ ts) :
    ∃ w b n more, task = .resolve c ∧ ts = .visit w b n :: .finish c i :: more ∧
      ∀ c i, .finish c i ∉ more := by
  rcases begins_or_plain hS hok hp with ⟨c', _, _, _, _, _, _, hbegin⟩ | ⟨hnone, -⟩
  · rw [hbegin.tasks] at h
    obtain ⟨rfl, rfl⟩ : c = c' ∧ i = g.instances.size := by simpa using h
    exact ⟨_, _, _, _, hbegin.task_eq, hbegin.tasks, by simp⟩
  · exact (hnone c i h).elim

/-- The mark of the end of a walk waits only for a walk that began. -/
theorem Graph.Passes.exists_walks (h : Passes start done now) (hS : Sound.Config L start)
    (hnone : ∀ c i, .finish c i ∉ start.2) {above below : List Task} {c : NodeId} {i : InstanceId}
    (hstack : now.2 = above ++ .finish c i :: below) : ∃ before, Walks start done before c i above := by
  induction h generalizing above below with
  | refl => exact (hnone c i (by rw [hstack]; simp)).elim
  | @perform done ts rest task g g' h hp ih =>
      obtain ⟨L', hS'⟩ := hS.passes h
      have hok := hS'.tasks _ (List.mem_cons_self ..)
      rcases List.append_eq_append_iff.mp hstack with ⟨mid, rfl, hrest⟩ | ⟨mid, hts, hrest⟩
      · have hbelow : task :: rest = task :: mid ++ .finish c i :: below := by rw [hrest]; rfl
        obtain ⟨before, hwalks⟩ := ih hbelow
        exact ⟨before, hwalks.step h hp⟩
      · cases mid with
        | nil =>
            have hbelow : task :: rest = [task] ++ .finish c i :: below := by rw [hrest]; rfl
            obtain ⟨before, hwalks⟩ := ih hbelow
            rw [List.append_nil] at hts
            have hnow := hwalks.step h hp
            rw [List.append_nil, hts] at hnow
            exact ⟨before, hnow⟩
        | cons t mid =>
            obtain ⟨rfl, -⟩ := List.cons.inj hrest
            obtain ⟨w, b, n, more, rfl, hnew, hmore⟩ := finish_of_perform hS'.graph hok hp
              (c := c) (i := i) (by rw [hts]; simp)
            refine ⟨done, ?_⟩
            rw [hnew] at hts
            cases above with
            | nil => cases hts
            | cons t above =>
                obtain ⟨rfl, heq⟩ := List.cons.inj hts
                cases above with
                | nil => exact ⟨rfl, h, hnew ▸ hp, .refl _⟩
                | cons t above =>
                    obtain ⟨-, hin⟩ := List.cons.inj heq
                    exact (hmore c i (by rw [hin]; simp)).elim

end TypeFlow
