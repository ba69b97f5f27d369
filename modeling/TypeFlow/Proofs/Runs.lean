import TypeFlow.Session
import Mathlib.Order.WellFounded

/-! # Runs of the machine

A run is the sequence of tasks that it performs. What one task preserves, a run preserves; and a
run ends if each task lowers some measure. -/

namespace TypeFlow

namespace Graph

/-- A graph with the tasks that wait on it. -/
abbrev Config := Graph × List Task

/-- Performing tasks in turn leads from one configuration to another. -/
inductive Passes : Config → List Task → Config → Prop where
  | refl (c : Config) : Passes c [] c
  | perform {c : Config} {done tasks rest : List Task} {task : Task} {g g' : Graph} :
      Passes c done (g, task :: rest) → g.perform task = (g', .ok tasks) →
      Passes c (done ++ [task]) (g', tasks ++ rest)

/-- What each task preserves holds after a run. -/
theorem Passes.preserves {c c' : Config} {done : List Task} (Inv : Config → Prop)
    (h : Passes c done c') (start : Inv c)
    (step : ∀ g task rest g' tasks, Inv (g, task :: rest) → g.perform task = (g', .ok tasks) →
      Inv (g', tasks ++ rest)) : Inv c' := by
  induction h with
  | refl => exact start
  | perform _ hp ih => exact step _ _ _ _ _ ih hp

theorem Passes.trans {a b c : Config} {xs ys : List Task} (hab : Passes a xs b)
    (hbc : Passes b ys c) : Passes a (xs ++ ys) c := by
  induction hbc with
  | refl => simpa using hab
  | perform _ hp ih =>
      rw [← List.append_assoc]
      exact .perform ih hp

theorem Passes.head {g g' : Graph} {task : Task} {tasks rest done : List Task} {c : Config}
    (hp : g.perform task = (g', .ok tasks)) (h : Passes (g', tasks ++ rest) done c) :
    Passes (g, task :: rest) (task :: done) c :=
  (Passes.perform (.refl _) hp).trans h

/-- A run that performs a task first performs it. -/
theorem Passes.cases_head {c c' : Config} {done : List Task} (h : Passes c done c') :
    (done = [] ∧ c' = c) ∨ ∃ g task rest g' tasks done', c = (g, task :: rest) ∧
      done = task :: done' ∧ g.perform task = (g', .ok tasks) ∧
      Passes (g', tasks ++ rest) done' c' := by
  induction h with
  | refl => exact .inl ⟨rfl, rfl⟩
  | @perform done tasks rest task g g' h hp ih =>
      rcases ih with ⟨rfl, rfl⟩ | ⟨g₁, t₁, rest₁, g₁', tasks₁, done₁, rfl, rfl, hp₁, h₁⟩
      · exact .inr ⟨g, task, rest, g', tasks, [], rfl, rfl, hp, .refl _⟩
      · exact .inr ⟨g₁, t₁, rest₁, g₁', tasks₁, _, rfl, rfl, hp₁, .perform h₁ hp⟩

/-- A run has one course: whatever it comes to lies on the way to its end. -/
theorem Passes.to_end {c c' : Config} {g : Graph} {done all : List Task} (h : Passes c done c')
    (hend : Passes c all (g, [])) : ∃ after, Passes c' after (g, []) := by
  induction h with
  | refl => exact ⟨all, hend⟩
  | perform _ hp ih =>
      obtain ⟨after, hafter⟩ := ih
      rcases hafter.cases_head with ⟨-, heq⟩ | ⟨g₀, task, rest, g₁, tasks, after', heq, -, hp', h'⟩
      · cases heq
      · cases heq
        rw [hp] at hp'
        cases hp'
        exact ⟨after', h'⟩

/-! ## What a budget buys -/

theorem run_cons_ok {g g' : Graph} {task : Task} {tasks rest : List Task} (budget : Nat)
    (hp : g.perform task = (g', .ok tasks)) :
    run (budget + 1) g (task :: rest) = run budget g' (tasks ++ rest) := by
  rw [run, hp]

theorem run_cons_error {g g' : Graph} {task : Task} {rest : List Task} {f : Fault} (budget : Nat)
    (hp : g.perform task = (g', .error f)) :
    run (budget + 1) g (task :: rest) = ((g'.unwind f rest).1, .failed (g'.unwind f rest).2) := by
  rw [run, hp]

/-- A run that finishes has performed all of its tasks. -/
theorem passes_of_run_finished {budget : Nat} {g : Graph} {tasks : List Task}
    (h : (run budget g tasks).2 = .finished) :
    ∃ done, Passes (g, tasks) done ((run budget g tasks).1, []) := by
  induction budget generalizing g tasks with
  | zero =>
      cases tasks with
      | nil => exact ⟨[], .refl _⟩
      | cons task rest => simp [run] at h
  | succ budget ih =>
      cases tasks with
      | nil => exact ⟨[], .refl _⟩
      | cons task rest =>
          rcases hp : g.perform task with ⟨g', f | more⟩
          · simp [run_cons_error _ hp] at h
          · rw [run_cons_ok _ hp] at h ⊢
            obtain ⟨done, hdone⟩ := ih h
            exact ⟨task :: done, .head hp hdone⟩

/-- A run that fails has come to a task that fails. -/
theorem passes_of_run_failed {budget : Nat} {g : Graph} {tasks : List Task} {f : Fault}
    (h : (run budget g tasks).2 = .failed f) :
    ∃ done g₁ task rest g₂ f₂, Passes (g, tasks) done (g₁, task :: rest) ∧
      g₁.perform task = (g₂, .error f₂) ∧ ((run budget g tasks).1, f) = g₂.unwind f₂ rest := by
  induction budget generalizing g tasks with
  | zero => cases tasks <;> simp [run] at h
  | succ budget ih =>
      cases tasks with
      | nil => simp [run] at h
      | cons task rest =>
          rcases hp : g.perform task with ⟨g', f' | more⟩
          · rw [run_cons_error _ hp] at h ⊢
            refine ⟨[], g, task, rest, g', f', .refl _, hp, ?_⟩
            simp only [Outcome.failed.injEq] at h
            rw [← h]
          · rw [run_cons_ok _ hp] at h ⊢
            obtain ⟨done, g₁, t₁, rest₁, g₂, f₂, hpass, hfail, hend⟩ := ih h
            exact ⟨task :: done, g₁, t₁, rest₁, g₂, f₂, .head hp hpass, hfail, hend⟩

/-- A budget that covers a run to its end lets it finish. -/
theorem run_of_passes {g g' : Graph} {tasks done : List Task} {budget : Nat}
    (h : Passes (g, tasks) done (g', [])) (hb : done.length ≤ budget) :
    run budget g tasks = (g', .finished) := by
  induction budget generalizing g tasks done with
  | zero =>
      obtain rfl := List.length_eq_zero_iff.mp (Nat.le_zero.mp hb)
      rcases h.cases_head with ⟨_, hc⟩ | ⟨_, _, _, _, _, _, _, hd, _⟩
      · cases hc
        rfl
      · cases hd
  | succ budget ih =>
      rcases h.cases_head with ⟨_, hc⟩ | ⟨g₀, task, rest, g₁, more, done', hc, rfl, hp, hrest⟩
      · cases hc
        rfl
      · cases hc
        rw [run_cons_ok _ hp]
        exact ih hrest (by simpa using hb)

/-- A larger budget changes nothing about a run that has ended. -/
theorem run_of_le {budget budget' : Nat} {g : Graph} {tasks : List Task}
    (h : (run budget g tasks).2 ≠ .exhausted) (hb : budget ≤ budget') :
    run budget' g tasks = run budget g tasks := by
  induction budget generalizing g tasks budget' with
  | zero =>
      cases tasks with
      | nil => cases budget' <;> rfl
      | cons task rest => simp [run] at h
  | succ budget ih =>
      obtain ⟨budget', rfl⟩ : ∃ b, budget' = b + 1 := ⟨budget' - 1, by omega⟩
      cases tasks with
      | nil => rfl
      | cons task rest =>
          rcases hp : g.perform task with ⟨g', f | more⟩
          · rw [run_cons_error _ hp, run_cons_error _ hp]
          · rw [run_cons_ok _ hp] at h
            rw [run_cons_ok _ hp, run_cons_ok _ hp]
            exact ih h (by omega)

theorem run_zero (g : Graph) (tasks : List Task) : (run 0 g tasks).1 = g := by
  cases tasks <;> rfl

/-- One more unit of budget buys one more task, unless the run has ended. -/
theorem run_succ (budget : Nat) (g : Graph) (tasks : List Task) :
    run (budget + 1) g tasks = run budget g tasks ∨ ∃ done g₁ task rest,
      Passes (g, tasks) done (g₁, task :: rest) ∧ run budget g tasks = (g₁, .exhausted) ∧
        run (budget + 1) g tasks = run 1 g₁ (task :: rest) := by
  induction budget generalizing g tasks with
  | zero =>
      cases tasks with
      | nil => exact .inl rfl
      | cons task rest => exact .inr ⟨[], g, task, rest, .refl _, rfl, rfl⟩
  | succ budget ih =>
      cases tasks with
      | nil => exact .inl rfl
      | cons task rest =>
          rcases hp : g.perform task with ⟨g', f | more⟩
          · rw [run_cons_error _ hp, run_cons_error _ hp]
            exact .inl rfl
          · rw [run_cons_ok _ hp, run_cons_ok _ hp]
            rcases ih g' (more ++ rest) with heq | ⟨done, g₁, t₁, rest₁, hpass, hnow, hnext⟩
            · exact .inl heq
            · exact .inr ⟨task :: done, g₁, t₁, rest₁, .head hp hpass, hnow, hnext⟩

/-- What each task preserves, and what survives that tasks are dropped, holds of a graph that a run
comes to, whether the budget lasts or not and whether the run fails or not. The invariant may speak
of more than there is in the graph. -/
theorem exists_of_run {γ : Type*} (Inv : γ → Config → Prop)
    (drop : ∀ x g task rest, Inv x (g, task :: rest) → Inv x (g, rest))
    (step : ∀ x g task rest g' tasks, Inv x (g, task :: rest) →
      g.perform task = (g', .ok tasks) → ∃ x', Inv x' (g', tasks ++ rest))
    (fault : ∀ x g task rest g' f, Inv x (g, task :: rest) →
      g.perform task = (g', .error f) → ∃ x', Inv x' (g', rest))
    (budget : Nat) (x : γ) (g : Graph) (tasks : List Task) (start : Inv x (g, tasks)) :
    ∃ x' waiting, Inv x' ((run budget g tasks).1, waiting) := by
  -- Of the tasks that are dropped after a fault, those that are marks are still performed.
  have hunwind : ∀ (f : Fault) (rest : List Task) (x : γ) (g : Graph), Inv x (g, rest) →
      ∃ x', Inv x' ((g.unwind f rest).1, []) := by
    intro f rest
    induction rest generalizing f with
    | nil => exact fun x g h => ⟨x, h⟩
    | cons task rest ih =>
        intro x g h
        cases task with
        | finish c i =>
            obtain ⟨x', h'⟩ := step _ _ _ _ _ _ h rfl
            exact ih _ _ _ h'
        | leave w outer =>
            obtain ⟨x', h'⟩ := step _ _ _ _ _ _ h rfl
            exact ih _ _ _ h'
        | _ => exact ih _ _ _ (drop _ _ _ _ h)
  induction budget generalizing x g tasks with
  | zero =>
      rw [run_zero]
      exact ⟨x, tasks, start⟩
  | succ budget ih =>
      cases tasks with
      | nil => exact ⟨x, [], start⟩
      | cons task rest =>
          rcases hp : g.perform task with ⟨g', f | more⟩
          · rw [run_cons_error _ hp]
            obtain ⟨x', h'⟩ := fault _ _ _ _ _ _ start hp
            obtain ⟨x'', h''⟩ := hunwind f rest _ _ h'
            exact ⟨x'', [], h''⟩
          · rw [run_cons_ok _ hp]
            obtain ⟨x', h'⟩ := step _ _ _ _ _ _ start hp
            exact ih _ _ _ h'

/-- A run ends if each task lowers a measure of what an invariant holds of. The invariant may
speak of more than there is in the graph. -/
theorem exists_run_ended {γ α : Type*} (Inv : γ → Config → Prop) (measure : γ → Config → α)
    {r : α → α → Prop} (hr : WellFounded r)
    (step : ∀ x g task rest g' tasks, Inv x (g, task :: rest) →
      g.perform task = (g', .ok tasks) → ∃ x', Inv x' (g', tasks ++ rest) ∧
        r (measure x' (g', tasks ++ rest)) (measure x (g, task :: rest)))
    (x : γ) (g : Graph) (tasks : List Task) (start : Inv x (g, tasks)) :
    ∃ budget, (run budget g tasks).2 ≠ .exhausted := by
  induction hm : measure x (g, tasks) using hr.induction generalizing x g tasks with
  | _ m ih =>
      cases tasks with
      | nil => exact ⟨0, by simp [run]⟩
      | cons task rest =>
          rcases hp : g.perform task with ⟨g', f | more⟩
          · exact ⟨1, by simp [run_cons_error _ hp]⟩
          · obtain ⟨x', hinv, hlt⟩ := step x g task rest g' more start hp
            obtain ⟨budget, hb⟩ := ih _ (hm ▸ hlt) x' g' (more ++ rest) hinv rfl
            exact ⟨budget + 1, by rwa [run_cons_ok _ hp]⟩

end Graph

end TypeFlow
