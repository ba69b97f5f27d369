import TypeFlow.Proofs.Targets

/-! # Runs with their labellings

What a run comes to is told by its last graph. As labels and entries last, all that came before
can be told by that graph as well. -/

namespace TypeFlow

/-- A run with the labellings along it. -/
inductive Course : Labels → Graph.Config → Labels → Graph.Config → Prop where
  | done (L : Labels) (c : Graph.Config) : Course L c L c
  | step {L L' : Labels} {g g' : Graph} {task : Task} {ts rest : List Task} {c : Graph.Config} :
      g.perform task = (g', .ok ts) → Course (L.performed g task) (g', ts ++ rest) L' c →
      Course L (g, task :: rest) L' c

theorem Course.snoc {L L' : Labels} {c : Graph.Config} {g g' : Graph} {task : Task}
    {ts rest : List Task} (h : Course L c L' (g, task :: rest))
    (hp : g.perform task = (g', .ok ts)) :
    Course L c (L'.performed g task) (g', ts ++ rest) := by
  generalize hend : (g, task :: rest) = c' at h
  induction h with
  | done L c =>
      subst hend
      exact .step hp (.done _ _)
  | step hp' _ ih => exact .step hp' (ih hend)

theorem Graph.Passes.course {c c' : Graph.Config} {done : List Task} (h : Passes c done c')
    (L : Labels) : ∃ L', Course L c L' c' := by
  induction h with
  | refl => exact ⟨L, .done L c⟩
  | perform _ hp ih =>
      obtain ⟨L', hc⟩ := ih
      exact ⟨_, hc.snoc hp⟩

/-- A later graph: it has grown, and what lasts is still there. -/
structure Later (L : Labels) (g : Graph) (L' : Labels) (g' : Graph) : Prop where
  extend : Extends L g L' g'
  lasts : Graph.Lasts g g'

theorem Later.refl (L : Labels) (g : Graph) : Later L g L g := ⟨.refl L g, fun _ _ h => h⟩

theorem Later.trans {L L' L'' : Labels} {g g' g'' : Graph} (h : Later L g L' g')
    (h' : Later L' g' L'' g'') : Later L g L'' g'' :=
  ⟨h.extend.trans h'.extend, h.lasts.trans h'.lasts⟩

theorem later_of_perform {L : Labels} {g g' : Graph} {task : Task} {ts : List Task}
    (hS : Sound L g) (hok : task.OK L g) (hp : g.perform task = (g', .ok ts)) :
    Later L g (L.performed g task) g' :=
  ⟨extends_of_perform hS hok hp, lasts_of_perform hS hok hp⟩

theorem Course.later {L L' : Labels} {c c' : Graph.Config} (h : Course L c L' c')
    (hS : Sound.Config L c) : Sound.Config L' c' ∧ Later L c.1 L' c'.1 := by
  induction h with
  | done => exact ⟨hS, .refl ..⟩
  | step hp _ ih =>
      obtain ⟨hS', hlater⟩ := ih (hS.step hp).2
      exact ⟨hS', (later_of_perform hS.graph (hS.tasks _ (List.mem_cons_self ..)) hp).trans hlater⟩

/-- What each task of a run preserves, as long as the run leads to its last graph. -/
theorem Course.preserves {L L' : Labels} {c c' : Graph.Config} (h : Course L c L' c')
    (hS : Sound.Config L c) (Inv : Labels → Graph.Config → Prop) (start : Inv L c)
    (step : ∀ L₁ g task rest g' ts, Sound.Config L₁ (g, task :: rest) → Inv L₁ (g, task :: rest) →
      g.perform task = (g', .ok ts) → Later (L₁.performed g task) g' L' c'.1 →
      Inv (L₁.performed g task) (g', ts ++ rest)) : Inv L' c' := by
  induction h with
  | done => exact start
  | step hp hc ih =>
      have hS' := (hS.step hp).2
      exact ih hS' (step _ _ _ _ _ _ hS start hp (hc.later hS').2) step

/-! ## New instances -/

section step

variable {L : Labels} {g g' : Graph} {task : Task} {ts : List Task} (hS : Sound L g)
  (hok : task.OK L g) (hp : g.perform task = (g', .ok ts))
include hS hok hp

/-- An instance was there before, or the walk over it begins. -/
theorem inst_step {i : InstanceId} {x : Instance} (hx : g'.instances[i]? = some x) :
    g.instances[i]? = some x ∨ ∃ c s receiver args method m b,
      g.Begins L task g' ts c s receiver args method m b ∧ i = g.instances.size ∧
        x = g.newInstance method receiver args := by
  rcases has_perform hS hok (e := .inst i x) (by rw [hp]; exact hx) with hold | hrec
  · exact .inl hold
  · generalize hen : Entry.inst i x = en at hrec
    cases hrec with
    | read h | bound h =>
        rcases h.var_or_field with rfl | ⟨_, -, rfl⟩ <;> cases hen
    | @inst c =>
        rcases recorded_resolve hS hok.1 hp (e := .inst i x) hx with
          hold | heq | ⟨s, receiver, args, method, m, b, hbegin, hnew⟩
        · exact .inl hold
        · cases heq
        · generalize hen' : Entry.inst i x = en' at hnew
          cases hnew with
          | inst =>
              cases hen'
              exact .inr ⟨c, s, receiver, args, method, m, b, hbegin, rfl, rfl⟩
          | _ => cases hen'
    | _ => cases hen

/-- A node that a walk comes to was there before, or it is in a body over which the walk begins. -/
theorem node_step {n : Nat} {w : WalkId} {r : NodeId} {k : Option String} {e : Expr}
    (hn : L.performed g task n = some (.node w r k e)) :
    L n = some (.node w r k e) ∨ ∃ c s receiver args method m b,
      g.Begins L task g' ts c s receiver args method m b ∧ w = g.walks.size ∧
        r = g.cells.size ∧ ⟨n, k, e⟩ ∈ b.stops none g.cells.size := by
  by_cases hlt : n < g.cells.size
  · rw [(extends_of_perform hS hok hp).label n hlt] at hn
    exact .inl hn
  · have hle := Nat.le_of_not_lt hlt
    right
    by_cases hres : ∃ c, task = .resolve c
    · obtain ⟨c, rfl⟩ := hres
      obtain ⟨s, L', hs, hL', hcases⟩ := resolves_perform hS hok.1 hp
      rw [hL'] at hn
      cases hcases with
      | waiting | dispatch | inst => exact (hlt (hS.bound hn)).elim
      | newDispatch => exact (plain_append_one (by simp) n hle w r k e hn).elim
      | newInst hcalls hfind hm hps =>
          refine ⟨c, s, _, _, _, _, _,
            ⟨rfl, hs, hcalls, hfind, ⟨_, _, _, _, _, hm, hps⟩, rfl, rfl⟩, ?_⟩
          rcases Labels.append_cases hn with ⟨-, hl⟩ | ⟨j, -, hj⟩
          · rcases Labels.append_cases hl with ⟨hlt', -⟩ | ⟨j, rfl, hj⟩
            · exact (hlt hlt').elim
            · obtain ⟨q, hq, hnode, heq⟩ := Labels.mem_ofTree hj
              cases heq
              rw [← hnode]
              exact ⟨rfl, rfl, hq⟩
          · simp only [Labels.ofInputs, List.getElem?_map, List.getElem?_mapIdx,
              Option.map_eq_some_iff, Option.some.injEq] at hj
            obtain ⟨_, ⟨p, -, rfl⟩, heq⟩ := hj
            split at heq <;> cases heq
    · exact (plain_performed hS (fun c h => hres ⟨c, h⟩) n hle w r k e hn).elim

/-- The type of an input, or of a built-in method's result, never changes. -/
theorem type_of_fixed {n : Nat} {l : Label} (hn : L n = some l) (hfixed : l.isFixed = true) :
    g'.type n = g.type n := by
  have hstore : ∀ m t, L.IsOpen m → g.storeType m t = (g', .ok ts) → g'.type n = g.type n := by
    intro m t hopen hst
    rcases g.storeType_cases m t with ⟨h, -⟩ | ⟨h, -⟩ <;> rw [h] at hst <;> cases hst
    · rfl
    · rw [Graph.type_setType, if_neg]
      rintro ⟨rfl, -⟩
      obtain ⟨l', hl', hopen⟩ := hopen
      rw [hn] at hl'
      cases hl'
      rw [hfixed] at hopen
      cases hopen
  by_cases hs : ∃ m t, task = .store m t
  · obtain ⟨m, t, rfl⟩ := hs
    obtain ⟨⟨w, r, k, e, hm⟩, -⟩ := hok
    exact hstore m t ⟨_, hm, rfl⟩ hp
  · by_cases hw : ∃ m t, task = .widen m t
    · obtain ⟨m, t, rfl⟩ := hw
      rw [Graph.perform, hS.widenType_eq hok.2] at hp
      exact hstore m _ hok.1 hp
    · have hcalm := calm_perform hS hok (fun m t h => hs ⟨m, t, h⟩) fun m t h => hw ⟨m, t, h⟩
      rw [hp] at hcalm
      exact hcalm.type n (hS.bound hn)

end step

end TypeFlow
