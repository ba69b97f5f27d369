import TypeFlow.Proofs.Leading
import TypeFlow.Proofs.Wiring

/-! # Nodes that type themselves

A literal, a loop, an empty block and the construction of a new object have the type that the walk
gives them. They observe no other node, so nothing is ever merged into them; and the walk gives a
type to no other node. -/

namespace TypeFlow

/-- A node that has its type from itself alone. -/
def Labels.IsSeed (L : Labels) (n : NodeId) : Prop :=
  ∃ w r k e, L n = some (.node w r k e) ∧ e.isSeed = true

/-- Types are stored into seeds, and merged into all other nodes. -/
def Task.Seeded (L : Labels) : Task → Prop
  | .store n _ => L.IsSeed n
  | .widen n _ => ¬ L.IsSeed n
  | .subscribe _ o _ | .deliver _ o _ | .react _ o _ _ => ¬ L.IsSeed o
  | _ => True

/-- Seeds observe nothing, and types are stored into them only. -/
structure Seeded (L : Labels) (g : Graph) (ts : List Task) : Prop where
  edge : ∀ {s o r}, (o, r) ∈ g.observers s → ¬ L.IsSeed o
  tasks : ∀ t ∈ ts, t.Seeded L

variable {L : Labels} {g g' : Graph} {task : Task} {ts rest : List Task}

namespace Labels

theorem isSeed_iff {n : NodeId} {w : WalkId} {r : NodeId} {k : Option String} {e : Expr}
    (hn : L n = some (.node w r k e)) : L.IsSeed n ↔ e.isSeed = true := by
  refine ⟨fun ⟨w', r', k', e', h, he⟩ => ?_, fun h => ⟨w, r, k, e, hn, h⟩⟩
  rw [hn] at h
  cases h
  exact he

theorem not_isSeed {n : NodeId} {l : Label} (hn : L n = some l)
    (hl : ∀ w r k e, l = .node w r k e → e.isSeed = false) : ¬ L.IsSeed n := by
  rintro ⟨w, r, k, e, h, he⟩
  rw [hn] at h
  cases h
  rw [hl w r k e rfl] at he
  cases he

theorem IsCall.not_isSeed {c : NodeId} (hc : L.IsCall c) : ¬ L.IsSeed c := by
  rcases hc with ⟨w, r, k, rc, nm, as, p, hl, hnew⟩ | ⟨d, r, as, hl⟩
  · rw [isSeed_iff hl, Expr.isSeed_call, hnew]
    exact Bool.false_ne_true
  · exact Labels.not_isSeed hl fun _ _ _ _ h => by cases h

end Labels

/-! ## What a label says stays true -/

section extend

variable {L' : Labels} (h : Extends L g L' g') (hS : Sound L g)
include h hS

theorem Extends.isSeed_iff {n : NodeId} (hn : L n ≠ none) : L'.IsSeed n ↔ L.IsSeed n := by
  simp only [Labels.IsSeed, h.eq_of_ne hS hn]

theorem Extends.seeded {t : Task} (hok : t.OK L g) (ht : t.Seeded L) : t.Seeded L' := by
  have hopen : ∀ {o}, L.IsOpen o → L o ≠ none := by
    rintro o ⟨l, hl, -⟩ hnone
    rw [hl] at hnone
    cases hnone
  cases t with
  | store n t =>
      obtain ⟨⟨w, r, k, e, hn⟩, -⟩ := hok
      exact (h.isSeed_iff hS (by simp [hn])).mpr ht
  | widen n t => exact fun hs => ht ((h.isSeed_iff hS (hopen hok.1)).mp hs)
  | subscribe s o r => exact fun hs => ht ((h.isSeed_iff hS (hopen hok.2.1)).mp hs)
  | deliver s o r => exact fun hs => ht ((h.isSeed_iff hS (hopen hok.2.1)).mp hs)
  | react s o r t =>
      obtain ⟨s', t', rfl, rfl, he, -⟩ := hok
      exact fun hs => ht ((h.isSeed_iff hS (hopen he.2.1)).mp hs)
  | _ => trivial

end extend

/-! ## Steps -/

section step

variable (hS : Sound L g) (hok : task.OK L g) (hp : g.perform task = (g', .ok ts))
include hS hok hp

/-- Types are stored into seeds, and all other nodes are made to observe. -/
theorem seeded_perform (h : Seeded L g (task :: rest)) :
    ∀ t ∈ ts, t.Seeded (L.performed g task) := by
  intro t ht
  have hhead := h.tasks task (List.mem_cons_self ..)
  have hext := extends_of_perform hS hok hp
  -- What was no seed before is none now.
  have hkeep : ∀ {o}, L.IsOpen o → ¬ L.IsSeed o → ¬ (L.performed g task).IsSeed o := by
    rintro o ⟨l, hl, -⟩ hnot hs
    exact hnot ((hext.isSeed_iff hS (by simp [hl])).mp hs)
  cases leads_perform hS hok hp ht with
  | stored ho | widened ho => exact hkeep (hS.edge ho).2.1 (h.edge ho)
  | subscribed => exact hkeep hok.2.1 hhead
  | @delivered s o =>
      have he : g.EdgeOK L s o .merge := hok
      exact hkeep he.2.1 hhead
  | merged =>
      obtain ⟨s', T', -, -, he, -⟩ := hok
      exact hkeep he.2.1 hhead
  | typed he =>
      obtain ⟨⟨r, k, hn⟩, -⟩ := hok
      exact (Labels.isSeed_iff (hext.keeps hS hn)).mpr he
  | connected he =>
      obtain ⟨⟨r, k, hn⟩, -⟩ := hok
      refine (Labels.isSeed_iff (hext.keeps hS hn)).not.mpr ?_
      rw [he]
      exact Bool.false_ne_true
  | @bound w p n v hv =>
      obtain ⟨-, -, hplace, -⟩ := extends_placeOf hS w p (n + 1)
      rcases (hplace v hv).slot with ⟨_, _, hl⟩ | ⟨_, _, hl⟩ <;>
        exact Labels.not_isSeed hl fun _ _ _ _ heq => by cases heq
  | @shown w p n v =>
      obtain ⟨⟨r, k, e, hn⟩, -⟩ := hok
      have htarget := hS.part hn (p := ⟨n + 1, k, .place p⟩) (by simp [Expr.parts])
      refine Labels.not_isSeed (hext.keeps hS htarget) fun _ _ _ _ heq => ?_
      cases heq
      rfl
  | pointed => exact (hext.isCall hS hok.2).not_isSeed
  | joined =>
      obtain ⟨x, hd, -⟩ := hok
      exact Labels.not_isSeed (hext.keeps hS hd) fun _ _ _ _ heq => by cases heq
  | _ => trivial

/-- A node observes what it observed before, unless it has just subscribed. -/
theorem edge_step {s o : NodeId} {r : Reaction} (h : (o, r) ∈ g'.observers s) :
    (o, r) ∈ g.observers s ∨ task = .subscribe s o r := by
  have hrec := has_perform hS hok (e := .mark s (.edge o r)) (by
    rw [hp]
    exact Graph.has_edge.mpr h)
  refine hrec.imp Graph.has_edge.mp fun h => ?_
  generalize hen : Entry.mark s (.edge o r) = en at h
  cases h with
  | edge =>
      cases hen
      rfl
  | read h | bound h =>
      rcases h.var_or_field with rfl | ⟨_, -, rfl⟩ <;> cases hen
  | inst h =>
      subst hen
      cases h
  | _ => cases hen

/-- A task keeps seeds apart from the nodes that observe others. -/
theorem seeded_step (h : Seeded L g (task :: rest)) (hrest : ∀ t ∈ rest, t.OK L g) :
    Seeded (L.performed g task) g' (ts ++ rest) where
  edge {s o r} ho := by
    have hext := extends_of_perform hS hok hp
    have hnone : ∀ {s' : NodeId}, g.EdgeOK L s' o r → L o ≠ none := by
      rintro s' ⟨-, ⟨l, hl, -⟩, -⟩
      simp [hl]
    rcases edge_step hS hok hp ho with ho | rfl
    · exact fun hs => h.edge ho ((hext.isSeed_iff hS (hnone (hS.edge ho))).mp hs)
    · exact fun hs => h.tasks _ (List.mem_cons_self ..)
        ((hext.isSeed_iff hS (hnone hok)).mp hs)
  tasks t ht := by
    rcases List.mem_append.mp ht with ht | ht
    · exact seeded_perform hS hok hp h t ht
    · exact (extends_of_perform hS hok hp).seeded hS (hrest t ht)
        (h.tasks t (List.mem_cons_of_mem _ ht))

end step

theorem observers_loaded (tree : Expr) (n : NodeId) : (Graph.loaded tree).observers n = [] := by
  refine List.eq_nil_iff_forall_not_mem.mpr fun o ho => ?_
  have hedge : Session.start.graph.EdgeOK (Labels.builtins Graph.withBuiltins) n o.1 o.2 :=
    has_loaded (Graph.has_edge.mpr ho)
  obtain ⟨-, ⟨l, hl, hfixed⟩, -⟩ := hedge
  unfold Labels.builtins at hl
  split at hl <;> cases hl
  cases hfixed

theorem seeded_loaded (tree : Expr) :
    Seeded (Labels.loaded tree) (Graph.loaded tree) [.visit 0 tree rootOf] where
  edge ho := by
    rw [observers_loaded] at ho
    cases ho
  tasks t ht := by
    cases List.mem_singleton.mp ht
    trivial

end TypeFlow
