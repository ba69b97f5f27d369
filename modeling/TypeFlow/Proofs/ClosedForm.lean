import TypeFlow.Propagation
import TypeFlow.Proofs.Spreading
import Mathlib.Logic.Equiv.Basic

/-! # What propagation comes to

Variables are made, observe each other and are given types, in any order. After each step a variable
has exactly the members of the types that were given to the variables from which it can be reached,
so it does not matter in which order the steps were taken. -/

namespace TypeFlow

variable {N N' : Network} {g g' : Graph} {n : NodeId}

/-! ## Settled networks -/

/-- The type of a variable is determined by the network: it has none if nothing was given to any
variable from which it can be reached, and otherwise it has the members of all that was. -/
structure Network.Solves (N : Network) (g : Graph) (n : NodeId) : Prop where
  none_iff : g.type n = none ↔ ∀ m t, (m, t) ∈ N.given → ¬ N.Reaches m n
  proper : ∀ t, g.type n = some t → t.Proper N.heap
  brings : ∀ t, g.type n = some t → ∀ a ∈ t.members, N.Brings n a
  covers : ∀ t, g.type n = some t → ∀ m u, (m, u) ∈ N.given → N.Reaches m n →
    t.Covers N.heap.Equal u

/-- What was given to a variable has come to all that can be reached from it. -/
theorem Spreading.holds_of_reaches (hequal : Equivalence N.heap.Equal) (h : Spreading N (g, []))
    {m : NodeId} {t : Ty} (hgiven : (m, t) ∈ N.given) (hpath : N.Reaches m n) :
    g.Holds N.heap n t := by
  induction hpath with
  | refl =>
      rcases (h.given m t hgiven).2 with hwaits | hheld
      · cases hwaits
      · exact hheld
  | @tail s o _ hlink ih =>
      obtain ⟨u, hu, hcov⟩ := ih
      have hedge : (o, .merge) ∈ g.observers s := by
        rcases h.linked s o hlink with hedge | hwaits
        · exact hedge
        · cases hwaits
      rcases h.told s o hlink hedge u hu with hw | hw | hw | ⟨v, hv, hcov'⟩
      · cases hw
      · cases hw
      · cases hw
      · exact ⟨v, hv, hcov'.trans hcov fun _ _ _ => hequal.trans⟩

theorem Spreading.solves (hequal : Equivalence N.heap.Equal) (h : Spreading N (g, []))
    (hn : N.base ≤ n) : N.Solves g n where
  none_iff := by
    refine ⟨fun hnone m t hgiven hpath => ?_, fun hall => ?_⟩
    · obtain ⟨u, hu, -⟩ := h.holds_of_reaches hequal hgiven hpath
      rw [hnone] at hu
      cases hu
    · refine Option.eq_none_iff_forall_ne_some.mpr fun t ht => ?_
      have hcarries := h.type n t hn ht
      obtain ⟨a, ha⟩ := List.exists_mem_of_ne_nil _ hcarries.proper.members_ne_nil
      obtain ⟨m, u, hgiven, hpath, -⟩ := hcarries.brings a ha
      exact hall m u hgiven hpath
  proper t ht := (h.type n t hn ht).proper
  brings t ht := (h.type n t hn ht).brings
  covers t ht m u hgiven hpath := by
    obtain ⟨v, hv, hcov⟩ := h.holds_of_reaches hequal hgiven hpath
    rw [ht] at hv
    cases hv
    exact hcov

/-! ## Networks under other names -/

/-- One network has the edges of another, and was given the same types, when its variables are
renamed. -/
structure Network.RenamesTo (π : NodeId → NodeId) (N N' : Network) : Prop where
  links : ∀ s o, (s, o) ∈ N.links → (π s, π o) ∈ N'.links
  given : ∀ m t, (m, t) ∈ N.given → (π m, t) ∈ N'.given

theorem Network.RenamesTo.reaches {π : NodeId → NodeId} (h : N.RenamesTo π N') {m : NodeId}
    (hpath : N.Reaches m n) : N'.Reaches (π m) (π n) := by
  induction hpath with
  | refl => exact .refl
  | tail _ hlink ih => exact ih.tail (h.links _ _ hlink)

/-- A variable has at least what the variable has that it is a renaming of. -/
theorem Network.Solves.covers_of_renames (hequal : Equivalence N.heap.Equal)
    {π : NodeId → NodeId} (hπ : N.RenamesTo π N') (hheap : N'.heap = N.heap)
    (h : N.Solves g n) (h' : N'.Solves g' (π n)) {t : Ty} (ht : g.type n = some t) :
    ∃ t', g'.type (π n) = some t' ∧ t'.Covers N.heap.Equal t := by
  have hall : ∀ t', g'.type (π n) = some t' → t'.Covers N.heap.Equal t := by
    intro t' ht' a ha
    obtain ⟨m, u, hgiven, hpath, b, hb, hab⟩ := h.brings t ht a ha
    have hcov := h'.covers t' ht' (π m) u (hπ.given m u hgiven) (hπ.reaches hpath)
    rw [hheap] at hcov
    obtain ⟨x, hx, hxb⟩ := hcov b hb
    exact ⟨x, hx, hequal.trans hxb (hequal.symm hab)⟩
  cases ht' : g'.type (π n) with
  | some t' => exact ⟨t', rfl, hall t' ht'⟩
  | none =>
      obtain ⟨a, ha⟩ := List.exists_mem_of_ne_nil _ (h.proper t ht).members_ne_nil
      obtain ⟨m, u, hgiven, hpath, -⟩ := h.brings t ht a ha
      exact (h'.none_iff.mp ht' (π m) u (hπ.given m u hgiven) (hπ.reaches hpath)).elim

/-- Variables of networks that are renamings of each other have equal types. -/
theorem Network.Solves.sameOption (hequal : Equivalence N.heap.Equal) (π : Equiv.Perm NodeId)
    (hπ : N.RenamesTo π N') (hπ' : N'.RenamesTo π.symm N) (hheap : N'.heap = N.heap)
    (h : N.Solves g n) (h' : N'.Solves g' (π n)) :
    N.heap.sameOption (g.type n) (g'.type (π n)) = true := by
  have hback : N.Solves g (π.symm (π n)) := by rwa [π.symm_apply_apply]
  cases ht : g.type n with
  | some t =>
      obtain ⟨t', ht', hcov⟩ := h.covers_of_renames hequal hπ hheap h' ht
      obtain ⟨u, hu, hcov'⟩ := h'.covers_of_renames (hheap ▸ hequal) hπ' hheap.symm hback ht'
      rw [π.symm_apply_apply, ht] at hu
      cases hu
      rw [hheap] at hcov'
      rw [ht']
      exact (h.proper t ht).same_of_covers hequal (hheap ▸ h'.proper t' ht') hcov' hcov
  | none =>
      cases ht' : g'.type (π n) with
      | none => rfl
      | some t' =>
          obtain ⟨u, hu, -⟩ := h'.covers_of_renames (hheap ▸ hequal) hπ' hheap.symm hback ht'
          rw [π.symm_apply_apply, ht] at hu
          cases hu

/-! ## Sequences of steps -/

namespace PropagationStep

/-- The edges that steps make. -/
def links : List PropagationStep → List (NodeId × NodeId)
  | [] => []
  | .observe s o _ :: rest => (s, o) :: links rest
  | _ :: rest => links rest

/-- The types that steps give to variables, if the next variable is made at an address. -/
def given (next : NodeId) : List PropagationStep → List (NodeId × Ty)
  | [] => []
  | .addSlot _ t :: rest => t.toList.map (next, ·) ++ given (next + 1) rest
  | .addType n t :: rest => t.toList.map (n, ·) ++ given next rest
  | _ :: rest => given next rest

/-- Steps that make variables, let variables merge what others have, and give types to variables.
The variables that there are have addresses from a base on, up to the address of the next one. The
unions that are given list members that differ, and differed already when the unions were built. -/
def Admissible (h : Heap) (base next : NodeId) : List PropagationStep → Prop
  | [] => True
  | .addSlot _ t :: rest => (∀ u ∈ t, u.Proper h) ∧ Admissible h base (next + 1) rest
  | .observe s o r :: rest =>
      (r = .merge ∧ (base ≤ s ∧ s < next) ∧ base ≤ o ∧ o < next) ∧ Admissible h base next rest
  | .addType n t :: rest =>
      ((base ≤ n ∧ n < next) ∧ ∀ u ∈ t, u.Proper h) ∧ Admissible h base next rest
  | _ => False

end PropagationStep

/-- A network after further steps. -/
def Network.extend (N : Network) (next : NodeId) (steps : List PropagationStep) : Network :=
  { N with
    links := N.links ++ PropagationStep.links steps
    given := N.given ++ PropagationStep.given next steps }

theorem Network.sub_extend (N : Network) (next : NodeId) (steps : List PropagationStep) :
    N.Sub (N.extend next steps) :=
  ⟨rfl, rfl, fun _ => List.mem_append_left _, fun _ => List.mem_append_left _⟩

/-- The network that steps make from nothing. -/
def Network.ofSteps (g : Graph) (steps : List PropagationStep) : Network :=
  ⟨g.cells.size, g.heap, PropagationStep.links steps, PropagationStep.given g.cells.size steps⟩

/-- Each of several steps finishes, and together they lead from one graph to another. -/
inductive Graph.Spreads : Graph → List PropagationStep → Graph → Prop where
  | nil (g : Graph) : Spreads g [] g
  | cons {g g₁ g₂ : Graph} {step : PropagationStep} {steps : List PropagationStep} (budget : Nat) :
      g.propagate budget step = (g₁, .finished) → Spreads g₁ steps g₂ → Spreads g (step :: steps) g₂

/-- However much budget they are given, steps lead to one graph only. -/
theorem Graph.Spreads.unique {steps : List PropagationStep} {g₁ g₂ : Graph}
    (h₁ : g.Spreads steps g₁) (h₂ : g.Spreads steps g₂) : g₁ = g₂ := by
  induction h₁ with
  | nil =>
      cases h₂
      rfl
  | @cons g k g₁ step steps budget hp _ ih =>
      obtain _ | @⟨_, k', _, _, _, budget', hp', h₂⟩ := h₂
      have hmax : ∀ b ≤ max budget budget', ∀ k, g.propagate b step = (k, .finished) →
          g.propagate (max budget budget') step = (k, .finished) := by
        intro b hb k hk
        simp only [propagate] at hk ⊢
        rw [run_of_le (by rw [hk]; exact fun h => by cases h) hb, hk]
      have hk := (hmax _ (Nat.le_max_left ..) _ hp).symm.trans (hmax _ (Nat.le_max_right ..) _ hp')
      cases hk
      exact ih h₂

/-! ## What a step sets off -/

theorem Graph.type_of_le (h : g.cells.size ≤ n) : g.type n = none := by
  rw [type, Array.getElem?_eq_none h]
  rfl

theorem Graph.observers_of_le (h : g.cells.size ≤ n) : g.observers n = [] := by
  rw [observers, Array.getElem?_eq_none h]
  rfl

/-- A settled network may grow by variables without observers, by edges that tasks wait to make, and by
types that variables have or that tasks wait to merge into theirs. -/
theorem Spreading.extend (h : Spreading N (g, [])) (hsub : N.Sub N') {ts : List Task}
    (hobjects : g'.objects = g.objects) (hsize : g.cells.size ≤ g'.cells.size)
    (hold : ∀ n < g.cells.size, g'.type n = g.type n ∧ g'.role n = g.role n ∧
      g'.observers n = g.observers n)
    (hnew : ∀ n, g.cells.size ≤ n → g'.observers n = [] ∧
      (n < g'.cells.size → ∃ name, g'.role n = .slot name) ∧
      ∀ t, g'.type n = some t → N'.Carries n t)
    (htasks : ∀ t ∈ ts, t.Spreads N' g')
    (hlinks : ∀ s o, (s, o) ∈ N'.links → (s, o) ∈ N.links ∨
      N'.Var g' s ∧ N'.Var g' o ∧ .subscribe s o .merge ∈ ts)
    (hgiven : ∀ n t, (n, t) ∈ N'.given → (n, t) ∈ N.given ∨
      N'.Var g' n ∧ (.widen n t ∈ ts ∨ g'.Holds N'.heap n t)) :
    Spreading N' (g', ts) := by
  have hvar : ∀ {n}, N.Var g n → N'.Var g' n := fun hn =>
    ⟨hsub.base ▸ hn.1, Nat.lt_of_lt_of_le hn.2 hsize⟩
  have hholds : ∀ {n t}, N.Var g n → g.Holds N.heap n t → g'.Holds N'.heap n t := by
    rintro n t hn ⟨u, hu, hcov⟩
    exact ⟨u, (hold n hn.2).1.trans hu, hsub.heap.symm ▸ hcov⟩
  have hedge : ∀ {s o r}, N'.base ≤ s → (o, r) ∈ g'.observers s → r = .merge ∧ (s, o) ∈ N.links := by
    intro s o r hs ho
    rcases Nat.lt_or_ge s g.cells.size with hlt | hge
    · rw [(hold s hlt).2.2] at ho
      exact h.edge s o r (hsub.base ▸ hs) ho
    · rw [(hnew s hge).1] at ho
      cases ho
  refine ⟨?_, ?_, ?_, ?_, ?_, ?_, htasks, ?_, ?_, ?_, ?_⟩
  · exact hsub.base ▸ Nat.le_trans h.base hsize
  · rw [hsub.heap, ← h.heap]
    exact Graph.heap_eq hobjects fun i o ho f hf =>
      (hold f.2 (Nat.lt_of_lt_of_le (h.fields i o ho f hf) h.base)).1
  · intro i o ho f hf
    rw [hsub.base]
    exact h.fields i o (hobjects ▸ ho) f hf
  · intro n hn
    rcases Nat.lt_or_ge n g.cells.size with hlt | hge
    · obtain ⟨name, hname⟩ := h.slot n ⟨hsub.base ▸ hn.1, hlt⟩
      exact ⟨name, (hold n hlt).2.1.trans hname⟩
    · exact (hnew n hge).2.1 hn.2
  · exact fun s o r hs ho => (hedge hs ho).imp_right (hsub.links _)
  · intro n t hn ht
    rcases Nat.lt_or_ge n g.cells.size with hlt | hge
    · exact hsub.carries (h.type n t (hsub.base ▸ hn) ((hold n hlt).1 ▸ ht))
    · exact (hnew n hge).2.2 t ht
  · intro s o hlink
    rcases hlinks s o hlink with hlink | ⟨hs, ho, -⟩
    · exact (h.links s o hlink).imp hvar hvar
    · exact ⟨hs, ho⟩
  · intro s o hlink
    rcases hlinks s o hlink with hlink | ⟨-, -, hwaits⟩
    · rcases h.linked s o hlink with ho | hwaits
      · exact .inl (by rwa [(hold s (h.links s o hlink).1.2).2.2])
      · cases hwaits
    · exact .inr hwaits
  · intro s o hlink ho
    have hs : N'.base ≤ s := by
      rcases hlinks s o hlink with hlink | ⟨hs, -⟩
      · exact (hvar (h.links s o hlink).1).1
      · exact hs.1
    have hlink := (hedge hs ho).2
    obtain ⟨hs, hvar⟩ := h.links s o hlink
    rw [(hold s hs.2).2.2] at ho
    exact (h.told s o hlink ho).mono (by simp) (fun t _ => hholds hvar) (hold s hs.2).1
  · intro n t hmem
    rcases hgiven n t hmem with hmem | hmem
    · obtain ⟨hn, hwaits⟩ := h.given n t hmem
      refine ⟨hvar hn, .inr (hholds hn ?_)⟩
      rcases hwaits with hwaits | hheld
      · cases hwaits
      · exact hheld
    · exact hmem

section begin

variable (h : Spreading N (g, []))
include h

theorem Spreading.begin_addSlot (hequal : Equivalence N.heap.Equal) (name : Option String)
    {t : Option Ty} (ht : ∀ u ∈ t, u.Proper N.heap) :
    Spreading (N.extend g.cells.size [.addSlot name t]) ((g.addSlot name t).1, []) := by
  have hsub := N.sub_extend g.cells.size [.addSlot name t]
  have hsize : (g.addSlot name t).1.cells.size = g.cells.size + 1 := Array.size_push _
  have hgiven : ∀ m u, (m, u) ∈ (N.extend g.cells.size [.addSlot name t]).given →
      (m, u) ∈ N.given ∨ m = g.cells.size ∧ t = some u := by
    intro m u hmem
    simpa [Network.extend, PropagationStep.given, Option.mem_toList, and_comm, eq_comm] using hmem
  refine h.extend hsub rfl (by omega) (fun n hn => ?_) (fun n hn => ?_) (by simp) ?_ ?_
  · have hne : n ≠ g.cells.size := Nat.ne_of_lt hn
    refine ⟨?_, ?_, ?_⟩
    · rw [Graph.addSlot, Graph.type_addCell, if_neg hne]
    · rw [Graph.addSlot, Graph.role_addCell, if_neg hne]
    · rw [Graph.addSlot, Graph.observers_addCell, if_neg hne]
  · rw [Graph.addSlot, Graph.observers_addCell, Graph.role_addCell, Graph.type_addCell]
    by_cases heq : n = g.cells.size
    · subst heq
      simp only [if_true, true_and]
      refine ⟨fun _ => ⟨name, rfl⟩, fun u hu => ?_⟩
      refine .of_given (hsub.heap.symm ▸ hequal) ?_ (hsub.heap.symm ▸ ht u hu)
      simp [Network.extend, PropagationStep.given, hu]
    · simp only [if_neg heq]
      refine ⟨Graph.observers_of_le hn, fun hlt => ?_, fun u hu => ?_⟩
      · rw [Graph.addCell, Array.size_push] at hlt
        omega
      · rw [Graph.type_of_le hn] at hu
        cases hu
  · intro s o hlink
    exact .inl (by simpa [Network.extend, PropagationStep.links] using hlink)
  · intro m u hmem
    refine (hgiven m u hmem).imp_right ?_
    rintro ⟨rfl, rfl⟩
    refine ⟨⟨h.base, hsize ▸ Nat.lt_succ_self _⟩, .inr ⟨u, ?_, Heap.covers_self _ u⟩⟩
    rw [Graph.addSlot, Graph.type_addCell, if_pos rfl]

theorem Spreading.begin_observe {s o : NodeId} (hs : N.Var g s) (ho : N.Var g o) :
    Spreading (N.extend g.cells.size [.observe s o .merge]) (g, [.subscribe s o .merge]) := by
  refine h.extend (N.sub_extend ..) rfl (Nat.le_refl _) (fun _ _ => ⟨rfl, rfl, rfl⟩)
    (fun n hn => ?_) ?_ ?_ ?_
  · refine ⟨Graph.observers_of_le hn, fun hlt => (Nat.not_le_of_lt hlt hn).elim, fun u hu => ?_⟩
    rw [Graph.type_of_le hn] at hu
    cases hu
  · simp [Task.Spreads, Network.extend, PropagationStep.links]
  · intro s' o' hlink
    simp only [Network.extend, PropagationStep.links, List.mem_append, List.mem_singleton] at hlink
    refine hlink.imp_right fun heq => ?_
    cases heq
    exact ⟨hs, ho, List.mem_singleton_self _⟩
  · intro m u hmem
    exact .inl (by simpa [Network.extend, PropagationStep.given] using hmem)

theorem Spreading.begin_addType (hequal : Equivalence N.heap.Equal) (hn : N.Var g n) {t : Option Ty}
    (ht : ∀ u ∈ t, u.Proper N.heap) :
    Spreading (N.extend g.cells.size [.addType n t]) (g, t.toList.map (.widen n)) := by
  have hsub := N.sub_extend g.cells.size [.addType n t]
  have hgiven : ∀ m u, (m, u) ∈ (N.extend g.cells.size [.addType n t]).given ↔
      (m, u) ∈ N.given ∨ m = n ∧ t = some u := by
    intro m u
    simp [Network.extend, PropagationStep.given, and_comm, eq_comm]
  refine h.extend hsub rfl (Nat.le_refl _) (fun _ _ => ⟨rfl, rfl, rfl⟩) (fun m hm => ?_) ?_ ?_ ?_
  · refine ⟨Graph.observers_of_le hm, fun hlt => (Nat.not_le_of_lt hlt hm).elim, fun u hu => ?_⟩
    rw [Graph.type_of_le hm] at hu
    cases hu
  · intro task htask
    obtain ⟨u, hu, rfl⟩ := List.mem_map.mp htask
    have hu := Option.mem_toList.mp hu
    exact ⟨hn, .of_given (hsub.heap.symm ▸ hequal) ((hgiven n u).mpr (.inr ⟨rfl, hu⟩))
      (hsub.heap.symm ▸ ht u hu)⟩
  · intro s o hlink
    exact .inl (by simpa [Network.extend, PropagationStep.links] using hlink)
  · intro m u hmem
    refine ((hgiven m u).mp hmem).imp_right ?_
    rintro ⟨rfl, rfl⟩
    exact ⟨hn, .inl (by simp)⟩

end begin

/-! ## Programs of steps -/

/-- Each of several steps that begin with a settled network finishes, and they extend it. -/
theorem Spreading.steps (hequal : Equivalence N.heap.Equal) (h : Spreading N (g, []))
    {steps : List PropagationStep}
    (hsteps : PropagationStep.Admissible N.heap N.base g.cells.size steps) :
    ∃ g', g.Spreads steps g' ∧ Spreading (N.extend g.cells.size steps) (g', []) := by
  induction steps generalizing N g with
  | nil =>
      refine ⟨g, .nil g, ?_⟩
      simpa [Network.extend, PropagationStep.links, PropagationStep.given] using h
  | cons step rest ih =>
      -- one step extends the network and is run to its end, where the others begin
      have hone : Spreading (N.extend g.cells.size [step]) (g.begin step) →
          PropagationStep.Admissible N.heap N.base (g.begin step).1.cells.size rest →
          (N.extend g.cells.size [step]).extend (g.begin step).1.cells.size rest =
            N.extend g.cells.size (step :: rest) →
          ∃ g', g.Spreads (step :: rest) g' ∧
            Spreading (N.extend g.cells.size (step :: rest)) (g', []) := by
        intro hbegin hrest hext
        have hequal' : Equivalence (N.extend g.cells.size [step]).heap.Equal := hequal
        obtain ⟨budget, g₁, hrun, hsettled, hsize⟩ := hbegin.finishes hequal'
        obtain ⟨g', hspreads, hfinal⟩ := ih hequal' hsettled (hsize.symm ▸ hrest)
        refine ⟨g', .cons budget hrun hspreads, ?_⟩
        rwa [hsize, hext] at hfinal
      cases step with
      | addSlot name t =>
          have hsize : (g.begin (.addSlot name t)).1.cells.size = g.cells.size + 1 :=
            Array.size_push _
          refine hone (h.begin_addSlot hequal name hsteps.1) (hsize ▸ hsteps.2) ?_
          rw [hsize]
          simp [Network.extend, PropagationStep.links, PropagationStep.given]
      | observe s o r =>
          obtain ⟨⟨rfl, hs, ho⟩, hrest⟩ := hsteps
          refine hone (h.begin_observe hs ho) hrest ?_
          simp [Network.extend, Graph.begin, PropagationStep.links, PropagationStep.given]
      | addType n t =>
          obtain ⟨⟨hn, ht⟩, hrest⟩ := hsteps
          refine hone (h.begin_addType hequal hn ht) hrest ?_
          simp [Network.extend, Graph.begin, PropagationStep.links, PropagationStep.given]
      | _ => exact hsteps.elim

/-- The fields of the object types of a graph are among its cells. -/
def Graph.HasFields (g : Graph) : Prop :=
  ∀ (i : ObjId) (o : ObjectType), g.objects[i]? = some o → ∀ f ∈ o.fields, f.2 < g.cells.size

theorem Graph.hasFields_iff :
    g.HasFields ↔ ∀ o ∈ g.objects.toList, ∀ f ∈ o.fields, f.2 < g.cells.size := by
  refine ⟨fun h o ho => ?_, fun h i o ho => h o ?_⟩
  · obtain ⟨i, hi⟩ := List.getElem?_of_mem ho
    exact h i o (by simpa using hi)
  · exact Array.mem_toList_iff.mpr (Array.mem_of_getElem? ho)

instance (g : Graph) : Decidable g.HasFields := decidable_of_iff _ Graph.hasFields_iff.symm

/-- A graph without variables is a settled network without any. -/
theorem Spreading.start (hfields : g.HasFields) :
    Spreading ⟨g.cells.size, g.heap, [], []⟩ (g, []) where
  base := Nat.le_refl _
  heap := rfl
  fields := hfields
  slot n hn := (Nat.not_le_of_lt hn.2 hn.1).elim
  edge s o r hs ho := by
    rw [Graph.observers_of_le hs] at ho
    cases ho
  type n t hn ht := by
    rw [Graph.type_of_le hn] at ht
    cases ht
  tasks t ht := by cases ht
  links s o hlink := by cases hlink
  linked s o hlink := by cases hlink
  told s o hlink := by cases hlink
  given n t hgiven := by cases hgiven

/-- Steps that make variables, edges between variables and types given to variables all finish, in
whatever order they come. They lead to one graph, in which each variable has exactly the members of
what was given to the variables from which it can be reached; and if other steps make the same edges
and give the same types under other names, the variables have equal types there. -/
theorem propagate_closed_form (g : Graph) (hequal : Equivalence g.heap.Equal)
    (hfields : g.HasFields) (steps : List PropagationStep)
    (hsteps : PropagationStep.Admissible g.heap g.cells.size g.cells.size steps) :
    ∃ g', g.Spreads steps g' ∧ (∀ g'', g.Spreads steps g'' → g'' = g') ∧
      (∀ n, g.cells.size ≤ n → (Network.ofSteps g steps).Solves g' n) ∧
      ∀ (π : Equiv.Perm NodeId) (steps' : List PropagationStep) (g'' : Graph),
        PropagationStep.Admissible g.heap g.cells.size g.cells.size steps' →
        g.Spreads steps' g'' →
        (Network.ofSteps g steps).RenamesTo π (Network.ofSteps g steps') →
        (Network.ofSteps g steps').RenamesTo π.symm (Network.ofSteps g steps) →
        ∀ n, g.cells.size ≤ n → g.cells.size ≤ π n →
          g.heap.sameOption (g'.type n) (g''.type (π n)) = true := by
  have hsettle : ∀ {steps : List PropagationStep},
      PropagationStep.Admissible g.heap g.cells.size g.cells.size steps →
      ∃ g', g.Spreads steps g' ∧
        ∀ n, g.cells.size ≤ n → (Network.ofSteps g steps).Solves g' n := by
    intro steps hsteps
    obtain ⟨g', hspreads, hsettled⟩ := (Spreading.start hfields).steps hequal hsteps
    exact ⟨g', hspreads, fun n hn => hsettled.solves hequal hn⟩
  obtain ⟨g', hspreads, hsolves⟩ := hsettle hsteps
  refine ⟨g', hspreads, fun g'' h => h.unique hspreads, hsolves, ?_⟩
  intro π steps' g'' hsteps' hspreads' hπ hπ' n hn hn'
  obtain ⟨g₁, hspreads₁, hsolves₁⟩ := hsettle hsteps'
  obtain rfl := hspreads'.unique hspreads₁
  exact (hsolves n hn).sameOption hequal π hπ hπ' rfl (hsolves₁ (π n) hn')

/-- Object types without fields are equal if they have one name, which is an equivalence. -/
theorem Heap.Flat.equivalence {h : Heap} (hflat : h.Flat) : Equivalence h.Equal where
  refl := Heap.Equal.refl h
  symm hab := hflat.sameAtom_iff.mpr (hflat.sameAtom_iff.mp hab).symm
  trans hab hbc := hflat.sameAtom_iff.mpr
    ((hflat.sameAtom_iff.mp hab).trans (hflat.sameAtom_iff.mp hbc))

/-- Two object types of one class. -/
def boxes : Graph := ((({} : Graph).addObject "Box").1.addObject "Box").1

/-- Two variables observe each other, and the second one is given another type after that. -/
def ring : List PropagationStep :=
  [.addSlot (some "a") (some (.obj 0)), .addSlot (some "b") none, .observe 0 1 .merge,
    .observe 1 0 .merge, .addType 1 (some (.union [.obj 1, .prim "Int"] [.obj 1, .prim "Int"]))]

/-- The same with the variables in the other order, each type being given before it can spread. -/
def turnedRing : List PropagationStep :=
  [.addSlot (some "b") (some (.union [.obj 1, .prim "Int"] [.obj 1, .prim "Int"])),
    .addSlot (some "a") none, .addType 1 (some (.obj 0)), .observe 0 1 .merge, .observe 1 0 .merge]

theorem fields_boxes {i : ObjId} {o : ObjectType} (ho : boxes.objects[i]? = some o) :
    o.fields = [] := by
  have hmem : o ∈ [(⟨"Box", 0, []⟩ : ObjectType), ⟨"Box", 1, []⟩] :=
    Array.mem_toList_iff.mpr (Array.mem_of_getElem? ho)
  rcases List.mem_pair.mp hmem with rfl | rfl <;> rfl

theorem flat_boxes : boxes.heap.Flat := by
  intro i
  simp only [Graph.heap]
  cases ho : boxes.objects[i]? with
  | none => rfl
  | some o => simp [fields_boxes ho]

theorem renames_ring :
    (Network.ofSteps boxes ring).RenamesTo (Equiv.swap 0 1) (Network.ofSteps boxes turnedRing) ∧
      (Network.ofSteps boxes turnedRing).RenamesTo (Equiv.swap 0 1)
        (Network.ofSteps boxes ring) := by
  have hsize : boxes.cells.size = 0 := rfl
  have h₀ : Equiv.swap 0 1 (0 : NodeId) = 1 := Equiv.swap_apply_left 0 1
  have h₁ : Equiv.swap 0 1 (1 : NodeId) = 0 := Equiv.swap_apply_right 0 1
  refine ⟨⟨fun s o h => ?_, fun m t h => ?_⟩, ⟨fun s o h => ?_, fun m t h => ?_⟩⟩ <;>
    simp only [Network.ofSteps, ring, turnedRing, PropagationStep.links, PropagationStep.given,
      hsize, Option.toList, List.map_cons, List.map_nil, List.nil_append, List.append_nil,
      List.cons_append, List.mem_cons, List.not_mem_nil, or_false, Prod.mk.injEq] at h ⊢ <;>
    rcases h with ⟨rfl, rfl⟩ | ⟨rfl, rfl⟩ <;> simp [h₀, h₁]

/-- Both orders lead to equal types. -/
theorem propagate_closed_form_ring :
    let π : Equiv.Perm NodeId := Equiv.swap 0 1
    (Equivalence boxes.heap.Equal ∧ boxes.HasFields ∧
      PropagationStep.Admissible boxes.heap boxes.cells.size boxes.cells.size ring) ∧
    ∃ g', boxes.Spreads ring g' ∧ (∀ n, (Network.ofSteps boxes ring).Solves g' n) ∧
      ∀ g'', boxes.Spreads turnedRing g'' → ∀ n,
        boxes.heap.sameOption (g'.type n) (g''.type (π n)) = true := by
  intro π
  have hequal := flat_boxes.equivalence
  have hfields : boxes.HasFields := by decide +kernel
  have hunion : (Ty.union [.obj 1, .prim "Int"] [.obj 1, .prim "Int"]).Proper boxes.heap :=
    ⟨rfl, by decide, by decide⟩
  have hobj := Heap.proper_one boxes.heap (.obj 0)
  have hsize : boxes.cells.size = 0 := rfl
  have hring : PropagationStep.Admissible boxes.heap boxes.cells.size boxes.cells.size ring := by
    simp [PropagationStep.Admissible, ring, hsize, hunion, hobj, Ty.obj]
  have hturned : PropagationStep.Admissible boxes.heap boxes.cells.size boxes.cells.size
      turnedRing := by
    simp [PropagationStep.Admissible, turnedRing, hsize, hunion, hobj, Ty.obj]
  obtain ⟨g', hspreads, -, hsolves, hother⟩ := propagate_closed_form boxes hequal hfields ring hring
  refine ⟨⟨hequal, hfields, hring⟩, g', hspreads, fun n => hsolves n (Nat.zero_le n),
    fun g'' hg'' n => hother π turnedRing g'' hturned hg'' ?_ ?_ n (Nat.zero_le _) (Nat.zero_le _)⟩
  · exact renames_ring.1
  · rw [Equiv.symm_swap]
    exact renames_ring.2

/-- Three object types of one class. -/
def siblings : Graph := (boxes.addObject "Box").1

/-- Two of them have got fields, which are of different types. -/
def grown : Graph :=
  (siblings.setField 1 "v" (some (.prim "Int"))).setField 2 "v" (some (.prim "Float"))

theorem equivalence_grown : Equivalence grown.heap.Equal := by
  apply Heap.equivalence_of_prims grown.bounded_heap
  · decide +kernel
  · intro i f hf t ht
    match i, hf with
    | 1, hf =>
        cases List.mem_singleton.mp hf
        cases ht
        exact ⟨"Int", rfl⟩
    | 2, hf =>
        cases List.mem_singleton.mp hf
        cases ht
        exact ⟨"Float", rfl⟩

/-- Members that differ now may have been equal when the unions that list them were built. Such
unions count as equal, so that a variable that has one of them does not take the other. -/
theorem propagate_of_outgrown :
    let a : Ty := .union [.obj 0, .obj 1] [.obj 0]
    let b : Ty := .union [.obj 0, .obj 2] [.obj 0]
    let n : NodeId := grown.cells.size
    let steps : List PropagationStep := [
      .addSlot (some "a") (some a), .addSlot (some "b") (some b), .observe (n + 1) n .merge]
    siblings.heap.union? [.obj 0, .obj 1] = some a ∧
      siblings.heap.union? [.obj 0, .obj 2] = some b ∧
      Equivalence grown.heap.Equal ∧ grown.HasFields ∧
      (∀ t ∈ [a, b], t.members.Pairwise fun x y => ¬ grown.heap.Equal x y) ∧
      ∃ g', grown.Spreads steps g' ∧ g'.type n = some a ∧
        ¬ (Network.ofSteps grown steps).Solves g' n := by
  intro a b n steps
  refine ⟨by decide +kernel, by decide +kernel, equivalence_grown, by decide +kernel,
    by decide +kernel, _,
    .cons 9 (Prod.ext rfl (by decide +kernel)) (.cons 9 (Prod.ext rfl (by decide +kernel))
      (.cons 9 (Prod.ext rfl (by decide +kernel)) (.nil _))), by decide +kernel, fun hsolves => ?_⟩
  have hlink : (n + 1, n) ∈ (Network.ofSteps grown steps).links := by decide +kernel
  have hgiven : (n + 1, b) ∈ (Network.ofSteps grown steps).given := by decide +kernel
  have hcov := hsolves.covers a (by decide +kernel) (n + 1) b hgiven (.single hlink)
  obtain ⟨x, hx, heq⟩ := hcov (.obj 2) (by decide)
  have hnone : ∀ x ∈ a.members, ¬ grown.heap.Equal x (.obj 2) := by decide +kernel
  exact hnone x hx heq

end TypeFlow
