import TypeFlow.Proofs.Answering

/-! # Whatever can be derived is found

When nothing waits any more, every type that the rules allow has come to the cells it is allowed in,
and every method has the instances that something asks for. -/

namespace TypeFlow

variable {P : Program} {L L' : Labels} {g g' : Graph} {task : Task} {ts rest : List Task}

/-! ## Runs -/

/-- What is known of a configuration that the run over a program comes to: nothing that is to
be done is forgotten. -/
structure Attended (P : Program) (L : Labels) (c : Graph.Config) : Prop where
  underway : Underway P L c
  outlined : Outlined L c.1
  wired : Wired L c.1 c.2
  hears : Hears L c.1 c.2
  seeded : Seeded L c.1 c.2
  named : Named L c.1
  supplied : Supplied P c.1
  answering : Answering P L c.1 c.2
  staffed : Staffed L c.1 c.2

theorem Attended.loaded (P : Program) :
    Attended P (Labels.loaded P.tree) (Graph.loaded P.tree, [.visit 0 P.tree rootOf]) where
  underway := .loaded P
  outlined := outlined_loaded P.tree
  wired := wired_loaded P.tree
  hears := hears_loaded P.tree
  seeded := seeded_loaded P.tree
  named := by
    intro v w x hv
    rcases label_loaded hv with ⟨heq, -⟩ | ⟨q, -, -, heq⟩ <;> cases heq
  supplied := by
    intro w f x t hf hx
    cases hf with
    | main => exact hx.elim
    | inst hy hw => exact (not_walked_loaded P.tree hy hw).elim
  answering := fun _ hlinked _ => (not_linked_loaded P.tree _ hlinked).elim
  staffed := by
    intro d y r as hd
    rcases label_loaded hd with ⟨heq, -⟩ | ⟨q, -, -, heq⟩ <;> cases heq

theorem Attended.step (h : Attended P L (g, task :: rest)) (hp : g.perform task = (g', .ok ts)) :
    Attended P (L.performed g task) (g', ts ++ rest) := by
  have hS := h.underway.sound.graph
  have hok := h.underway.sound.tasks task (List.mem_cons_self ..)
  exact {
    underway := h.underway.step hp
    outlined := outlined_step hS hok hp h.outlined
    wired := wired_step hS hok hp h.wired
    hears := hears_step hS hok hp h.hears
    seeded := seeded_step hS hok hp h.seeded fun t ht =>
      h.underway.sound.tasks t (List.mem_cons_of_mem _ ht)
    named := named_step h.underway hp h.named
    supplied := supplied_step h.underway h.seeded hp h.supplied
    answering := answering_step h.underway hp h.hears h.answering
    staffed := staffed_step h.underway hp h.staffed }

theorem Course.attended {c c' : Graph.Config} (h : Course L c L' c') (hc : Attended P L c) :
    Attended P L' c' := by
  induction h with
  | done => exact hc
  | step hp _ ih => exact ih (hc.step hp)

/-- What is known of a graph when nothing waits any more. -/
structure Completed (P : Program) (L : Labels) (g : Graph) : Prop where
  attended : Attended P L (g, [])
  warranted : Warranted P L g L (g, [])
  spread : ∀ {s o}, (o, .merge) ∈ g.observers s → g.tagsAt s ⊆ g.tagsAt o

/-- The run over a program that finishes leaves nothing to be done. -/
theorem completed_of_passes {all : List Task}
    (h : Graph.Passes (Graph.loaded P.tree, [.visit 0 P.tree rootOf]) all (g, [])) :
    ∃ L, Completed P L g := by
  obtain ⟨L, hcourse⟩ := h.course (Labels.loaded P.tree)
  have hA := hcourse.attended (.loaded P)
  exact ⟨L, hA, hcourse.warranted.2, tagsAt_subset_of_finished P.fieldFree h⟩

/-- A walk goes over the body of an instance for concrete types, and something asks for it. -/
structure Graph.Opens (P : Program) (L : Labels) (g : Graph) (b : Expr) (y : Instance) (w : WalkId)
    (as : List Atom) : Prop where
  walk : y.walk = some w
  params : y.params = as.map fun a => some (.one a)
  body : L y.body = some (.node w y.body none b)
  frame : g.Framed w (.inst y.method (y.owner.map g.heap.tag) (as.map g.heap.tag))
  reached : P.Derives (.reached (.inst y.method (y.owner.map g.heap.tag) (as.map g.heap.tag)))

namespace Completed

variable (h : Completed P L g)
include h

theorem duty {n : NodeId} {w : WalkId} {r : NodeId} {k : Option String} {e : Expr}
    (hn : L n = some (.node w r k e)) : g.Duty [] w n e := by
  rcases h.attended.wired hn with ⟨e', k', i, hmem, -⟩ | hduty
  · cases hmem
  · exact hduty

/-- What a node merges, its type has. -/
theorem spread_observes {s o : NodeId} (hobs : g.Observes [] s o .merge) :
    g.tagsAt s ⊆ g.tagsAt o := by
  rcases hobs with hedge | hmem
  · exact h.spread (Graph.has_edge.mp hedge)
  · cases hmem

/-- A type of some cell has a member. -/
theorem tagsAt_nonempty {n : NodeId} {T : Ty} (hT : g.type n = some T) : (g.tagsAt n).Nonempty := by
  rw [Graph.tagsAt_of_type hT]
  exact (h.attended.underway.tame.graph.typed hT).tags_nonempty

/-- The rules allow the types that the cells have. -/
theorem allows {n : NodeId} {t : Tag} (ht : t ∈ g.tagsAt n) : P.Allows L g n t := by
  obtain ⟨T, hT, hmem⟩ := Graph.mem_tagsAt.mp ht
  obtain ⟨a, ha, rfl⟩ := Heap.mem_tags.mp hmem
  exact h.warranted.typed hT a ha

/-- All definitions were made. -/
theorem booked : Graph.Booked P.tables g := by
  cases h.attended.underway.phase with
  | start _ hts => cases hts
  | defining ds hnil hts =>
      cases ds with
      | nil => exact (hnil rfl).elim
      | cons => cases hts
  | doing hB => exact hB

/-! ### Instances -/

/-- An instance is kept with the types of its parameters. -/
theorem params_of_keeps {r : Option Tag} {name : String} {as : List Tag} {y : Instance}
    (hy : g.KeepsFor P r name as y) {m : NodeId} (hm : P.tables.find? r name = some m) :
    ∃ i, g.instances[i]? = some y ∧ y.method = m ∧ g.Has (.mark m (.cached y.params i)) ∧
      g.heap.tagRow y.params = as.map fun t => some {t} := by
  obtain ⟨m', key, i, hfind, hkey, hrow, hi⟩ := hy
  rw [hm] at hfind
  cases hfind
  obtain ⟨-, x, hx, hmethod⟩ := h.attended.underway.sound.graph.entries hkey
  rw [hi] at hx
  cases hx
  obtain ⟨x, hx, rfl⟩ := h.attended.underway.keyed _ _ _ hkey
  rw [hi] at hx
  cases hx
  exact ⟨i, hi, hmethod, hkey, hrow⟩

/-- A walk goes over the body of each instance of a method of the program. -/
theorem opens_of_cached {m : NodeId} {key : List (Option Ty)} {i : InstanceId}
    (hkey : g.Has (.mark m (.cached key i))) {ps : List String} {b : Expr} (hcode : P.Code m ps b) :
    ∃ y w as, g.instances[i]? = some y ∧ y.method = m ∧ y.params = key ∧ g.Opens P L b y w as := by
  have hU := h.attended.underway
  obtain ⟨-, y, hi, rfl⟩ := hU.sound.graph.entries hkey
  obtain ⟨y', hi', hparams⟩ := hU.keyed _ _ _ hkey
  rw [hi] at hi'
  cases hi'
  cases hw : y.walk with
  | none =>
      obtain ⟨k, nm, ps', hlabel, -⟩ := hU.label_of_code hcode
      have hlt := (builtin_of_start (hU.stocked.inst hi hw)).1
      rw [(hU.stocked.label _).mpr hlt] at hlabel
      cases hlabel
  | some w =>
      obtain ⟨as, has, -⟩ := hU.furnished.params hi hw
      have hframed := Graph.Framed.inst hi hw has
      exact ⟨y, w, as, hi, rfl, hparams, hw, has, hU.body_label hi hw hcode, hframed,
        h.warranted.inst hi hw hframed⟩

/-- The walk is in the frame for the types that the instance is kept for. -/
theorem framed_of_keeps {r : Option Tag} {name : String} {as : List Tag} {y : Instance}
    (hy : g.KeepsFor P r name as y) {m : NodeId} (hm : P.tables.find? r name = some m)
    {ps : List String} {b : Expr} (hcode : P.Code m ps b) :
    ∃ w, g.Framed w (.inst m r as) ∧ L y.body = some (.node w y.body none b) ∧
      P.Derives (.reached (.inst m r as)) := by
  obtain ⟨i, hi, -, hkey, hrow⟩ := h.params_of_keeps hy hm
  obtain ⟨y', w, as', hi', rfl, -, hopens⟩ := h.opens_of_cached hkey hcode
  rw [hi] at hi'
  cases hi'
  have hframe := hopens.frame
  have hreached := hopens.reached
  rw [hopens.params, Heap.tagRow_concrete] at hrow
  rw [singletons_injective.list_map hrow] at hframe hreached
  cases id hreached with
  | inst _ hfind _ _ =>
      rw [P.filed.unique hfind hm] at hframe hreached
      exact ⟨w, hframe, hopens.body, hreached⟩

/-- An instance that is kept serves calls with such inputs. -/
theorem serves_of_keeps {r : Option Tag} {name : String} {as : List Tag} {y : Instance}
    (hy : g.KeepsFor P r name as y) : P.Serves r name as := by
  have hU := h.attended.underway
  obtain ⟨m, -, -, hm, -⟩ := id hy
  obtain ⟨i, hi, rfl, hkey, hrow⟩ := h.params_of_keeps hy hm
  refine ⟨_, hm, ?_⟩
  rcases hU.sound.graph.entries (e := .inst i y) hi with
    ⟨hw, -⟩ | ⟨w, v, q, k, nm, ps, b, hw, -, hlabel, -⟩
  · have hstart := hU.stocked.inst hi hw
    obtain ⟨hlt, T, hT⟩ := builtin_of_start hstart
    have hcached := hU.stocked.cached hlt hkey
    obtain ⟨a, ha⟩ := List.exists_mem_of_ne_nil _ (Sound.start.typed hT).2.1.members_ne_nil
    exact .inr ⟨_, _, i, y, T, hcached, hstart, (tagRow_of_start hcached ..).trans hrow, hT,
      Heap.mem_tags.mpr ⟨a, ha, rfl⟩⟩
  · have hcode := Homed.code hU.homed hlabel
    obtain ⟨-, -, -, hreached⟩ := h.framed_of_keeps hy hm hcode
    cases hreached with
    | inst _ _ hcode' hlen => exact .inl ⟨_, _, hcode', hlen⟩

/-! ### Calls -/

/-- A call whose inputs have these types, by name, keeps up with an instance for them. -/
theorem keeps_of_given {c : NodeId} {s : Site} (hs : g.site? c = some s) (hlinked : g.Linked c)
    {receiver : Option Ty} {args : List Ty} (hin : g.inputs? s = some (receiver, args))
    {r : Option Atom} {as : List Atom} (hch : Ty.Chosen receiver args r as) :
    ∃ y, g.KeepsFor P (r.map g.heap.tag) s.name.text (as.map g.heap.tag) y ∧
      g.tagsAt y.body ⊆ g.tagsAt c := by
  have hU := h.attended.underway
  have hS : Sound L g := hU.sound.graph
  have hanswered : ∀ {c s receiver args}, g.site? c = some s → g.Linked c →
      g.inputs? s = some (receiver, args) → g.Answered P L [] c s.name.text receiver args := by
    intro c s receiver args hs hlinked hin
    rcases h.attended.answering hs hlinked hin with ⟨t, ht, -⟩ | hans
    · cases ht
    · exact hans
  cases hanswered hs hlinked hin with
  | inst hy hobs =>
      obtain ⟨rfl, rfl⟩ := hch.eq_of_concrete
      exact ⟨_, hy, h.spread_observes hobs⟩
  | @dispatch d y _ _ hmixed hd hname hrow hobs =>
      obtain ⟨r', as', hch', hr, has⟩ := hch.congr hrow.symm
      rcases h.attended.staffed hd hch' with hwait | ⟨c', hc', hlinked', ⟨s', hs', hin'⟩, hobs'⟩
      · cases hwait
      · obtain ⟨x, hx, hname', -, -⟩ := hS.site_of_member hs' hc'
        rw [hd] at hx
        cases hx
        have hself := Ty.Chosen.concrete r' as'
        have hans := hanswered hs' hlinked' hin'
        generalize hR : r'.map Ty.one = R at hans hself
        generalize hA : as'.map Ty.one = A at hans hself
        cases hans with
        | @inst r'' as'' y' hy' hobs'' =>
            obtain ⟨rfl, rfl⟩ := hself.eq_of_concrete
            rw [hr, has, hname', hname] at hy'
            exact ⟨y', hy', (h.spread_observes hobs'').trans
              ((h.spread_observes hobs').trans (h.spread_observes hobs))⟩
        | dispatch hmixed' =>
            subst hR hA
            cases r' <;> simp [Ty.isMixed] at hmixed'

omit h in
theorem exists_toList {α : Type} {l : List α} (hl : l.length ≤ 1) : ∃ o : Option α, l = o.toList := by
  cases l with
  | nil => exact ⟨none, rfl⟩
  | cons a l =>
      cases l with
      | nil => exact ⟨some a, rfl⟩
      | cons => simp at hl

omit h in
/-- Inputs that have some types among theirs are given, and these are a choice from what is given. -/
theorem exists_chosen {xs : List (Nat × Expr)} {ts : List Tag} (hlen : xs.length = ts.length)
    (hxs : ∀ x t, (x, t) ∈ xs.zip ts → t ∈ g.tagsAt x.1) :
    ∃ (Ts : List Ty) (as : List Atom), List.Forall₂ (fun v T => g.type v = some T) (xs.map (·.1)) Ts ∧
      List.Forall₂ (fun a T => a ∈ T.members) as Ts ∧ as.map g.heap.tag = ts := by
  induction xs generalizing ts with
  | nil =>
      cases ts with
      | nil => exact ⟨[], [], .nil, .nil, rfl⟩
      | cons => cases hlen
  | cons x xs ih =>
      cases ts with
      | nil => cases hlen
      | cons t ts =>
          obtain ⟨Ts, as, hTs, has, htags⟩ := ih (Nat.succ.inj hlen) fun x' t' hmem =>
            hxs x' t' (List.mem_cons_of_mem _ hmem)
          obtain ⟨T, hT, hmem⟩ := Graph.mem_tagsAt.mp (hxs x t (List.mem_cons_self ..))
          obtain ⟨a, ha, rfl⟩ := Heap.mem_tags.mp hmem
          exact ⟨T :: Ts, a :: as, .cons hT hTs, .cons ha has, by rw [List.map_cons, htags]⟩

/-- A call that a walk comes to and whose inputs have some types among theirs has inputs from which
these can be chosen. -/
theorem exists_inputs {c : NodeId} {w : WalkId} {root : NodeId} {k : Option String}
    {rc : Option Expr} {nm : Token} {es : List Expr} {p : Bool}
    (hc : L c = some (.node w root k (.call rc nm es p)))
    (hnew : (Expr.call rc nm es p).isNew = false) {r : Option Tag} {as : List Tag}
    (hmatch : Expr.Matches rc es r as)
    (hin : ∀ e t, (e, t) ∈ Expr.given rc es r as → ∀ {n : NodeId} {k},
      L n = some (.node w root k e) → t ∈ g.tagsAt n) :
    ∃ s receiver args r' as', g.site? c = some s ∧ g.Linked c ∧ s.name = nm ∧
      g.inputs? s = some (receiver, args) ∧ Ty.Chosen receiver args r' as' ∧
      r'.map g.heap.tag = r ∧ as'.map g.heap.tag = as := by
  have hS : Sound L g := h.attended.underway.sound.graph
  have hduty := h.duty hc
  simp only [Graph.Duty, hnew, Bool.false_eq_true, if_false] at hduty
  obtain ⟨s, hs, -⟩ := id hduty.1
  obtain ⟨hreceiver, hargs, hname, -⟩ := hS.site_of_node hs hc
  let rs := rc.toList.map fun e => ((c : Nat) + 1, e)
  let xs := Expr.spread ((c : Nat) + 1 + Expr.sizeOption rc) es
  have hpart : ∀ x ∈ rs ++ xs, L x.1 = some (.node w root k x.2) :=
    fun x hx => hS.part hc (hS.input_part hc hnew hx).1
  have hzip : ∀ {ys : List (Nat × Expr)} {ts : List Tag}, (∀ x ∈ ys, x ∈ rs ++ xs) →
      (∀ e t, (e, t) ∈ (ys.map (·.2)).zip ts → (e, t) ∈ Expr.given rc es r as) →
      ∀ x t, (x, t) ∈ ys.zip ts → t ∈ g.tagsAt x.1 := by
    intro ys ts hys hgiven x t hmem
    refine hin x.2 t (hgiven _ _ ?_) (hpart x (hys x (List.of_mem_zip hmem).1))
    rw [List.zip_map_left]
    exact List.mem_map_of_mem (f := Prod.map (·.2) id) hmem
  have hrlen : rs.length = r.toList.length := by
    have := hmatch.1
    cases rc <;> cases r <;> simp_all [rs]
  have halen : xs.length = as.length := by rw [Expr.length_spread, hmatch.2]
  obtain ⟨Rs, ras, hRs, hras, hrtags⟩ := exists_chosen hrlen
    (hzip (fun x hx => List.mem_append_left _ hx) fun e t hmem => by
      refine List.mem_append_left _ ?_
      simpa [rs, Function.comp_def] using hmem)
  obtain ⟨Ts, as', hTs, has, htags⟩ := exists_chosen halen
    (hzip (fun x hx => List.mem_append_right _ hx) fun e t hmem => by
      refine List.mem_append_right _ ?_
      rwa [Expr.spread_map_snd] at hmem)
  have hlen : ras.length = r.toList.length := by rw [← hrtags, List.length_map]
  obtain ⟨receiver, rfl⟩ := exists_toList (l := Rs) (by
    rw [← hras.length_eq, hlen]
    cases r <;> simp)
  obtain ⟨r', rfl⟩ := exists_toList (l := ras) (by
    rw [hlen]
    cases r <;> simp)
  refine ⟨s, receiver, Ts, r', as', hs, hduty.1, hname, ?_, ⟨hras, has⟩, ?_, htags⟩
  · exact Graph.inputs?_eq_some_iff.mpr ⟨by rw [hreceiver]; exact hRs, by rw [hargs]; exact hTs⟩
  · cases r <;> cases r' <;> simp_all

/-- A call that a walk comes to and whose inputs have some types is given them. -/
theorem keeps_of_inputs {c : NodeId} {w : WalkId} {root : NodeId} {k : Option String}
    {rc : Option Expr} {nm : Token} {es : List Expr} {p : Bool}
    (hc : L c = some (.node w root k (.call rc nm es p)))
    (hnew : (Expr.call rc nm es p).isNew = false) {r : Option Tag} {as : List Tag}
    (hmatch : Expr.Matches rc es r as)
    (hin : ∀ e t, (e, t) ∈ Expr.given rc es r as → ∀ {n : NodeId} {k},
      L n = some (.node w root k e) → t ∈ g.tagsAt n) :
    ∃ y, g.KeepsFor P r nm.text as y ∧ g.tagsAt y.body ⊆ g.tagsAt c := by
  obtain ⟨s, receiver, args, r', as', hs, hlinked, rfl, hinputs, hch, rfl, rfl⟩ :=
    h.exists_inputs hc hnew hmatch hin
  exact h.keeps_of_given hs hlinked hinputs hch

end Completed

/-! ## What can be derived -/

/-- A fact about the program holds of a graph. -/
def Graph.Present (P : Program) (L : Labels) (g : Graph) : Fact → Prop
  | .reached f => ∃ w, g.Framed w f
  | .type f e t => ∀ {n : NodeId} {w r k}, L n = some (.node w r k e) → g.Framed w f →
      t ∈ g.tagsAt n
  | .var f x t => ∀ {w v}, g.Framed w f → g.Has (.var w x v) → t ∈ g.tagsAt v
  | .asked r x as => ∃ y, g.KeepsFor P r x as y
  | .result r x as t => ∀ {y}, g.KeepsFor P r x as y → t ∈ g.tagsAt y.body

namespace Completed

variable (h : Completed P L g)
include h

theorem place_unique {w : WalkId} {x : String} {v v' : NodeId} (hv : g.Has (.var w x v))
    (hv' : g.Has (.var w x v')) : v = v' := by
  have hS : Sound L g := h.attended.underway.sound.graph
  have hlookup := h.attended.named (hS.entries hv)
  rw [h.attended.named (hS.entries hv')] at hlookup
  exact (Option.some.inj hlookup).symm

/-- A node that has its type from itself has it. -/
theorem own_mem {n : NodeId} {w : WalkId} {r : NodeId} {k : Option String} {e : Expr} {f : Frame}
    {t : Tag} (hn : L n = some (.node w r k e)) (hf : g.Framed w f) (ht : e.own? = some t) :
    t ∈ g.tagsAt n := by
  have hsettled : g.Settled [] n := by
    have hduty := h.duty hn
    cases e with
    | literal | loop => exact hduty
    | place | const | assign | cond | method | klass => cases ht
    | block es =>
        cases es with
        | nil => exact hduty
        | cons => cases ht
    | call rc nm es p =>
        cases hnew : (Expr.call rc nm es p).isNew with
        | true => simpa [Graph.Duty, hnew] using hduty
        | false =>
            rw [Expr.own_call hnew] at ht
            cases ht
  rcases hsettled with htype | ⟨T, hT⟩
  · obtain ⟨T, hT⟩ := Option.ne_none_iff_exists'.mp htype
    obtain ⟨t', ht'⟩ := h.tagsAt_nonempty hT
    have hallows := h.allows ht'
    rw [Program.Allows, hn] at hallows
    rwa [← (Program.derives_own ht).mp (hallows f hf)]
  · cases hT

/-- Whatever can be derived is there. -/
theorem present {fact : Fact} (hd : P.Derives fact) : g.Present P L fact := by
  have hU := h.attended.underway
  have hS : Sound L g := hU.sound.graph
  induction hd with
  | main => exact ⟨0, .main⟩
  | inst _ hm hcode _ ih =>
      obtain ⟨y, hy⟩ := ih
      obtain ⟨w, hf, -⟩ := h.framed_of_keeps hy hm hcode
      exact ⟨w, hf⟩
  | own ht => exact fun hn hf => h.own_mem hn hf ht
  | @last f es e t hlast _ ih =>
      intro n w r k hn hf
      have hduty := h.duty hn
      rw [← Expr.getLast?_spread ((n : Nat) + 1) es] at hlast
      obtain ⟨x, hx, rfl⟩ := Option.map_eq_some_iff.mp hlast
      simp only [Graph.Duty, hx] at hduty
      refine h.spread_observes hduty (ih (r := r) (k := k) ?_ hf)
      exact hS.part hn (p := ⟨x.1, k, x.2⟩) (List.mem_map_of_mem (List.mem_of_getLast? hx))
  | @yes f c y no t _ ih =>
      intro n w r k hn hf
      exact h.spread_observes (h.duty hn).1
        (ih (hS.part hn (p := ⟨n + 1 + c.size, k, y⟩) (by simp [Expr.parts])) hf)
  | @no f c y no t he _ ih =>
      intro n w r k hn hf
      exact h.spread_observes ((h.duty hn).2 he)
        (ih (hS.part hn (p := ⟨n + 1 + c.size + y.size, k, no⟩) (by simp [Expr.parts])) hf)
  | @assign f p v t _ ih =>
      intro n w r k hn hf
      exact h.spread_observes (h.duty hn).1
        (ih (hS.part hn (p := ⟨n + 2, k, v⟩) (by simp [Expr.parts])) hf)
  | @place f p t _ ih =>
      intro n w r k hn hf
      have hlocal := (hU.tame.graph.within hn).place
      rcases h.duty hn with ⟨v, hplace, hobs⟩ | ⟨m, -, hmem⟩
      · simp only [Graph.PlaceAt, hlocal] at hplace
        exact h.spread_observes hobs (ih hf hplace)
      · cases hmem
  | @assigned f p e t hh _ ih =>
      intro w v hf hv
      obtain ⟨n, r, k, hn⟩ := hU.label_of_holds hh hf
      have hlocal := (hU.tame.graph.within hn).target
      rcases (h.duty hn).2 with ⟨v', hplace, hobs⟩ | hmem
      · simp only [Graph.PlaceAt, hlocal] at hplace
        rw [h.place_unique hv hplace]
        exact h.spread_observes hobs (ih hn hf)
      · cases hmem
  | input hi =>
      intro w v hf hv
      obtain ⟨v', hv', ht⟩ := h.attended.supplied hf hi
      rwa [h.place_unique hv hv']
  | ask _ hh hnew hmatch _ ihf ih =>
      obtain ⟨w, hf⟩ := ihf
      obtain ⟨n, r, k, hn⟩ := hU.label_of_holds hh hf
      obtain ⟨y, hy, -⟩ := h.keeps_of_inputs hn hnew hmatch fun e t hmem m k hm => ih e t hmem hm hf
      exact ⟨y, hy⟩
  | call hnew hmatch _ _ ih ihr =>
      intro n w r k hn hf
      obtain ⟨y, hy, hsub⟩ := h.keeps_of_inputs hn hnew hmatch
        fun e t hmem m k hm => ih e t hmem hm hf
      exact hsub (ihr hy)
  | body hm hcode _ _ ih =>
      intro y hy
      obtain ⟨w, hf, hlabel, -⟩ := h.framed_of_keeps hy hm hcode
      exact ih hlabel hf
  | @native r x as m t hm hn =>
      intro y hy
      obtain ⟨key, i, z, T, hcached, hz, hrow, hT, ht⟩ := hn
      obtain ⟨j, hj, -, hkey, hrow'⟩ := h.params_of_keeps hy hm
      have hcached' := hU.stocked.cached (lt_of_start hcached) hkey
      obtain rfl := unique_row_of_start hcached hcached' (hrow.trans hrow'.symm)
      rw [hU.stocked.grows.inst hz] at hj
      cases hj
      rwa [Graph.tagsAt_of_type (hU.stocked.type_of_start hT),
        hU.stocked.grows.tags_eq (Sound.start.typed hT).2.1]

/-- Nothing is derived but what is there, and nothing else is there. -/
theorem tagsAt_iff {n : NodeId} {w : WalkId} {r : NodeId} {k : Option String} {e : Expr} {f : Frame}
    (hn : L n = some (.node w r k e)) (hf : g.Framed w f) {t : Tag} :
    t ∈ g.tagsAt n ↔ P.Derives (.type f e t) := by
  refine ⟨fun ht => ?_, fun hd => h.present hd hn hf⟩
  have hallows := h.allows ht
  rw [Program.Allows, hn] at hallows
  exact hallows f hf

/-- No error can be derived of a program that finishes. -/
theorem not_fails : ¬ P.Fails := by
  have hU := h.attended.underway
  intro hfails
  cases hfails with
  | call hasked hserves =>
      obtain ⟨y, hy⟩ := h.present hasked
      exact hserves (h.serves_of_keeps hy)
  | @new f c nm es p hreached hholds hname hclass =>
      obtain ⟨w, hf⟩ := h.present hreached
      obtain ⟨n, r, k, hn⟩ := hU.label_of_holds hholds hf
      have htag := h.own_mem hn hf (t := .obj c.text) (by simp [Expr.own?, hname])
      obtain ⟨T, hT, hmem⟩ := Graph.mem_tagsAt.mp htag
      obtain ⟨a, ha, htag⟩ := Heap.mem_tags.mp hmem
      cases a with
      | prim => cases htag
      | obj i =>
          obtain ⟨o, ho⟩ := (hU.sound.graph.typed hT).2.1.1 i ha
          obtain ⟨j, q, hlookup, -⟩ := h.booked.object ho
          have honame : o.name = c.text := by simpa [Heap.tag, Graph.heap, ho] using htag
          rw [honame, hclass] at hlookup
          cases hlookup

end Completed

end TypeFlow
