import TypeFlow.Proofs.Allocating

/-! # Dispatches and their members

A call with a union among its inputs is given a dispatch, which has a member for each choice of
concrete types. Both are new to the labelling, and change nothing that it says. -/

namespace TypeFlow

/-! ## Inputs and choices -/

theorem exists_of_forall₂ {α β : Type} {R : α → β → Prop} {xs : List α} {ys : List β}
    (h : List.Forall₂ R xs ys) {x : α} (hx : x ∈ xs) : ∃ y ∈ ys, R x y := by
  induction h with
  | nil => cases hx
  | cons hxy _ ih =>
      rcases List.mem_cons.mp hx with rfl | hx
      · exact ⟨_, List.mem_cons_self .., hxy⟩
      · obtain ⟨y, hy, hxy⟩ := ih hx
        exact ⟨y, List.mem_cons_of_mem _ hy, hxy⟩

theorem mapM_eq_some_iff {α β : Type} {f : α → Option β} {xs : List α} {ys : List β} :
    xs.mapM f = some ys ↔ List.Forall₂ (fun x y => f x = some y) xs ys := by
  induction xs generalizing ys with
  | nil => simp [eq_comm]
  | cons x xs ih =>
      rw [List.mapM_cons]
      constructor
      · intro h
        obtain ⟨y, hy, h⟩ := Option.bind_eq_some_iff.mp h
        obtain ⟨zs, hzs, h⟩ := Option.bind_eq_some_iff.mp h
        cases h
        exact .cons hy (ih.mp hzs)
      · rintro (_ | ⟨hy, hzs⟩)
        simp [hy, ih.mpr hzs]

/-- The inputs of a call are known once each of them has a type. -/
theorem Graph.inputs?_eq_some_iff {g : Graph} {s : Site} {receiver : Option Ty} {args : List Ty} :
    g.inputs? s = some (receiver, args) ↔
      List.Forall₂ (fun v t => g.type v = some t) s.receiver.toList receiver.toList ∧
        List.Forall₂ (fun v t => g.type v = some t) s.args args := by
  unfold inputs?
  constructor
  · intro h
    obtain ⟨ts, hts, h⟩ := Option.bind_eq_some_iff.mp h
    refine ⟨?_, ?_⟩
    · cases hr : s.receiver with
      | none =>
          simp only [hr] at h
          cases h
          exact .nil
      | some v =>
          simp only [hr] at h
          obtain ⟨t, ht, h⟩ := Option.bind_eq_some_iff.mp h
          cases h
          exact .cons ht .nil
    · have hargs : ts = args := by
        cases hr : s.receiver with
        | none =>
            simp only [hr] at h
            cases h
            rfl
        | some v =>
            simp only [hr] at h
            obtain ⟨t, ht, h⟩ := Option.bind_eq_some_iff.mp h
            cases h
            rfl
      exact mapM_eq_some_iff.mp (hargs ▸ hts)
  · rintro ⟨hr, hargs⟩
    rw [mapM_eq_some_iff.mpr hargs]
    cases hs : s.receiver with
    | none =>
        rw [hs] at hr
        cases receiver with
        | none => rfl
        | some t => cases hr
    | some v =>
        rw [hs] at hr
        cases receiver with
        | none => cases hr
        | some t =>
            obtain ⟨hv, -⟩ := List.forall₂_cons.mp hr
            simp [hv]

/-- Each type among the inputs is that of a node. -/
theorem Graph.exists_of_inputs {g : Graph} {s : Site} {receiver : Option Ty} {args : List Ty}
    (h : g.inputs? s = some (receiver, args)) {t : Ty} (ht : t ∈ receiver.toList ++ args) :
    ∃ v ∈ s.inputs, g.type v = some t := by
  obtain ⟨hr, hargs⟩ := Graph.inputs?_eq_some_iff.mp h
  rcases List.mem_append.mp ht with ht | ht
  · obtain ⟨v, hmem, hv⟩ := exists_of_forall₂ hr.flip ht
    exact ⟨v, List.mem_append_left _ hmem, hv⟩
  · obtain ⟨v, hmem, hv⟩ := exists_of_forall₂ hargs.flip ht
    exact ⟨v, List.mem_append_right _ hmem, hv⟩

theorem mem_choices {α : Type} {xs : List α} {ls : List (List α)} :
    xs ∈ choices ls ↔ List.Forall₂ (· ∈ ·) xs ls := by
  induction ls generalizing xs with
  | nil => simp [choices]
  | cons l ls ih =>
      simp only [choices, List.mem_flatMap, List.mem_map]
      constructor
      · rintro ⟨x, hx, ys, hys, rfl⟩
        exact .cons hx (ih.mp hys)
      · rintro (_ | ⟨hx, hys⟩)
        exact ⟨_, hx, _, ih.mpr hys, rfl⟩

namespace Graph

theorem mem_memberTasks {d : NodeId} {receiver : Option Ty} {args : List Ty} {task : Task} :
    task ∈ memberTasks d receiver args ↔ ∃ r as, task = .member d r as ∧
      List.Forall₂ (fun a t => a ∈ t.members) r.toList receiver.toList ∧
        List.Forall₂ (fun a t => a ∈ t.members) as args := by
  have hargs : ∀ as, as ∈ choices (args.map Ty.members) ↔
      List.Forall₂ (fun a t => a ∈ t.members) as args := by
    intro as
    rw [mem_choices, List.forall₂_map_right_iff]
  simp only [memberTasks, List.mem_flatMap, List.mem_map, hargs]
  constructor
  · rintro ⟨r, hr, as, has, rfl⟩
    refine ⟨r, as, rfl, ?_, has⟩
    cases receiver with
    | none =>
        obtain rfl := List.mem_singleton.mp hr
        exact .nil
    | some t =>
        obtain ⟨a, ha, rfl⟩ := List.mem_map.mp hr
        exact .cons ha .nil
  · rintro ⟨r, as, rfl, hr, has⟩
    refine ⟨r, ?_, as, has, rfl⟩
    cases receiver with
    | none =>
        cases r with
        | none => simp
        | some a => cases hr
    | some t =>
        cases r with
        | none => cases hr
        | some a => simpa using hr

/-- The types that a member is made for are members of the types that the dispatch is for. -/
theorem exists_of_memberTasks {d d' : NodeId} {receiver : Option Ty} {args : List Ty}
    {r : Option Atom} {as : List Atom} (h : .member d' r as ∈ memberTasks d receiver args)
    {a : Atom} (ha : a ∈ r.toList ++ as) : ∃ t ∈ receiver.toList ++ args, a ∈ t.members := by
  obtain ⟨_, _, heq, hr, has⟩ := mem_memberTasks.mp h
  cases heq
  rcases List.mem_append.mp ha with ha | ha
  · obtain ⟨t, ht, hat⟩ := exists_of_forall₂ hr ha
    exact ⟨t, List.mem_append_left _ ht, hat⟩
  · obtain ⟨t, ht, hat⟩ := exists_of_forall₂ has ha
    exact ⟨t, List.mem_append_right _ ht, hat⟩

end Graph

/-- A member of a valid type is a valid type. -/
theorem Ty.Valid.member {g : Graph} {t : Ty} (ht : t.Valid g) {a : Atom} (ha : a ∈ t.members) :
    (Ty.one a).Valid g := by
  refine ⟨fun i hi => ht.1 i ?_, trivial⟩
  obtain rfl := List.mem_singleton.mp hi
  exact ha

variable {L : Labels} {g : Graph}

/-! ## Calls -/

theorem Sound.inputs_valid (hS : Sound L g) {s : Site} {receiver : Option Ty} {args : List Ty}
    (h : g.inputs? s = some (receiver, args)) : ∀ t ∈ receiver.toList ++ args, t.Valid g := by
  intro t ht
  obtain ⟨v, -, hv⟩ := Graph.exists_of_inputs h ht
  exact (hS.typed hv).2.1

/-- What a call is about was written somewhere, with as many arguments. -/
theorem Sound.origin_of_call (hS : Sound L g) {c : NodeId} (hc : L.IsCall c) {s : Site}
    (hs : g.site? c = some s) :
    ∃ w r k rc as p, L s.origin = some (.node w r k (.call rc s.name as p)) ∧
      as.length = s.args.length := by
  obtain ⟨x, hx, hrole⟩ := Graph.blank_of_site hs
  rcases hc with ⟨w, r, k, rc, nm, as, p, hc, -⟩ | ⟨d, rcv, args, hc⟩
  · rw [(hS.fits hc).1] at hx
    cases hx
    simp only [Graph.freshRole, Role.call.injEq, Site.blank, Site.mk.injEq] at hrole
    obtain ⟨-, hargs, hname, horigin, -⟩ := hrole
    refine ⟨w, r, k, rc, as, p, ?_, ?_⟩
    · rw [← horigin, ← hname]
      exact hc
    · rw [← hargs, List.length_map, Expr.length_spread]
  · obtain ⟨dx, s', hd, hb, hname, horigin, hlen, htakes⟩ := hS.fits hc
    rw [hb] at hx
    cases hx
    simp only [Role.call.injEq] at hrole
    subst hrole
    simp only [Site.blank] at hname horigin htakes
    obtain ⟨-, w, r, k, rc, as, p, ho, hl⟩ := hS.fits hd
    refine ⟨w, r, k, rc, as, p, ?_, ?_⟩
    · rw [horigin, hname]
      exact ho
    · rw [hl, ← hlen, htakes.2.length_eq]

theorem Sound.input_of_member (hS : Sound L g) {c d : NodeId} {r : Option Atom} {as : List Atom}
    (hc : L c = some (.member d r as)) {v : NodeId} (hv : v ∈ g.inputsOf c) :
    ∃ t, L v = some (.input t) := by
  obtain ⟨x, s, -, hb, -, -, -, htakes⟩ := hS.fits hc
  have hinputs : g.inputsOf c = s.receiver.toList ++ s.args := by
    simp [Graph.inputsOf, hb, Site.inputs]
  rw [hinputs] at hv
  rcases List.mem_append.mp hv with hv | hv
  · obtain ⟨a, -, ha⟩ := exists_of_forall₂ htakes.1 hv
    exact ⟨_, ha⟩
  · obtain ⟨a, -, ha⟩ := exists_of_forall₂ htakes.2 hv
    exact ⟨_, ha⟩

/-- Nothing that a call has as an input can be what it is resolved to. -/
theorem Sound.input_of_call (hS : Sound L g) {c : NodeId} (hc : L.IsCall c) {v : NodeId}
    (hv : v ∈ g.inputsOf c) :
    (∃ w r k e, L v = some (.node w r k e) ∧ (r : Nat) < v) ∨ ∃ t, L v = some (.input t) := by
  rcases hc with ⟨w, r, k, rc, nm, as, p, hc, hnew⟩ | ⟨d, rcv, args, hc⟩
  · left
    have hle := (hS.fits hc).2.1
    rw [hS.inputsOf_call hc] at hv
    obtain ⟨x, hx, rfl⟩ : ∃ x ∈ (rc.toList.map fun e => (c + 1, e)) ++
        Expr.spread (c + 1 + Expr.sizeOption rc) as, x.1 = v := by
      rcases List.mem_append.mp hv with hv | hv
      · cases rc with
        | none => simp at hv
        | some e => exact ⟨(c + 1, e), by simp, by simpa [eq_comm] using hv⟩
      · obtain ⟨x, hx, rfl⟩ := List.mem_map.mp hv
        exact ⟨x, List.mem_append_right _ hx, rfl⟩
    have hpart := (hS.input_part hc hnew hx).1
    exact ⟨w, r, k, x.2, hS.part hc hpart, Nat.lt_of_le_of_lt hle (Expr.mem_parts hpart).1⟩
  · exact .inr (hS.input_of_member hc hv)

theorem Labels.IsCall.isOpen {c : NodeId} (hc : L.IsCall c) : L.IsOpen c := by
  rcases hc with ⟨w, r, k, rc, n, as, p, hc, -⟩ | ⟨d, r, as, hc⟩
  · exact ⟨_, hc, rfl⟩
  · exact ⟨_, hc, rfl⟩

theorem Labels.IsCall.ne_none {c : NodeId} (hc : L.IsCall c) : L c ≠ none := by
  obtain ⟨l, hl, -⟩ := hc.isOpen
  simp [hl]

/-- A call may observe what is no input of any call. -/
theorem Sound.edge_call (hS : Sound L g) {s c : NodeId} (hc : L.IsCall c)
    (hs : L.IsDispatch s ∨ L s = some .builtin ∨ ∃ w k e, L s = some (.node w s k e)) :
    g.EdgeOK L s c .merge := by
  refine ⟨?_, hc.isOpen, fun hmem => ?_⟩
  · rcases hs with ⟨x, hs⟩ | hs | ⟨w, k, e, hs⟩ <;> simp [hs]
  · rcases hS.input_of_call hc hmem with ⟨w, r, k, e, hl, hlt⟩ | ⟨t, hl⟩ <;>
      rcases hs with ⟨x, hs⟩ | hs | ⟨w', k', e', hs⟩ <;> rw [hl] at hs <;> cases hs
    exact Nat.lt_irrefl _ hlt

/-! ## Calls with unions among their inputs -/

/-- A dispatch is labelled as it was made. -/
theorem Sound.label_eq_dispatch (hS : Sound L g) {d : NodeId} (h : L.IsDispatch d) {x : Dispatch}
    (hx : g.dispatch? d = some x) : L d = some (.dispatch x.blank) := by
  obtain ⟨y, hy⟩ := h
  obtain ⟨_, hblank, hrole⟩ := Graph.blank_of_dispatch hx
  have hfit := (hS.fits hy).1
  rw [hblank] at hfit
  cases hfit
  obtain rfl : y = x.blank := by simpa using hrole
  exact hy

theorem Sound.label_of_dispatch (hS : Sound L g) {d : NodeId} (h : g.Has (.dispatch d))
    {x : Dispatch} (hx : g.dispatch? d = some x) : L d = some (.dispatch x.blank) :=
  hS.label_eq_dispatch (hS.entries h) hx

/-- The dispatch that is added for a call. -/
def Site.dispatch (s : Site) (receiver : Option Ty) (args : List Ty) : Dispatch :=
  { name := s.name, origin := s.origin, receiver, args, parens := s.parens }

/-- A new dispatch for a call gets its label. -/
theorem extends_addDispatch (hS : Sound L g) {c : NodeId} {s : Site} (hc : L.IsCall c)
    (hs : g.site? c = some s) (receiver : Option Ty) {args : List Ty}
    (hargs : args.length = s.args.length) :
    Extends L g (L.append g [some (.dispatch (s.dispatch receiver args))])
        (g.addDispatch s receiver args).1 ∧
      Sound (L.append g [some (.dispatch (s.dispatch receiver args))])
        (g.addDispatch s receiver args).1 := by
  have hold : ∀ n : Nat, n < g.cells.size →
      L.append g [some (.dispatch (s.dispatch receiver args))] n = L n :=
    fun n hn => L.append_old g hn
  refine hS.append _ (Graph.grows_addDispatch g s receiver args) (Array.size_push ..)
    (fun j l hj => ?_) fun hen => ?_
  · obtain ⟨rfl, rfl⟩ := Labels.eq_of_singleton hj
    obtain ⟨w, r, k, rc, as, p, ho, hlen⟩ := hS.origin_of_call hc hs
    refine ⟨?_, w, r, k, rc, as, p, ?_, hlen.trans hargs.symm⟩
    · simp [Graph.blank, Graph.addDispatch, Graph.addCell, Cell.blank, Role.blank, Dispatch.blank,
        Site.dispatch]
    · exact (hold _ (hS.bound ho)).trans ho
  · rcases Graph.has_addDispatch hen with hen | rfl
    · exact .inl hen
    · exact .inr ⟨_, L.append_size g _⟩

/-- The labelling after a call with unions among its inputs was resolved. -/
def Labels.dispatched (L : Labels) (g : Graph) (s : Site) (receiver : Option Ty)
    (args : List Ty) : Labels :=
  match g.findDispatch? s.origin receiver args with
  | some _ => L
  | none => L.append g [some (.dispatch (s.dispatch receiver args))]

/-- A new dispatch is for the types of the inputs, and so are its members. -/
theorem keeps_newDispatch (hS : Sound L g) {c : NodeId} {s : Site} (hc : L.IsCall c)
    (hs : g.site? c = some s) {receiver : Option Ty} {args : List Ty}
    (hin : g.inputs? s = some (receiver, args)) (n : Notice) :
    Keeps L g (L.append g [some (.dispatch (s.dispatch receiver args))])
      (((g.addDispatch s receiver args).1.notice n).next
        (Graph.memberTasks g.cells.size receiver args ++
          [.subscribe g.cells.size c .merge, .aim c (.dispatch g.cells.size)])) := by
  have hlen : args.length = s.args.length :=
    (Graph.inputs?_eq_some_iff.mp hin).2.length_eq.symm
  obtain ⟨hext, hsound⟩ := extends_addDispatch hS hc hs receiver hlen
  have hnotice := Graph.grows_notice (g.addDispatch s receiver args).1 n
  have hext' : Extends L g (L.append g [some (.dispatch (s.dispatch receiver args))]) _ :=
    hext.trans (.of_grows hnotice)
  have hsound' : Sound (L.append g [some (.dispatch (s.dispatch receiver args))]) _ :=
    hsound.grow hnotice fun hen => .inl (Graph.has_notice hen)
  have hd := L.append_size g (.dispatch (s.dispatch receiver args))
  have hc' := hext'.isCall hS hc
  refine .next hext' hsound' fun task htask => ?_
  rcases List.mem_append.mp htask with htask | htask
  · obtain ⟨r, as, rfl, -, has⟩ := Graph.mem_memberTasks.mp htask
    refine ⟨_, hd, has.length_eq, fun a ha => hext'.valid ?_⟩
    obtain ⟨t, ht, hat⟩ := Graph.exists_of_memberTasks htask ha
    exact (hS.inputs_valid hin t ht).member hat
  · simp only [List.mem_cons, List.not_mem_nil, or_false] at htask
    rcases htask with rfl | rfl
    · exact hsound'.edge_call hc' (.inl ⟨_, hd⟩)
    · exact ⟨hc', ⟨_, hd⟩⟩

/-! ## Members -/

/-- The call that is added to a dispatch for chosen types, over variables that lie from an address
on. -/
def Dispatch.member (d : Dispatch) (base : NodeId) (receiver : Option Atom)
    (args : List Atom) : Site :=
  { receiver := receiver.map fun _ => base
    args := List.range' (base + receiver.toList.length) args.length
    name := d.name
    origin := d.origin
    parens := d.parens
    span := (d.name.spot, d.name.spot)
    linked := true }

/-- The variables of a member, each with the type that was chosen for it. -/
def memberSlots (receiver : Option Atom) (args : List Atom) : List (Option String × Ty) :=
  (receiver.toList.map fun a => (some "self", .one a)) ++ args.map fun a => (none, .one a)

namespace Graph

theorem addSlots_append (g : Graph) (xs ys : List (Option String × Ty)) :
    g.addSlots (xs ++ ys) = (((g.addSlots xs).1.addSlots ys).1,
      (g.addSlots xs).2 ++ ((g.addSlots xs).1.addSlots ys).2) := by
  induction xs generalizing g with
  | nil => rfl
  | cons x xs ih =>
      simp only [List.cons_append, addSlots, ih]

/-- Two members of a dispatch have the same key if they were made for equal types. -/
def sameMember (g : Graph) (x y : Option Atom × List Atom) : Bool :=
  let row (k : Option Atom × List Atom) : List (Option Ty) :=
    k.1.map Ty.one :: k.2.map fun a => some (.one a)
  g.heap.sameRow (row x) (row y)

/-- The graph with the variables of a member and the member itself. -/
def withMember (g : Graph) (d : Dispatch) (receiver : Option Atom) (args : List Atom) : Graph :=
  ((g.addSlots (memberSlots receiver args)).1.addCell
    { role := .call (d.member g.cells.size receiver args) }).1

/-- The address of the member. -/
def memberAt (g : Graph) (receiver : Option Atom) (args : List Atom) : NodeId :=
  g.cells.size + (memberSlots receiver args).length

theorem cell_memberAt (x : Dispatch) (receiver : Option Atom) (args : List Atom) :
    (g.withMember x receiver args).cells[g.memberAt receiver args]? =
      some { role := .call (x.member g.cells.size receiver args) } := by
  rw [memberAt, ← cells_addSlots]
  exact Array.getElem?_push_size

theorem addMember_eq {d : NodeId} {x : Dispatch} (hd : g.dispatch? d = some x)
    (receiver : Option Atom) (args : List Atom) :
    g.addMember d receiver args =
      ((g.withMember x receiver args).modifyDispatch d fun y =>
        { y with calls := y.calls.putBy (g.withMember x receiver args).sameMember (receiver, args)
                  (g.memberAt receiver args) }).next
        [.subscribe (g.memberAt receiver args) d .merge,
          .resolve (g.memberAt receiver args)] := by
  have hhead : ((g.addSlots (receiver.toList.map fun a => (some "self", .one a))).2).head? =
      receiver.map fun _ => g.cells.size := by
    rw [snd_addSlots]
    cases receiver <;> rfl
  have hcell : (g.addSlots (memberSlots receiver args)).1.cells.size = g.memberAt receiver args := by
    rw [cells_addSlots, memberAt]
  have hargs : (((g.addSlots (receiver.toList.map fun a => (some "self", .one a))).1).addSlots
      (args.map fun a => (none, .one a))).2 =
        List.range' (g.cells.size + receiver.toList.length) args.length := by
    rw [snd_addSlots, cells_addSlots, List.length_map, List.length_map]
  simp only [addMember, hd, hhead, hargs]
  rw [← hcell]
  simp only [withMember, memberSlots, addSlots_append]
  rfl

end Graph

/-- The labelling after a member was added to a dispatch. -/
def Labels.joined (L : Labels) (g : Graph) (d : NodeId) (receiver : Option Atom)
    (args : List Atom) : Labels :=
  L.append g (((memberSlots receiver args).map fun s => some (.input s.2)) ++
    [some (.member d receiver args)])

/-- The variables of a new member are labelled by the types chosen for it, in their order. -/
theorem Labels.joined_slot {d : NodeId} {receiver : Option Atom} {args : List Atom} {j : Nat}
    {s : Option String × Ty} (hj : (memberSlots receiver args)[j]? = some s) :
    L.joined g d receiver args (g.cells.size + j) = some (.input s.2) := by
  refine L.append_new g ?_
  rw [List.getElem?_append_left (by
    rw [List.length_map]
    exact (List.getElem?_eq_some_iff.mp hj).1)]
  simp [hj]

theorem Labels.joined_memberAt {d : NodeId} {receiver : Option Atom} {args : List Atom} :
    L.joined g d receiver args (g.memberAt receiver args) = some (.member d receiver args) :=
  L.append_new g (by simp)

theorem forall₂_range' {α : Type} {R : Nat → α → Prop} {b : Nat} {xs : List α}
    (h : ∀ (j : Nat) x, xs[j]? = some x → R (b + j) x) :
    List.Forall₂ R (List.range' b xs.length) xs := by
  induction xs generalizing b with
  | nil => exact .nil
  | cons x xs ih =>
      rw [List.length_cons, List.range'_succ]
      refine .cons (h 0 x rfl) (ih fun j y hj => ?_)
      have := h (j + 1) y (by simpa using hj)
      rwa [Nat.add_assoc, Nat.add_comm 1]

/-- What holds of each variable of a member and its type holds of the inputs of the member. -/
theorem Dispatch.forall₂_member {R : Nat → Ty → Prop} (d : Dispatch) {base : Nat}
    {receiver : Option Atom} {args : List Atom}
    (h : ∀ (j : Nat) s, (memberSlots receiver args)[j]? = some s → R (base + j) s.2) :
    List.Forall₂ (fun v a => R v (.one a)) (d.member base receiver args).receiver.toList
        receiver.toList ∧
      List.Forall₂ (fun v a => R v (.one a)) (d.member base receiver args).args args := by
  constructor
  · cases receiver with
    | none => exact .nil
    | some a => exact .cons (h 0 _ rfl) .nil
  · refine forall₂_range' (R := fun v a => R v (.one a)) fun j a hj => ?_
    rw [Nat.add_assoc]
    refine h _ (none, .one a) ?_
    rw [memberSlots, List.getElem?_append_right (by simp)]
    simp [hj]

/-- The variables of a member have the labels that its label calls for. -/
theorem Labels.joined_takes {d : NodeId} {x : Dispatch} {receiver : Option Atom}
    {args : List Atom} :
    (x.member g.cells.size receiver args).blank.Takes (L.joined g d receiver args) receiver
      args := by
  exact x.forall₂_member (R := fun v t => L.joined g d receiver args v = some (.input t))
    fun j s hj => Labels.joined_slot hj

theorem extends_withMember (hS : Sound L g) {d : NodeId} {x y : Dispatch}
    (hd : L d = some (.dispatch y)) (hx : g.dispatch? d = some x) {receiver : Option Atom}
    {args : List Atom} (hlen : args.length = y.args.length)
    (hvalid : ∀ a ∈ receiver.toList ++ args, (Ty.one a).Valid g) :
    Extends L g (L.joined g d receiver args) (g.withMember x receiver args) ∧
      Sound (L.joined g d receiver args) (g.withMember x receiver args) := by
  have hgrows : Graph.Grows g (g.withMember x receiver args) :=
    (Graph.grows_addSlots g _).trans (Graph.grows_addCell _ _)
  have hslots : ∀ s ∈ memberSlots receiver args, s.2.Valid g := by
    intro s hs
    rcases List.mem_append.mp hs with hs | hs <;> obtain ⟨a, ha, rfl⟩ := List.mem_map.mp hs
    · exact hvalid a (List.mem_append_left _ ha)
    · exact hvalid a (List.mem_append_right _ ha)
  have hcell : (g.addSlots (memberSlots receiver args)).1.cells.size =
      g.memberAt receiver args := Graph.cells_addSlots ..
  obtain ⟨_, hc, hr⟩ := Graph.blank_of_dispatch hx
  obtain rfl : y = x.blank := by
    have hy := (hS.fits hd).1
    rw [hc] at hy
    cases hy
    simpa using hr
  refine hS.append _ hgrows ?_ (fun j l hj => ?_) fun hen => ?_
  · rw [Graph.withMember, Graph.addCell, Array.size_push, Graph.cells_addSlots]
    simp [Nat.add_assoc]
  · by_cases hlt : j < (memberSlots receiver args).length
    · rw [List.getElem?_append_left (by rwa [List.length_map])] at hj
      simp only [List.getElem?_map, Option.map_eq_some_iff, Option.some.injEq] at hj
      obtain ⟨s, hs, rfl⟩ := hj
      exact ⟨s.1, (Graph.grows_addCell _ _).blank (Graph.blank_addSlots hs)⟩
    · rw [List.getElem?_append_right (by rw [List.length_map]; omega)] at hj
      obtain ⟨hj0, rfl⟩ : j - (memberSlots receiver args).length = 0 ∧
          l = .member d receiver args := by
        cases hk : j - (memberSlots receiver args).length with
        | zero => simpa [hk, eq_comm] using hj
        | succ k => simp [hk] at hj
      obtain rfl : j = (memberSlots receiver args).length := by omega
      refine ⟨x.blank, (x.member g.cells.size receiver args).blank, ?_, ?_, rfl, rfl, hlen,
        Labels.joined_takes⟩
      · exact (L.append_old g (hS.bound hd)).trans hd
      · have hcell := g.cell_memberAt x receiver args
        rw [Graph.memberAt] at hcell
        simp [Graph.blank, hcell, Cell.blank, Role.blank]
  · rcases Graph.has_addCell hen with hen | ⟨k, rfl, hk⟩
    · rcases Graph.has_addSlots hen with hen | ⟨j, s, hs, rfl⟩
      · exact .inl hen
      · have hinput := Labels.joined_slot (L := L) (g := g) (d := d) hs
        refine .inr ⟨Option.ne_none_iff_exists'.mpr ⟨_, hinput⟩, ?_, fun t' ht' => ?_⟩
        · exact (Extends.of_grows hgrows (L := L)).valid (hslots s (List.mem_of_getElem? hs))
        · have hsome := hinput.symm.trans ht'
          simpa using hsome
    · rw [hcell]
      cases k with
      | linked => exact .inr (.inr ⟨d, receiver, args, Labels.joined_memberAt⟩)
      | typed | edge | cached | member => cases hk
      | aimed | found | busy | made => simp [Cell.Has, Role.Has, Dispatch.member] at hk

theorem keeps_addMember (hS : Sound L g) {d : NodeId} {y : Dispatch}
    (hd : L d = some (.dispatch y)) {receiver : Option Atom} {args : List Atom}
    (hlen : args.length = y.args.length)
    (hvalid : ∀ a ∈ receiver.toList ++ args, (Ty.one a).Valid g) :
    Keeps L g (L.joined g d receiver args) (g.addMember d receiver args) := by
  obtain ⟨x, hx, -⟩ := Graph.dispatch_of_blank (hS.fits hd).1 rfl
  obtain ⟨hext, hsound⟩ := extends_withMember hS hd hx hlen hvalid
  have hd' := hext.keeps hS hd
  have hgrows := Graph.grows_modifyDispatch (g.withMember x receiver args) d
    (f := fun y => { y with
      calls := y.calls.putBy (g.withMember x receiver args).sameMember (receiver, args)
        (g.memberAt receiver args) }) fun _ => rfl
  have hext' := hext.trans (.of_grows hgrows)
  have hsound' := hsound.grow hgrows fun hen => by
    rcases Graph.has_modifyDispatch hen with hen | ⟨z, k, hz, rfl, hk⟩
    · exact .inl hen
    · cases k with
      | member key c =>
          refine .inr ⟨⟨y, hd'⟩, ?_⟩
          rcases Table.mem_of_mem_putBy hk with hk | ⟨rfl, -⟩
          · obtain ⟨-, r, as, hc⟩ := hsound.entries
              (Graph.has_member.mpr ⟨z, hz, hk⟩)
            exact ⟨r, as, hc⟩
          · exact ⟨receiver, args, Labels.joined_memberAt⟩
      | _ => exact hk.elim
  rw [Graph.addMember_eq hx]
  refine .next hext' hsound' fun task htask => ?_
  have hlinked : (g.withMember x receiver args).Linked (g.memberAt receiver args) := by
    exact Graph.linked_iff.mpr ⟨_, _, g.cell_memberAt x receiver args, rfl, rfl⟩
  simp only [List.mem_cons, List.not_mem_nil, or_false] at htask
  rcases htask with rfl | rfl
  · refine ⟨by simp [Labels.joined_memberAt], ⟨_, hd', rfl⟩, ?_⟩
    simp [Graph.inputsOf, (hsound'.fits hd').1]
  · exact ⟨hgrows.linked hlinked, .inr ⟨d, receiver, args, Labels.joined_memberAt⟩⟩

end TypeFlow
