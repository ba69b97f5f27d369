import TypeFlow.Proofs.Marking
import TypeFlow.Proofs.Sessions

/-! # Marks are taken back

However a step of a session ends, it leaves no call busy, and no walk in a class. In between, the
class that a walk is in is the one that is written around the node that it has come to, so that a
method is put where it is written. -/

namespace TypeFlow

namespace Graph

variable {g g' : Graph}

/-! ## Classes and their tables -/

/-- What a class was made as. -/
def Prototype (g : Graph) (c : String) (o : ObjectType) : Prop :=
  ∃ i, g.classes.lookup c = some i ∧ g.objects[i]? = some o

/-- Each class has been made, with a method table that no other class has. -/
structure Shelved (g : Graph) : Prop where
  made : ∀ {c i}, g.classes.lookup c = some i →
    ∃ o, g.objects[i]? = some o ∧ o.name = c ∧ o.methods < g.tables.size
  own : ∀ {c c' o o'}, g.Prototype c o → g.Prototype c' o' → o.methods = o'.methods → c = c'

theorem Shelved.grow (h : g.Shelved) (hg : Grows g g') (hclasses : g'.classes = g.classes)
    (htables : g'.tables.size = g.tables.size) : g'.Shelved := by
  have hold : ∀ {c o}, g'.Prototype c o → ∃ o', g.Prototype c o' ∧ o'.methods = o.methods := by
    rintro c o ⟨i, hi, ho⟩
    rw [hclasses] at hi
    obtain ⟨o', ho', -⟩ := h.made hi
    obtain ⟨o'', ho'', -, hmethods⟩ := hg.object ho'
    rw [ho] at ho''
    cases ho''
    exact ⟨o', ⟨i, hi, ho'⟩, hmethods.symm⟩
  refine ⟨fun hi => ?_, fun hc hc' heq => ?_⟩
  · rw [hclasses] at hi
    obtain ⟨o, ho, hname, hlt⟩ := h.made hi
    obtain ⟨o', ho', hname', hmethods⟩ := hg.object ho
    exact ⟨o', ho', hname'.trans hname, by rwa [hmethods, htables]⟩
  · obtain ⟨o, ho, hmethods⟩ := hold hc
    obtain ⟨o', ho', hmethods'⟩ := hold hc'
    exact h.own ho ho' (by rw [hmethods, heq, hmethods'])

theorem lookup_addClass (g : Graph) (name c : String) :
    (g.addClass name).1.classes.lookup c =
      if c == name then some g.objects.size else g.classes.lookup c :=
  Table.lookup_put g.classes name c g.objects.size

theorem Shelved.addClass (h : g.Shelved) (name : String) : (g.addClass name).1.Shelved := by
  have hnew : (g.addClass name).1.objects[g.objects.size]? = some ⟨name, g.tables.size, []⟩ :=
    Array.getElem?_push_size
  have htables : (g.addClass name).1.tables.size = g.tables.size + 1 := Array.size_push ..
  have hcases : ∀ {c o}, (g.addClass name).1.Prototype c o →
      (g.Prototype c o ∧ o.methods < g.tables.size) ∨ c = name ∧ o.methods = g.tables.size := by
    rintro c o ⟨i, hi, ho⟩
    rw [lookup_addClass] at hi
    split at hi
    · next heq =>
        cases hi
        rw [hnew] at ho
        cases ho
        exact .inr ⟨eq_of_beq heq, rfl⟩
    · obtain ⟨o', ho', -, hlt⟩ := h.made hi
      have hpush : (g.addClass name).1.objects[i]? = some o' := getElem?_push_of_some _ ho'
      rw [ho] at hpush
      cases hpush
      exact .inl ⟨⟨i, hi, ho'⟩, hlt⟩
  refine ⟨fun {c i} hi => ?_, fun hc hc' heq => ?_⟩
  · rw [lookup_addClass] at hi
    split at hi
    · next heq =>
        cases hi
        exact ⟨_, hnew, (eq_of_beq heq).symm, htables ▸ Nat.lt_succ_self _⟩
    · obtain ⟨o, ho, hname, hlt⟩ := h.made hi
      exact ⟨o, getElem?_push_of_some _ ho, hname, htables ▸ Nat.lt_succ_of_lt hlt⟩
  · rcases hcases hc with ⟨hc, hlt⟩ | ⟨rfl, hsize⟩ <;>
      rcases hcases hc' with ⟨hc', hlt'⟩ | ⟨rfl, hsize'⟩
    · exact h.own hc hc' heq
    · exact (Nat.ne_of_lt hlt (heq.trans hsize')).elim
    · exact (Nat.ne_of_lt hlt' (heq.symm.trans hsize)).elim
    · rfl

/-- A class that is opened is known, and the classes that were known stay the same. -/
theorem Shelved.declare (h : g.Shelved) (name : String) : (g.declare name).1.Shelved ∧
    (g.declare name).1.classes.lookup name = some (g.declare name).2 ∧
      ∀ c i, g.classes.lookup c = some i → (g.declare name).1.classes.lookup c = some i := by
  unfold Graph.declare
  cases hl : g.classes.lookup name with
  | some i => exact ⟨h, hl, fun _ _ => id⟩
  | none =>
      refine ⟨h.addClass name, ?_, fun c i hi => ?_⟩
      · rw [lookup_addClass, if_pos (beq_self_eq_true name)]
        rfl
      · rw [lookup_addClass, if_neg fun heq => ?_, hi]
        rw [eq_of_beq heq, hl] at hi
        cases hi

/-- An object type stands for the class of a name, and none for no class. -/
def IsClassNamed (g : Graph) : Option ObjId → Option String → Prop
  | none, none => True
  | some i, some c => g.classes.lookup c = some i
  | _, _ => False

theorem IsClassNamed.mono {i : Option ObjId} {k : Option String} (h : g.IsClassNamed i k)
    (hc : ∀ c j, g.classes.lookup c = some j → g'.classes.lookup c = some j) :
    g'.IsClassNamed i k := by
  cases i <;> cases k
  case none.none => trivial
  case some.some i c => exact hc c i h
  all_goals exact h.elim

/-- A method is put into the table of a class, which no other class has, or among the methods of
the program if there is no class. -/
def Files (g g' : Graph) (k : Option String) (name : String) (m : NodeId) : Prop :=
  match k with
  | none => g' = { g with methods := g.methods.put name m }
  | some c => ∃ o, (g.Prototype c o ∧ o.name = c ∧ o.methods < g.tables.size) ∧
      (∀ c' o', g.Prototype c' o' → o'.methods = o.methods → c' = c) ∧
        g' = { g with tables := g.tables.modify o.methods fun t => t.put name m }

theorem Shelved.files (h : g.Shelved) {i : Option ObjId} {k : Option String}
    (hk : g.IsClassNamed i k) (name : String) (m : NodeId) :
    g.Files (g.putMethod i name m) k name m := by
  cases i <;> cases k
  case none.none => rfl
  case some.some i c =>
    obtain ⟨o, ho, hname, hlt⟩ := h.made hk
    have hproto : g.Prototype c o := ⟨i, hk, ho⟩
    exact ⟨o, ⟨hproto, hname, hlt⟩, fun c' o' hc' heq => h.own hc' hproto heq,
      by simp [putMethod, ho]⟩
  all_goals exact hk.elim

/-! ## Where walks are -/

/-- A walk goes over a tree at an address: one that is visited first, or the body of an instance. -/
inductive GoesOver (g : Graph) (first : List Task) (w : WalkId) : Expr → NodeId → Prop where
  | first {tree : Expr} {root : NodeId} : .visit w tree root ∈ first → g.GoesOver first w tree root
  | inst {i : InstanceId} {x : Instance} {b : Expr} {t : NodeId} : g.instances[i]? = some x →
      x.walk = some w → g.HasTemplate x.method b t → g.GoesOver first w b x.body

variable {first : List Task} {now : WalkId → Option ObjId} {task : Task} {ts rest : List Task}

theorem GoesOver.grow {w : WalkId} {tree : Expr} {root : NodeId}
    (h : g.GoesOver first w tree root) (hg : Grows g g') : g'.GoesOver first w tree root := by
  cases h with
  | first h => exact .first h
  | inst hx hw hm => exact .inst (hg.inst hx) hw (hg.template hm)

/-- The classes that walks are in. -/
def inside (g : Graph) : WalkId → Option ObjId := fun w => (g.walk w).klass

/-- The classes that walks are in once a task is done, with all that comes of it. -/
def after (now : WalkId → Option ObjId) : Task → WalkId → Option ObjId
  | .leave w outer => Function.update now w outer
  | _ => now

/-- A task fits the classes that walks are in when its turn comes: a walk is then in the class that
is written around the node that it comes to. -/
def Fits (g : Graph) (first : List Task) (now : WalkId → Option ObjId) : Task → Prop
  | .visit w e n => w < g.walks.size ∧ ∃ tree root k, g.GoesOver first w tree root ∧
      ⟨n, k, e⟩ ∈ tree.stops none root ∧ g.IsClassNamed (now w) k
  | .leave w _ => w < g.walks.size
  | _ => True

/-- All waiting tasks fit, and after them all walks are outside of all classes. -/
def Fitting (g : Graph) (first : List Task) : (WalkId → Option ObjId) → List Task → Prop
  | now, [] => ∀ w, now w = none
  | now, t :: ts => g.Fits first now t ∧ g.Fitting first (after now t) ts

theorem Grows.lt_walks (hg : Grows g g') {w : WalkId} (hw : w < g.walks.size) :
    w < g'.walks.size := by
  obtain ⟨x, hx, -⟩ := hg.walk (Array.getElem?_eq_getElem hw)
  exact (Array.getElem?_eq_some_iff.mp hx).1

theorem Fits.grow (h : g.Fits first now task) (hg : Grows g g')
    (hc : ∀ c i, g.classes.lookup c = some i → g'.classes.lookup c = some i) :
    g'.Fits first now task := by
  cases task with
  | visit w e n =>
      obtain ⟨hw, tree, root, k, hover, hstop, hk⟩ := h
      exact ⟨hg.lt_walks hw, tree, root, k, hover.grow hg, hstop, hk.mono hc⟩
  | leave w outer => exact hg.lt_walks h
  | _ => trivial

theorem Fitting.grow (h : g.Fitting first now ts) (hg : Grows g g')
    (hc : ∀ c i, g.classes.lookup c = some i → g'.classes.lookup c = some i) :
    g'.Fitting first now ts := by
  induction ts generalizing now with
  | nil => exact h
  | cons t ts ih => exact ⟨Fits.grow h.1 hg hc, ih h.2⟩

/-- New tasks that change no class wait before the others. -/
theorem Fitting.append (h : g.Fitting first now rest)
    (hts : ∀ t ∈ ts, g.Fits first now t ∧ after now t = now) :
    g.Fitting first now (ts ++ rest) := by
  induction ts with
  | nil => exact h
  | cons t ts ih =>
      obtain ⟨hfits, hnow⟩ := hts t (List.mem_cons_self ..)
      refine ⟨hfits, ?_⟩
      rw [hnow]
      exact ih fun u hu => hts u (List.mem_cons_of_mem _ hu)

theorem fits_of_isIdle (h : task.IsIdle) : g.Fits first now task ∧ after now task = now := by
  cases task with
  | visit | finish | leave => exact h.elim
  | _ => exact ⟨trivial, rfl⟩

/-! ## Marks that wait to be taken back -/

/-- For each busy call a task waits that takes the mark back, all waiting tasks fit, and the tables
of the classes are in order. -/
structure Marked (first : List Task) (c : Config) : Prop where
  busy : ∀ n, c.1.Has (.mark n .busy) → ∃ i, .finish n i ∈ c.2
  fitting : c.1.Fitting first c.1.inside c.2
  shelved : c.1.Shelved

theorem Marked.steady (h : Marked first (g, ts)) (hs : Steady [] g g') (hg : Grows g g') :
    Marked first (g', ts) where
  busy n hn := by
    rcases hs.busy n hn with hn | hn
    · exact h.busy n hn
    · cases hn
  fitting := by
    have hinside : g'.inside = g.inside := funext hs.klass
    have hfitting : g'.Fitting first g.inside ts :=
      Fitting.grow h.fitting hg fun c i hi => by rwa [hs.classes]
    rwa [hinside]
  shelved := h.shelved.grow hg hs.classes hs.tables

/-- A task that takes back no mark may be dropped. -/
theorem Marked.drop (h : Marked first (g, task :: rest)) (hf : ∀ c i, task ≠ .finish c i)
    (hl : ∀ w o, task ≠ .leave w o) : Marked first (g, rest) where
  busy n hn := by
    obtain ⟨i, hi⟩ := h.busy n hn
    exact ⟨i, (List.mem_cons.mp hi).resolve_left fun heq => hf n i heq.symm⟩
  fitting := by
    have hrest := h.fitting.2
    cases task with
    | leave w outer => exact (hl w outer rfl).elim
    | _ => exact hrest
  shelved := h.shelved

/-- New tasks that change no class wait before the others. -/
theorem Marked.append (h : Marked first (g, rest))
    (hts : ∀ t ∈ ts, g.Fits first g.inside t ∧ after g.inside t = g.inside) :
    Marked first (g, ts ++ rest) where
  busy n hn := by
    obtain ⟨i, hi⟩ := h.busy n hn
    exact ⟨i, List.mem_append_right ts hi⟩
  fitting := Fitting.append h.fitting hts
  shelved := h.shelved

theorem has_busy {c : NodeId} :
    g.Has (.mark c .busy) ↔ ∃ s, g.site? c = some s ∧ s.busy = true := by
  simp only [Has, site?, role]
  cases hc : g.cells[c]? with
  | none => simp
  | some x => cases hr : x.role <;> simp [Cell.Has, Role.Has, hr]

/-- A call is no longer busy when the walk over its instance ends. -/
theorem Marked.finish {c : NodeId} {i : InstanceId} (h : Marked first (g, .finish c i :: rest)) :
    Marked first (g.modifySite c fun s => { s with busy := false }, rest) := by
  have hs : Steady [] g (g.modifySite c fun s => { s with busy := false }) :=
    steady_modifySite g c fun _ hbusy => nomatch hbusy
  have hg : Grows g (g.modifySite c fun s => { s with busy := false }) :=
    grows_modifySite g c (fun _ => rfl) fun _ hl => hl
  have h' := h.steady hs hg
  refine ⟨fun n hn => ?_, h'.fitting.2, h'.shelved⟩
  obtain ⟨j, hj⟩ := h'.busy n hn
  refine ⟨j, (List.mem_cons.mp hj).resolve_left fun heq => ?_⟩
  cases heq
  obtain ⟨s, hsite, hbusy⟩ := has_busy.mp hn
  rw [site?_modifySite, if_pos rfl] at hsite
  obtain ⟨s', -, rfl⟩ := Option.map_eq_some_iff.mp hsite
  cases hbusy

theorem walk_modifyWalk (g : Graph) {w : WalkId} (hw : w < g.walks.size) (f : Walk → Walk)
    (v : WalkId) : (g.modifyWalk w f).walk v = if v = w then f (g.walk v) else g.walk v := by
  simp only [walk, modifyWalk, Array.getElem?_modify]
  by_cases h : v = w
  · subst h
    simp [hw]
  · simp [h, Ne.symm h]

theorem inside_modifyWalk {w : WalkId} (hw : w < g.walks.size) (i : Option ObjId) :
    (g.modifyWalk w fun x => { x with klass := i }).inside = Function.update g.inside w i := by
  funext v
  rw [inside, walk_modifyWalk g hw]
  by_cases hv : v = w
  · subst hv
    rw [if_pos rfl, Function.update_self]
  · rw [if_neg hv, Function.update_of_ne hv]
    rfl

/-- A walk is back in the class outside of a class when it leaves the body of the class. -/
theorem Marked.leave {w : WalkId} {outer : Option ObjId}
    (h : Marked first (g, .leave w outer :: rest)) :
    Marked first (g.modifyWalk w fun x => { x with klass := outer }, rest) := by
  have hg : Grows g (g.modifyWalk w fun x => { x with klass := outer }) :=
    grows_modifyWalk g w fun _ => rfl
  refine ⟨fun n hn => ?_, ?_, h.shelved.grow hg rfl rfl⟩
  · obtain ⟨i, hi⟩ := h.busy n hn
    exact ⟨i, (List.mem_cons.mp hi).resolve_left (by simp)⟩
  · obtain ⟨hw, hrest⟩ := h.fitting
    have hinside := inside_modifyWalk (g := g) hw outer
    rw [hinside]
    exact Fitting.grow hrest hg fun _ _ => id

theorem walks_declare (g : Graph) (name : String) : (g.declare name).1.walks = g.walks := by
  unfold declare
  split <;> rfl

theorem inside_enter {w : WalkId} (hw : w < g.walks.size) (name : String) :
    (g.enter w name).inside = Function.update g.inside w (some (g.declare name).2) := by
  have hwalks := g.walks_declare name
  have hdeclare : (g.declare name).1.inside = g.inside := by
    funext v
    rw [inside, walk, hwalks]
    rfl
  rw [enter, inside_modifyWalk (hwalks ▸ hw), hdeclare]

theorem busy_enter {w : WalkId} {name : String} {c : NodeId}
    (h : (g.enter w name).Has (.mark c .busy)) : g.Has (.mark c .busy) := by
  have hdeclare : (g.declare name).1.Has (.mark c .busy) := h
  unfold declare at hdeclare
  split at hdeclare
  · exact hdeclare
  · rcases has_addClass hdeclare with hc | hc
    · exact hc
    · cases hc

/-- A walk that enters the body of a class is in the class when it walks over the body. -/
theorem Marked.enter {w : WalkId} {nm : Token} {b : Expr} {n : NodeId}
    (h : Marked first (g, .visit w (.klass nm b) n :: rest)) (hg : Grows g (g.enter w nm.text)) :
    Marked first (g.enter w nm.text,
      .visit w b (n + 1) :: .leave w (g.walk w).klass :: rest) := by
  obtain ⟨hshelved, hknown, hclasses⟩ := h.shelved.declare nm.text
  obtain ⟨⟨hw, tree, root, k, hover, hstop, hk⟩, hrest⟩ := h.fitting
  have hinside := inside_enter (g := g) hw nm.text
  refine ⟨fun c hc => ?_, ?_, hshelved.grow (grows_modifyWalk _ w fun _ => rfl) rfl rfl⟩
  · obtain ⟨i, hi⟩ := h.busy c (busy_enter hc)
    refine ⟨i, List.mem_cons_of_mem _ (List.mem_cons_of_mem _ ?_)⟩
    exact (List.mem_cons.mp hi).resolve_left (by simp)
  · refine ⟨⟨hg.lt_walks hw, tree, root, some nm.text, hover.grow hg, ?_, ?_⟩, hg.lt_walks hw, ?_⟩
    · refine Expr.stops_trans hstop (Expr.mem_stops_of_mem_parts ?_)
      exact List.mem_singleton_self _
    · rw [hinside, Function.update_self]
      exact hknown
    · -- The mark that is left remembers the class outside, so that the tasks that waited before
      -- find the walk where it was.
      have hback : Function.update (g.enter w nm.text).inside w (g.walk w).klass = g.inside := by
        rw [hinside, Function.update_idem]
        exact Function.update_eq_self w g.inside
      have hrest' : (g.enter w nm.text).Fitting first g.inside rest :=
        Fitting.grow hrest hg hclasses
      rwa [← hback] at hrest'

/-- A walk over an instance begins outside of all classes, while its call is busy. -/
theorem Marked.begin {c : NodeId} {s : Site} {receiver : Option Ty} {args : List Ty}
    {method : NodeId} {m : Method} {b : Expr} {t : NodeId}
    (h : Marked first (g, .resolve c :: rest))
    (hm : g.method? method = some m) (hsource : m.source = .written b t)
    (hg : Grows g (g.specialized c s method m.params b receiver args)) :
    Marked first (g.specialized c s method m.params b receiver args,
      [.visit g.walks.size b g.cells.size, .finish c g.instances.size,
        .subscribe g.cells.size c .merge, .aim c (.inst g.instances.size)] ++ rest) := by
  have hs := steady_specialized g c s method m.params b receiver args
  have hinside : (g.specialized c s method m.params b receiver args).inside = g.inside :=
    funext hs.klass
  have hnone : g.inside g.walks.size = none := by
    rw [inside, walk, Array.getElem?_eq_none (Nat.le_refl _)]
    rfl
  have hwalk : g.walks.size < (g.specialized c s method m.params b receiver args).walks.size := by
    have hwalks : (g.specialized c s method m.params b receiver args).walks =
        (g.withBody b (instanceInputs m.params receiver args) (receiver.bind Ty.atom?)).walks := rfl
    rw [hwalks, walk_withBody, Array.size_push]
    exact Nat.lt_succ_self _
  have hover : (g.specialized c s method m.params b receiver args).GoesOver first g.walks.size b
      g.cells.size :=
    .inst (g.instances_specialized c s method m.params b receiver args) rfl
      (hg.template ⟨m, hm, hsource⟩)
  refine ⟨fun n hn => ?_, ?_, h.shelved.grow hg hs.classes hs.tables⟩
  · rcases hs.busy n hn with hn | hn
    · obtain ⟨i, hi⟩ := h.busy n hn
      have hrest := (List.mem_cons.mp hi).resolve_left (by simp)
      exact ⟨i, List.mem_append_right _ hrest⟩
    · obtain rfl := List.mem_singleton.mp hn
      exact ⟨g.instances.size, by simp⟩
  · rw [hinside]
    refine ⟨⟨hwalk, b, g.cells.size, none, hover, Expr.mem_stops_self .., ?_⟩, trivial, trivial,
      trivial, ?_⟩
    · rw [hnone]
      trivial
    · exact Fitting.grow h.fitting.2 hg fun c i hi => by rwa [hs.classes]

/-- The parts of a node lie in the same class, unless the node is a class. -/
theorem Fits.goesOn {w : WalkId} {e : Expr} {n : NodeId} {k : Option String}
    {tree : Expr} {root : NodeId} (hw : w < g.walks.size) (hover : g.GoesOver first w tree root)
    (hstop : ⟨n, k, e⟩ ∈ tree.stops none root) (hk : g.IsClassNamed (now w) k)
    (ht : task.GoesOn w e k n) : g.Fits first now task ∧ after now task = now := by
  rcases ht with hidle | ⟨p, hp, rfl, rfl⟩
  · exact fits_of_isIdle hidle
  · exact ⟨⟨hw, tree, root, p.klass, hover,
      Expr.stops_trans hstop (Expr.mem_stops_of_mem_parts hp), hk⟩, rfl⟩

theorem Marked.next (h : Marked first (g', ts ++ rest)) :
    (∀ us, (g'.next ts).2 = .ok us → Marked first ((g'.next ts).1, us ++ rest)) ∧
      ∀ f, (g'.next ts).2 = .error f → Marked first ((g'.next ts).1, rest) := by
  refine ⟨fun us hus => ?_, fun _ hf => nomatch hf⟩
  cases hus
  exact h

/-- Each task takes back the mark that it was left for, or sees to it that its own is. -/
theorem Marked.turn {step : Step} (h : Marked first (g, task :: rest)) (ht : g.Turn task step)
    (hg : Grows g step.1) :
    (∀ ts, step.2 = .ok ts → Marked first (step.1, ts ++ rest)) ∧
      ∀ f, step.2 = .error f → Marked first (step.1, rest) := by
  cases ht with
  | idle hidle hstep =>
      have hrest : Marked first (step.1, rest) := by
        refine (h.steady hstep.steady hg).drop (fun c i heq => ?_) fun w o heq => ?_ <;>
          subst heq <;> exact hidle.elim
      exact ⟨fun ts hts => hrest.append fun t ht => fits_of_isIdle (hstep.tasks ts hts t ht),
        fun _ _ => hrest⟩
  | @walk w e n _ hstep =>
      have h' := h.steady (hstep none).steady hg
      have hrest : Marked first (step.1, rest) := h'.drop (by simp) (by simp)
      obtain ⟨hw, tree, root, k, hover, hstop, hk⟩ := h'.fitting.1
      exact ⟨fun ts hts => hrest.append fun t ht =>
        Fits.goesOn hw hover hstop hk ((hstep k).tasks ts hts t ht), fun _ _ => hrest⟩
  | enter => exact (h.enter hg).next
  | begin hm hsource => exact (h.begin hm hsource hg).next
  | finish => exact h.finish.next
  | leave => exact h.leave.next

/-- The marks among the tasks that are dropped after a fault take all marks back. -/
theorem Marked.unwind (h : Marked first (g, rest)) (f : Fault) :
    Marked first ((g.unwind f rest).1, []) := by
  induction rest generalizing g f with
  | nil => exact h
  | cons task rest ih =>
      cases task with
      | finish c i => exact ih h.finish _
      | leave w outer => exact ih h.leave f
      | _ => exact ih (h.drop (by simp) (by simp)) f

/-! ## Runs -/

/-- A configuration in which no task reaches into a body, and each mark is taken back. -/
def Minding (first : List Task) (c : Config) : Prop := Tidy.Config c ∧ Marked first c

theorem Minding.turn (h : Minding first (g, task :: rest)) :
    (∀ ts, (g.perform task).2 = .ok ts → Marked first ((g.perform task).1, ts ++ rest)) ∧
      ∀ f, (g.perform task).2 = .error f → Marked first ((g.perform task).1, rest) := by
  obtain ⟨hT, hM⟩ := h
  have htask := hT.tasks task (List.mem_cons_self ..)
  exact hM.turn (turn_perform hT.graph task) (spares_perform hT.graph htask).grows

theorem Minding.passes {c c' : Config} {done : List Task} (h : Minding first c)
    (hp : Passes c done c') : Minding first c' := by
  refine hp.preserves (Minding first) h fun g task rest g' tasks hc hperform => ?_
  refine ⟨hc.1.step hperform, ?_⟩
  have hturn := hc.turn.1 tasks
  rw [hperform] at hturn
  exact hturn rfl

/-- However a run ends, no mark is left. -/
theorem Minding.run {tasks : List Task} {budget : Nat} (h : Minding first (g, tasks))
    (hend : (Graph.run budget g tasks).2 ≠ .exhausted) :
    Marked first ((Graph.run budget g tasks).1, []) := by
  cases hout : (Graph.run budget g tasks).2 with
  | finished =>
      obtain ⟨done, hdone⟩ := passes_of_run_finished hout
      exact (h.passes hdone).2
  | failed f =>
      obtain ⟨done, g₁, task, rest, g₂, f₂, hpass, hperform, heq⟩ := passes_of_run_failed hout
      have hfault := (h.passes hpass).turn.2 f₂
      rw [hperform] at hfault
      rw [(Prod.mk.inj heq).1]
      exact (hfault rfl).unwind f₂
  | exhausted => exact (hend hout).elim

end Graph

/-! ## Sessions -/

namespace Session

/-- The sessions that steps lead to which come to an end, with a failure or without. A type that is
given from outside may be a new clone of a class. A step that does not end is not among them, nor is
one that would be broken off because tasks nest too deep (see `Graph.run`). -/
inductive Concluded : Session → Prop where
  | start : Concluded Session.start
  | step {s : Session} {a : SessionStep} (h : Concluded s) (ha : s.Allows a) (budget : Nat)
      (hend : (s.step budget a).2 ≠ .exhausted) : Concluded (s.step budget a).1
  | typeOf {s s' : Session} {source : TypeSource} {t : Ty} (h : Concluded s)
      (ht : s.typeOf? source = some (s', t)) : Concluded s'
  | clearNotices {s : Session} (h : Concluded s) : Concluded s.clearNotices

variable {s : Session}

theorem Concluded.reached (h : s.Concluded) : s.Reached := by
  induction h with
  | start => exact .start
  | step _ ha budget _ ih => exact .step ih ha budget
  | typeOf _ ht ih => exact .typeOf ih ht
  | clearNotices _ ih => exact .clearNotices ih

/-- No mark is left, and the walk that holds the shared variables is there. -/
structure Restored (s : Session) : Prop where
  marked : Graph.Marked [] (s.graph, [])
  walk : s.walk < s.graph.walks.size

theorem Restored.grow {s' : Session} (h : s.Restored) (hs : Graph.Steady [] s.graph s'.graph)
    (hg : Graph.Grows s.graph s'.graph) (hw : s'.walk = s.walk) : s'.Restored :=
  ⟨h.marked.steady hs hg, hw ▸ hg.lt_walks h.walk⟩

theorem Restored.start : Restored Session.start := by
  have hcalls : ((List.range Graph.withBuiltins.cells.size).all fun n =>
      (Graph.withBuiltins.site? n).isNone) = true := by decide +kernel
  have hclasses : Graph.withBuiltins.classes.isEmpty = true := by decide +kernel
  rw [List.isEmpty_iff] at hclasses
  have hwalks := walks_withBuiltins
  rw [start_eq]
  generalize Graph.withBuiltins = g at hcalls hclasses hwalks
  have hnone : ∀ c, g.classes.lookup c = none := fun c => by rw [hclasses, List.lookup_nil]
  have hempty : Graph.Marked [] (g, []) := by
    refine ⟨fun n hn => ?_, fun w => ?_, fun hi => ?_, fun hc => ?_⟩
    · obtain ⟨x, hx, -⟩ := Graph.has_busy.mp hn
      obtain ⟨c, hc, -⟩ := hn
      have hlt := (Array.getElem?_eq_some_iff.mp hc).1
      have hnocall := List.all_eq_true.mp hcalls n (List.mem_range.mpr hlt)
      rw [hx] at hnocall
      cases hnocall
    · rw [Graph.inside, Graph.walk, Array.getElem?_eq_none (hwalks ▸ Nat.zero_le w)]
      rfl
    · rw [hnone] at hi
      cases hi
    · obtain ⟨i, hi, -⟩ := hc
      rw [hnone] at hi
      cases hi
  refine ⟨hempty.steady (Graph.steady_addWalk g rfl) (Graph.grows_addWalk g {}), ?_⟩
  simp [Graph.addWalk]

/-- Without marks, tasks may begin that fit. -/
theorem Restored.marked_tasks (h : s.Restored) {tasks : List Task}
    (hfits : ∀ t ∈ tasks, s.graph.Fits tasks s.graph.inside t ∧
      Graph.after s.graph.inside t = s.graph.inside) : Graph.Marked tasks (s.graph, tasks) := by
  have hempty : Graph.Marked tasks (s.graph, []) :=
    ⟨h.marked.busy, h.marked.fitting, h.marked.shelved⟩
  have hall := hempty.append hfits
  rwa [List.append_nil] at hall

/-- A walk over a new tree begins outside of all classes. -/
theorem Restored.marked_visit (h : s.Restored) {w : WalkId} (hw : w < s.graph.walks.size)
    (tree : Expr) (root : NodeId) :
    Graph.Marked [.visit w tree root] (s.graph, [.visit w tree root]) := by
  have hout : s.graph.inside w = none := h.marked.fitting w
  refine h.marked_tasks (List.forall_mem_singleton.mpr ⟨?_, rfl⟩)
  refine ⟨hw, tree, root, none, .first (List.mem_singleton_self _), Expr.mem_stops_self .., ?_⟩
  rw [hout]
  trivial

/-- Each step begins with tasks that fit. -/
theorem Restored.begin (h : s.Restored) (a : SessionStep) :
    Graph.Marked (s.begin a).2 ((s.begin a).1.graph, (s.begin a).2) ∧
      (s.begin a).1.walk < (s.begin a).1.graph.walks.size := by
  have hplant : ∀ tree, (s.plant tree).1.Restored := fun tree =>
    h.grow (Graph.steady_plant s.graph tree) (Graph.grows_plant s.graph tree) rfl
  cases a with
  | visit tree =>
      have hs' := hplant tree
      exact ⟨hs'.marked_visit hs'.walk _ _, hs'.walk⟩
  | fresh tree =>
      have hs' : (s.begin (.fresh tree)).1.Restored :=
        (hplant tree).grow (Graph.steady_addWalk _ rfl) (Graph.grows_addWalk _ {}) rfl
      have hw : (s.graph.plant tree).1.walks.size < (s.begin (.fresh tree)).1.graph.walks.size := by
        simp [Session.begin, plant, Graph.addWalk]
      exact ⟨hs'.marked_visit hw _ _, hs'.walk⟩
  | recalc | addType | setType =>
      exact ⟨h.marked_tasks (List.forall_mem_singleton.mpr ⟨trivial, rfl⟩), h.walk⟩

theorem Restored.minding (h : s.Restored) (ho : s.Orderly) {a : SessionStep} (ha : s.Allows a) :
    Graph.Minding (s.begin a).2 ((s.begin a).1.graph, (s.begin a).2) := by
  obtain ⟨hbegin, htasks⟩ := ho.begin ha
  exact ⟨⟨hbegin.tidy, htasks⟩, (h.begin a).1⟩

/-- However a step ends, it leaves no mark. -/
theorem Restored.step (h : s.Restored) (ho : s.Orderly) {a : SessionStep} (ha : s.Allows a)
    {budget : Nat} (hend : (s.step budget a).2 ≠ .exhausted) : (s.step budget a).1.Restored := by
  have hminding := h.minding ho ha
  have hwalk := hminding.1.run_preserves (P := fun g => (s.begin a).1.walk < g.walks.size)
    (h.begin a).2 (fun _ _ _ hw hc => hc.grows.lt_walks hw) budget
  rw [step_eq] at hend ⊢
  obtain ⟨hbusy, hfitting, hshelved⟩ := hminding.run hend
  exact ⟨⟨hbusy, hfitting, hshelved⟩, hwalk⟩

theorem Concluded.restored (h : s.Concluded) : s.Restored := by
  induction h with
  | start => exact .start
  | step h ha budget hend ih => exact ih.step h.reached.orderly ha hend
  | @typeOf s s' source t h ht ih =>
      cases source with
      | primitive name =>
          cases ht
          exact ih
      | cloneOf name =>
          obtain ⟨i, -, hi⟩ := Option.map_eq_some_iff.mp ht
          cases hi
          have htidy := h.reached.orderly.tidy
          exact ih.grow (Graph.steady_cloneObject htidy i) (Graph.grows_cloneObject _ i) rfl
  | clearNotices _ ih =>
      exact ih.grow (.of_walks (fun _ => .inl) rfl rfl rfl)
        (Graph.grows_append (fun _ _ => rfl) rfl id id) rfl

/-- After each step of a session that has come to an end, with a failure or without, no call is
busy, and no walk is in a class. Whenever a walk comes to a method in a further step, it puts the
method into the table of the class that is written innermost around it, in the tree that the walk
goes over, or among the methods of the program if no class is. -/
theorem Concluded.restores (h : s.Concluded) :
    (∀ c x, s.graph.site? c = some x → x.busy = false) ∧ (∀ w, (s.graph.walk w).klass = none) ∧
      ∀ a, s.Allows a → ∀ done g w nm ps b n rest,
        Graph.Passes ((s.begin a).1.graph, (s.begin a).2) done
          (g, .visit w (.method nm ps b) n :: rest) →
        ∃ tree root k, g.GoesOver (s.begin a).2 w tree root ∧
          ⟨n, k, .method nm ps b⟩ ∈ tree.stops none root ∧
          ∃ g', g.perform (.visit w (.method nm ps b) n) = (g', .ok []) ∧
            g.Files g' k nm.text n := by
  have hs := h.restored
  refine ⟨fun c x hx => ?_, hs.marked.fitting, fun a ha done g w nm ps b n rest hpass => ?_⟩
  · by_contra hbusy
    rw [Bool.not_eq_false] at hbusy
    obtain ⟨i, hi⟩ := hs.marked.busy c (Graph.has_busy.mpr ⟨x, hx, hbusy⟩)
    cases hi
  · have hnow := ((hs.minding h.reached.orderly ha).passes hpass).2
    obtain ⟨-, tree, root, k, hover, hstop, hk⟩ := hnow.fitting.1
    exact ⟨tree, root, k, hover, hstop, _, rfl, hnow.shelved.files hk nm.text n⟩

/-- In the body of a class a method is called, which opens another class and fails there. -/
def broken : Expr :=
  let name (text : String) : Token := ⟨text, 0⟩
  .block [
    .method (name "f") [name "x"] (.klass (name "B") (.call none (name "missing") [] true)),
    .klass (name "A") (.call none (name "f") [.literal ⟨.int, .int 1, 0⟩] true)]

/-- A method outside of all classes. -/
def newcomer : Expr := .method ⟨"late", 0⟩ [] (.literal ⟨.int, .int 1, 0⟩)

/-- When the last task fails, both walks are in a class and the call is busy. The next method is one
of the program all the same. -/
theorem restores_broken :
    let failing := (Session.start.step 11 (.visit broken)).1.graph
    let s := (Session.start.step 12 (.visit broken)).1
    (s.Concluded ∧ (Session.start.step 12 (.visit broken)).2 ≠ .finished) ∧
      ((failing.walk 0).klass = some 0 ∧ (failing.walk 1).klass = some 1 ∧
        (failing.site? (rootOf + 5)).map (·.busy) = some true) ∧
      (s.step 1 (.visit newcomer)).1.graph.methods.lookup "late" = some s.graph.cells.size ∧
      (∀ c x, s.graph.site? c = some x → x.busy = false) ∧ (∀ w, (s.graph.walk w).klass = none) ∧
      ∀ a, s.Allows a → ∀ done g w nm ps b n rest,
        Graph.Passes ((s.begin a).1.graph, (s.begin a).2) done
          (g, .visit w (.method nm ps b) n :: rest) →
        ∃ tree root k, g.GoesOver (s.begin a).2 w tree root ∧
          ⟨n, k, .method nm ps b⟩ ∈ tree.stops none root ∧
          ∃ g', g.perform (.visit w (.method nm ps b) n) = (g', .ok []) ∧
            g.Files g' k nm.text n := by
  intro failing s
  have hs : s.Concluded :=
    Concluded.step (a := .visit broken) .start trivial 12 (by decide +kernel)
  exact ⟨⟨hs, by decide +kernel⟩, by decide +kernel, by decide +kernel, hs.restores⟩

end Session

end TypeFlow
