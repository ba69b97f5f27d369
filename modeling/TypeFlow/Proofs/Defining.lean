import TypeFlow.Proofs.Programs

/-! # What definitions make known

Definitions fill the tables in which calls look for methods. What they make of the tables depends
on nothing else, and each method ends up in one table only. -/

namespace TypeFlow

namespace Graph

/-! ## The tables -/

/-- The part of a graph that definitions fill. -/
def shelf (g : Graph) : Graph where
  objects := g.objects
  tables := g.tables
  methods := g.methods
  natives := g.natives
  classes := g.classes

/-- The class of a name. It is made when it is first opened. -/
def declare (g : Graph) (name : String) : Graph × ObjId :=
  match g.classes.lookup name with
  | some i => (g, i)
  | none => g.addClass name

mutual
/-- Fills the tables as a walk over definitions does that starts in a class. -/
def define (g : Graph) (k : Option ObjId) (n : Nat) : Expr → Graph
  | .method nm _ _ => g.putMethod k nm.text n
  | .klass nm b => (g.declare nm.text).1.define (some (g.declare nm.text).2) (n + 1) b
  | .block es => g.defineList k (n + 1) es
  | _ => g

def defineList (g : Graph) (k : Option ObjId) (n : Nat) : List Expr → Graph
  | [] => g
  | e :: es => (g.define k n e).defineList k (n + e.size) es
end

theorem defineList_eq (g : Graph) (k : Option ObjId) (n : Nat) (es : List Expr) :
    g.defineList k n es = (Expr.spread n es).foldl (fun g x => g.define k x.1 x.2) g := by
  induction es generalizing g n with
  | nil => rfl
  | cons e es ih => rw [defineList, ih, Expr.spread, List.foldl_cons]

theorem shelf_putMethod (g : Graph) (k : Option ObjId) (name : String) (m : NodeId) :
    (g.putMethod k name m).shelf = g.shelf.putMethod k name m := by
  have hobjects : g.shelf.objects = g.objects := rfl
  unfold putMethod
  rw [hobjects]
  cases k.bind fun i => g.objects[i]? <;> rfl

theorem shelf_declare (g : Graph) (name : String) :
    (g.declare name).1.shelf = (g.shelf.declare name).1 ∧
      (g.declare name).2 = (g.shelf.declare name).2 := by
  have hclasses : g.shelf.classes = g.classes := rfl
  unfold declare
  rw [hclasses]
  cases g.classes.lookup name <;> exact ⟨rfl, rfl⟩

/-! ## Where calls look -/

/-- A place where calls look for methods. -/
inductive Scope where
  | program
  | native (type : String)
  | klass (table : TableId)

/-- The methods in a place. -/
def inScope (g : Graph) : Scope → Table String NodeId
  | .program => g.methods
  | .native n => (g.natives.lookup n).getD []
  | .klass t => g.tables[t]?.getD []

/-- The place where a call looks that has a receiver of some name. -/
def scopeAt? (g : Graph) : Option Tag → Option Scope
  | none => some .program
  | some (.prim n) => some (.native n)
  | some (.obj c) =>
      (g.classes.lookup c).bind fun i => g.objects[i]?.map fun o => .klass o.methods

/-- The method that a call finds, by the names of its receiver's type and of the method. -/
def find? (g : Graph) (r : Option Tag) (name : String) : Option NodeId :=
  (g.scopeAt? r).bind fun s => (g.inScope s).lookup name

/-- The tables are in order: each object type is the prototype of its class and has a table of its
own, and each method is in one table, if it lies below an address. -/
structure Filed (g : Graph) (bound : Nat) : Prop where
  below : ∀ {s x} {m : Nat}, (x, m) ∈ g.inScope s → m < bound
  apart : ∀ {s s' x x' m}, (x, m) ∈ g.inScope s → (x', m) ∈ g.inScope s' → s = s'
  known : ∀ {i : ObjId} {o : ObjectType}, g.objects[i]? = some o → g.classes.lookup o.name = some i
  named : ∀ {c i}, g.classes.lookup c = some i → ∃ o, g.objects[i]? = some o ∧ o.name = c
  table : ∀ {i : ObjId} {o : ObjectType}, g.objects[i]? = some o → o.methods < g.tables.size
  own : ∀ {i j : ObjId} {o p : ObjectType}, g.objects[i]? = some o → g.objects[j]? = some p →
    o.methods = p.methods → i = j

variable {g : Graph} {bound : Nat}

theorem Filed.mono (h : g.Filed bound) {bound' : Nat} (hb : bound ≤ bound') : g.Filed bound' :=
  { h with below := fun hm => Nat.lt_of_lt_of_le (h.below hm) hb }

/-- A class has a table of its own. -/
theorem Filed.scope_of_class (h : g.Filed bound) {c : String} {s : Scope}
    (hs : g.scopeAt? (some (.obj c)) = some s) :
    ∃ (i : ObjId) (o : ObjectType), g.objects[i]? = some o ∧ o.name = c ∧ s = .klass o.methods := by
  obtain ⟨i, hi, hmap⟩ := Option.bind_eq_some_iff.mp hs
  obtain ⟨o, ho, rfl⟩ := Option.map_eq_some_iff.mp hmap
  obtain ⟨p, hp, hname⟩ := h.named hi
  rw [ho] at hp
  cases hp
  exact ⟨i, o, ho, hname, rfl⟩

theorem Filed.scopeAt_inj (h : g.Filed bound) {r r' : Option Tag} {s : Scope}
    (hs : g.scopeAt? r = some s) (hs' : g.scopeAt? r' = some s) : r = r' := by
  rcases r with _ | n | c
  · cases hs
    rcases r' with _ | n' | c'
    · rfl
    · cases hs'
    · obtain ⟨i, o, -, -, heq⟩ := h.scope_of_class hs'
      cases heq
  · cases hs
    rcases r' with _ | n' | c'
    · cases hs'
    · cases hs'
      rfl
    · obtain ⟨i, o, -, -, heq⟩ := h.scope_of_class hs'
      cases heq
  · obtain ⟨i, o, ho, rfl, rfl⟩ := h.scope_of_class hs
    rcases r' with _ | n' | c'
    · cases hs'
    · cases hs'
    · obtain ⟨j, p, hp, rfl, heq⟩ := h.scope_of_class hs'
      cases h.own ho hp (Scope.klass.inj heq)
      rw [ho] at hp
      cases hp
      rfl

/-- A method is found for receivers of one name only. -/
theorem Filed.unique (h : g.Filed bound) {r r' : Option Tag} {x x' : String} {m : NodeId}
    (hr : g.find? r x = some m) (hr' : g.find? r' x' = some m) : r = r' := by
  obtain ⟨s, hs, hm⟩ := Option.bind_eq_some_iff.mp hr
  obtain ⟨s', hs', hm'⟩ := Option.bind_eq_some_iff.mp hr'
  obtain rfl := h.apart (Table.mem_of_lookup hm) (Table.mem_of_lookup hm')
  exact h.scopeAt_inj hs hs'

/-! ## Filling the tables keeps them in order -/

/-- A class that a walk is in has been made. -/
def IsClass (g : Graph) (k : Option ObjId) : Prop := ∀ i ∈ k, ∃ o, g.objects[i]? = some o

theorem objects_putMethod (g : Graph) (k : Option ObjId) (name : String) (m : NodeId) :
    (g.putMethod k name m).objects = g.objects ∧ (g.putMethod k name m).classes = g.classes ∧
      (g.putMethod k name m).tables.size = g.tables.size := by
  unfold putMethod
  cases k.bind fun i => g.objects[i]? <;> simp

/-- A method is put into one place. -/
theorem exists_scope_putMethod (g : Graph) (k : Option ObjId) (name : String) (n : NodeId) :
    ∃ s, ∀ s' e, e ∈ (g.putMethod k name n).inScope s' →
      e ∈ g.inScope s' ∨ s' = s ∧ e = (name, n) := by
  unfold putMethod
  cases k.bind fun i => g.objects[i]? with
  | none =>
      refine ⟨.program, fun s' e he => ?_⟩
      cases s' with
      | program => exact (Table.mem_of_mem_put he).imp_right fun h => ⟨rfl, h⟩
      | native | klass => exact .inl he
  | some o =>
      refine ⟨.klass o.methods, fun s' e he => ?_⟩
      cases s' with
      | program | native => exact .inl he
      | klass t =>
          simp only [inScope, Array.getElem?_modify] at he ⊢
          by_cases ht : o.methods = t
          · subst ht
            rw [if_pos rfl] at he
            cases hget : g.tables[o.methods]? with
            | none => simp [hget] at he
            | some table =>
                simp only [hget, Option.map_some, Option.getD_some] at he
                exact (Table.mem_of_mem_put he).imp_right fun h => ⟨rfl, h⟩
          · rw [if_neg ht] at he
            exact .inl he

theorem Filed.putMethod (h : g.Filed bound) (k : Option ObjId) (name : String) :
    (g.putMethod k name bound).Filed (bound + 1) := by
  obtain ⟨hobjects, hclasses, htables⟩ := g.objects_putMethod k name bound
  obtain ⟨s, hs⟩ := g.exists_scope_putMethod k name bound
  refine ⟨fun hm => ?_, fun hm hm' => ?_, fun ho => ?_, fun hc => ?_, fun ho => ?_, fun ho hp => ?_⟩
  · rcases hs _ _ hm with hm | ⟨-, heq⟩
    · exact Nat.lt_succ_of_lt (h.below hm)
    · cases heq
      exact Nat.lt_succ_self _
  · rcases hs _ _ hm with hm | ⟨rfl, heq⟩ <;> rcases hs _ _ hm' with hm' | ⟨rfl, heq'⟩
    · exact h.apart hm hm'
    · cases heq'
      exact (Nat.lt_irrefl _ (h.below hm)).elim
    · cases heq
      exact (Nat.lt_irrefl _ (h.below hm')).elim
    · rfl
  · rw [hobjects] at ho
    rw [hclasses]
    exact h.known ho
  · rw [hclasses] at hc
    rw [hobjects]
    exact h.named hc
  · rw [hobjects] at ho
    rw [htables]
    exact h.table ho
  · rw [hobjects] at ho hp
    exact h.own ho hp

theorem Filed.addClass (h : g.Filed bound) {name : String} (hnew : g.classes.lookup name = none) :
    (g.addClass name).1.Filed bound := by
  have hscope : ∀ s, (g.addClass name).1.inScope s = g.inScope s := by
    intro s
    cases s with
    | program | native => rfl
    | klass t =>
        simp only [inScope, Graph.addClass, Array.getElem?_push]
        split
        · next ht =>
            subst ht
            simp
        · rfl
  have hlookup : ∀ c, (g.addClass name).1.classes.lookup c =
      if c == name then some g.objects.size else g.classes.lookup c := fun c =>
    Table.lookup_put g.classes name c g.objects.size
  have hobject : ∀ {i : ObjId} {o : ObjectType}, (g.addClass name).1.objects[i]? = some o →
      g.objects[i]? = some o ∨ i = g.objects.size ∧ o = ⟨name, g.tables.size, []⟩ := by
    intro i o ho
    simp only [Graph.addClass, Array.getElem?_push] at ho
    split at ho
    · next hi => exact .inr ⟨hi, (Option.some.inj ho).symm⟩
    · exact .inl ho
  refine ⟨fun hm => ?_, fun hm hm' => ?_, fun ho => ?_, fun hc => ?_, fun ho => ?_,
    fun ho hp heq => ?_⟩
  · rw [hscope] at hm
    exact h.below hm
  · rw [hscope] at hm hm'
    exact h.apart hm hm'
  · rw [hlookup]
    rcases hobject ho with ho | ⟨rfl, rfl⟩
    · have hk := h.known ho
      rw [if_neg fun heq => ?_, hk]
      rw [eq_of_beq heq, hnew] at hk
      cases hk
    · rw [if_pos (beq_self_eq_true _)]
  · rw [hlookup] at hc
    split at hc
    · next heq =>
        cases hc
        exact ⟨⟨name, g.tables.size, []⟩, Array.getElem?_push_size, (eq_of_beq heq).symm⟩
    · obtain ⟨o, ho, rfl⟩ := h.named hc
      exact ⟨o, getElem?_push_of_some _ ho, rfl⟩
  · rw [Graph.addClass, Array.size_push]
    rcases hobject ho with ho | ⟨rfl, rfl⟩
    · exact Nat.lt_succ_of_lt (h.table ho)
    · exact Nat.lt_succ_self _
  · rcases hobject ho with ho | ⟨rfl, rfl⟩ <;> rcases hobject hp with hp | ⟨rfl, rfl⟩
    · exact h.own ho hp heq
    · exact (Nat.ne_of_lt (h.table ho) heq).elim
    · exact (Nat.ne_of_lt (h.table hp) heq.symm).elim
    · rfl

theorem Filed.declare (h : g.Filed bound) (name : String) :
    (g.declare name).1.Filed bound ∧ (g.declare name).1.IsClass (some (g.declare name).2) := by
  unfold Graph.declare
  cases hc : g.classes.lookup name with
  | some i =>
      refine ⟨h, fun j hj => ?_⟩
      cases hj
      obtain ⟨o, ho, -⟩ := h.named hc
      exact ⟨o, ho⟩
  | none =>
      refine ⟨h.addClass hc, fun j hj => ?_⟩
      cases hj
      exact ⟨_, Array.getElem?_push_size⟩

/-- Definitions keep the tables in order. -/
theorem Filed.define (h : g.Filed bound) {e : Expr} (k : Option ObjId) {n : Nat}
    (hn : bound ≤ n) : (g.define k n e).Filed (n + e.size) := by
  induction e generalizing g bound k n with
  | method nm ps b =>
      refine ((h.mono hn).putMethod k nm.text).mono ?_
      have := b.size_pos
      simp only [Expr.size]
      omega
  | klass nm b ih =>
      rw [Graph.define]
      have := ih (h.declare nm.text).1 (some (g.declare nm.text).2) (Nat.le_succ_of_le hn)
      rwa [Expr.size, ← Nat.add_assoc]
  | block es ih =>
      rw [Graph.define, Expr.size, ← Nat.add_assoc]
      have hlist : ∀ (es : List Expr), (∀ e ∈ es, ∀ {g : Graph} {bound : Nat}, g.Filed bound →
          ∀ (k : Option ObjId) {n : Nat}, bound ≤ n → (g.define k n e).Filed (n + e.size)) →
          ∀ {g : Graph} {n : Nat}, g.Filed n → (g.defineList k n es).Filed (n + Expr.sizeList es) := by
        intro es
        induction es with
        | nil => exact fun _ {_ _} h => h
        | cons e es ihes =>
            intro ih g n h
            rw [Graph.defineList, Expr.sizeList, ← Nat.add_assoc]
            exact ihes (fun x hx => ih x (List.mem_cons_of_mem _ hx))
              (ih e (List.mem_cons_self ..) h k (Nat.le_refl _))
      exact hlist es (fun e he {_ _} h k {_} hn => ih e he h k hn) (h.mono (Nat.le_succ_of_le hn))
  | literal | place | const | assign | loop | cond | call =>
      exact h.mono (Nat.le_trans hn (Nat.le_add_right ..))

theorem Filed.defineList (h : g.Filed bound) (k : Option ObjId) (es : List Expr) :
    (g.defineList k bound es).Filed (bound + Expr.sizeList es) := by
  induction es generalizing g bound with
  | nil => exact h
  | cons e es ih =>
      rw [Graph.defineList, Expr.sizeList, ← Nat.add_assoc]
      exact ih (h.define k (Nat.le_refl _))

/-! ## The tables as they are at first -/

theorem inScope_shelf (g : Graph) (s : Scope) : g.shelf.inScope s = g.inScope s := by
  cases s <;> rfl

theorem Filed.shelf (h : g.Filed bound) : g.shelf.Filed bound where
  below hm := h.below (g.inScope_shelf _ ▸ hm)
  apart hm hm' := h.apart (g.inScope_shelf _ ▸ hm) (g.inScope_shelf _ ▸ hm')
  known := h.known
  named := h.named
  table := h.table
  own := h.own

/-- All methods that are in some table. -/
def filedMethods (g : Graph) : List NodeId :=
  (g.methods.map (·.2)) ++ g.natives.flatMap fun t => t.2.map (·.2)

/-- Tables without classes are in order if no method is in them twice. -/
theorem filed_of_nodup (hobjects : g.objects = #[]) (htables : g.tables = #[])
    (hclasses : g.classes = []) (hbound : ∀ m ∈ g.filedMethods, (m : Nat) < bound)
    (hnodup : g.filedMethods.Nodup) : g.Filed bound := by
  have hnative : ∀ {n e}, e ∈ g.inScope (.native n) → ∃ t ∈ g.natives, t.1 = n ∧ e ∈ t.2 := by
    intro n e he
    cases ht : g.natives.lookup n with
    | none => simp [inScope, ht] at he
    | some t =>
        simp only [inScope, ht, Option.getD_some] at he
        exact ⟨_, Table.mem_of_lookup ht, rfl, he⟩
  have hklass : ∀ {t e}, e ∉ g.inScope (.klass t) := by
    intro t e he
    simp [inScope, htables] at he
  obtain ⟨-, hnatives, hapart⟩ := List.nodup_append.mp hnodup
  obtain ⟨-, hpairwise⟩ := List.nodup_flatMap.mp hnatives
  have hmem : ∀ {t e}, t ∈ g.natives → e ∈ t.2 →
      e.2 ∈ g.natives.flatMap fun t => t.2.map (·.2) := fun ht he =>
    List.mem_flatMap.mpr ⟨_, ht, List.mem_map_of_mem he⟩
  refine ⟨fun {s x m} hm => ?_, fun {s s' x x' m} hm hm' => ?_, fun ho => ?_, fun hc => ?_,
    fun ho => ?_, fun ho => ?_⟩
  · cases s with
    | program => exact hbound m (List.mem_append_left _ (List.mem_map_of_mem hm))
    | native n =>
        obtain ⟨t, ht, -, he⟩ := hnative hm
        exact hbound m (List.mem_append_right _ (hmem ht he))
    | klass t => exact (hklass hm).elim
  · have hprogram : ∀ {n x x'}, (x, m) ∈ g.inScope .program → (x', m) ∉ g.inScope (.native n) := by
      intro n x x' hm hm'
      obtain ⟨t, ht, -, he⟩ := hnative hm'
      exact hapart m (List.mem_map_of_mem (f := (·.2)) hm) m (hmem ht he) rfl
    cases s with
    | klass t => exact (hklass hm).elim
    | program =>
        cases s' with
        | program => rfl
        | klass t => exact (hklass hm').elim
        | native n => exact (hprogram hm hm').elim
    | native n =>
        cases s' with
        | program => exact (hprogram hm' hm).elim
        | klass t => exact (hklass hm').elim
        | native n' =>
            obtain ⟨t, ht, rfl, he⟩ := hnative hm
            obtain ⟨t', ht', rfl, he'⟩ := hnative hm'
            by_cases heq : t = t'
            · rw [heq]
            · have hdisjoint : (t.2.map (·.2)).Disjoint (t'.2.map (·.2)) := by
                have : Std.Symm (Function.onFun List.Disjoint
                    fun t : String × Table String NodeId => t.2.map (·.2)) :=
                  ⟨fun _ _ h => List.Disjoint.symm h⟩
                exact hpairwise.forall ht ht' heq
              exact (hdisjoint (List.mem_map_of_mem (f := (·.2)) he)
                (List.mem_map_of_mem (f := (·.2)) he')).elim
  · simp [hobjects] at ho
  · simp [hclasses] at hc
  · simp [hobjects] at ho
  · simp [hobjects] at ho

theorem filed_withBuiltins : withBuiltins.Filed withBuiltins.cells.size :=
  filed_of_nodup (by decide +kernel) (by decide +kernel) (by decide +kernel) (by decide +kernel)
    (by decide +kernel)

/-- The tables stay as they were filled, and new objects are like those of a class that is known. -/
structure Booked (T g : Graph) : Prop where
  methods : g.methods = T.methods
  natives : g.natives = T.natives
  tables : g.tables = T.tables
  classes : g.classes = T.classes
  object : ∀ {i : ObjId} {o : ObjectType}, g.objects[i]? = some o →
    ∃ j p, T.classes.lookup o.name = some j ∧ T.objects[j]? = some p ∧ p.methods = o.methods

theorem Filed.booked (h : g.shelf.Filed bound) : Booked g.shelf g :=
  ⟨rfl, rfl, rfl, rfl, fun ho => ⟨_, _, h.known ho, ho, rfl⟩⟩

/-- Calls find what the tables say. -/
theorem Booked.find {T : Graph} (h : Booked T g) {r : Option Atom}
    (hr : ∀ i, r = some (.obj i) → ∃ o, g.objects[i]? = some o) (name : String) :
    (g.scopeOf (r.map .one)).lookup name = T.find? (r.map g.heap.tag) name := by
  rcases r with _ | n | i
  · simp [scopeOf, find?, scopeAt?, inScope, h.methods]
  · simp [scopeOf, methodsOf, Heap.tag, find?, scopeAt?, inScope, h.natives]
  · obtain ⟨o, ho⟩ := hr i rfl
    obtain ⟨j, p, hj, hp, hmethods⟩ := h.object ho
    simp only [Option.map_some, scopeOf, methodsOf, ho, Option.bind_some, h.tables]
    simp [find?, scopeAt?, Heap.tag, heap, ho, hj, hp, hmethods, inScope]

end Graph

/-! ## Programs -/

namespace Program

variable (P : Program)

/-- The tables as the definitions of a program fill them. -/
def tables : Graph := Session.start.graph.shelf.defineList none (rootOf + 1) P.defs

theorem filed : P.tables.Filed P.mainAt := by
  have hstart : Session.start.graph.shelf.Filed rootOf := by
    have h := Graph.filed_withBuiltins.shelf
    unfold rootOf
    rw [start_eq]
    generalize Graph.withBuiltins = g at h
    exact h
  unfold tables mainAt
  generalize rootOf = root at hstart ⊢
  exact (hstart.mono (Nat.le_succ root)).defineList none P.defs

end Program

end TypeFlow
