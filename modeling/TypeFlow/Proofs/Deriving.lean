import TypeFlow.Proofs.Defining

/-! # What can be derived of a program

The types of a program are the least that its rules allow. The rules speak of names of types only,
so it does not matter in which order anything comes to be known. -/

namespace TypeFlow

/-- The name of the type that an expression has by itself, whatever is in it. -/
def Expr.own? : Expr → Option Tag
  | .literal l => some (.prim l.kind.typeName)
  | .loop _ _ | .block [] => some (.prim "Void")
  | .call (some (.const c)) nm _ _ => if nm.text == "new" then some (.obj c.text) else none
  | _ => none

theorem Expr.own_call {rc : Option Expr} {nm : Token} {es : List Expr} {p : Bool}
    (h : (Expr.call rc nm es p).isNew = false) : (Expr.call rc nm es p).own? = none := by
  unfold own?
  split
  · next heq => cases heq
  · next heq => cases heq
  · next heq => cases heq
  · next heq =>
      cases heq
      simp only [isNew] at h
      rw [h]
      rfl
  · rfl

theorem Expr.own_new {c nm : Token} {es : List Expr} {p : Bool}
    (h : (Expr.call (some (.const c)) nm es p).isNew = true) :
    (Expr.call (some (.const c)) nm es p).own? = some (.obj c.text) := by
  rw [isNew] at h
  rw [own?, if_pos h]

/-- A body that is walked over: that of the program, or that of a method for a receiver and
arguments of some types. -/
inductive Frame where
  | main
  | inst (method : NodeId) (receiver : Option Tag) (args : List Tag)

/-- What may be known of a program. -/
inductive Fact where
  | reached (frame : Frame)
  | type (frame : Frame) (expr : Expr) (tag : Tag)
  | var (frame : Frame) (name : String) (tag : Tag)
  /-- Some call is made with a receiver and arguments of these types. -/
  | asked (receiver : Option Tag) (name : String) (args : List Tag)
  /-- Such a call has a result of this type. -/
  | result (receiver : Option Tag) (name : String) (args : List Tag) (tag : Tag)

/-- The inputs of a call, each with the name of a type. -/
def Expr.given (rc : Option Expr) (es : List Expr) (r : Option Tag) (as : List Tag) :
    List (Expr × Tag) :=
  rc.toList.zip r.toList ++ es.zip as

/-- A call has as many inputs as there are types. -/
def Expr.Matches (rc : Option Expr) (es : List Expr) (r : Option Tag) (as : List Tag) : Prop :=
  rc.isSome = r.isSome ∧ es.length = as.length

namespace Program

/-- A built-in method has a signature for some types, with this type for the result. -/
def Native (m : NodeId) (as : List Tag) (t : Tag) : Prop :=
  ∃ key i x ty, Session.start.graph.Has (.mark m (.cached key i)) ∧
    Session.start.graph.instances[i]? = some x ∧
    Session.start.graph.heap.tagRow key = as.map (fun a => some {a}) ∧
    Session.start.graph.type x.body = some ty ∧ t ∈ Session.start.graph.heap.tags ty

variable (P : Program)

/-- An expression is in the body that a frame is about. -/
def Holds (e : Expr) : Frame → Prop
  | .main => P.Main e
  | .inst m _ _ => ∃ ps b, P.Code m ps b ∧ ∃ q ∈ b.stops none 0, q.expr = e

/-- The type that a variable has from the call of its method. -/
def Input (x : String) (t : Tag) : Frame → Prop
  | .main => False
  | .inst m r as => ∃ ps b, P.Code m ps b ∧
      (Table.ofList ((r.toList.map fun t => ("self", t)) ++ ps.zip as)).lookup x = some t

/-- The rules. -/
inductive Derives : Fact → Prop where
  | main : Derives (.reached .main)
  | inst {m : NodeId} {r : Option Tag} {x : String} {as : List Tag} {ps : List String} {b : Expr} :
      Derives (.asked r x as) → P.tables.find? r x = some m → P.Code m ps b →
      ps.length = as.length → Derives (.reached (.inst m r as))
  | own {f : Frame} {e : Expr} {t : Tag} : e.own? = some t → Derives (.type f e t)
  | last {f : Frame} {es : List Expr} {e : Expr} {t : Tag} : es.getLast? = some e →
      Derives (.type f e t) → Derives (.type f (.block es) t)
  | yes {f : Frame} {c y : Expr} {n : Option Expr} {t : Tag} :
      Derives (.type f y t) → Derives (.type f (.cond c y n) t)
  | no {f : Frame} {c y n : Expr} {t : Tag} : Expr.hasElse (some n) = true →
      Derives (.type f n t) → Derives (.type f (.cond c y (some n)) t)
  | assign {f : Frame} {p : Place} {v : Expr} {t : Tag} :
      Derives (.type f v t) → Derives (.type f (.assign p v) t)
  | place {f : Frame} {p : Place} {t : Tag} :
      Derives (.var f p.name.text t) → Derives (.type f (.place p) t)
  | assigned {f : Frame} {p : Place} {v : Expr} {t : Tag} : P.Holds (.assign p v) f →
      Derives (.type f (.assign p v) t) → Derives (.var f p.name.text t)
  | input {f : Frame} {x : String} {t : Tag} : P.Input x t f → Derives (.var f x t)
  | ask {f : Frame} {rc : Option Expr} {nm : Token} {es : List Expr} {p : Bool} {r : Option Tag}
      {as : List Tag} : Derives (.reached f) → P.Holds (.call rc nm es p) f →
      (Expr.call rc nm es p).isNew = false → Expr.Matches rc es r as →
      (∀ e t, (e, t) ∈ Expr.given rc es r as → Derives (.type f e t)) →
      Derives (.asked r nm.text as)
  | call {f : Frame} {rc : Option Expr} {nm : Token} {es : List Expr} {p : Bool} {r : Option Tag}
      {as : List Tag} {t : Tag} : (Expr.call rc nm es p).isNew = false →
      Expr.Matches rc es r as → (∀ e t, (e, t) ∈ Expr.given rc es r as → Derives (.type f e t)) →
      Derives (.result r nm.text as t) → Derives (.type f (.call rc nm es p) t)
  | body {r : Option Tag} {x : String} {as : List Tag} {m : NodeId} {ps : List String} {b : Expr}
      {t : Tag} : P.tables.find? r x = some m → P.Code m ps b → ps.length = as.length →
      Derives (.type (.inst m r as) b t) → Derives (.result r x as t)
  | native {r : Option Tag} {x : String} {as : List Tag} {m : NodeId} {t : Tag} :
      P.tables.find? r x = some m → Native m as t → Derives (.result r x as t)

/-- A call finds a method that can be called with such arguments. -/
def Serves (r : Option Tag) (x : String) (as : List Tag) : Prop :=
  ∃ m, P.tables.find? r x = some m ∧
    ((∃ ps b, P.Code m ps b ∧ ps.length = as.length) ∨ ∃ t, Native m as t)

/-- An error can be derived: a call finds no method, or an object is made of no class. -/
inductive Fails : Prop where
  | call {r : Option Tag} {x : String} {as : List Tag} :
      P.Derives (.asked r x as) → ¬ P.Serves r x as → Fails
  | new {f : Frame} {c nm : Token} {es : List Expr} {p : Bool} : P.Derives (.reached f) →
      P.Holds (.call (some (.const c)) nm es p) f → nm.text = "new" →
      P.tables.classes.lookup c.text = none → Fails

/-! ## Rules read backwards -/

variable {P} {f : Frame} {t : Tag}

theorem derives_own {e : Expr} {t' : Tag} (h : e.own? = some t') :
    P.Derives (.type f e t) ↔ t = t' := by
  refine ⟨fun hd => ?_, fun ht => .own (ht ▸ h)⟩
  cases hd with
  | own h' => exact Option.some.inj (h'.symm.trans h)
  | last hlast =>
      rename_i es e _
      cases es with
      | nil => cases hlast
      | cons => cases h
  | yes | no | assign | place => cases h
  | call hnew =>
      rw [Expr.own_call hnew] at h
      cases h

theorem derives_block {es : List Expr} {e : Expr} (h : es.getLast? = some e) :
    P.Derives (.type f (.block es) t) ↔ P.Derives (.type f e t) := by
  refine ⟨fun hd => ?_, .last h⟩
  cases hd with
  | own h' =>
      cases es with
      | nil => cases h
      | cons => cases h'
  | last h' hd =>
      rw [h] at h'
      cases h'
      exact hd

theorem derives_cond {c y : Expr} {n : Option Expr} : P.Derives (.type f (.cond c y n) t) ↔
    P.Derives (.type f y t) ∨ ∃ e, n = some e ∧ Expr.hasElse n = true ∧ P.Derives (.type f e t) := by
  constructor
  · intro hd
    cases hd with
    | own h => cases h
    | yes hd => exact .inl hd
    | no he hd => exact .inr ⟨_, rfl, he, hd⟩
  · rintro (hd | ⟨e, rfl, he, hd⟩)
    · exact .yes hd
    · exact .no he hd

theorem derives_assign {p : Place} {v : Expr} :
    P.Derives (.type f (.assign p v) t) ↔ P.Derives (.type f v t) := by
  refine ⟨fun hd => ?_, .assign⟩
  cases hd with
  | own h => cases h
  | assign hd => exact hd

theorem derives_place {p : Place} :
    P.Derives (.type f (.place p) t) ↔ P.Derives (.var f p.name.text t) := by
  refine ⟨fun hd => ?_, .place⟩
  cases hd with
  | own h => cases h
  | place hd => exact hd

theorem derives_var {x : String} : P.Derives (.var f x t) ↔ P.Input x t f ∨
    ∃ p v, p.name.text = x ∧ P.Holds (.assign p v) f ∧ P.Derives (.type f (.assign p v) t) := by
  constructor
  · intro hd
    cases hd with
    | assigned hh hd => exact .inr ⟨_, _, rfl, hh, hd⟩
    | input h => exact .inl h
  · rintro (h | ⟨p, v, rfl, hh, hd⟩)
    · exact .input h
    · exact .assigned hh hd

theorem derives_call {rc : Option Expr} {nm : Token} {es : List Expr} {p : Bool}
    (hnew : (Expr.call rc nm es p).isNew = false) : P.Derives (.type f (.call rc nm es p) t) ↔
      ∃ r as, Expr.Matches rc es r as ∧
        (∀ e t, (e, t) ∈ Expr.given rc es r as → P.Derives (.type f e t)) ∧
        P.Derives (.result r nm.text as t) := by
  constructor
  · intro hd
    cases hd with
    | own h =>
        rw [Expr.own_call hnew] at h
        cases h
    | call _ hm hin hd => exact ⟨_, _, hm, hin, hd⟩
  · rintro ⟨r, as, hm, hin, hd⟩
    exact .call hnew hm hin hd

/-- Nothing can be derived of the type of a definition or of the name of a class. -/
theorem not_derives_of_untyped {e : Expr} (he : (∃ n, e = .const n) ∨ (∃ n ps b, e = .method n ps b) ∨
    ∃ n b, e = .klass n b) : ¬ P.Derives (.type f e t) := by
  rintro hd
  rcases he with ⟨n, rfl⟩ | ⟨n, ps, b, rfl⟩ | ⟨n, b, rfl⟩ <;>
    · cases hd with
      | own h => cases h

end Program

/-! ## Order does not matter -/

namespace Program

section perm

variable {P Q : Program} (hdefs : P.defs = Q.defs)
include hdefs

theorem tables_eq : P.tables = Q.tables := by rw [tables, tables, hdefs]

theorem code_iff {m : NodeId} {ps : List String} {b : Expr} : P.Code m ps b ↔ Q.Code m ps b := by
  rw [Code, Code, hdefs]

theorem Input.of_defs {x : String} {t : Tag} {f : Frame} (h : P.Input x t f) : Q.Input x t f := by
  cases f with
  | main => exact h
  | inst m r as =>
      obtain ⟨ps, b, hb, hx⟩ := h
      exact ⟨ps, b, (code_iff hdefs).mp hb, hx⟩

theorem Serves.of_defs {r : Option Tag} {x : String} {as : List Tag} (h : P.Serves r x as) :
    Q.Serves r x as := by
  obtain ⟨m, hm, hserves⟩ := h
  refine ⟨m, tables_eq hdefs ▸ hm, hserves.imp_left ?_⟩
  rintro ⟨ps, b, hb, hlen⟩
  exact ⟨ps, b, (code_iff hdefs).mp hb, hlen⟩

variable (hstmts : P.stmts.Perm Q.stmts)
include hstmts

theorem Holds.of_perm {e : Expr} {f : Frame} (h : P.Holds e f) : Q.Holds e f := by
  cases f with
  | main => exact (main_perm hdefs hstmts e).mp h
  | inst m r as =>
      obtain ⟨ps, b, hb, hq⟩ := h
      exact ⟨ps, b, (code_iff hdefs).mp hb, hq⟩

/-- Programs that do the same in another order allow the same to be derived. -/
theorem Derives.of_perm {fact : Fact} (h : P.Derives fact) : Q.Derives fact := by
  have htables := tables_eq hdefs
  induction h with
  | main => exact .main
  | inst _ hm hb hlen ih => exact .inst ih (htables ▸ hm) ((code_iff hdefs).mp hb) hlen
  | own ht => exact .own ht
  | last hlast _ ih => exact .last hlast ih
  | yes _ ih => exact .yes ih
  | no he _ ih => exact .no he ih
  | assign _ ih => exact .assign ih
  | place _ ih => exact .place ih
  | assigned hh _ ih => exact .assigned (hh.of_perm hdefs hstmts) ih
  | input hi => exact .input (hi.of_defs hdefs)
  | ask _ hh hnew hmatch _ ihf ih => exact .ask ihf (hh.of_perm hdefs hstmts) hnew hmatch ih
  | call hnew hmatch _ _ ih ihr => exact .call hnew hmatch ih ihr
  | body hm hb hlen _ ih => exact .body (htables ▸ hm) ((code_iff hdefs).mp hb) hlen ih
  | native hm hn => exact .native (htables ▸ hm) hn

/-- An error that can be derived can be derived in any order. -/
theorem Fails.of_perm (h : P.Fails) : Q.Fails := by
  cases h with
  | call hasked hserves =>
      exact .call (hasked.of_perm hdefs hstmts) fun h => hserves (h.of_defs hdefs.symm)
  | new hreached hholds hname hclass =>
      exact .new (hreached.of_perm hdefs hstmts) (hholds.of_perm hdefs hstmts) hname
        (tables_eq hdefs ▸ hclass)

end perm

end Program

end TypeFlow
