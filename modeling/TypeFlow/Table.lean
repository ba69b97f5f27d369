/-! Tables that keep the order in which their keys appeared. Keys are compared by a test that
the caller supplies, the stored key on the left; it need not stay the same from one use of the
table to the next. -/

namespace TypeFlow

abbrev Table (κ β : Type) := List (κ × β)

namespace Table

variable {κ β : Type}

/-- The value of the first key that passes the test against the given key. -/
def findBy? (same : κ → κ → Bool) (k : κ) (t : Table κ β) : Option β :=
  (t.find? fun e => same e.1 k).map (·.2)

/-- Replaces the value of the first key that passes the test, or adds the key at the end. -/
def putBy (same : κ → κ → Bool) (k : κ) (v : β) : Table κ β → Table κ β
  | [] => [(k, v)]
  | e :: t => if same e.1 k then (e.1, v) :: t else e :: putBy same k v t

/-- Replaces the value of a key, or adds the key at the end. -/
def put [BEq κ] (t : Table κ β) (k : κ) (v : β) : Table κ β := putBy (· == ·) k v t

@[simp] theorem putBy_nil (same : κ → κ → Bool) (k : κ) (v : β) :
    putBy same k v [] = [(k, v)] := rfl

/-- Putting keeps the keys, and adds the new one only if none passes the test. -/
theorem keys_putBy (same : κ → κ → Bool) (k : κ) (v : β) (t : Table κ β) :
    (putBy same k v t).map (·.1) =
      if t.any fun e => same e.1 k then t.map (·.1) else t.map (·.1) ++ [k] := by
  induction t with
  | nil => rfl
  | cons e t ih =>
      by_cases h : same e.1 k
      · simp [putBy, h]
      · simp only [putBy, h, Bool.false_eq_true, if_false, List.map_cons, ih, List.any_cons,
          Bool.false_or]
        split <;> simp

end Table

end TypeFlow
