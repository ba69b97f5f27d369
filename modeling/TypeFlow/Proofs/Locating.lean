import TypeFlow.Source.TokenIndex
import Mathlib.Data.List.Pairwise

/-! # Where tokens are found again

A token belongs to the segment that was started last before it. Bounds tell the segments of the
tokens apart: those of the earlier segments lie below the number of a token, those of the later
ones do not. -/

namespace TypeFlow.Source

/-- What an index of tokens takes in. -/
inductive IndexStep where
  | segment (text path : Option String)
  | token (start stop : Int)

/-- Where the tokens stand that come next. The steps before are listed latest first. -/
def place : List IndexStep → Option String × Option Origin
  | [] => (none, none)
  | .token _ _ :: earlier => place earlier
  | .segment text path :: earlier => (path, text.map (⟨texts earlier, ·⟩))
where
  /-- How many sources there are. -/
  texts : List IndexStep → Nat
    | [] => 0
    | .segment (some _) _ :: earlier => texts earlier + 1
    | _ :: earlier => texts earlier

namespace TokenIndex

variable {x : TokenIndex}

/-- What an index becomes by some steps, listed latest first. -/
def grow (x : TokenIndex) : List IndexStep → TokenIndex
  | [] => x
  | .segment text path :: earlier => (x.grow earlier).startSegment text path
  | .token start stop :: earlier => ((x.grow earlier).insertToken start stop).1

theorem grow_append (x : TokenIndex) (later earlier : List IndexStep) :
    x.grow (later ++ earlier) = (x.grow earlier).grow later := by
  induction later with
  | nil => rfl
  | cons s later ih => cases s <;> rw [List.cons_append, grow, grow, ih]

/-- Whatever is added to an index comes behind what is there, and the bounds of new segments do
not lie below the tokens that are there. -/
theorem exists_grow (x : TokenIndex) (steps : List IndexStep) :
    ∃ segments tokens, (x.grow steps).segments = x.segments ++ segments ∧
      (x.grow steps).tokens = x.tokens ++ tokens ∧
      ∀ s ∈ segments, (x.tokens.length : Int) - 1 ≤ s.bound := by
  induction steps with
  | nil => exact ⟨[], [], by simp [grow], by simp [grow], by simp⟩
  | cons s earlier ih =>
      obtain ⟨segments, tokens, hsegments, htokens, hbound⟩ := ih
      cases s with
      | segment text path =>
          let new : Segment := ⟨((x.grow earlier).tokens.length : Int) - 1, path,
            text.map (⟨(x.grow earlier).sources, ·⟩)⟩
          refine ⟨segments ++ [new], tokens, ?_, htokens, fun s hs => ?_⟩
          · rw [grow, startSegment, hsegments, List.append_assoc]
          · rcases List.mem_append.mp hs with hs | hs
            · exact hbound s hs
            · rw [List.mem_singleton.mp hs]
              simp only [new, htokens, List.length_append]
              omega
      | token start stop =>
          refine ⟨segments, tokens ++ [(start, stop)], hsegments, ?_, hbound⟩
          rw [grow, insertToken, htokens, List.append_assoc]

/-- A token that is inserted while a segment is the last one is found again in that segment. -/
theorem lookup?_grow {before : List Segment} {s : Segment} (hlast : x.segments = before ++ [s])
    (hbound : ∀ r ∈ x.segments, r.bound < x.tokens.length) (start stop : Int)
    (later : List IndexStep) :
    ((x.insertToken start stop).1.grow later).lookup? (x.insertToken start stop).2 =
      some ⟨s.path, s.source, start, stop⟩ := by
  obtain ⟨segments, tokens, hsegments, htokens, hlater⟩ :=
    exists_grow (x.insertToken start stop).1 later
  simp only [insertToken, List.length_append, List.length_singleton] at hsegments htokens hlater
  have hcount : (x.segments ++ segments).countP (·.bound < (x.tokens.length : Int)) =
      before.length + 1 := by
    have hthere : x.segments.countP (·.bound < (x.tokens.length : Int)) = x.segments.length :=
      List.countP_eq_length.mpr fun r hr => by simpa using hbound r hr
    have hnew : segments.countP (·.bound < (x.tokens.length : Int)) = 0 :=
      List.countP_eq_zero.mpr fun r hr => by
        have := hlater r hr
        simp only [decide_eq_true_eq]
        omega
    rw [List.countP_append, hthere, hnew, hlast, List.length_append, List.length_singleton]
  have hsegment :
      ((x.insertToken start stop).1.grow later).segmentOf? x.tokens.length = some s := by
    rw [insertToken, segmentOf?, hsegments, hcount, getWrapping?, if_pos (by omega), hlast]
    simp
  have htoken : getWrapping? ((x.insertToken start stop).1.grow later).tokens x.tokens.length =
      some (start, stop) := by
    rw [insertToken, htokens, getWrapping?, if_pos (by omega)]
    simp
  simp only [insertToken] at hsegment htoken ⊢
  simp [lookup?, hsegment, htoken]

/-! ## From the start -/

theorem bound_lt_grow (hbound : ∀ r ∈ x.segments, r.bound < x.tokens.length)
    (steps : List IndexStep) :
    ∀ r ∈ (x.grow steps).segments, r.bound < (x.grow steps).tokens.length := by
  induction steps with
  | nil => exact hbound
  | cons s earlier ih =>
      cases s with
      | segment text path =>
          intro r hr
          rcases List.mem_append.mp hr with hr | hr
          · exact ih r hr
          · rw [List.mem_singleton.mp hr]
            exact Int.sub_one_lt_of_le (Int.le_refl _)
      | token start stop =>
          intro r hr
          have := ih r hr
          rw [grow, insertToken, List.length_append]
          omega

theorem sources_grow (steps : List IndexStep) :
    (initial.grow steps).sources = place.texts steps := by
  induction steps with
  | nil => rfl
  | cons s earlier ih =>
      cases s with
      | segment text path => cases text <;> simp [grow, startSegment, place.texts, ih]
      | token start stop => exact ih

/-- The last segment is the place of the tokens that come next. -/
theorem exists_last_segment (steps : List IndexStep) :
    ∃ before s, (initial.grow steps).segments = before ++ [s] ∧
      (s.path, s.source) = place steps := by
  induction steps with
  | nil => exact ⟨[], ⟨-1, none, none⟩, rfl, rfl⟩
  | cons s earlier ih =>
      cases s with
      | segment text path =>
          exact ⟨_, _, rfl, by rw [place, sources_grow]⟩
      | token start stop => exact ih

/-- Every token is found again as it was inserted, in the segment that was the last one then,
whatever is taken in before and after it, and so is the built-in token, in no segment. -/
theorem lookup?_of_inserted :
    (∀ later start stop earlier,
      (initial.grow (later ++ .token start stop :: earlier)).lookup?
          ((initial.grow earlier).insertToken start stop).2 =
        some ⟨(place earlier).1, (place earlier).2, start, stop⟩) ∧
      ∀ steps, (initial.grow steps).lookup? 0 = some ⟨none, none, 0, 0⟩ := by
  constructor
  · intro later start stop earlier
    obtain ⟨before, s, hlast, hplace⟩ := exists_last_segment earlier
    have hbound : ∀ r ∈ (initial.grow earlier).segments,
        r.bound < (initial.grow earlier).tokens.length :=
      bound_lt_grow (by simp [initial, insertToken, startSegment, empty]) earlier
    rw [grow_append, grow, lookup?_grow hlast hbound, ← hplace]
  · intro steps
    have hfirst : (empty.startSegment none none).segments = [] ++ [⟨-1, none, none⟩] := rfl
    exact lookup?_grow hfirst (by simp [startSegment, empty]) 0 0 steps

/-! ## Search by halving

The bounds never decrease, so a search by halving finds how many of them lie below a number. -/

theorem pairwise_bound_grow (steps : List IndexStep) :
    ((initial.grow steps).segments.map Segment.bound).Pairwise (· ≤ ·) := by
  induction steps with
  | nil => simp [grow, initial, insertToken, startSegment, empty]
  | cons s earlier ih =>
      cases s with
      | segment text path =>
          rw [grow, startSegment, List.map_append, List.pairwise_append]
          refine ⟨ih, by simp, fun b hb c hc => ?_⟩
          obtain ⟨r, hr, rfl⟩ := List.mem_map.mp hb
          have hlt : r.bound < (initial.grow earlier).tokens.length :=
            bound_lt_grow (by simp [initial, insertToken, startSegment, empty]) earlier r hr
          rw [List.map_singleton, List.mem_singleton] at hc
          rw [hc]
          exact Int.le_sub_one_of_lt hlt
      | token start stop => exact ih

/-- The first place from `low` on and before `high` where a number can stand in a list that
does not decrease. -/
def bisect (xs : List Int) (i : Int) (low high : Nat) : Nat :=
  if low < high then
    if xs.getD ((low + high) / 2) 0 < i then bisect xs i ((low + high) / 2 + 1) high
    else bisect xs i low ((low + high) / 2)
  else low
termination_by high - low

theorem getD_lt_iff {xs : List Int} (h : xs.Pairwise (· ≤ ·)) (i : Int) {m : Nat}
    (hm : m < xs.length) : xs.getD m 0 < i ↔ m < xs.countP (· < i) := by
  induction xs generalizing m with
  | nil => simp at hm
  | cons y ys ih =>
      obtain ⟨hy, hys⟩ := List.pairwise_cons.mp h
      by_cases hlt : y < i
      · cases m with
        | zero => simp [hlt]
        | succ m => simpa [hlt] using ih hys (by simpa using hm)
      · have hzero : ys.countP (· < i) = 0 := List.countP_eq_zero.mpr fun z hz => by
          have := hy z hz
          simp only [decide_eq_true_eq]
          omega
        cases m with
        | zero => simp [hlt, hzero]
        | succ m => simpa [hlt, hzero] using ih hys (by simpa using hm)

theorem bisect_eq_countP {xs : List Int} (h : xs.Pairwise (· ≤ ·)) (i : Int) {low high : Nat}
    (hlow : low ≤ xs.countP (· < i)) (hhigh : xs.countP (· < i) ≤ high) (hle : high ≤ xs.length) :
    bisect xs i low high = xs.countP (· < i) := by
  induction low, high using bisect.induct xs i with
  | case1 low high hlt hbelow ih =>
      have := (getD_lt_iff h i (by omega)).mp hbelow
      rw [bisect, if_pos hlt, if_pos hbelow]
      exact ih (by omega) hhigh hle
  | case2 low high hlt hbelow ih =>
      have := mt (getD_lt_iff h i (m := (low + high) / 2) (by omega)).mpr hbelow
      rw [bisect, if_pos hlt, if_neg hbelow]
      exact ih hlow (by omega) (by omega)
  | case3 low high hlt =>
      rw [bisect, if_neg hlt]
      omega

/-- The segment of a token is the one before the place where its number can stand. -/
theorem segmentOf?_grow (steps : List IndexStep) (i : Int) :
    (initial.grow steps).segmentOf? i =
      getWrapping? (initial.grow steps).segments
        ((bisect ((initial.grow steps).segments.map Segment.bound) i 0
          (initial.grow steps).segments.length : Int) - 1) := by
  rw [bisect_eq_countP (pairwise_bound_grow steps) i (Nat.zero_le _)
    (by simpa using List.countP_le_length) (by simp), List.countP_map]
  rfl

end TokenIndex

end TypeFlow.Source
