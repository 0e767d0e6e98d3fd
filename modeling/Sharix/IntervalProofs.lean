import Mathlib.Data.List.Perm.Basic
import Mathlib.Order.Lattice

/-! # Intervals on a line

    Intervals with a start and a stop that they do not contain.  A look-up
    answers the interval that contains a point, or else the next one; the
    first in order that stops past the point is it. -/

namespace SharixInterval

variable {ι τ : Type} [LinearOrder τ] {start stop : ι → τ} {is : List ι}

def Contains (start stop : ι → τ) (i : ι) (x : τ) : Prop :=
  start i ≤ x ∧ x < stop i

/-- The first interval stops before the second starts. -/
def Before (start stop : ι → τ) (i j : ι) : Prop := stop i ≤ start j

def Apart (start stop : ι → τ) (i j : ι) : Prop :=
  Before start stop i j ∨ Before start stop j i

/-- What a look-up answers: the interval that contains `x`, or the one with the
    smallest start above `x`, or nothing. -/
def Answer (start stop : ι → τ) (is : List ι) (x : τ) : Option ι → Prop
  | some i => i ∈ is ∧ (Contains start stop i x ∨
      x < start i ∧ (∀ j ∈ is, ¬ Contains start stop j x) ∧
        ∀ j ∈ is, x < start j → start i ≤ start j)
  | none => ∀ j ∈ is, ¬ Contains start stop j x ∧ ¬ x < start j

theorem answer_perm {is' : List ι} (hperm : is.Perm is') {x : τ} {r : Option ι}
    (h : Answer start stop is x r) : Answer start stop is' x r := by
  cases r with
  | none => exact fun j hj => h j (hperm.mem_iff.mpr hj)
  | some i =>
      refine ⟨hperm.mem_iff.mp h.1, h.2.imp_right ?_⟩
      rintro ⟨hx, hnone, hleast⟩
      exact ⟨hx, fun j hj => hnone j (hperm.mem_iff.mpr hj),
        fun j hj => hleast j (hperm.mem_iff.mpr hj)⟩

/-- In a row of intervals the first that stops past `x` answers. -/
theorem answer_find (hne : ∀ i ∈ is, start i < stop i)
    (hord : is.Pairwise (Before start stop)) (x : τ) :
    Answer start stop is x (is.find? fun i => x < stop i) := by
  induction is with
  | nil => exact fun j hj => absurd hj List.not_mem_nil
  | cons i is ih =>
      obtain ⟨hi, hrest⟩ := List.pairwise_cons.mp hord
      by_cases hx : x < stop i
      · rw [List.find?_cons_of_pos (by simpa using hx)]
        refine ⟨List.mem_cons_self, ?_⟩
        rcases le_or_gt (start i) x with hle | hgt
        · exact .inl ⟨hle, hx⟩
        · -- all others start later still
          have hlater : ∀ j ∈ i :: is, start i ≤ start j := by
            intro j hj
            rcases List.mem_cons.mp hj with rfl | hj
            · exact le_refl _
            · exact le_trans (le_of_lt (hne i List.mem_cons_self)) (hi j hj)
          refine .inr ⟨hgt, fun j hj hc => ?_, fun j hj _ => hlater j hj⟩
          exact absurd (lt_of_lt_of_le hgt (hlater j hj)) (not_lt_of_ge hc.1)
      · rw [List.find?_cons_of_neg (by simpa using hx)]
        have hpast : ¬ Contains start stop i x ∧ ¬ x < start i := by
          have hle : stop i ≤ x := not_lt.mp hx
          refine ⟨fun hc => hx hc.2, fun hlt => ?_⟩
          exact hx (lt_trans hlt (hne i List.mem_cons_self))
        have h := ih (fun j hj => hne j (List.mem_cons_of_mem _ hj)) hrest
        cases hfind : is.find? fun i => x < stop i with
        | none =>
            rw [hfind] at h
            intro j hj
            rcases List.mem_cons.mp hj with rfl | hj
            · exact hpast
            · exact h j hj
        | some k =>
            rw [hfind] at h
            refine ⟨List.mem_cons_of_mem _ h.1, h.2.imp_right ?_⟩
            rintro ⟨hk, hnone, hleast⟩
            refine ⟨hk, fun j hj => ?_, fun j hj hlt => ?_⟩
            · rcases List.mem_cons.mp hj with rfl | hj
              · exact hpast.1
              · exact hnone j hj
            · rcases List.mem_cons.mp hj with rfl | hj
              · exact absurd hlt hpast.2
              · exact hleast j hj hlt

/-- Intervals in a row: one that contains `x` is the first that stops past
    it. -/
theorem find_contains {i : ι} {x : τ} (hord : is.Pairwise (Before start stop))
    (hi : i ∈ is) (hc : Contains start stop i x) :
    is.find? (fun i => x < stop i) = some i := by
  induction is with
  | nil => cases hi
  | cons k is ih =>
      obtain ⟨hk, hrest⟩ := List.pairwise_cons.mp hord
      rcases List.mem_cons.mp hi with rfl | hi
      · exact List.find?_cons_of_pos (by simpa using hc.2)
      · have hle : stop k ≤ x := le_trans (hk i hi) hc.1
        rw [List.find?_cons_of_neg (by simpa using hle)]
        exact ih hrest hi

/-- The answer to a point in an interval is that interval. -/
theorem answer_contains {i : ι} {x : τ} {r : Option ι}
    (hord : is.Pairwise (Before start stop)) (hi : i ∈ is)
    (hc : Contains start stop i x) (hr : Answer start stop is x r) :
    r = some i := by
  cases r with
  | none => exact absurd hc (hr i hi).1
  | some j =>
      rcases hr.2 with hj | ⟨-, hnone, -⟩
      · exact (find_contains hord hr.1 hj).symm.trans (find_contains hord hi hc)
      · exact absurd hc (hnone i hi)

/-- A new interval goes between those that do not start after it and the
    others. -/
theorem before_insert {l r : List ι} {i : ι}
    (hord : (l ++ r).Pairwise (Before start stop))
    (hne : ∀ j ∈ i :: (l ++ r), start j < stop j)
    (hap : ∀ j ∈ l ++ r, Apart start stop i j)
    (hl : ∀ j ∈ l, start j ≤ start i) (hr : ∀ j ∈ r.head?, start i < start j) :
    (l ++ i :: r).Pairwise (Before start stop) := by
  have hi := hne i List.mem_cons_self
  have hleft : ∀ j ∈ l, Before start stop j i := by
    intro j hj
    rcases hap j (List.mem_append_left _ hj) with h | h
    · exact absurd (lt_of_lt_of_le hi (le_trans h (hl j hj))) (lt_irrefl _)
    · exact h
  have hlater : ∀ j ∈ r, start i < start j := by
    intro j hj
    cases r with
    | nil => cases hj
    | cons k r =>
        have hk := hr k rfl
        rcases List.mem_cons.mp hj with rfl | hjr
        · exact hk
        · have hkj : Before start stop k j :=
            (List.pairwise_cons.mp (List.pairwise_append.mp hord).2.1).1 j hjr
          have hnek := hne k (List.mem_cons_of_mem _ (List.mem_append_right _
            List.mem_cons_self))
          exact lt_trans hk (lt_of_lt_of_le hnek hkj)
  have hright : ∀ j ∈ r, Before start stop i j := by
    intro j hj
    rcases hap j (List.mem_append_right _ hj) with h | h
    · exact h
    · have hnej := hne j (List.mem_cons_of_mem _ (List.mem_append_right _ hj))
      exact absurd (lt_of_lt_of_le (lt_trans (hlater j hj) hnej) h)
        (lt_irrefl _)
  obtain ⟨hpl, hpr, hplr⟩ := List.pairwise_append.mp hord
  refine List.pairwise_append.mpr ⟨hpl, List.pairwise_cons.mpr ⟨hright, hpr⟩, ?_⟩
  intro j hj k hk
  rcases List.mem_cons.mp hk with rfl | hk
  · exact hleft j hj
  · exact hplr j hj k hk

end SharixInterval
