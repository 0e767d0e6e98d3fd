import Mathlib.Logic.Function.Basic
import Mathlib.Tactic.SplitIfs

/-! # Circular buffers

    An array of `n` slots, a place `r` to read and a place `w` to write, each
    going round.  Equal places mean empty, so `n - 1` values fit: one more, and
    the buffer looks empty. -/

namespace SharixRing

variable {α : Type}

/-- The slot behind `i`. -/
def next (n i : Nat) : Nat := if i + 1 = n then 0 else i + 1

/-- The slot `k` places behind `r`. -/
def slot (n r k : Nat) : Nat := if r + k < n then r + k else r + k - n

/-- How many values wait. -/
def waiting (n r w : Nat) : Nat := if r ≤ w then w - r else w + n - r

/-- The values that wait, the oldest first. -/
def contents (n : Nat) (buf : Nat → α) (r w : Nat) : List α :=
  (List.range (waiting n r w)).map fun k => buf (slot n r k)

@[simp] theorem length_contents (n : Nat) (buf : Nat → α) (r w : Nat) :
    (contents n buf r w).length = waiting n r w := by
  rw [contents, List.length_map, List.length_range]

theorem contents_self (n : Nat) (buf : Nat → α) (r : Nat) :
    contents n buf r r = [] := by
  have hnone : waiting n r r = 0 := by
    rw [waiting, if_pos (Nat.le_refl r), Nat.sub_self]
  rw [contents, hnone]
  rfl

variable {n r w : Nat}

theorem next_lt (hr : r < n) : next n r < n := by
  rw [next]
  split <;> omega

theorem waiting_lt (hr : r < n) (hw : w < n) : waiting n r w < n := by
  rw [waiting]
  split <;> omega

/-- With a value more the count goes up, or round. -/
theorem waiting_next (hr : r < n) (hw : w < n) :
    waiting n r (next n w)
      = if waiting n r w + 1 = n then 0 else waiting n r w + 1 := by
  simp only [waiting, next]
  split_ifs <;> omega

theorem next_eq_iff (hr : r < n) (hw : w < n) :
    next n w = r ↔ waiting n r w + 1 = n := by
  simp only [waiting, next]
  split_ifs <;> omega

/-- A write to a buffer that is not full. -/
theorem contents_push (hr : r < n) (hw : w < n) (buf : Nat → α) (c : α)
    (hroom : waiting n r w + 1 < n) :
    contents n (Function.update buf w c) r (next n w)
      = contents n buf r w ++ [c] := by
  have hlast : slot n r (waiting n r w) = w := by
    simp only [slot, waiting]
    split_ifs <;> omega
  have hold : ∀ k, k < waiting n r w → slot n r k ≠ w := by
    intro k hk
    simp only [slot, waiting] at hk ⊢
    split_ifs at hk ⊢ <;> omega
  rw [contents, waiting_next hr hw, if_neg (Nat.ne_of_lt hroom),
    List.range_succ, List.map_append, List.map_singleton, hlast,
    Function.update_self, contents]
  refine congrArg (· ++ [c]) (List.map_congr_left fun k hk => ?_)
  exact Function.update_of_ne (hold k (List.mem_range.mp hk)) _ _

/-- A write to a full buffer empties it. -/
theorem contents_overrun (hr : r < n) (hw : w < n) (buf : Nat → α)
    (hfull : waiting n r w + 1 = n) : contents n buf r (next n w) = [] := by
  rw [(next_eq_iff hr hw).mpr hfull, contents_self]

/-- A read takes the oldest value. -/
theorem contents_pop (hr : r < n) (hw : w < n) (buf : Nat → α) (hne : r ≠ w) :
    contents n buf r w = buf r :: contents n buf (next n r) w := by
  have hcount : waiting n r w = waiting n (next n r) w + 1 := by
    simp only [waiting, next]
    split_ifs <;> omega
  have hfirst : slot n r 0 = r := by
    simp only [slot]
    split_ifs <;> omega
  have hrest : ∀ k, k < waiting n (next n r) w →
      slot n r (k + 1) = slot n (next n r) k := by
    intro k hk
    simp only [slot, next, waiting] at hk ⊢
    split_ifs at hk ⊢ <;> omega
  rw [contents, hcount, List.range_succ_eq_map, List.map_cons, hfirst,
    List.map_map, contents]
  refine congrArg (buf r :: ·) (List.map_congr_left fun k hk => ?_)
  exact congrArg buf (hrest k (List.mem_range.mp hk))

end SharixRing
