import Mathlib.Data.Nat.ModEq
import Mathlib.Data.Finset.Card
import Mathlib.Order.Interval.Finset.Nat
import Mathlib.Logic.Function.Iterate
import Mathlib.Tactic.Ring

/-! # Linear congruential generators modulo powers of two

    `x ↦ a * x + c`, with `a ≡ 1` modulo 4 and `c` odd, looked at modulo `2 ^ k`.
    The first `2 ^ j` steps add an odd multiple of `2 ^ j` and keep everything
    below: that fixes the period of every bit.

    * `iterate_shift`: `2 ^ j` steps flip bit `j` and keep the lower bits;
    * `iterate_modEq_iff`: the period modulo `2 ^ k` is `2 ^ k`;
    * `card_window`: a window of `2 ^ k` states takes every value of the bits
      `lo, ..., k - 1` equally often;
    * `card_flip`: a bit that flips every `h` steps is set `h` times in a window
      of `2 * h`. -/

namespace SharixLcg

/-- A step, before the reduction. -/
def lcg (a c x : Nat) : Nat := a * x + c

section Period

variable {a c : Nat}

/-- What `2 ^ j` steps are. -/
theorem iterate_pow (ha : a % 4 = 1) (hc : c % 2 = 1) (j : Nat) :
    ∃ q d, ∀ x, (lcg a c)^[2 ^ j] x = (2 ^ (j + 2) * q + 1) * x + 2 ^ j * (2 * d + 1) := by
  induction j with
  | zero =>
      refine ⟨a / 4, c / 2, fun x => ?_⟩
      have h4 : 2 ^ (0 + 2) * (a / 4) + 1 = a := by omega
      have h2 : 2 ^ 0 * (2 * (c / 2) + 1) = c := by omega
      rw [h4, h2]
      rfl
  | succ j ih =>
      obtain ⟨q, d, h⟩ := ih
      refine ⟨q * (2 ^ (j + 1) * q + 1), d + 2 ^ j * q * (2 * d + 1), fun x => ?_⟩
      rw [pow_succ, Nat.mul_two, Function.iterate_add_apply, h, h]
      ring

/-- Modulo a power of two, only the residue of the start counts. -/
theorem iterate_congr {x y m : Nat} (h : x ≡ y [MOD m]) (n : Nat) :
    (lcg a c)^[n] x ≡ (lcg a c)^[n] y [MOD m] := by
  induction n with
  | zero => exact h
  | succ n ih =>
      rw [Function.iterate_succ_apply', Function.iterate_succ_apply']
      exact (ih.mul_left a).add_right c

theorem iterate_shift (ha : a % 4 = 1) (hc : c % 2 = 1) (j n x : Nat) :
    (lcg a c)^[n + 2 ^ j] x ≡ (lcg a c)^[n] x + 2 ^ j [MOD 2 ^ (j + 1)] := by
  obtain ⟨q, d, h⟩ := iterate_pow ha hc j
  rw [Nat.add_comm n, Function.iterate_add_apply, h]
  generalize (lcg a c)^[n] x = y
  have hsum : (2 ^ (j + 2) * q + 1) * y + 2 ^ j * (2 * d + 1)
      = y + 2 ^ j + 2 ^ (j + 1) * (2 * q * y + d) := by ring
  rw [hsum]
  exact Nat.add_modEq_left_iff.mpr (Nat.dvd_mul_right _ _)

/-- Any number of shifts. -/
theorem iterate_shifts (ha : a % 4 = 1) (hc : c % 2 = 1) (j n t x : Nat) :
    (lcg a c)^[n + 2 ^ j * t] x ≡ (lcg a c)^[n] x + 2 ^ j * t [MOD 2 ^ (j + 1)] := by
  induction t with
  | zero => exact Nat.ModEq.refl _
  | succ t ih =>
      have h := (iterate_shift ha hc j (n + 2 ^ j * t) x).trans (ih.add_right (2 ^ j))
      rwa [Nat.add_assoc, Nat.add_assoc, ← Nat.mul_succ] at h

/-- The states modulo `2 ^ k` repeat after `2 ^ k` steps and not before. -/
theorem iterate_modEq_iff (ha : a % 4 = 1) (hc : c % 2 = 1) (k n m x : Nat) :
    (lcg a c)^[n] x ≡ (lcg a c)^[m] x [MOD 2 ^ k] ↔ n ≡ m [MOD 2 ^ k] := by
  wlog hmn : m ≤ n generalizing n m
  · rw [Nat.ModEq.comm, this m n (by omega), Nat.ModEq.comm]
  induction k with
  | zero => simp [Nat.modEq_one]
  | succ k ih =>
      have hdvd : (2 : Nat) ^ k ∣ 2 ^ (k + 1) := ⟨2, pow_succ 2 k⟩
      -- both sides are congruent modulo `2 ^ k` first
      suffices h : ∀ t, n = m + 2 ^ k * t →
          ((lcg a c)^[n] x ≡ (lcg a c)^[m] x [MOD 2 ^ (k + 1)] ↔ n ≡ m [MOD 2 ^ (k + 1)]) by
        constructor
        · intro h1
          obtain ⟨t, ht⟩ := (Nat.modEq_iff_exists_eq_add hmn).mp (ih.mp (h1.of_dvd hdvd)).symm
          exact (h t ht).mp h1
        · intro h1
          obtain ⟨t, ht⟩ := (Nat.modEq_iff_exists_eq_add hmn).mp (h1.of_dvd hdvd).symm
          exact (h t ht).mpr h1
      intro t ht
      subst ht
      have hshift := iterate_shifts ha hc k m t x
      have hcancel : ∀ y : Nat, y + 2 ^ k * t ≡ y [MOD 2 ^ (k + 1)]
          ↔ 2 ^ k * t ≡ 0 [MOD 2 ^ (k + 1)] :=
        fun y => ⟨fun h => Nat.ModEq.add_left_cancel' y h, fun h => h.add_left y⟩
      rw [hcancel m, ← hcancel ((lcg a c)^[m] x)]
      exact ⟨fun h => hshift.symm.trans h, fun h => hshift.trans h⟩

/-- In a window of `2 ^ k` steps the bits from `lo` up to `k` take every value
    equally often. -/
theorem card_window (ha : a % 4 = 1) (hc : c % 2 = 1) {k lo v : Nat} (hlo : lo ≤ k)
    (hv : v < 2 ^ (k - lo)) (n x : Nat) :
    ((Finset.range (2 ^ k)).filter fun i =>
      (lcg a c)^[n + i] x % 2 ^ k / 2 ^ lo = v).card = 2 ^ lo := by
  -- the steps of the window are told apart by their residues
  have hinj : Set.InjOn (fun i => (lcg a c)^[n + i] x % 2 ^ k) (Finset.range (2 ^ k)) := by
    intro i hi j hj hij
    have h1 := (iterate_modEq_iff ha hc k (n + i) (n + j) x).mp hij
    exact Nat.ModEq.eq_of_lt_of_lt (Nat.ModEq.add_left_cancel' n h1)
      (Finset.mem_range.mp hi) (Finset.mem_range.mp hj)
  have himage : (Finset.range (2 ^ k)).image (fun i => (lcg a c)^[n + i] x % 2 ^ k)
      = Finset.range (2 ^ k) := by
    refine Finset.eq_of_subset_of_card_le ?_ ?_
    · intro r hr
      obtain ⟨i, -, rfl⟩ := Finset.mem_image.mp hr
      exact Finset.mem_range.mpr (Nat.mod_lt _ (Nat.two_pow_pos k))
    · rw [Finset.card_image_of_injOn hinj]
  have hvalues : (Finset.range (2 ^ k)).filter (fun r => r / 2 ^ lo = v)
      = Finset.Ico (v * 2 ^ lo) ((v + 1) * 2 ^ lo) := by
    ext r
    have hsplit : 2 ^ (k - lo) * 2 ^ lo = 2 ^ k := by
      rw [← pow_add, Nat.sub_add_cancel hlo]
    have htop : (v + 1) * 2 ^ lo ≤ 2 ^ k := by
      rw [← hsplit]
      exact Nat.mul_le_mul_right _ hv
    rw [Finset.mem_filter, Finset.mem_range, Finset.mem_Ico,
      Nat.div_eq_iff (Nat.two_pow_pos lo)]
    have hpos := Nat.two_pow_pos lo
    rw [Nat.succ_mul] at htop ⊢
    omega
  have hcount : ((Finset.range (2 ^ k)).filter fun i =>
      (lcg a c)^[n + i] x % 2 ^ k / 2 ^ lo = v).card
      = ((Finset.range (2 ^ k)).filter fun r => r / 2 ^ lo = v).card := by
    have h1 : ((Finset.range (2 ^ k)).filter fun r => r / 2 ^ lo = v)
        = ((Finset.range (2 ^ k)).filter fun i =>
            (lcg a c)^[n + i] x % 2 ^ k / 2 ^ lo = v).image
          fun i => (lcg a c)^[n + i] x % 2 ^ k := by
      rw [← himage, Finset.filter_image, himage]
    rw [h1, Finset.card_image_of_injOn]
    exact hinj.mono (Finset.coe_subset.mpr (Finset.filter_subset _ _))
  rw [hcount, hvalues, Nat.card_Ico, Nat.succ_mul, Nat.add_sub_cancel_left]

end Period

/-- A predicate that is the opposite `h` steps later holds at half the steps. -/
theorem card_flip {p : Nat → Bool} {h : Nat} (hflip : ∀ i, p (i + h) = !p i) (n : Nat) :
    ((Finset.range (2 * h)).filter fun i => p (n + i)).card = h := by
  have hsplit : (Finset.range (2 * h)).filter (fun i => p (n + i) = true)
      = (Finset.range h).filter (fun i => p (n + i) = true)
        ∪ ((Finset.range h).filter fun i => ¬ p (n + i) = true).image (· + h) := by
    ext i
    simp only [Finset.mem_filter, Finset.mem_range, Finset.mem_union, Finset.mem_image]
    constructor
    · rintro ⟨hi, hp⟩
      rcases Nat.lt_or_ge i h with hlt | hge
      · exact Or.inl ⟨hlt, hp⟩
      · refine Or.inr ⟨i - h, ⟨by omega, ?_⟩, Nat.sub_add_cancel hge⟩
        have h1 := hflip (n + (i - h))
        rw [Nat.add_assoc, Nat.sub_add_cancel hge, hp] at h1
        simpa using h1.symm
    · rintro (⟨hi, hp⟩ | ⟨j, ⟨hj, hp⟩, rfl⟩)
      · exact ⟨by omega, hp⟩
      · refine ⟨by omega, ?_⟩
        rw [← Nat.add_assoc, hflip]
        simpa using hp
  have hdisj : Disjoint ((Finset.range h).filter fun i => p (n + i) = true)
      (((Finset.range h).filter fun i => ¬ p (n + i) = true).image (· + h)) := by
    refine Finset.disjoint_left.mpr fun i hi hi' => ?_
    obtain ⟨j, -, rfl⟩ := Finset.mem_image.mp hi'
    have h1 := Finset.mem_range.mp (Finset.mem_filter.mp hi).1
    omega
  rw [hsplit, Finset.card_union_of_disjoint hdisj,
    Finset.card_image_of_injective _ (fun _ _ h1 => Nat.add_right_cancel h1),
    Finset.card_filter_add_card_filter_not, Finset.card_range]

end SharixLcg
