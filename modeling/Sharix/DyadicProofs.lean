import Mathlib.Algebra.Ring.Parity
import Mathlib.Tactic.Ring

/-! # Aligned blocks

    Runs of `2^i` naturals that start at a multiple of `2^i` past a fixed
    base.  Two such blocks are nested or disjoint; every block has one buddy,
    the other half of the aligned block twice its size. -/

namespace SharixDyadic

/-- The block of order `i` at `p` is aligned, seen from `base`. -/
def Aligned (base i p : Nat) : Prop := base ≤ p ∧ 2 ^ i ∣ p - base

instance (base i p : Nat) : Decidable (Aligned base i p) :=
  inferInstanceAs (Decidable (_ ∧ _))

/-- The other half of the block of order `i + 1` that holds the block at
    `p`. -/
def buddyOf (base i p : Nat) : Nat :=
  if 2 ^ (i + 1) ∣ p - base then p + 2 ^ i else p - 2 ^ i

theorem aligned_base (base i : Nat) : Aligned base i base :=
  ⟨Nat.le_refl _, by rw [Nat.sub_self]; exact Nat.dvd_zero _⟩

/-- A block of high order is aligned at every lower one. -/
theorem Aligned.mono {base i j p : Nat} (h : Aligned base j p) (hij : i ≤ j) :
    Aligned base i p :=
  ⟨h.1, Nat.dvd_trans (Nat.pow_dvd_pow 2 hij) h.2⟩

theorem Aligned.add {base i j p : Nat} (h : Aligned base i p) (hij : i ≤ j) :
    Aligned base i (p + 2 ^ j) := by
  have hle := h.1
  have hpos := Nat.two_pow_pos j
  refine ⟨by omega, ?_⟩
  rw [show p + 2 ^ j - base = (p - base) + 2 ^ j by omega]
  exact Nat.dvd_add h.2 (Nat.pow_dvd_pow 2 hij)

/-- An aligned block is the lower or the upper half of a block of the next
    order. -/
theorem Aligned.half {base i p : Nat} (h : Aligned base i p) :
    Aligned base (i + 1) p ∨
      ∃ a, Aligned base (i + 1) a ∧ p = a + 2 ^ i := by
  obtain ⟨hle, k, hk⟩ := h
  rcases Nat.even_or_odd' k with ⟨m, rfl | rfl⟩
  · refine Or.inl ⟨hle, m, ?_⟩
    rw [hk, Nat.pow_succ]
    ring
  · refine Or.inr ⟨base + 2 ^ (i + 1) * m, ⟨by omega, ?_⟩, ?_⟩
    · rw [Nat.add_sub_cancel_left]
      exact Nat.dvd_mul_right _ _
    · have : p = base + 2 ^ i * (2 * m + 1) := by omega
      rw [this, Nat.pow_succ]
      ring

/-- The lower half's buddy is the upper half. -/
theorem buddyOf_lower {base i p : Nat} (h : Aligned base (i + 1) p) :
    buddyOf base i p = p + 2 ^ i := if_pos h.2

/-- The upper half's buddy is the lower half. -/
theorem buddyOf_upper {base i a : Nat} (h : Aligned base (i + 1) a) :
    buddyOf base i (a + 2 ^ i) = a := by
  rw [buddyOf, if_neg, Nat.add_sub_cancel]
  intro hd
  rw [show a + 2 ^ i - base = (a - base) + 2 ^ i by have := h.1; omega] at hd
  have hpow := (Nat.dvd_add_right h.2).mp hd
  have := Nat.le_of_dvd (Nat.two_pow_pos i) hpow
  rw [Nat.pow_succ] at this
  have := Nat.two_pow_pos i
  omega

theorem buddyOf_ne {base i p : Nat} (h : Aligned base i p) :
    buddyOf base i p ≠ p := by
  have hpos := Nat.two_pow_pos i
  rcases h.half with hlow | ⟨a, ha, rfl⟩
  · rw [buddyOf_lower hlow]
    omega
  · rw [buddyOf_upper ha]
    omega

/-- Buddies are each other's. -/
theorem buddyOf_buddyOf {base i p : Nat} (h : Aligned base i p) :
    buddyOf base i (buddyOf base i p) = p := by
  rcases h.half with hlow | ⟨a, ha, rfl⟩
  · rw [buddyOf_lower hlow, buddyOf_upper hlow]
  · rw [buddyOf_upper ha, buddyOf_lower ha]

/-- The smaller of two aligned blocks that meet lies inside the larger. -/
theorem Aligned.nested {base i j p a x : Nat} (hp : Aligned base i p)
    (ha : Aligned base j a) (hji : j ≤ i) (hpx : p ≤ x) (hxp : x < p + 2 ^ i)
    (hax : a ≤ x) (hxa : x < a + 2 ^ j) : p ≤ a ∧ a + 2 ^ j ≤ p + 2 ^ i := by
  obtain ⟨hbp, u, hu⟩ := hp
  obtain ⟨hba, v, hv⟩ := ha
  obtain ⟨w, hw⟩ := Nat.pow_dvd_pow 2 hji
  have hpos := Nat.two_pow_pos j
  -- count everything in blocks of order `j` from `base`
  have hp' : p = base + 2 ^ j * (w * u) := by
    rw [hw, Nat.mul_assoc] at hu
    omega
  have ha' : a = base + 2 ^ j * v := by omega
  have hlow : w * u < v + 1 := by
    refine Nat.lt_of_mul_lt_mul_left (a := 2 ^ j) ?_
    rw [Nat.mul_add, Nat.mul_one]
    omega
  have hhigh : v < w * u + w := by
    refine Nat.lt_of_mul_lt_mul_left (a := 2 ^ j) ?_
    rw [Nat.mul_add, ← hw]
    omega
  have h1 := Nat.mul_le_mul_left (2 ^ j) (Nat.le_of_lt_succ hlow)
  have h2 := Nat.mul_le_mul_left (2 ^ j) (Nat.succ_le_of_lt hhigh)
  rw [Nat.mul_add, ← hw, Nat.mul_succ] at h2
  omega

/-- A family of aligned blocks in which no block meets its buddy covers an
    aligned block only by holding it inside one of its own. -/
theorem covered_by_one {base top : Nat} {B : Nat → Nat → Prop}
    (hal : ∀ i p, B i p → Aligned base i p)
    (hapart : ∀ i p, i < top → B i p → ¬ B i (buddyOf base i p))
    (j : Nat) : ∀ a, j ≤ top → Aligned base j a →
      (∀ x, a ≤ x → x < a + 2 ^ j →
        ∃ i p, B i p ∧ p ≤ x ∧ x < p + 2 ^ i) →
      ∃ i p, j ≤ i ∧ B i p ∧ p ≤ a ∧ a + 2 ^ j ≤ p + 2 ^ i := by
  induction j with
  | zero =>
      intro a _ _ hcov
      obtain ⟨i, p, hB, h1, h2⟩ := hcov a (Nat.le_refl _) (by simp)
      exact ⟨i, p, Nat.zero_le _, hB, h1, by rw [Nat.pow_zero]; omega⟩
  | succ j ih =>
      intro a hj ha hcov
      have hpow : 2 ^ (j + 1) = 2 ^ j + 2 ^ j := by rw [Nat.pow_succ]; omega
      have hpos := Nat.two_pow_pos j
      have halow := ha.mono (Nat.le_succ j)
      -- each half lies inside one block, of order at least `j`
      obtain ⟨i₁, p₁, hi₁, hB₁, hl₁, hr₁⟩ := ih a (by omega) halow
        (fun x h1 h2 => hcov x h1 (by omega))
      obtain ⟨i₂, p₂, hi₂, hB₂, hl₂, hr₂⟩ := ih (a + 2 ^ j) (by omega)
        (halow.add (Nat.le_refl _)) (fun x h1 h2 => hcov x (by omega) (by omega))
      rcases Nat.eq_or_lt_of_le hi₁ with rfl | hlt₁
      · rcases Nat.eq_or_lt_of_le hi₂ with rfl | hlt₂
        · -- both are exactly the halves: a block and its buddy
          obtain rfl : p₁ = a := by omega
          obtain rfl : p₂ = p₁ + 2 ^ j := by omega
          exact absurd ((buddyOf_lower ha).symm ▸ hB₂) (hapart j p₁ (by omega) hB₁)
        · obtain ⟨h1, h2⟩ := (hal i₂ p₂ hB₂).nested ha hlt₂ hl₂
            (by omega) (by omega) (by omega)
          exact ⟨i₂, p₂, hlt₂, hB₂, h1, h2⟩
      · obtain ⟨h1, h2⟩ := (hal i₁ p₁ hB₁).nested ha hlt₁ hl₁ (by omega)
          (Nat.le_refl _) (by omega)
        exact ⟨i₁, p₁, hlt₁, hB₁, h1, h2⟩

end SharixDyadic
