import Mathlib.Data.List.Basic

/-! # Maximal runs of a coloured sequence

    Some indices have a colour.  The indices of one colour that follow each
    other without a gap are a run, and the runs between two bounds are found
    one after the other: the first one, then those behind it. -/

namespace SharixMaximalRun

variable {κ : Type} {colorOf : Nat → Option κ} {lo hi : Nat}

/-- The indices from `left` to before `right`, of one colour. -/
structure Run (κ : Type) where
  left : Nat
  right : Nat
  color : κ
deriving DecidableEq, Repr

/-- A run that can be made longer neither way between `lo` and `hi`. -/
structure Maximal (colorOf : Nat → Option κ) (lo hi : Nat) (x : Run κ) : Prop where
  nonEmpty : x.left < x.right
  lower : lo ≤ x.left
  upper : x.right ≤ hi
  same : ∀ i, x.left ≤ i → i < x.right → colorOf i = some x.color
  atLeft : x.left = lo ∨ colorOf (x.left - 1) ≠ some x.color
  atRight : x.right = hi ∨ colorOf x.right ≠ some x.color

/-- The maximal runs between `lo` and `hi`, in order and apart, with every
    coloured index in one of them. -/
structure Runs (colorOf : Nat → Option κ) (lo hi : Nat) (xs : List (Run κ)) :
    Prop where
  maximal : ∀ x ∈ xs, Maximal colorOf lo hi x
  ordered : xs.Pairwise fun x y => x.right ≤ y.left
  covered : ∀ i, lo ≤ i → i < hi →
    (colorOf i ≠ none ↔ ∃ x ∈ xs, x.left ≤ i ∧ i < x.right)

/-- The first run from `lo` on. -/
structure FirstRun (colorOf : Nat → Option κ) (lo hi : Nat) (x : Run κ) : Prop where
  nonEmpty : x.left < x.right
  lower : lo ≤ x.left
  upper : x.right ≤ hi
  before : ∀ i, lo ≤ i → i < x.left → colorOf i = none
  same : ∀ i, x.left ≤ i → i < x.right → colorOf i = some x.color
  atRight : x.right = hi ∨ colorOf x.right ≠ some x.color

theorem FirstRun.maximal {x : Run κ} (h : FirstRun colorOf lo hi x) :
    Maximal colorOf lo hi x := by
  refine ⟨h.nonEmpty, h.lower, h.upper, h.same, ?_, h.atRight⟩
  rcases Nat.eq_or_lt_of_le h.lower with he | hlt
  · exact .inl he.symm
  · refine .inr ?_
    rw [h.before (x.left - 1) (by omega) (by omega)]
    exact fun h => by cases h

/-- A run that is maximal behind the first one is maximal: it does not have the
    colour of the first one if it touches it. -/
theorem Maximal.behind {x y : Run κ} (hx : FirstRun colorOf lo hi x)
    (hy : Maximal colorOf x.right hi y) : Maximal colorOf lo hi y := by
  have hle : lo ≤ y.left :=
    Nat.le_trans (Nat.le_trans hx.lower (Nat.le_of_lt hx.nonEmpty)) hy.lower
  refine ⟨hy.nonEmpty, hle, hy.upper, hy.same, ?_, hy.atRight⟩
  rcases hy.atLeft with he | hne
  · refine .inr ?_
    have hright : colorOf x.right = some y.color :=
      hy.same _ (Nat.le_of_eq he) (he ▸ hy.nonEmpty)
    have hlast : colorOf (y.left - 1) = some x.color := by
      rw [he]
      exact hx.same _ (Nat.le_sub_one_of_lt hx.nonEmpty)
        (Nat.sub_one_lt (Nat.ne_of_gt (Nat.zero_lt_of_lt hx.nonEmpty)))
    rcases hx.atRight with hend | hdiff
    · have h1 := hy.nonEmpty
      have h2 := hy.upper
      omega
    · rw [hlast]
      intro hsame
      exact hdiff (hright.trans hsame.symm)
  · exact .inr hne

theorem Runs.nil (h : ∀ i, lo ≤ i → i < hi → colorOf i = none) :
    Runs colorOf lo hi [] := by
  refine ⟨fun x hx => absurd hx List.not_mem_nil, List.Pairwise.nil,
    fun i h1 h2 => iff_of_false (fun hne => hne (h i h1 h2)) ?_⟩
  rintro ⟨x, hx, -⟩
  exact absurd hx List.not_mem_nil

theorem Runs.cons {x : Run κ} {xs : List (Run κ)} (hx : FirstRun colorOf lo hi x)
    (hxs : Runs colorOf x.right hi xs) : Runs colorOf lo hi (x :: xs) := by
  refine ⟨fun y hy => ?_, List.pairwise_cons.mpr ⟨fun y hy => ?_, hxs.ordered⟩,
    fun i h1 h2 => ?_⟩
  · rcases List.mem_cons.mp hy with rfl | hy
    · exact hx.maximal
    · exact (hxs.maximal y hy).behind hx
  · exact (hxs.maximal y hy).lower
  · constructor
    · intro hne
      by_cases hleft : i < x.left
      · exact absurd (hx.before i h1 hleft) hne
      · by_cases hright : i < x.right
        · exact ⟨x, List.mem_cons_self, Nat.le_of_not_lt hleft, hright⟩
        · obtain ⟨y, hy, hin⟩ :=
            (hxs.covered i (Nat.le_of_not_lt hright) h2).mp hne
          exact ⟨y, List.mem_cons_of_mem _ hy, hin⟩
    · rintro ⟨y, hy, hin1, hin2⟩ hnone
      have hsame : colorOf i = some y.color := by
        rcases List.mem_cons.mp hy with rfl | hy
        · exact hx.same i hin1 hin2
        · exact (hxs.maximal y hy).same i hin1 hin2
      rw [hnone] at hsame
      cases hsame

/-! ## There is one list of them -/

/-- Two maximal runs that share an index are the same. -/
theorem Maximal.eq_of_shared {x y : Run κ} (hx : Maximal colorOf lo hi x)
    (hy : Maximal colorOf lo hi y) {i : Nat} (hxi : x.left ≤ i ∧ i < x.right)
    (hyi : y.left ≤ i ∧ i < y.right) : x = y := by
  have hcolor : x.color = y.color :=
    Option.some.inj ((hx.same i hxi.1 hxi.2).symm.trans (hy.same i hyi.1 hyi.2))
  -- neither can begin earlier or end later: it would hold the other's neighbour
  have hbound : ∀ {x y : Run κ}, Maximal colorOf lo hi x → Maximal colorOf lo hi y →
      x.color = y.color → x.left ≤ i ∧ i < x.right → y.left ≤ i ∧ i < y.right →
      y.left ≤ x.left ∧ x.right ≤ y.right := by
    intro x y hx hy hcolor hxi hyi
    constructor
    · refine Nat.le_of_not_lt fun hlt => ?_
      rcases hy.atLeft with hlo | hne
      · have := hx.lower
        omega
      · exact hne (hcolor ▸ hx.same _ (by omega) (by omega))
    · refine Nat.le_of_not_lt fun hlt => ?_
      rcases hy.atRight with hhi | hne
      · have := hx.upper
        omega
      · exact hne (hcolor ▸ hx.same _ (by omega) hlt)
  obtain ⟨h1, h2⟩ := hbound hx hy hcolor hxi hyi
  obtain ⟨h3, h4⟩ := hbound hy hx hcolor.symm hyi hxi
  cases x
  cases y
  simp only [Run.mk.injEq]
  exact ⟨Nat.le_antisymm h3 h1, Nat.le_antisymm h2 h4, hcolor⟩

theorem Runs.mem_iff {xs : List (Run κ)} (h : Runs colorOf lo hi xs) (x : Run κ) :
    x ∈ xs ↔ Maximal colorOf lo hi x := by
  constructor
  · exact h.maximal x
  · intro hx
    have hcolor := hx.same x.left (Nat.le_refl _) hx.nonEmpty
    obtain ⟨y, hy, hin⟩ := (h.covered x.left hx.lower
      (Nat.lt_of_lt_of_le hx.nonEmpty hx.upper)).mp (by simp [hcolor])
    rw [hx.eq_of_shared (h.maximal y hy) ⟨Nat.le_refl _, hx.nonEmpty⟩ hin]
    exact hy

theorem Runs.nodup {xs : List (Run κ)} (h : Runs colorOf lo hi xs) : xs.Nodup := by
  refine h.ordered.imp_of_mem fun {x y} hx _ hle heq => ?_
  have := (h.maximal x hx).nonEmpty
  rw [heq] at this hle
  omega

/-- The maximal runs in order are one list. -/
theorem Runs.unique {xs ys : List (Run κ)} (hx : Runs colorOf lo hi xs)
    (hy : Runs colorOf lo hi ys) : xs = ys := by
  have hperm : xs.Perm ys := (List.perm_ext_iff_of_nodup hx.nodup hy.nodup).mpr
    fun x => (hx.mem_iff x).trans (hy.mem_iff x).symm
  refine hperm.eq_of_pairwise (fun x y hmem hmem' h1 h2 => ?_) hx.ordered hy.ordered
  have hne := (hx.maximal x hmem).nonEmpty
  have hne' := (hy.maximal y hmem').nonEmpty
  omega

end SharixMaximalRun
