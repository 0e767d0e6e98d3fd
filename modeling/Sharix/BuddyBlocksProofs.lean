import Sharix.BuddyProofs
import Mathlib.Algebra.BigOperators.Group.Finset.Basic
import Mathlib.Algebra.Order.Group.Multiset
import Mathlib.Tactic.Abel

/-! # The allocator on sequences of blocks

    What the pointer code does to the free lists, with each list read as the
    sequence of the page numbers that head its blocks:

    * `seqFree`, `seqAlloc`, `seqInit` are the operations on sequences;
    * `freePages` is the multiset of pages in free blocks, and each operation
      moves a run of pages in or out of it, never losing or doubling one;
    * `Rep s L` relates a state of the C code to its sequences, and every C
      function is simulated by its sequence operation. -/

namespace SharixBuddy

open SharixList

/-- Free lists as sequences: `L i` heads the free blocks of order `i`. -/
abbrev Blocks := Nat → List Nat

/-! ## Runs of pages -/

/-- The `n` pages from `p`. -/
def run (p n : Nat) : Multiset Nat := (List.range' p n : Multiset Nat)

@[simp] theorem run_zero (p : Nat) : run p 0 = 0 := rfl

theorem mem_run {x p n : Nat} : x ∈ run p n ↔ p ≤ x ∧ x < p + n := by
  rw [run, Multiset.mem_coe, List.mem_range'_1]

theorem run_add (p a b : Nat) : run p (a + b) = run p a + run (p + a) b := by
  rw [run, run, run, Multiset.coe_add, List.range'_append_1]

theorem run_nodup (p n : Nat) : (run p n).Nodup :=
  Multiset.coe_nodup.mpr List.nodup_range'

/-- A block of order `i + 1` is two adjacent blocks of order `i`. -/
theorem run_succ_order (p i : Nat) :
    run p (2 ^ (i + 1)) = run p (2 ^ i) + run (p + 2 ^ i) (2 ^ i) := by
  rw [← run_add, Nat.pow_succ]
  congr 1
  omega

/-- The pages of the blocks of order `i` headed by `ps`. -/
def pagesOf (i : Nat) (ps : List Nat) : Multiset Nat :=
  (ps.map (fun p => run p (2 ^ i))).sum

@[simp] theorem pagesOf_nil (i : Nat) : pagesOf i [] = 0 := rfl

theorem pagesOf_cons (i p : Nat) (ps : List Nat) :
    pagesOf i (p :: ps) = run p (2 ^ i) + pagesOf i ps := by
  rw [pagesOf, List.map_cons, List.sum_cons, ← pagesOf]

/-- All pages in free blocks. -/
def freePages (L : Blocks) : Multiset Nat :=
  ∑ i ∈ Finset.range (MAX_ORDER + 1), pagesOf i (L i)

theorem freePages_update (L : Blocks) {i : Nat} (xs : List Nat)
    (hi : i ≤ MAX_ORDER) :
    freePages (Function.update L i xs) + pagesOf i (L i)
      = freePages L + pagesOf i xs := by
  have hmem : i ∈ Finset.range (MAX_ORDER + 1) :=
    Finset.mem_range.mpr (by omega)
  have hrest : ∑ j ∈ (Finset.range (MAX_ORDER + 1)).erase i,
        pagesOf j (Function.update L i xs j)
      = ∑ j ∈ (Finset.range (MAX_ORDER + 1)).erase i, pagesOf j (L j) := by
    refine Finset.sum_congr rfl ?_
    intro j hj
    rw [Function.update_of_ne (Finset.ne_of_mem_erase hj)]
  rw [freePages, freePages, ← Finset.add_sum_erase _ _ hmem,
    ← Finset.add_sum_erase _ _ hmem, hrest, Function.update_self]
  abel

/-- A block is put in front of its list. -/
def put (L : Blocks) (p i : Nat) : Blocks := Function.update L i (p :: L i)

theorem freePages_put (L : Blocks) (p : Nat) {i : Nat} (hi : i ≤ MAX_ORDER) :
    freePages (put L p i) = freePages L + run p (2 ^ i) := by
  have h := freePages_update L (p :: L i) hi
  rw [pagesOf_cons, ← add_assoc] at h
  exact add_right_cancel h

theorem freePages_pop {L : Blocks} {p i : Nat} {xs : List Nat}
    (hi : i ≤ MAX_ORDER) (hL : L i = p :: xs) :
    freePages (Function.update L i xs) + run p (2 ^ i) = freePages L := by
  have h := freePages_update L xs hi
  rw [hL, pagesOf_cons, ← add_assoc] at h
  exact add_right_cancel h

theorem pagesOf_mem {i p x : Nat} {ps : List Nat} (hp : p ∈ ps)
    (hx : x ∈ run p (2 ^ i)) : x ∈ pagesOf i ps := by
  induction ps with
  | nil => cases hp
  | cons q ps ih =>
      rw [pagesOf_cons, Multiset.mem_add]
      rcases List.mem_cons.mp hp with rfl | hp
      · exact Or.inl hx
      · exact Or.inr (ih hp)

theorem mem_pagesOf {i x : Nat} {ps : List Nat} (hx : x ∈ pagesOf i ps) :
    ∃ p ∈ ps, x ∈ run p (2 ^ i) := by
  induction ps with
  | nil => exact absurd hx (Multiset.notMem_zero x)
  | cons q ps ih =>
      rw [pagesOf_cons, Multiset.mem_add] at hx
      rcases hx with hx | hx
      · exact ⟨q, List.mem_cons_self .., hx⟩
      · obtain ⟨p, hp, hxp⟩ := ih hx
        exact ⟨p, List.mem_cons_of_mem _ hp, hxp⟩

/-- The free pages are the pages of the free blocks. -/
theorem mem_freePages {L : Blocks} {x : Nat} :
    x ∈ freePages L ↔
      ∃ i, i ≤ MAX_ORDER ∧ ∃ p ∈ L i, x ∈ run p (2 ^ i) := by
  rw [freePages, Multiset.mem_sum]
  constructor
  · rintro ⟨i, hi, hx⟩
    exact ⟨i, Nat.lt_succ_iff.mp (Finset.mem_range.mp hi), mem_pagesOf hx⟩
  · rintro ⟨i, hi, p, hp, hx⟩
    exact ⟨i, Finset.mem_range.mpr (Nat.lt_succ_of_le hi), pagesOf_mem hp hx⟩

/-- The page heads no free block. -/
def Fresh (L : Blocks) (p : Nat) : Prop := ∀ j, j ≤ MAX_ORDER → p ∉ L j

/-- A page outside the free pages heads no block. -/
theorem fresh_of_nodup {L : Blocks} {p n : Nat}
    (hnd : (freePages L + run p n).Nodup) (hn : 0 < n) : Fresh L p := by
  intro j hj hp
  refine Multiset.disjoint_left.mp (Multiset.nodup_add.mp hnd).2.2
    (mem_freePages.mpr ⟨j, hj, p, hp, ?_⟩) (mem_run.mpr ⟨Nat.le_refl _, by omega⟩)
  exact mem_run.mpr ⟨Nat.le_refl _, by have := Nat.two_pow_pos j; omega⟩

/-! ## The operations on sequences -/

def seqInitBlocks (order p n : Nat) (L : Blocks) : Nat × Nat × Blocks :=
  if 2 ^ order ≤ n then
    seqInitBlocks order (p + 2 ^ order) (n - 2 ^ order) (put L p order)
  else (p, n, L)
termination_by n
decreasing_by
  have := Nat.two_pow_pos order
  omega

def seqInitOrders : Nat → Nat → Nat → Blocks → Blocks
  | 0, p, n, L => if n = 0 then L else (seqInitBlocks 0 p n L).2.2
  | order + 1, p, n, L =>
      if n = 0 then L
      else
        let r := seqInitBlocks (order + 1) p n L
        seqInitOrders order r.1 r.2.1 r.2.2

def seqInit (base n : Nat) (L : Blocks) : Blocks :=
  seqInitOrders MAX_ORDER base n L

def seqSplit (order page : Nat) : Nat → Blocks → Blocks
  | 0, L => L
  | i + 1, L =>
      if order < i + 1 then seqSplit order page i (put L (page + 2 ^ i) i)
      else L

def seqAllocFrom (order i : Nat) (L : Blocks) : Blocks × Option Nat :=
  if i ≤ MAX_ORDER then
    match L i with
    | [] => seqAllocFrom order (i + 1) L
    | p :: xs => (seqSplit order p i (Function.update L i xs), some p)
  else (L, none)
termination_by MAX_ORDER + 1 - i
decreasing_by omega

def seqMerge (i p : Nat) (L : Blocks) : Nat × Nat × Blocks :=
  if i < MAX_ORDER then
    match L i with
    | [] => (i, p, L)
    | b :: xs =>
        if p = b + 2 ^ i then seqMerge (i + 1) b (Function.update L i xs)
        else if p + 2 ^ i = b then seqMerge (i + 1) p (Function.update L i xs)
        else (i, p, L)
  else (i, p, L)
termination_by MAX_ORDER - i
decreasing_by all_goals omega

def seqFreeSub (base order : Nat) (L : Blocks) : Blocks :=
  let r := seqMerge order base L
  put r.2.2 r.2.1 r.1

def seqFreeRun (base n i : Nat) (L : Blocks) : Blocks :=
  if n = 0 then L
  else
    seqFreeRun (base + 2 ^ orderBelow n i) (n - 2 ^ orderBelow n i)
      (orderBelow n i) (seqFreeSub base (orderBelow n i) L)
termination_by n
decreasing_by exact Nat.sub_lt (Nat.pos_of_ne_zero ‹_›) (Nat.two_pow_pos _)

def seqFree (base n : Nat) (L : Blocks) : Blocks :=
  if n = 1 then seqFreeSub base 0 L else seqFreeRun base n (orderAbove n 0) L

def seqAlloc (n : Nat) (L : Blocks) : Blocks × Option Nat :=
  if n = 0 then (L, none)
  else
    match seqAllocFrom (getorder n) (getorder n) L with
    | (L, none) => (L, none)
    | (L, some p) =>
        if n ≠ 2 ^ getorder n then
          (seqFree (p + n) (2 ^ getorder n - n) L, some p)
        else (L, some p)

/-! ## Orders -/

/-- The orders that pass the loop of `getorder` are too small. -/
theorem getorderFrom_spec (n order : Nat)
    (hsmall : ∀ j, j < order → 2 ^ j < n) :
    (getorderFrom n order ≤ MAX_ORDER ∧ n ≤ 2 ^ getorderFrom n order ∧
        ∀ j, j < getorderFrom n order → 2 ^ j < n) ∨
      (getorderFrom n order = 2 ^ 32 - 1 ∧ ∀ j, j ≤ MAX_ORDER → 2 ^ j < n) := by
  fun_induction getorderFrom n order with
  | case1 order ho hn => exact Or.inl ⟨ho, hn, hsmall⟩
  | case2 order ho hn ih =>
      refine ih ?_
      intro j hj
      rcases Nat.lt_succ_iff_lt_or_eq.mp hj with h | rfl
      · exact hsmall j h
      · omega
  | case3 order ho =>
      refine Or.inr ⟨rfl, ?_⟩
      intro j hj
      exact hsmall j (by omega)

/-- `getorder` finds the least order whose blocks hold `n` pages. -/
theorem getorder_spec {n : Nat} (hn : n ≤ 2 ^ MAX_ORDER) :
    getorder n ≤ MAX_ORDER ∧ n ≤ 2 ^ getorder n ∧
      ∀ j, j < getorder n → 2 ^ j < n := by
  rcases getorderFrom_spec n 0 (fun j hj => absurd hj (Nat.not_lt_zero j))
    with h | ⟨-, h⟩
  · exact h
  · exact absurd (h MAX_ORDER (Nat.le_refl _)) (by omega)

theorem getorder_large {n : Nat} (hn : 2 ^ MAX_ORDER < n) :
    getorder n = 2 ^ 32 - 1 := by
  rcases getorderFrom_spec n 0 (fun j hj => absurd hj (Nat.not_lt_zero j))
    with ⟨h1, h2, -⟩ | ⟨h, -⟩
  · have := Nat.pow_le_pow_right (n := 2) (by omega) h1
    exact absurd (Nat.lt_of_lt_of_le hn h2) (Nat.not_lt.mpr this)
  · exact h

/-- A size whose order is within range fits a block of that order. -/
theorem getorder_bound {n : Nat} (h : getorder n ≤ MAX_ORDER) :
    n ≤ 2 ^ getorder n ∧ 2 ^ getorder n ≤ 2 ^ MAX_ORDER := by
  refine ⟨?_, Nat.pow_le_pow_right (by omega) h⟩
  refine (getorder_spec ?_).2.1
  by_contra hbig
  rw [getorder_large (Nat.lt_of_not_le hbig)] at h
  exact absurd h (by decide)

/-- `orderAbove` stops at the first order too large for `n`. -/
theorem orderAbove_spec (n i : Nat) (hi : ∀ j, j < i → 2 ^ j ≤ n) :
    n < 2 ^ orderAbove n i ∧ ∀ j, j < orderAbove n i → 2 ^ j ≤ n := by
  fun_induction orderAbove n i with
  | case1 i h ih =>
      refine ih ?_
      intro j hj
      rcases Nat.lt_succ_iff_lt_or_eq.mp hj with h' | rfl
      · exact hi j h'
      · exact h
  | case2 i h => exact ⟨by omega, hi⟩

/-- `orderBelow` picks the largest piece of at most `n` pages. -/
theorem orderBelow_spec {n : Nat} (hn : 0 < n) (i : Nat) :
    2 ^ orderBelow n i ≤ n ∧ orderBelow n i ≤ i := by
  induction i with
  | zero => exact ⟨by rw [orderBelow]; omega, Nat.le_refl _⟩
  | succ i ih =>
      rw [orderBelow]
      by_cases h : n < 2 ^ (i + 1)
      · rw [if_pos h]
        exact ⟨ih.1, by omega⟩
      · rw [if_neg h]
        exact ⟨by omega, Nat.le_refl _⟩

/-- Pieces of a run within the largest block have an order within range. -/
theorem orderBelow_le_max {n : Nat} (hn : 0 < n) (hm : n ≤ 2 ^ MAX_ORDER)
    (i : Nat) : orderBelow n i ≤ MAX_ORDER := by
  have h := (orderBelow_spec hn i).1
  exact (Nat.pow_le_pow_iff_right (by omega)).mp (Nat.le_trans h hm)

/-! ## Page accounting -/

theorem seqInitBlocks_pages (order p n : Nat) (L : Blocks)
    (ho : order ≤ MAX_ORDER) :
    freePages (seqInitBlocks order p n L).2.2
        + run (seqInitBlocks order p n L).1 (seqInitBlocks order p n L).2.1
      = freePages L + run p n ∧
    (seqInitBlocks order p n L).2.1 < 2 ^ order := by
  fun_induction seqInitBlocks order p n L with
  | case1 p n L h ih =>
      refine ⟨?_, ih.2⟩
      have hrun : run p n = run p (2 ^ order) + run (p + 2 ^ order) (n - 2 ^ order) := by
        rw [← run_add]
        congr 1
        omega
      rw [ih.1, freePages_put L p ho, hrun, add_assoc]
  | case2 p n L h => exact ⟨rfl, Nat.lt_of_not_le h⟩

theorem seqInitOrders_pages (order : Nat) :
    ∀ (p n : Nat) (L : Blocks), order ≤ MAX_ORDER →
      freePages (seqInitOrders order p n L) = freePages L + run p n := by
  induction order with
  | zero =>
      intro p n L ho
      rw [seqInitOrders]
      by_cases hn : n = 0
      · rw [if_pos hn, hn, run_zero, add_zero]
      · rw [if_neg hn]
        obtain ⟨h1, h2⟩ := seqInitBlocks_pages 0 p n L ho
        have h0 : (seqInitBlocks 0 p n L).2.1 = 0 := by omega
        rw [h0, run_zero, add_zero] at h1
        exact h1
  | succ order ih =>
      intro p n L ho
      rw [seqInitOrders]
      by_cases hn : n = 0
      · rw [if_pos hn, hn, run_zero, add_zero]
      · rw [if_neg hn]
        obtain ⟨h1, -⟩ := seqInitBlocks_pages (order + 1) p n L ho
        show freePages (seqInitOrders order _ _ _) = _
        rw [ih _ _ _ (by omega), h1]

/-- `init_memmap` frees exactly the pages it is given. -/
theorem seqInit_pages (base n : Nat) (L : Blocks) :
    freePages (seqInit base n L) = freePages L + run base n :=
  seqInitOrders_pages MAX_ORDER base n L (Nat.le_refl _)

theorem seqSplit_pages (order page : Nat) :
    ∀ (i : Nat) (L : Blocks), order ≤ i → i ≤ MAX_ORDER →
      freePages (seqSplit order page i L) + run page (2 ^ order)
        = freePages L + run page (2 ^ i) := by
  intro i
  induction i with
  | zero =>
      intro L ho _
      obtain rfl : order = 0 := by omega
      rfl
  | succ i ih =>
      intro L ho hi
      rw [seqSplit]
      by_cases h : order < i + 1
      · rw [if_pos h, ih _ (by omega) (by omega), freePages_put L _ (by omega),
          run_succ_order page i]
        abel
      · rw [if_neg h]
        obtain rfl : order = i + 1 := by omega
        rfl

/-- The scan of `buddy_alloc_pages_sub`: it answers `NULL` when every list
    from `i` on is empty, and else cuts a block of the asked order out of the
    free pages. -/
theorem seqAllocFrom_spec (order i : Nat) (L : Blocks) (hoi : order ≤ i) :
    ((seqAllocFrom order i L).2 = none ∧ (seqAllocFrom order i L).1 = L ∧
        ∀ j, i ≤ j → j ≤ MAX_ORDER → L j = []) ∨
      ∃ p, (seqAllocFrom order i L).2 = some p ∧
        freePages (seqAllocFrom order i L).1 + run p (2 ^ order) = freePages L ∧
        ∃ j, i ≤ j ∧ j ≤ MAX_ORDER ∧ L j ≠ [] := by
  fun_induction seqAllocFrom order i L with
  | case1 i hi hnil ih =>
      rcases ih (by omega) with ⟨h1, h2, h3⟩ | ⟨p, h1, h2, j, hj1, hj2, hj3⟩
      · refine Or.inl ⟨h1, h2, ?_⟩
        intro j hj1 hj2
        rcases Nat.eq_or_lt_of_le hj1 with rfl | hlt
        · exact hnil
        · exact h3 j hlt hj2
      · exact Or.inr ⟨p, h1, h2, j, by omega, hj2, hj3⟩
  | case2 i hi p xs hL =>
      refine Or.inr ⟨p, rfl, ?_, i, Nat.le_refl _, hi, by rw [hL]; simp⟩
      show freePages (seqSplit order p i _) + _ = _
      rw [seqSplit_pages order p i _ hoi hi, freePages_pop hi hL]
  | case3 i hi =>
      exact Or.inl ⟨rfl, rfl, fun j h1 h2 => absurd hi (by omega)⟩

/-- Merging keeps the pages and stays within the orders. -/
theorem seqMerge_pages (i p : Nat) (L : Blocks) (hi : i ≤ MAX_ORDER) :
    freePages (seqMerge i p L).2.2
        + run (seqMerge i p L).2.1 (2 ^ (seqMerge i p L).1)
      = freePages L + run p (2 ^ i) ∧
    (seqMerge i p L).1 ≤ MAX_ORDER := by
  fun_induction seqMerge i p L with
  | case1 => exact ⟨rfl, hi⟩
  | case2 i L h b xs hL ih =>
      refine ⟨?_, (ih (by omega)).2⟩
      rw [(ih (by omega)).1, run_succ_order b i, ← freePages_pop hi hL]
      abel
  | case3 i p L h xs hL hne ih =>
      refine ⟨?_, (ih (by omega)).2⟩
      rw [(ih (by omega)).1, run_succ_order p i, ← freePages_pop hi hL]
      abel
  | case4 => exact ⟨rfl, hi⟩
  | case5 => exact ⟨rfl, hi⟩

theorem seqFreeSub_pages (base order : Nat) (L : Blocks)
    (ho : order ≤ MAX_ORDER) :
    freePages (seqFreeSub base order L) = freePages L + run base (2 ^ order) := by
  obtain ⟨h1, h2⟩ := seqMerge_pages order base L ho
  show freePages (put _ _ _) = _
  rw [freePages_put _ _ h2, h1]

theorem seqFreeRun_pages (base n i : Nat) (L : Blocks)
    (hn : n ≤ 2 ^ MAX_ORDER) :
    freePages (seqFreeRun base n i L) = freePages L + run base n := by
  fun_induction seqFreeRun base n i L with
  | case1 => rw [run_zero, add_zero]
  | case2 base n i L h ih =>
      have hpos := Nat.pos_of_ne_zero h
      have hle := (orderBelow_spec hpos i).1
      rw [ih (Nat.le_trans (Nat.sub_le _ _) hn),
        seqFreeSub_pages _ _ _ (orderBelow_le_max hpos hn i),
        add_assoc, ← run_add]
      congr 2
      omega

/-- `free_pages` gives back exactly the run it is called on. -/
theorem seqFree_pages (base n : Nat) (L : Blocks) (hn : n ≤ 2 ^ MAX_ORDER) :
    freePages (seqFree base n L) = freePages L + run base n := by
  rw [seqFree]
  by_cases h : n = 1
  · rw [if_pos h, seqFreeSub_pages _ _ _ (Nat.zero_le _), h, Nat.pow_zero]
  · rw [if_neg h, seqFreeRun_pages _ _ _ _ hn]

/-- `alloc_pages` answers `NULL` and changes nothing, for the sizes no free
    block can hold, and takes exactly the run it returns out of the free
    pages else. -/
theorem seqAlloc_spec (n : Nat) (L : Blocks) :
    ((seqAlloc n L).2 = none ∧ (seqAlloc n L).1 = L ∧
        (n = 0 ∨ 2 ^ MAX_ORDER < n ∨
          ∀ i, i ≤ MAX_ORDER → n ≤ 2 ^ i → L i = [])) ∨
      ∃ p, (seqAlloc n L).2 = some p ∧
        freePages (seqAlloc n L).1 + run p n = freePages L ∧
        0 < n ∧ n ≤ 2 ^ MAX_ORDER ∧
        ∃ i, i ≤ MAX_ORDER ∧ n ≤ 2 ^ i ∧ L i ≠ [] := by
  by_cases hn : n = 0
  · rw [seqAlloc, if_pos hn]
    exact Or.inl ⟨rfl, rfl, Or.inl hn⟩
  · by_cases hbig : 2 ^ MAX_ORDER < n
    · have hscan : seqAllocFrom (getorder n) (getorder n) L = (L, none) := by
        rw [getorder_large hbig, seqAllocFrom]
        exact if_neg (by decide)
      rw [seqAlloc, if_neg hn, hscan]
      exact Or.inl ⟨rfl, rfl, Or.inr (Or.inl hbig)⟩
    · obtain ⟨ho, hle, hlt⟩ := getorder_spec (Nat.le_of_not_lt hbig)
      rw [seqAlloc, if_neg hn]
      have hspec := seqAllocFrom_spec (getorder n) (getorder n) L (Nat.le_refl _)
      rcases hr : seqAllocFrom (getorder n) (getorder n) L with ⟨L', r⟩
      rw [hr] at hspec
      rcases hspec with ⟨h1, h2, h3⟩ | ⟨p, h1, h2, j, hj1, hj2, hj3⟩
      · have h1 : r = none := h1
        have h2 : L' = L := h2
        subst h1; subst h2
        refine Or.inl ⟨rfl, rfl, Or.inr (Or.inr ?_)⟩
        intro i hi hni
        refine h3 i ?_ hi
        by_contra hcon
        exact absurd (hlt i (by omega)) (by omega)
      · have h1 : r = some p := h1
        have h2 : freePages L' + run p (2 ^ getorder n) = freePages L := h2
        subst h1
        have hj : n ≤ 2 ^ j :=
          Nat.le_trans hle (Nat.pow_le_pow_right (by omega) hj1)
        refine Or.inr ⟨p, ?_, ?_, Nat.pos_of_ne_zero hn,
          Nat.le_of_not_lt hbig, j, hj2, hj, hj3⟩
        · show (if n ≠ 2 ^ getorder n then _ else _ : Blocks × Option Nat).2 = _
          split <;> rfl
        · show freePages
            (if n ≠ 2 ^ getorder n then _ else _ : Blocks × Option Nat).1 + _ = _
          by_cases hfull : n = 2 ^ getorder n
          · rw [if_neg (by simpa using hfull)]
            show freePages L' + run p n = freePages L
            rw [← h2, ← hfull]
          · rw [if_pos hfull]
            show freePages (seqFree _ _ L') + run p n = freePages L
            have hmax := Nat.pow_le_pow_right (n := 2) (by omega) ho
            have hcut : run p (2 ^ getorder n)
                = run p n + run (p + n) (2 ^ getorder n - n) := by
              rw [← run_add]
              congr 1
              omega
            rw [seqFree_pages _ _ _ (by omega), ← h2, hcut]
            abel

/-! ## The C code simulates the sequences -/

/-- The lists of the state are the sequences `L`: each `free_list(i)` is a
    ring through its blocks, `nr_free(i)` counts them, and their heads carry
    the order `i`. -/
structure Rep (s : State) (L : Blocks) : Prop where
  rings : Rings s.link Addr.freeList (· ≤ MAX_ORDER)
    (fun i => (L i).map Addr.pageLink)
  count : ∀ i, i ≤ MAX_ORDER → s.nrFree i = (L i).length
  order : ∀ i, i ≤ MAX_ORDER → ∀ p ∈ L i, s.order p = i

private theorem map_update (L : Blocks) (i : Nat) (xs : List Nat) :
    (fun j => (Function.update L i xs j).map Addr.pageLink)
      = Function.update (fun j => (L j).map Addr.pageLink) i
          (xs.map Addr.pageLink) := by
  funext j
  by_cases hj : j = i
  · rw [hj, Function.update_self, Function.update_self]
  · rw [Function.update_of_ne hj, Function.update_of_ne hj]

theorem Rep.listEmpty_eq {s : State} {L : Blocks} (hR : Rep s L) {i : Nat}
    (hi : i ≤ MAX_ORDER) :
    listEmpty s.link (.freeList i) = some (L i).isEmpty := by
  rw [(hR.rings.ring i hi).listEmpty_eq, List.isEmpty_map]

/-- No page heads two blocks. -/
theorem Rep.head_unique {s : State} {L : Blocks} (hR : Rep s L) {i : Nat}
    (hi : i ≤ MAX_ORDER) {p : Nat} {xs : List Nat} (hL : L i = p :: xs) :
    Fresh (Function.update L i xs) p := by
  intro j hj hp
  by_cases hji : j = i
  · subst hji
    rw [Function.update_self] at hp
    have hnd := (hR.rings.ring j hj).nodup
    rw [hL] at hnd
    have hnd' := (List.nodup_cons.mp (List.nodup_cons.mp hnd).2).1
    exact hnd' (List.mem_map_of_mem hp)
  · rw [Function.update_of_ne hji] at hp
    refine hR.rings.disj j i hj hi hji
      (List.mem_cons_of_mem _ (List.mem_map_of_mem hp)) ?_
    show Addr.pageLink p ∈ _ :: (L i).map Addr.pageLink
    rw [hL]
    exact List.mem_cons_of_mem _ (List.mem_map_of_mem (List.mem_cons_self ..))

/-- The order of a page that heads no block is not part of the lists. -/
theorem Rep.setOrder {s : State} {L : Blocks} (hR : Rep s L) {p : Nat}
    (hp : Fresh L p) (v : Nat) :
    Rep { s with order := Function.update s.order p v } L := by
  refine ⟨hR.rings, hR.count, ?_⟩
  intro i hi q hq
  have hqp : q ≠ p := fun e => hp i hi (e ▸ hq)
  show Function.update s.order p v q = i
  rw [Function.update_of_ne hqp]
  exact hR.order i hi q hq

/-- One list is another, of pages that carry its order. -/
theorem Rep.setList {s : State} {L : Blocks} (hR : Rep s L) {i : Nat} {xs : List Nat}
    {m : LinkMem Addr}
    (hrings : Rings m Addr.freeList (· ≤ MAX_ORDER)
      (Function.update (fun j => (L j).map Addr.pageLink) i (xs.map Addr.pageLink)))
    (ho : ∀ q ∈ xs, s.order q = i) :
    Rep { s with link := m, nrFree := Function.update s.nrFree i xs.length }
      (Function.update L i xs) := by
  refine ⟨?_, ?_, ?_⟩
  · rw [map_update]
    exact hrings
  · intro j hj
    show Function.update s.nrFree i _ j = (Function.update L i xs j).length
    by_cases hji : j = i
    · subst hji
      rw [Function.update_self, Function.update_self]
    · rw [Function.update_of_ne hji, Function.update_of_ne hji, hR.count j hj]
  · intro j hj q hq
    show s.order q = j
    by_cases hji : j = i
    · subst hji
      rw [Function.update_self] at hq
      exact ho q hq
    · rw [Function.update_of_ne hji] at hq
      exact hR.order j hj q hq

/-- `list_add` and `nr_free(i)++` of a page that already carries its
    order. -/
theorem Rep.push {s : State} {L : Blocks} (hR : Rep s L) {p i : Nat}
    (hi : i ≤ MAX_ORDER) (hp : Fresh L p) (ho : s.order p = i) :
    ∃ m, listAdd s.link (.freeList i) (.pageLink p) = some m ∧
      Rep { s with
        link := m
        nrFree := Function.update s.nrFree i (s.nrFree i + 1) } (put L p i) := by
  have hfresh : ∀ j, j ≤ MAX_ORDER →
      Addr.pageLink p ∉ Addr.freeList j :: (L j).map Addr.pageLink := by
    intro j hj hm
    rcases List.mem_cons.mp hm with h1 | h1
    · cases h1
    · obtain ⟨q, hq, heq⟩ := List.mem_map.mp h1
      exact hp j hj (Addr.pageLink.inj heq ▸ hq)
  obtain ⟨m, hrun, hrings, -⟩ := listAdd_rings hR.rings hi (pageLink_ne_null p) hfresh
  refine ⟨m, hrun, ?_⟩
  rw [hR.count i hi]
  refine @Rep.setList _ _ hR i (p :: L i) _ hrings fun q hq => ?_
  rcases List.mem_cons.mp hq with rfl | hq
  · exact ho
  · exact hR.order i hi q hq

/-- `nr_free(i)--` and `list_del` of the first block of a list. -/
theorem Rep.pop {s : State} {L : Blocks} (hR : Rep s L) {p i : Nat}
    {xs : List Nat} (hi : i ≤ MAX_ORDER) (hL : L i = p :: xs) :
    ∃ m, listDel s.link (.pageLink p) = some m ∧
      Rep { s with
        link := m
        nrFree := Function.update s.nrFree i (s.nrFree i - 1) }
        (Function.update L i xs) := by
  have hL' : (L i).map Addr.pageLink
      = [] ++ Addr.pageLink p :: xs.map Addr.pageLink := by
    rw [hL]; rfl
  obtain ⟨m, hrun, hrings, -⟩ := listDel_rings hR.rings hi hL'
  refine ⟨m, hrun, ?_⟩
  rw [hR.count i hi, hL, List.length_cons, Nat.add_sub_cancel]
  exact hR.setList hrings fun q hq => hR.order i hi q (hL ▸ List.mem_cons_of_mem _ hq)

theorem putBlock_rep {s : State} {L : Blocks} (hR : Rep s L) {p i : Nat}
    (hi : i ≤ MAX_ORDER) (hp : Fresh L p) :
    ∃ s', putBlock p i s = some s' ∧ Rep s' (put L p i) := by
  obtain ⟨m, hrun, hrep⟩ :=
    (hR.setOrder hp i).push hi hp (Function.update_self ..)
  exact ⟨_, by rw [putBlock, hrun]; rfl, hrep⟩

theorem clearPages_rep (base n : Nat) (s : State) {L : Blocks} (hR : Rep s L)
    (hf : ∀ p, base ≤ p → p < base + n → Fresh L p) :
    Rep (clearPages base n s) L := by
  induction n generalizing base s with
  | zero => exact hR
  | succ n ih =>
      refine ih (base + 1) _ ?_ (fun p h1 h2 => hf p (by omega) (by omega))
      obtain ⟨h1, h2, h3⟩ := hR.setOrder (hf base (Nat.le_refl _) (by omega)) 0
      exact ⟨h1, h2, h3⟩

theorem initBlocks_rep (order p n : Nat) {s : State} {L : Blocks}
    (ho : order ≤ MAX_ORDER) (hR : Rep s L)
    (hnd : (freePages L + run p n).Nodup) :
    ∃ s', initBlocks order p n s
        = some ((seqInitBlocks order p n L).1, (seqInitBlocks order p n L).2.1, s') ∧
      Rep s' (seqInitBlocks order p n L).2.2 := by
  fun_induction seqInitBlocks order p n L generalizing s with
  | case1 p n L h ih =>
      have hpos := Nat.two_pow_pos order
      obtain ⟨s₁, hrun, hrep⟩ :=
        putBlock_rep hR ho (fresh_of_nodup hnd (by omega))
      have hnd' : (freePages (put L p order)
          + run (p + 2 ^ order) (n - 2 ^ order)).Nodup := by
        rw [freePages_put L p ho, add_assoc, ← run_add]
        rwa [show 2 ^ order + (n - 2 ^ order) = n by omega]
      obtain ⟨s₂, hrun₂, hrep₂⟩ := ih hrep hnd'
      refine ⟨s₂, ?_, hrep₂⟩
      rw [initBlocks, if_pos h, hrun]
      exact hrun₂
  | case2 p n L h =>
      refine ⟨s, ?_, hR⟩
      rw [initBlocks, if_neg h]

theorem initOrders_rep (order : Nat) :
    ∀ (p n : Nat) {s : State} {L : Blocks}, order ≤ MAX_ORDER → Rep s L →
      (freePages L + run p n).Nodup →
      ∃ s', initOrders order p n s = some s' ∧
        Rep s' (seqInitOrders order p n L) := by
  induction order with
  | zero =>
      intro p n s L ho hR hnd
      rw [initOrders, seqInitOrders]
      by_cases hn : n = 0
      · rw [if_pos hn, if_pos hn]
        exact ⟨s, rfl, hR⟩
      · rw [if_neg hn, if_neg hn]
        obtain ⟨s', hrun, hrep⟩ := initBlocks_rep 0 p n ho hR hnd
        exact ⟨s', by rw [hrun]; rfl, hrep⟩
  | succ order ih =>
      intro p n s L ho hR hnd
      rw [initOrders, seqInitOrders]
      by_cases hn : n = 0
      · rw [if_pos hn, if_pos hn]
        exact ⟨s, rfl, hR⟩
      · rw [if_neg hn, if_neg hn]
        obtain ⟨s₁, hrun, hrep⟩ := initBlocks_rep (order + 1) p n ho hR hnd
        have hnd' := hnd
        rw [← (seqInitBlocks_pages (order + 1) p n L ho).1] at hnd'
        obtain ⟨s₂, hrun₂, hrep₂⟩ := ih _ _ (by omega) hrep hnd'
        refine ⟨s₂, ?_, hrep₂⟩
        rw [hrun]
        exact hrun₂

theorem buddyInitMemmap_rep (base n : Nat) {s : State} {L : Blocks}
    (hR : Rep s L) (hnd : (freePages L + run base n).Nodup) :
    ∃ s', buddyInitMemmap base n s = some s' ∧ Rep s' (seqInit base n L) := by
  refine initOrders_rep MAX_ORDER base n (Nat.le_refl _) ?_ hnd
  refine clearPages_rep base n s hR ?_
  intro p h1 h2 j hj hp
  refine Multiset.disjoint_left.mp (Multiset.nodup_add.mp hnd).2.2
    (mem_freePages.mpr ⟨j, hj, p, hp, ?_⟩) (mem_run.mpr ⟨h1, h2⟩)
  exact mem_run.mpr ⟨Nat.le_refl _, by have := Nat.two_pow_pos j; omega⟩

theorem splitBlock_rep (order page : Nat) :
    ∀ (i : Nat) {s : State} {L : Blocks}, i ≤ MAX_ORDER → Rep s L →
      (freePages L + run page (2 ^ i)).Nodup →
      ∃ s', splitBlock order page i s = some s' ∧
        Rep s' (seqSplit order page i L) := by
  intro i
  induction i with
  | zero =>
      intro s L _ hR _
      exact ⟨s, rfl, hR⟩
  | succ i ih =>
      intro s L hi hR hnd
      rw [splitBlock, seqSplit]
      by_cases h : order < i + 1
      · rw [if_pos h, if_pos h]
        rw [run_succ_order, add_comm (run page _), ← add_assoc] at hnd
        have hupper : Fresh L (page + 2 ^ i) :=
          fresh_of_nodup (Multiset.nodup_add.mp hnd).1 (Nat.two_pow_pos i)
        obtain ⟨s₁, hrun, hrep⟩ := putBlock_rep hR (i := i) (by omega) hupper
        rw [← freePages_put L _ (by omega)] at hnd
        obtain ⟨s₂, hrun₂, hrep₂⟩ := ih (by omega) hrep hnd
        exact ⟨s₂, by rw [hrun]; exact hrun₂, hrep₂⟩
      · rw [if_neg h, if_neg h]
        exact ⟨s, rfl, hR⟩

theorem allocFrom_rep (order i : Nat) {s : State} {L : Blocks} (hR : Rep s L)
    (hnd : (freePages L).Nodup) :
    ∃ s', allocFrom order i s = some (s', (seqAllocFrom order i L).2) ∧
      Rep s' (seqAllocFrom order i L).1 := by
  fun_induction seqAllocFrom order i L generalizing s with
  | case1 i hi hnil ih =>
      obtain ⟨s', hrun, hrep⟩ := ih hR
      refine ⟨s', ?_, hrep⟩
      rw [allocFrom, if_pos hi, hR.listEmpty_eq hi, hnil]
      exact hrun
  | case2 i hi p xs hL =>
      have hne : listEmpty s.link (.freeList i) = some false := by
        rw [hR.listEmpty_eq hi, hL]
        rfl
      have hnext : listNext s.link (.freeList i) = some (.pageLink p) := by
        have hr := hR.rings.ring i hi
        rw [hL] at hr
        exact hr.listNext_cons
      obtain ⟨m, hdel, hrep⟩ := hR.pop hi hL
      have hnd' : (freePages (Function.update L i xs) + run p (2 ^ i)).Nodup := by
        rw [freePages_pop hi hL]
        exact hnd
      obtain ⟨s', hsplit, hrep'⟩ := splitBlock_rep order p i hi hrep hnd'
      refine ⟨s', ?_, hrep'⟩
      rw [allocFrom, if_pos hi]
      simp only [hne, hnext, hdel, Option.bind_eq_bind, Option.bind_some, toPage,
        Bool.false_eq_true, if_false]
      rw [hsplit]
      rfl
  | case3 i hi =>
      refine ⟨s, ?_, hR⟩
      rw [allocFrom, if_neg hi]
      rfl

/-- The head of a non-empty list is a page whose order is the list's. -/
theorem Rep.head {s : State} {L : Blocks} (hR : Rep s L) {i b : Nat}
    {xs : List Nat} (hi : i ≤ MAX_ORDER) (hL : L i = b :: xs) :
    listNext s.link (.freeList i) = some (.pageLink b) ∧ s.order b = i ∧
      ∃ a, listNext s.link (.pageLink b) = some a := by
  have hr := hR.rings.ring i hi
  rw [hL] at hr
  refine ⟨hr.listNext_cons, hR.order i hi b (by rw [hL]; simp),
    (s.link (.pageLink b)).next, ?_⟩
  rw [listNext, if_neg (pageLink_ne_null b)]

/-- A pass of `while (i < MAX_ORDER)` that finds the upper neighbour first. -/
theorem mergeFrom_right {i p : Nat} {s : State} {L : Blocks} {xs : List Nat}
    (hR : Rep s L) (hi : i < MAX_ORDER) (ho : s.order p = i) (hp : Fresh L p)
    (hL : L i = (p + 2 ^ i) :: xs) :
    ∃ s', mergeFrom i p s = mergeFrom (i + 1) p s' ∧
      Rep s' (Function.update L i xs) ∧ Fresh (Function.update L i xs) p ∧
      s'.order p = i + 1 := by
  have hi' := Nat.le_of_lt hi
  obtain ⟨hnext, hob, a, hnext'⟩ := hR.head hi' hL
  obtain ⟨m, hdel, hrep⟩ := hR.pop hi' hL
  have hp' : Fresh (Function.update L i xs) p := by
    intro j hj hm
    by_cases hji : j = i
    · subst hji
      rw [Function.update_self] at hm
      exact hp j hj (hL ▸ List.mem_cons_of_mem _ hm)
    · rw [Function.update_of_ne hji] at hm
      exact hp j hj hm
  have hpos := Nat.two_pow_pos i
  have hne : ¬ p = p + 2 ^ i + 2 ^ i := by omega
  refine ⟨_, ?_, hrep.setOrder hp' (s.order p + 1), hp', ?_⟩
  · rw [mergeFrom, if_pos hi]
    simp only [hnext, Option.bind_eq_bind, Option.bind_some, reduceCtorEq,
      if_false, toPage, hnext', hob, ho, if_true, hdel, if_neg hne]
  · rw [← ho]
    exact Function.update_self ..

theorem mergeFrom_rep (i p : Nat) {s : State} {L : Blocks} (hR : Rep s L)
    (hi : i ≤ MAX_ORDER) (ho : s.order p = i) (hp : Fresh L p) :
    ∃ s', mergeFrom i p s
        = some ((seqMerge i p L).1, (seqMerge i p L).2.1, s') ∧
      Rep s' (seqMerge i p L).2.2 ∧
      Fresh (seqMerge i p L).2.2 (seqMerge i p L).2.1 ∧
      s'.order (seqMerge i p L).2.1 = (seqMerge i p L).1 := by
  fun_induction seqMerge i p L generalizing s with
  | case1 i p L h hnil =>
      have hnext : listNext s.link (.freeList i) = some (.freeList i) := by
        have hr := hR.rings.ring i hi
        rw [hnil] at hr
        exact hr.listNext_nil
      refine ⟨s, ?_, hR, hp, ho⟩
      rw [mergeFrom, if_pos h]
      simp only [hnext, Option.bind_eq_bind, Option.bind_some, if_true]
      rfl
  | case2 i L h b xs hL ih =>
      obtain ⟨hnext, hob, a, hnext'⟩ := hR.head (Nat.le_of_lt h) hL
      obtain ⟨m, hdel, hrep⟩ := hR.pop hi hL
      have hb := hR.head_unique hi hL
      obtain ⟨s', hrun, hrest⟩ := ih (hrep.setOrder hb (s.order b + 1)) (by omega)
        (by rw [← hob]; exact Function.update_self ..) hb
      refine ⟨s', ?_, hrest⟩
      rw [mergeFrom, if_pos h]
      simp only [hnext, Option.bind_eq_bind, Option.bind_some, reduceCtorEq,
        if_false, toPage, hnext', hob, if_true, hdel]
      rw [hob] at hrun
      exact hrun
  | case3 i p L h xs hL hne ih =>
      obtain ⟨s₁, hstep, hrep, hp', ho'⟩ := mergeFrom_right hR h ho hp hL
      obtain ⟨s', hrun, hrest⟩ := ih hrep (by omega) ho' hp'
      exact ⟨s', hstep.trans hrun, hrest⟩
  | case4 i p L h b xs hL hne hne' =>
      obtain ⟨hnext, hob, a, hnext'⟩ := hR.head (Nat.le_of_lt h) hL
      refine ⟨s, ?_, hR, hp, ho⟩
      rw [mergeFrom, if_pos h]
      simp only [hnext, Option.bind_eq_bind, Option.bind_some, reduceCtorEq,
        if_false, toPage, hnext', hob, ho, if_neg hne, if_neg hne']
      rfl
  | case5 i p L h =>
      refine ⟨s, ?_, hR, hp, ho⟩
      rw [mergeFrom, if_neg h]
      rfl

theorem buddyFreePagesSub_rep (base order : Nat) {s : State} {L : Blocks}
    (hR : Rep s L) (ho : order ≤ MAX_ORDER) (hp : Fresh L base) :
    ∃ s', buddyFreePagesSub base order s = some s' ∧
      Rep s' (seqFreeSub base order L) := by
  obtain ⟨s₁, hmerge, hrep, hfresh, hord⟩ := mergeFrom_rep order base
    (hR.setOrder hp order) ho (Function.update_self ..) hp
  obtain ⟨m, hadd, hrep'⟩ :=
    hrep.push (seqMerge_pages order base L ho).2 hfresh hord
  refine ⟨_, ?_, hrep'⟩
  rw [buddyFreePagesSub]
  simp only [hmerge, Option.bind_eq_bind, Option.bind_some, hadd]
  rfl

theorem freeRun_rep (base n i : Nat) {s : State} {L : Blocks} (hR : Rep s L)
    (hn : n ≤ 2 ^ MAX_ORDER) (hnd : (freePages L + run base n).Nodup) :
    ∃ s', freeRun base n i s = some s' ∧ Rep s' (seqFreeRun base n i L) := by
  fun_induction seqFreeRun base n i L generalizing s with
  | case1 base i L =>
      refine ⟨s, ?_, hR⟩
      rw [freeRun, if_pos rfl]
  | case2 base n i L h ih =>
      have hpos := Nat.pos_of_ne_zero h
      have hle := (orderBelow_spec hpos i).1
      have ho := orderBelow_le_max hpos hn i
      have hbase := fresh_of_nodup hnd hpos
      obtain ⟨s₁, hrun, hrep⟩ := buddyFreePagesSub_rep base (orderBelow n i)
        (hR.setOrder hbase (orderBelow n i)) ho hbase
      have hnd' : (freePages (seqFreeSub base (orderBelow n i) L)
          + run (base + 2 ^ orderBelow n i) (n - 2 ^ orderBelow n i)).Nodup := by
        rw [seqFreeSub_pages _ _ _ ho, add_assoc, ← run_add]
        rwa [show 2 ^ orderBelow n i + (n - 2 ^ orderBelow n i) = n by omega]
      obtain ⟨s₂, hrun₂, hrep₂⟩ := ih hrep (Nat.le_trans (Nat.sub_le _ _) hn) hnd'
      refine ⟨s₂, ?_, hrep₂⟩
      rw [freeRun, if_neg h]
      simp only [hrun, Option.bind_eq_bind, Option.bind_some]
      exact hrun₂

theorem buddyFreePages_rep (base n : Nat) {s : State} {L : Blocks}
    (hR : Rep s L) (hn : n ≤ 2 ^ MAX_ORDER)
    (hnd : (freePages L + run base n).Nodup) :
    ∃ s', buddyFreePages base n s = some s' ∧ Rep s' (seqFree base n L) := by
  rw [buddyFreePages, seqFree]
  by_cases h : n = 1
  · rw [if_pos h, if_pos h]
    exact buddyFreePagesSub_rep base 0 hR (Nat.zero_le _)
      (fresh_of_nodup hnd (by omega))
  · rw [if_neg h, if_neg h]
    exact freeRun_rep base n (orderAbove n 0) hR hn hnd

theorem buddyAllocPages_rep (n : Nat) {s : State} {L : Blocks} (hR : Rep s L)
    (hnd : (freePages L).Nodup) :
    ∃ s', buddyAllocPages n s = some (s', (seqAlloc n L).2) ∧
      Rep s' (seqAlloc n L).1 := by
  rw [buddyAllocPages, seqAlloc]
  by_cases hn : n = 0
  · rw [if_pos hn, if_pos hn]
    exact ⟨s, rfl, hR⟩
  · rw [if_neg hn, if_neg hn]
    obtain ⟨s₁, hrun, hrep⟩ := allocFrom_rep (getorder n) (getorder n) hR hnd
    have hspec := seqAllocFrom_spec (getorder n) (getorder n) L (Nat.le_refl _)
    rcases hr : seqAllocFrom (getorder n) (getorder n) L with ⟨L', r⟩
    rw [hr] at hrun hrep hspec
    cases r with
    | none =>
        refine ⟨s₁, ?_, hrep⟩
        simp only [buddyAllocPagesSub, hrun, Option.bind_eq_bind, Option.bind_some]
        rfl
    | some p =>
        rcases hspec with ⟨h1, -, -⟩ | ⟨q, hq, hpages, j, hj1, hj2, -⟩
        · cases h1
        · obtain rfl : p = q := Option.some.inj hq
          have hpages : freePages L' + run p (2 ^ getorder n) = freePages L := hpages
          obtain ⟨hsize, hmax⟩ := getorder_bound (n := n) (by omega)
          simp only [buddyAllocPagesSub, hrun, Option.bind_eq_bind,
            Option.bind_some]
          by_cases hfull : n = 2 ^ getorder n
          · rw [if_neg (by simpa using hfull), if_neg (by simpa using hfull)]
            exact ⟨s₁, rfl, hrep⟩
          · rw [if_pos hfull, if_pos hfull]
            -- the tail of the block is still unowned when it is given back
            have hnd' : (freePages L' + run (p + n) (2 ^ getorder n - n)).Nodup := by
              rw [← hpages, show 2 ^ getorder n = n + (2 ^ getorder n - n) by omega,
                run_add, ← add_assoc, add_right_comm] at hnd
              exact (Multiset.nodup_add.mp hnd).1
            obtain ⟨s₂, hfree, hrep₂⟩ := buddyFreePages_rep (p + n)
              (2 ^ getorder n - n) hrep (by omega) hnd'
            refine ⟨s₂, ?_, hrep₂⟩
            rw [hfree]
            rfl

end SharixBuddy
