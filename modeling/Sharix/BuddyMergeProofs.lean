import Sharix.DyadicProofs
import Sharix.BuddyRunProofs

/-! # When freed blocks coalesce

    `buddy_free_pages_sub` compares the block it frees with the first block of
    the list of its order only, and joins any two neighbours, aligned or not.
    So a run of calls that ends with every page free need not give back the
    lists that `init_memmap` made: with the 8 pages from 0, allocating 5,
    freeing them and asking for 8 answers `NULL`.

    A call merges right when each piece it frees is aligned, meets its buddy
    at the head of the list when the buddy is free, and meets no other
    neighbour there.  Runs of such calls keep `Canon`: the blocks are aligned
    and no block lies free beside its free buddy.  There is one such way to
    hold all pages, up to the order in the lists, and so a run that frees
    everything allocates as it did after `init_memmap`. -/

namespace SharixBuddy

open SharixList SharixRun SharixDyadic

/-! ## The condition on a call -/

/-- `list_next(&free_list(i))` is the page `b`. -/
def FirstFree (s : State) (i b : Nat) : Prop :=
  (s.link (.freeList i)).next = .pageLink b

/-- Page `p` is linked into `free_list(i)`. -/
def OnFreeList (s : State) (i p : Nat) : Prop :=
  ∃ xs, Ring s.link (.freeList i) xs ∧ .pageLink p ∈ xs

/-- Freeing the block of order `i` at `p` joins it, order by order, with its
    buddy as long as that is free, and with nothing else. -/
inductive MergesRight (base : Nat) (s : State) : Nat → Nat → Prop where
  | top {i p : Nat} : MAX_ORDER ≤ i → MergesRight base s i p
  | merge {i p : Nat} : i < MAX_ORDER → FirstFree s i (buddyOf base i p) →
      MergesRight base s (i + 1) (min p (buddyOf base i p)) →
      MergesRight base s i p
  | stop {i p : Nat} : i < MAX_ORDER → ¬ OnFreeList s i (buddyOf base i p) →
      (∀ b, FirstFree s i b → p ≠ b + 2 ^ i ∧ p + 2 ^ i ≠ b) →
      MergesRight base s i p

/-- `buddy_free_pages_sub` on an aligned block that merges right. -/
def SubOk (base p i : Nat) (s : State) : Prop :=
  Aligned base i p ∧ MergesRight base s i p

/-- Every piece that `buddy_free_pages` carves off the run is such a block,
    in the state it is freed in. -/
def RunOk (base p n i : Nat) (s : State) : Prop :=
  if n = 0 then True
  else
    SubOk base p (orderBelow n i) s ∧
      ∀ s', buddyFreePagesSub p (orderBelow n i)
          { s with order := Function.update s.order p (orderBelow n i) } = some s' →
        RunOk base (p + 2 ^ orderBelow n i) (n - 2 ^ orderBelow n i)
          (orderBelow n i) s'
termination_by n
decreasing_by exact Nat.sub_lt (Nat.pos_of_ne_zero ‹_›) (Nat.two_pow_pos _)

def FreeOk (base p n : Nat) (s : State) : Prop :=
  if n = 1 then SubOk base p 0 s else RunOk base p n (orderAbove n 0) s

/-- The tail that `buddy_alloc_pages` cuts off its block and frees again. -/
def TrimOk (base n : Nat) (s : State) : Prop :=
  n ≠ 2 ^ getorder n → ∀ s' p,
    buddyAllocPagesSub (getorder n) s = some (s', some p) →
    FreeOk base (p + n) (2 ^ getorder n - n) s'

/-- A call whose frees all merge right. -/
inductive MergingCall (base : Nat) : World → World → Prop where
  | allocNull {w : World} {n : Nat} {s' : State} :
      buddyAllocPages n w.s = some (s', none) →
      MergingCall base w ⟨s', w.managed, w.allocated⟩
  | alloc {w : World} {n p : Nat} {s' : State} :
      buddyAllocPages n w.s = some (s', some p) → TrimOk base n w.s →
      MergingCall base w ⟨s', w.managed, w.allocated ∪ Finset.Ico p (p + n)⟩
  | free {w : World} {p n : Nat} {s' : State} :
      0 < n → n ≤ 2 ^ MAX_ORDER → Finset.Ico p (p + n) ⊆ w.allocated →
      buddyFreePages p n w.s = some s' → FreeOk base p n w.s →
      MergingCall base w ⟨s', w.managed, w.allocated \ Finset.Ico p (p + n)⟩

/-! ## Canonical lists -/

/-- The blocks are aligned, and no two free buddies lie side by side. -/
structure Canon (base : Nat) (L : Blocks) : Prop where
  aligned : ∀ i p, i ≤ MAX_ORDER → p ∈ L i → Aligned base i p
  apart : ∀ i p, i < MAX_ORDER → p ∈ L i → buddyOf base i p ∉ L i

theorem Canon.subset {base : Nat} {L L' : Blocks} (h : Canon base L)
    (hs : ∀ i p, p ∈ L' i → p ∈ L i) : Canon base L' where
  aligned := fun i p hi hp => h.aligned i p hi (hs i p hp)
  apart := fun i p hi hp hb => h.apart i p hi (hs i p hp) (hs i _ hb)

theorem mem_update_tail {L : Blocks} {i b : Nat} {xs : List Nat}
    (hL : L i = b :: xs) (j p : Nat) (hp : p ∈ Function.update L i xs j) :
    p ∈ L j := by
  by_cases hj : j = i
  · subst hj
    rw [Function.update_self] at hp
    rw [hL]
    exact List.mem_cons_of_mem _ hp
  · rwa [Function.update_of_ne hj] at hp

/-- A block whose buddy is not free can be put into its list. -/
theorem Canon.put {base : Nat} {L : Blocks} (h : Canon base L) {p i : Nat}
    (hal : Aligned base i p)
    (hb : i < MAX_ORDER → buddyOf base i p ∉ L i) : Canon base (put L p i) := by
  have hmem : ∀ j q, q ∈ SharixBuddy.put L p i j → (j = i ∧ q = p) ∨ q ∈ L j := by
    intro j q hq
    rw [SharixBuddy.put] at hq
    by_cases hj : j = i
    · subst hj
      rw [Function.update_self] at hq
      rcases List.mem_cons.mp hq with hq | hq
      · exact Or.inl ⟨rfl, hq⟩
      · exact Or.inr hq
    · rw [Function.update_of_ne hj] at hq
      exact Or.inr hq
  refine ⟨?_, ?_⟩
  · intro j q hj hq
    rcases hmem j q hq with ⟨rfl, rfl⟩ | hq
    · exact hal
    · exact h.aligned j q hj hq
  · intro j q hj hq hbq
    rcases hmem j q hq with ⟨rfl, rfl⟩ | hold
    · rcases hmem j _ hbq with ⟨-, heq⟩ | hbold
      · exact buddyOf_ne hal heq
      · exact hb hj hbold
    · rcases hmem j _ hbq with ⟨rfl, heq⟩ | hbold
      · refine hb hj ?_
        rw [← heq, buddyOf_buddyOf (h.aligned j q (Nat.le_of_lt hj) hold)]
        exact hold
      · exact h.apart j q hj hold hbold

/-! ## Each operation keeps the lists canonical -/

theorem Rep.firstFree_iff {s : State} {L : Blocks} (hR : Rep s L) {i b : Nat}
    (hi : i ≤ MAX_ORDER) : FirstFree s i b ↔ (L i).head? = some b := by
  have hr := hR.rings.ring i hi
  rw [FirstFree]
  cases hL : L i with
  | nil =>
      rw [hL] at hr
      rw [hr.next_nil]
      exact iff_of_false (by simp) (by simp)
  | cons c xs =>
      rw [hL] at hr
      rw [hr.next_cons, Addr.pageLink.injEq, List.head?_cons, Option.some.injEq]

theorem Rep.onFreeList_iff {s : State} {L : Blocks} (hR : Rep s L) {i p : Nat}
    (hi : i ≤ MAX_ORDER) : OnFreeList s i p ↔ p ∈ L i := by
  have hr := hR.rings.ring i hi
  constructor
  · rintro ⟨xs, hx, hp⟩
    rw [hx.unique hr] at hp
    obtain ⟨q, hq, heq⟩ := List.mem_map.mp hp
    exact Addr.pageLink.inj heq ▸ hq
  · intro hp
    exact ⟨_, hr, List.mem_map_of_mem hp⟩

/-- A block that merges right stops beside no free buddy.  The lists `L'` of
    the orders already passed may differ from those the walk began with. -/
theorem seqMerge_canon {base : Nat} {s : State} {L : Blocks} (hR : Rep s L)
    {i p : Nat} (hm : MergesRight base s i p) :
    ∀ L' : Blocks, (∀ j, i ≤ j → L' j = L j) → i ≤ MAX_ORDER →
      Canon base L' → Aligned base i p →
      Canon base (seqMerge i p L').2.2 ∧
      Aligned base (seqMerge i p L').1 (seqMerge i p L').2.1 ∧
      ((seqMerge i p L').1 < MAX_ORDER →
        buddyOf base (seqMerge i p L').1 (seqMerge i p L').2.1
          ∉ (seqMerge i p L').2.2 (seqMerge i p L').1) := by
  induction hm with
  | @top i p hi =>
      intro L' _ _ hc hal
      rw [seqMerge, if_neg (by omega)]
      exact ⟨hc, hal, fun h => absurd h (Nat.not_lt.mpr hi)⟩
  | @merge i p hi hfirst _ ih =>
      intro L' hL hle hc hal
      rw [hR.firstFree_iff hle, ← hL i (Nat.le_refl _)] at hfirst
      obtain ⟨xs, hxs⟩ : ∃ xs, L' i = buddyOf base i p :: xs :=
        ⟨_, List.eq_cons_of_mem_head? hfirst⟩
      have hc' := hc.subset (mem_update_tail hxs)
      have hL' : ∀ j, i + 1 ≤ j → Function.update L' i xs j = L j := by
        intro j hj
        rw [Function.update_of_ne (by omega)]
        exact hL j (by omega)
      have hpos := Nat.two_pow_pos i
      rw [seqMerge, if_pos hi, hxs]
      rcases hal.half with hlow | ⟨a, ha, rfl⟩
      · rw [buddyOf_lower hlow] at ih ⊢
        rw [Nat.min_eq_left (Nat.le_add_right _ _)] at ih
        dsimp only
        rw [if_neg (by omega), if_pos rfl]
        exact ih _ hL' hi hc' hlow
      · rw [buddyOf_upper ha] at ih ⊢
        rw [Nat.min_eq_right (Nat.le_add_right _ _)] at ih
        dsimp only
        rw [if_pos rfl]
        exact ih _ hL' hi hc' ha
  | @stop i p hi hfree hapart =>
      intro L' hL hle hc hal
      rw [hR.onFreeList_iff hle, ← hL i (Nat.le_refl _)] at hfree
      rw [seqMerge, if_pos hi]
      cases hxs : L' i with
      | nil =>
          dsimp only
          exact ⟨hc, hal, fun _ => hfree⟩
      | cons b xs =>
          obtain ⟨h1, h2⟩ := hapart b (by
            rw [hR.firstFree_iff hle, ← hL i (Nat.le_refl _), hxs]
            rfl)
          dsimp only
          rw [if_neg h1, if_neg h2]
          exact ⟨hc, hal, fun _ => hfree⟩

theorem seqFreeSub_canon {base p i : Nat} {s : State} {L : Blocks}
    (hR : Rep s L) (hi : i ≤ MAX_ORDER) (hc : Canon base L)
    (hok : SubOk base p i s) : Canon base (seqFreeSub p i L) := by
  obtain ⟨h1, h2, h3⟩ := seqMerge_canon hR hok.2 L (fun _ _ => rfl) hi hc hok.1
  exact h1.put h2 h3

theorem seqFreeRun_canon {base : Nat} (p n i : Nat) {s : State} {L : Blocks}
    (hR : Rep s L) (hn : n ≤ 2 ^ MAX_ORDER)
    (hnd : (freePages L + run p n).Nodup) (hc : Canon base L)
    (hok : RunOk base p n i s) : Canon base (seqFreeRun p n i L) := by
  fun_induction seqFreeRun p n i L generalizing s with
  | case1 => exact hc
  | case2 p n i L h ih =>
      rw [RunOk, if_neg h] at hok
      have hpos := Nat.pos_of_ne_zero h
      have hle := (orderBelow_spec hpos i).1
      have ho := orderBelow_le_max hpos hn i
      have hp := fresh_of_nodup hnd hpos
      obtain ⟨s₁, hrun, hrep⟩ := buddyFreePagesSub_rep p (orderBelow n i)
        (hR.setOrder hp (orderBelow n i)) ho hp
      have hnd' : (freePages (seqFreeSub p (orderBelow n i) L)
          + run (p + 2 ^ orderBelow n i) (n - 2 ^ orderBelow n i)).Nodup := by
        rw [seqFreeSub_pages _ _ _ ho, add_assoc, ← run_add]
        rwa [show 2 ^ orderBelow n i + (n - 2 ^ orderBelow n i) = n by omega]
      exact ih hrep (Nat.le_trans (Nat.sub_le _ _) hn) hnd'
        (seqFreeSub_canon hR ho hc hok.1) (hok.2 s₁ hrun)

theorem seqFree_canon {base p n : Nat} {s : State} {L : Blocks} (hR : Rep s L)
    (hn : n ≤ 2 ^ MAX_ORDER) (hnd : (freePages L + run p n).Nodup)
    (hc : Canon base L) (hok : FreeOk base p n s) :
    Canon base (seqFree p n L) := by
  rw [FreeOk] at hok
  rw [seqFree]
  by_cases h : n = 1
  · rw [if_pos h] at hok ⊢
    exact seqFreeSub_canon hR (Nat.zero_le _) hc hok
  · rw [if_neg h] at hok ⊢
    exact seqFreeRun_canon p n _ hR hn hnd hc hok

/-- Splitting gives away upper halves, whose buddy is the block kept. -/
theorem seqSplit_canon {base order page : Nat} :
    ∀ (i : Nat) {L : Blocks}, i ≤ MAX_ORDER → Canon base L →
      Aligned base i page → (freePages L + run page (2 ^ i)).Nodup →
      Canon base (seqSplit order page i L) := by
  intro i
  induction i with
  | zero =>
      intro L _ hc _ _
      exact hc
  | succ i ih =>
      intro L hi hc hal hnd
      rw [seqSplit]
      by_cases h : order < i + 1
      · rw [if_pos h]
        have hpage : page ∉ L i :=
          fresh_of_nodup hnd (Nat.two_pow_pos _) i (by omega)
        rw [run_succ_order, add_comm (run page _), ← add_assoc,
          ← freePages_put L _ (by omega)] at hnd
        refine ih (by omega) (hc.put ((hal.mono (Nat.le_succ i)).add (Nat.le_refl i)) ?_)
          (hal.mono (Nat.le_succ i)) hnd
        intro _
        rwa [buddyOf_upper hal]
      · rw [if_neg h]
        exact hc

theorem seqAllocFrom_canon {base : Nat} (order i : Nat) {L : Blocks}
    (hc : Canon base L) (hnd : (freePages L).Nodup) :
    Canon base (seqAllocFrom order i L).1 := by
  fun_induction seqAllocFrom order i L with
  | case1 i hi hnil ih => exact ih
  | case2 i hi p xs hL =>
      have hp : p ∈ L i := by rw [hL]; exact List.mem_cons_self ..
      refine seqSplit_canon i hi (hc.subset (mem_update_tail hL))
        (hc.aligned i p hi hp) ?_
      rwa [freePages_pop hi hL]
  | case3 i hi => exact hc

theorem seqAlloc_canon {base n : Nat} {s : State} {L : Blocks} (hR : Rep s L)
    (hnd : (freePages L).Nodup) (hc : Canon base L) (hok : TrimOk base n s) :
    Canon base (seqAlloc n L).1 := by
  rw [seqAlloc]
  by_cases hn : n = 0
  · rw [if_pos hn]
    exact hc
  · rw [if_neg hn]
    obtain ⟨s₁, hrun, hrep⟩ := allocFrom_rep (getorder n) (getorder n) hR hnd
    have hcan := seqAllocFrom_canon (getorder n) (getorder n) hc hnd
    have hspec := seqAllocFrom_spec (getorder n) (getorder n) L (Nat.le_refl _)
    rcases hr : seqAllocFrom (getorder n) (getorder n) L with ⟨L', r⟩
    rw [hr] at hrun hrep hcan hspec
    cases r with
    | none => exact hcan
    | some p =>
        rcases hspec with ⟨h1, -, -⟩ | ⟨q, hq, hpages, j, hj1, hj2, -⟩
        · cases h1
        · obtain rfl : p = q := Option.some.inj hq
          have hpages : freePages L' + run p (2 ^ getorder n) = freePages L := hpages
          by_cases hfull : n = 2 ^ getorder n
          · dsimp only
            rw [if_neg (by simpa using hfull)]
            exact hcan
          · dsimp only
            rw [if_pos hfull]
            obtain ⟨hsize, hmax⟩ := getorder_bound (n := n) (by omega)
            have hnd' : (freePages L' + run (p + n) (2 ^ getorder n - n)).Nodup := by
              rw [← hpages, show 2 ^ getorder n = n + (2 ^ getorder n - n) by omega,
                run_add, ← add_assoc, add_right_comm] at hnd
              exact (Multiset.nodup_add.mp hnd).1
            exact seqFree_canon hrep (by omega) hnd' hcan (hok hfull s₁ p hrun)

/-! ## The lists after `init_memmap` -/

/-- One order of the carving: below `MAX_ORDER` there is room for one block
    only, and its list is empty. -/
theorem seqInitBlocks_canon {base : Nat} (order p n : Nat) {L : Blocks}
    (hc : Canon base L) (hal : Aligned base order p)
    (hone : order < MAX_ORDER →
      n < 2 ^ (order + 1) ∧ (L order = [] ∨ n < 2 ^ order)) :
    Canon base (seqInitBlocks order p n L).2.2 ∧
    Aligned base order (seqInitBlocks order p n L).1 ∧
    ∀ j, j ≠ order → (seqInitBlocks order p n L).2.2 j = L j := by
  fun_induction seqInitBlocks order p n L with
  | case1 p n L h ih =>
      have hput : Canon base (put L p order) := by
        refine hc.put hal ?_
        intro hlt
        rcases (hone hlt).2 with hnil | hsmall
        · rw [hnil]
          exact List.not_mem_nil
        · exact absurd hsmall (Nat.not_lt.mpr h)
      obtain ⟨h1, h2, h3⟩ := ih hput (hal.add (Nat.le_refl _)) (by
        intro hlt
        have := (hone hlt).1
        rw [Nat.pow_succ] at this ⊢
        exact ⟨by omega, Or.inr (by omega)⟩)
      refine ⟨h1, h2, ?_⟩
      intro j hj
      rw [h3 j hj, put, Function.update_of_ne hj]
  | case2 p n L h => exact ⟨hc, hal, fun _ _ => rfl⟩

theorem seqInitOrders_canon {base : Nat} (order : Nat) :
    ∀ (p n : Nat) {L : Blocks}, order ≤ MAX_ORDER → Canon base L →
      Aligned base order p → (order < MAX_ORDER → n < 2 ^ (order + 1)) →
      (∀ j, j ≤ order → L j = []) → Canon base (seqInitOrders order p n L) := by
  induction order with
  | zero =>
      intro p n L _ hc hal hn hnil
      rw [seqInitOrders]
      by_cases h0 : n = 0
      · rw [if_pos h0]
        exact hc
      · rw [if_neg h0]
        exact (seqInitBlocks_canon 0 p n hc hal
          (fun hlt => ⟨hn hlt, Or.inl (hnil 0 (Nat.le_refl _))⟩)).1
  | succ order ih =>
      intro p n L ho hc hal hn hnil
      rw [seqInitOrders]
      by_cases h0 : n = 0
      · rw [if_pos h0]
        exact hc
      · rw [if_neg h0]
        obtain ⟨h1, h2, h3⟩ := seqInitBlocks_canon (order + 1) p n hc hal
          (fun hlt => ⟨hn hlt, Or.inl (hnil _ (Nat.le_refl _))⟩)
        refine ih _ _ (by omega) h1 (h2.mono (Nat.le_succ _)) ?_ ?_
        · intro _
          exact (seqInitBlocks_pages (order + 1) p n L ho).2
        · intro j hj
          rw [h3 j (by omega)]
          exact hnil j (by omega)

theorem seqInit_canon (base n : Nat) :
    Canon base (seqInit base n (fun _ => [])) :=
  seqInitOrders_canon MAX_ORDER base n (Nat.le_refl _)
    ⟨by simp, by simp⟩ (aligned_base _ _)
    (fun h => absurd h (Nat.lt_irrefl _)) (fun _ _ => rfl)

/-! ## What canonical lists can allocate -/

/-- `alloc_pages(n)` returns a page. -/
def Allocates (n : Nat) (s : State) : Prop :=
  ∃ s' p, buddyAllocPages n s = some (s', some p)

/-- When every page from `base` on is free, there is a block of order `i` or
    more exactly if there are `2^i` pages. -/
theorem Canon.block_iff {base n : Nat} {L : Blocks} (hc : Canon base L)
    (hfree : freePages L = run base n) {i : Nat} (hi : i ≤ MAX_ORDER) :
    (∃ j, i ≤ j ∧ j ≤ MAX_ORDER ∧ L j ≠ []) ↔ 2 ^ i ≤ n := by
  constructor
  · rintro ⟨j, hij, hj, hne⟩
    obtain ⟨p, hp⟩ := List.exists_mem_of_ne_nil _ hne
    have hpos := Nat.two_pow_pos j
    have hin : ∀ x, p ≤ x → x < p + 2 ^ j → base ≤ x ∧ x < base + n := by
      intro x h1 h2
      rw [← mem_run, ← hfree]
      exact mem_freePages.mpr ⟨j, hj, p, hp, mem_run.mpr ⟨h1, h2⟩⟩
    have hfirst := hin p (Nat.le_refl _) (by omega)
    have hlast := hin (p + (2 ^ j - 1)) (by omega) (by omega)
    have := Nat.pow_le_pow_right (n := 2) (by omega) hij
    omega
  · intro hn
    obtain ⟨j, p, hij, ⟨hj, hp⟩, -⟩ :=
      covered_by_one (B := fun j p => j ≤ MAX_ORDER ∧ p ∈ L j)
        (fun j p h => hc.aligned j p h.1 h.2)
        (fun j p hj h hb => hc.apart j p hj h.2 hb.2) i base hi
        (aligned_base base i) (by
          intro x h1 h2
          have hx : x ∈ freePages L := by
            rw [hfree]
            exact mem_run.mpr ⟨h1, by omega⟩
          obtain ⟨j, hj, p, hp, hxp⟩ := mem_freePages.mp hx
          exact ⟨j, p, ⟨hj, hp⟩, mem_run.mp hxp⟩)
    exact ⟨j, hij, hj, List.ne_nil_of_mem hp⟩

/-- What canonical lists that hold all pages allocate depends on their number
    only. -/
theorem Canon.allocates_iff {base n m : Nat} {s : State} {L : Blocks}
    (hc : Canon base L) (hR : Rep s L) (hfree : freePages L = run base n) :
    Allocates m s ↔
      0 < m ∧ m ≤ 2 ^ MAX_ORDER ∧
        ∃ i, i ≤ MAX_ORDER ∧ m ≤ 2 ^ i ∧ 2 ^ i ≤ n := by
  have hnd : (freePages L).Nodup := by
    rw [hfree]
    exact run_nodup base n
  obtain ⟨s', hrun, -⟩ := buddyAllocPages_rep m hR hnd
  rcases seqAlloc_spec m L with ⟨h1, -, h3⟩ | ⟨p, h1, -, hpos, hle, i, hi, hmi, hne⟩
  · rw [h1] at hrun
    refine iff_of_false ?_ ?_
    · rintro ⟨s₁, p, hp⟩
      cases hrun.symm.trans hp
    · rintro ⟨hpos, hle, i, hi, hmi, hin⟩
      obtain ⟨j, hij, hj, hne⟩ := (hc.block_iff hfree hi).mpr hin
      have := Nat.pow_le_pow_right (n := 2) (by omega) hij
      rcases h3 with h3 | h3 | h3
      · omega
      · omega
      · exact hne (h3 j hj (by omega))
  · rw [h1] at hrun
    exact iff_of_true ⟨s', p, hrun⟩
      ⟨hpos, hle, i, hi, hmi, (hc.block_iff hfree hi).mp ⟨i, Nat.le_refl _, hi, hne⟩⟩

/-! ## Runs -/

theorem MergingCall.call {base : Nat} {w w' : World} (h : MergingCall base w w') :
    Call w w' := by
  cases h with
  | allocNull hrun => exact Call.allocNull hrun
  | alloc hrun _ => exact Call.alloc hrun
  | free h0 hn hs hrun _ => exact Call.free h0 hn hs hrun

/-- Canonical lists on the pages from `base`. -/
def CanonInv (base n : Nat) (w : World) : Prop :=
  w.managed = Finset.Ico base (base + n) ∧ ∃ L, Inv w L ∧ Canon base L

theorem mergingCall_canon {base n : Nat} {w w' : World}
    (h : CanonInv base n w) (hcall : MergingCall base w w') :
    CanonInv base n w' := by
  obtain ⟨hman, L, hinv, hc⟩ := h
  refine ⟨(call_inv hinv hcall.call).2.trans hman, ?_⟩
  have hnd := (Multiset.nodup_add.mp hinv.nodup).1
  cases hcall with
  | @allocNull m s' hrun =>
      obtain ⟨s₁, hrun₁, hres⟩ := alloc_inv hinv m
      rw [hrun] at hrun₁
      obtain ⟨rfl, hnone⟩ := Prod.mk.inj (Option.some.inj hrun₁)
      rcases hres with ⟨-, hinv'⟩ | ⟨p, hp, -⟩
      · refine ⟨_, hinv', ?_⟩
        rcases seqAlloc_spec m L with ⟨-, h2, -⟩ | ⟨q, h1, -⟩
        · rw [h2]
          exact hc
        · cases hnone.trans h1
      · cases hnone.trans hp
  | @alloc m p s' hrun hok =>
      obtain ⟨s₁, hrun₁, hres⟩ := alloc_inv hinv m
      rw [hrun] at hrun₁
      obtain ⟨rfl, hsome⟩ := Prod.mk.inj (Option.some.inj hrun₁)
      rcases hres with ⟨hnone, -⟩ | ⟨q, hq, hinv'⟩
      · cases hsome.trans hnone
      · obtain rfl : p = q := Option.some.inj (hsome.trans hq)
        exact ⟨_, hinv', seqAlloc_canon hinv.1 hnd hc hok⟩
  | @free p m s' _ hm hs hrun hok =>
      obtain ⟨s₁, hrun₁, hinv'⟩ := free_inv hinv hm hs
      rw [hrun] at hrun₁
      cases hrun₁
      refine ⟨_, hinv', seqFree_canon hinv.1 hm ?_ hc hok⟩
      have hall := hinv.nodup
      rw [← val_sdiff_Ico hs, ← add_assoc, add_right_comm] at hall
      exact (Multiset.nodup_add.mp hall).1

/-- After `init_memmap` on empty lists they are canonical. -/
theorem initMemmap_canon {s s₁ : State} (hs : FreeAreaEmpty s) {base n : Nat}
    (hinit : buddyInitMemmap base n s = some s₁) :
    CanonInv base n ⟨s₁, Finset.Ico base (base + n), ∅⟩ := by
  have hd : Disjoint ∅ (Finset.Ico base (base + n)) := Finset.disjoint_empty_left _
  obtain ⟨s', hrun, hinv⟩ := initMemmap_inv (inv_of_empty hs) hd
  rw [hinit] at hrun
  cases hrun
  rw [Finset.empty_union] at hinv
  exact ⟨rfl, _, hinv, seqInit_canon base n⟩

/-- Allocation is restored by every run that frees all `n` pages from
    `base`. -/
def AlwaysRestores (base n : Nat) : Prop :=
  ∀ s s₁ w, FreeAreaEmpty s → buddyInitMemmap base n s = some s₁ →
    Relation.ReflTransGen Call ⟨s₁, Finset.Ico base (base + n), ∅⟩ w →
    w.allocated = ∅ → ∀ m, Allocates m w.s ↔ Allocates m s₁

/-- Five pages of eight are allocated and freed; 8 pages are asked for before
    and after. -/
def fiveFreed : Option (Option Nat × Option Nat × Option Nat) := do
  let s₁ ← buddyInitMemmap 0 8 emptyArea
  let five ← buddyAllocPages 5 s₁
  let s₃ ← buddyFreePages 0 5 five.1
  let before ← buddyAllocPages 8 s₁
  let after ← buddyAllocPages 8 s₃
  return (five.2, before.2, after.2)

/-- The tail of the block of 8 was freed as the unaligned pair at 5 and the
    single page 7, and the 8 pages never come together again. -/
theorem not_alwaysRestores : ¬ AlwaysRestores 0 8 := by
  intro hall
  have heval : fiveFreed = some (some 0, some 0, none) := by decide +kernel
  simp only [fiveFreed, Option.bind_eq_bind, Option.bind_eq_some_iff] at heval
  obtain ⟨s₁, hinit, ⟨s₂, r⟩, halloc, s₃, hfree, ⟨s₄, before⟩, hbefore,
    ⟨s₅, after⟩, hafter, hres⟩ := heval
  obtain ⟨rfl, rfl, rfl⟩ : r = some 0 ∧ before = some 0 ∧ after = none := by
    simpa using hres
  have hrun : Relation.ReflTransGen Call ⟨s₁, Finset.Ico 0 (0 + 8), ∅⟩
      ⟨s₃, Finset.Ico 0 (0 + 8), (∅ ∪ Finset.Ico 0 (0 + 5)) \ Finset.Ico 0 (0 + 5)⟩ :=
    (Relation.ReflTransGen.single (Call.alloc halloc)).tail
      (Call.free (by decide) (by decide) Finset.subset_union_right hfree)
  obtain ⟨s₆, p, hp⟩ := (hall emptyArea s₁ _ emptyArea_empty hinit hrun (by simp)
    8).mpr ⟨s₄, 0, hbefore⟩
  cases hafter.symm.trans hp

/-- **RUNS THAT MERGE RIGHT DO NOT FRAGMENT**: once such a run has freed every
    page, `alloc_pages` succeeds for the sizes it did after `init_memmap`. -/
theorem merging_run_restores {s s₁ : State} {base n : Nat} {w : World}
    (hs : FreeAreaEmpty s) (hinit : buddyInitMemmap base n s = some s₁)
    (hrun : Relation.ReflTransGen (MergingCall base)
      ⟨s₁, Finset.Ico base (base + n), ∅⟩ w)
    (hfree : w.allocated = ∅) (m : Nat) :
    Allocates m w.s ↔ Allocates m s₁ := by
  -- every state with nothing allocated has the same canonical lists
  have hall : ∀ v : World, CanonInv base n v → v.allocated = ∅ →
      (Allocates m v.s ↔ 0 < m ∧ m ≤ 2 ^ MAX_ORDER ∧
        ∃ i, i ≤ MAX_ORDER ∧ m ≤ 2 ^ i ∧ 2 ^ i ≤ n) := by
    rintro v ⟨hman, L, hinv, hc⟩ hv
    refine hc.allocates_iff hinv.1 ?_
    rw [run_eq_Ico, ← hman, ← hinv.2, hv, Finset.empty_val, add_zero]
  have hstart := initMemmap_canon hs hinit
  have hend := run_invariant (I := CanonInv base n)
    (fun _ _ h hstep => mergingCall_canon h hstep) hrun hstart
  exact (hall w hend hfree).trans (hall _ hstart rfl).symm

/-- One page of two is allocated and freed; the heads of the lists of order 0
    and 1 are read in between. -/
def oneFreed : Option (Option Nat × Addr × Addr) := do
  let s₁ ← buddyInitMemmap 0 2 emptyArea
  let one ← buddyAllocPages 1 s₁
  let _ ← buddyFreePages 0 1 one.1
  return (one.2, (one.1.link (.freeList 0)).next, (one.1.link (.freeList 1)).next)

/-- Page 0 of two is allocated and freed, and joins page 1 again. -/
theorem merging_run_restores_two :
    ∃ s₁ s₃, buddyInitMemmap 0 2 emptyArea = some s₁ ∧
      ∀ m, Allocates m s₃ ↔ Allocates m s₁ := by
  have heval : oneFreed = some (some 0, .pageLink 1, .freeList 1) := by
    decide +kernel
  simp only [oneFreed, Option.bind_eq_bind, Option.bind_eq_some_iff] at heval
  obtain ⟨s₁, hinit, ⟨s₂, r⟩, halloc, s₃, hfree, hres⟩ := heval
  obtain ⟨rfl, hzero, hone⟩ : r = some 0 ∧
      (s₂.link (.freeList 0)).next = .pageLink 1 ∧
      (s₂.link (.freeList 1)).next = .freeList 1 := by simpa using hres
  have hmerge : MergesRight 0 s₂ 0 0 := by
    refine MergesRight.merge (by decide) hzero (MergesRight.stop (by decide) ?_ ?_)
    · rintro ⟨xs, hring, hmem⟩
      cases xs with
      | nil => cases hmem
      | cons x xs =>
          have hx : x = .freeList 1 := hring.next_cons.symm.trans hone
          exact (List.nodup_cons.mp hring.nodup).1 (hx ▸ List.mem_cons_self ..)
    · intro b hb
      cases hone.symm.trans hb
  have hok : FreeOk 0 0 1 s₂ := by
    rw [FreeOk, if_pos rfl]
    exact ⟨aligned_base 0 0, hmerge⟩
  have hrun : Relation.ReflTransGen (MergingCall 0) ⟨s₁, Finset.Ico 0 (0 + 2), ∅⟩
      ⟨s₃, Finset.Ico 0 (0 + 2), (∅ ∪ Finset.Ico 0 (0 + 1)) \ Finset.Ico 0 (0 + 1)⟩ :=
    (Relation.ReflTransGen.single (MergingCall.alloc halloc
      (fun h => absurd (by decide +kernel) h))).tail
      (MergingCall.free (by decide) (by decide) Finset.subset_union_right hfree hok)
  exact ⟨s₁, s₃, hinit, merging_run_restores emptyArea_empty hinit hrun (by simp)⟩

end SharixBuddy
