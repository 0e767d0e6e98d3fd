import Sharix.BuddyRunProofs

/-! # `free_pages` right after `alloc_pages`

    To take a block of order `k` out of one of order `j`, `alloc_pages` puts
    the upper halves on the empty lists between the two.  Each is then alone
    on its list, so `free_pages` finds it first and joins it again, up to `j`.
    There it meets the block that was second before: the lists are as they
    were exactly if that one does not adjoin. -/

namespace SharixBuddy

open SharixList

/-! ## Splitting and joining -/

/-- The blocks of order `i` at `p` and `b` touch. -/
def Adjacent (i p b : Nat) : Prop := p = b + 2 ^ i ∨ p + 2 ^ i = b

theorem seqSplit_self (j p : Nat) (L : Blocks) : seqSplit j p j L = L := by
  cases j with
  | zero => rfl
  | succ j => rw [seqSplit, if_neg (Nat.lt_irrefl _)]

/-- The last piece that a split puts back is the upper half of the block of
    order `i + 1`. -/
theorem seqSplit_last {i p : Nat} : ∀ {j : Nat} {L : Blocks}, i < j →
    seqSplit i p j L = put (seqSplit (i + 1) p j L) (p + 2 ^ i) i := by
  intro j
  induction j with
  | zero => exact fun h => absurd h (Nat.not_lt_zero _)
  | succ j ih =>
      intro L h
      rw [seqSplit, if_pos h]
      rcases Nat.lt_succ_iff_lt_or_eq.mp h with hlt | rfl
      · rw [ih hlt, seqSplit, if_pos (Nat.succ_lt_succ hlt)]
      · rw [seqSplit_self, seqSplit_self]

/-- The pieces of a block are joined again from order `i` to `j`. -/
theorem mergeFrom_split {p j : Nat} {L : Blocks} (hj : j ≤ MAX_ORDER) :
    ∀ {n i : Nat} {s : State}, i + n = j → Rep s (seqSplit i p j L) →
      s.order p = i → Fresh (seqSplit i p j L) p →
      ∃ s', mergeFrom i p s = mergeFrom j p s' ∧ Rep s' L ∧ Fresh L p ∧
        s'.order p = j := by
  intro n
  induction n with
  | zero =>
      intro i s hij hR ho hp
      obtain rfl : i = j := hij
      rw [seqSplit_self] at hR hp
      exact ⟨s, rfl, hR, hp, ho⟩
  | succ n ih =>
      intro i s hij hR ho hp
      have hlt : i < j := by omega
      -- the upper half was put back last, so it heads its list
      rw [seqSplit_last hlt] at hR hp
      obtain ⟨s₁, hstep, hR₁, hp₁, ho₁⟩ := mergeFrom_right hR (by omega) ho hp
        (Function.update_self ..)
      rw [put, Function.update_idem, Function.update_eq_self] at hR₁ hp₁
      obtain ⟨s', hrun, hrest⟩ := ih (by omega) hR₁ ho₁ hp₁
      exact ⟨s', hstep.trans hrun, hrest⟩

/-! ## The calls -/

theorem getorder_pow {k : Nat} (hk : k ≤ MAX_ORDER) : getorder (2 ^ k) = k := by
  obtain ⟨-, h2, h3⟩ := getorder_spec (Nat.pow_le_pow_right Nat.zero_lt_two hk)
  have hle : k ≤ getorder (2 ^ k) := (Nat.pow_le_pow_iff_right Nat.one_lt_two).mp h2
  rcases Nat.eq_or_lt_of_le hle with he | hlt
  · exact he.symm
  · exact absurd (h3 k hlt) (Nat.lt_irrefl _)

theorem orderAbove_pow (k : Nat) : orderAbove (2 ^ k) 0 = k + 1 := by
  obtain ⟨h1, h2⟩ := orderAbove_spec (2 ^ k) 0 (fun j hj => absurd hj (Nat.not_lt_zero j))
  have hlt : k < orderAbove (2 ^ k) 0 := (Nat.pow_lt_pow_iff_right Nat.one_lt_two).mp h1
  rcases Nat.eq_or_lt_of_le hlt with he | hgt
  · exact he.symm
  · exact absurd ((Nat.pow_le_pow_iff_right Nat.one_lt_two).mp (h2 _ hgt))
      (Nat.not_succ_le_self k)

theorem orderBelow_pow (k : Nat) : orderBelow (2 ^ k) (k + 1) = k := by
  rw [orderBelow, if_pos (Nat.pow_lt_pow_right Nat.one_lt_two (Nat.lt_succ_self k))]
  cases k with
  | zero => rfl
  | succ k => rw [orderBelow, if_neg (Nat.lt_irrefl _)]

/-- The order that `buddy_free_pages` has set is set again. -/
theorem buddyFreePagesSub_setOrder (p k : Nat) (s : State) :
    buddyFreePagesSub p k { s with order := Function.update s.order p k }
      = buddyFreePagesSub p k s := by
  rw [buddyFreePagesSub, buddyFreePagesSub]
  simp only [Function.update_idem]

/-- The run of a whole block is freed in one piece. -/
theorem buddyFreePages_pow (p k : Nat) (s : State) :
    buddyFreePages p (2 ^ k) s = buddyFreePagesSub p k s := by
  rw [buddyFreePages]
  by_cases h : 2 ^ k = 1
  · obtain rfl : k = 0 := (Nat.pow_eq_one.mp h).resolve_left (by decide)
    exact if_pos rfl
  · rw [if_neg h, orderAbove_pow, freeRun,
      if_neg (Nat.ne_of_gt (Nat.two_pow_pos k)), orderBelow_pow]
    dsimp only
    rw [buddyFreePagesSub_setOrder, Nat.sub_self]
    cases buddyFreePagesSub p k s with
    | none => rfl
    | some s' =>
        show freeRun (p + 2 ^ k) 0 k s' = some s'
        rw [freeRun, if_pos rfl]

/-- The block that an allocation cuts. -/
theorem seqAllocFrom_taken {k i p : Nat} {L L' : Blocks}
    (h : seqAllocFrom k i L = (L', some p)) :
    ∃ j xs, i ≤ j ∧ j ≤ MAX_ORDER ∧ L j = p :: xs ∧
      (∀ n, i ≤ n → n < j → L n = []) ∧
      L' = seqSplit k p j (Function.update L j xs) := by
  fun_induction seqAllocFrom k i L with
  | case1 i hi hnil ih =>
      obtain ⟨j, xs, h1, h2, h3, h4, h5⟩ := ih h
      refine ⟨j, xs, Nat.le_of_succ_le h1, h2, h3, fun n hn hnj => ?_, h5⟩
      rcases Nat.eq_or_lt_of_le hn with rfl | hlt
      · exact hnil
      · exact h4 n hlt hnj
  | case2 i hi q xs hL =>
      obtain ⟨h1, h2⟩ := Prod.mk.inj h
      obtain rfl := Option.some.inj h2
      exact ⟨i, xs, Nat.le_refl _, hi, hL, fun n hn hnj => by omega, h1.symm⟩
  | case3 i hi => cases h

/-- Merging goes up, and leaves the lists below alone. -/
theorem seqMerge_above (i p : Nat) (L : Blocks) :
    i ≤ (seqMerge i p L).1 ∧ ∀ n, n < i → (seqMerge i p L).2.2 n = L n := by
  fun_induction seqMerge i p L with
  | case1 => exact ⟨Nat.le_refl _, fun _ _ => rfl⟩
  | case2 i L h b xs hL ih =>
      refine ⟨Nat.le_of_succ_le ih.1, fun n hn => ?_⟩
      rw [ih.2 n (Nat.lt_succ_of_lt hn), Function.update_of_ne (Nat.ne_of_lt hn)]
  | case3 i p L h xs hL hne ih =>
      refine ⟨Nat.le_of_succ_le ih.1, fun n hn => ?_⟩
      rw [ih.2 n (Nat.lt_succ_of_lt hn), Function.update_of_ne (Nat.ne_of_lt hn)]
  | case4 => exact ⟨Nat.le_refl _, fun _ _ => rfl⟩
  | case5 => exact ⟨Nat.le_refl _, fun _ _ => rfl⟩

/-- A block that no neighbour heads the list of stays as it is. -/
theorem seqMerge_stop {j p : Nat} {L : Blocks}
    (h : j = MAX_ORDER ∨ ∀ b, (L j).head? = some b → ¬ Adjacent j p b) :
    seqMerge j p L = (j, p, L) := by
  rw [seqMerge]
  by_cases hj : j < MAX_ORDER
  · rw [if_pos hj]
    have hhead := h.resolve_left (Nat.ne_of_lt hj)
    cases hL : L j with
    | nil => rfl
    | cons b xs =>
        rw [hL] at hhead
        obtain ⟨h1, h2⟩ := not_or.mp (hhead b rfl)
        dsimp only
        rw [if_neg h1, if_neg h2]
  · rw [if_neg hj]

/-- A block whose neighbour heads the list is merged up. -/
theorem seqMerge_up {j p b : Nat} {L : Blocks} (hj : j < MAX_ORDER)
    (hb : (L j).head? = some b) (h : Adjacent j p b) :
    j < (seqMerge j p L).1 := by
  obtain ⟨xs, hL⟩ := List.head?_eq_some_iff.mp hb
  rw [seqMerge, if_pos hj, hL]
  dsimp only
  by_cases hlow : p = b + 2 ^ j
  · rw [if_pos hlow]
    exact (seqMerge_above _ _ _).1
  · rw [if_neg hlow, if_pos (h.resolve_left hlow)]
    exact (seqMerge_above _ _ _).1

/-- A block of order `k` that was just taken, freed: the pieces of the block it
    was cut from are joined, and what was rebuilt is merged on from there. -/
theorem free_after_alloc {s s₁ : State} {L : Blocks} {k p : Nat} (hR : Rep s L)
    (hnd : (freePages L).Nodup) (hk : k ≤ MAX_ORDER)
    (halloc : buddyAllocPages (2 ^ k) s = some (s₁, some p)) :
    ∃ j xs, k ≤ j ∧ j ≤ MAX_ORDER ∧ L j = p :: xs ∧
      (∀ n, k ≤ n → n < j → L n = []) ∧
      ∃ sj s₂ sm, mergeFrom k p { s₁ with order := Function.update s₁.order p k }
          = mergeFrom j p sj ∧
        sj.order p = j ∧ Rep sj (Function.update L j xs) ∧
        mergeFrom j p sj = some ((seqMerge j p (Function.update L j xs)).1,
          (seqMerge j p (Function.update L j xs)).2.1, sm) ∧
        buddyFreePages p (2 ^ k) s₁ = some s₂ ∧
        Rep s₂ (seqFreeSub p j (Function.update L j xs)) := by
  obtain ⟨s₁', hrun, hR₁⟩ := buddyAllocPages_rep (2 ^ k) hR hnd
  obtain ⟨rfl, hp⟩ := Prod.mk.inj (Option.some.inj (halloc.symm.trans hrun))
  have hpos := Nat.two_pow_pos k
  -- the allocation takes a whole block and has no tail to give back
  have hseq : seqAlloc (2 ^ k) L = seqAllocFrom k k L := by
    rw [seqAlloc, if_neg (Nat.ne_of_gt hpos), getorder_pow hk]
    rcases seqAllocFrom k k L with ⟨L', _ | q⟩
    · rfl
    · exact if_neg (not_not.mpr rfl)
  rcases seqAlloc_spec (2 ^ k) L with ⟨hnone, -⟩ | ⟨q, hq, hpages, -⟩
  · rw [hnone] at hp
    cases hp
  obtain rfl : q = p := Option.some.inj (hq.symm.trans hp.symm)
  rw [hseq] at hR₁ hp hpages
  obtain ⟨L₁, hL₁⟩ : ∃ L₁, seqAllocFrom k k L = (L₁, some q) := ⟨_, Prod.ext rfl hp.symm⟩
  rw [hL₁] at hR₁ hpages
  obtain ⟨j, xs, hkj, hj, hL, hempty, rfl⟩ := seqAllocFrom_taken hL₁
  rw [← hpages] at hnd
  have hfresh := fresh_of_nodup hnd hpos
  -- first up to `j`, through the pieces, then on from there
  have hset := hR₁.setOrder hfresh k
  obtain ⟨sj, hmerge, hRj, hfj, hoj⟩ := mergeFrom_split hj (Nat.add_sub_cancel' hkj)
    hset (Function.update_self ..) hfresh
  obtain ⟨sm, hup, hRm, hfm, hom⟩ := mergeFrom_rep j q hRj hj hoj hfj
  obtain ⟨m, hadd, hR₂⟩ := hRm.push (seqMerge_pages j q _ hj).2 hfm hom
  refine ⟨j, xs, hkj, hj, hL, hempty, sj, _, sm, hmerge, hoj, hRj, hup, ?_, hR₂⟩
  rw [buddyFreePages_pow, buddyFreePagesSub]
  simp only [hmerge, hup, Option.bind_eq_bind, Option.bind_some, hadd]
  rfl

/-- **FREE UNDOES ALLOC**: the block that `alloc_pages(2^k)` cut from one of
    order `j` is rebuilt by an immediate `free_pages`.  At the largest order,
    or if the next block of order `j` does not adjoin it, all lists and counts
    are as before; else it is merged up, and the lists below `j` are as
    before. -/
theorem alloc_free_restores {s s₁ : State} {L : Blocks} {k p : Nat}
    (hR : Rep s L) (hnd : (freePages L).Nodup) (hk : k ≤ MAX_ORDER)
    (halloc : buddyAllocPages (2 ^ k) s = some (s₁, some p)) :
    ∃ j xs, k ≤ j ∧ j ≤ MAX_ORDER ∧ L j = p :: xs ∧
      (∀ n, k ≤ n → n < j → L n = []) ∧
      ∃ sj s₂, mergeFrom k p { s₁ with order := Function.update s₁.order p k }
          = mergeFrom j p sj ∧
        sj.order p = j ∧ Rep sj (Function.update L j xs) ∧
        buddyFreePages p (2 ^ k) s₁ = some s₂ ∧
        ((j = MAX_ORDER ∨ ∀ b, xs.head? = some b → ¬ Adjacent j p b) →
          Rep s₂ L) ∧
        (¬ (j = MAX_ORDER ∨ ∀ b, xs.head? = some b → ¬ Adjacent j p b) →
          (∃ i q sm, mergeFrom j p sj = some (i, q, sm) ∧ j < i) ∧
          Rep s₂ (seqFreeSub p j (Function.update L j xs)) ∧
          ∀ n, n < j → seqFreeSub p j (Function.update L j xs) n = L n) := by
  obtain ⟨j, xs, hkj, hj, hL, hempty, sj, s₂, sm, hmerge, hoj, hRj, hup, hfree,
    hR₂⟩ := free_after_alloc hR hnd hk halloc
  have hlist : Function.update L j xs j = xs := Function.update_self ..
  refine ⟨j, xs, hkj, hj, hL, hempty, sj, s₂, hmerge, hoj, hRj, hfree,
    fun hstop => ?_, fun hgo => ⟨?_, hR₂, fun n hn => ?_⟩⟩
  · have heq : seqFreeSub p j (Function.update L j xs) = L := by
      -- the block goes back to the head of its list, where it was
      rw [seqFreeSub, seqMerge_stop (by rwa [hlist])]
      dsimp only
      rw [put, Function.update_idem, hlist, ← hL, Function.update_eq_self]
    rwa [heq] at hR₂
  · obtain ⟨hne, hb⟩ := not_or.mp hgo
    obtain ⟨b, hb⟩ := not_forall.mp hb
    obtain ⟨hhead, hadj⟩ := Classical.not_imp.mp hb
    exact ⟨_, _, sm, hup, seqMerge_up (Nat.lt_of_le_of_ne hj hne)
      (hlist.symm ▸ hhead) (not_not.mp hadj)⟩
  · obtain ⟨h1, h2⟩ := seqMerge_above j p (Function.update L j xs)
    show put _ _ _ n = L n
    rw [put, Function.update_of_ne (by omega), h2 n hn,
      Function.update_of_ne (Nat.ne_of_lt hn)]

/-- The page that `alloc_pages(2)` answers on the 8 pages from 0. -/
def twoOfEight : Option (Option Nat) := do
  let s ← buddyInitMemmap 0 8 emptyArea
  let r ← buddyAllocPages (2 ^ 1) s
  return r.2

/-- Two pages of eight: the block of 8 is cut twice and rebuilt. -/
theorem alloc_free_restores_two :
    ∃ s s₁ s₂ L j, buddyInitMemmap 0 8 emptyArea = some s ∧ Rep s L ∧
      buddyAllocPages (2 ^ 1) s = some (s₁, some 0) ∧
      buddyFreePages 0 (2 ^ 1) s₁ = some s₂ ∧ 0 ∈ L j ∧
      (L j = [0] → Rep s₂ L) := by
  have heval : twoOfEight = some (some 0) := by decide +kernel
  simp only [twoOfEight, Option.bind_eq_bind, Option.bind_eq_some_iff] at heval
  obtain ⟨s, hinit, ⟨s₁, r⟩, halloc, hr⟩ := heval
  obtain rfl : r = some 0 := Option.some.inj hr
  have hd : Disjoint (∅ : Finset Nat) (Finset.Ico 0 (0 + 8)) :=
    Finset.disjoint_empty_left _
  obtain ⟨s', hrun, hinv⟩ := initMemmap_inv (inv_of_empty emptyArea_empty) hd
  obtain rfl : s = s' := Option.some.inj (hinit.symm.trans hrun)
  have hnd := (Multiset.nodup_add.mp hinv.nodup).1
  obtain ⟨j, xs, -, -, hL, -, sj, s₂, -, -, -, hfree, hstop, -⟩ :=
    alloc_free_restores hinv.1 hnd (by decide) halloc
  refine ⟨s, s₁, s₂, _, j, hinit, hinv.1, halloc, hfree, ?_, fun hj => hstop (.inr ?_)⟩
  · rw [hL]
    exact List.mem_cons_self
  · rw [hL] at hj
    obtain rfl := (List.cons.inj hj).2
    exact fun b hb => by cases hb

end SharixBuddy
