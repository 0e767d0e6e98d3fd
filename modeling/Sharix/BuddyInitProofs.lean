import Sharix.BuddyRunProofs

/-! # Where `buddy_init` stops short

    `free_area` has `MAX_ORDER + 1` lists and `buddy_init` initialises the
    first `MAX_ORDER`.  The last head keeps the two `NULL`s of the zeroed
    static area, no later call repairs it, and the calls that reach it
    dereference `NULL`. -/

namespace SharixBuddy

open SharixList SharixRun

/-- The head of `free_list(MAX_ORDER)` still holds its two `NULL`s, and the
    links that the other heads lead to never come back to it. -/
def TopUninit (m : LinkMem Addr) : Prop :=
  m (.freeList MAX_ORDER) = ⟨.null, .null⟩ ∧
  ∃ S : Set Addr, (∀ i, i < MAX_ORDER → .freeList i ∈ S) ∧
    .freeList MAX_ORDER ∉ S ∧ ∀ a ∈ S, (m a).next ∈ S ∧ (m a).prev ∈ S

/-- Adding to the uninitialised list faults; adding to another keeps away from
    its head. -/
theorem listAdd_topUninit {m m' : LinkMem Addr} {i p : Nat} (h : TopUninit m)
    (hi : i ≤ MAX_ORDER)
    (hrun : listAdd m (.freeList i) (.pageLink p) = some m') : TopUninit m' := by
  obtain ⟨htop, S, hheads, hnot, hclosed⟩ := h
  rw [listAdd, listAddAfter_eq] at hrun
  split at hrun
  · cases hrun
  · rename_i hnull
    obtain rfl := Option.some.inj hrun
    have hlt : i < MAX_ORDER := by
      refine Nat.lt_of_le_of_ne hi ?_
      rintro rfl
      exact hnull (Or.inr (Or.inl (by rw [htop]; rfl)))
    have hx := (hclosed _ (hheads i hlt)).1
    have hpage : Addr.pageLink p ∈ S ∪ {Addr.pageLink p} := Or.inr rfl
    have hhead : Addr.freeList i ∈ S ∪ {Addr.pageLink p} := Or.inl (hheads i hlt)
    refine ⟨?_, S ∪ {.pageLink p}, fun j hj => Or.inl (hheads j hj), ?_, ?_⟩
    · have h1 : Addr.freeList MAX_ORDER ≠ (m (.freeList i)).next :=
        fun e => hnot (e ▸ hx)
      have h2 : Addr.freeList MAX_ORDER ≠ .freeList i :=
        fun e => absurd (Addr.freeList.inj e) (by omega)
      simp [addedAfter, h1, h2, htop]
    · rintro (h | h)
      · exact hnot h
      · cases h
    · intro a ha
      have hold : a ≠ .pageLink p → (m a).next ∈ S ∧ (m a).prev ∈ S := by
        intro hap
        rcases ha with ha | ha
        · exact hclosed a ha
        · exact absurd ha hap
      rw [addedAfter]
      constructor
      · show (if _ then _ else _) ∈ _
        split
        · exact hpage
        · split
          · exact Or.inl hx
          · exact Or.inl (hold (by assumption)).1
      · show (if _ then _ else _) ∈ _
        split
        · exact hhead
        · split
          · exact hpage
          · exact Or.inl (hold (by assumption)).2

/-- Taking a node off a list keeps away from the uninitialised head. -/
theorem listDel_topUninit {m m' : LinkMem Addr} {i : Nat} (h : TopUninit m)
    (hi : i ≤ MAX_ORDER)
    (hrun : listDel m (m (.freeList i)).next = some m') : TopUninit m' := by
  obtain ⟨htop, S, hheads, hnot, hclosed⟩ := h
  rw [listDel_eq] at hrun
  split at hrun
  · cases hrun
  · rename_i hnull
    obtain rfl := Option.some.inj hrun
    have hlt : i < MAX_ORDER := by
      refine Nat.lt_of_le_of_ne hi ?_
      rintro rfl
      exact hnull (Or.inl (by rw [htop]; rfl))
    have hx := (hclosed _ (hheads i hlt)).1
    obtain ⟨hxn, hxp⟩ := hclosed _ hx
    refine ⟨?_, S, hheads, hnot, ?_⟩
    · have h1 : Addr.freeList MAX_ORDER ≠ (m (m (.freeList i)).next).next :=
        fun e => hnot (e ▸ hxn)
      have h2 : Addr.freeList MAX_ORDER ≠ (m (m (.freeList i)).next).prev :=
        fun e => hnot (e ▸ hxp)
      simp [deleted, h1, h2, htop]
    · intro a ha
      rw [deleted]
      constructor
      · show (if _ then _ else _) ∈ _
        split
        · exact hxn
        · exact (hclosed a ha).1
      · show (if _ then _ else _) ∈ _
        split
        · exact hxp
        · exact (hclosed a ha).2

theorem putBlock_topUninit {s s' : State} {p i : Nat} (h : TopUninit s.link)
    (hi : i ≤ MAX_ORDER) (hrun : putBlock p i s = some s') :
    TopUninit s'.link := by
  rw [putBlock] at hrun
  obtain ⟨m, hadd, hs'⟩ := Option.bind_eq_some_iff.mp hrun
  obtain rfl := Option.some.inj hs'
  exact listAdd_topUninit h hi hadd

theorem clearPages_link (base n : Nat) (s : State) :
    (clearPages base n s).link = s.link := by
  induction n generalizing base s with
  | zero => rfl
  | succ n ih => exact ih (base + 1) _

theorem initBlocks_topUninit (order p n : Nat) {s : State}
    {r : Nat × Nat × State} (h : TopUninit s.link) (ho : order ≤ MAX_ORDER)
    (hrun : initBlocks order p n s = some r) : TopUninit r.2.2.link := by
  fun_induction initBlocks order p n s with
  | case1 p n s hle ih =>
      obtain ⟨s₁, hput, hrest⟩ := Option.bind_eq_some_iff.mp hrun
      exact ih s₁ (putBlock_topUninit h ho hput) hrest
  | case2 p n s hle =>
      obtain rfl := Option.some.inj hrun
      exact h

theorem initOrders_topUninit (order : Nat) :
    ∀ (p n : Nat) {s s' : State}, TopUninit s.link → order ≤ MAX_ORDER →
      initOrders order p n s = some s' → TopUninit s'.link := by
  induction order with
  | zero =>
      intro p n s s' h ho hrun
      rw [initOrders] at hrun
      split at hrun
      · obtain rfl := Option.some.inj hrun
        exact h
      · obtain ⟨r, hblocks, hs'⟩ := Option.bind_eq_some_iff.mp hrun
        obtain rfl := Option.some.inj hs'
        exact initBlocks_topUninit 0 p n h ho hblocks
  | succ order ih =>
      intro p n s s' h ho hrun
      rw [initOrders] at hrun
      split at hrun
      · obtain rfl := Option.some.inj hrun
        exact h
      · obtain ⟨r, hblocks, hrest⟩ := Option.bind_eq_some_iff.mp hrun
        exact ih _ _ (initBlocks_topUninit (order + 1) p n h ho hblocks)
          (by omega) hrest

theorem splitBlock_topUninit (order page : Nat) :
    ∀ (i : Nat) {s s' : State}, TopUninit s.link → i ≤ MAX_ORDER →
      splitBlock order page i s = some s' → TopUninit s'.link := by
  intro i
  induction i with
  | zero =>
      intro s s' h _ hrun
      obtain rfl := Option.some.inj hrun
      exact h
  | succ i ih =>
      intro s s' h hi hrun
      rw [splitBlock] at hrun
      split at hrun
      · obtain ⟨s₁, hput, hrest⟩ := Option.bind_eq_some_iff.mp hrun
        exact ih (putBlock_topUninit h (by omega) hput) (by omega) hrest
      · obtain rfl := Option.some.inj hrun
        exact h

theorem listNext_eq_some {m : LinkMem Addr} {a b : Addr}
    (h : listNext m a = some b) : b = (m a).next := by
  rw [listNext] at h
  split at h
  · cases h
  · exact (Option.some.inj h).symm

theorem allocFrom_topUninit (order i : Nat) {s : State}
    {r : State × Option Nat} (h : TopUninit s.link)
    (hrun : allocFrom order i s = some r) : TopUninit r.1.link := by
  fun_induction allocFrom order i s with
  | case1 i hi ih1 =>
      obtain ⟨e, hempty, hrest⟩ := Option.bind_eq_some_iff.mp hrun
      cases e with
      | true => exact ih1 (by simpa using hrest)
      | false =>
          simp only [Bool.false_eq_true, if_false, Option.bind_eq_bind] at hrest
          obtain ⟨le, hle, hrest⟩ := Option.bind_eq_some_iff.mp hrest
          obtain ⟨m, hdel, hrest⟩ := Option.bind_eq_some_iff.mp hrest
          obtain ⟨page, -, hrest⟩ := Option.bind_eq_some_iff.mp hrest
          obtain ⟨s₁, hsplit, hs₁⟩ := Option.bind_eq_some_iff.mp hrest
          obtain rfl := Option.some.inj hs₁
          obtain rfl := listNext_eq_some hle
          exact splitBlock_topUninit order page i
            (listDel_topUninit h hi hdel) hi hsplit
  | case2 i hi =>
      obtain rfl := Option.some.inj hrun
      exact h

theorem toPage_eq_some {a : Addr} {p : Nat} (h : toPage a = some p) :
    a = .pageLink p := by
  cases a with
  | pageLink q => exact congrArg Addr.pageLink (Option.some.inj h)
  | null => cases h
  | freeList i => cases h

theorem mergeFrom_topUninit (i p : Nat) {s : State} {r : Nat × Nat × State}
    (h : TopUninit s.link) (hi : i ≤ MAX_ORDER)
    (hrun : mergeFrom i p s = some r) :
    TopUninit r.2.2.link ∧ r.1 ≤ MAX_ORDER := by
  fun_induction mergeFrom i p s with
  | case1 i p s hlt ih1 ih2 =>
      obtain ⟨le, hle, hrest⟩ := Option.bind_eq_some_iff.mp hrun
      obtain rfl := listNext_eq_some hle
      split at hrest
      · obtain rfl := Option.some.inj hrest
        exact ⟨h, hi⟩
      · obtain ⟨buddy, hbuddy, hrest⟩ := Option.bind_eq_some_iff.mp hrest
        obtain ⟨_, -, hrest⟩ := Option.bind_eq_some_iff.mp hrest
        have hdel : ∀ {m}, listDel s.link (.pageLink buddy) = some m →
            TopUninit m := by
          intro m hm
          rw [← toPage_eq_some hbuddy] at hm
          exact listDel_topUninit h hi hm
        dsimp only at hrest
        split at hrest
        · obtain ⟨m, hm, hrest⟩ := Option.bind_eq_some_iff.mp hrest
          exact ih1 buddy m (hdel hm) (by omega) hrest
        · split at hrest
          · obtain ⟨m, hm, hrest⟩ := Option.bind_eq_some_iff.mp hrest
            exact ih2 buddy m (hdel hm) (by omega) hrest
          · obtain rfl := Option.some.inj hrest
            exact ⟨h, hi⟩
  | case2 i p s hlt =>
      obtain rfl := Option.some.inj hrun
      exact ⟨h, hi⟩

theorem buddyFreePagesSub_topUninit {base order : Nat} {s s' : State}
    (h : TopUninit s.link) (ho : order ≤ MAX_ORDER)
    (hrun : buddyFreePagesSub base order s = some s') : TopUninit s'.link := by
  rw [buddyFreePagesSub] at hrun
  obtain ⟨r, hmerge, hrest⟩ := Option.bind_eq_some_iff.mp hrun
  obtain ⟨m, hadd, hs'⟩ := Option.bind_eq_some_iff.mp hrest
  obtain rfl := Option.some.inj hs'
  obtain ⟨htop, hr⟩ := mergeFrom_topUninit order base
    (s := { s with order := Function.update s.order base order }) h ho hmerge
  exact listAdd_topUninit htop hr hadd

theorem freeRun_topUninit (base n i : Nat) {s s' : State}
    (h : TopUninit s.link) (hn : n ≤ 2 ^ MAX_ORDER)
    (hrun : freeRun base n i s = some s') : TopUninit s'.link := by
  fun_induction freeRun base n i s with
  | case1 =>
      obtain rfl := Option.some.inj hrun
      exact h
  | case2 base n i s hne j s₁ ih =>
      obtain ⟨s₂, hsub, hrest⟩ := Option.bind_eq_some_iff.mp hrun
      have ho := orderBelow_le_max (Nat.pos_of_ne_zero hne) hn i
      exact ih s₂ (buddyFreePagesSub_topUninit (s := s₁) h ho hsub)
        (Nat.le_trans (Nat.sub_le _ _) hn) hrest

theorem buddyFreePages_topUninit {base n : Nat} {s s' : State}
    (h : TopUninit s.link) (hn : n ≤ 2 ^ MAX_ORDER)
    (hrun : buddyFreePages base n s = some s') : TopUninit s'.link := by
  rw [buddyFreePages] at hrun
  split at hrun
  · exact buddyFreePagesSub_topUninit h (Nat.zero_le _) hrun
  · exact freeRun_topUninit base n _ h hn hrun

/-- A scan that finds a block started within the orders. -/
theorem allocFrom_order {order i p : Nat} {s s' : State}
    (hrun : allocFrom order i s = some (s', some p)) : i ≤ MAX_ORDER := by
  by_contra hi
  rw [allocFrom, if_neg hi] at hrun
  cases (Prod.mk.inj (Option.some.inj hrun)).2

theorem buddyAllocPages_topUninit {n : Nat} {s : State}
    {r : State × Option Nat} (h : TopUninit s.link)
    (hrun : buddyAllocPages n s = some r) : TopUninit r.1.link := by
  rw [buddyAllocPages] at hrun
  split at hrun
  · obtain rfl := Option.some.inj hrun
    exact h
  · rename_i hn
    obtain ⟨⟨s₁, page⟩, hsub, hrest⟩ := Option.bind_eq_some_iff.mp hrun
    have htop := allocFrom_topUninit _ _ h hsub
    cases page with
    | none =>
        obtain rfl := Option.some.inj hrest
        exact htop
    | some p =>
        dsimp only at hrest
        split at hrest
        · obtain ⟨s₂, hfree, hs₂⟩ := Option.bind_eq_some_iff.mp hrest
          obtain rfl := Option.some.inj hs₂
          refine buddyFreePages_topUninit htop ?_ hfree
          have hmax := Nat.pow_le_pow_right (n := 2) (by omega)
            (allocFrom_order hsub)
          exact Nat.le_trans (Nat.sub_le _ _) hmax
        · obtain rfl := Option.some.inj hrest
          exact htop

theorem buddyInitMemmap_topUninit {base n : Nat} {s s' : State}
    (h : TopUninit s.link) (hrun : buddyInitMemmap base n s = some s') :
    TopUninit s'.link := by
  refine initOrders_topUninit MAX_ORDER base n ?_ (Nat.le_refl _) hrun
  rw [clearPages_link]
  exact h

/-- No call initialises the list. -/
theorem step_topUninit {w w' : World} (h : TopUninit w.s.link)
    (hstep : Step w w') : TopUninit w'.s.link := by
  cases hstep with
  | initMemmap _ hrun => exact buddyInitMemmap_topUninit h hrun
  | call hcall =>
      cases hcall with
      | allocNull hrun => exact buddyAllocPages_topUninit h hrun
      | alloc hrun => exact buddyAllocPages_topUninit h hrun
      | free _ hn _ hrun => exact buddyFreePages_topUninit h hn hrun

/-- The static `free_area` before `buddy_init`: all zero. -/
def FreeAreaZero (s : State) : Prop :=
  ∀ i, i ≤ MAX_ORDER → s.link (.freeList i) = ⟨.null, .null⟩ ∧ s.nrFree i = 0

/-- Every free list is a well-formed ring through its head. -/
def ListsWellFormed (s : State) : Prop :=
  ∀ i, i ≤ MAX_ORDER → ∃ xs, Ring s.link (.freeList i) xs

theorem TopUninit.not_wellFormed {s : State} (h : TopUninit s.link) :
    ¬ ListsWellFormed s := by
  intro hw
  obtain ⟨xs, hr⟩ := hw MAX_ORDER (Nat.le_refl _)
  cases xs with
  | nil =>
      have := hr.next_nil
      rw [h.1] at this
      cases this
  | cons x xs =>
      have := hr.next_cons
      rw [h.1] at this
      exact hr.mem_ne_null (x := x) (by simp) this.symm

/-- The loop makes the lists it visits empty rings and leaves the others. -/
theorem initLoop_spec (is : List Nat) (s : State) :
    ∃ s', is.foldlM initFreeList s = some s' ∧
      (∀ i ∈ is, s'.link (.freeList i) = ⟨.freeList i, .freeList i⟩) ∧
      ∀ a, (∀ i ∈ is, a ≠ .freeList i) → s'.link a = s.link a := by
  induction is generalizing s with
  | nil => exact ⟨s, rfl, fun _ hi => absurd hi (List.not_mem_nil), fun _ _ => rfl⟩
  | cons i is ih =>
      have hone : initFreeList s i = some { s with
          link := setPrev (setNext s.link (.freeList i) (.freeList i))
            (.freeList i) (.freeList i)
          nrFree := Function.update s.nrFree i 0 } := rfl
      obtain ⟨s', hrun, hin, hout⟩ := ih { s with
          link := setPrev (setNext s.link (.freeList i) (.freeList i))
            (.freeList i) (.freeList i)
          nrFree := Function.update s.nrFree i 0 }
      refine ⟨s', ?_, ?_, ?_⟩
      · rw [List.foldlM_cons, hone]
        exact hrun
      · intro j hj
        by_cases hjs : j ∈ is
        · exact hin j hjs
        · obtain rfl : j = i := by
            rcases List.mem_cons.mp hj with h | h
            · exact h
            · exact absurd h hjs
          rw [hout (.freeList j) (fun k hk e => hjs (Addr.freeList.inj e ▸ hk))]
          simp [setPrev, setNext]
      · intro a ha
        rw [hout a (fun k hk => ha k (List.mem_cons_of_mem _ hk))]
        have hai := ha i (List.mem_cons_self ..)
        simp [setPrev, setNext, hai]

theorem buddyInit_topUninit {s : State} (hz : FreeAreaZero s) :
    ∃ s', buddyInit s = some s' ∧ TopUninit s'.link := by
  obtain ⟨s', hrun, hin, hout⟩ := initLoop_spec (List.range MAX_ORDER) s
  refine ⟨s', hrun, ?_, {a | ∃ i, i < MAX_ORDER ∧ a = .freeList i}, ?_, ?_, ?_⟩
  · rw [hout _ ?_, (hz MAX_ORDER (Nat.le_refl _)).1]
    intro i hi e
    exact absurd (Addr.freeList.inj e) (Nat.ne_of_gt (List.mem_range.mp hi))
  · intro i hi
    exact ⟨i, hi, rfl⟩
  · rintro ⟨i, hi, e⟩
    exact absurd (Addr.freeList.inj e) (Nat.ne_of_gt hi)
  · rintro a ⟨i, hi, rfl⟩
    rw [hin i (List.mem_range.mpr hi)]
    exact ⟨⟨i, hi, rfl⟩, ⟨i, hi, rfl⟩⟩

/-- A block of order `MAX_ORDER` cannot be put on its list. -/
theorem putBlock_top {s : State} (h : TopUninit s.link) (p : Nat) :
    putBlock p MAX_ORDER s = none := by
  have hadd : listAdd s.link (.freeList MAX_ORDER) (.pageLink p) = none := by
    rw [listAdd, listAddAfter_eq]
    exact if_pos (Or.inr (Or.inl (by rw [h.1]; rfl)))
  rw [putBlock]
  simp only [hadd]
  rfl

/-- With no block in the lists below, the scan ends in the uninitialised list
    and takes `NULL` for a block. -/
theorem allocFrom_top {s : State} (h : TopUninit s.link) (order i : Nat)
    (hi : i ≤ MAX_ORDER)
    (hempty : ∀ j, i ≤ j → j < MAX_ORDER →
      listEmpty s.link (.freeList j) = some true) :
    allocFrom order i s = none := by
  fun_induction allocFrom order i s with
  | case1 i hi ih =>
      rcases Nat.lt_or_eq_of_le hi with hlt | rfl
      · rw [hempty i (Nat.le_refl _) hlt]
        exact ih hlt (fun j h1 h2 => hempty j (by omega) h2)
      · have hnext : listNext s.link (.freeList MAX_ORDER) = some .null := by
          rw [listNext, if_neg (freeList_ne_null _), h.1]
        have hne : listEmpty s.link (.freeList MAX_ORDER) = some false := by
          rw [listEmpty, hnext]
          rfl
        have hdel : listDel s.link .null = none := by
          rw [listDel_eq]
          exact if_pos (Or.inl rfl)
        simp only [hne, hnext, hdel, Option.bind_eq_bind, Option.bind_some,
          Option.bind_none, Bool.false_eq_true, if_false]
  | case2 i hlt => exact absurd hi hlt

/-- The zero-initialised static area. -/
def zeroArea : State :=
  ⟨fun _ => ⟨.null, .null⟩, fun _ => 0, fun _ => 0, fun _ => 0⟩

/-- The lists are not well formed in the very state `buddy_init` returns. -/
theorem buddy_init_not_wellFormed :
    ¬ ∀ s₁ w, buddyInit zeroArea = some s₁ →
      Relation.ReflTransGen Step ⟨s₁, ∅, ∅⟩ w → ListsWellFormed w.s := by
  intro hall
  obtain ⟨s₁, hinit, htop⟩ := buddyInit_topUninit (s := zeroArea) (fun _ _ => ⟨rfl, rfl⟩)
  exact htop.not_wellFormed (hall s₁ ⟨s₁, ∅, ∅⟩ hinit .refl)

/-- **THE TOP LIST IS NEVER INITIALISED**: from a zeroed `free_area`, in every
    state after `buddy_init` the lists are not all well formed.  Giving it
    `2^MAX_ORDER` pages dereferences `NULL`, and so does an allocation that no
    lower list can serve. -/
theorem buddy_init_never_wellFormed {s : State} (hz : FreeAreaZero s) :
    ∃ s₁, buddyInit s = some s₁ ∧
      ∀ w, Relation.ReflTransGen Step ⟨s₁, ∅, ∅⟩ w →
        ¬ ListsWellFormed w.s ∧
        (∀ base n, 2 ^ MAX_ORDER ≤ n → buddyInitMemmap base n w.s = none) ∧
        (∀ n, 0 < n → n ≤ 2 ^ MAX_ORDER →
          (∀ i, i < MAX_ORDER → n ≤ 2 ^ i →
            listEmpty w.s.link (.freeList i) = some true) →
          buddyAllocPages n w.s = none) := by
  obtain ⟨s₁, hinit, htop₁⟩ := buddyInit_topUninit hz
  refine ⟨s₁, hinit, ?_⟩
  intro w hrun
  have htop : TopUninit w.s.link :=
    run_invariant (I := fun w => TopUninit w.s.link)
      (fun _ _ h hstep => step_topUninit h hstep) hrun htop₁
  refine ⟨htop.not_wellFormed, ?_, ?_⟩
  · intro base n hn
    have htop' : TopUninit (clearPages base n w.s).link := by
      rw [clearPages_link]
      exact htop
    have hpos := Nat.two_pow_pos MAX_ORDER
    have hblocks : initBlocks MAX_ORDER base n (clearPages base n w.s) = none := by
      rw [initBlocks, if_pos hn, putBlock_top htop']
      rfl
    show initOrders MAX_ORDER base n (clearPages base n w.s) = none
    rw [MAX_ORDER, initOrders, if_neg (by omega)]
    show (initBlocks MAX_ORDER base n _).bind _ = none
    rw [hblocks]
    rfl
  · intro n hpos hn hempty
    obtain ⟨ho, hle, hlt⟩ := getorder_spec hn
    rw [buddyAllocPages, if_neg (by omega)]
    have hscan : buddyAllocPagesSub (getorder n) w.s = none := by
      refine allocFrom_top htop (getorder n) (getorder n) ho ?_
      intro j h1 h2
      exact hempty j h2 (Nat.le_trans hle (Nat.pow_le_pow_right (by omega) h1))
    show (buddyAllocPagesSub (getorder n) w.s).bind _ = none
    rw [hscan]
    rfl

/-- Right after `buddy_init`, handing over 1024 pages dereferences `NULL`. -/
theorem buddy_init_never_wellFormed_zeroArea :
    ∃ s₁, buddyInit zeroArea = some s₁ ∧ ¬ ListsWellFormed s₁ ∧
      buddyInitMemmap 0 1024 s₁ = none := by
  obtain ⟨s₁, hinit, hall⟩ :=
    buddy_init_never_wellFormed (s := zeroArea) (fun _ _ => ⟨rfl, rfl⟩)
  obtain ⟨hwf, hmap, -⟩ := hall ⟨s₁, ∅, ∅⟩ .refl
  exact ⟨s₁, hinit, hwf, hmap 0 1024 (by decide)⟩

end SharixBuddy
