import Sharix.BuddyInitProofs

/-! # What the page allocator leaves alone — `kern/mm/buddy_pmm.c`

    Once a page is handed out, its `page_link` belongs to whoever has it.  The
    allocator reads and writes the links that the heads lead to, and the page is
    not among them: `Kept q e m` says so, and every call on other pages keeps
    it.  No list needs to be followed for that: what a call stores it has been
    given, or has read from such a link. -/

namespace SharixList

variable {A : Type}

private theorem exists_last (h : A) (l : List A) : ∃ l' p, h :: l = l' ++ [p] :=
  ⟨(h :: l).dropLast, (h :: l).getLast (by simp), (List.dropLast_append_getLast (by simp)).symm⟩

private theorem exists_first (r : List A) (h : A) : ∃ s r', r ++ [h] = s :: r' :=
  List.exists_cons_of_ne_nil (by simp)

/-- The links of a ring lead into it. -/
theorem Ring.closed [Nullable A] {m : LinkMem A} {h a : A} {xs : List A}
    (hr : Ring m h xs) (ha : a ∈ h :: xs) :
    (m a).next ∈ h :: xs ∧ (m a).prev ∈ h :: xs := by
  rcases List.mem_cons.mp ha with rfl | ha
  · obtain ⟨l', p, hl⟩ := exists_last a xs
    obtain ⟨s, r', hs⟩ := exists_first xs a
    have hnext := @Ring.at_seam _ _ m a a s [] [] xs r' hr rfl hs
    have hprev := @Ring.at_seam _ _ m a p a xs l' [] [] (by simpa using hr) hl rfl
    have hp : p ∈ a :: xs := by rw [hl]; simp
    have hsm : s ∈ xs ++ [a] := by rw [hs]; simp
    refine ⟨?_, ?_⟩
    · rw [hnext.1]
      simpa [or_comm] using hsm
    · rw [hprev.2]
      exact hp
  · obtain ⟨l, r, rfl⟩ := List.append_of_mem ha
    obtain ⟨l', p, hl⟩ := exists_last h l
    obtain ⟨s, r', hs⟩ := exists_first r h
    obtain ⟨⟨-, hprev⟩, hnext, -⟩ := hr.at_node hl hs
    obtain ⟨hp, hsm⟩ := seam_mem hl hs
    have hsub : ∀ b ∈ h :: (l ++ r), b ∈ h :: (l ++ a :: r) := by
      intro b hb
      simp only [List.mem_cons, List.mem_append] at hb ⊢
      tauto
    refine ⟨?_, ?_⟩
    · rw [hnext]
      exact hsub _ hsm
    · rw [hprev]
      exact hsub _ hp

end SharixList

namespace SharixBuddy

open SharixList

/-- The link of page `q` is `e`, and the heads do not lead to it. -/
def Kept (q : Nat) (e : ListEntry Addr) (m : LinkMem Addr) : Prop :=
  m (.pageLink q) = e ∧
  ∃ S : Set Addr, (∀ i, i ≤ MAX_ORDER → .freeList i ∈ S) ∧
    .pageLink q ∉ S ∧ ∀ a ∈ S, (m a).next ∈ S ∧ (m a).prev ∈ S

/-- Page `q` is not one of the `n` pages from `p`. -/
def Beside (q p n : Nat) : Prop := q < p ∨ p + n ≤ q

theorem Beside.mono {q p n p' n' : Nat} (h : Beside q p n) (hp : p ≤ p')
    (hn : p' + n' ≤ p + n) : Beside q p' n' :=
  h.imp (fun h => Nat.lt_of_lt_of_le h hp) (Nat.le_trans hn)

theorem Beside.ne {q p n : Nat} (h : Beside q p n) (hn : 0 < n) : p ≠ q := by
  rintro rfl
  rcases h with h | h <;> omega

section Lists

variable {q : Nat} {e : ListEntry Addr}

/-- The first page of a list is not `q`. -/
theorem Kept.next_ne {m : LinkMem Addr} (h : Kept q e m) {i p : Nat} (hi : i ≤ MAX_ORDER)
    (hnext : (m (.freeList i)).next = .pageLink p) : p ≠ q := by
  obtain ⟨-, S, hheads, hnot, hclosed⟩ := h
  rintro rfl
  exact hnot (hnext ▸ (hclosed _ (hheads i hi)).1)

theorem listAdd_kept {m m' : LinkMem Addr} {i p : Nat} (h : Kept q e m)
    (hi : i ≤ MAX_ORDER) (hp : p ≠ q)
    (hrun : listAdd m (.freeList i) (.pageLink p) = some m') : Kept q e m' := by
  obtain ⟨hq, S, hheads, hnot, hclosed⟩ := h
  rw [listAdd, listAddAfter_eq] at hrun
  split at hrun
  · cases hrun
  · obtain rfl := Option.some.inj hrun
    have hx := (hclosed _ (hheads i hi)).1
    have hpage : Addr.pageLink p ∈ S ∪ {Addr.pageLink p} := Or.inr rfl
    have hhead : Addr.freeList i ∈ S ∪ {Addr.pageLink p} := Or.inl (hheads i hi)
    have hpq : Addr.pageLink q ≠ .pageLink p := fun heq => hp (Addr.pageLink.inj heq).symm
    refine ⟨?_, S ∪ {.pageLink p}, fun j hj => Or.inl (hheads j hj), ?_, ?_⟩
    · have h1 : Addr.pageLink q ≠ (m (.freeList i)).next := fun heq => hnot (heq ▸ hx)
      rw [addedAfter, if_neg hpq, if_neg h1, if_neg (by simp), if_neg hpq]
      exact hq
    · rintro (h | h)
      · exact hnot h
      · exact hpq h
    · intro a ha
      have hold : a ≠ .pageLink p → (m a).next ∈ S ∧ (m a).prev ∈ S := by
        intro hap
        rcases ha with ha | ha
        · exact hclosed a ha
        · exact absurd ha hap
      rw [addedAfter]
      constructor
      · show (if _ then _ else _) ∈ _
        split
        · exact hpage
        · split
          · exact Or.inl hx
          · exact Or.inl (hold (by assumption)).1
      · show (if _ then _ else _) ∈ _
        split
        · exact hhead
        · split
          · exact hpage
          · exact Or.inl (hold (by assumption)).2

theorem listDel_kept {m m' : LinkMem Addr} {i : Nat} (h : Kept q e m)
    (hi : i ≤ MAX_ORDER)
    (hrun : listDel m (m (.freeList i)).next = some m') : Kept q e m' := by
  obtain ⟨hq, S, hheads, hnot, hclosed⟩ := h
  rw [listDel_eq] at hrun
  split at hrun
  · cases hrun
  · obtain rfl := Option.some.inj hrun
    obtain ⟨hxn, hxp⟩ := hclosed _ (hclosed _ (hheads i hi)).1
    refine ⟨?_, S, hheads, hnot, ?_⟩
    · have h1 : Addr.pageLink q ≠ (m (m (.freeList i)).next).next :=
        fun heq => hnot (heq ▸ hxn)
      have h2 : Addr.pageLink q ≠ (m (m (.freeList i)).next).prev :=
        fun heq => hnot (heq ▸ hxp)
      rw [deleted, if_neg h1, if_neg h2]
      exact hq
    · intro a ha
      rw [deleted]
      constructor
      · show (if _ then _ else _) ∈ _
        split
        · exact hxn
        · exact (hclosed a ha).1
      · show (if _ then _ else _) ∈ _
        split
        · exact hxp
        · exact (hclosed a ha).2

end Lists

/-! ## The calls -/

section Calls

variable {q : Nat} {e : ListEntry Addr}

theorem putBlock_kept {s s' : State} {p i : Nat} (h : Kept q e s.link)
    (hi : i ≤ MAX_ORDER) (hp : p ≠ q) (hrun : putBlock p i s = some s') :
    Kept q e s'.link := by
  rw [putBlock] at hrun
  obtain ⟨m, hadd, hs'⟩ := Option.bind_eq_some_iff.mp hrun
  obtain rfl := Option.some.inj hs'
  exact listAdd_kept h hi hp hadd

theorem splitBlock_kept (order page : Nat) :
    ∀ (i : Nat) {s s' : State}, Kept q e s.link → i ≤ MAX_ORDER → Beside q page (2 ^ i) →
      splitBlock order page i s = some s' → Kept q e s'.link := by
  intro i
  induction i with
  | zero =>
      intro s s' h _ _ hrun
      obtain rfl := Option.some.inj hrun
      exact h
  | succ i ih =>
      intro s s' h hi hq hrun
      rw [splitBlock] at hrun
      split at hrun
      · obtain ⟨s₁, hput, hrest⟩ := Option.bind_eq_some_iff.mp hrun
        have hpow : 2 ^ (i + 1) = 2 ^ i + 2 ^ i := by rw [Nat.pow_succ]; omega
        have hpos := Nat.two_pow_pos i
        have hupper : Beside q (page + 2 ^ i) (2 ^ i) := hq.mono (by omega) (by omega)
        exact ih (putBlock_kept h (by omega) (hupper.ne hpos) hput) (by omega)
          (hq.mono (Nat.le_refl _) (by omega)) hrest
      · obtain rfl := Option.some.inj hrun
        exact h

/-- The block that is found is one of the list it is found on, so `q` is outside
    of it. -/
theorem allocFrom_kept (order i : Nat) {s : State} {r : State × Option Nat}
    (h : Kept q e s.link) (ho : order ≤ i)
    (hfree : ∀ j, j ≤ MAX_ORDER → ∀ p, (s.link (.freeList j)).next = .pageLink p →
      Beside q p (2 ^ j))
    (hrun : allocFrom order i s = some r) :
    Kept q e r.1.link ∧ ∀ p, r.2 = some p → Beside q p (2 ^ order) := by
  fun_induction allocFrom order i s with
  | case1 i hi ih1 =>
      obtain ⟨b, hempty, hrest⟩ := Option.bind_eq_some_iff.mp hrun
      cases b with
      | true => exact ih1 (by omega) (by simpa using hrest)
      | false =>
          simp only [Bool.false_eq_true, if_false, Option.bind_eq_bind] at hrest
          obtain ⟨le, hle, hrest⟩ := Option.bind_eq_some_iff.mp hrest
          obtain ⟨m, hdel, hrest⟩ := Option.bind_eq_some_iff.mp hrest
          obtain ⟨page, hpage, hrest⟩ := Option.bind_eq_some_iff.mp hrest
          obtain ⟨s₁, hsplit, hs₁⟩ := Option.bind_eq_some_iff.mp hrest
          obtain rfl := Option.some.inj hs₁
          obtain rfl := listNext_eq_some hle
          have hq := hfree i hi page (toPage_eq_some hpage)
          refine ⟨splitBlock_kept order page i (listDel_kept h hi hdel) hi hq hsplit, ?_⟩
          intro p hp
          obtain rfl := Option.some.inj hp
          have hpow := Nat.pow_le_pow_right (n := 2) (by omega) ho
          exact hq.mono (Nat.le_refl _) (by omega)
  | case2 i hi =>
      obtain rfl := Option.some.inj hrun
      exact ⟨h, fun p hp => by cases hp⟩

/-- Merging takes blocks off the lists, and what it leaves is one of them or the
    block it was given. -/
theorem mergeFrom_kept (i p : Nat) {s : State} {r : Nat × Nat × State}
    (h : Kept q e s.link) (hi : i ≤ MAX_ORDER) (hp : p ≠ q)
    (hrun : mergeFrom i p s = some r) :
    Kept q e r.2.2.link ∧ r.1 ≤ MAX_ORDER ∧ r.2.1 ≠ q := by
  fun_induction mergeFrom i p s with
  | case1 i p s hlt ih1 ih2 =>
      obtain ⟨le, hle, hrest⟩ := Option.bind_eq_some_iff.mp hrun
      obtain rfl := listNext_eq_some hle
      split at hrest
      · obtain rfl := Option.some.inj hrest
        exact ⟨h, hi, hp⟩
      · obtain ⟨buddy, hbuddy, hrest⟩ := Option.bind_eq_some_iff.mp hrest
        obtain ⟨_, -, hrest⟩ := Option.bind_eq_some_iff.mp hrest
        have hnext := toPage_eq_some hbuddy
        have hdel : ∀ {m}, listDel s.link (.pageLink buddy) = some m → Kept q e m := by
          intro m hm
          rw [← hnext] at hm
          exact listDel_kept h hi hm
        dsimp only at hrest
        split at hrest
        · obtain ⟨m, hm, hrest⟩ := Option.bind_eq_some_iff.mp hrest
          exact ih1 buddy m (hdel hm) (by omega) (h.next_ne hi hnext) hrest
        · split at hrest
          · obtain ⟨m, hm, hrest⟩ := Option.bind_eq_some_iff.mp hrest
            exact ih2 buddy m (hdel hm) (by omega) hp hrest
          · obtain rfl := Option.some.inj hrest
            exact ⟨h, hi, hp⟩
  | case2 i p s hlt =>
      obtain rfl := Option.some.inj hrun
      exact ⟨h, hi, hp⟩

theorem buddyFreePagesSub_kept {base order : Nat} {s s' : State} (h : Kept q e s.link)
    (ho : order ≤ MAX_ORDER) (hb : base ≠ q)
    (hrun : buddyFreePagesSub base order s = some s') : Kept q e s'.link := by
  rw [buddyFreePagesSub] at hrun
  obtain ⟨r, hmerge, hrest⟩ := Option.bind_eq_some_iff.mp hrun
  obtain ⟨m, hadd, hs'⟩ := Option.bind_eq_some_iff.mp hrest
  obtain rfl := Option.some.inj hs'
  obtain ⟨hkept, hr, hne⟩ := mergeFrom_kept order base
    (s := { s with order := Function.update s.order base order }) h ho hb hmerge
  exact listAdd_kept hkept hr hne hadd

theorem freeRun_kept (base n i : Nat) {s s' : State} (h : Kept q e s.link)
    (hn : n ≤ 2 ^ MAX_ORDER) (hq : Beside q base n)
    (hrun : freeRun base n i s = some s') : Kept q e s'.link := by
  fun_induction freeRun base n i s with
  | case1 =>
      obtain rfl := Option.some.inj hrun
      exact h
  | case2 base n i s hne j s₁ ih =>
      obtain ⟨s₂, hsub, hrest⟩ := Option.bind_eq_some_iff.mp hrun
      have hpos := Nat.pos_of_ne_zero hne
      have hle : 2 ^ j ≤ n := (orderBelow_spec hpos i).1
      exact ih s₂ (buddyFreePagesSub_kept (s := s₁) h (orderBelow_le_max hpos hn i)
        (hq.ne hpos) hsub) (Nat.le_trans (Nat.sub_le _ _) hn)
        (hq.mono (Nat.le_add_right _ _) (by omega)) hrest

theorem buddyFreePages_kept {base n : Nat} {s s' : State} (h : Kept q e s.link)
    (hn : n ≤ 2 ^ MAX_ORDER) (hq : Beside q base n)
    (hrun : buddyFreePages base n s = some s') : Kept q e s'.link := by
  rw [buddyFreePages] at hrun
  split at hrun
  · rename_i hone
    exact buddyFreePagesSub_kept h (Nat.zero_le _) (hq.ne (by omega)) hrun
  · exact freeRun_kept base n _ h hn hq hrun

theorem buddyAllocPages_kept {n : Nat} {s : State} {r : State × Option Nat}
    (h : Kept q e s.link)
    (hfree : ∀ j, j ≤ MAX_ORDER → ∀ p, (s.link (.freeList j)).next = .pageLink p →
      Beside q p (2 ^ j))
    (hrun : buddyAllocPages n s = some r) : Kept q e r.1.link := by
  rw [buddyAllocPages] at hrun
  split at hrun
  · obtain rfl := Option.some.inj hrun
    exact h
  · obtain ⟨⟨s₁, page⟩, hsub, hrest⟩ := Option.bind_eq_some_iff.mp hrun
    obtain ⟨hkept, hpage⟩ := allocFrom_kept _ _ h (Nat.le_refl _) hfree hsub
    cases page with
    | none =>
        obtain rfl := Option.some.inj hrest
        exact hkept
    | some p =>
        dsimp only at hrest
        split at hrest
        · obtain ⟨s₂, htail, hs₂⟩ := Option.bind_eq_some_iff.mp hrest
          obtain rfl := Option.some.inj hs₂
          have hmax := Nat.pow_le_pow_right (n := 2) (by omega) (allocFrom_order hsub)
          refine buddyFreePages_kept hkept (Nat.le_trans (Nat.sub_le _ _) hmax) ?_ htail
          have hn := (getorder_bound (allocFrom_order hsub)).1
          exact (hpage p rfl).mono (by omega) (by omega)
        · obtain rfl := Option.some.inj hrest
          exact hkept

end Calls

/-! ## A page in use -/

section InUse

variable {w : World} {L : Blocks}

/-- The blocks on the lists are free pages. -/
theorem Inv.beside (h : Inv w L) {q : Nat} (hq : q ∈ w.allocated) {j p : Nat}
    (hj : j ≤ MAX_ORDER) (hp : p ∈ L j) : Beside q p (2 ^ j) := by
  by_contra hcon
  refine h.notMem_allocated (x := q) (mem_freePages.mpr ⟨j, hj, p, hp, ?_⟩) hq
  rw [mem_run]
  rw [Beside] at hcon
  omega

/-- The link of a page that heads no block is left alone. -/
theorem Rep.kept {s : State} (hR : Rep s L) {q : Nat} (hq : Fresh L q) :
    Kept q (s.link (.pageLink q)) s.link := by
  refine ⟨rfl, {a | ∃ i, i ≤ MAX_ORDER ∧ a ∈ Addr.freeList i :: (L i).map Addr.pageLink},
    fun i hi => ⟨i, hi, List.mem_cons_self⟩, ?_, ?_⟩
  · rintro ⟨i, hi, hmem⟩
    rcases List.mem_cons.mp hmem with heq | hmem
    · cases heq
    · obtain ⟨p, hp, heq⟩ := List.mem_map.mp hmem
      obtain rfl := Addr.pageLink.inj heq
      exact hq i hi hp
  · rintro a ⟨i, hi, ha⟩
    obtain ⟨hnext, hprev⟩ := (hR.rings.ring i hi).closed ha
    exact ⟨⟨i, hi, hnext⟩, i, hi, hprev⟩

theorem Rep.next_mem {s : State} (hR : Rep s L) {j p : Nat} (hj : j ≤ MAX_ORDER)
    (hnext : (s.link (.freeList j)).next = .pageLink p) : p ∈ L j := by
  have hr := hR.rings.ring j hj
  cases hL : L j with
  | nil =>
      rw [hL] at hr
      cases hr.next_nil.symm.trans hnext
  | cons b xs =>
      rw [hL] at hr
      cases hr.next_cons.symm.trans hnext
      exact List.mem_cons_self

theorem Inv.kept (h : Inv w L) {q : Nat} (hq : q ∈ w.allocated) :
    Kept q (w.s.link (.pageLink q)) w.s.link := by
  refine h.1.kept fun j hj hp => ?_
  exact (h.beside hq hj hp).ne (Nat.two_pow_pos j) rfl

/-- **THE LINKS OF PAGES IN USE ARE LEFT ALONE** by `alloc_pages`. -/
theorem Inv.alloc_link (h : Inv w L) {q : Nat} (hq : q ∈ w.allocated) {n : Nat} {s' : State}
    {r : Option Nat} (hrun : buddyAllocPages n w.s = some (s', r)) :
    s'.link (.pageLink q) = w.s.link (.pageLink q) := by
  refine (buddyAllocPages_kept (h.kept hq) (fun j hj p hnext => ?_) hrun).1
  exact h.beside hq hj (h.1.next_mem hj hnext)

/-- So does `free_pages` with those of other pages. -/
theorem Inv.free_link (h : Inv w L) {q base n : Nat} (hq : q ∈ w.allocated)
    (hn : n ≤ 2 ^ MAX_ORDER) (hout : q ∉ Finset.Ico base (base + n)) {s' : State}
    (hrun : buddyFreePages base n w.s = some s') :
    s'.link (.pageLink q) = w.s.link (.pageLink q) := by
  refine (buddyFreePages_kept (h.kept hq) hn ?_ hrun).1
  rw [Finset.mem_Ico] at hout
  rw [Beside]
  omega

end InUse

end SharixBuddy
