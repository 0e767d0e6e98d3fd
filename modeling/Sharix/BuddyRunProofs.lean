import Sharix.RunProofs
import Sharix.BuddyBlocksProofs
import Mathlib.Order.Interval.Finset.Nat

/-! # Runs of the page allocator

    A world pairs the allocator's state with two ghost sets: the pages given
    to `init_memmap` and the pages handed out and not freed.  Every run keeps
    the free blocks and the allocated pages a partition of the managed pages,
    so an allocation never overlaps another; and no legal call faults.

    That is from well-formed lists.  `buddy_init` does not establish them: it
    leaves `free_list(MAX_ORDER)` as it found it. -/

namespace SharixBuddy

open SharixList SharixRun

/-- The allocator with the pages it manages and those handed out. -/
structure World where
  s : State
  managed : Finset Nat
  allocated : Finset Nat

/-- All free lists are empty rings and all counts are 0. -/
def FreeAreaEmpty (s : State) : Prop :=
  ∀ i, i ≤ MAX_ORDER → Ring s.link (.freeList i) [] ∧ s.nrFree i = 0

/-- A call of `alloc_pages(n)` for any `n`, or of `free_pages` on 1 to
    `2^MAX_ORDER` allocated pages. -/
inductive Call : World → World → Prop where
  | allocNull {w : World} {n : Nat} {s' : State} :
      buddyAllocPages n w.s = some (s', none) →
      Call w ⟨s', w.managed, w.allocated⟩
  | alloc {w : World} {n p : Nat} {s' : State} :
      buddyAllocPages n w.s = some (s', some p) →
      Call w ⟨s', w.managed, w.allocated ∪ Finset.Ico p (p + n)⟩
  | free {w : World} {base n : Nat} {s' : State} :
      0 < n → n ≤ 2 ^ MAX_ORDER →
      Finset.Ico base (base + n) ⊆ w.allocated →
      buddyFreePages base n w.s = some s' →
      Call w ⟨s', w.managed, w.allocated \ Finset.Ico base (base + n)⟩

/-- A step of a run: a call, or `init_memmap` on pages not yet managed. -/
inductive Step : World → World → Prop where
  | initMemmap {w : World} {base n : Nat} {s' : State} :
      Disjoint w.managed (Finset.Ico base (base + n)) →
      buddyInitMemmap base n w.s = some s' →
      Step w ⟨s', w.managed ∪ Finset.Ico base (base + n), w.allocated⟩
  | call {w w' : World} : Call w w' → Step w w'

/-- The invariant: the lists hold blocks, and free and allocated pages make up
    the managed pages, each once. -/
def Inv (w : World) (L : Blocks) : Prop :=
  Rep w.s L ∧ freePages L + w.allocated.val = w.managed.val

theorem run_eq_Ico (p n : Nat) : run p n = (Finset.Ico p (p + n)).val := by
  refine (Multiset.Nodup.ext (run_nodup p n) (Finset.nodup _)).mpr ?_
  intro x
  rw [mem_run, Finset.mem_val, Finset.mem_Ico]

theorem Inv.nodup {w : World} {L : Blocks} (h : Inv w L) :
    (freePages L + w.allocated.val).Nodup := by
  rw [h.2]
  exact w.managed.nodup

theorem Inv.mem_iff {w : World} {L : Blocks} (h : Inv w L) (x : Nat) :
    x ∈ w.managed ↔ x ∈ freePages L ∨ x ∈ w.allocated := by
  rw [← Finset.mem_val, ← h.2, Multiset.mem_add, Finset.mem_val]

theorem Inv.notMem_allocated {w : World} {L : Blocks} (h : Inv w L) {x : Nat}
    (hx : x ∈ freePages L) : x ∉ w.allocated :=
  fun hxa => Multiset.disjoint_left.mp
    (Multiset.nodup_add.mp h.nodup).2.2 hx (Finset.mem_val.mpr hxa)

/-- The multiset of a disjoint union. -/
theorem val_union_Ico {a : Finset Nat} {p n : Nat}
    (hd : Disjoint a (Finset.Ico p (p + n))) :
    (a ∪ Finset.Ico p (p + n)).val = a.val + run p n := by
  rw [run_eq_Ico, ← Finset.disjUnion_eq_union _ _ hd, Finset.disjUnion_val]

theorem val_sdiff_Ico {a : Finset Nat} {p n : Nat}
    (hs : Finset.Ico p (p + n) ⊆ a) :
    (a \ Finset.Ico p (p + n)).val + run p n = a.val := by
  rw [← val_union_Ico Finset.sdiff_disjoint, Finset.sdiff_union_of_subset hs]

/-! ## What each call does -/

theorem initMemmap_inv {w : World} {L : Blocks} (h : Inv w L) {base n : Nat}
    (hd : Disjoint w.managed (Finset.Ico base (base + n))) :
    ∃ s', buddyInitMemmap base n w.s = some s' ∧
      Inv ⟨s', w.managed ∪ Finset.Ico base (base + n), w.allocated⟩
        (seqInit base n L) := by
  have hpages : freePages L + w.allocated.val + run base n
      = (w.managed ∪ Finset.Ico base (base + n)).val := by
    rw [val_union_Ico hd, ← h.2]
  have hnd : (freePages L + run base n).Nodup := by
    have hall := (w.managed ∪ Finset.Ico base (base + n)).nodup
    rw [← hpages, add_right_comm] at hall
    exact (Multiset.nodup_add.mp hall).1
  obtain ⟨s', hrun, hrep⟩ := buddyInitMemmap_rep base n h.1 hnd
  refine ⟨s', hrun, hrep, ?_⟩
  rw [seqInit_pages, add_right_comm]
  exact hpages

theorem alloc_inv {w : World} {L : Blocks} (h : Inv w L) (n : Nat) :
    ∃ s', buddyAllocPages n w.s = some (s', (seqAlloc n L).2) ∧
      ((seqAlloc n L).2 = none ∧ Inv ⟨s', w.managed, w.allocated⟩ (seqAlloc n L).1 ∨
        ∃ p, (seqAlloc n L).2 = some p ∧
          Inv ⟨s', w.managed, w.allocated ∪ Finset.Ico p (p + n)⟩
            (seqAlloc n L).1) := by
  obtain ⟨s', hrun, hrep⟩ :=
    buddyAllocPages_rep n h.1 (Multiset.nodup_add.mp h.nodup).1
  refine ⟨s', hrun, ?_⟩
  rcases seqAlloc_spec n L with ⟨h1, h2, -⟩ | ⟨p, h1, h2, -⟩
  · refine Or.inl ⟨h1, hrep, ?_⟩
    rw [h2]
    exact h.2
  · refine Or.inr ⟨p, h1, hrep, ?_⟩
    have hd : Disjoint w.allocated (Finset.Ico p (p + n)) := by
      refine Finset.disjoint_left.mpr ?_
      intro x hxa hxr
      refine h.notMem_allocated ?_ hxa
      rw [← h2, Multiset.mem_add, run_eq_Ico]
      exact Or.inr (Finset.mem_val.mpr hxr)
    show freePages _ + (w.allocated ∪ _).val = _
    rw [val_union_Ico hd, ← h.2, ← h2]
    abel

theorem free_inv {w : World} {L : Blocks} (h : Inv w L) {base n : Nat}
    (hn : n ≤ 2 ^ MAX_ORDER) (hs : Finset.Ico base (base + n) ⊆ w.allocated) :
    ∃ s', buddyFreePages base n w.s = some s' ∧
      Inv ⟨s', w.managed, w.allocated \ Finset.Ico base (base + n)⟩
        (seqFree base n L) := by
  have hpages : freePages L + (w.allocated \ Finset.Ico base (base + n)).val
      + run base n = w.managed.val := by
    rw [add_assoc, val_sdiff_Ico hs, h.2]
  have hnd : (freePages L + run base n).Nodup := by
    have hall := w.managed.nodup
    rw [← hpages, add_right_comm] at hall
    exact (Multiset.nodup_add.mp hall).1
  obtain ⟨s', hrun, hrep⟩ := buddyFreePages_rep base n h.1 hn hnd
  refine ⟨s', hrun, hrep, ?_⟩
  rw [seqFree_pages base n L hn, add_right_comm]
  exact hpages

/-- A call keeps the invariant and the managed pages. -/
theorem call_inv {w w' : World} {L : Blocks} (h : Inv w L)
    (hcall : Call w w') : (∃ L', Inv w' L') ∧ w'.managed = w.managed := by
  refine ⟨?_, by cases hcall <;> rfl⟩
  cases hcall with
  | @allocNull n s' hrun =>
      obtain ⟨s₁, hrun₁, hres⟩ := alloc_inv h n
      rw [hrun] at hrun₁
      obtain ⟨rfl, hnone⟩ := Prod.mk.inj (Option.some.inj hrun₁)
      rcases hres with ⟨-, hinv⟩ | ⟨p, hp, -⟩
      · exact ⟨_, hinv⟩
      · cases hnone.trans hp
  | @alloc n p s' hrun =>
      obtain ⟨s₁, hrun₁, hres⟩ := alloc_inv h n
      rw [hrun] at hrun₁
      obtain ⟨rfl, hsome⟩ := Prod.mk.inj (Option.some.inj hrun₁)
      rcases hres with ⟨hnone, -⟩ | ⟨q, hq, hinv⟩
      · cases hsome.trans hnone
      · obtain rfl : p = q := Option.some.inj (hsome.trans hq)
        exact ⟨_, hinv⟩
  | free _ hn hs hrun =>
      obtain ⟨s₁, hrun₁, hinv⟩ := free_inv h hn hs
      rw [hrun] at hrun₁
      cases hrun₁
      exact ⟨_, hinv⟩

/-- One step keeps the invariant. -/
theorem step_inv {w w' : World} (h : ∃ L, Inv w L) (hstep : Step w w') :
    ∃ L, Inv w' L := by
  obtain ⟨L, h⟩ := h
  cases hstep with
  | initMemmap hd hrun =>
      obtain ⟨s₁, hrun₁, hinv⟩ := initMemmap_inv h hd
      rw [hrun] at hrun₁
      cases hrun₁
      exact ⟨_, hinv⟩
  | call hcall => exact (call_inv h hcall).1

theorem inv_of_empty {s : State} (hs : FreeAreaEmpty s) :
    Inv ⟨s, ∅, ∅⟩ (fun _ => []) := by
  refine ⟨⟨⟨fun i hi => (hs i hi).1, ?_⟩, fun i hi => (hs i hi).2, ?_⟩, ?_⟩
  · intro i j _ _ hij a ha hb
    obtain rfl := List.mem_singleton.mp ha
    exact hij (Addr.freeList.inj (List.mem_singleton.mp hb))
  · intro i _ p hp
    cases hp
  · have h0 : freePages (fun _ => []) = 0 := by
      refine Multiset.eq_zero_of_forall_notMem ?_
      intro x hx
      obtain ⟨i, _, p, hp, _⟩ := mem_freePages.mp hx
      cases hp
    show freePages _ + (∅ : Finset Nat).val = (∅ : Finset Nat).val
    rw [h0, zero_add]

/-- Every world a run reaches satisfies the invariant. -/
theorem run_inv {s : State} {w : World} (hs : FreeAreaEmpty s)
    (hrun : Relation.ReflTransGen Step ⟨s, ∅, ∅⟩ w) : ∃ L, Inv w L :=
  run_invariant (I := fun w => ∃ L, Inv w L) (fun _ _ h hstep => step_inv h hstep)
    hrun ⟨_, inv_of_empty hs⟩

/-! ## The partition of the managed pages -/

theorem pagesOf_perm {i : Nat} {ps qs : List Nat} (h : ps.Perm qs) :
    pagesOf i ps = pagesOf i qs :=
  (h.map _).sum_eq

/-- One block set apart from the rest. -/
theorem freePages_erase {L : Blocks} {i p : Nat} (hi : i ≤ MAX_ORDER)
    (hp : p ∈ L i) :
    freePages (Function.update L i ((L i).erase p)) + run p (2 ^ i)
      = freePages L := by
  have h := freePages_update L ((L i).erase p) hi
  rw [pagesOf_perm (List.perm_cons_erase hp), pagesOf_cons, ← add_assoc] at h
  exact add_right_cancel h

/-- Different free blocks share no page. -/
theorem blocks_disjoint {L : Blocks} (hnd : (freePages L).Nodup)
    {i j p q : Nat} (hi : i ≤ MAX_ORDER) (hj : j ≤ MAX_ORDER) (hp : p ∈ L i)
    (hq : q ∈ L j) (hne : (i, p) ≠ (j, q)) :
    Disjoint (Finset.Ico p (p + 2 ^ i)) (Finset.Ico q (q + 2 ^ j)) := by
  have hq' : q ∈ Function.update L i ((L i).erase p) j := by
    by_cases hji : j = i
    · subst hji
      rw [Function.update_self]
      exact (List.mem_erase_of_ne (fun e => hne (by rw [e]))).mpr hq
    · rw [Function.update_of_ne hji]
      exact hq
  rw [← freePages_erase hi hp] at hnd
  refine Finset.disjoint_left.mpr ?_
  intro x hxp hxq
  refine Multiset.disjoint_left.mp (Multiset.nodup_add.mp hnd).2.2
    (mem_freePages.mpr ⟨j, hj, q, hq', ?_⟩) (mem_run.mpr (Finset.mem_Ico.mp hxp))
  exact mem_run.mpr (Finset.mem_Ico.mp hxq)

/-- The free lists of a world: rings of counted blocks with the right order,
    which split the managed pages among themselves and the allocations. -/
structure FreeListsOk (w : World) (L : Blocks) : Prop where
  ring : ∀ i, i ≤ MAX_ORDER →
    Ring w.s.link (.freeList i) ((L i).map Addr.pageLink)
  count : ∀ i, i ≤ MAX_ORDER → w.s.nrFree i = (L i).length
  order : ∀ i, i ≤ MAX_ORDER → ∀ p ∈ L i, w.s.order p = i
  blocks : ∀ i j p q, i ≤ MAX_ORDER → j ≤ MAX_ORDER → p ∈ L i → q ∈ L j →
    (i, p) ≠ (j, q) →
    Disjoint (Finset.Ico p (p + 2 ^ i)) (Finset.Ico q (q + 2 ^ j))
  unowned : ∀ i p, i ≤ MAX_ORDER → p ∈ L i →
    Disjoint (Finset.Ico p (p + 2 ^ i)) w.allocated
  cover : ∀ x, x ∈ w.managed ↔
    x ∈ w.allocated ∨
      ∃ i, i ≤ MAX_ORDER ∧ ∃ p ∈ L i, x ∈ Finset.Ico p (p + 2 ^ i)

theorem Inv.freeListsOk {w : World} {L : Blocks} (h : Inv w L) :
    FreeListsOk w L where
  ring := h.1.rings.ring
  count := h.1.count
  order := h.1.order
  blocks := fun _ _ _ _ hi hj hp hq hne =>
    blocks_disjoint (Multiset.nodup_add.mp h.nodup).1 hi hj hp hq hne
  unowned := by
    intro i p hi hp
    refine Finset.disjoint_left.mpr ?_
    intro x hx
    refine h.notMem_allocated (mem_freePages.mpr ⟨i, hi, p, hp, ?_⟩)
    exact mem_run.mpr (Finset.mem_Ico.mp hx)
  cover := by
    intro x
    rw [h.mem_iff, or_comm, mem_freePages]
    simp only [mem_run, Finset.mem_Ico]

/-- A reachable allocation: `NULL` exactly when no free block is large enough,
    and else a run of managed pages that nobody owns. -/
theorem Inv.alloc_result {w : World} {L : Blocks} (h : Inv w L) (n : Nat) :
    ∃ s' r, buddyAllocPages n w.s = some (s', r) ∧
      (r = none ↔ n = 0 ∨ 2 ^ MAX_ORDER < n ∨
        ∀ i, i ≤ MAX_ORDER → n ≤ 2 ^ i →
          listEmpty w.s.link (.freeList i) = some true) ∧
      ∀ p, r = some p → Finset.Ico p (p + n) ⊆ w.managed ∧
        Disjoint (Finset.Ico p (p + n)) w.allocated := by
  obtain ⟨s', hrun, -⟩ := alloc_inv h n
  have hempty : ∀ i, i ≤ MAX_ORDER →
      (listEmpty w.s.link (.freeList i) = some true ↔ L i = []) := by
    intro i hi
    rw [h.1.listEmpty_eq hi, Option.some.injEq, List.isEmpty_iff]
  refine ⟨s', (seqAlloc n L).2, hrun, ?_, ?_⟩
  · rcases seqAlloc_spec n L with ⟨h1, -, h3⟩ | ⟨p, h1, -, hpos, hle, i, hi, hni, hne⟩
    · refine iff_of_true h1 ?_
      rcases h3 with h3 | h3 | h3
      · exact Or.inl h3
      · exact Or.inr (Or.inl h3)
      · exact Or.inr (Or.inr fun i hi hni => (hempty i hi).mpr (h3 i hi hni))
    · refine iff_of_false (by rw [h1]; simp) ?_
      rintro (h3 | h3 | h3)
      · omega
      · omega
      · exact hne ((hempty i hi).mp (h3 i hi hni))
  · intro p hp
    rcases seqAlloc_spec n L with ⟨h1, -, -⟩ | ⟨q, h1, h2, -⟩
    · cases h1.symm.trans hp
    · obtain rfl : q = p := Option.some.inj (h1.symm.trans hp)
      have hfree : ∀ x ∈ Finset.Ico q (q + n), x ∈ freePages L := by
        intro x hx
        rw [← h2, Multiset.mem_add]
        exact Or.inr (mem_run.mpr (Finset.mem_Ico.mp hx))
      refine ⟨fun x hx => (h.mem_iff x).mpr (Or.inl (hfree x hx)), ?_⟩
      exact Finset.disjoint_left.mpr fun x hx => h.notMem_allocated (hfree x hx)

/-- **NO PAGE IS LOST OR HANDED OUT TWICE**: after every run from empty lists,
    the lists are well formed and split the managed pages with the
    allocations, no legal call faults, and `alloc_pages` answers as the lists
    say. -/
theorem buddy_run_partition {s : State} {w : World} (hs : FreeAreaEmpty s)
    (hrun : Relation.ReflTransGen Step ⟨s, ∅, ∅⟩ w) :
    (∃ L, FreeListsOk w L) ∧
    (∀ n, ∃ s' r, buddyAllocPages n w.s = some (s', r) ∧
      (r = none ↔ n = 0 ∨ 2 ^ MAX_ORDER < n ∨
        ∀ i, i ≤ MAX_ORDER → n ≤ 2 ^ i →
          listEmpty w.s.link (.freeList i) = some true) ∧
      ∀ p, r = some p → Finset.Ico p (p + n) ⊆ w.managed ∧
        Disjoint (Finset.Ico p (p + n)) w.allocated) ∧
    (∀ base n, 0 < n → n ≤ 2 ^ MAX_ORDER →
      Finset.Ico base (base + n) ⊆ w.allocated →
      ∃ s', buddyFreePages base n w.s = some s') ∧
    (∀ base n, Disjoint w.managed (Finset.Ico base (base + n)) →
      ∃ s', buddyInitMemmap base n w.s = some s') := by
  obtain ⟨L, h⟩ := run_inv hs hrun
  refine ⟨⟨L, h.freeListsOk⟩, h.alloc_result, ?_, ?_⟩
  · intro base n _ hn hsub
    obtain ⟨s', hfree, -⟩ := free_inv h hn hsub
    exact ⟨s', hfree⟩
  · intro base n hd
    obtain ⟨s', hinit, -⟩ := initMemmap_inv h hd
    exact ⟨s', hinit⟩

/-! ## A run on eight pages -/

/-- Empty lists: every entry is linked to itself. -/
def emptyArea : State :=
  ⟨fun a => ⟨a, a⟩, fun _ => 0, fun _ => 0, fun _ => 0⟩

theorem emptyArea_empty : FreeAreaEmpty emptyArea := by
  intro i _
  refine ⟨⟨List.nodup_singleton _, ?_, ?_⟩, rfl⟩
  · exact fun h => freeList_ne_null i (List.mem_singleton.mp h).symm
  · exact List.isChain_pair.mpr ⟨rfl, rfl⟩

/-- The page that `alloc_pages(5)` answers on the 8 pages from 0. -/
def fiveOfEight : Option (Option Nat) := do
  let s₁ ← buddyInitMemmap 0 8 emptyArea
  let r ← buddyAllocPages 5 s₁
  return r.2

/-- Five pages of eight: the block of 8 is cut at 5 and its tail freed. -/
theorem buddy_run_partition_eight :
    ∃ w, w.managed = Finset.Ico 0 8 ∧ w.allocated = Finset.Ico 0 5 ∧
      ∃ L, FreeListsOk w L := by
  have heval : fiveOfEight = some (some 0) := by decide +kernel
  simp only [fiveOfEight, Option.bind_eq_bind, Option.bind_eq_some_iff] at heval
  obtain ⟨s₁, hinit, ⟨s₂, r⟩, halloc, hr⟩ := heval
  obtain rfl : r = some 0 := Option.some.inj hr
  have hrun : Relation.ReflTransGen Step ⟨emptyArea, ∅, ∅⟩
      ⟨s₂, Finset.Ico 0 8, Finset.Ico 0 5⟩ := by
    refine (Relation.ReflTransGen.single (Step.initMemmap
      (Finset.disjoint_empty_left _) hinit)).tail ?_
    simpa using Step.call (Call.alloc (w := ⟨s₁, Finset.Ico 0 8, ∅⟩) halloc)
  exact ⟨_, rfl, rfl, (buddy_run_partition emptyArea_empty hrun).1⟩

end SharixBuddy
