import Mathlib.Tactic.Ring
import Sharix.SelfMapProofs

/-! # `map_physical_memory` — `kern/mm/pmm.c`

    The loop writes one entry for each page of the range and makes the tables
    it needs on the way.  An entry is written to its own word, so no other
    translation changes, with one exception: under a slot of the directory
    that holds the directory itself a new table is a new page. -/

namespace SharixPaging

def KMEMSIZE : Word := 0x38000000#32

def ROUNDDOWN (a n : Word) : Word := a - a % n

def ROUNDUP (a n : Word) : Word := ROUNDDOWN (a + n - 1#32) n

section Model

variable (pages : Word) (allocPage : Nat → Word)

/-- `*get_pte(pgdir, la) = v`. -/
def setPte (pgdir la v : Word) (s : State) : State :=
  let r := getPte pages allocPage pgdir la s
  { r.2 with mem := Function.update r.2.mem r.1 v }

/-- The loop of `map_physical_memory`. -/
def mapPages (pgdir perm : Word) : Nat → Word → Word → State → State
  | 0, _, _, s => s
  | n + 1, la, pa, s =>
      mapPages pgdir perm n (la + PGSIZE) (pa + PGSIZE)
        (setPte pages allocPage pgdir la (pa ||| PTE_P ||| perm) s)

def mapPhysicalMemory (pgdir la size pa perm : Word) (s : State) : State :=
  let n := ROUNDUP (size + PG_OFF la) PGSIZE / PGSIZE
  mapPages pages allocPage pgdir perm n.toNat (ROUNDDOWN la PGSIZE)
    (ROUNDDOWN pa PGSIZE) s

end Model

/-! ## Directories that may hold themselves -/

/-- No two present entries share a table, unless it is the directory. -/
structure DirOk (pgdir : Word) (mem : Word → Word) : Prop where
  aligned : PageAligned pgdir
  distinct : ∀ i j : Word, i.toNat < 1024 → j.toNat < 1024 →
    Present (mem (slot pgdir i)) → Present (mem (slot pgdir j)) →
    tableOf (mem (slot pgdir i)) = tableOf (mem (slot pgdir j)) →
    i = j ∨ tableOf (mem (slot pgdir i)) = pgdir

/-- The page is neither the directory nor one of its tables. -/
structure FreshTable (pages pgdir : Word) (mem : Word → Word) (page : Word) :
    Prop where
  notDir : VADDR (page2pa pages page) ≠ pgdir
  notTable : ∀ i : Word, i.toNat < 1024 → Present (mem (slot pgdir i)) →
    tableOf (mem (slot pgdir i)) ≠ VADDR (page2pa pages page)

/-- The entry that `get_pte` makes for a new table. -/
def tableEntry (pages page : Word) : Word :=
  page2pa pages page ||| PTE_U ||| PTE_W ||| PTE_P

theorem tableEntry_present (pages page : Word) :
    Present (tableEntry pages page) := by
  rw [present_iff, tableEntry, BitVec.getLsbD_or, PTE_P]
  simp

/-- The entry of a new table leads to it. -/
theorem PTE_ADDR_tableEntry (pages page : Word) :
    PTE_ADDR (tableEntry pages page) = page2pa pages page := by
  rw [tableEntry, BitVec.or_assoc, BitVec.or_assoc,
    PTE_ADDR_or (page2pa_aligned _ _) (by decide)]

theorem tableOf_tableEntry (pages page : Word) :
    tableOf (tableEntry pages page) = VADDR (page2pa pages page) :=
  congrArg VADDR (PTE_ADDR_tableEntry pages page)

/-- And lets users read and write. -/
theorem flagsOf_tableEntry (pages page : Word) :
    flagsOf (tableEntry pages page) = PTE_U ||| PTE_W ||| PTE_P := by
  rw [tableEntry, BitVec.or_assoc, BitVec.or_assoc,
    flagsOf_or (page2pa_aligned _ _) (by decide)]
  rfl

variable {pages : Word} {allocPage : Nat → Word} {pgdir : Word}

/-- A write through the entry of `la` changes the entry of its page only. -/
theorem DirOk.write {mem : Word → Word} (h : DirOk pgdir mem) {la : Word}
    (hp : Present (mem (slot pgdir (PDX la))))
    (hself : ¬ SelfMapped pgdir mem (PDX la)) (v : Word) :
    let mem' := Function.update mem
      (slot (tableOf (mem (slot pgdir (PDX la)))) (PTX la)) v
    (∀ i : Word, i.toNat < 1024 → mem' (slot pgdir i) = mem (slot pgdir i)) ∧
    DirOk pgdir mem' ∧
    ∀ x, ¬ SelfMapped pgdir mem (PDX x) → pteAt mem' (PADDR pgdir) x
      = if PPN x = PPN la then v else pteAt mem (PADDR pgdir) x := by
  intro mem'
  have hne : tableOf (mem (slot pgdir (PDX la))) ≠ pgdir :=
    fun he => hself (selfMapped_iff.mpr ⟨hp, he⟩)
  have hdir : ∀ i : Word, i.toNat < 1024 →
      mem' (slot pgdir i) = mem (slot pgdir i) := by
    intro i hi
    refine Function.update_of_ne (fun he => hne ?_) _ _
    exact (slot_inj h.aligned (tableOf_aligned _) hi (PTX_lt la) he).1.symm
  refine ⟨hdir, ⟨h.aligned, fun i j hi hj => ?_⟩, fun x hx => ?_⟩
  · rw [hdir i hi, hdir j hj]
    exact h.distinct i j hi hj
  · rw [pteAt_eq, pteAt_eq, hdir _ (PDX_lt x)]
    by_cases hpx : Present (mem (slot pgdir (PDX x)))
    · rw [if_pos hpx, if_pos hpx]
      by_cases he : PPN x = PPN la
      · obtain ⟨h1, h2⟩ := (PPN_eq_iff x la).mp he
        rw [if_pos he, h1, h2]
        exact Function.update_self ..
      · rw [if_neg he]
        refine Function.update_of_ne (fun hs => he ?_) _ _
        obtain ⟨ht, hi⟩ := slot_inj (tableOf_aligned _) (tableOf_aligned _)
          (PTX_lt x) (PTX_lt la) hs
        rcases h.distinct _ _ (PDX_lt x) (PDX_lt la) hpx hp ht with hd | hd
        · exact (PPN_eq_iff x la).mpr ⟨hd, hi⟩
        · exact absurd (selfMapped_iff.mpr ⟨hpx, hd⟩) hx
    · rw [if_neg hpx, if_neg hpx, if_neg]
      intro he
      exact hpx (((PPN_eq_iff x la).mp he).1 ▸ hp)

/-- A new table, cleared and entered, changes no other entry. -/
theorem DirOk.addTable {mem : Word → Word} (h : DirOk pgdir mem) {la page : Word}
    (hp : ¬ Present (mem (slot pgdir (PDX la))))
    (hfresh : FreshTable pages pgdir mem page) :
    let mem' := Function.update (memset mem (VADDR (page2pa pages page)) PGSIZE)
      (slot pgdir (PDX la)) (tableEntry pages page)
    (∀ i : Word, i.toNat < 1024 → mem' (slot pgdir i)
      = if i = PDX la then tableEntry pages page else mem (slot pgdir i)) ∧
    DirOk pgdir mem' ∧
    ∀ x, ¬ SelfMapped pgdir mem (PDX x) →
      pteAt mem' (PADDR pgdir) x = pteAt mem (PADDR pgdir) x := by
  intro mem'
  have hF : PageAligned (VADDR (page2pa pages page)) :=
    VADDR_aligned (page2pa_aligned _ _)
  have hdir : ∀ i : Word, i.toNat < 1024 → mem' (slot pgdir i)
      = if i = PDX la then tableEntry pages page else mem (slot pgdir i) :=
    fun i hi => addTable_dir h.aligned hF hfresh.notDir hi
  -- a table of the directory is the new page or an old table
  have hold : ∀ i : Word, i.toNat < 1024 → i ≠ PDX la →
      mem' (slot pgdir i) = mem (slot pgdir i) :=
    fun i hi he => (hdir i hi).trans (if_neg he)
  have hnew : mem' (slot pgdir (PDX la)) = tableEntry pages page :=
    (hdir _ (PDX_lt la)).trans (if_pos rfl)
  refine ⟨hdir, ⟨h.aligned, ?_⟩, ?_⟩
  · intro i j hi hj hpi hpj heq
    by_cases hei : i = PDX la
    · by_cases hej : j = PDX la
      · exact .inl (hei.trans hej.symm)
      · rw [hei, hnew, tableOf_tableEntry, hold j hj hej] at heq
        exact absurd heq.symm (hfresh.notTable j hj (hold j hj hej ▸ hpj))
    · rw [hold i hi hei] at hpi heq ⊢
      by_cases hej : j = PDX la
      · rw [hej, hnew, tableOf_tableEntry] at heq
        exact absurd heq (hfresh.notTable i hi hpi)
      · rw [hold j hj hej] at hpj heq
        exact h.distinct i j hi hj hpi hpj heq
  · intro x hx
    rw [pteAt_eq, pteAt_eq]
    by_cases he : PDX x = PDX la
    · rw [he, hnew, if_pos (tableEntry_present _ _), if_neg hp,
        tableOf_tableEntry]
      exact addTable_cleared h.aligned hF hfresh.notDir (PTX_lt x)
    · rw [hold _ (PDX_lt x) he]
      by_cases hpx : Present (mem (slot pgdir (PDX x)))
      · rw [if_pos hpx, if_pos hpx]
        exact addTable_table h.aligned hF (tableOf_aligned _)
          (fun hT => hx (selfMapped_iff.mpr ⟨hpx, hT⟩))
          (hfresh.notTable _ (PDX_lt x) hpx) (PTX_lt x)
      · rw [if_neg hpx, if_neg hpx]

/-! ## One entry -/

/-- `alloc_page` answers fresh pages, all different, from the state `s` up to
    the call `stop`. -/
structure Fresh (pages : Word) (allocPage : Nat → Word) (pgdir : Word)
    (s : State) (stop : Nat) : Prop where
  table : ∀ k, s.calls ≤ k → k < stop →
    FreshTable pages pgdir s.mem (allocPage k)
  distinct : ∀ j k, s.calls ≤ j → j < k → k < stop →
    page2pa pages (allocPage j) ≠ page2pa pages (allocPage k)

/-- Slot `i` of the directory, before and after an entry for `la` is set. -/
def DirSet (pages : Word) (allocPage : Nat → Word) (pgdir la : Word)
    (s s' : State) (i : Word) : Prop :=
  s'.mem (slot pgdir i) = s.mem (slot pgdir i) ∨
  (¬ Present (s.mem (slot pgdir i)) ∧ PDX la = i ∧ s'.calls = s.calls + 1 ∧
    s'.mem (slot pgdir i) = tableEntry pages (allocPage s.calls))

variable (pages allocPage pgdir) in
theorem setPte_calls (la v : Word) (s : State) :
    s.calls ≤ (setPte pages allocPage pgdir la v s).calls ∧
      (setPte pages allocPage pgdir la v s).calls ≤ s.calls + 1 :=
  getPte_calls_le pages allocPage pgdir la s

/-- One round of the loop sets the entry of one page. -/
theorem setPte_spec {la : Word} {s : State} (v : Word) (h : DirOk pgdir s.mem)
    (hself : ¬ SelfMapped pgdir s.mem (PDX la))
    (hfresh : ¬ Present (s.mem (slot pgdir (PDX la))) →
      FreshTable pages pgdir s.mem (allocPage s.calls)) :
    let s' := setPte pages allocPage pgdir la v s
    DirOk pgdir s'.mem ∧
    (∀ i : Word, i.toNat < 1024 → DirSet pages allocPage pgdir la s s' i) ∧
    ∀ x, ¬ SelfMapped pgdir s.mem (PDX x) → pteAt s'.mem (PADDR pgdir) x
      = if PPN x = PPN la then v else pteAt s.mem (PADDR pgdir) x := by
  intro s'
  by_cases hp : Present (s.mem (slot pgdir (PDX la)))
  · have hs : s' = ⟨Function.update s.mem
        (slot (tableOf (s.mem (slot pgdir (PDX la)))) (PTX la)) v, s.calls⟩ := by
      show setPte pages allocPage pgdir la v s = _
      rw [setPte, getPte, if_neg hp]
    obtain ⟨hdir, hok, hpte⟩ := h.write hp hself v
    rw [hs]
    exact ⟨hok, fun i hi => .inl (hdir i hi), hpte⟩
  · -- first the table, then the entry in it
    obtain ⟨hdir₁, hok₁, hpte₁⟩ := h.addTable hp (hfresh hp)
    set m := Function.update (memset s.mem
      (VADDR (page2pa pages (allocPage s.calls))) PGSIZE) (slot pgdir (PDX la))
      (tableEntry pages (allocPage s.calls)) with hm
    have hnew : m (slot pgdir (PDX la)) = tableEntry pages (allocPage s.calls) :=
      (hdir₁ _ (PDX_lt la)).trans (if_pos rfl)
    have hs : s' = ⟨Function.update m
        (slot (tableOf (m (slot pgdir (PDX la)))) (PTX la)) v, s.calls + 1⟩ := by
      show setPte pages allocPage pgdir la v s = _
      rw [setPte, getPte, if_pos (not_not.mp hp)]
      rfl
    -- a slot holds the directory after exactly if it did before
    have hself₁ : ∀ i : Word, i.toNat < 1024 → SelfMapped pgdir m i →
        SelfMapped pgdir s.mem i := by
      intro i hi hi₁
      by_cases he : i = PDX la
      · rw [he, selfMapped_iff, hnew, tableOf_tableEntry] at hi₁
        exact absurd hi₁.2 (hfresh hp).notDir
      · rwa [SelfMapped, hdir₁ i hi, if_neg he] at hi₁
    obtain ⟨hdir, hok, hpte⟩ := hok₁.write (hnew ▸ tableEntry_present _ _)
      (fun hno => hself (hself₁ _ (PDX_lt la) hno)) v
    rw [hs]
    refine ⟨hok, fun i hi => ?_, fun x hx => ?_⟩
    · rw [DirSet]
      dsimp only
      rw [hdir i hi, hdir₁ i hi]
      by_cases he : i = PDX la
      · rw [if_pos he]
        exact .inr ⟨he ▸ hp, he.symm, rfl, rfl⟩
      · rw [if_neg he]
        exact .inl rfl
    · rw [hpte x (fun hno => hx (hself₁ _ (PDX_lt x) hno)), hpte₁ x hx]

/-- Setting an entry makes no slot hold the directory. -/
theorem DirSet.selfMapped {la : Word} {s s' : State} {i : Word}
    (h : DirSet pages allocPage pgdir la s s' i)
    (hfresh : s'.calls = s.calls + 1 →
      FreshTable pages pgdir s.mem (allocPage s.calls)) :
    SelfMapped pgdir s'.mem i ↔ SelfMapped pgdir s.mem i := by
  rcases h with he | ⟨hno, -, hcalls, he⟩
  · rw [SelfMapped, SelfMapped, he]
  · refine iff_of_false (fun hs => ?_) (fun hs => hno hs.1)
    rw [selfMapped_iff, he, tableOf_tableEntry] at hs
    exact (hfresh hcalls).notDir hs.2

/-- The pages that were fresh and not taken stay fresh. -/
theorem Fresh.step {la : Word} {s s' : State} {stop : Nat}
    (h : Fresh pages allocPage pgdir s stop) (hle : s.calls ≤ s'.calls)
    (hdir : ∀ i : Word, i.toNat < 1024 → DirSet pages allocPage pgdir la s s' i) :
    Fresh pages allocPage pgdir s' stop := by
  refine ⟨fun k hk hstop => ⟨?_, fun i hi hp => ?_⟩, fun j k hj => ?_⟩
  · exact (h.table k (Nat.le_trans hle hk) hstop).notDir
  · rcases hdir i hi with he | ⟨-, -, hcalls, he⟩
    · rw [he] at hp ⊢
      exact (h.table k (Nat.le_trans hle hk) hstop).notTable i hi hp
    · -- the table of the entry is the page taken before
      rw [he, tableOf_tableEntry]
      intro heq
      exact h.distinct s.calls k (Nat.le_refl _) (by omega) hstop
        (VADDR_inj.mp heq)
  · exact h.distinct j k (Nat.le_trans hle hj)

/-! ## The loop -/

/-- The address of page `n`. -/
def pageAddr (n : Nat) : Word := BitVec.ofNat 32 (4096 * n)

theorem pageAddr_succ (n : Nat) : pageAddr n + PGSIZE = pageAddr (n + 1) := by
  rw [pageAddr, pageAddr, Nat.mul_succ, BitVec.ofNat_add]
  rfl

theorem toNat_pageAddr {n : Nat} (hn : n < 2 ^ 20) :
    (pageAddr n).toNat = 4096 * n := by
  rw [pageAddr, BitVec.toNat_ofNat]
  omega

/-- The address `x` lies in one of the pages from `first` on. -/
def InPages (first count : Nat) (x : Word) : Prop :=
  first ≤ x.toNat / 4096 ∧ x.toNat / 4096 < first + count

instance (first count : Nat) (x : Word) : Decidable (InPages first count x) :=
  inferInstanceAs (Decidable (_ ∧ _))

theorem inPages_succ (first count : Nat) (x : Word) :
    InPages first (count + 1) x ↔
      x.toNat / 4096 = first ∨ InPages (first + 1) count x := by
  rw [InPages, InPages]
  omega

/-- An address is in the page of its number. -/
theorem PPN_eq_pageAddr {n : Nat} (hn : n < 2 ^ 20) (x : Word) :
    PPN x = PPN (pageAddr n) ↔ x.toNat / 4096 = n := by
  rw [← BitVec.toNat_inj, toNat_PPN, toNat_PPN, toNat_pageAddr hn]
  omega

theorem PTE_ADDR_eq_pageAddr (x : Word) : PTE_ADDR x = pageAddr (x.toNat / 4096) := by
  have hlt := x.isLt
  rw [← BitVec.toNat_inj, toNat_PTE_ADDR, toNat_pageAddr (by omega), Nat.mul_comm]

variable (pages allocPage pgdir) in
/-- A round makes at most one table. -/
theorem mapPages_calls (perm : Word) (n : Nat) (la pa : Word) (s : State) :
    s.calls ≤ (mapPages pages allocPage pgdir perm n la pa s).calls ∧
      (mapPages pages allocPage pgdir perm n la pa s).calls ≤ s.calls + n := by
  induction n generalizing la pa s with
  | zero => exact ⟨Nat.le_refl _, Nat.le_refl _⟩
  | succ n ih =>
      have hset := setPte_calls pages allocPage pgdir la (pa ||| PTE_P ||| perm) s
      have hrest := ih (la + PGSIZE) (pa + PGSIZE)
        (setPte pages allocPage pgdir la (pa ||| PTE_P ||| perm) s)
      rw [mapPages]
      omega

/-- Slot `i` got a table, for an address of the range, between `s` and
    `s'`. -/
def NewTable (pages : Word) (allocPage : Nat → Word) (pgdir : Word)
    (first count : Nat) (s s' : State) (i : Word) : Prop :=
  ¬ Present (s.mem (slot pgdir i)) ∧
  (∃ y, InPages first count y ∧ PDX y = i) ∧
  ∃ k, s.calls ≤ k ∧ k < s'.calls ∧
    s'.mem (slot pgdir i) = tableEntry pages (allocPage k)

/-- The pages from `first` on have entries for those from `pa` on. -/
structure RangeSet (pages : Word) (allocPage : Nat → Word) (pgdir perm : Word)
    (first count : Nat) (pa : Word) (s s' : State) : Prop where
  dir : DirOk pgdir s'.mem
  slots : ∀ i : Word, i.toNat < 1024 →
    s'.mem (slot pgdir i) = s.mem (slot pgdir i) ∨
      NewTable pages allocPage pgdir first count s s' i
  entries : ∀ x, ¬ SelfMapped pgdir s.mem (PDX x) →
    pteAt s'.mem (PADDR pgdir) x
      = if InPages first count x then
          (pa + (PTE_ADDR x - pageAddr first)) ||| PTE_P ||| perm
        else pteAt s.mem (PADDR pgdir) x

/-- One more entry in front. -/
theorem RangeSet.cons {perm pa : Word} {first n : Nat} {s s₁ s' : State}
    (hwrap : first + (n + 1) ≤ 2 ^ 20)
    (hset : (∀ i : Word, i.toNat < 1024 →
        DirSet pages allocPage pgdir (pageAddr first) s s₁ i) ∧
      ∀ x, ¬ SelfMapped pgdir s.mem (PDX x) → pteAt s₁.mem (PADDR pgdir) x
        = if PPN x = PPN (pageAddr first) then pa ||| PTE_P ||| perm
          else pteAt s.mem (PADDR pgdir) x)
    (hself : ∀ i : Word, i.toNat < 1024 → SelfMapped pgdir s₁.mem i →
      SelfMapped pgdir s.mem i)
    (hle : s.calls ≤ s₁.calls) (hle' : s₁.calls ≤ s'.calls)
    (h : RangeSet pages allocPage pgdir perm (first + 1) n (pa + PGSIZE) s₁ s') :
    RangeSet pages allocPage pgdir perm first (n + 1) pa s s' := by
  refine ⟨h.dir, fun i hi => ?_, fun x hx => ?_⟩
  · -- a slot gets its table by this entry or by a later one, not by both
    rcases hset.1 i hi with hs | ⟨hno, hy, hcalls, hs⟩
    · rcases h.slots i hi with h' | ⟨hno, ⟨y, hy, hyi⟩, k, hk, hk', hs'⟩
      · exact .inl (h'.trans hs)
      · rw [hs] at hno
        exact .inr ⟨hno, ⟨y, (inPages_succ _ _ _).mpr (.inr hy), hyi⟩, k,
          Nat.le_trans hle hk, hk', hs'⟩
    · rcases h.slots i hi with h' | ⟨hno', -⟩
      · refine .inr ⟨hno, ⟨pageAddr first, ?_, hy⟩, s.calls, Nat.le_refl _,
          by omega, h'.trans hs⟩
        rw [inPages_succ, toNat_pageAddr (by omega)]
        omega
      · rw [hs] at hno'
        exact absurd (tableEntry_present _ _) hno'
  · have hpa : pa + PGSIZE + (PTE_ADDR x - pageAddr (first + 1))
        = pa + (PTE_ADDR x - pageAddr first) := by
      rw [← pageAddr_succ]
      ring
    rw [h.entries x (fun hs => hx (hself _ (PDX_lt x) hs)), hset.2 x hx, hpa]
    have hpage := PPN_eq_pageAddr (n := first) (by omega) x
    by_cases hrest : InPages (first + 1) n x
    · rw [if_pos hrest, if_pos ((inPages_succ _ _ _).mpr (.inr hrest))]
    · rw [if_neg hrest]
      by_cases he : x.toNat / 4096 = first
      · rw [if_pos (hpage.mpr he), if_pos ((inPages_succ _ _ _).mpr (.inl he)),
          PTE_ADDR_eq_pageAddr, he, BitVec.sub_self, BitVec.add_zero]
      · rw [if_neg (fun h' => he (hpage.mp h')), if_neg]
        rw [inPages_succ]
        exact not_or.mpr ⟨he, hrest⟩

/-- All rounds, by induction on the pages that are left. -/
theorem mapPages_spec (perm : Word) {n : Nat} : ∀ {first : Nat} {pa : Word}
    {s : State}, first + n ≤ 2 ^ 20 → DirOk pgdir s.mem →
    (∀ x, InPages first n x → ¬ SelfMapped pgdir s.mem (PDX x)) →
    Fresh pages allocPage pgdir s
      (mapPages pages allocPage pgdir perm n (pageAddr first) pa s).calls →
    RangeSet pages allocPage pgdir perm first n pa s
      (mapPages pages allocPage pgdir perm n (pageAddr first) pa s) := by
  induction n with
  | zero =>
      intro first pa s _ hdir _ _
      refine ⟨hdir, fun i _ => .inl rfl, fun x _ => (if_neg ?_).symm⟩
      rintro ⟨h1, h2⟩
      omega
  | succ n ih =>
      intro first pa s hwrap hdir hself hfresh
      have hcalls := setPte_calls pages allocPage pgdir (pageAddr first)
        (pa ||| PTE_P ||| perm) s
      have hcalls' := mapPages_calls pages allocPage pgdir perm n
        (pageAddr first + PGSIZE) (pa + PGSIZE)
        (setPte pages allocPage pgdir (pageAddr first) (pa ||| PTE_P ||| perm) s)
      rw [mapPages] at hfresh ⊢
      -- a page that was taken for a table was fresh
      have htaken : (setPte pages allocPage pgdir (pageAddr first)
          (pa ||| PTE_P ||| perm) s).calls = s.calls + 1 →
          FreshTable pages pgdir s.mem (allocPage s.calls) :=
        fun he => hfresh.table _ (Nat.le_refl _) (by omega)
      have hfirst : InPages first (n + 1) (pageAddr first) := by
        rw [InPages, toNat_pageAddr (by omega)]
        omega
      obtain ⟨hok, hslots, hentries⟩ := setPte_spec (pa ||| PTE_P ||| perm) hdir
        (hself _ hfirst) fun hno => htaken (getPte_calls_of_absent pages allocPage hno)
      rw [pageAddr_succ] at hfresh hcalls' ⊢
      generalize setPte pages allocPage pgdir (pageAddr first)
        (pa ||| PTE_P ||| perm) s = s₁ at *
      have hself₁ : ∀ i : Word, i.toNat < 1024 →
          (SelfMapped pgdir s₁.mem i ↔ SelfMapped pgdir s.mem i) :=
        fun i hi => (hslots i hi).selfMapped htaken
      refine RangeSet.cons hwrap ⟨hslots, hentries⟩
        (fun i hi => (hself₁ i hi).mp) hcalls.1 hcalls'.1
        (ih (by omega) hok (fun x hx => ?_) (hfresh.step hcalls.1 hslots))
      rw [hself₁ _ (PDX_lt x)]
      exact hself x ((inPages_succ _ _ _).mpr (.inr hx))

/-! ## The range -/

/-- The pages of `size` bytes at `la`, and the page of `la` if it lies inside
    one. -/
def pageCount (la size : Word) : Nat := (size.toNat + la.toNat % 4096 + 4095) / 4096

theorem toNat_ROUNDDOWN (a : Word) :
    (ROUNDDOWN a PGSIZE).toNat = a.toNat / 4096 * 4096 := by
  have hlt := a.isLt
  have hsize : PGSIZE.toNat = 4096 := rfl
  rw [ROUNDDOWN, BitVec.toNat_sub, BitVec.toNat_umod, hsize]
  omega

/-- Rounding down is taking the page. -/
theorem ROUNDDOWN_eq (a : Word) : ROUNDDOWN a PGSIZE = pageAddr (a.toNat / 4096) := by
  have hlt := a.isLt
  rw [← BitVec.toNat_inj, toNat_ROUNDDOWN, toNat_pageAddr (by omega), Nat.mul_comm]

theorem ROUNDDOWN_add (a : Word) : ROUNDDOWN a PGSIZE + PG_OFF a = a := by
  have hlt := a.isLt
  rw [← BitVec.toNat_inj, BitVec.toNat_add, toNat_ROUNDDOWN, toNat_PG_OFF]
  omega

theorem ROUNDDOWN_aligned (a : Word) : PageAligned (ROUNDDOWN a PGSIZE) := by
  rw [PageAligned, toNat_ROUNDDOWN]
  omega

/-- The `n` of `map_physical_memory`. -/
theorem toNat_count {la size : Word} (h : la.toNat + size.toNat ≤ 2 ^ 32 - 4096) :
    (ROUNDUP (size + PG_OFF la) PGSIZE / PGSIZE).toNat = pageCount la size := by
  have hsize : PGSIZE.toNat = 4096 := rfl
  have hsum : (size + PG_OFF la + PGSIZE - 1#32).toNat
      = size.toNat + la.toNat % 4096 + 4095 := by
    rw [BitVec.toNat_sub, BitVec.toNat_add, BitVec.toNat_add, toNat_PG_OFF, hsize,
      BitVec.toNat_ofNat]
    omega
  rw [BitVec.toNat_udiv, ROUNDUP, toNat_ROUNDDOWN, hsum, hsize, pageCount]
  omega

/-- The arguments of a call of `map_physical_memory`, and the directory and
    pages that it finds. -/
structure MapOk (pages : Word) (allocPage : Nat → Word)
    (pgdir la size pa perm : Word) (s : State) : Prop where
  offset : PG_OFF la = PG_OFF pa
  permLt : perm.toNat < 4096
  laEnd : la.toNat + size.toNat ≤ 2 ^ 32 - 4096
  paEnd : pa.toNat + size.toNat ≤ 2 ^ 32 - 4096
  dir : DirOk pgdir s.mem
  notSelf : ∀ x, InPages (la.toNat / 4096) (pageCount la size) x →
    ¬ SelfMapped pgdir s.mem (PDX x)
  fresh : Fresh pages allocPage pgdir s
    (mapPhysicalMemory pages allocPage pgdir la size pa perm s).calls

/-- `map_physical_memory` sets the entries of the range and no other. -/
theorem MapOk.rangeSet {la size pa perm : Word} {s : State}
    (h : MapOk pages allocPage pgdir la size pa perm s) :
    RangeSet pages allocPage pgdir perm (la.toNat / 4096) (pageCount la size)
      (ROUNDDOWN pa PGSIZE) s
      (mapPhysicalMemory pages allocPage pgdir la size pa perm s) := by
  have hfresh := h.fresh
  have hend := h.laEnd
  rw [mapPhysicalMemory, toNat_count h.laEnd, ROUNDDOWN_eq la] at hfresh ⊢
  refine mapPages_spec perm ?_ h.dir h.notSelf hfresh
  rw [pageCount]
  omega

/-- What an address translates to depends on its entry only. -/
theorem translate_congr {mem mem' : Word → Word} {cr3 x : Word}
    (h : pteAt mem' cr3 x = pteAt mem cr3 x) :
    translate mem' cr3 x = translate mem cr3 x := by
  rw [translate, translate, h]

/-- The entry made for `x` leads to the address as far from `pa` as `x` is
    from `la`. -/
theorem translate_range {mem : Word → Word} {la pa perm x : Word}
    (hoff : PG_OFF la = PG_OFF pa) (hperm : perm.toNat < 4096)
    (h : pteAt mem (PADDR pgdir) x = (ROUNDDOWN pa PGSIZE
      + (PTE_ADDR x - pageAddr (la.toNat / 4096))) ||| PTE_P ||| perm) :
    translate mem (PADDR pgdir) x = some (pa + (x - la), PTE_P ||| perm) := by
  have hbase : PageAligned (ROUNDDOWN pa PGSIZE
      + (PTE_ADDR x - pageAddr (la.toNat / 4096))) := by
    have h1 := ROUNDDOWN_aligned pa
    have h2 := PTE_ADDR_aligned x
    have h3 := ROUNDDOWN_aligned la
    rw [ROUNDDOWN_eq la] at h3
    rw [PageAligned] at h1 h2 h3 ⊢
    rw [BitVec.toNat_add, BitVec.toNat_sub]
    omega
  have hx : ROUNDDOWN x PGSIZE + PG_OFF x = x := ROUNDDOWN_add x
  rw [ROUNDDOWN_eq, ← PTE_ADDR_eq_pageAddr] at hx
  have hla := ROUNDDOWN_add la
  rw [ROUNDDOWN_eq, hoff] at hla
  have hpa := ROUNDDOWN_add pa
  rw [translate, h]
  rw [if_pos (present_or _ _), BitVec.or_assoc, PTE_ADDR_or hbase (flags_lt hperm),
    flagsOf_or hbase (flags_lt hperm)]
  congr 2
  calc ROUNDDOWN pa PGSIZE + (PTE_ADDR x - pageAddr (la.toNat / 4096)) + PG_OFF x
      = (ROUNDDOWN pa PGSIZE + PG_OFF pa) + ((PTE_ADDR x + PG_OFF x)
          - (pageAddr (la.toNat / 4096) + PG_OFF pa)) := by ring
    _ = pa + (x - la) := by rw [hpa, hx, hla]

/-- **WHAT IS MAPPED**: every address of the range translates to its place
    behind `pa`, and outside of the pages of the range all translations stay,
    but for the new tables, which show under a slot that holds the directory.
    The call in `pmm_init` maps all physical memory at its kernel addresses. -/
theorem map_physical_memory_spec (pages : Word) (allocPage : Nat → Word)
    (pgdir : Word) :
    (∀ la size pa perm s, MapOk pages allocPage pgdir la size pa perm s →
      let s' := mapPhysicalMemory pages allocPage pgdir la size pa perm s
      let first := la.toNat / 4096
      let count := pageCount la size
      (∀ x : Word, la.toNat ≤ x.toNat → x.toNat < la.toNat + size.toNat →
        translate s'.mem (PADDR pgdir) x = some (pa + (x - la), PTE_P ||| perm)) ∧
      (∀ x, ¬ InPages first count x → ¬ SelfMapped pgdir s.mem (PDX x) →
        translate s'.mem (PADDR pgdir) x = translate s.mem (PADDR pgdir) x) ∧
      ∀ x, SelfMapped pgdir s.mem (PDX x) →
        translate s'.mem (PADDR pgdir) x = translate s.mem (PADDR pgdir) x ∨
        (¬ Present (s.mem (slot pgdir (PTX x))) ∧
          (∃ y, InPages first count y ∧ PDX y = PTX x) ∧
          ∃ k, s.calls ≤ k ∧ k < s'.calls ∧ translate s'.mem (PADDR pgdir) x
            = some (page2pa pages (allocPage k) + PG_OFF x,
                PTE_U ||| PTE_W ||| PTE_P))) ∧
    ∀ s, DirOk pgdir s.mem →
      (∀ i : Word, i.toNat < 1024 → SelfMapped pgdir s.mem i → i = PDX VPT) →
      Fresh pages allocPage pgdir s
        (mapPhysicalMemory pages allocPage pgdir KERNBASE KMEMSIZE 0#32 PTE_W
          s).calls →
      ∀ p : Word, p.toNat < KMEMSIZE.toNat →
        translate (mapPhysicalMemory pages allocPage pgdir KERNBASE KMEMSIZE 0#32
          PTE_W s).mem (PADDR pgdir) (VADDR p) = some (p, PTE_P ||| PTE_W) := by
  -- the addresses of the range lie in its pages
  have hinside : ∀ la size pa perm s,
      MapOk pages allocPage pgdir la size pa perm s →
      ∀ x : Word, la.toNat ≤ x.toNat → x.toNat < la.toNat + size.toNat →
        translate (mapPhysicalMemory pages allocPage pgdir la size pa perm s).mem
          (PADDR pgdir) x = some (pa + (x - la), PTE_P ||| perm) := by
    intro la size pa perm s h x hle hlt
    have hin : InPages (la.toNat / 4096) (pageCount la size) x := by
      rw [InPages, pageCount]
      omega
    refine translate_range h.offset h.permLt ?_
    rw [h.rangeSet.entries x (h.notSelf x hin), if_pos hin]
  refine ⟨fun la size pa perm s h => ?_, fun s hdir hself hfresh p hp => ?_⟩
  · intro s' first count
    have hset := h.rangeSet
    refine ⟨hinside la size pa perm s h, fun x hout hx => ?_, fun x hx => ?_⟩
    · exact translate_congr ((hset.entries x hx).trans (if_neg hout))
    · -- the slot itself stays, so the entry of `x` is slot `PTX(x)`
      have hslot : s'.mem (slot pgdir (PDX x)) = s.mem (slot pgdir (PDX x)) := by
        rcases hset.slots _ (PDX_lt x) with he | ⟨hno, -⟩
        · exact he
        · exact absurd hx.1 hno
      obtain ⟨hpres, htab⟩ := selfMapped_iff.mp hx
      have hold : pteAt s.mem (PADDR pgdir) x = s.mem (slot pgdir (PTX x)) := by
        rw [pteAt_eq, if_pos hpres, htab]
      have hnew : pteAt s'.mem (PADDR pgdir) x = s'.mem (slot pgdir (PTX x)) := by
        rw [pteAt_eq, hslot, if_pos hpres, htab]
      rcases hset.slots _ (PTX_lt x) with he | ⟨hno, hy, k, hk, hk', he⟩
      · exact .inl (translate_congr ((hnew.trans he).trans hold.symm))
      · refine .inr ⟨hno, hy, k, hk, hk', ?_⟩
        rw [translate, hnew, he, if_pos (tableEntry_present _ _), PTE_ADDR_tableEntry,
          flagsOf_tableEntry]
  · -- the range ends below the addresses that `VPT` is for
    have hk : KERNBASE.toNat = 0xC0000000 := rfl
    have hm : KMEMSIZE.toNat = 0x38000000 := rfl
    have hv : (VADDR p).toNat = p.toNat + 0xC0000000 := by
      rw [VADDR, BitVec.toNat_add, hk]
      omega
    have hok : MapOk pages allocPage pgdir KERNBASE KMEMSIZE 0#32 PTE_W s := by
      refine ⟨by decide, by decide, by decide, by decide, hdir, ?_, hfresh⟩
      intro x hx hs
      have hvpt : (PDX VPT).toNat = 1003 := by decide
      have hdx := congrArg BitVec.toNat (hself _ (PDX_lt x) hs)
      rw [hvpt, toNat_PDX] at hdx
      rw [InPages, pageCount, hk, hm] at hx
      omega
    rw [hinside _ _ _ _ s hok (VADDR p) (by omega) (by omega), VADDR,
      BitVec.add_sub_cancel, BitVec.zero_add]

/-! ## The table that shows at `VPT` -/

theorem page2pa_demoAlloc {k : Nat} (hk : k < 0x38000) :
    (page2pa demoPages (demoAlloc k)).toNat = 4096 * (0x600 + k) := by
  have hn : (0x600#32 + BitVec.ofNat 32 k).toNat = 0x600 + k := by
    rw [BitVec.toNat_add, BitVec.toNat_ofNat, BitVec.toNat_ofNat]
    omega
  rw [demoAlloc, page2pa_pageAt demoPages (by omega), BitVec.toNat_shiftLeft, hn,
    Nat.shiftLeft_eq]
  omega

/-- The two entries of the directory. -/
theorem demoSelf_slots {i : Word} (hi : i.toNat < 1024)
    (hp : Present (demoSelf.mem (slot demoDir i))) : i = PDX VPT ∨ i = 0#32 := by
  have halign : PageAligned demoDir := by decide
  by_contra hno
  obtain ⟨h1, h2⟩ := not_or.mp hno
  have hslot : ∀ j : Word, j.toNat < 1024 → i ≠ j → slot demoDir i ≠ slot demoDir j :=
    fun j hj hij he => hij (slot_inj halign halign hi hj he).2
  have hzero : demoSelf.mem (slot demoDir i) = 0#32 :=
    (Function.update_of_ne (hslot _ (PDX_lt VPT) h1) _ _).trans
      (Function.update_of_ne (hslot 0#32 (by decide) h2) _ _)
  rw [hzero] at hp
  exact not_present_zero hp

theorem demoSelf_tables :
    tableOf (demoSelf.mem (slot demoDir (PDX VPT))) = demoDir ∧
      tableOf (demoSelf.mem (slot demoDir 0#32)) = 0xC0400000#32 := by
  decide +kernel

theorem demoSelf_dirOk : DirOk demoDir demoSelf.mem := by
  obtain ⟨hvpt, hzero⟩ := demoSelf_tables
  refine ⟨by decide, fun i j hi hj hpi hpj heq => ?_⟩
  rcases demoSelf_slots hi hpi with rfl | rfl
  · exact .inr hvpt
  · rcases demoSelf_slots hj hpj with rfl | rfl
    · rw [hzero, hvpt] at heq
      exact absurd heq (by decide)
    · exact .inl rfl

theorem demoSelf_fresh {stop : Nat} (hstop : stop ≤ 0x38000) :
    Fresh demoPages demoAlloc demoDir demoSelf stop := by
  obtain ⟨hvpt, hzero⟩ := demoSelf_tables
  have hpage : ∀ k < stop, ∀ t : Word, t.toNat < 0xC0600000 →
      VADDR (page2pa demoPages (demoAlloc k)) ≠ t := by
    intro k hk t ht he
    rw [← he, VADDR, BitVec.toNat_add, page2pa_demoAlloc (by omega),
      show KERNBASE.toNat = 0xC0000000 from rfl] at ht
    omega
  refine ⟨fun k _ hk => ⟨hpage k hk _ (by decide), fun i hi hp => ?_⟩,
    fun j k _ hjk hk he => ?_⟩
  · rcases demoSelf_slots hi hp with rfl | rfl
    · rw [hvpt]
      exact (hpage k hk _ (by decide)).symm
    · rw [hzero]
      exact (hpage k hk _ (by decide)).symm
  · have hnat := congrArg BitVec.toNat he
    rw [page2pa_demoAlloc (by omega), page2pa_demoAlloc (by omega)] at hnat
    omega

theorem demoSelf_only {i : Word} (hi : i.toNat < 1024)
    (hs : SelfMapped demoDir demoSelf.mem i) : i = PDX VPT := by
  rcases demoSelf_slots hi hs.1 with rfl | rfl
  · rfl
  · rw [selfMapped_iff, demoSelf_tables.2] at hs
    exact absurd hs.2 (by decide)

/-- The first page of physical memory, at its kernel address. -/
theorem demoSelf_mapOk : MapOk demoPages demoAlloc demoDir KERNBASE PGSIZE 0#32
    PTE_W demoSelf := by
  refine ⟨by decide, by decide, by decide, by decide, demoSelf_dirOk, ?_, ?_⟩
  · intro x hx hs
    have hdx := congrArg BitVec.toNat (demoSelf_only (PDX_lt x) hs)
    rw [toNat_PDX, show (PDX VPT).toNat = 1003 by decide] at hdx
    have hcount : pageCount KERNBASE PGSIZE = 1 := by decide
    have hk : KERNBASE.toNat = 0xC0000000 := rfl
    rw [InPages, hcount, hk] at hx
    omega
  · refine demoSelf_fresh ?_
    have hcalls := (mapPages_calls demoPages demoAlloc demoDir PTE_W
      (ROUNDUP (PGSIZE + PG_OFF KERNBASE) PGSIZE / PGSIZE).toNat
      (ROUNDDOWN KERNBASE PGSIZE) (ROUNDDOWN 0#32 PGSIZE) demoSelf).2
    have hn : (ROUNDUP (PGSIZE + PG_OFF KERNBASE) PGSIZE / PGSIZE).toNat = 1 := by
      decide
    rw [hn, show demoSelf.calls = 0 from rfl] at hcalls
    rw [mapPhysicalMemory, hn]
    omega

/-- All translations outside of the pages of the range stay. -/
def KeepsOthers (pgdir la size : Word) (s s' : State) : Prop :=
  ∀ x, ¬ InPages (la.toNat / 4096) (pageCount la size) x →
    translate s'.mem (PADDR pgdir) x = translate s.mem (PADDR pgdir) x

/-- Mapping the first page makes a table, and `vpt` shows it at
    `0xFAF00000`. -/
theorem not_keepsOthers :
    MapOk demoPages demoAlloc demoDir KERNBASE PGSIZE 0#32 PTE_W demoSelf ∧
    ¬ KeepsOthers demoDir KERNBASE PGSIZE demoSelf
      (mapPhysicalMemory demoPages demoAlloc demoDir KERNBASE PGSIZE 0#32 PTE_W
        demoSelf) := by
  refine ⟨demoSelf_mapOk, fun h => ?_⟩
  have hsame := h 0xFAF00000#32 (by decide)
  revert hsame
  decide +kernel

/-- Both parts, from the directory above. -/
theorem map_physical_memory_spec_demo :
    translate (mapPhysicalMemory demoPages demoAlloc demoDir KERNBASE PGSIZE 0#32
      PTE_W demoSelf).mem (PADDR demoDir) 0xC0000123#32
      = some (0x123#32, PTE_P ||| PTE_W) ∧
    translate (mapPhysicalMemory demoPages demoAlloc demoDir KERNBASE KMEMSIZE 0#32
      PTE_W demoSelf).mem (PADDR demoDir) (VADDR 0x12345678#32)
      = some (0x12345678#32, PTE_P ||| PTE_W) := by
  obtain ⟨hrange, hall⟩ := map_physical_memory_spec demoPages demoAlloc demoDir
  refine ⟨(hrange _ _ _ _ _ demoSelf_mapOk).1 0xC0000123#32 (by decide)
    (by decide), ?_⟩
  refine hall demoSelf demoSelf_dirOk (fun i hi hs => demoSelf_only hi hs)
    (demoSelf_fresh ?_) _ (by decide)
  have hcalls := (mapPages_calls demoPages demoAlloc demoDir PTE_W
    (ROUNDUP (KMEMSIZE + PG_OFF KERNBASE) PGSIZE / PGSIZE).toNat
    (ROUNDDOWN KERNBASE PGSIZE) (ROUNDDOWN 0#32 PGSIZE) demoSelf).2
  have hn : (ROUNDUP (KMEMSIZE + PG_OFF KERNBASE) PGSIZE / PGSIZE).toNat
      = 0x38000 := by decide
  rw [hn, show demoSelf.calls = 0 from rfl] at hcalls
  rw [mapPhysicalMemory, hn]
  omega

end SharixPaging
