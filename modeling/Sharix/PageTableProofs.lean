import Sharix.RunProofs
import Sharix.PagingProofs

/-! # The two-level page table — `get_pte`, `page_insert`, `page_remove`

    Memory is read and written by 32-bit words; `memset` clears the words of a
    page.  `allocPage k` is the outcome of the `k`-th call of `alloc_page`,
    and the state counts the calls.  `tlb_invalidate` changes no memory.

    `walk` translates an address through a directory.  `WF` says that no two
    present directory entries share a table and that no table is the
    directory; under it the slots that different pages resolve to are
    different words, so a write through one changes one translation. -/

namespace SharixPaging

open SharixRun

/-- Memory, and the number of `alloc_page` calls made so far. -/
structure State where
  mem : Word → Word
  calls : Nat

/-- `memset(dst, 0, n)`. -/
def memset (mem : Word → Word) (dst n : Word) : Word → Word :=
  fun a => if a - dst < n then 0#32 else mem a

/-- The table that a directory entry points to, as the kernel sees it. -/
def tableOf (pde : Word) : Word := VADDR (PDE_ADDR pde)

section Operations

variable (pages : Word) (allocPage : Nat → Word)

/-- The pointer to the entry of `la`; a missing table is allocated, whatever
    `alloc_page` answers. -/
def getPte (pgdir la : Word) (s : State) : Word × State :=
  let pde_p := slot pgdir (PDX la)
  let s :=
    if s.mem pde_p &&& PTE_P = 0#32 then
      let page := allocPage s.calls
      let pa := page2pa pages page
      let mem := memset s.mem (VADDR pa) PGSIZE
      let mem := Function.update mem pde_p (pa ||| PTE_U ||| PTE_W ||| PTE_P)
      { mem := mem, calls := s.calls + 1 }
    else s
  (slot (tableOf (s.mem pde_p)) (PTX la), s)

def getPage (pgdir la : Word) (s : State) : Word × State :=
  let r := getPte pages allocPage pgdir la s
  if r.1 ≠ 0#32 ∧ r.2.mem r.1 &&& PTE_P ≠ 0#32 then
    (pa2page pages (r.2.mem r.1), r.2)
  else (0#32, r.2)

def pageRemovePte (pte_p : Word) (s : State) : State :=
  if s.mem pte_p &&& PTE_P ≠ 0#32 then
    { s with mem := Function.update s.mem pte_p 0#32 }
  else s

def pageRemove (pgdir la : Word) (s : State) : State :=
  let r := getPte pages allocPage pgdir la s
  if r.1 ≠ 0#32 then pageRemovePte r.1 r.2 else r.2

/-- The result of `page_insert` is always 0. -/
def pageInsert (pgdir page la perm : Word) (s : State) : State :=
  let r := getPte pages allocPage pgdir la s
  let s :=
    if r.2.mem r.1 ≠ 0#32 then
      if pte2page pages (r.2.mem r.1) ≠ page then pageRemovePte r.1 r.2
      else r.2
    else r.2
  { s with mem := Function.update s.mem r.1 (page2pa pages page ||| PTE_P ||| perm) }

end Operations

/-! ## Translation -/

/-- The page and the flags that an entry stands for. -/
def entryOf (pages pte : Word) : Option (Word × Word) :=
  if pte &&& PTE_P ≠ 0#32 then some (pte2page pages pte, flagsOf pte) else none

/-- The page of an entry, and `NULL` where nothing is mapped. -/
def mappedPage : Option (Word × Word) → Word
  | some e => e.1
  | none => 0#32

/-- The entry of `la` in the table of a present directory entry. -/
def walk (pages pgdir : Word) (mem : Word → Word) (la : Word) :
    Option (Word × Word) :=
  let pde := mem (slot pgdir (PDX la))
  if pde &&& PTE_P ≠ 0#32 then
    entryOf pages (mem (slot (tableOf pde) (PTX la)))
  else none

/-- No two present entries of the directory share a table, no table is the
    directory, and none lies at address 0. -/
structure WF (pgdir : Word) (mem : Word → Word) : Prop where
  aligned : PageAligned pgdir
  notDir : ∀ i : Word, i.toNat < 1024 → Present (mem (slot pgdir i)) →
    tableOf (mem (slot pgdir i)) ≠ pgdir
  nonNull : ∀ i : Word, i.toNat < 1024 → Present (mem (slot pgdir i)) →
    tableOf (mem (slot pgdir i)) ≠ 0#32
  distinct : ∀ i j : Word, i.toNat < 1024 → j.toNat < 1024 →
    Present (mem (slot pgdir i)) → Present (mem (slot pgdir j)) →
    tableOf (mem (slot pgdir i)) = tableOf (mem (slot pgdir j)) → i = j

/-- `alloc_page` answers a page of physical memory that is neither the
    directory nor one of its tables.  `page_init` manages pages below
    `KMEMSIZE` only, which are `0x38000` pages. -/
structure GoodPage (pages pgdir : Word) (mem : Word → Word) (page : Word) :
    Prop where
  managed : ∃ n : Word, n.toNat < 0x38000 ∧ page = pageAt pages n
  notDir : VADDR (page2pa pages page) ≠ pgdir
  notTable : ∀ i : Word, i.toNat < 1024 → Present (mem (slot pgdir i)) →
    tableOf (mem (slot pgdir i)) ≠ VADDR (page2pa pages page)

/-- If `get_pte` on `la` needs a table, `alloc_page` answers a good page. -/
def TableOk (pages : Word) (allocPage : Nat → Word) (pgdir la : Word)
    (s : State) : Prop :=
  ¬ Present (s.mem (slot pgdir (PDX la))) →
    GoodPage pages pgdir s.mem (allocPage s.calls)

theorem tableOf_aligned (pde : Word) : PageAligned (tableOf pde) :=
  VADDR_aligned (PTE_ADDR_aligned pde)

/-- The kernel address of a page below `KMEMSIZE` is not 0. -/
theorem GoodPage.ne_zero {pages pgdir page : Word} {mem : Word → Word}
    (h : GoodPage pages pgdir mem page) : VADDR (page2pa pages page) ≠ 0#32 := by
  obtain ⟨n, hn, rfl⟩ := h.managed
  rw [page2pa_pageAt pages (by omega), VADDR, KERNBASE, ne_eq,
    ← BitVec.toNat_inj, BitVec.toNat_add, BitVec.toNat_shiftLeft,
    Nat.shiftLeft_eq]
  simp only [BitVec.toNat_ofNat]
  omega

theorem slot_ne_zero {t i : Word} (ht : PageAligned t) (hi : i.toNat < 1024)
    (h : t ≠ 0#32) : slot t i ≠ 0#32 := by
  intro he
  refine h ?_
  rw [← BitVec.toNat_inj, toNat_slot ht hi, BitVec.toNat_zero] at he
  rw [← BitVec.toNat_inj, BitVec.toNat_zero]
  omega

/-- A present directory entry's table and the slot of `la` in it. -/
theorem WF.slot_ne_dir {pgdir : Word} {mem : Word → Word} (h : WF pgdir mem)
    {i j k : Word} (hi : i.toNat < 1024) (hj : j.toNat < 1024)
    (hk : k.toNat < 1024) (hp : Present (mem (slot pgdir i))) :
    slot (tableOf (mem (slot pgdir i))) j ≠ slot pgdir k :=
  fun he => h.notDir i hi hp (slot_inj (tableOf_aligned _) h.aligned hj hk he).1

/-- The words that the pages of present directory entries resolve to are
    different for different pages. -/
theorem WF.slot_eq_iff {pgdir : Word} {mem : Word → Word} (h : WF pgdir mem)
    {la lb : Word} (ha : Present (mem (slot pgdir (PDX la))))
    (hb : Present (mem (slot pgdir (PDX lb)))) :
    slot (tableOf (mem (slot pgdir (PDX la)))) (PTX la)
        = slot (tableOf (mem (slot pgdir (PDX lb)))) (PTX lb) ↔
      PPN la = PPN lb := by
  rw [PPN_eq_iff]
  constructor
  · intro he
    obtain ⟨ht, hx⟩ := slot_inj (tableOf_aligned _) (tableOf_aligned _)
      (PTX_lt la) (PTX_lt lb) he
    exact ⟨h.distinct _ _ (PDX_lt la) (PDX_lt lb) ha hb ht, hx⟩
  · rintro ⟨h1, h2⟩
    rw [h1, h2]

/-- A write through the slot of `la` changes the translation of its page
    only. -/
theorem WF.write (pages : Word) {pgdir : Word} {mem mem' : Word → Word}
    (h : WF pgdir mem) {la v : Word}
    (hp : Present (mem (slot pgdir (PDX la))))
    (hm : mem' = Function.update mem
      (slot (tableOf (mem (slot pgdir (PDX la)))) (PTX la)) v) :
    (∀ i : Word, i.toNat < 1024 → mem' (slot pgdir i) = mem (slot pgdir i)) ∧
    WF pgdir mem' ∧
    ∀ lb, walk pages pgdir mem' lb
      = if PPN lb = PPN la then entryOf pages v else walk pages pgdir mem lb := by
  have hdir : ∀ i : Word, i.toNat < 1024 →
      mem' (slot pgdir i) = mem (slot pgdir i) := by
    intro i hi
    rw [hm]
    exact Function.update_of_ne
      (h.slot_ne_dir (PDX_lt la) (PTX_lt la) hi hp).symm _ _
  refine ⟨hdir, ⟨h.aligned, ?_, ?_, ?_⟩, ?_⟩
  · intro i hi
    rw [hdir i hi]
    exact h.notDir i hi
  · intro i hi
    rw [hdir i hi]
    exact h.nonNull i hi
  · intro i j hi hj
    rw [hdir i hi, hdir j hj]
    exact h.distinct i j hi hj
  · intro lb
    rw [walk, walk, hdir _ (PDX_lt lb)]
    by_cases hb : Present (mem (slot pgdir (PDX lb)))
    · rw [if_pos hb, if_pos hb]
      by_cases he : PPN lb = PPN la
      · rw [if_pos he, (h.slot_eq_iff hb hp).mpr he, hm, Function.update_self]
      · rw [if_neg he, hm, Function.update_of_ne]
        exact fun hs => he ((h.slot_eq_iff hb hp).mp hs)
    · rw [if_neg hb, if_neg hb, if_neg]
      intro he
      rw [((PPN_eq_iff lb la).mp he).1] at hb
      exact hb hp

/-! ### A new table

    The page at `F` is cleared and `e` becomes the entry of `la`. -/

section NewTable

variable {pgdir F la e : Word} {mem : Word → Word}

theorem addTable_dir (hd : PageAligned pgdir) (hF : PageAligned F)
    (hne : F ≠ pgdir) {i : Word} (hi : i.toNat < 1024) :
    Function.update (memset mem F PGSIZE) (slot pgdir (PDX la)) e (slot pgdir i)
      = if i = PDX la then e else mem (slot pgdir i) := by
  by_cases he : i = PDX la
  · rw [if_pos he, he]
    exact Function.update_self ..
  · rw [if_neg he]
    have hslot : slot pgdir i ≠ slot pgdir (PDX la) :=
      fun hs => he (slot_inj hd hd hi (PDX_lt la) hs).2
    refine (Function.update_of_ne hslot _ _).trans (if_neg fun hin => ?_)
    exact hne ((slot_mem_page hd hF hi).mp hin).symm

theorem addTable_cleared (hd : PageAligned pgdir) (hF : PageAligned F)
    (hne : F ≠ pgdir) {i : Word} (hi : i.toNat < 1024) :
    Function.update (memset mem F PGSIZE) (slot pgdir (PDX la)) e (slot F i)
      = 0#32 := by
  have hslot : slot F i ≠ slot pgdir (PDX la) :=
    fun hs => hne (slot_inj hF hd hi (PDX_lt la) hs).1
  exact (Function.update_of_ne hslot _ _).trans
    (if_pos ((slot_mem_page hF hF hi).mpr rfl))

/-- The words of the other tables stay. -/
theorem addTable_table (hd : PageAligned pgdir) (hF : PageAligned F)
    {T i : Word} (hT : PageAligned T) (hTd : T ≠ pgdir) (hTF : T ≠ F)
    (hi : i.toNat < 1024) :
    Function.update (memset mem F PGSIZE) (slot pgdir (PDX la)) e (slot T i)
      = mem (slot T i) := by
  have hslot : slot T i ≠ slot pgdir (PDX la) :=
    fun hs => hTd (slot_inj hT hd hi (PDX_lt la) hs).1
  refine (Function.update_of_ne hslot _ _).trans (if_neg fun hin => ?_)
  exact hTF ((slot_mem_page hT hF hi).mp hin)

end NewTable

/-- A new table, cleared and entered in the directory, changes no
    translation. -/
theorem WF.addTable {pages pgdir page la : Word} {mem : Word → Word}
    (h : WF pgdir mem) (hla : ¬ Present (mem (slot pgdir (PDX la))))
    (hg : GoodPage pages pgdir mem page) :
    let pa := page2pa pages page
    let mem' := Function.update (memset mem (VADDR pa) PGSIZE)
      (slot pgdir (PDX la)) (pa ||| PTE_U ||| PTE_W ||| PTE_P)
    Present (mem' (slot pgdir (PDX la))) ∧
    (∀ i : Word, i.toNat < 1024 → i ≠ PDX la →
      mem' (slot pgdir i) = mem (slot pgdir i)) ∧
    WF pgdir mem' ∧
    ∀ lb, walk pages pgdir mem' lb = walk pages pgdir mem lb := by
  intro pa mem'
  have hF : PageAligned (VADDR pa) := VADDR_aligned (page2pa_aligned _ _)
  -- words of the directory other than the new entry are not touched
  have hdir : ∀ i : Word, i.toNat < 1024 → i ≠ PDX la →
      mem' (slot pgdir i) = mem (slot pgdir i) :=
    fun i hi hne => (addTable_dir h.aligned hF hg.notDir hi).trans (if_neg hne)
  have hnew : mem' (slot pgdir (PDX la)) = pa ||| PTE_U ||| PTE_W ||| PTE_P :=
    Function.update_self ..
  have hpres : Present (mem' (slot pgdir (PDX la))) := by
    rw [hnew, present_iff, BitVec.getLsbD_or, PTE_P]
    simp
  have htab : tableOf (mem' (slot pgdir (PDX la))) = VADDR pa := by
    rw [hnew, tableOf, PDE_ADDR, BitVec.or_assoc, BitVec.or_assoc,
      PTE_ADDR_or (page2pa_aligned _ _) (by decide)]
  -- a present entry is the new one or an old one
  have hcase : ∀ i : Word, i.toNat < 1024 → Present (mem' (slot pgdir i)) →
      i = PDX la ∨ i ≠ PDX la ∧ mem' (slot pgdir i) = mem (slot pgdir i) ∧
        Present (mem (slot pgdir i)) := by
    intro i hi hp
    by_cases hne : i = PDX la
    · exact Or.inl hne
    · refine Or.inr ⟨hne, hdir i hi hne, ?_⟩
      rwa [hdir i hi hne] at hp
  refine ⟨hpres, hdir, ⟨h.aligned, ?_, ?_, ?_⟩, ?_⟩
  · intro i hi hp
    rcases hcase i hi hp with rfl | ⟨-, heq, hold⟩
    · rw [htab]
      exact hg.notDir
    · rw [heq]
      exact h.notDir i hi hold
  · intro i hi hp
    rcases hcase i hi hp with rfl | ⟨-, heq, hold⟩
    · rw [htab]
      exact hg.ne_zero
    · rw [heq]
      exact h.nonNull i hi hold
  · intro i j hi hj hpi hpj heq
    rcases hcase i hi hpi with rfl | ⟨-, hei, holdi⟩
    · rcases hcase j hj hpj with rfl | ⟨-, hej, holdj⟩
      · rfl
      · rw [htab, hej] at heq
        exact absurd heq.symm (hg.notTable j hj holdj)
    · rcases hcase j hj hpj with rfl | ⟨-, hej, holdj⟩
      · rw [htab, hei] at heq
        exact absurd heq (hg.notTable i hi holdi)
      · rw [hei, hej] at heq
        exact h.distinct i j hi hj holdi holdj heq
  · intro lb
    rw [walk, walk]
    by_cases hd : PDX lb = PDX la
    · rw [hd, if_pos hpres, if_neg hla, htab]
      have hzero : mem' (slot (VADDR pa) (PTX lb)) = 0#32 :=
        addTable_cleared h.aligned hF hg.notDir (PTX_lt lb)
      rw [hzero, entryOf, if_neg not_present_zero]
    · rw [hdir _ (PDX_lt lb) hd]
      by_cases hp : Present (mem (slot pgdir (PDX lb)))
      · rw [if_pos hp, if_pos hp]
        exact congrArg _ (addTable_table h.aligned hF (tableOf_aligned _)
          (h.notDir _ (PDX_lt lb) hp) (hg.notTable _ (PDX_lt lb) hp) (PTX_lt lb))
      · rw [if_neg hp, if_neg hp]

/-! ## Each operation -/

section Specs

variable {pages : Word} {allocPage : Nat → Word} {pgdir : Word}

variable (pages allocPage pgdir) in
theorem getPte_present (la : Word) (s : State) :
    Present ((getPte pages allocPage pgdir la s).2.mem (slot pgdir (PDX la))) := by
  by_cases hp : Present (s.mem (slot pgdir (PDX la)))
  · rw [show (getPte pages allocPage pgdir la s).2 = s from if_neg hp]
    exact hp
  · rw [show (getPte pages allocPage pgdir la s).2 = _ from if_pos (not_not.mp hp)]
    dsimp only
    rw [Function.update_self, present_iff, BitVec.getLsbD_or, PTE_P]
    simp

/-- A present table needs no call. -/
theorem getPte_of_present {la : Word} {s : State}
    (hp : Present (s.mem (slot pgdir (PDX la)))) :
    (getPte pages allocPage pgdir la s).2 = s := if_neg hp

variable (pages allocPage) in
theorem getPte_calls_of_absent {la : Word} {s : State}
    (hp : ¬ Present (s.mem (slot pgdir (PDX la)))) :
    (getPte pages allocPage pgdir la s).2.calls = s.calls + 1 := by
  rw [show (getPte pages allocPage pgdir la s).2 = _ from if_pos (not_not.mp hp)]

variable (pages allocPage pgdir) in
theorem getPte_calls_le (la : Word) (s : State) :
    s.calls ≤ (getPte pages allocPage pgdir la s).2.calls ∧
      (getPte pages allocPage pgdir la s).2.calls ≤ s.calls + 1 := by
  by_cases hp : Present (s.mem (slot pgdir (PDX la)))
  · rw [getPte_of_present hp]
    exact ⟨Nat.le_refl _, Nat.le_succ _⟩
  · rw [getPte_calls_of_absent pages allocPage hp]
    exact ⟨Nat.le_succ _, Nat.le_refl _⟩

/-- `get_pte` returns the slot of `la` in a present table, and changes no
    translation and no entry that was present. -/
theorem getPte_spec {la : Word} {s : State} (h : WF pgdir s.mem)
    (hok : TableOk pages allocPage pgdir la s) :
    let r := getPte pages allocPage pgdir la s
    WF pgdir r.2.mem ∧ Present (r.2.mem (slot pgdir (PDX la))) ∧
    r.1 = slot (tableOf (r.2.mem (slot pgdir (PDX la)))) (PTX la) ∧
    (∀ i : Word, i.toNat < 1024 → Present (s.mem (slot pgdir i)) →
      r.2.mem (slot pgdir i) = s.mem (slot pgdir i)) ∧
    ∀ lb, walk pages pgdir r.2.mem lb = walk pages pgdir s.mem lb := by
  intro r
  by_cases hp : Present (s.mem (slot pgdir (PDX la)))
  · have hr : r.2 = s := if_neg hp
    have hr1 : r.1 = slot (tableOf (r.2.mem (slot pgdir (PDX la)))) (PTX la) := rfl
    rw [hr1, hr]
    exact ⟨h, hp, rfl, fun _ _ _ => rfl, fun _ => rfl⟩
  · have hr : r.2 = _ := if_pos (not_not.mp hp)
    have hr1 : r.1 = slot (tableOf (r.2.mem (slot pgdir (PDX la)))) (PTX la) := rfl
    obtain ⟨h1, h2, h3, h4⟩ := h.addTable hp (hok hp)
    rw [hr1, hr]
    refine ⟨h3, h1, rfl, ?_, h4⟩
    intro i hi hpi
    exact h2 i hi fun he => hp (he ▸ hpi)

/-- The pointer `get_pte` returns is not `NULL`. -/
theorem getPte_ne_null {la : Word} {s : State} (h : WF pgdir s.mem)
    (hok : TableOk pages allocPage pgdir la s) :
    (getPte pages allocPage pgdir la s).1 ≠ 0#32 := by
  obtain ⟨hwf, hp, hptr, -, -⟩ := getPte_spec h hok
  rw [hptr]
  exact slot_ne_zero (tableOf_aligned _) (PTX_lt la)
    (hwf.nonNull _ (PDX_lt la) hp)

/-- The word that `get_pte` points to decides the translation of `la`. -/
theorem getPte_walk {la : Word} {s : State} (h : WF pgdir s.mem)
    (hok : TableOk pages allocPage pgdir la s) :
    let r := getPte pages allocPage pgdir la s
    walk pages pgdir s.mem la = entryOf pages (r.2.mem r.1) := by
  intro r
  obtain ⟨-, hp, hptr, -, hwalk⟩ := getPte_spec h hok
  rw [← hwalk la, walk, if_pos hp, hptr]

/-- `get_page` answers the page that `la` translates to, or `NULL`. -/
theorem getPage_spec {la : Word} {s : State} (h : WF pgdir s.mem)
    (hok : TableOk pages allocPage pgdir la s) :
    (getPage pages allocPage pgdir la s).2
        = (getPte pages allocPage pgdir la s).2 ∧
    (getPage pages allocPage pgdir la s).1
      = mappedPage (walk pages pgdir s.mem la) := by
  have hnull := getPte_ne_null h hok
  rw [getPte_walk h hok, entryOf, getPage]
  by_cases hp : Present ((getPte pages allocPage pgdir la s).2.mem
      (getPte pages allocPage pgdir la s).1)
  · rw [if_pos ⟨hnull, hp⟩, if_pos hp]
    exact ⟨rfl, pa2page_eq_pte2page _ _⟩
  · rw [if_neg (fun hc => hp hc.2), if_neg hp]
    exact ⟨rfl, rfl⟩

/-- Clearing the entry of `la`, if it is present, takes its translation
    away. -/
theorem pageRemovePte_spec (pages : Word) {la pte_p : Word} {s : State}
    (h : WF pgdir s.mem) (hp : Present (s.mem (slot pgdir (PDX la))))
    (hptr : pte_p = slot (tableOf (s.mem (slot pgdir (PDX la)))) (PTX la)) :
    let s' := pageRemovePte pte_p s
    (∀ i : Word, i.toNat < 1024 → s'.mem (slot pgdir i) = s.mem (slot pgdir i)) ∧
    WF pgdir s'.mem ∧
    ∀ lb, walk pages pgdir s'.mem lb
      = if PPN lb = PPN la then none else walk pages pgdir s.mem lb := by
  intro s'
  by_cases hpte : Present (s.mem pte_p)
  · have hs : s' = { s with mem := Function.update s.mem pte_p 0#32 } := if_pos hpte
    have hm : s'.mem = Function.update s.mem
        (slot (tableOf (s.mem (slot pgdir (PDX la)))) (PTX la)) 0#32 := by
      rw [hs, hptr]
    obtain ⟨h1, h2, h3⟩ := h.write pages hp hm
    refine ⟨h1, h2, ?_⟩
    intro lb
    rw [h3 lb, entryOf, if_neg not_present_zero]
  · have hs : s' = s := if_neg hpte
    rw [hs]
    refine ⟨fun _ _ => rfl, h, ?_⟩
    intro lb
    by_cases he : PPN lb = PPN la
    · obtain ⟨h1, h2⟩ := (PPN_eq_iff lb la).mp he
      rw [if_pos he, walk, h1, if_pos hp, h2, ← hptr, entryOf, if_neg hpte]
    · rw [if_neg he]

/-- `page_remove` deletes the translation of `la`'s page only. -/
theorem pageRemove_spec {la : Word} {s : State} (h : WF pgdir s.mem)
    (hok : TableOk pages allocPage pgdir la s) :
    let s' := pageRemove pages allocPage pgdir la s
    WF pgdir s'.mem ∧ ∀ lb, walk pages pgdir s'.mem lb
      = if PPN lb = PPN la then none else walk pages pgdir s.mem lb := by
  intro s'
  have hs : s' = pageRemovePte (getPte pages allocPage pgdir la s).1
      (getPte pages allocPage pgdir la s).2 := if_pos (getPte_ne_null h hok)
  obtain ⟨hwf, hp, hptr, -, hwalk⟩ := getPte_spec h hok
  obtain ⟨-, h2, h3⟩ := pageRemovePte_spec pages hwf hp hptr
  rw [hs]
  refine ⟨h2, ?_⟩
  intro lb
  rw [h3 lb, hwalk lb]

/-- `page_insert` sets the translation of `la`'s page only, whatever it was. -/
theorem pageInsert_spec {page la perm : Word} {s : State}
    (h : WF pgdir s.mem) (hok : TableOk pages allocPage pgdir la s)
    (hpage : IsPage pages page) (hperm : perm.toNat < 4096) :
    let s' := pageInsert pages allocPage pgdir page la perm s
    WF pgdir s'.mem ∧ ∀ lb, walk pages pgdir s'.mem lb
      = if PPN lb = PPN la then some (page, PTE_P ||| perm)
        else walk pages pgdir s.mem lb := by
  intro s'
  let r := getPte pages allocPage pgdir la s
  obtain ⟨hwf, hp, hptr, -, hwalk⟩ := getPte_spec h hok
  -- the entry found is kept or removed before the new one is written
  obtain ⟨s₁, hs', hdir₁, hwf₁, hwalk₁⟩ : ∃ s₁ : State,
      s' = { s₁ with
        mem := Function.update s₁.mem r.1 (page2pa pages page ||| PTE_P ||| perm) } ∧
      (∀ i : Word, i.toNat < 1024 →
        s₁.mem (slot pgdir i) = r.2.mem (slot pgdir i)) ∧
      WF pgdir s₁.mem ∧
      ∀ lb, PPN lb ≠ PPN la →
        walk pages pgdir s₁.mem lb = walk pages pgdir r.2.mem lb := by
    refine ⟨_, rfl, ?_⟩
    have hkeep : (∀ i : Word, i.toNat < 1024 →
        r.2.mem (slot pgdir i) = r.2.mem (slot pgdir i)) ∧ WF pgdir r.2.mem ∧
        ∀ lb, PPN lb ≠ PPN la →
          walk pages pgdir r.2.mem lb = walk pages pgdir r.2.mem lb :=
      ⟨fun _ _ => rfl, hwf, fun _ _ => rfl⟩
    split
    · split
      · obtain ⟨h1, h2, h3⟩ := pageRemovePte_spec pages hwf hp hptr
        refine ⟨h1, h2, ?_⟩
        intro lb hlb
        rw [h3 lb, if_neg hlb]
      · exact hkeep
    · exact hkeep
  have hm : s'.mem = Function.update s₁.mem
      (slot (tableOf (s₁.mem (slot pgdir (PDX la)))) (PTX la))
      (page2pa pages page ||| PTE_P ||| perm) := by
    rw [hdir₁ _ (PDX_lt la), hs']
    exact congrArg (fun p => Function.update s₁.mem p _) hptr
  have hp₁ : Present (s₁.mem (slot pgdir (PDX la))) := by
    rw [hdir₁ _ (PDX_lt la)]
    exact hp
  obtain ⟨-, h2, h3⟩ := hwf₁.write pages hp₁ hm
  refine ⟨h2, ?_⟩
  intro lb
  rw [h3 lb]
  by_cases he : PPN lb = PPN la
  · rw [if_pos he, if_pos he, entryOf, if_pos (present_or _ _), BitVec.or_assoc,
      pte2page_or hpage (flags_lt hperm),
      flagsOf_or (page2pa_aligned _ _) (flags_lt hperm)]
  · rw [if_neg he, if_neg he, hwalk₁ lb he, hwalk lb]

end Specs

end SharixPaging
