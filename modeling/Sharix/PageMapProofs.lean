import Sharix.PageTableProofs

/-! # The page table as a map

    What a directory is for: a finite map from page numbers to a page and its
    flags.  `get_pte` and `get_page` look at the map, `page_insert` sets one
    entry, `page_remove` deletes one.  From a cleared directory every sequence
    of these operations keeps the tables in step with the map, as long as
    `alloc_page` answers pages that are not in use by the directory. -/

namespace SharixPaging

open SharixRun

/-- The page and the flags of each mapped page number. -/
abbrev PageMap := Word → Option (Word × Word)

section Runs

variable (pages : Word) (allocPage : Nat → Word) (pgdir : Word)

/-- An operation on the tables, beside what it does to the map.  The page that
    is inserted is a page, and its permissions are flags. -/
inductive Step : State × PageMap → State × PageMap → Prop where
  | getPte {s : State} {M : PageMap} (la : Word) :
      TableOk pages allocPage pgdir la s →
      Step (s, M) ((SharixPaging.getPte pages allocPage pgdir la s).2, M)
  | getPage {s : State} {M : PageMap} (la : Word) :
      TableOk pages allocPage pgdir la s →
      Step (s, M) ((SharixPaging.getPage pages allocPage pgdir la s).2, M)
  | pageInsert {s : State} {M : PageMap} (page la perm : Word) :
      TableOk pages allocPage pgdir la s → IsPage pages page →
      perm.toNat < 4096 →
      Step (s, M) (SharixPaging.pageInsert pages allocPage pgdir page la perm s,
        Function.update M (PPN la) (some (page, PTE_P ||| perm)))
  | pageRemove {s : State} {M : PageMap} (la : Word) :
      TableOk pages allocPage pgdir la s →
      Step (s, M) (SharixPaging.pageRemove pages allocPage pgdir la s,
        Function.update M (PPN la) none)

/-- The tables translate as the map says. -/
def Refines (c : State × PageMap) : Prop :=
  WF pgdir c.1.mem ∧ ∀ la, walk pages pgdir c.1.mem la = c.2 (PPN la)

variable {pages allocPage pgdir}

/-- One operation keeps tables and map in step. -/
theorem step_refines {c c' : State × PageMap} (h : Refines pages pgdir c)
    (hstep : Step pages allocPage pgdir c c') : Refines pages pgdir c' := by
  cases hstep with
  | @getPte s M la hok =>
      obtain ⟨hwf, hwalk⟩ : WF pgdir s.mem ∧
        ∀ lb, walk pages pgdir s.mem lb = M (PPN lb) := h
      obtain ⟨h1, -, -, -, h2⟩ := getPte_spec hwf hok
      exact ⟨h1, fun lb => (h2 lb).trans (hwalk lb)⟩
  | @getPage s M la hok =>
      obtain ⟨hwf, hwalk⟩ : WF pgdir s.mem ∧
        ∀ lb, walk pages pgdir s.mem lb = M (PPN lb) := h
      obtain ⟨h1, -, -, -, h2⟩ := getPte_spec hwf hok
      rw [(getPage_spec hwf hok).1]
      exact ⟨h1, fun lb => (h2 lb).trans (hwalk lb)⟩
  | @pageInsert s M page la perm hok hpage hperm =>
      obtain ⟨hwf, hwalk⟩ : WF pgdir s.mem ∧
        ∀ lb, walk pages pgdir s.mem lb = M (PPN lb) := h
      obtain ⟨h1, h2⟩ := pageInsert_spec hwf hok hpage hperm
      refine ⟨h1, ?_⟩
      intro lb
      rw [h2 lb, hwalk lb]
      exact (Function.update_apply ..).symm
  | @pageRemove s M la hok =>
      obtain ⟨hwf, hwalk⟩ : WF pgdir s.mem ∧
        ∀ lb, walk pages pgdir s.mem lb = M (PPN lb) := h
      obtain ⟨h1, h2⟩ := pageRemove_spec hwf hok
      refine ⟨h1, ?_⟩
      intro lb
      rw [h2 lb, hwalk lb]
      exact (Function.update_apply ..).symm

/-- A cleared directory refines the empty map. -/
theorem refines_empty {s : State} (halign : PageAligned pgdir)
    (hzero : ∀ i : Word, i.toNat < 1024 → s.mem (slot pgdir i) = 0#32) :
    Refines pages pgdir (s, fun _ => none) := by
  have habsent : ∀ i : Word, i.toNat < 1024 → ¬ Present (s.mem (slot pgdir i)) := by
    intro i hi
    rw [hzero i hi]
    exact not_present_zero
  refine ⟨⟨halign, ?_, ?_, ?_⟩, ?_⟩
  · intro i hi hp
    exact absurd hp (habsent i hi)
  · intro i hi hp
    exact absurd hp (habsent i hi)
  · intro i _ hi _ hp
    exact absurd hp (habsent i hi)
  · intro la
    rw [walk, if_neg (habsent _ (PDX_lt la))]

/-- **THE TWO LEVELS ARE ONE MAP**: after every run from a cleared directory
    an address translates as the map says, `get_page` answers the map's page
    or `NULL`, and different pages have different slots. -/
theorem page_table_refines_map {s₀ s : State} {M : PageMap}
    (halign : PageAligned pgdir)
    (hzero : ∀ i : Word, i.toNat < 1024 → s₀.mem (slot pgdir i) = 0#32)
    (hrun : Relation.ReflTransGen (Step pages allocPage pgdir)
      (s₀, fun _ => none) (s, M)) :
    (∀ la, walk pages pgdir s.mem la = M (PPN la)) ∧
    (∀ la, TableOk pages allocPage pgdir la s →
      (getPage pages allocPage pgdir la s).1 = mappedPage (M (PPN la))) ∧
    (∀ la lb, PPN la ≠ PPN lb → TableOk pages allocPage pgdir la s →
      TableOk pages allocPage pgdir lb (getPte pages allocPage pgdir la s).2 →
      (getPte pages allocPage pgdir la s).1
        ≠ (getPte pages allocPage pgdir lb
            (getPte pages allocPage pgdir la s).2).1) := by
  have href : Refines pages pgdir (s, M) :=
    run_invariant (I := Refines pages pgdir)
      (fun _ _ h hstep => step_refines h hstep) hrun (refines_empty halign hzero)
  have hwf : WF pgdir s.mem := href.1
  have hwalk : ∀ la, walk pages pgdir s.mem la = M (PPN la) := href.2
  refine ⟨hwalk, ?_, ?_⟩
  · intro la hok
    rw [(getPage_spec hwf hok).2, hwalk la]
  · intro la lb hne hoka hokb heq
    obtain ⟨hwfa, hpa, hptra, -, -⟩ := getPte_spec hwf hoka
    obtain ⟨hwfb, hpb, hptrb, hkept, -⟩ := getPte_spec hwfa hokb
    -- the table of `la` is still where it was after the second call
    have hsame := hkept _ (PDX_lt la) hpa
    rw [hptra, hptrb, ← hsame] at heq
    exact hne ((hwfb.slot_eq_iff (hsame ▸ hpa) hpb).mp heq)

end Runs

/-! ## One insertion -/

/-- The struct pages lie at 2 MB, the directory in the frame `0x500`, and
    tables are taken from the frame `0x600` on. -/
def demoPages : Word := 0xC0200000#32
def demoDir : Word := 0xC0500000#32
def demoAlloc (k : Nat) : Word := pageAt demoPages (0x600#32 + BitVec.ofNat 32 k)
def demoState : State := ⟨fun _ => 0#32, 0⟩

/-- Frame `0x700` is mapped writable at `0x01234000`. -/
theorem page_table_refines_map_demo :
    let s := pageInsert demoPages demoAlloc demoDir (pageAt demoPages 0x700#32)
      0x01234000#32 PTE_W demoState
    walk demoPages demoDir s.mem 0x01234ABC#32
      = some (pageAt demoPages 0x700#32, PTE_P ||| PTE_W) := by
  have hgood : GoodPage demoPages demoDir demoState.mem (demoAlloc 0) :=
    ⟨⟨0x600#32, by decide, rfl⟩, by decide,
      fun _ _ hp => absurd hp not_present_zero⟩
  have hrun : Relation.ReflTransGen (Step demoPages demoAlloc demoDir)
      (demoState, fun _ => none) _ :=
    .single (.pageInsert (pageAt demoPages 0x700#32) 0x01234000#32 PTE_W
      (fun _ => hgood) ⟨0x700#32, by decide, rfl⟩ (by decide))
  exact (page_table_refines_map (by decide) (fun _ _ => rfl) hrun).1 _

end SharixPaging
