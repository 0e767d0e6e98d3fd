import Sharix.VmmProofs
import Sharix.PageMapProofs

/-! # When `alloc_page` answers `NULL`

    What the callers of `get_pte` expect of a failed allocation, and when they
    get it.  `get_pte` writes the directory whatever `alloc_page` answered, so
    they get it exactly when no answer is `NULL`: the table is there or its
    page was granted, and for a fault the page is there or was granted too. -/

namespace SharixVmm

open SharixList SharixPaging

variable {pages : Word} {allocPage : Nat → Word} {pgdir : Word}

/-- One of the calls of `alloc_page` between two states answered `NULL`. -/
def NullAnswered (allocPage : Nat → Word) (s s' : State) : Prop :=
  ∃ k, s.calls ≤ k ∧ k < s'.calls ∧ allocPage k = 0#32

theorem not_nullAnswered_of_le {s s' : State} (h : s'.calls ≤ s.calls) :
    ¬ NullAnswered allocPage s s' := by
  rintro ⟨k, h1, h2, -⟩
  omega

/-- With `NULL` for a table, `get_pte` returns `NULL` and changes nothing, and
    its callers do nothing: no page that `NULL` stands for is cleared or
    entered. -/
structure NullHandled (pages : Word) (allocPage : Nat → Word)
    (pgdir la : Word) (s : State) : Prop where
  getPte : NullAnswered allocPage s (getPte pages allocPage pgdir la s).2 →
    (SharixPaging.getPte pages allocPage pgdir la s).1 = 0#32 ∧
      (SharixPaging.getPte pages allocPage pgdir la s).2.mem = s.mem
  getPage : NullAnswered allocPage s (getPage pages allocPage pgdir la s).2 →
    (SharixPaging.getPage pages allocPage pgdir la s).1 = 0#32 ∧
      (SharixPaging.getPage pages allocPage pgdir la s).2.mem = s.mem
  pageRemove : NullAnswered allocPage s (pageRemove pages allocPage pgdir la s) →
    (SharixPaging.pageRemove pages allocPage pgdir la s).mem = s.mem
  pageInsert : ∀ page perm, NullAnswered allocPage s
      (pageInsert pages allocPage pgdir page la perm s) →
    ∀ i : Word, i.toNat < 1024 →
      (SharixPaging.pageInsert pages allocPage pgdir page la perm s).mem
        (slot pgdir i) = s.mem (slot pgdir i)

/-- A fault that meets `NULL` fails and maps nothing; if it was for the table,
    all memory is as before. -/
def FaultHandled (pages : Word) (allocPage : Nat → Word) (pgdir la : Word)
    (s : State) (r : Int × State) : Prop :=
  NullAnswered allocPage s r.2 →
    r.1 ≠ 0 ∧
    (∀ lb, walk pages pgdir r.2.mem lb = walk pages pgdir s.mem lb) ∧
    (¬ Present (s.mem (slot pgdir (PDX la))) → allocPage s.calls = 0#32 →
      r.2.mem = s.mem)

/-! ## The calls each function makes -/

variable (pages allocPage) in
/-- An absent table's directory entry does not stay as it was. -/
theorem getPte_mem_ne {la : Word} {s : State}
    (hp : ¬ Present (s.mem (slot pgdir (PDX la)))) :
    (getPte pages allocPage pgdir la s).2.mem ≠ s.mem := by
  intro he
  have hnew := getPte_present pages allocPage pgdir la s
  rw [he] at hnew
  exact hp hnew

/-- `get_pte` meets `NULL` exactly when it needs a table and is answered
    `NULL`. -/
theorem getPte_nullAnswered_iff {la : Word} {s : State} :
    NullAnswered allocPage s (getPte pages allocPage pgdir la s).2 ↔
      ¬ (Present (s.mem (slot pgdir (PDX la))) ∨ allocPage s.calls ≠ 0#32) := by
  rw [not_or]
  by_cases hp : Present (s.mem (slot pgdir (PDX la)))
  · rw [getPte_of_present hp]
    exact iff_of_false (not_nullAnswered_of_le (Nat.le_refl _)) (fun h => h.1 hp)
  · constructor
    · rintro ⟨k, h1, h2, h3⟩
      rw [getPte_calls_of_absent pages allocPage hp] at h2
      obtain rfl : k = s.calls := by omega
      exact ⟨hp, not_not.mpr h3⟩
    · rintro ⟨-, h⟩
      refine ⟨s.calls, Nat.le_refl _, ?_, not_not.mp h⟩
      rw [getPte_calls_of_absent pages allocPage hp]
      exact Nat.lt_succ_self _

theorem getPage_calls (la : Word) (s : State) :
    (getPage pages allocPage pgdir la s).2
      = (getPte pages allocPage pgdir la s).2 := by
  rw [getPage]
  split <;> rfl

theorem pageRemovePte_calls (pte_p : Word) (s : State) :
    (pageRemovePte pte_p s).calls = s.calls := by
  rw [pageRemovePte]
  split <;> rfl

theorem pageRemove_calls (la : Word) (s : State) :
    (pageRemove pages allocPage pgdir la s).calls
      = (getPte pages allocPage pgdir la s).2.calls := by
  rw [pageRemove]
  split
  · exact pageRemovePte_calls _ _
  · rfl

theorem pageInsert_calls (page la perm : Word) (s : State) :
    (pageInsert pages allocPage pgdir page la perm s).calls
      = (getPte pages allocPage pgdir la s).2.calls := by
  rw [pageInsert]
  dsimp only
  split
  · split
    · exact pageRemovePte_calls _ _
    · rfl
  · rfl

theorem nullAnswered_congr {s s' s'' : State} (h : s'.calls = s''.calls) :
    NullAnswered allocPage s s' ↔ NullAnswered allocPage s s'' := by
  rw [NullAnswered, NullAnswered, h]

/-- The table functions handle `NULL` exactly when they do not meet it. -/
theorem nullHandled_iff (la : Word) (s : State) :
    NullHandled pages allocPage pgdir la s ↔
      Present (s.mem (slot pgdir (PDX la))) ∨ allocPage s.calls ≠ 0#32 := by
  constructor
  · intro h
    by_contra hno
    exact getPte_mem_ne pages allocPage (fun hp => hno (Or.inl hp))
      (h.getPte (getPte_nullAnswered_iff.mpr hno)).2
  · intro h
    have hno : ¬ NullAnswered allocPage s (getPte pages allocPage pgdir la s).2 :=
      fun hn => getPte_nullAnswered_iff.mp hn h
    refine ⟨fun hn => absurd hn hno, fun hn => absurd ?_ hno,
      fun hn => absurd ?_ hno, fun page perm hn => absurd ?_ hno⟩
    · rwa [getPage_calls] at hn
    · exact (nullAnswered_congr (pageRemove_calls la s)).mp hn
    · exact (nullAnswered_congr (pageInsert_calls page la perm s)).mp hn

/-! ## `do_pgfault` -/

/-- What a fault that is let through needs: the table, or a page for it; and
    the page of the address, or one for it.  A table at address 0 gives a
    `NULL` slot, which `do_pgfault` refuses. -/
def Granted (allocPage : Nat → Word) (pgdir la : Word) (s : State) : Prop :=
  let pde := s.mem (slot pgdir (PDX la))
  let pte_p := slot (tableOf pde) (PTX la)
  if Present pde then
    pte_p = 0#32 ∨ Present (s.mem pte_p) ∨ allocPage s.calls ≠ 0#32
  else allocPage s.calls ≠ 0#32 ∧ allocPage (s.calls + 1) ≠ 0#32

/-- The page that `alloc_page` answers for a table, if it answers one, is not
    the directory and has a kernel address. -/
def AnswerOk (pages : Word) (allocPage : Nat → Word) (pgdir : Word)
    (s : State) : Prop :=
  allocPage s.calls ≠ 0#32 →
    VADDR (page2pa pages (allocPage s.calls)) ≠ pgdir ∧
      VADDR (page2pa pages (allocPage s.calls)) ≠ 0#32

/-- A granted table is empty, and its slot is not `NULL`. -/
theorem getPte_granted (la : Word) {s : State} (halign : PageAligned pgdir)
    (hp : ¬ Present (s.mem (slot pgdir (PDX la))))
    (hF : VADDR (page2pa pages (allocPage s.calls)) ≠ pgdir ∧
      VADDR (page2pa pages (allocPage s.calls)) ≠ 0#32) :
    let r := getPte pages allocPage pgdir la s
    r.1 ≠ 0#32 ∧ ¬ Present (r.2.mem r.1) := by
  intro r
  have hA : PageAligned (VADDR (page2pa pages (allocPage s.calls))) :=
    VADDR_aligned (page2pa_aligned _ _)
  have hr : r.2 = _ := if_pos (not_not.mp hp)
  have hmem : r.2.mem = Function.update
      (memset s.mem (VADDR (page2pa pages (allocPage s.calls))) PGSIZE)
      (slot pgdir (PDX la))
      (page2pa pages (allocPage s.calls) ||| PTE_U ||| PTE_W ||| PTE_P) := by
    rw [hr]
  have hptr : r.1 = slot (VADDR (page2pa pages (allocPage s.calls))) (PTX la) := by
    have htab : r.1 = slot (tableOf (r.2.mem (slot pgdir (PDX la)))) (PTX la) := rfl
    rw [htab, hmem, Function.update_self, tableOf, PDE_ADDR, BitVec.or_assoc,
      BitVec.or_assoc, PTE_ADDR_or (page2pa_aligned _ _) (by decide)]
  refine ⟨?_, ?_⟩
  · rw [hptr]
    exact slot_ne_zero hA (PTX_lt la) hF.2
  · have hne : slot (VADDR (page2pa pages (allocPage s.calls))) (PTX la)
        ≠ slot pgdir (PDX la) :=
      fun he => hF.1 (slot_inj hA halign (PTX_lt la) (PDX_lt la) he).1
    rw [hptr, hmem, Function.update_of_ne hne, memset,
      if_pos ((slot_mem_page hA hA (PTX_lt la)).mpr rfl)]
    exact not_present_zero

/-- The page-insertion at the end of a fault finds its table. -/
theorem pageInsert_calls_of_getPte (page la perm : Word) (s s₁ : State)
    (hm : s₁.mem = (getPte pages allocPage pgdir la s).2.mem) :
    (pageInsert pages allocPage pgdir page la perm s₁).calls = s₁.calls := by
  rw [pageInsert_calls, getPte_of_present]
  rw [hm]
  exact getPte_present pages allocPage pgdir la s

variable (pages allocPage pgdir) in
/-- What `do_pgfault` does once the access is let through: it fails only on a
    `NULL` slot, and asks for a page when the entry is not present. -/
theorem mapFault_cases (vmFlags addr : Word) (s : State) :
    let la := addr - addr % PGSIZE
    let r := getPte pages allocPage pgdir la s
    let f := mapFault pages allocPage pgdir vmFlags addr s
    (r.1 = 0#32 ∧ f = (E_INVAL, r.2)) ∨
    (r.1 ≠ 0#32 ∧ f.1 = 0 ∧ Present (r.2.mem r.1) ∧ f.2.calls = r.2.calls) ∨
    (r.1 ≠ 0#32 ∧ f.1 = 0 ∧ ¬ Present (r.2.mem r.1) ∧
      f.2.calls = r.2.calls + 1) := by
  intro la r f
  by_cases hnull : r.1 = 0#32
  · exact Or.inl ⟨hnull, if_pos hnull⟩
  · have hf : f = _ := if_neg hnull
    by_cases hp : Present (r.2.mem r.1)
    · refine Or.inr (Or.inl ⟨hnull, ?_, hp, ?_⟩)
      · rw [hf, if_pos hp]
      · rw [hf, if_pos hp]
        exact pageInsert_calls_of_getPte _ la _ s r.2 rfl
    · refine Or.inr (Or.inr ⟨hnull, ?_, hp, ?_⟩)
      · rw [hf, if_neg hp]
      · rw [hf, if_neg hp]
        exact pageInsert_calls_of_getPte _ la _ s _ rfl

/-- A fault that returns 0 must not have met `NULL`. -/
theorem faultHandled_of_zero {la : Word} {s : State} {f : Int × State}
    (hf : f.1 = 0) :
    FaultHandled pages allocPage pgdir la s f ↔ ¬ NullAnswered allocPage s f.2 :=
  ⟨fun h hn => (h hn).1 hf, fun h hn => absurd hn h⟩

/-- A fault that is let through handles `NULL` exactly when it does not meet
    it. -/
theorem mapFault_handled_iff {vmFlags addr : Word} {s : State}
    (halign : PageAligned pgdir) (hans : AnswerOk pages allocPage pgdir s) :
    FaultHandled pages allocPage pgdir (addr - addr % PGSIZE) s
        (mapFault pages allocPage pgdir vmFlags addr s) ↔
      Granted allocPage pgdir (addr - addr % PGSIZE) s := by
  have hcases := mapFault_cases pages allocPage pgdir vmFlags addr s
  dsimp only at hcases
  generalize hla : addr - addr % PGSIZE = la at hcases ⊢
  generalize mapFault pages allocPage pgdir vmFlags addr s = f at hcases ⊢
  by_cases hp : Present (s.mem (slot pgdir (PDX la)))
  · rw [getPte_of_present hp] at hcases
    have hptr : (getPte pages allocPage pgdir la s).1
        = slot (tableOf (s.mem (slot pgdir (PDX la)))) (PTX la) := by
      rw [getPte, if_neg hp]
    rw [hptr] at hcases
    rw [Granted, if_pos hp]
    rcases hcases with ⟨h1, h2⟩ | ⟨h1, h2, h3, h4⟩ | ⟨h1, h2, h3, h4⟩
    · refine iff_of_true ?_ (Or.inl h1)
      intro hn
      rw [h2] at hn
      exact absurd hn (not_nullAnswered_of_le (Nat.le_refl _))
    · refine iff_of_true ?_ (Or.inr (Or.inl h3))
      intro hn
      exact absurd hn (not_nullAnswered_of_le (Nat.le_of_eq h4))
    · rw [faultHandled_of_zero h2]
      constructor
      · intro hno
        refine Or.inr (Or.inr fun h0 => hno ⟨s.calls, Nat.le_refl _, by omega, h0⟩)
      · rintro (h | h | h) ⟨k, hk1, hk2, hk3⟩
        · exact h1 h
        · exact h3 h
        · obtain rfl : k = s.calls := by omega
          exact h hk3
  · have hcalls := getPte_calls_of_absent pages allocPage hp
    rw [Granted, if_neg hp]
    by_cases h0 : allocPage s.calls = 0#32
    · -- the table itself was refused
      refine iff_of_false ?_ (fun h => h.1 h0)
      intro h
      rcases hcases with ⟨-, h2⟩ | ⟨-, h2, -, h4⟩ | ⟨-, h2, -, h4⟩
      · have hn : NullAnswered allocPage s f.2 :=
          ⟨s.calls, Nat.le_refl _, by rw [h2]; exact Nat.lt_of_succ_le hcalls.ge, h0⟩
        refine getPte_mem_ne pages allocPage hp ?_
        have := (h hn).2.2 hp h0
        rwa [h2] at this
      · exact (h ⟨s.calls, Nat.le_refl _, by omega, h0⟩).1 h2
      · exact (h ⟨s.calls, Nat.le_refl _, by omega, h0⟩).1 h2
    · obtain ⟨hnull, hpte⟩ := getPte_granted la halign hp (hans h0)
      rcases hcases with ⟨h1, -⟩ | ⟨-, -, h3, -⟩ | ⟨-, h2, -, h4⟩
      · exact absurd h1 hnull
      · exact absurd h3 hpte
      · rw [faultHandled_of_zero h2]
        constructor
        · intro hno
          refine ⟨h0, fun hk => hno ⟨s.calls + 1, by omega, by omega, hk⟩⟩
        · rintro ⟨-, h⟩ ⟨k, hk1, hk2, hk3⟩
          rcases Nat.eq_or_lt_of_le hk1 with rfl | hlt
          · exact h0 hk3
          · obtain rfl : k = s.calls + 1 := by omega
            exact h hk3

/-- The fault has an area that contains the address and allows the access. -/
def LetThrough (vma : Nat → Vma) (fuel : Nat) (mm : Mm) (errorCode addr : Word)
    (v : Nat) : Prop :=
  ∃ mm', findVma vma fuel mm addr = some (mm', some v) ∧
    ¬ addr < (vma v).vmStart ∧ accessOk errorCode (vma v).vmFlags = true

/-- A fault is refused without a change but to the cache, or it is let through
    and mapped. -/
theorem doPgfault_cases (pages : Word) (allocPage : Nat → Word)
    {vma : Nat → Vma} {fuel : Nat} {mm : Mm} (hlist : Listed fuel mm)
    (errorCode addr : Word) (s : State) :
    ∃ mm' found, findVma vma fuel mm addr = some (mm', found) ∧
      ((doPgfault vma pages allocPage fuel (some mm) errorCode addr s
          = some (some mm', -1, s) ∧
        ∀ v, ¬ LetThrough vma fuel mm errorCode addr v) ∨
      ∃ v, LetThrough vma fuel mm errorCode addr v ∧
        doPgfault vma pages allocPage fuel (some mm) errorCode addr s
          = some (some mm',
              mapFault pages allocPage mm.pgdir (vma v).vmFlags addr s)) := by
  obtain ⟨⟨mm', found⟩, hfind⟩ := findVma_returns vma addr hlist
  refine ⟨mm', found, hfind, ?_⟩
  -- only the area that was found can let the fault through
  have hfound : ∀ v, LetThrough vma fuel mm errorCode addr v → found = some v := by
    rintro v ⟨mm'', h, -⟩
    rw [hfind] at h
    exact (Prod.mk.inj (Option.some.inj h)).2
  rw [doPgfault, ← (findVma_fields hfind).2]
  simp only [hfind, Option.bind_eq_bind, Option.bind_some]
  cases found with
  | none => exact Or.inl ⟨rfl, fun v hv => by cases hfound v hv⟩
  | some v =>
      by_cases hstart : addr < (vma v).vmStart
      · refine Or.inl ⟨if_pos hstart, ?_⟩
        intro u hu
        cases hfound u hu
        obtain ⟨-, -, h, -⟩ := hu
        exact h hstart
      · by_cases hok : accessOk errorCode (vma v).vmFlags = false
        · refine Or.inl ⟨(if_neg hstart).trans (if_pos hok), ?_⟩
          intro u hu
          cases hfound u hu
          obtain ⟨-, -, -, h⟩ := hu
          rw [hok] at h
          cases h
        · refine Or.inr ⟨v, ⟨mm', hfind, hstart, ?_⟩,
            (if_neg hstart).trans (if_neg hok)⟩
          simpa using hok

/-- The areas, the list and the directory of a small process. -/
def demoVma (_ : Nat) : Vma := ⟨0x0#32, 0x400000#32, VM_WRITE⟩

def demoLink : LinkMem Addr
  | .mmapList => ⟨.listLink 0, .listLink 0⟩
  | .listLink 0 => ⟨.mmapList, .mmapList⟩
  | _ => ⟨.null, .null⟩

def demoMm : Mm := ⟨demoLink, none, demoDir⟩

/-- With no page left, `get_pte` changes memory and a fault reports success. -/
theorem null_not_handled :
    ¬ NullHandled demoPages (fun _ => 0#32) demoDir 0x100#32 demoState ∧
    (doPgfault demoVma demoPages (fun _ => 0#32) 2 (some demoMm) 2#32 0x100#32
      demoState).map (fun r => r.2.1) = some 0 := by
  refine ⟨?_, by decide +kernel⟩
  intro h
  rcases (nullHandled_iff _ _).mp h with hp | hne
  · exact not_present_zero hp
  · exact hne rfl

/-- **`NULL` IS HANDLED ONLY WHERE IT IS NOT MET**: the table functions behave
    as their callers expect of a failed allocation exactly when the table is
    there or was granted, and a fault does exactly when, if it is let through,
    its table and its page are there or were granted. -/
theorem out_of_memory_handled_iff (pages : Word) (allocPage : Nat → Word) :
    (∀ pgdir la s, NullHandled pages allocPage pgdir la s ↔
      Present (s.mem (slot pgdir (PDX la))) ∨ allocPage s.calls ≠ 0#32) ∧
    ∀ vma fuel mm errorCode addr s, Listed fuel mm → PageAligned mm.pgdir →
      AnswerOk pages allocPage mm.pgdir s →
      ∃ r, doPgfault vma pages allocPage fuel (some mm) errorCode addr s = some r ∧
        (FaultHandled pages allocPage mm.pgdir (addr - addr % PGSIZE) s r.2 ↔
          ∀ v, LetThrough vma fuel mm errorCode addr v →
            Granted allocPage mm.pgdir (addr - addr % PGSIZE) s) := by
  refine ⟨fun pgdir la s => nullHandled_iff la s, ?_⟩
  intro vma fuel mm errorCode addr s hlist halign hans
  obtain ⟨mm', found, -, ⟨hrun, hno⟩ | ⟨v, hv, hrun⟩⟩ :=
    doPgfault_cases pages allocPage hlist errorCode addr s
  · refine ⟨_, hrun, iff_of_true ?_ fun v hv => absurd hv (hno v)⟩
    intro hn
    exact absurd hn (not_nullAnswered_of_le (Nat.le_refl _))
  · refine ⟨_, hrun, (mapFault_handled_iff halign hans).trans ?_⟩
    exact ⟨fun h _ _ => h, fun h => h v hv⟩

/-- A write fault with pages at hand. -/
theorem out_of_memory_handled_iff_demo :
    ∃ r, doPgfault demoVma demoPages demoAlloc 2 (some demoMm) 2#32 0x100#32
      demoState = some r ∧
      FaultHandled demoPages demoAlloc demoDir 0x0#32 demoState r.2 := by
  have hring : Listed 2 demoMm := by
    refine ⟨[0], ⟨by decide, by decide, ?_⟩, by decide⟩
    exact List.isChain_cons_cons.mpr ⟨⟨rfl, rfl⟩, List.isChain_pair.mpr ⟨rfl, rfl⟩⟩
  have hgranted : Granted demoAlloc demoDir 0x0#32 demoState := by
    have habsent : ¬ Present (demoState.mem (slot demoDir (PDX 0x0#32))) :=
      not_present_zero
    rw [Granted, if_neg habsent]
    exact ⟨by decide, by decide⟩
  have hans : AnswerOk demoPages demoAlloc demoMm.pgdir demoState :=
    fun _ => ⟨by decide, by decide⟩
  obtain ⟨r, hrun, hiff⟩ := (out_of_memory_handled_iff demoPages demoAlloc).2
    demoVma 2 demoMm 2#32 0x100#32 demoState hring (by decide) hans
  exact ⟨r, hrun, hiff.mpr fun _ _ => hgranted⟩

end SharixVmm
