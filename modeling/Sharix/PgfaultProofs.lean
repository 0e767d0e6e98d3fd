import Sharix.MmapListProofs
import Sharix.OutOfMemoryProofs

/-! # What a page fault does — `do_pgfault`

    With pages at hand the fault succeeds exactly when an area contains the
    address and allows the access.  Then the address translates, with the
    rights of the area, to the page it had or to a new one; nothing else
    changes, and nothing changes if the fault is refused. -/

namespace SharixVmm

open SharixList SharixPaging SharixInterval

variable {pages : Word} {allocPage : Nat → Word} {pgdir : Word}

/-! ## The access -/

/-- Bit 1 of the code is a write; otherwise the access is a read of a page that
    is not present. -/
def Allows (errorCode vmFlags : Word) : Prop :=
  (errorCode &&& 2#32 ≠ 0#32 ∧ vmFlags &&& VM_WRITE ≠ 0#32) ∨
  (errorCode &&& 2#32 = 0#32 ∧ errorCode &&& 1#32 = 0#32 ∧
    (vmFlags &&& VM_READ ≠ 0#32 ∨ vmFlags &&& VM_EXEC ≠ 0#32))

theorem and_bit (x : Word) (i : Nat) :
    x &&& BitVec.twoPow 32 i = 0#32 ∨
      x &&& BitVec.twoPow 32 i = BitVec.twoPow 32 i := by
  rw [BitVec.and_twoPow]
  cases x.getLsbD i
  · exact .inl rfl
  · exact .inr rfl

/-- The cases of the `switch`. -/
theorem accessOk_iff (errorCode vmFlags : Word) :
    accessOk errorCode vmFlags = true ↔ Allows errorCode vmFlags := by
  have hcode : errorCode &&& 0x3#32
      = (errorCode &&& 1#32) ||| (errorCode &&& 2#32) := by
    rw [← BitVec.and_or_distrib_left]
    rfl
  have hread : vmFlags &&& (VM_READ ||| VM_EXEC) ≠ 0#32 ↔
      vmFlags &&& VM_READ ≠ 0#32 ∨ vmFlags &&& VM_EXEC ≠ 0#32 := by
    rw [BitVec.and_or_distrib_left, Ne, BitVec.or_eq_zero_iff, not_and_or]
  rw [accessOk, Allows, hcode]
  rcases and_bit errorCode 0 with h0 | h0 <;>
    rcases and_bit errorCode 1 with h1 | h1 <;>
    rw [show BitVec.twoPow 32 0 = 1#32 from rfl] at h0 <;>
    rw [show BitVec.twoPow 32 1 = 2#32 from rfl] at h1 <;>
    rw [h0, h1]
  · -- 0: a read, not present
    simpa using hread
  · -- 2: a write, not present
    simp
  · -- 1: a read, present
    simp
  · -- 3: a write, present
    simp

/-! ## The mapping -/

/-- The address of the page of `addr` has the fields of `addr`. -/
theorem PPN_roundDown (addr : Word) : PPN (addr - addr % PGSIZE) = PPN addr := by
  have hlt := addr.isLt
  have hsize : PGSIZE.toNat = 4096 := rfl
  rw [← BitVec.toNat_inj, toNat_PPN, toNat_PPN, BitVec.toNat_sub,
    BitVec.toNat_umod, hsize]
  omega

theorem PDX_roundDown (addr : Word) : PDX (addr - addr % PGSIZE) = PDX addr :=
  ((PPN_eq_iff _ _).mp (PPN_roundDown addr)).1

theorem walk_congr {mem : Word → Word} {la lb : Word} (h : PPN la = PPN lb) :
    walk pages pgdir mem la = walk pages pgdir mem lb := by
  obtain ⟨h1, h2⟩ := (PPN_eq_iff la lb).mp h
  rw [walk, walk, h1, h2]

theorem isPage_pte2page (pages pte : Word) :
    IsPage pages (pte2page pages pte) := by
  have hlt := (PTE_ADDR pte).isLt
  refine ⟨PAGE_NUM (PTE_ADDR pte), ?_, rfl⟩
  rw [PAGE_NUM, BitVec.toNat_ushiftRight, Nat.shiftRight_eq_div_pow]
  omega

/-- `page_insert` writes the directory only as `get_pte` does. -/
theorem pageInsert_dir {page la perm : Word} {s : State} (h : WF pgdir s.mem)
    (hok : TableOk pages allocPage pgdir la s) {i : Word} (hi : i.toNat < 1024) :
    (pageInsert pages allocPage pgdir page la perm s).mem (slot pgdir i)
      = (getPte pages allocPage pgdir la s).2.mem (slot pgdir i) := by
  obtain ⟨hwf, hp, hptr, -, -⟩ := getPte_spec h hok
  have hne : slot pgdir i ≠ (getPte pages allocPage pgdir la s).1 := by
    rw [hptr]
    exact (hwf.slot_ne_dir (PDX_lt la) (PTX_lt la) hi hp).symm
  rw [pageInsert]
  dsimp only
  rw [Function.update_of_ne hne]
  split
  · split
    · exact (pageRemovePte_spec pages hwf hp hptr).1 i hi
    · rfl
  · rfl

/-- The entry of a new table lets users in, to write as well. -/
theorem getPte_new_dir {la : Word} {s : State}
    (hp : ¬ Present (s.mem (slot pgdir (PDX la)))) :
    flagsOf ((getPte pages allocPage pgdir la s).2.mem (slot pgdir (PDX la)))
      = PTE_U ||| PTE_W ||| PTE_P := by
  rw [show (getPte pages allocPage pgdir la s).2 = _ from if_pos (not_not.mp hp)]
  dsimp only
  rw [Function.update_self, BitVec.or_assoc, BitVec.or_assoc,
    flagsOf_or (page2pa_aligned _ _) (by decide)]
  exact (BitVec.or_assoc PTE_U PTE_W PTE_P).symm

/-- The rights of an area. -/
def permOf (vmFlags : Word) : Word :=
  if vmFlags &&& VM_WRITE ≠ 0#32 then PTE_U ||| PTE_W else PTE_U

/-- `page` is the page that `addr` had in the state `s`; without one it is what
    the last call of `alloc_page` between `s` and `s'` answered, not the page
    of a table that was made before it. -/
def PageFor (pages : Word) (allocPage : Nat → Word) (pgdir addr : Word)
    (s s' : State) (page : Word) : Prop :=
  (∃ flags, walk pages pgdir s.mem addr = some (page, flags)) ∨
  (walk pages pgdir s.mem addr = none ∧
    ∃ k, s.calls ≤ k ∧ s'.calls = k + 1 ∧ page = allocPage k)

/-- The page of `addr` is mapped with the rights of the area, to the page it
    had or a new one, and nothing else is; a directory entry that was not
    there lets users read and write. -/
def Mapped (pages : Word) (allocPage : Nat → Word) (pgdir vmFlags addr : Word)
    (s s' : State) : Prop :=
  ∃ page, PageFor pages allocPage pgdir addr s s' page ∧
    (∀ lb, walk pages pgdir s'.mem lb
      = if PPN lb = PPN addr then some (page, PTE_P ||| permOf vmFlags)
        else walk pages pgdir s.mem lb) ∧
    (Present (s.mem (slot pgdir (PDX addr))) →
      s'.mem (slot pgdir (PDX addr)) = s.mem (slot pgdir (PDX addr))) ∧
    (¬ Present (s.mem (slot pgdir (PDX addr))) →
      flagsOf (s'.mem (slot pgdir (PDX addr))) = PTE_U ||| PTE_W ||| PTE_P)

/-- A page inserted behind `get_pte`. -/
theorem mapped_insert {vmFlags addr page : Word} {s s₁ : State}
    (h : WF pgdir s.mem) (hok : TableOk pages allocPage pgdir addr s)
    (hmem : s₁.mem = (getPte pages allocPage pgdir addr s).2.mem)
    (hpage : IsPage pages page)
    (hfor : PageFor pages allocPage pgdir addr s (pageInsert pages allocPage
      pgdir page (addr - addr % PGSIZE) (permOf vmFlags) s₁) page) :
    let s' := pageInsert pages allocPage pgdir page (addr - addr % PGSIZE)
      (permOf vmFlags) s₁
    WF pgdir s'.mem ∧ Mapped pages allocPage pgdir vmFlags addr s s' := by
  intro s'
  have hdx := PDX_roundDown addr
  obtain ⟨hwf, hp, -, -, hwalk⟩ := getPte_spec h hok
  -- the table is there now, so `page_insert` makes no other
  have hp₁ : Present (s₁.mem (slot pgdir (PDX (addr - addr % PGSIZE)))) := by
    rw [hmem, hdx]
    exact hp
  have hok₁ : TableOk pages allocPage pgdir (addr - addr % PGSIZE) s₁ :=
    fun hno => absurd hp₁ hno
  have hwf₁ : WF pgdir s₁.mem := hmem ▸ hwf
  have hperm : (permOf vmFlags).toNat < 4096 := by
    rw [permOf]
    split <;> decide
  obtain ⟨h1, h2⟩ := pageInsert_spec hwf₁ hok₁ hpage hperm
  have hdir : s'.mem (slot pgdir (PDX addr)) = (getPte pages allocPage pgdir
      addr s).2.mem (slot pgdir (PDX addr)) := by
    rw [pageInsert_dir hwf₁ hok₁ (PDX_lt addr), getPte_of_present hp₁, hmem]
  refine ⟨h1, page, hfor, fun lb => ?_, fun hpde => ?_, fun hpde => ?_⟩
  · rw [h2 lb, PPN_roundDown, hmem, hwalk lb]
  · rw [hdir, getPte_of_present hpde]
  · rw [hdir, getPte_new_dir hpde]

/-- A fault that is let through maps the page of `addr` and nothing else. -/
theorem mapFault_spec (vmFlags : Word) {addr : Word} {s : State}
    (h : WF pgdir s.mem) (hok : TableOk pages allocPage pgdir addr s)
    (hpages : ∀ k, s.calls ≤ k → k ≤ s.calls + 1 →
      IsPage pages (allocPage k)) :
    let f := mapFault pages allocPage pgdir vmFlags addr s
    f.1 = 0 ∧ WF pgdir f.2.mem ∧
      Mapped pages allocPage pgdir vmFlags addr s f.2 := by
  intro f
  have hok' : TableOk pages allocPage pgdir (addr - addr % PGSIZE) s := by
    rw [TableOk, PDX_roundDown]
    exact hok
  have hsame : (getPte pages allocPage pgdir (addr - addr % PGSIZE) s).2
      = (getPte pages allocPage pgdir addr s).2 := by
    rw [getPte, getPte, PDX_roundDown]
  have hf : f = _ := if_neg (getPte_ne_null h hok')
  have hentry := getPte_walk h hok'
  rw [walk_congr (PPN_roundDown addr)] at hentry
  obtain ⟨hle, hlt⟩ := getPte_calls_le pages allocPage pgdir
    (addr - addr % PGSIZE) s
  have hcalls : ∀ page s₁,
      s₁.mem = (getPte pages allocPage pgdir (addr - addr % PGSIZE) s).2.mem →
      (pageInsert pages allocPage pgdir page (addr - addr % PGSIZE)
        (permOf vmFlags) s₁).calls = s₁.calls :=
    fun page s₁ => pageInsert_calls_of_getPte page _ (permOf vmFlags) s s₁
  generalize getPte pages allocPage pgdir (addr - addr % PGSIZE) s = r at *
  have hmem : r.2.mem = (getPte pages allocPage pgdir addr s).2.mem :=
    congrArg State.mem hsame
  by_cases hpte : Present (r.2.mem r.1)
  · -- the page stays, with the rights of the area
    have heq : f = (0, pageInsert pages allocPage pgdir
        (pte2page pages (r.2.mem r.1)) (addr - addr % PGSIZE) (permOf vmFlags)
        r.2) := by
      rw [hf, if_pos hpte]
      rfl
    rw [heq]
    refine ⟨rfl, mapped_insert h hok hmem (isPage_pte2page _ _)
      (.inl ⟨flagsOf (r.2.mem r.1), ?_⟩)⟩
    rw [hentry, entryOf, if_pos hpte]
  · -- the next page of `alloc_page`
    have heq : f = (0, pageInsert pages allocPage pgdir
        (allocPage r.2.calls) (addr - addr % PGSIZE) (permOf vmFlags)
        { r.2 with calls := r.2.calls + 1 }) := by
      rw [hf, if_neg hpte]
      rfl
    rw [heq]
    have hmem₁ : ({ r.2 with calls := r.2.calls + 1 } : State).mem
        = (getPte pages allocPage pgdir addr s).2.mem := hmem
    refine ⟨rfl, mapped_insert h hok hmem₁ (hpages _ hle hlt)
      (.inr ⟨?_, r.2.calls, hle, ?_, rfl⟩)⟩
    · rw [hentry, entryOf, if_neg hpte]
    · exact hcalls _ { r.2 with calls := r.2.calls + 1 } rfl

/-! ## The fault -/

theorem MmOk.listed {vma : Nat → Vma} {mm : Mm} {areas : List Nat}
    (h : MmOk vma mm areas) {fuel : Nat} (hfuel : areas.length < fuel) :
    Listed fuel mm := by
  obtain ⟨vs, hring, -, hperm⟩ := h.list
  exact ⟨vs, hring, hperm.length_eq ▸ hfuel⟩

/-- A fault is let through by the area that contains the address. -/
theorem letThrough_iff {vma : Nat → Vma} {mm : Mm} {areas : List Nat}
    (h : MmOk vma mm areas) {fuel : Nat} (hfuel : areas.length < fuel)
    (errorCode addr : Word) (v : Nat) :
    LetThrough vma fuel mm errorCode addr v ↔
      v ∈ areas ∧ Contains (startOf vma) (stopOf vma) v addr.toNat ∧
        Allows errorCode (vma v).vmFlags := by
  obtain ⟨r, hr, hall⟩ := findVma_answer h addr
  have hfind := hall mm.mmapCache h.cache fuel hfuel
  rw [LetThrough]
  constructor
  · rintro ⟨mm', hcall, hstart, hok⟩
    obtain ⟨-, rfl⟩ := Prod.mk.inj (Option.some.inj (hfind.symm.trans hcall))
    refine ⟨hr.1, ?_, (accessOk_iff _ _).mp hok⟩
    -- `find_vma` may answer the next area, which starts behind `addr`
    rcases hr.2 with hin | ⟨hlt, -⟩
    · exact hin
    · exact absurd (BitVec.lt_def.mpr hlt) hstart
  · rintro ⟨hv, hin, hok⟩
    obtain ⟨vs, -, hord, hperm⟩ := h.list
    obtain rfl := answer_contains hord (hperm.mem_iff.mpr hv) hin
      (answer_perm hperm.symm hr)
    refine ⟨_, hfind, fun hlt => ?_, (accessOk_iff _ _).mpr hok⟩
    exact absurd (BitVec.lt_def.mp hlt) (Nat.not_lt.mpr hin.1)

/-- **WHAT A PAGE FAULT DOES**: `do_pgfault` returns 0 exactly if an area
    contains the address and allows the access.  Then the page of the address
    is present and open to users, writable if the area is, and is the page
    that was mapped there or a new one; all other pages translate as before.
    On any other result all do.  The areas and the directory of the process
    stay; only its cache may change, to another of its areas. -/
theorem do_pgfault_spec {vma : Nat → Vma} {mm : Mm} {areas : List Nat}
    {fuel : Nat} {s : State} (errorCode addr : Word)
    (hmm : MmOk vma mm areas) (hfuel : areas.length < fuel)
    (hwf : WF mm.pgdir s.mem) (hok : TableOk pages allocPage mm.pgdir addr s)
    (hpages : ∀ k, s.calls ≤ k → k ≤ s.calls + 1 →
      IsPage pages (allocPage k)) :
    ∃ mm' ret s', doPgfault vma pages allocPage fuel (some mm) errorCode addr s
        = some (some mm', ret, s') ∧
      (MmOk vma mm' areas ∧ mm'.link = mm.link ∧ mm'.pgdir = mm.pgdir) ∧
      WF mm.pgdir s'.mem ∧
      (ret = 0 ↔ ∃ v ∈ areas,
        Contains (startOf vma) (stopOf vma) v addr.toNat ∧
        Allows errorCode (vma v).vmFlags) ∧
      (ret = 0 → ∃ v ∈ areas,
        Contains (startOf vma) (stopOf vma) v addr.toNat ∧
        (∃ page flags, walk pages mm.pgdir s'.mem addr = some (page, flags) ∧
          PageFor pages allocPage mm.pgdir addr s s' page ∧
          flags &&& PTE_U ≠ 0#32 ∧
          (flags &&& PTE_W ≠ 0#32 ↔ (vma v).vmFlags &&& VM_WRITE ≠ 0#32)) ∧
        (∀ lb, PPN lb ≠ PPN addr →
          walk pages mm.pgdir s'.mem lb = walk pages mm.pgdir s.mem lb) ∧
        (Present (s.mem (slot mm.pgdir (PDX addr))) →
          s'.mem (slot mm.pgdir (PDX addr))
            = s.mem (slot mm.pgdir (PDX addr))) ∧
        (¬ Present (s.mem (slot mm.pgdir (PDX addr))) →
          flagsOf (s'.mem (slot mm.pgdir (PDX addr)))
            = PTE_U ||| PTE_W ||| PTE_P)) ∧
      (ret ≠ 0 → ∀ lb,
        walk pages mm.pgdir s'.mem lb = walk pages mm.pgdir s.mem lb) := by
  obtain ⟨mm', found, hfind, hcases⟩ :=
    doPgfault_cases pages allocPage (hmm.listed hfuel) errorCode addr s
  have hmm' : MmOk vma mm' areas ∧ mm'.link = mm.link ∧ mm'.pgdir = mm.pgdir :=
    ⟨hmm.findVma hfind, findVma_fields hfind⟩
  rcases hcases with ⟨hrun, hno⟩ | ⟨v, hv, hrun⟩
  · -- refused: no area, or no such access
    refine ⟨mm', -1, s, hrun, hmm', hwf, ?_, fun h => absurd h (by decide),
      fun _ _ => rfl⟩
    refine iff_of_false (by decide) ?_
    rintro ⟨v, hv⟩
    exact hno v ((letThrough_iff hmm hfuel errorCode addr v).mpr hv)
  · have hlet := (letThrough_iff hmm hfuel errorCode addr v).mp hv
    have hspec := mapFault_spec (vma v).vmFlags hwf hok hpages
    dsimp only at hspec
    generalize mapFault pages allocPage mm.pgdir (vma v).vmFlags addr s = f
      at hrun hspec
    obtain ⟨ret, s'⟩ := f
    obtain ⟨hzero, hwf', page, hfor, hwalk, hold, hnew⟩ := hspec
    refine ⟨mm', ret, s', hrun, hmm', hwf', iff_of_true hzero ⟨v, hlet⟩, fun _ => ?_,
      fun hne => absurd hzero hne⟩
    refine ⟨v, hlet.1, hlet.2.1, ⟨page, PTE_P ||| permOf (vma v).vmFlags, ?_,
      hfor, ?_, ?_⟩, fun lb hlb => ?_, hold, hnew⟩
    · rw [hwalk addr, if_pos rfl]
    · rw [permOf]
      split <;> decide
    · rw [permOf]
      by_cases hw : (vma v).vmFlags &&& VM_WRITE ≠ 0#32
      · rw [if_pos hw]
        exact iff_of_true (by decide) hw
      · rw [if_neg hw]
        exact iff_of_false (by decide) hw
    · rw [hwalk lb, if_neg hlb]

/-- A write to an area for writing, the directory cleared before. -/
theorem do_pgfault_spec_demo :
    ∃ mm' ret s', doPgfault demoVma demoPages demoAlloc 2 (some demoMm) 2#32
        0x100#32 demoState = some (some mm', ret, s') ∧ ret = 0 := by
  have hmm : MmOk demoVma demoMm [0] := by
    refine ⟨⟨[0], ⟨by decide, by decide, ?_⟩, List.pairwise_singleton _ _,
      .refl _⟩, by decide, fun v hv => by cases hv⟩
    exact List.isChain_cons_cons.mpr ⟨⟨rfl, rfl⟩, List.isChain_pair.mpr ⟨rfl, rfl⟩⟩
  have hmap : Refines demoPages demoMm.pgdir (demoState, fun _ => none) :=
    refines_empty (by decide) (fun _ _ => rfl)
  have hok : TableOk demoPages demoAlloc demoMm.pgdir 0x100#32 demoState :=
    fun _ => ⟨⟨0x600#32, by decide, rfl⟩, by decide,
      fun _ _ hp => absurd hp not_present_zero⟩
  have hpages : ∀ k, demoState.calls ≤ k → k ≤ demoState.calls + 1 →
      IsPage demoPages (demoAlloc k) := by
    intro k _ hk
    have hk' : k ≤ 1 := hk
    refine ⟨0x600#32 + BitVec.ofNat 32 k, ?_, rfl⟩
    rw [BitVec.toNat_add, BitVec.toNat_ofNat, BitVec.toNat_ofNat]
    omega
  have hfuel : [0].length < 2 := by decide
  obtain ⟨mm', ret, s', hrun, -, -, hiff, -, -⟩ := do_pgfault_spec 2#32 0x100#32 hmm
    hfuel hmap.1 hok hpages
  refine ⟨mm', ret, s', hrun, hiff.mpr ⟨0, by decide, ⟨?_, ?_⟩, .inl ?_⟩⟩ <;> decide

end SharixVmm
