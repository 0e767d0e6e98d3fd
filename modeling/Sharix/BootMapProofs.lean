import Sharix.PhysMapProofs
import Sharix.TrapProofs

/-! # Addresses while the kernel boots — `entry.S`, `mmu.h`, `pmm_init`

    The kernel is linked at `KERNBASE` and loaded at 0.  `entry.S` makes up for
    the difference with segments of base `-KERNBASE`; `pmm_init` turns paging
    on, under which physical memory shows at `KERNBASE`, and then loads
    segments of base 0.  In between both are at work, and slot 0 of the
    directory undoes the base once more.

    `boot_phases`: after each of these instructions, and through each of `cs`,
    `ds`, `es` and `ss`, the addresses of the kernel's first 4 MiB stay where
    they are; at the end all physical memory is reached, and the low addresses
    are not. -/

namespace SharixPaging

open SharixMachine (Seg)

/-! ## Segment descriptors -/

/-- `struct segdesc`. -/
structure SegDesc where
  lim_15_0 : BitVec 16
  base_15_0 : BitVec 16
  base_23_16 : BitVec 8
  type : BitVec 4
  s : BitVec 1
  dpl : BitVec 2
  p : BitVec 1
  lim_19_16 : BitVec 4
  avl : BitVec 1
  rsv1 : BitVec 1
  db : BitVec 1
  g : BitVec 1
  base_31_24 : BitVec 8
deriving DecidableEq, Repr

def SEG_NULL : SegDesc := ⟨0, 0, 0, 0, 0, 0, 0, 0, 0, 0, 0, 0, 0⟩

def SEG (type : BitVec 4) (base lim : Word) (dpl : BitVec 2) : SegDesc where
  lim_15_0 := ((lim >>> 12) &&& 0xffff#32).setWidth 16
  base_15_0 := (base &&& 0xffff#32).setWidth 16
  base_23_16 := ((base >>> 16) &&& 0xff#32).setWidth 8
  type := type
  s := 1
  dpl := dpl
  p := 1
  lim_19_16 := (lim >>> 28).setWidth 4
  avl := 0
  rsv1 := 0
  db := 1
  g := 1
  base_31_24 := (base >>> 24).setWidth 8

def SEGTSS (type : BitVec 4) (base lim : Word) (dpl : BitVec 2) : SegDesc where
  lim_15_0 := (lim &&& 0xffff#32).setWidth 16
  base_15_0 := (base &&& 0xffff#32).setWidth 16
  base_23_16 := ((base >>> 16) &&& 0xff#32).setWidth 8
  type := type
  s := 0
  dpl := dpl
  p := 1
  lim_19_16 := (lim >>> 16).setWidth 4
  avl := 0
  rsv1 := 0
  db := 1
  g := 0
  base_31_24 := (base >>> 24).setWidth 8

/-- Two halves and four bytes, the first lowest. -/
def descBits (b₇ b₆ b₅ b₄ : BitVec 8) (h₂ h₀ : BitVec 16) : BitVec 64 :=
  b₇ ++ b₆ ++ b₅ ++ b₄ ++ h₂ ++ h₀

/-- The bit fields in memory. -/
def SegDesc.bits (d : SegDesc) : BitVec 64 :=
  descBits d.base_31_24 (d.g ++ d.db ++ d.rsv1 ++ d.avl ++ d.lim_19_16)
    (d.p ++ d.dpl ++ d.s ++ d.type) d.base_23_16 d.base_15_0 d.lim_15_0

/-- The words and bytes of the assembler's macro. -/
def SEG_ASM (type base lim : Word) : BitVec 64 :=
  descBits (((base >>> 24) &&& 0xff#32).setWidth 8)
    ((0xC0#32 ||| ((lim >>> 28) &&& 0xf#32)).setWidth 8)
    ((0x90#32 ||| type).setWidth 8)
    (((base >>> 16) &&& 0xff#32).setWidth 8)
    ((base &&& 0xffff#32).setWidth 16)
    (((lim >>> 12) &&& 0xffff#32).setWidth 16)

/-- The base as the processor puts it together. -/
def segBase (q : BitVec 64) : Word :=
  q.extractLsb' 56 8 ++ q.extractLsb' 32 8 ++ q.extractLsb' 16 16

/-- The limit; with the granularity bit it counts pages. -/
def segLimit (q : BitVec 64) : Word :=
  let raw : BitVec 20 := q.extractLsb' 48 4 ++ q.extractLsb' 0 16
  if q.getLsbD 55 then raw ++ 0xfff#12 else raw.setWidth 32

/-! ### Reading the fields back -/

theorem setWidth_mask8 (x : Word) : (x &&& 0xff#32).setWidth 8 = x.setWidth 8 := by
  rw [BitVec.setWidth_and]
  exact BitVec.and_allOnes

theorem setWidth_mask16 (x : Word) : (x &&& 0xffff#32).setWidth 16 = x.setWidth 16 := by
  rw [BitVec.setWidth_and]
  exact BitVec.and_allOnes

theorem setWidth_shift (x : Word) (k n : Nat) : (x >>> k).setWidth n = x.extractLsb' k n := by
  ext i hi
  simp

/-- Four pieces of a word. -/
theorem join_base (x : Word) :
    x.extractLsb' 24 8 ++ x.extractLsb' 16 8 ++ x.extractLsb' 0 16 = x := by
  have h1 : x.extractLsb' 24 8 ++ x.extractLsb' 16 8 = x.extractLsb' 16 16 :=
    BitVec.extractLsb'_append_extractLsb'_eq_extractLsb' (x := x) rfl
  have h2 : x.extractLsb' 16 16 ++ x.extractLsb' 0 16 = x.extractLsb' 0 32 :=
    BitVec.extractLsb'_append_extractLsb'_eq_extractLsb' (x := x) rfl
  rw [h1, h2]
  exact BitVec.extractLsb'_eq_self

theorem descBits_fields (b₇ b₆ b₅ b₄ : BitVec 8) (h₂ h₀ : BitVec 16) :
    let q := descBits b₇ b₆ b₅ b₄ h₂ h₀
    q.extractLsb' 56 8 = b₇ ∧ q.extractLsb' 48 8 = b₆ ∧ q.extractLsb' 32 8 = b₄ ∧
      q.extractLsb' 16 16 = h₂ ∧ q.extractLsb' 0 16 = h₀ := by
  intro q
  refine ⟨?_, ?_, ?_, ?_, ?_⟩
  · exact (BitVec.extractLsb'_append_eq_of_le (by omega)).trans
      ((BitVec.extractLsb'_append_eq_of_le (by omega)).trans
        ((BitVec.extractLsb'_append_eq_of_le (by omega)).trans
          ((BitVec.extractLsb'_append_eq_of_le (by omega)).trans
            BitVec.extractLsb'_append_eq_left)))
  · exact (BitVec.extractLsb'_append_eq_of_le (by omega)).trans
      ((BitVec.extractLsb'_append_eq_of_le (by omega)).trans
        ((BitVec.extractLsb'_append_eq_of_le (by omega)).trans
          ((BitVec.extractLsb'_append_eq_of_le (by omega)).trans
            BitVec.extractLsb'_append_eq_right)))
  · exact (BitVec.extractLsb'_append_eq_of_le (by omega)).trans
      ((BitVec.extractLsb'_append_eq_of_le (by omega)).trans
        BitVec.extractLsb'_append_eq_right)
  · exact (BitVec.extractLsb'_append_eq_of_le (by omega)).trans
      BitVec.extractLsb'_append_eq_right
  · exact BitVec.extractLsb'_append_eq_right

theorem segBase_descBits (b₆ b₅ : BitVec 8) (base : Word) (h₀ : BitVec 16) :
    segBase (descBits (base.extractLsb' 24 8) b₆ b₅ (base.extractLsb' 16 8)
      (base.extractLsb' 0 16) h₀) = base := by
  obtain ⟨h1, -, h2, h3, -⟩ := descBits_fields (base.extractLsb' 24 8) b₆ b₅
    (base.extractLsb' 16 8) (base.extractLsb' 0 16) h₀
  rw [segBase, h1, h2, h3]
  exact join_base base

theorem segBase_SEG (type : BitVec 4) (base lim : Word) (dpl : BitVec 2) :
    segBase (SEG type base lim dpl).bits = base := by
  rw [SegDesc.bits, SEG]
  dsimp only
  rw [setWidth_mask8, setWidth_mask16, setWidth_shift, setWidth_shift,
    BitVec.setWidth_eq_extractLsb' (by omega)]
  exact segBase_descBits _ _ base _

theorem segBase_SEGTSS (type : BitVec 4) (base lim : Word) (dpl : BitVec 2) :
    segBase (SEGTSS type base lim dpl).bits = base := by
  rw [SegDesc.bits, SEGTSS]
  dsimp only
  rw [setWidth_mask8, setWidth_mask16 base, setWidth_shift, setWidth_shift base,
    BitVec.setWidth_eq_extractLsb' (by omega)]
  exact segBase_descBits _ _ base _

/-- The flags byte with the granularity and size bits. -/
theorem flagsByte (y : BitVec 4) :
    (0xC0#32 ||| y.setWidth 32).setWidth 8 = 1#1 ++ 1#1 ++ 0#1 ++ 0#1 ++ y ∧
      (1#1 ++ 1#1 ++ 0#1 ++ 0#1 ++ y : BitVec 8).extractLsb' 0 4 = y ∧
      (1#1 ++ 1#1 ++ 0#1 ++ 0#1 ++ y : BitVec 8).getLsbD 7 = true := by
  revert y
  decide

/-- The assembler's macro and C's make the same descriptor. -/
theorem SEG_ASM_eq (type : BitVec 4) (base lim : Word) :
    SEG_ASM (type.setWidth 32) base lim = (SEG type base lim SharixTrap.DPL_KERNEL).bits := by
  have hlim : (lim >>> 28) &&& 0xf#32 = ((lim >>> 28).setWidth 4).setWidth 32 := by
    ext i hi
    interval_cases i <;> simp
  have haccess : ∀ t : BitVec 4,
      (0x90#32 ||| t.setWidth 32).setWidth 8 = 1#1 ++ 0#2 ++ 1#1 ++ t := by decide
  rw [SEG_ASM, hlim, (flagsByte _).1, haccess, setWidth_mask8 (base >>> 24)]
  rfl

/-- The limit of `SEG` is kept but for its low twelve bits, which are ones. -/
theorem segLimit_SEG (type : BitVec 4) (base lim : Word) (dpl : BitVec 2) :
    segLimit (SEG type base lim dpl).bits = lim.extractLsb' 12 20 ++ 0xfff#12 := by
  obtain ⟨-, hflags, -, -, hlow⟩ := descBits_fields (SEG type base lim dpl).base_31_24
    (1#1 ++ 1#1 ++ 0#1 ++ 0#1 ++ (lim >>> 28).setWidth 4) (1#1 ++ dpl ++ 1#1 ++ type)
    (SEG type base lim dpl).base_23_16 (SEG type base lim dpl).base_15_0
    (((lim >>> 12) &&& 0xffff#32).setWidth 16)
  change (SEG type base lim dpl).bits.extractLsb' 48 8 = _ at hflags
  change (SEG type base lim dpl).bits.extractLsb' 0 16 = _ at hlow
  generalize (SEG type base lim dpl).bits = q at *
  have hhigh : q.extractLsb' 48 4 = lim.extractLsb' 28 4 := by
    rw [← setWidth_shift, ← (flagsByte ((lim >>> 28).setWidth 4)).2.1, ← hflags]
    ext i hi
    simp [Nat.lt_trans hi (show 4 < 8 by omega)]
  have hgran : q.getLsbD 55 = true := by
    rw [← (flagsByte ((lim >>> 28).setWidth 4)).2.2, ← hflags]
    simp
  have hall : lim.extractLsb' 28 4 ++ lim.extractLsb' 12 16 = lim.extractLsb' 12 20 :=
    BitVec.extractLsb'_append_extractLsb'_eq_extractLsb' (x := lim) rfl
  rw [segLimit, hgran, if_pos rfl, hhigh, hlow, setWidth_mask16, setWidth_shift, hall]

/-! ## Segmentation before paging -/

/-- The descriptor table, the descriptors in the segment registers, with `gs`
    and `fs`, which no instruction of the kernel goes through, on their own,
    `cr3` once paging is on, and the memory under its kernel addresses. -/
structure Mmu where
  gdt : Nat → BitVec 64
  seg : Seg → BitVec 64
  gs : BitVec 64
  fs : BitVec 64
  cr3 : Option Word
  mem : Word → Word

/-- The physical address that an instruction reaches. -/
def access (m : Mmu) (g : Seg) (va : Word) : Option Word :=
  if segLimit (m.seg g) < va then none
  else
    let linear := segBase (m.seg g) + va
    match m.cr3 with
    | none => some linear
    | some cr3 => (translate m.mem cr3 linear).map Prod.fst

/-- A segment register is loaded with a selector. -/
def loadSeg (g : Seg) (sel : BitVec 16) (m : Mmu) : Mmu :=
  { m with seg := Function.update m.seg g (m.gdt (sel >>> 3).toNat) }

def DPL_USER : BitVec 2 := 3
def GD_UDATA : BitVec 16 := 4 <<< 3

def KERNEL_CS : BitVec 16 := SharixTrap.GD_KTEXT
def KERNEL_DS : BitVec 16 := SharixTrap.GD_KDATA
def USER_DS : BitVec 16 := GD_UDATA ||| DPL_USER.setWidth 16

def STA_X : BitVec 4 := 0x8
def STA_W : BitVec 4 := 0x2
def STA_R : BitVec 4 := 0x2
def STS_T32A : BitVec 4 := 0x9

/-- `__gdt` in `entry.S`. -/
def entryGdt : Nat → BitVec 64
  | 1 => SEG_ASM ((STA_X ||| STA_R).setWidth 32) (-KERNBASE) 0xFFFFFFFF#32
  | 2 => SEG_ASM (STA_W.setWidth 32) (-KERNBASE) 0xFFFFFFFF#32
  | _ => 0

/-- `gdt` in `pmm.c`, with the TSS at `ts` filled in. -/
def kernGdt (ts : Word) : Nat → BitVec 64
  | 1 => (SEG (STA_X ||| STA_R) 0x0 0xFFFFFFFF#32 SharixTrap.DPL_KERNEL).bits
  | 2 => (SEG STA_W 0x0 0xFFFFFFFF#32 SharixTrap.DPL_KERNEL).bits
  | 3 => (SEG (STA_X ||| STA_R) 0x0 0xFFFFFFFF#32 DPL_USER).bits
  | 4 => (SEG STA_W 0x0 0xFFFFFFFF#32 DPL_USER).bits
  | 5 => (SEGTSS STS_T32A ts 104 SharixTrap.DPL_KERNEL).bits
  | _ => SEG_NULL.bits

/-- `kern_entry`, down to `relocated`. -/
def kernEntry (m : Mmu) : Mmu :=
  let m := { m with gdt := entryGdt }
  let m := loadSeg .ds KERNEL_DS m
  let m := loadSeg .es KERNEL_DS m
  let m := loadSeg .ss KERNEL_DS m
  loadSeg .cs KERNEL_CS m

/-- `pmm_init` from the temporary map on: `enable_paging`, `gdt_init` and its
    `lgdt`, and the end of the temporary map. -/
def mapSteps (pgdir ts : Word) : List (Mmu → Mmu) :=
  [fun m => { m with
      mem := Function.update m.mem (slot pgdir 0#32) (m.mem (slot pgdir (PDX KERNBASE))) },
   fun m => { m with cr3 := some (PADDR pgdir) },
   fun m => { m with gdt := kernGdt ts },
   fun m => { m with gs := m.gdt (USER_DS >>> 3).toNat },
   fun m => { m with fs := m.gdt (USER_DS >>> 3).toNat },
   loadSeg .es KERNEL_DS,
   loadSeg .ds KERNEL_DS,
   loadSeg .ss KERNEL_DS,
   loadSeg .cs KERNEL_CS,
   fun m => { m with mem := Function.update m.mem (slot pgdir 0#32) 0#32 }]

section Boot

variable (pages : Word) (allocPage : Nat → Word) (pgdir : Word)

/-- The state with the directory in its own slot. -/
def selfState (s : State) : State :=
  let pde := PADDR pgdir ||| PTE_P ||| PTE_W
  { s with mem := Function.update s.mem (slot pgdir (PDX VPT)) pde }

/-- The state with physical memory mapped. -/
def mappedState (s : State) : State :=
  mapPhysicalMemory pages allocPage pgdir KERNBASE KMEMSIZE 0#32 PTE_W (selfState pgdir s)

/-- The machine from `kern_entry` up to the temporary map. -/
def bootMmu (m : Mmu) (s : State) : Mmu :=
  { kernEntry m with cr3 := none, mem := (mappedState pages allocPage pgdir s).mem }

/-- The machine after each of the steps. -/
def phases (ts : Word) (m : Mmu) (s : State) : List Mmu :=
  (mapSteps pgdir ts).scanl (fun m f => f m) (bootMmu pages allocPage pgdir m s)

/-- The machine at the end. -/
def booted (ts : Word) (m : Mmu) (s : State) : Mmu :=
  (mapSteps pgdir ts).foldl (fun m f => f m) (bootMmu pages allocPage pgdir m s)

end Boot

/-! ## What the walk sees -/

section Facts

variable {pages : Word} {allocPage : Nat → Word} {pgdir : Word}

/-- The directory before it is put in its own slot: empty, and the pages that
    `alloc_page` answers are fresh. -/
structure EmptyDir (pages : Word) (allocPage : Nat → Word) (pgdir : Word) (s : State) :
    Prop where
  aligned : PageAligned pgdir
  empty : ∀ i : Word, i.toNat < 1024 → ¬ Present (s.mem (slot pgdir i))
  fresh : Fresh pages allocPage pgdir (selfState pgdir s)
    (mappedState pages allocPage pgdir s).calls

theorem selfState_mem (pgdir : Word) (s : State) : (selfState pgdir s).mem
    = Function.update s.mem (slot pgdir (PDX VPT)) (PADDR pgdir ||| PTE_P ||| PTE_W) := rfl

theorem EmptyDir.present {s : State} (h : EmptyDir pages allocPage pgdir s) {i : Word}
    (hi : i.toNat < 1024) (hp : Present ((selfState pgdir s).mem (slot pgdir i))) :
    i = PDX VPT := by
  by_contra hne
  refine h.empty i hi ?_
  have hslot : slot pgdir i ≠ slot pgdir (PDX VPT) :=
    fun he => hne (slot_inj h.aligned h.aligned hi (PDX_lt VPT) he).2
  rwa [selfState_mem, Function.update_of_ne hslot] at hp

theorem EmptyDir.dirOk {s : State} (h : EmptyDir pages allocPage pgdir s) :
    DirOk pgdir (selfState pgdir s).mem := by
  refine ⟨h.aligned, fun i j hi hj hpi hpj _ => Or.inl ?_⟩
  rw [h.present hi hpi, h.present hj hpj]

theorem EmptyDir.mapOk {s : State} (h : EmptyDir pages allocPage pgdir s) :
    MapOk pages allocPage pgdir KERNBASE KMEMSIZE 0#32 PTE_W (selfState pgdir s) := by
  refine ⟨by decide, by decide, by decide, by decide, h.dirOk, ?_, h.fresh⟩
  intro x hx hs
  have hdx := congrArg BitVec.toNat (h.present (PDX_lt x) hs.1)
  have hcount : pageCount KERNBASE KMEMSIZE = 0x38000 := by decide
  rw [toNat_PDX, show (PDX VPT).toNat = 1003 by decide] at hdx
  rw [InPages, hcount, show KERNBASE.toNat = 0xC0000000 from rfl] at hx
  omega

/-- A slot of the mapped directory: the old one, or a table made for an address
    at or above `KERNBASE`. -/
theorem EmptyDir.slots {s s' : State} (h : EmptyDir pages allocPage pgdir s)
    (hs' : s' = mappedState pages allocPage pgdir s) {i : Word} (hi : i.toNat < 1024)
    (hne : i ≠ PDX VPT) :
    (¬ Present (s'.mem (slot pgdir i)) ∨ 768 ≤ i.toNat) ∧
      (Present (s'.mem (slot pgdir i)) → tableOf (s'.mem (slot pgdir i)) ≠ pgdir) := by
  have hset := h.mapOk.rangeSet
  have hfresh := h.fresh
  rw [mappedState] at hs'
  rw [mappedState, ← hs'] at hfresh
  rw [← hs'] at hset
  rcases hset.slots i hi with he | ⟨-, ⟨y, hy, rfl⟩, k, hk, hk', he⟩
  · have hno : ¬ Present (s'.mem (slot pgdir i)) := by
      rw [he]
      exact fun hp => hne (h.present hi hp)
    exact ⟨Or.inl hno, fun hp => absurd hp hno⟩
  · refine ⟨Or.inr ?_, fun _ => ?_⟩
    · rw [InPages, show KERNBASE.toNat = 0xC0000000 from rfl] at hy
      rw [toNat_PDX]
      omega
    · rw [he, tableOf_tableEntry]
      exact (hfresh.table k hk hk').notDir

/-- A store to slot 0 leaves the addresses of other slots alone. -/
theorem pteAt_slot0 (halign : PageAligned pgdir) {mem : Word → Word} {x : Word}
    (hx : PDX x ≠ 0#32)
    (hself : Present (mem (slot pgdir (PDX x))) → tableOf (mem (slot pgdir (PDX x))) ≠ pgdir)
    (v : Word) :
    pteAt (Function.update mem (slot pgdir 0#32) v) (PADDR pgdir) x
      = pteAt mem (PADDR pgdir) x := by
  have hdir : slot pgdir (PDX x) ≠ slot pgdir 0#32 :=
    fun he => hx (slot_inj halign halign (PDX_lt x) (by decide) he).2
  rw [pteAt_eq, pteAt_eq, Function.update_of_ne hdir]
  by_cases hp : Present (mem (slot pgdir (PDX x)))
  · rw [if_pos hp, if_pos hp]
    refine Function.update_of_ne (fun he => hself hp ?_) _ _
    exact (slot_inj (tableOf_aligned _) halign (PTX_lt x) (by decide) he).1
  · rw [if_neg hp, if_neg hp]

theorem toNat_VADDR {p : Word} (hp : p.toNat < KMEMSIZE.toNat) :
    (VADDR p).toNat = p.toNat + 0xC0000000 := by
  have hm : KMEMSIZE.toNat = 0x38000000 := rfl
  rw [VADDR, BitVec.toNat_add, show KERNBASE.toNat = 0xC0000000 from rfl]
  omega

/-- A kernel address of physical memory is neither in slot 0 nor in `VPT`. -/
theorem PDX_VADDR {p : Word} (hp : p.toNat < KMEMSIZE.toNat) :
    PDX (VADDR p) ≠ 0#32 ∧ PDX (VADDR p) ≠ PDX VPT := by
  have hm : KMEMSIZE.toNat = 0x38000000 := rfl
  have hdx := toNat_PDX (VADDR p)
  rw [toNat_VADDR hp] at hdx
  refine ⟨fun h => ?_, fun h => ?_⟩
  · rw [h, show (0#32 : Word).toNat = 0 from rfl] at hdx
    omega
  · rw [h, show (PDX VPT).toNat = 1003 by decide] at hdx
    omega

/-- The directory with the temporary map, and without it. -/
def tempMem (pgdir : Word) (mem : Word → Word) : Word → Word :=
  Function.update mem (slot pgdir 0#32) (mem (slot pgdir (PDX KERNBASE)))

def lastMem (pgdir : Word) (mem : Word → Word) : Word → Word :=
  Function.update (tempMem pgdir mem) (slot pgdir 0#32) 0#32

variable {s s' : State}

theorem translate_mapped (h : EmptyDir pages allocPage pgdir s)
    (hs' : s' = mappedState pages allocPage pgdir s) {p : Word}
    (hp : p.toNat < KMEMSIZE.toNat) :
    translate s'.mem (PADDR pgdir) (VADDR p) = some (p, PTE_P ||| PTE_W) := by
  have hm : KMEMSIZE.toNat = 0x38000000 := rfl
  have hv := toNat_VADDR hp
  have hin : InPages (KERNBASE.toNat / 4096) (pageCount KERNBASE KMEMSIZE) (VADDR p) := by
    rw [InPages, show pageCount KERNBASE KMEMSIZE = 0x38000 by decide, hv,
      show KERNBASE.toNat = 0xC0000000 from rfl]
    omega
  have hentry := h.mapOk.rangeSet.entries (VADDR p) (h.mapOk.notSelf _ hin)
  rw [if_pos hin] at hentry
  rw [mappedState] at hs'
  rw [← hs'] at hentry
  rw [translate_range h.mapOk.offset h.mapOk.permLt hentry, VADDR, BitVec.add_sub_cancel,
    BitVec.zero_add]

theorem translate_temp (h : EmptyDir pages allocPage pgdir s)
    (hs' : s' = mappedState pages allocPage pgdir s) {p : Word}
    (hp : p.toNat < KMEMSIZE.toNat) :
    translate (tempMem pgdir s'.mem) (PADDR pgdir) (VADDR p) = some (p, PTE_P ||| PTE_W) := by
  obtain ⟨h0, hvpt⟩ := PDX_VADDR hp
  rw [← translate_mapped h hs' hp]
  exact translate_congr (pteAt_slot0 h.aligned h0 (h.slots hs' (PDX_lt _) hvpt).2 _)

theorem translate_last (h : EmptyDir pages allocPage pgdir s)
    (hs' : s' = mappedState pages allocPage pgdir s) {p : Word}
    (hp : p.toNat < KMEMSIZE.toNat) :
    translate (lastMem pgdir s'.mem) (PADDR pgdir) (VADDR p) = some (p, PTE_P ||| PTE_W) := by
  obtain ⟨h0, hvpt⟩ := PDX_VADDR hp
  have hslot : tempMem pgdir s'.mem (slot pgdir (PDX (VADDR p)))
      = s'.mem (slot pgdir (PDX (VADDR p))) :=
    Function.update_of_ne
      (fun he => h0 (slot_inj h.aligned h.aligned (PDX_lt _) (by decide) he).2) _ _
  rw [← translate_temp h hs' hp]
  refine translate_congr (pteAt_slot0 h.aligned h0 ?_ _)
  rw [hslot]
  exact (h.slots hs' (PDX_lt _) hvpt).2

/-- Slot 0 shows what slot 768 shows. -/
theorem translate_low (h : EmptyDir pages allocPage pgdir s)
    (hs' : s' = mappedState pages allocPage pgdir s) {p : Word} (hp : p.toNat < 4194304) :
    translate (tempMem pgdir s'.mem) (PADDR pgdir) p = some (p, PTE_P ||| PTE_W) := by
  have hm : KMEMSIZE.toNat = 0x38000000 := rfl
  have hp' : p.toNat < KMEMSIZE.toNat := by omega
  have hv := toNat_VADDR hp'
  have hdir : PDX p = 0#32 ∧ PDX (VADDR p) = PDX KERNBASE ∧ PTX (VADDR p) = PTX p ∧
      PG_OFF (VADDR p) = PG_OFF p := by
    refine ⟨?_, ?_, ?_, ?_⟩ <;> apply BitVec.eq_of_toNat_eq
    · rw [toNat_PDX, show (0#32 : Word).toNat = 0 from rfl]
      omega
    · rw [toNat_PDX, hv, show (PDX KERNBASE).toNat = 768 by decide]
      omega
    · rw [toNat_PTX, toNat_PTX, hv]
      omega
    · rw [toNat_PG_OFF, toNat_PG_OFF, hv]
      omega
  obtain ⟨h0, hdx, htx, hoff⟩ := hdir
  have hvpt := (PDX_VADDR hp').2
  have hnot := (h.slots hs' (PDX_lt _) hvpt).2
  rw [hdx] at hnot
  have hpte : pteAt (tempMem pgdir s'.mem) (PADDR pgdir) p
      = pteAt s'.mem (PADDR pgdir) (VADDR p) := by
    rw [pteAt_eq, pteAt_eq, h0, hdx, htx, tempMem, Function.update_self]
    by_cases hpres : Present (s'.mem (slot pgdir (PDX KERNBASE)))
    · rw [if_pos hpres, if_pos hpres]
      refine Function.update_of_ne (fun he => hnot hpres ?_) _ _
      exact (slot_inj (tableOf_aligned _) h.aligned (PTX_lt p) (by decide) he).1
    · rw [if_neg hpres, if_neg hpres]
  rw [← translate_mapped h hs' hp', translate, translate, hpte, hoff]

/-- Without the temporary map slot 0 shows nothing. -/
theorem translate_last_low (mem : Word → Word) {x : Word} (hx : PDX x = 0#32) :
    translate (lastMem pgdir mem) (PADDR pgdir) x = none := by
  have hpte : pteAt (lastMem pgdir mem) (PADDR pgdir) x = 0#32 := by
    rw [pteAt_eq, hx, lastMem, Function.update_self, if_neg not_present_zero]
  rw [translate, hpte, if_neg not_present_zero]

end Facts

/-! ## The phases -/

/-- A descriptor of base `b` that reaches everything. -/
structure Flat (q : BitVec 64) (b : Word) : Prop where
  base : segBase q = b
  limit : segLimit q = 0xFFFFFFFF#32

theorem flat_SEG (type : BitVec 4) (b : Word) (dpl : BitVec 2) :
    Flat (SEG type b 0xFFFFFFFF#32 dpl).bits b :=
  ⟨segBase_SEG _ _ _ _, (segLimit_SEG _ _ _ _).trans (by decide)⟩

theorem flat_SEG_ASM (type : BitVec 4) (b : Word) :
    Flat (SEG_ASM (type.setWidth 32) b 0xFFFFFFFF#32) b := by
  rw [SEG_ASM_eq]
  exact flat_SEG _ _ _

/-- After `kern_entry` every register has the base `-KERNBASE`. -/
theorem kernEntry_flat (m : Mmu) (g : Seg) : Flat ((kernEntry m).seg g) (-KERNBASE) := by
  cases g with
  | cs => exact flat_SEG_ASM _ _
  | ds => exact flat_SEG_ASM _ _
  | es => exact flat_SEG_ASM _ _
  | ss => exact flat_SEG_ASM _ _

theorem access_flat {m : Mmu} {g : Seg} {b : Word} (h : Flat (m.seg g) b) (va : Word) :
    access m g va = match m.cr3 with
      | none => some (b + va)
      | some cr3 => (translate m.mem cr3 (b + va)).map Prod.fst := by
  have hlim : ¬ (0xFFFFFFFF#32 : Word) < va := by
    intro hlt
    have h1 : (0xFFFFFFFF#32 : Word).toNat < va.toNat := hlt
    have h2 := va.isLt
    have h3 : (0xFFFFFFFF#32 : Word).toNat = 2 ^ 32 - 1 := rfl
    omega
  rw [access, h.limit, if_neg hlim, h.base]

theorem neg_KERNBASE_VADDR (p : Word) : -KERNBASE + VADDR p = p := by
  rw [VADDR, BitVec.add_comm, ← BitVec.sub_eq_add_neg, BitVec.add_sub_cancel]

/-- Every kernel address below `top` is where it was loaded, through each
    register. -/
def Reaches (top : Nat) (m : Mmu) : Prop :=
  ∀ (g : Seg) (p : Word), p.toNat < top → access m g (VADDR p) = some p

section Phases

variable {pages : Word} {allocPage : Nat → Word} {pgdir : Word}

/-- Without paging, in the segments of `entry.S`. -/
theorem reaches_early {m : Mmu} (hcr3 : m.cr3 = none)
    (hseg : ∀ g, Flat (m.seg g) (-KERNBASE)) : Reaches 4194304 m := by
  intro g p _
  rw [access_flat (hseg g), hcr3]
  exact congrArg some (neg_KERNBASE_VADDR p)

/-- With the temporary map, whatever segments are loaded already. -/
theorem reaches_temp {s s' : State} (h : EmptyDir pages allocPage pgdir s)
    (hs' : s' = mappedState pages allocPage pgdir s) {m : Mmu}
    (hcr3 : m.cr3 = some (PADDR pgdir)) (hmem : m.mem = tempMem pgdir s'.mem)
    (hseg : ∀ g, Flat (m.seg g) (-KERNBASE) ∨ Flat (m.seg g) 0) : Reaches 4194304 m := by
  intro g p hp
  have hm : KMEMSIZE.toNat = 0x38000000 := rfl
  rcases hseg g with hg | hg
  · rw [access_flat hg, hcr3, hmem]
    show (translate _ _ (-KERNBASE + VADDR p)).map Prod.fst = _
    rw [neg_KERNBASE_VADDR, translate_low h hs' hp]
    rfl
  · rw [access_flat hg, hcr3, hmem]
    show (translate _ _ (0#32 + VADDR p)).map Prod.fst = _
    rw [BitVec.zero_add, translate_temp h hs' (by omega)]
    rfl

/-- In flat segments, without the temporary map. -/
theorem reaches_last {s s' : State} (h : EmptyDir pages allocPage pgdir s)
    (hs' : s' = mappedState pages allocPage pgdir s) {m : Mmu}
    (hcr3 : m.cr3 = some (PADDR pgdir)) (hmem : m.mem = lastMem pgdir s'.mem)
    (hseg : ∀ g, Flat (m.seg g) 0) : Reaches KMEMSIZE.toNat m := by
  intro g p hp
  rw [access_flat (hseg g), hcr3, hmem]
  show (translate _ _ (0#32 + VADDR p)).map Prod.fst = _
  rw [BitVec.zero_add, translate_last h hs' hp]
  rfl

/-- Loading a register from the table of `pmm.c` makes its base 0. -/
theorem loadSeg_flat {m : Mmu} {ts : Word} (hgdt : m.gdt = kernGdt ts) (g : Seg)
    {sel : BitVec 16} (hsel : sel = KERNEL_CS ∨ sel = KERNEL_DS) :
    Flat ((loadSeg g sel m).seg g) 0 := by
  have hload : (loadSeg g sel m).seg g = kernGdt ts (sel >>> 3).toNat := by
    rw [loadSeg, hgdt]
    exact Function.update_self _ _ _
  rw [hload]
  rcases hsel with rfl | rfl
  · exact flat_SEG _ _ _
  · exact flat_SEG _ _ _

theorem loadSeg_other {m : Mmu} {g g' : Seg} (hg : g' ≠ g) (sel : BitVec 16) :
    (loadSeg g sel m).seg g' = m.seg g' :=
  Function.update_of_ne hg _ _

/-- The machine with the table of `pmm.c`, the memory `mem` and paging on:
    segments of both kinds are at work. -/
structure Between (pgdir ts : Word) (mem : Word → Word) (m : Mmu) : Prop where
  gdt : m.gdt = kernGdt ts
  cr3 : m.cr3 = some (PADDR pgdir)
  mem : m.mem = mem
  seg : ∀ g, Flat (m.seg g) (-KERNBASE) ∨ Flat (m.seg g) 0

/-- A load of a segment register leaves it there. -/
theorem Between.load {ts : Word} {mem : Word → Word} {m : Mmu} (h : Between pgdir ts mem m)
    (g : Seg) {sel : BitVec 16} (hsel : sel = KERNEL_CS ∨ sel = KERNEL_DS) :
    Between pgdir ts mem (loadSeg g sel m) := by
  refine ⟨h.gdt, h.cr3, h.mem, fun g' => ?_⟩
  by_cases hg : g' = g
  · subst hg
    exact Or.inr (loadSeg_flat h.gdt g' hsel)
  · rw [loadSeg_other hg]
    exact h.seg g'

/-- A row of loads, by induction on it: the machine is there all the time, and
    the registers that have been loaded are flat. -/
theorem Between.loads {ts : Word} {mem : Word → Word} {l : List (Seg × BitVec 16)}
    (hl : ∀ p ∈ l, p.2 = KERNEL_CS ∨ p.2 = KERNEL_DS) : ∀ {m : Mmu}, Between pgdir ts mem m →
      (∀ n ∈ l.scanl (fun m p => loadSeg p.1 p.2 m) m, Between pgdir ts mem n) ∧
      Between pgdir ts mem (l.foldl (fun m p => loadSeg p.1 p.2 m) m) ∧
      ∀ g, Flat (m.seg g) 0 ∨ g ∈ l.map Prod.fst →
        Flat ((l.foldl (fun m p => loadSeg p.1 p.2 m) m).seg g) 0 := by
  induction l with
  | nil =>
      intro m h
      refine ⟨fun n hn => ?_, h, fun g hg => hg.resolve_right List.not_mem_nil⟩
      rw [List.mem_singleton.mp hn]
      exact h
  | cons p l ih =>
      intro m h
      have hp := hl p List.mem_cons_self
      obtain ⟨h1, h2, h3⟩ := ih (fun q hq => hl q (List.mem_cons_of_mem p hq)) (h.load p.1 hp)
      rw [List.scanl_cons]
      refine ⟨List.forall_mem_cons.mpr ⟨h, h1⟩, h2, fun g hg => h3 g ?_⟩
      by_cases hgp : g = p.1
      · subst hgp
        exact Or.inl (loadSeg_flat h.gdt p.1 hp)
      · rw [loadSeg_other hgp]
        exact hg.imp_right fun hg => (List.mem_cons.mp hg).resolve_left hgp

/-- The phases from a machine in the segments of `entry.S`. -/
theorem mapSteps_reach {s s' : State} (h : EmptyDir pages allocPage pgdir s)
    (hs' : s' = mappedState pages allocPage pgdir s) (ts : Word) {e : Mmu}
    (hcr3 : e.cr3 = none) (hmem : e.mem = s'.mem)
    (hentry : ∀ g, Flat (e.seg g) (-KERNBASE)) :
    (∀ n ∈ (mapSteps pgdir ts).scanl (fun m f => f m) e, Reaches 4194304 n) ∧
      Reaches KMEMSIZE.toNat ((mapSteps pgdir ts).foldl (fun m f => f m) e) ∧
      Flat ((mapSteps pgdir ts).foldl (fun m f => f m) e).gs 0 ∧
      Flat ((mapSteps pgdir ts).foldl (fun m f => f m) e).fs 0 ∧
      ((mapSteps pgdir ts).foldl (fun m f => f m) e).mem = lastMem pgdir s'.mem := by
  obtain ⟨gdt, seg, gs, fs, cr3, mem⟩ := e
  obtain rfl : cr3 = none := hcr3
  obtain rfl : mem = s'.mem := hmem
  -- what `USER_DS` selects is flat like the kernel's segments
  obtain ⟨user, huser⟩ : ∃ q, q = kernGdt ts (USER_DS >>> 3).toNat := ⟨_, rfl⟩
  have hflat : Flat user 0 := by
    rw [huser]
    exact flat_SEG _ _ _
  -- the machine with `gs` and `fs` loaded, and the loads that are left
  obtain ⟨b, hb⟩ : ∃ b : Mmu, b = ⟨kernGdt ts, seg, user, user, some (PADDR pgdir),
    tempMem pgdir s'.mem⟩ := ⟨_, rfl⟩
  obtain ⟨l, hl⟩ : ∃ l, l = [(Seg.es, KERNEL_DS), (Seg.ds, KERNEL_DS), (Seg.ss, KERNEL_DS),
    (Seg.cs, KERNEL_CS)] := ⟨_, rfl⟩
  obtain ⟨b', hb'⟩ : ∃ b', b' = l.foldl (fun m p => loadSeg p.1 p.2 m) b := ⟨_, rfl⟩
  have hbetween : Between pgdir ts (tempMem pgdir s'.mem) b := by
    rw [hb]
    exact ⟨rfl, rfl, rfl, fun g => Or.inl (hentry g)⟩
  have hsel : ∀ p ∈ l, p.2 = KERNEL_CS ∨ p.2 = KERNEL_DS := by
    rw [hl]
    decide
  obtain ⟨hall, hend, hseg⟩ := hbetween.loads hsel
  rw [← hb'] at hend hseg
  have hloaded : ∀ g, Flat (b'.seg g) 0 := by
    intro g
    refine hseg g (Or.inr ?_)
    rw [hl]
    cases g <;> decide
  have hlast : Reaches KMEMSIZE.toNat { b' with mem := lastMem pgdir s'.mem } :=
    reaches_last h hs' hend.cr3 rfl hloaded
  have hfold : (mapSteps pgdir ts).foldl (fun m f => f m) ⟨gdt, seg, gs, fs, none, s'.mem⟩
      = { b' with mem := lastMem pgdir s'.mem } := by
    rw [hb', hl, hb, huser]
    rfl
  have hscan : (mapSteps pgdir ts).scanl (fun m f => f m) ⟨gdt, seg, gs, fs, none, s'.mem⟩
      = [⟨gdt, seg, gs, fs, none, s'.mem⟩,
         ⟨gdt, seg, gs, fs, none, tempMem pgdir s'.mem⟩,
         ⟨gdt, seg, gs, fs, some (PADDR pgdir), tempMem pgdir s'.mem⟩,
         ⟨kernGdt ts, seg, gs, fs, some (PADDR pgdir), tempMem pgdir s'.mem⟩,
         ⟨kernGdt ts, seg, user, fs, some (PADDR pgdir), tempMem pgdir s'.mem⟩] ++
        (l.scanl (fun m p => loadSeg p.1 p.2 m) b ++
          [{ b' with mem := lastMem pgdir s'.mem }]) := by
    rw [hb', hl, hb, huser]
    rfl
  -- the loads that are left do not change `gs` and `fs`
  have hgs : b'.gs = user ∧ b'.fs = user := by
    rw [hb', hl, hb]
    exact ⟨rfl, rfl⟩
  have htemp : ∀ {n : Mmu}, n.cr3 = some (PADDR pgdir) → n.mem = tempMem pgdir s'.mem →
      n.seg = seg → Reaches 4194304 n :=
    fun hcr3 hmem hn => reaches_temp h hs' hcr3 hmem fun g => Or.inl (hn ▸ hentry g)
  rw [hfold, hscan]
  refine ⟨List.forall_mem_append.mpr ⟨?_, List.forall_mem_append.mpr ⟨fun n hn => ?_,
    fun n hn => ?_⟩⟩, hlast, hgs.1 ▸ hflat, hgs.2 ▸ hflat, rfl⟩
  · simp only [List.forall_mem_cons]
    exact ⟨reaches_early rfl hentry, reaches_early rfl hentry, htemp rfl rfl rfl,
      htemp rfl rfl rfl, htemp rfl rfl rfl, fun _ hn => absurd hn List.not_mem_nil⟩
  · have hbn := hall n hn
    exact reaches_temp h hs' hbn.cr3 hbn.mem hbn.seg
  · rw [List.mem_singleton.mp hn]
    intro g p hp
    exact hlast g p (Nat.lt_trans hp (by decide))

/-- **NO ADDRESS MOVES WHILE THE KERNEL BOOTS**: from the segments of `entry.S`
    through paging, each load of a segment register and the end of the
    temporary map, the first 4 MiB of the kernel are reached where they were
    loaded.  At the end all physical memory is, `gs` and `fs` are as flat as
    the others, and slot 0 maps nothing. -/
theorem boot_phases {s : State} (h : EmptyDir pages allocPage pgdir s) (ts : Word) (m : Mmu) :
    (∀ n ∈ phases pages allocPage pgdir ts m s, Reaches 4194304 n) ∧
      Reaches KMEMSIZE.toNat (booted pages allocPage pgdir ts m s) ∧
      Flat (booted pages allocPage pgdir ts m s).gs 0 ∧
      Flat (booted pages allocPage pgdir ts m s).fs 0 ∧
      ∀ x, PDX x = 0#32 →
        translate (booted pages allocPage pgdir ts m s).mem (PADDR pgdir) x = none := by
  -- named, so that nothing below computes the map
  obtain ⟨s', hs'⟩ : ∃ s', s' = mappedState pages allocPage pgdir s := ⟨_, rfl⟩
  rw [phases, booted, bootMmu, ← hs']
  obtain ⟨h1, h2, hgs, hfs, h3⟩ := mapSteps_reach h hs' ts
    (e := { kernEntry m with cr3 := none, mem := s'.mem }) rfl rfl (kernEntry_flat m)
  refine ⟨h1, h2, hgs, hfs, fun x hx => ?_⟩
  rw [h3]
  exact translate_last_low _ hx

/-- An empty directory, and pages from `0x600000` on. -/
theorem emptyDir_demo : EmptyDir demoPages demoAlloc demoDir ⟨fun _ => 0#32, 0⟩ := by
  have halign : PageAligned demoDir := by decide
  have hempty : ∀ i : Word, i.toNat < 1024 → ¬ Present ((fun _ => 0#32) (slot demoDir i)) :=
    fun _ _ => not_present_zero
  have hself : ∀ i : Word, i.toNat < 1024 →
      Present ((selfState demoDir ⟨fun _ => 0#32, 0⟩).mem (slot demoDir i)) →
      tableOf ((selfState demoDir ⟨fun _ => 0#32, 0⟩).mem (slot demoDir i)) = demoDir := by
    intro i hi hp
    by_cases hv : i = PDX VPT
    · rw [hv, selfState_mem, Function.update_self]
      decide
    · have hslot : slot demoDir i ≠ slot demoDir (PDX VPT) :=
        fun he => hv (slot_inj halign halign hi (PDX_lt VPT) he).2
      rw [selfState_mem, Function.update_of_ne hslot] at hp
      exact absurd hp (hempty i hi)
  have hcalls : (mappedState demoPages demoAlloc demoDir ⟨fun _ => 0#32, 0⟩).calls ≤ 0x38000 := by
    have hle := (mapPages_calls demoPages demoAlloc demoDir PTE_W
      (ROUNDUP (KMEMSIZE + PG_OFF KERNBASE) PGSIZE / PGSIZE).toNat
      (ROUNDDOWN KERNBASE PGSIZE) (ROUNDDOWN 0#32 PGSIZE)
      (selfState demoDir ⟨fun _ => 0#32, 0⟩)).2
    have hn : (ROUNDUP (KMEMSIZE + PG_OFF KERNBASE) PGSIZE / PGSIZE).toNat = 0x38000 := by
      decide
    rw [hn, show (selfState demoDir ⟨fun _ => 0#32, 0⟩).calls = 0 from rfl] at hle
    rw [mappedState, mapPhysicalMemory, hn]
    omega
  have hpage : ∀ k < 0x38000, VADDR (page2pa demoPages (demoAlloc k)) ≠ demoDir := by
    intro k hk he
    have hnat := congrArg BitVec.toNat he
    rw [VADDR, BitVec.toNat_add, page2pa_demoAlloc hk, show KERNBASE.toNat = 0xC0000000 from rfl,
      show demoDir.toNat = 0xC0500000 by decide] at hnat
    omega
  refine ⟨halign, hempty, fun k _ hk => ⟨hpage k (by omega), fun i hi hp => ?_⟩,
    fun j k _ hjk hk he => ?_⟩
  · rw [hself i hi hp]
    exact (hpage k (by omega)).symm
  · have hnat := congrArg BitVec.toNat he
    rw [page2pa_demoAlloc (by omega), page2pa_demoAlloc (by omega)] at hnat
    omega

/-- From that directory, the TSS at `0xC0105000`. -/
theorem boot_phases_demo :
    Reaches KMEMSIZE.toNat (booted demoPages demoAlloc demoDir 0xC0105000#32
      ⟨fun _ => 0, fun _ => 0, 0, 0, none, fun _ => 0#32⟩ ⟨fun _ => 0#32, 0⟩) :=
  (boot_phases emptyDir_demo 0xC0105000#32
    ⟨fun _ => 0, fun _ => 0, 0, 0, none, fun _ => 0#32⟩).2.1

end Phases

end SharixPaging
