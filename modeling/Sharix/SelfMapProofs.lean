import Sharix.PageMapProofs

/-! # The directory as its own page table — `vpt` and `vpd`

    `pmm_init` enters the directory in its own slot `PDX(VPT)`.  The hardware
    walk through that slot reads the directory in place of a table and a table
    in place of a page: the 4 MiB at `VPT` are all the tables, in the order of
    the pages they map, and the page of `vpd` among them is the directory. -/

namespace SharixPaging

def VPT : Word := 0xFAC00000#32

def PG_OFF (la : Word) : Word := la &&& 0xFFF#32

def PGADDR (d t o : Word) : Word := d <<< 22 ||| t <<< 12 ||| o

def PADDR (kva : Word) : Word := kva - KERNBASE

def vpt : Word := VPT

def vpd : Word := PGADDR (PDX VPT) (PDX VPT) 0#32

/-! ## The walk of the hardware -/

section Walk

variable (mem : Word → Word) (cr3 : Word)

/-- The table entry of `la`, and 0 where there is no table.  `cr3` and the
    entries hold physical addresses, and the word at `pa` is the one that the
    kernel has at `VADDR(pa)`. -/
def pteAt (la : Word) : Word :=
  let pde := mem (VADDR (slot cr3 (PDX la)))
  if Present pde then mem (VADDR (slot (PDE_ADDR pde) (PTX la))) else 0#32

/-- The physical address of `la`, and the flags of its entry. -/
def translate (la : Word) : Option (Word × Word) :=
  let pte := pteAt mem cr3 la
  if Present pte then some (PTE_ADDR pte + PG_OFF la, flagsOf pte) else none

end Walk

theorem VADDR_PADDR (kva : Word) : VADDR (PADDR kva) = kva :=
  BitVec.sub_add_cancel kva KERNBASE

theorem VADDR_slot (table i : Word) : VADDR (slot table i) = slot (VADDR table) i := by
  rw [VADDR, VADDR, slot, slot, BitVec.add_assoc, BitVec.add_assoc,
    BitVec.add_comm (4#32 * i)]

/-- The walk as the kernel sees it. -/
theorem pteAt_eq (mem : Word → Word) (pgdir la : Word) :
    pteAt mem (PADDR pgdir) la
      = if Present (mem (slot pgdir (PDX la))) then
          mem (slot (tableOf (mem (slot pgdir (PDX la)))) (PTX la))
        else 0#32 := by
  rw [pteAt, VADDR_slot, VADDR_slot, VADDR_PADDR]
  rfl

theorem PADDR_aligned {kva : Word} (h : PageAligned kva) : PageAligned (PADDR kva) := by
  rw [PageAligned] at h ⊢
  have hbase : KERNBASE.toNat = 0xC0000000 := rfl
  rw [PADDR, BitVec.toNat_sub, hbase]
  omega

theorem toNat_PG_OFF (la : Word) : (PG_OFF la).toNat = la.toNat % 4096 := by
  rw [PG_OFF, show 0xFFF#32 = BitVec.ofNat 32 (2 ^ 12 - 1) from rfl,
    toNat_and_ones _ (by omega)]
  rfl

/-! ## The slot of the directory -/

/-- Slot `i` of the directory holds the directory. -/
def SelfMapped (pgdir : Word) (mem : Word → Word) (i : Word) : Prop :=
  Present (mem (slot pgdir i)) ∧ PDE_ADDR (mem (slot pgdir i)) = PADDR pgdir

theorem selfMapped_iff {pgdir : Word} {mem : Word → Word} {i : Word} :
    SelfMapped pgdir mem i ↔
      Present (mem (slot pgdir i)) ∧ tableOf (mem (slot pgdir i)) = pgdir := by
  rw [SelfMapped, tableOf, ← VADDR_inj, VADDR_PADDR]

/-- What `pmm_init` writes to the slot. -/
theorem selfMapped_init {pgdir : Word} (halign : PageAligned pgdir)
    (mem : Word → Word) (i : Word) :
    SelfMapped pgdir (Function.update mem (slot pgdir i)
      (PADDR pgdir ||| PTE_P ||| PTE_W)) i := by
  rw [SelfMapped, Function.update_self]
  refine ⟨present_or _ _, ?_⟩
  rw [PDE_ADDR, BitVec.or_assoc, PTE_ADDR_or (PADDR_aligned halign) (by decide)]

/-! ## Addresses at `VPT` -/

theorem toNat_vpt {n : Word} (hn : n.toNat < 2 ^ 20) :
    (slot vpt n).toNat = 0xFAC00000 + 4 * n.toNat := by
  have hvpt : vpt.toNat = 0xFAC00000 := rfl
  rw [slot, BitVec.toNat_add, BitVec.toNat_mul, hvpt, BitVec.toNat_ofNat]
  omega

/-- The fields of `&vpt[n]`: the slot of the directory, then the two digits of
    `n`. -/
theorem fields_vpt {n : Word} (hn : n.toNat < 2 ^ 20) :
    PDX (slot vpt n) = PDX VPT ∧ (PTX (slot vpt n)).toNat = n.toNat / 1024 ∧
      (PG_OFF (slot vpt n)).toNat = 4 * (n.toNat % 1024) := by
  have hvpt : VPT.toNat = 0xFAC00000 := rfl
  refine ⟨?_, ?_, ?_⟩
  · rw [← BitVec.toNat_inj, toNat_PDX, toNat_PDX, toNat_vpt hn, hvpt]
    omega
  · rw [toNat_PTX, toNat_vpt hn]
    omega
  · rw [toNat_PG_OFF, toNat_vpt hn]
    omega

/-- The walk for `&vpt[n]` ends in the table of the entry that `n` belongs
    to. -/
theorem translate_vpt {pgdir : Word} {mem : Word → Word}
    (hself : SelfMapped pgdir mem (PDX VPT)) {n d t : Word}
    (hn : n.toNat = 1024 * d.toNat + t.toNat) (hd : d.toNat < 1024)
    (ht : t.toNat < 1024) (hp : Present (mem (slot pgdir d))) :
    translate mem (PADDR pgdir) (slot vpt n)
      = some (slot (PDE_ADDR (mem (slot pgdir d))) t,
          flagsOf (mem (slot pgdir d))) := by
  obtain ⟨hdx, htx, hoff⟩ := fields_vpt (n := n) (by omega)
  obtain ⟨hpres, htab⟩ := selfMapped_iff.mp hself
  have hd' : PTX (slot vpt n) = d := by
    rw [← BitVec.toNat_inj, htx]
    omega
  have ht' : PG_OFF (slot vpt n) = 4#32 * t := by
    rw [← BitVec.toNat_inj, hoff, BitVec.toNat_mul, BitVec.toNat_ofNat]
    omega
  have hpte : pteAt mem (PADDR pgdir) (slot vpt n) = mem (slot pgdir d) := by
    rw [pteAt_eq, hdx, if_pos hpres, htab, hd']
  rw [translate, hpte, ht']
  exact if_pos hp

/-- `&vpd[i]` is `&vpt[n]` for the page of `vpt` that the directory's own slot
    stands for. -/
theorem slot_vpd (i : Word) :
    slot vpd i = slot vpt (1024#32 * PDX VPT + i) := by
  have hvpd : vpd = vpt + 4#32 * (1024#32 * PDX VPT) := by decide
  rw [slot, slot, hvpd, BitVec.mul_add, BitVec.add_assoc]

/-- **`vpt` AND `vpd` REACH THE TABLES**: with the directory in its slot, the
    walk for `vpt[la >> 12]` reaches the word that `get_pte` points to, for
    every `la` that has a table, and the walk for `vpd[i]` reaches
    `pgdir[i]`. -/
theorem vpt_reaches_get_pte (pages : Word) (allocPage : Nat → Word)
    {pgdir : Word} {s : State} (hself : SelfMapped pgdir s.mem (PDX VPT)) :
    (∀ la, Present (s.mem (slot pgdir (PDX la))) →
      ∃ pa flags, translate s.mem (PADDR pgdir) (slot vpt (la >>> 12))
          = some (pa, flags) ∧
        getPte pages allocPage pgdir la s = (VADDR pa, s)) ∧
    ∀ i : Word, i.toNat < 1024 →
      ∃ pa flags, translate s.mem (PADDR pgdir) (slot vpd i) = some (pa, flags) ∧
        slot pgdir i = VADDR pa := by
  refine ⟨fun la hp => ?_, fun i hi => ?_⟩
  · have hn : (la >>> 12).toNat = 1024 * (PDX la).toNat + (PTX la).toNat := by
      rw [show la >>> 12 = PPN la from rfl, toNat_PPN, toNat_PDX, toNat_PTX]
      omega
    refine ⟨_, _, translate_vpt hself hn (PDX_lt la) (PTX_lt la) hp, ?_⟩
    rw [VADDR_slot, getPte, if_neg hp]
    rfl
  · have hvpt : PDX VPT = 1003#32 := by decide
    have hn : (1024#32 * PDX VPT + i).toNat
        = 1024 * (PDX VPT).toNat + i.toNat := by
      rw [hvpt, BitVec.toNat_add, BitVec.toNat_mul]
      simp only [BitVec.toNat_ofNat]
      omega
    have hwalk := translate_vpt hself hn (by decide) hi hself.1
    rw [slot_vpd]
    refine ⟨_, _, hwalk, ?_⟩
    rw [hself.2, VADDR_slot, VADDR_PADDR]

/-- The directory in its slot, and a table in frame `0x400` for the addresses
    below 4 MiB. -/
def demoSelf : State :=
  ⟨Function.update (Function.update (fun _ => 0#32) (slot demoDir 0#32) 0x400007#32)
    (slot demoDir (PDX VPT)) (PADDR demoDir ||| PTE_P ||| PTE_W), 0⟩

theorem demoSelf_selfMapped : SelfMapped demoDir demoSelf.mem (PDX VPT) :=
  selfMapped_init (by decide) _ _

/-- The entry of the address `0x1234`. -/
theorem vpt_reaches_get_pte_demo :
    ∃ pa flags, translate demoSelf.mem (PADDR demoDir) (slot vpt 1#32)
        = some (pa, flags) ∧
      getPte demoPages demoAlloc demoDir 0x1234#32 demoSelf
        = (VADDR pa, demoSelf) :=
  (vpt_reaches_get_pte demoPages demoAlloc demoSelf_selfMapped).1 0x1234#32
    (by decide +kernel)

end SharixPaging
