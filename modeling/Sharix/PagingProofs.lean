import Mathlib.Data.BitVec
import Mathlib.Algebra.Group.Nat.Defs
import Mathlib.Logic.Function.Basic
import Mathlib.Tactic.IntervalCases

/-! # Addresses, pages and table entries — the macros of `mmu.h` and `pmm.h`

    Words and addresses are 32 bits wide.  Three facts carry everything that
    follows:

    * the fields of a linear address are digits of its number, so the page
      number is the pair of `PDX` and `PTX`;
    * an entry is a page-aligned address with twelve bits of flags, and both
      can be read back from it;
    * the slots of page-aligned tables are addresses whose table and index can
      be read back, so different slots never overlap. -/

namespace SharixPaging

abbrev Word := BitVec 32

def KERNBASE : Word := 0xC0000000#32
def PGSIZE : Word := 4096#32
def PTE_P : Word := 0x001#32
def PTE_W : Word := 0x002#32
def PTE_U : Word := 0x004#32

def PAGE_NUM (la : Word) : Word := la >>> 12
def PDX (la : Word) : Word := (la >>> 22) &&& 0x3FF#32
def PTX (la : Word) : Word := (la >>> 12) &&& 0x3FF#32
def PPN (la : Word) : Word := la >>> 12
def PTE_ADDR (pte : Word) : Word := pte &&& ~~~0xFFF#32
def PDE_ADDR (pte : Word) : Word := PTE_ADDR pte
def VADDR (kpa : Word) : Word := kpa + KERNBASE

/-- `page - pages` for pointers to the 16 bytes of a `struct Page`. -/
def page2n (pages page : Word) : Word := (page - pages).sshiftRight 4

def page2pa (pages page : Word) : Word := page2n pages page <<< 12

/-- `&pages[n]`. -/
def pageAt (pages n : Word) : Word := pages + 16#32 * n

def pa2page (pages p : Word) : Word := pageAt pages (PAGE_NUM p)

def pte2page (pages pte : Word) : Word := pa2page pages (PTE_ADDR pte)

/-- `&table[i]` of a table of words. -/
def slot (table i : Word) : Word := table + 4#32 * i

/-! ## Fields of an address -/

/-- A mask of ones is a remainder. -/
theorem toNat_and_ones (x : Word) {k : Nat} (hk : k < 32) :
    (x &&& BitVec.ofNat 32 (2 ^ k - 1)).toNat = x.toNat % 2 ^ k := by
  have hlt : 2 ^ k < 2 ^ 32 := Nat.pow_lt_pow_right (by omega) hk
  rw [BitVec.toNat_and, BitVec.toNat_ofNat, Nat.mod_eq_of_lt (by omega),
    Nat.and_two_pow_sub_one_eq_mod]

theorem toNat_PPN (la : Word) : (PPN la).toNat = la.toNat / 4096 := by
  rw [PPN, BitVec.toNat_ushiftRight, Nat.shiftRight_eq_div_pow]

/-- The directory index is the high ten bits, the table index the next ten. -/
theorem toNat_PDX (la : Word) : (PDX la).toNat = la.toNat / 4096 / 1024 := by
  have hlt := la.isLt
  rw [PDX, show 0x3FF#32 = BitVec.ofNat 32 (2 ^ 10 - 1) from rfl,
    toNat_and_ones _ (by omega), BitVec.toNat_ushiftRight,
    Nat.shiftRight_eq_div_pow]
  omega

theorem toNat_PTX (la : Word) : (PTX la).toNat = la.toNat / 4096 % 1024 := by
  rw [PTX, show 0x3FF#32 = BitVec.ofNat 32 (2 ^ 10 - 1) from rfl,
    toNat_and_ones _ (by omega), BitVec.toNat_ushiftRight,
    Nat.shiftRight_eq_div_pow]
  omega

/-- Both index tables of 1024 entries. -/
theorem PDX_lt (la : Word) : (PDX la).toNat < 1024 := by
  have hlt := la.isLt
  rw [toNat_PDX]
  omega

theorem PTX_lt (la : Word) : (PTX la).toNat < 1024 := by
  rw [toNat_PTX]
  omega

/-- The page number is the pair of the two table indices. -/
theorem PPN_eq_iff (la lb : Word) :
    PPN la = PPN lb ↔ PDX la = PDX lb ∧ PTX la = PTX lb := by
  rw [← BitVec.toNat_inj, ← BitVec.toNat_inj, ← BitVec.toNat_inj, toNat_PPN,
    toNat_PPN, toNat_PDX, toNat_PDX, toNat_PTX, toNat_PTX]
  omega

/-! ## Aligned addresses and their slots -/

/-- The address of a page. -/
def PageAligned (base : Word) : Prop := base.toNat % 4096 = 0

instance (base : Word) : Decidable (PageAligned base) :=
  inferInstanceAs (Decidable (_ = _))

/-- Clearing the low twelve bits is shifting them out and back. -/
theorem PTE_ADDR_shift (x : Word) : PTE_ADDR x = (x >>> 12) <<< 12 := by
  apply BitVec.eq_of_getLsbD_eq
  intro i hi
  rw [PTE_ADDR]
  interval_cases i <;> simp

/-- The address is rounded down to its page. -/
theorem toNat_PTE_ADDR (x : Word) :
    (PTE_ADDR x).toNat = x.toNat / 4096 * 4096 := by
  have hlt := x.isLt
  rw [PTE_ADDR_shift, BitVec.toNat_shiftLeft, BitVec.toNat_ushiftRight,
    Nat.shiftRight_eq_div_pow, Nat.shiftLeft_eq]
  omega

theorem PTE_ADDR_aligned (x : Word) : PageAligned (PTE_ADDR x) := by
  rw [PageAligned, toNat_PTE_ADDR]
  omega

/-- A `struct Page` stands for a whole page. -/
theorem page2pa_aligned (pages page : Word) :
    PageAligned (page2pa pages page) := by
  rw [PageAligned, page2pa, BitVec.toNat_shiftLeft, Nat.shiftLeft_eq]
  omega

/-- `KERNBASE` is the address of a page. -/
theorem VADDR_aligned {pa : Word} (h : PageAligned pa) :
    PageAligned (VADDR pa) := by
  rw [PageAligned] at h ⊢
  rw [VADDR, KERNBASE, BitVec.toNat_add]
  simp only [BitVec.toNat_ofNat]
  omega

theorem VADDR_inj {pa pb : Word} : VADDR pa = VADDR pb ↔ pa = pb :=
  BitVec.add_left_inj KERNBASE

/-- A table does not run over the end of memory. -/
theorem toNat_slot {table i : Word} (ht : PageAligned table)
    (hi : i.toNat < 1024) : (slot table i).toNat = table.toNat + 4 * i.toNat := by
  have hlt := table.isLt
  rw [PageAligned] at ht
  rw [slot, BitVec.toNat_add, BitVec.toNat_mul]
  simp only [BitVec.toNat_ofNat]
  omega

/-- Slots of aligned tables are equal only for the same table and index. -/
theorem slot_inj {t u i j : Word} (ht : PageAligned t) (hu : PageAligned u)
    (hi : i.toNat < 1024) (hj : j.toNat < 1024) (h : slot t i = slot u j) :
    t = u ∧ i = j := by
  rw [← BitVec.toNat_inj, toNat_slot ht hi, toNat_slot hu hj] at h
  rw [PageAligned] at ht hu
  rw [← BitVec.toNat_inj, ← BitVec.toNat_inj]
  omega

/-- A slot lies in the page of its table and in no other. -/
theorem slot_mem_page {t u i : Word} (ht : PageAligned t) (hu : PageAligned u)
    (hi : i.toNat < 1024) : slot t i - u < PGSIZE ↔ t = u := by
  rw [BitVec.lt_def, BitVec.toNat_sub, toNat_slot ht hi, PGSIZE]
  rw [PageAligned] at ht hu
  have h1 := t.isLt
  have h2 := u.isLt
  rw [← BitVec.toNat_inj]
  simp only [BitVec.toNat_ofNat]
  omega

/-! ## Entries -/

/-- Address and flags share no bit, so their union is their sum. -/
theorem toNat_or_flags {base flags : Word} (hb : PageAligned base)
    (hf : flags.toNat < 4096) :
    (base ||| flags).toNat = base.toNat + flags.toNat := by
  rw [PageAligned] at hb
  have hsplit : base.toNat = 2 ^ 12 * (base.toNat / 4096) := by omega
  rw [BitVec.toNat_or, hsplit, ← Nat.two_pow_add_eq_or_of_lt hf]

/-- The address of an entry that was put together. -/
theorem PTE_ADDR_or {base flags : Word} (hb : PageAligned base)
    (hf : flags.toNat < 4096) : PTE_ADDR (base ||| flags) = base := by
  rw [← BitVec.toNat_inj, toNat_PTE_ADDR, toNat_or_flags hb hf]
  rw [PageAligned] at hb
  omega

/-- The twelve flag bits of an entry. -/
def flagsOf (pte : Word) : Word := pte &&& 0xFFF#32

/-- And its flags. -/
theorem flagsOf_or {base flags : Word} (hb : PageAligned base)
    (hf : flags.toNat < 4096) : flagsOf (base ||| flags) = flags := by
  rw [← BitVec.toNat_inj, flagsOf,
    show 0xFFF#32 = BitVec.ofNat 32 (2 ^ 12 - 1) from rfl,
    toNat_and_ones _ (by omega), toNat_or_flags hb hf]
  rw [PageAligned] at hb
  omega

/-- The present bit. -/
abbrev Present (pte : Word) : Prop := pte &&& PTE_P ≠ 0#32

/-- The present bit is bit 0. -/
theorem present_iff (pte : Word) : Present pte ↔ pte.getLsbD 0 = true := by
  rw [Present, ne_eq, ← BitVec.toNat_inj, PTE_P,
    show 0x001#32 = BitVec.ofNat 32 (2 ^ 1 - 1) from rfl,
    toNat_and_ones _ (by omega), BitVec.getLsbD, Nat.testBit_zero]
  simp

/-- What is entered with `PTE_P` is present, whatever the permissions are. -/
theorem present_or (pa flags : Word) : Present (pa ||| PTE_P ||| flags) := by
  rw [present_iff, BitVec.getLsbD_or, BitVec.getLsbD_or, PTE_P]
  simp

theorem not_present_zero : ¬ Present 0#32 := by
  rw [Present]
  simp

/-- Permissions with `PTE_P` still fit below the address. -/
theorem flags_lt {perm : Word} (h : perm.toNat < 4096) :
    (PTE_P ||| perm).toNat < 4096 := by
  rw [BitVec.toNat_or]
  exact Nat.or_lt_two_pow (n := 12) (by decide) h

/-! ## Pages -/

/-- A `struct Page` whose frame has a 32-bit physical address. -/
def IsPage (pages page : Word) : Prop :=
  ∃ n : Word, n.toNat < 2 ^ 20 ∧ page = pageAt pages n

/-- The number of a page is not cut off by the arithmetic on pointers. -/
theorem page2pa_pageAt (pages : Word) {n : Word} (hn : n.toNat < 2 ^ 20) :
    page2pa pages (pageAt pages n) = n <<< 12 := by
  have hdiff : pageAt pages n - pages = 16#32 * n := by
    rw [pageAt, BitVec.add_comm, BitVec.add_sub_cancel]
  have hmul : (16#32 * n).toNat = 16 * n.toNat := by
    rw [BitVec.toNat_mul, BitVec.toNat_ofNat]
    omega
  have hmsb : (16#32 * n).msb = false := by
    rw [BitVec.msb_eq_false_iff_two_mul_lt, hmul]
    omega
  rw [page2pa, page2n, hdiff, BitVec.sshiftRight_eq_of_msb_false hmsb]
  congr 1
  rw [← BitVec.toNat_inj, BitVec.toNat_ushiftRight, hmul,
    Nat.shiftRight_eq_div_pow]
  omega

/-- An entry leads back to the page it was made for. -/
theorem pte2page_or {pages page flags : Word} (hp : IsPage pages page)
    (hf : flags.toNat < 4096) :
    pte2page pages (page2pa pages page ||| flags) = page := by
  obtain ⟨n, hn, rfl⟩ := hp
  rw [pte2page, PTE_ADDR_or (page2pa_aligned _ _) hf, page2pa_pageAt pages hn,
    pa2page]
  congr 1
  rw [PAGE_NUM, ← BitVec.toNat_inj, BitVec.toNat_ushiftRight,
    BitVec.toNat_shiftLeft, Nat.shiftLeft_eq, Nat.shiftRight_eq_div_pow]
  omega

/-- The flags do not matter to `pa2page`. -/
theorem pa2page_eq_pte2page (pages pte : Word) :
    pa2page pages pte = pte2page pages pte := by
  rw [pte2page, pa2page, pa2page]
  congr 1
  rw [PAGE_NUM, PAGE_NUM, ← BitVec.toNat_inj, BitVec.toNat_ushiftRight,
    BitVec.toNat_ushiftRight, toNat_PTE_ADDR, Nat.shiftRight_eq_div_pow]
  omega

end SharixPaging
