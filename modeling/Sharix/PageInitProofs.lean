import Mathlib.Data.List.Nodup
import Sharix.PhysMapProofs

/-! # `page_init` — the memory map of the BIOS

    The first pass over the map finds how many pages to describe, the second
    hands the free ones to the allocator, and both cut the ranges to the
    memory below `KMEMSIZE`.  Addresses are 64 bits wide, but rounding is done
    in 32: it comes after the cut, so it loses nothing. -/

namespace SharixPaging

/-! ## The model -/

def E820MAX : Nat := 20
def E820_ARM : Word := 1#32

structure E820 where
  addr : BitVec 64
  size : BitVec 64
  type : Word
deriving DecidableEq, Repr

/-- The first `nr_map` entries of the map. -/
structure E820map where
  map : List E820
  nrMap_le : map.length ≤ E820MAX

/-- `ROUNDUP` and `ROUNDDOWN` of a `uint64_t`, which they cast to `size_t`. -/
def ROUNDUP64 (a : BitVec 64) : BitVec 64 :=
  (ROUNDUP (a.setWidth 32) PGSIZE).setWidth 64

def ROUNDDOWN64 (a : BitVec 64) : BitVec 64 :=
  (ROUNDDOWN (a.setWidth 32) PGSIZE).setWidth 64

/-- The first pass at one entry. -/
def maxpaStep (maxpa : BitVec 64) (e : E820) : BitVec 64 :=
  let start := e.addr
  let free_end := start + e.size
  if e.type = E820_ARM then
    if maxpa < free_end ∧ start < KMEMSIZE.setWidth 64 then free_end else maxpa
  else maxpa

def maxpaOf (m : E820map) : BitVec 64 :=
  let maxpa := m.map.foldl maxpaStep 0#64
  if maxpa > KMEMSIZE.setWidth 64 then KMEMSIZE.setWidth 64 else maxpa

/-- The second pass at one entry: the arguments of `init_memmap`, if it is
    called. -/
def memmapArgs (pages freemem : Word) (e : E820) : Option (Word × Word) :=
  let start := e.addr
  let free_end := start + e.size
  if e.type = E820_ARM then
    let start := if start < freemem.setWidth 64 then freemem.setWidth 64 else start
    let free_end :=
      if free_end > KMEMSIZE.setWidth 64 then KMEMSIZE.setWidth 64 else free_end
    if start < free_end then
      let start := ROUNDUP64 start
      let free_end := ROUNDDOWN64 free_end
      if start < free_end then
        some (pa2page pages (start.setWidth 32),
          ((free_end - start) / PGSIZE.setWidth 64).setWidth 32)
      else none
    else none
  else none

/-- The globals that `page_init` sets, and its calls of `init_memmap`. -/
structure PageInit where
  npage : Word
  pages : Word
  freemem : Word
  calls : List (Word × Word)

/-- The kernel ends at `kend`. -/
def pageInit (kend : Word) (m : E820map) : PageInit :=
  let npage := (maxpaOf m / PGSIZE.setWidth 64).setWidth 32
  let pages := ROUNDUP kend PGSIZE
  let freemem := PADDR (pages + 16#32 * npage)
  ⟨npage, pages, freemem, m.map.filterMap (memmapArgs pages freemem)⟩

/-- The struct pages that the calls of `init_memmap(base, n)` get. -/
def handed (calls : List (Word × Word)) : List Word :=
  calls.flatMap fun c => (List.range c.2.toNat).map fun k =>
    c.1 + 16#32 * BitVec.ofNat 32 k

/-! ## The ranges -/

def startOf (e : E820) : Nat := e.addr.toNat

def stopOf (e : E820) : Nat := e.addr.toNat + e.size.toNat

/-- Page `n` lies in a usable range. -/
def Usable (m : E820map) (n : Nat) : Prop :=
  ∃ e ∈ m.map, e.type = E820_ARM ∧ startOf e ≤ 4096 * n ∧ 4096 * n + 4096 ≤ stopOf e

/-- The ranges do not wrap and have no address in common. -/
structure RangesOk (m : E820map) : Prop where
  noWrap : ∀ e ∈ m.map, stopOf e < 2 ^ 64
  disjoint : m.map.Pairwise fun a b =>
    ∀ x, ¬ ((startOf a ≤ x ∧ x < stopOf a) ∧ (startOf b ≤ x ∧ x < stopOf b))

theorem toNat_kmemsize : (KMEMSIZE.setWidth 64).toNat = 0x38000000 := rfl

theorem toNat_stop {e : E820} (h : stopOf e < 2 ^ 64) :
    (e.addr + e.size).toNat = stopOf e := by
  rw [BitVec.toNat_add, ← stopOf]
  exact Nat.mod_eq_of_lt h

/-- Rounding up below `KMEMSIZE`, where the cast loses nothing. -/
theorem toNat_ROUNDUP64 {a : BitVec 64} (h : a.toNat ≤ 0x38000000) :
    (ROUNDUP64 a).toNat = (a.toNat + 4095) / 4096 * 4096 := by
  have hsize : PGSIZE.toNat = 4096 := rfl
  have hsum : (a.setWidth 32 + PGSIZE - 1#32).toNat = a.toNat + 4095 := by
    rw [BitVec.toNat_sub, BitVec.toNat_add, BitVec.toNat_setWidth, hsize,
      BitVec.toNat_ofNat]
    omega
  rw [ROUNDUP64, ROUNDUP, BitVec.toNat_setWidth, toNat_ROUNDDOWN, hsum]
  omega

theorem toNat_ROUNDDOWN64 {a : BitVec 64} (h : a.toNat ≤ 0x38000000) :
    (ROUNDDOWN64 a).toNat = a.toNat / 4096 * 4096 := by
  rw [ROUNDDOWN64, BitVec.toNat_setWidth, toNat_ROUNDDOWN, BitVec.toNat_setWidth]
  omega

/-! ## The second pass -/

/-- The first page of a range at or above `freemem`. -/
def firstPage (freemem : Word) (e : E820) : Nat :=
  (max (startOf e) freemem.toNat + 4095) / 4096

/-- The end of the pages of a range below `KMEMSIZE`. -/
def endPage (e : E820) : Nat := min (stopOf e) 0x38000000 / 4096

/-- No page beyond `KMEMSIZE` is counted. -/
theorem endPage_le (e : E820) : endPage e ≤ 0x38000 :=
  Nat.div_le_of_le_mul (Nat.min_le_right _ _)

/-- The pages of an entry: between the rounded ends, and above what the kernel
    takes. -/
theorem mem_pages_iff (freemem : Word) (e : E820) (n : Nat) :
    (firstPage freemem e ≤ n ∧ n < endPage e) ↔
      startOf e ≤ 4096 * n ∧ 4096 * n + 4096 ≤ stopOf e ∧
      freemem.toNat ≤ 4096 * n ∧ 4096 * n + 4096 ≤ 0x38000000 := by
  rw [firstPage, endPage]
  omega

/-- A usable range with pages is handed over from its first page on, and one
    without pages is not. -/
theorem memmapArgs_eq (pages freemem : Word) {e : E820} (harm : e.type = E820_ARM)
    (h : stopOf e < 2 ^ 64) :
    memmapArgs pages freemem e
      = if firstPage freemem e < endPage e then
          some (pageAt pages (BitVec.ofNat 32 (firstPage freemem e)),
            BitVec.ofNat 32 (endPage e - firstPage freemem e))
        else none := by
  have hfree : (freemem.setWidth 64).toNat = freemem.toNat := by
    have hlt := freemem.isLt
    rw [BitVec.toNat_setWidth]
    omega
  -- both ends after the cut
  obtain ⟨b, hb, hbn⟩ : ∃ b, (if e.addr < freemem.setWidth 64
      then freemem.setWidth 64 else e.addr) = b ∧
      b.toNat = max (startOf e) freemem.toNat := by
    refine ⟨_, rfl, ?_⟩
    split
    · rename_i hlt
      rw [BitVec.lt_def, hfree] at hlt
      rw [hfree, startOf]
      omega
    · rename_i hlt
      rw [BitVec.lt_def, hfree] at hlt
      rw [startOf]
      omega
  obtain ⟨f, hf, hfn⟩ : ∃ f, (if e.addr + e.size > KMEMSIZE.setWidth 64
      then KMEMSIZE.setWidth 64 else e.addr + e.size) = f ∧
      f.toNat = min (stopOf e) 0x38000000 := by
    refine ⟨_, rfl, ?_⟩
    split
    · rename_i hlt
      rw [gt_iff_lt, BitVec.lt_def, toNat_kmemsize, toNat_stop h] at hlt
      rw [toNat_kmemsize]
      omega
    · rename_i hlt
      rw [gt_iff_lt, BitVec.lt_def, toNat_kmemsize, toNat_stop h] at hlt
      rw [toNat_stop h]
      omega
  rw [memmapArgs]
  dsimp only
  rw [if_pos harm, hb, hf]
  by_cases hlt : b < f
  · rw [if_pos hlt]
    rw [BitVec.lt_def] at hlt
    have hup := toNat_ROUNDUP64 (a := b) (by omega)
    have hdown := toNat_ROUNDDOWN64 (a := f) (by omega)
    have hfirst : (ROUNDUP64 b).toNat = firstPage freemem e * 4096 := by
      rw [hup, hbn, firstPage]
    have hend : (ROUNDDOWN64 f).toNat = endPage e * 4096 := by
      rw [hdown, hfn, endPage]
    have hmax := endPage_le e
    by_cases hpages : firstPage freemem e < endPage e
    · rw [if_pos hpages, if_pos (by rw [BitVec.lt_def, hfirst, hend]; omega)]
      refine congrArg some (Prod.ext ?_ ?_)
      · refine congrArg (pageAt pages) ?_
        rw [PAGE_NUM, ← BitVec.toNat_inj, BitVec.toNat_ushiftRight,
          BitVec.toNat_setWidth, hfirst, BitVec.toNat_ofNat,
          Nat.shiftRight_eq_div_pow]
        omega
      · have hsize : (PGSIZE.setWidth 64).toNat = 4096 := rfl
        rw [← BitVec.toNat_inj, BitVec.toNat_setWidth, BitVec.toNat_udiv,
          BitVec.toNat_sub, hfirst, hend, hsize, BitVec.toNat_ofNat]
        omega
    · rw [if_neg hpages, if_neg]
      rw [BitVec.lt_def, hfirst, hend]
      omega
  · rw [if_neg hlt, if_neg]
    rw [BitVec.lt_def] at hlt
    rw [firstPage, endPage]
    omega

/-! ## The pages handed over -/

/-- The struct pages of a usable range. -/
def pagesOf (pages freemem : Word) (e : E820) : List Word :=
  if e.type = E820_ARM then
    (List.range (endPage e - firstPage freemem e)).map fun k =>
      pageAt pages (BitVec.ofNat 32 (firstPage freemem e + k))
  else []

theorem pageAt_add (pages : Word) (n k : Nat) :
    pageAt pages (BitVec.ofNat 32 n) + 16#32 * BitVec.ofNat 32 k
      = pageAt pages (BitVec.ofNat 32 (n + k)) := by
  rw [pageAt, pageAt, BitVec.ofNat_add, BitVec.mul_add, BitVec.add_assoc]

theorem toNat_pageAt_sub (pages : Word) {n : Nat} (hn : n < 2 ^ 28) :
    (pageAt pages (BitVec.ofNat 32 n) - pages).toNat = 16 * n := by
  rw [pageAt, BitVec.add_comm, BitVec.add_sub_cancel, BitVec.toNat_mul,
    BitVec.toNat_ofNat, BitVec.toNat_ofNat]
  omega

/-- A `struct Page` belongs to one page number. -/
theorem pageAt_inj {pages : Word} {n k : Nat} (hn : n < 2 ^ 28) (hk : k < 2 ^ 28)
    (h : pageAt pages (BitVec.ofNat 32 n) = pageAt pages (BitVec.ofNat 32 k)) :
    n = k := by
  have h1 := toNat_pageAt_sub pages hn
  rw [h, toNat_pageAt_sub pages hk] at h1
  omega

theorem handed_cons (c : Word × Word) (calls : List (Word × Word)) :
    handed (c :: calls) = ((List.range c.2.toNat).map fun k =>
      c.1 + 16#32 * BitVec.ofNat 32 k) ++ handed calls :=
  List.flatMap_cons

/-- The calls hand over the pages of the ranges, one after the other. -/
theorem handed_eq (pages freemem : Word) {es : List E820}
    (h : ∀ e ∈ es, stopOf e < 2 ^ 64) :
    handed (es.filterMap (memmapArgs pages freemem))
      = es.flatMap (pagesOf pages freemem) := by
  induction es with
  | nil => rfl
  | cons e es ih =>
      have hrest := ih fun e' he' => h e' (List.mem_cons_of_mem _ he')
      rw [List.flatMap_cons, pagesOf]
      by_cases harm : e.type = E820_ARM
      · have hargs := memmapArgs_eq pages freemem harm (h e List.mem_cons_self)
        have hmax := endPage_le e
        rw [if_pos harm]
        by_cases hpages : firstPage freemem e < endPage e
        · -- the count fits in 32 bits, as all pages are below `KMEMSIZE`
          rw [if_pos hpages] at hargs
          rw [List.filterMap_cons_some hargs, handed_cons, hrest]
          refine congrArg (· ++ _) ?_
          dsimp only
          rw [BitVec.toNat_ofNat, Nat.mod_eq_of_lt (by omega)]
          exact List.map_congr_left fun k _ => pageAt_add pages _ k
        · rw [if_neg hpages] at hargs
          rw [List.filterMap_cons_none hargs, hrest, Nat.sub_eq_zero_of_le
            (Nat.le_of_not_lt hpages)]
          rfl
      · have hargs : memmapArgs pages freemem e = none := if_neg harm
        rw [if_neg harm, List.filterMap_cons_none hargs, hrest]
        rfl

/-- What an entry hands out, as addresses of `struct Page`. -/
theorem mem_pagesOf {pages freemem : Word} {e : E820} {page : Word} :
    page ∈ pagesOf pages freemem e ↔ e.type = E820_ARM ∧
      ∃ n, page = pageAt pages (BitVec.ofNat 32 n) ∧
        firstPage freemem e ≤ n ∧ n < endPage e := by
  rw [pagesOf]
  by_cases harm : e.type = E820_ARM
  · rw [if_pos harm, List.mem_map]
    constructor
    · rintro ⟨k, hk, rfl⟩
      rw [List.mem_range] at hk
      exact ⟨harm, _, rfl, by omega, by omega⟩
    · rintro ⟨-, n, rfl, h1, h2⟩
      refine ⟨n - firstPage freemem e, List.mem_range.mpr (by omega), ?_⟩
      rw [Nat.add_sub_cancel' h1]
  · rw [if_neg harm]
    exact iff_of_false List.not_mem_nil (fun h => harm h.1)

/-- An entry hands out no page twice. -/
theorem pagesOf_nodup (pages freemem : Word) (e : E820) :
    (pagesOf pages freemem e).Nodup := by
  have hmax := endPage_le e
  rw [pagesOf]
  split
  · refine List.Nodup.map_on (fun i hi j hj h => ?_) List.nodup_range
    rw [List.mem_range] at hi hj
    have heq := pageAt_inj (by omega) (by omega) h
    omega
  · exact List.nodup_nil

/-! ## The first pass -/

/-- `maxpa` only grows. -/
theorem maxpaStep_ge (maxpa : BitVec 64) {e : E820} (h : stopOf e < 2 ^ 64) :
    maxpa.toNat ≤ (maxpaStep maxpa e).toNat ∧
      (e.type = E820_ARM → startOf e < 0x38000000 →
        stopOf e ≤ (maxpaStep maxpa e).toNat) := by
  rw [maxpaStep]
  by_cases harm : e.type = E820_ARM
  · rw [if_pos harm]
    by_cases hlt : maxpa < e.addr + e.size ∧ e.addr < KMEMSIZE.setWidth 64
    · rw [if_pos hlt, toNat_stop h]
      have h1 := BitVec.lt_def.mp hlt.1
      rw [toNat_stop h] at h1
      exact ⟨Nat.le_of_lt h1, fun _ _ => Nat.le_refl _⟩
    · rw [if_neg hlt]
      refine ⟨Nat.le_refl _, fun _ hstart => ?_⟩
      rw [BitVec.lt_def, BitVec.lt_def, toNat_stop h, toNat_kmemsize] at hlt
      rw [startOf] at hstart
      omega
  · rw [if_neg harm]
    exact ⟨Nat.le_refl _, fun harm' => absurd harm' harm⟩

/-- `maxpa` is at least the end of every usable range that starts below
    `KMEMSIZE`. -/
theorem maxpa_ge {es : List E820} : ∀ (maxpa : BitVec 64),
    (∀ e ∈ es, stopOf e < 2 ^ 64) →
    maxpa.toNat ≤ (es.foldl maxpaStep maxpa).toNat ∧
      ∀ e ∈ es, e.type = E820_ARM → startOf e < 0x38000000 →
        stopOf e ≤ (es.foldl maxpaStep maxpa).toNat := by
  induction es with
  | nil => exact fun maxpa _ => ⟨Nat.le_refl _, fun e he => absurd he List.not_mem_nil⟩
  | cons e es ih =>
      intro maxpa h
      obtain ⟨h1, h2⟩ := maxpaStep_ge maxpa (h e List.mem_cons_self)
      obtain ⟨h3, h4⟩ := ih (maxpaStep maxpa e)
        fun e' he' => h e' (List.mem_cons_of_mem _ he')
      rw [List.foldl_cons]
      refine ⟨Nat.le_trans h1 h3, fun e' he' harm hstart => ?_⟩
      rcases List.mem_cons.mp he' with rfl | he'
      · exact Nat.le_trans (h2 harm hstart) h3
      · exact h4 e' he' harm hstart

theorem toNat_maxpaOf (m : E820map) :
    (maxpaOf m).toNat = min (m.map.foldl maxpaStep 0#64).toNat 0x38000000 := by
  rw [maxpaOf]
  split
  · rename_i hlt
    rw [gt_iff_lt, BitVec.lt_def, toNat_kmemsize] at hlt
    rw [toNat_kmemsize]
    omega
  · rename_i hlt
    rw [gt_iff_lt, BitVec.lt_def, toNat_kmemsize] at hlt
    omega

theorem toNat_npage (kend : Word) (m : E820map) :
    (pageInit kend m).npage.toNat = (maxpaOf m).toNat / 4096 := by
  have hmax := toNat_maxpaOf m
  have hsize : (PGSIZE.setWidth 64).toNat = 4096 := rfl
  rw [pageInit, BitVec.toNat_setWidth, BitVec.toNat_udiv, hsize]
  omega

/-- The pages of a usable range are described. -/
theorem lt_npage (kend : Word) {m : E820map} (h : RangesOk m) {e : E820}
    (he : e ∈ m.map) (harm : e.type = E820_ARM) {n : Nat}
    (hstart : startOf e ≤ 4096 * n) (hstop : 4096 * n + 4096 ≤ stopOf e)
    (hmem : 4096 * n + 4096 ≤ 0x38000000) : n < (pageInit kend m).npage.toNat := by
  have hge := (maxpa_ge 0#64 h.noWrap).2 e he harm (by omega)
  rw [toNat_npage, toNat_maxpaOf]
  omega

/-- **EXACTLY THE USABLE PAGES**: `page_init` hands over each page that lies in
    a usable range at or above `freemem` and below `KMEMSIZE`, once, and no
    other; and its struct page lies in the array that ends at `freemem`. -/
theorem page_init_hands_out (kend : Word) {m : E820map} (h : RangesOk m) :
    let r := pageInit kend m
    (handed r.calls).Nodup ∧
    (∀ page, page ∈ handed r.calls ↔
      ∃ n, page = pageAt r.pages (BitVec.ofNat 32 n) ∧ Usable m n ∧
        r.freemem.toNat ≤ 4096 * n ∧ 4096 * n + 4096 ≤ KMEMSIZE.toNat) ∧
    ∀ page ∈ handed r.calls,
      ∃ n, page = pageAt r.pages (BitVec.ofNat 32 n) ∧ n < r.npage.toNat ∧
        (page - r.pages).toNat = 16 * n ∧
        16 * n + 16 ≤ (VADDR r.freemem - r.pages).toNat := by
  intro r
  have hk : KMEMSIZE.toNat = 0x38000000 := rfl
  have hhanded : handed r.calls = m.map.flatMap (pagesOf r.pages r.freemem) :=
    handed_eq _ _ h.noWrap
  have hmem : ∀ page, page ∈ handed r.calls ↔
      ∃ n, page = pageAt r.pages (BitVec.ofNat 32 n) ∧ Usable m n ∧
        r.freemem.toNat ≤ 4096 * n ∧ 4096 * n + 4096 ≤ KMEMSIZE.toNat := by
    intro page
    rw [hhanded, List.mem_flatMap, hk]
    constructor
    · rintro ⟨e, he, hpage⟩
      obtain ⟨harm, n, hn, hrange⟩ := mem_pagesOf.mp hpage
      obtain ⟨h1, h2, h3, h4⟩ := (mem_pages_iff _ _ _).mp hrange
      exact ⟨n, hn, ⟨e, he, harm, h1, h2⟩, h3, h4⟩
    · rintro ⟨n, hn, ⟨e, he, harm, h1, h2⟩, h3, h4⟩
      exact ⟨e, he, mem_pagesOf.mpr
        ⟨harm, n, hn, (mem_pages_iff _ _ _).mpr ⟨h1, h2, h3, h4⟩⟩⟩
  refine ⟨?_, hmem, fun page hpage => ?_⟩
  · -- a page of two ranges would be an address of both
    rw [hhanded, List.nodup_flatMap]
    refine ⟨fun e _ => pagesOf_nodup _ _ e, h.disjoint.imp fun {a b} hab => ?_⟩
    intro page ha hb
    obtain ⟨-, n, hn, hna⟩ := mem_pagesOf.mp ha
    obtain ⟨-, k, hk', hkb⟩ := mem_pagesOf.mp hb
    obtain ⟨h1, h2, -, h3⟩ := (mem_pages_iff _ _ _).mp hna
    obtain ⟨h4, h5, -, h6⟩ := (mem_pages_iff _ _ _).mp hkb
    obtain rfl := pageAt_inj (by omega) (by omega) (hn.symm.trans hk')
    exact hab (4096 * n) ⟨⟨h1, by omega⟩, h4, by omega⟩
  · obtain ⟨n, hn, ⟨e, he, harm, h1, h2⟩, -, h4⟩ := (hmem page).mp hpage
    rw [hk] at h4
    have hlt : n < r.npage.toNat := lt_npage kend h he harm h1 h2 h4
    have hmax : r.npage.toNat ≤ 0x38000 := by
      rw [toNat_npage, toNat_maxpaOf]
      omega
    refine ⟨n, hn, hlt, ?_, ?_⟩
    · rw [hn]
      exact toNat_pageAt_sub _ (by omega)
    · have hfree : VADDR r.freemem = r.pages + 16#32 * r.npage := VADDR_PADDR _
      rw [hfree, BitVec.add_comm, BitVec.add_sub_cancel, BitVec.toNat_mul,
        BitVec.toNat_ofNat]
      omega

/-- Memory below 640 KiB and 127 MiB from 1 MiB on, with a hole for devices. -/
def demoMap : E820map :=
  ⟨[⟨0x0#64, 0x9FC00#64, 1#32⟩, ⟨0xF0000#64, 0x10000#64, 2#32⟩,
    ⟨0x100000#64, 0x7EE0000#64, 1#32⟩], by decide⟩

/-- The page at 16 MiB is handed over. -/
theorem page_init_hands_out_demo :
    pageAt (pageInit 0xC0120000#32 demoMap).pages 0x1000#32
      ∈ handed (pageInit 0xC0120000#32 demoMap).calls := by
  have hok : RangesOk demoMap := by
    have hord : demoMap.map.Pairwise fun a b => stopOf a ≤ startOf b := by decide
    refine ⟨by decide, hord.imp fun hab x => ?_⟩
    rintro ⟨⟨-, h1⟩, h2, -⟩
    omega
  refine ((page_init_hands_out 0xC0120000#32 hok).2.1 _).mpr
    ⟨0x1000, rfl, ⟨⟨0x100000#64, 0x7EE0000#64, 1#32⟩, ?_, rfl, ?_, ?_⟩, ?_, ?_⟩
  · decide
  · decide
  · decide
  · decide +kernel
  · decide

end SharixPaging
