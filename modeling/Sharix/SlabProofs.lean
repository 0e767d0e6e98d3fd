import Mathlib.Algebra.Group.Nat.Defs
import Sharix.RunProofs
import Sharix.ListProofs

/-! # The slab allocator — `slab.c`

    Thirteen caches of objects of 32 bytes to 128 KiB.  A slab is a run of
    pages cut into objects; its control block, a `slab_t` and one bufctl for
    each object, lies at the start of the pages or, for large objects, in an
    object of another cache.

    A `slab_t` is kept by its address, the caches by their index in
    `slab_cache`, a page by its index in `pages`.  Addresses are numbers.  That
    control blocks and objects never overlap is not assumed here: it is proved
    of every state a run reaches.

    The page allocator is a parameter.  Calls that get pages and give them
    back are logged. -/

namespace SharixSlab

open SharixList

/-! ## Constants and caches -/

def PGSIZE : Nat := 4096
def KERNBASE : Nat := 0xC0000000
def KMEMSIZE : Nat := 0x38000000
def BUFCTL_END : Nat := 0xFFFFFFFF
def SLAB_LIMIT : Nat := 0xFFFFFFFE
def KMALLOC_MAX_ORDER : Nat := 10
def MIN_SIZE_ORDER : Nat := 5
def MAX_SIZE_ORDER : Nat := 17
def SLAB_CACHE_NUM : Nat := MAX_SIZE_ORDER - MIN_SIZE_ORDER + 1

/-- `sizeof(slab_t)`. -/
def sizeofSlab : Nat := 24

/-- `sizeof(kmem_bufctl_t)`. -/
def sizeofBufctl : Nat := 4

def roundDown (a n : Nat) : Nat := a - a % n

def roundUp (a n : Nat) : Nat := roundDown (a + n - 1) n

def page2kva (page : Nat) : Nat := KERNBASE + page * PGSIZE

def kva2page (kva : Nat) : Nat := (kva - KERNBASE) / PGSIZE

/-- The fields of `kmem_cache_t` that `init_kmem_cache` computes; the pointer
    `slab_cachep` is an index. -/
structure KmemCache where
  objsize : Nat
  num : Nat
  offset : Nat
  offSlab : Bool
  pageOrder : Nat
  slabCachep : Nat
deriving DecidableEq, Repr

def slabMgmtSize (num align : Nat) : Nat :=
  roundUp (sizeofSlab + num * sizeofBufctl) align

/-- `while (slab_mgmt_size(nr_objs, align) + nr_objs * objsize > slab_size)
    { nr_objs --; }`. -/
def fitObjs (objsize align slabSize : Nat) : Nat → Nat
  | 0 => 0
  | nrObjs + 1 =>
      if slabMgmtSize (nrObjs + 1) align + (nrObjs + 1) * objsize > slabSize
      then fitObjs objsize align slabSize nrObjs
      else nrObjs + 1

/-- `cache_estimate`: `*num` and `*remainder`. -/
def cacheEstimate (order objsize align : Nat) (offSlab : Bool) : Nat × Nat :=
  let slabSize := PGSIZE <<< order
  if offSlab then
    let nrObjs := min (slabSize / objsize) SLAB_LIMIT
    (nrObjs, slabSize - nrObjs * objsize)
  else
    let nrObjs := min (fitObjs objsize align slabSize
      ((slabSize - sizeofSlab) / (objsize + sizeofBufctl))) SLAB_LIMIT
    (nrObjs, slabSize - nrObjs * objsize - slabMgmtSize nrObjs align)

/-- The loop of `calculate_slab_order` from `order` on: the number of objects,
    the order and what is left over. -/
def slabOrderFrom (objsize align : Nat) (offSlab : Bool) :
    Nat → Nat → Option (Nat × Nat × Nat)
  | 0, _ => none
  | fuel + 1, order =>
      let num := (cacheEstimate order objsize align offSlab).1
      let remainder := (cacheEstimate order objsize align offSlab).2
      if num ≠ 0 ∧ remainder * 8 ≤ PGSIZE <<< order then
        some (num, order, remainder)
      else slabOrderFrom objsize align offSlab fuel (order + 1)

def calculateSlabOrder (objsize align : Nat) (offSlab : Bool) :
    Option (Nat × Nat × Nat) :=
  slabOrderFrom objsize align offSlab (KMALLOC_MAX_ORDER + 1) 0

/-- The loop of `getorder`. -/
def getorderFrom (n : Nat) : Nat → Nat → Nat → Nat
  | 0, _, _ => 2 ^ 32 - 1
  | fuel + 1, order, orderSize =>
      if n ≤ orderSize then order
      else getorderFrom n fuel (order + 1) (orderSize <<< 1)

def getorder (n : Nat) : Nat :=
  getorderFrom n SLAB_CACHE_NUM MIN_SIZE_ORDER (1 <<< MIN_SIZE_ORDER)

/-- The fields that `init_kmem_cache` sets, where `calculate_slab_order` finds
    an order. -/
def initKmemCache (objsize align : Nat) : Option KmemCache :=
  let objsize := roundUp objsize align
  let offSlab := decide (objsize ≥ PGSIZE >>> 3)
  (calculateSlabOrder objsize align offSlab).map fun r =>
    let mgmtSize := slabMgmtSize r.1 align
    if offSlab && !decide (r.2.2 ≥ mgmtSize) then
      ⟨objsize, r.1, 0, true, r.2.1, getorder mgmtSize - MIN_SIZE_ORDER⟩
    else ⟨objsize, r.1, mgmtSize, false, r.2.1, 0⟩

/-- `slab_cache[i]` as `slab_init` leaves it; nothing else writes it. -/
def slabCache (i : Nat) : KmemCache :=
  (initKmemCache (1 <<< (i + MIN_SIZE_ORDER)) 16).getD ⟨0, 0, 0, false, 0, 0⟩

/-! ## The state -/

/-- `slab_t` without its link, and the bufctls behind it. -/
structure SlabT where
  sMem : Nat
  inuse : Nat
  offset : Nat
  free : Nat
  bufctl : Nat → Nat

/-- The `page_link` of a page that is used for a slab: `next` holds the cache,
    `prev` the `slab_t`. -/
structure PageLink where
  next : Nat
  prev : Nat
deriving DecidableEq, Repr

/-- The addresses of list entries: `NULL`, the two heads of a cache, and
    `&slabp->slab_link`. -/
inductive Addr where
  | null
  | slabsFull (i : Nat)
  | slabsNotfull (i : Nat)
  | slabLink (slabp : Nat)
deriving DecidableEq, Repr

instance : Nullable Addr := ⟨.null⟩

/-- `le2slab(le, slab_link)`. -/
def le2slab : Addr → Option Nat
  | .slabLink slabp => some slabp
  | _ => none

/-- A page allocator with states `σ`.  It owns the `page_link` of the pages
    that are not in use. -/
structure PageAllocator (σ : Type) where
  alloc : Nat → σ → (Nat → PageLink) → Option Nat × σ × (Nat → PageLink)
  free : Nat → Nat → σ → (Nat → PageLink) → σ × (Nat → PageLink)

/-- The lists, the slabs, the pages' `page_link` and `PG_slab`, and the page
    allocator; logged: the pages obtained and returned, with their count. -/
structure State (σ : Type) where
  link : LinkMem Addr
  slab : Nat → SlabT
  pageLink : Nat → PageLink
  pgSlab : Nat → Bool
  pmm : σ
  obtained : List (Nat × Nat)
  returned : List (Nat × Nat)

section
variable {σ : Type}

/-! ## Pages -/

def allocPages (A : PageAllocator σ) (n : Nat) (s : State σ) :
    Option Nat × State σ :=
  let r := A.alloc n s.pmm s.pageLink
  (r.1, { s with
    pmm := r.2.1
    pageLink := r.2.2
    obtained := match r.1 with
      | none => s.obtained
      | some page => (page, n) :: s.obtained })

def freePages (A : PageAllocator σ) (page n : Nat) (s : State σ) : State σ :=
  let r := A.free page n s.pmm s.pageLink
  { s with
    pmm := r.1
    pageLink := r.2
    returned := (page, n) :: s.returned }

/-- `SET_PAGE_CACHE`, `SET_PAGE_SLAB` and `SetPageSlab`. -/
def setPage (page i slabp : Nat) (s : State σ) : State σ :=
  { s with
    pageLink := Function.update s.pageLink page ⟨i, slabp⟩
    pgSlab := Function.update s.pgSlab page true }

/-- The loop of `kmem_cache_grow` over the pages. -/
def setPages (i slabp : Nat) : Nat → Nat → State σ → State σ
  | 0, _, s => s
  | n + 1, page, s => setPages i slabp n (page + 1) (setPage page i slabp s)

/-- `ClearPageSlab`: `clear_bit` is `btcl`, which complements the bit. -/
def clearPageSlab (page : Nat) (s : State σ) : State σ :=
  { s with pgSlab := Function.update s.pgSlab page (!s.pgSlab page) }

/-- The loop of `kmem_slab_destroy` over the pages. -/
def clearPages : Nat → Nat → State σ → State σ
  | 0, _, s => s
  | n + 1, page, s => clearPages n (page + 1) (clearPageSlab page s)

/-! ## Allocation -/

/-- The loop over the bufctls in `kmem_cache_grow`, and the last one. -/
def initBufctl (num : Nat) (bufctl : Nat → Nat) : Nat → Nat :=
  Function.update
    ((List.range num).foldl (fun b i => Function.update b i (i + 1)) bufctl)
    (num - 1) BUFCTL_END

/-- `kmem_cache_slabmgmt`; `alloc` is `kmem_cache_alloc`. -/
def kmemCacheSlabmgmt (alloc : Nat → State σ → Option (Option Nat × State σ))
    (i page : Nat) (s : State σ) : Option (Option Nat × State σ) :=
  let cachep := slabCache i
  (if cachep.offSlab then alloc cachep.slabCachep s
    else some (some (page2kva page), s)).map fun r =>
    match r.1 with
    | none => (none, r.2)
    | some slabp => (some slabp, { r.2 with
        slab := Function.update r.2.slab slabp { r.2.slab slabp with
          inuse := 0
          offset := cachep.offset
          sMem := page2kva page + cachep.offset } })

/-- `kmem_cache_grow`; `alloc` is `kmem_cache_alloc`. -/
def kmemCacheGrow (A : PageAllocator σ)
    (alloc : Nat → State σ → Option (Option Nat × State σ))
    (i : Nat) (s : State σ) : Option (Bool × State σ) :=
  let cachep := slabCache i
  let r := allocPages A (1 <<< cachep.pageOrder) s
  match r.1 with
  | none => some (false, r.2)
  | some page =>
      (kmemCacheSlabmgmt alloc i page r.2).bind fun r =>
        match r.1 with
        | none => some (false, freePages A page (1 <<< cachep.pageOrder) r.2)
        | some slabp =>
            let s := setPages i slabp (1 <<< cachep.pageOrder) page r.2
            let s := { s with
              slab := Function.update s.slab slabp { s.slab slabp with
                bufctl := initBufctl cachep.num (s.slab slabp).bufctl
                free := 0 } }
            (listAdd s.link (.slabsNotfull i) (.slabLink slabp)).map fun link =>
              (true, { s with link := link })

/-- `kmem_cache_alloc_one`. -/
def kmemCacheAllocOne (i slabp : Nat) (s : State σ) :
    Option (Nat × State σ) :=
  let cachep := slabCache i
  let old := s.slab slabp
  let objp := old.sMem + old.free * cachep.objsize
  let s := { s with
    slab := Function.update s.slab slabp { old with
      inuse := old.inuse + 1
      free := old.bufctl old.free } }
  if (s.slab slabp).free = BUFCTL_END then
    (listDel s.link (.slabLink slabp)).bind fun link =>
      (listAdd link (.slabsFull i) (.slabLink slabp)).map fun link =>
        (objp, { s with link := link })
  else some (objp, s)

/-- `kmem_cache_alloc`.  A unit of fuel is used by each pass through
    `try_again` and by each call for a control block. -/
def kmemCacheAlloc (A : PageAllocator σ) :
    Nat → Nat → State σ → Option (Option Nat × State σ)
  | 0, _, _ => none
  | fuel + 1, i, s =>
      (listEmpty s.link (.slabsNotfull i)).bind fun empty =>
        if empty then
          (kmemCacheGrow A (kmemCacheAlloc A fuel) i s).bind fun r =>
            if r.1 then kmemCacheAlloc A fuel i r.2 else some (none, r.2)
        else
          (listNext s.link (.slabsNotfull i)).bind fun le =>
            (le2slab le).bind fun slabp =>
              (kmemCacheAllocOne i slabp s).map fun r => (some r.1, r.2)

/-- `kmalloc`.  The caches of control blocks keep their own control blocks in
    their slabs, so fuel 3 is enough. -/
def kmalloc (A : PageAllocator σ) (size : Nat) (s : State σ) :
    Option (Option Nat × State σ) :=
  let order := getorder size
  if order > MAX_SIZE_ORDER then some (none, s)
  else kmemCacheAlloc A 3 (order - MIN_SIZE_ORDER) s

/-! ## Freeing -/

/-- `kmem_slab_destroy`; `free` is `kmem_cache_free`. -/
def kmemSlabDestroy (A : PageAllocator σ)
    (free : Nat → Nat → State σ → Option (State σ)) (i slabp : Nat)
    (s : State σ) : Option (State σ) :=
  let cachep := slabCache i
  let page := kva2page ((s.slab slabp).sMem - (s.slab slabp).offset)
  let s := clearPages (1 <<< cachep.pageOrder) page s
  let s := freePages A page (1 <<< cachep.pageOrder) s
  if cachep.offSlab then free cachep.slabCachep slabp s else some s

/-- `kmem_cache_free_one`; `free` is `kmem_cache_free`. -/
def kmemCacheFreeOne (A : PageAllocator σ)
    (free : Nat → Nat → State σ → Option (State σ)) (i slabp objp : Nat)
    (s : State σ) : Option (State σ) :=
  let cachep := slabCache i
  let old := s.slab slabp
  let objnr := (objp - old.sMem) / cachep.objsize
  let s := { s with
    slab := Function.update s.slab slabp { old with
      bufctl := Function.update old.bufctl objnr old.free
      free := objnr
      inuse := old.inuse - 1 } }
  if (s.slab slabp).inuse = 0 then
    (listDel s.link (.slabLink slabp)).bind fun link =>
      kmemSlabDestroy A free i slabp { s with link := link }
  else if (s.slab slabp).inuse = cachep.num - 1 then
    (listDel s.link (.slabLink slabp)).bind fun link =>
      (listAdd link (.slabsNotfull i) (.slabLink slabp)).map fun link =>
        { s with link := link }
  else some s

/-- `kmem_cache_free`, by the depth of its calls for control blocks. -/
def kmemCacheFree (A : PageAllocator σ) :
    Nat → Nat → Nat → State σ → Option (State σ)
  | 0, _, _, _ => none
  | fuel + 1, i, objp, s =>
      kmemCacheFreeOne A (kmemCacheFree A fuel) i
        (s.pageLink (kva2page objp)).prev objp s

/-- `kfree`; fuel 2 is enough. -/
def kfree (A : PageAllocator σ) (objp : Nat) (s : State σ) :
    Option (State σ) :=
  kmemCacheFree A 2 (s.pageLink (kva2page objp)).next objp s

/-! ## `slab_init` and `slab_allocated` -/

/-- The `list_init`s of `slab_init`, for the first `n` caches. -/
def slabInitLists : Nat → LinkMem Addr → Option (LinkMem Addr)
  | 0, m => some m
  | n + 1, m =>
      (slabInitLists n m).bind fun m =>
        (listInit m (.slabsFull n)).bind fun m =>
          listInit m (.slabsNotfull n)

def slabInit (s : State σ) : Option (State σ) :=
  (slabInitLists SLAB_CACHE_NUM s.link).map fun link =>
    { s with link := link }

/-- A loop of `slab_allocated`: `total` after a list, where each slab counts
    `count slabp * objsize`; `size_t` has 32 bits. -/
def sumList (s : State σ) (list : Addr) (count : Nat → Nat) (objsize : Nat) :
    Nat → Addr → Nat → Option Nat
  | 0, _, _ => none
  | fuel + 1, le, total =>
      (listNext s.link le).bind fun le =>
        if le = list then some total
        else (le2slab le).bind fun slabp =>
          sumList s list count objsize fuel le
            ((total + count slabp * objsize) % 2 ^ 32)

/-- The loop of `slab_allocated` over the caches from `i` on. -/
def sumCaches (fuel : Nat) (s : State σ) : Nat → Nat → Nat → Option Nat
  | 0, _, total => some total
  | n + 1, i, total =>
      let cachep := slabCache i
      (sumList s (.slabsFull i) (fun _ => cachep.num) cachep.objsize fuel
        (.slabsFull i) total).bind fun total =>
        (sumList s (.slabsNotfull i) (fun slabp => (s.slab slabp).inuse)
          cachep.objsize fuel (.slabsNotfull i) total).bind fun total =>
          sumCaches fuel s n (i + 1) total

def slabAllocated (fuel : Nat) (s : State σ) : Option Nat :=
  sumCaches fuel s SLAB_CACHE_NUM 0 0

end

/-! ## The thirteen caches -/

/-- What the layout of a cache comes to: objects of a power of two fill the
    pages behind the control block, and a control block that is not in the
    slab has room in an object of a cache whose own are. -/
structure CacheOk (i : Nat) (c : KmemCache) : Prop where
  objsize : c.objsize = 2 ^ (i + MIN_SIZE_ORDER)
  objAligned : 16 ∣ c.objsize
  num : 0 < c.num
  numLt : c.num < BUFCTL_END
  aligned : 16 ∣ c.offset
  fits : c.offset + c.num * c.objsize ≤ (1 <<< c.pageOrder) * PGSIZE
  inSlab : c.offSlab = false → sizeofSlab + c.num * sizeofBufctl ≤ c.offset
  offSlab : c.offSlab = true → c.offset = 0 ∧ c.slabCachep < SLAB_CACHE_NUM ∧
    (slabCache c.slabCachep).offSlab = false ∧
    sizeofSlab + c.num * sizeofBufctl ≤ (slabCache c.slabCachep).objsize

theorem slabCache_ok {i : Nat} (hi : i < SLAB_CACHE_NUM) :
    CacheOk i (slabCache i) := by
  have hall : ∀ j : Fin SLAB_CACHE_NUM,
      ((slabCache j).objsize = 2 ^ (j.val + MIN_SIZE_ORDER) ∧
        16 ∣ (slabCache j).objsize ∧ 0 < (slabCache j).num ∧
        (slabCache j).num < BUFCTL_END ∧ 16 ∣ (slabCache j).offset) ∧
      (slabCache j).offset + (slabCache j).num * (slabCache j).objsize
        ≤ (1 <<< (slabCache j).pageOrder) * PGSIZE ∧
      ((slabCache j).offSlab = false →
        sizeofSlab + (slabCache j).num * sizeofBufctl ≤ (slabCache j).offset) ∧
      ((slabCache j).offSlab = true → (slabCache j).offset = 0 ∧
        (slabCache j).slabCachep < SLAB_CACHE_NUM ∧
        (slabCache (slabCache j).slabCachep).offSlab = false ∧
        sizeofSlab + (slabCache j).num * sizeofBufctl
          ≤ (slabCache (slabCache j).slabCachep).objsize) := by
    decide +kernel
  obtain ⟨⟨h1, h2, h3, h4, h5⟩, h6, h7, h8⟩ := hall ⟨i, hi⟩
  exact ⟨h1, h2, h3, h4, h5, h6, h7, h8⟩

/-- `getorder` finds the smallest order that has room. -/
theorem getorder_spec (n : Nat) :
    (getorder n ≤ MAX_SIZE_ORDER ∧ MIN_SIZE_ORDER ≤ getorder n ∧
      n ≤ 2 ^ getorder n) ∨
    (2 ^ MAX_SIZE_ORDER < n ∧ MAX_SIZE_ORDER < getorder n) := by
  have hwalk : ∀ k order, order + k = MAX_SIZE_ORDER + 1 →
      MIN_SIZE_ORDER ≤ order →
      (getorderFrom n k order (1 <<< order) ≤ MAX_SIZE_ORDER ∧
        MIN_SIZE_ORDER ≤ getorderFrom n k order (1 <<< order) ∧
        n ≤ 2 ^ getorderFrom n k order (1 <<< order)) ∨
      ((k = 0 ∨ 2 ^ MAX_SIZE_ORDER < n) ∧
        MAX_SIZE_ORDER < getorderFrom n k order (1 <<< order)) := by
    intro k
    induction k with
    | zero =>
        intro order _ _
        exact .inr ⟨.inl rfl, by rw [getorderFrom]; decide⟩
    | succ k ih =>
        intro order hsum hmin
        rw [getorderFrom]
        by_cases hle : n ≤ 1 <<< order
        · rw [if_pos hle]
          rw [Nat.one_shiftLeft] at hle
          exact .inl ⟨by omega, hmin, hle⟩
        · rw [if_neg hle]
          have hstep : (1 <<< order) <<< 1 = 1 <<< (order + 1) := by
            rw [← Nat.shiftLeft_add]
          rw [hstep]
          rcases ih (order + 1) (by omega) (by omega) with h | ⟨h1, h2⟩
          · exact .inl h
          · refine .inr ⟨.inr ?_, h2⟩
            rcases h1 with rfl | h1
            · rw [Nat.one_shiftLeft] at hle
              obtain rfl : order = MAX_SIZE_ORDER := by omega
              omega
            · exact h1
  rcases hwalk SLAB_CACHE_NUM MIN_SIZE_ORDER (by decide) (Nat.le_refl _) with
    h | ⟨h1, h2⟩
  · exact .inl h
  · refine .inr ⟨?_, h2⟩
    rcases h1 with h1 | h1
    · cases h1
    · exact h1

end SharixSlab
