import Mathlib.Data.List.Nodup
import Mathlib.Data.List.Perm.Basic
import Mathlib.Data.List.Range
import Sharix.SlabProofs

/-! # Where slabs and their objects lie

    A `Slab` is a slab as the allocator means it: the objects that are free,
    in the order of the bufctl chain, and with them those in use.  Objects of
    one slab lie side by side in its pages, so slabs without common pages have
    no common bytes. -/

namespace SharixSlab

/-! ## Slabs -/

/-- A slab: its cache, the address of its control block, its first page and
    its free objects. -/
structure Slab where
  cache : Nat
  addr : Nat
  page : Nat
  free : List Nat
deriving DecidableEq, Repr

namespace Slab

abbrev cachep (b : Slab) : KmemCache := slabCache b.cache

/-- The number of pages. -/
def count (b : Slab) : Nat := 1 <<< b.cachep.pageOrder

def pages (b : Slab) : List Nat := List.range' b.page b.count

def objAddr (b : Slab) (k : Nat) : Nat :=
  page2kva b.page + b.cachep.offset + k * b.cachep.objsize

/-- The objects in use, by index. -/
def used (b : Slab) : List Nat :=
  (List.range b.cachep.num).filter fun k => decide (k ∉ b.free)

/-- The objects in use, each with its cache. -/
def objs (b : Slab) : List (Nat × Nat) :=
  b.used.map fun k => (b.cache, b.objAddr k)

/-- The object that holds the control block, if it is not in the slab. -/
def control (b : Slab) : List (Nat × Nat) :=
  if b.cachep.offSlab then [(b.cachep.slabCachep, b.addr)] else []

/-- The log entry of its pages. -/
def block (b : Slab) : Nat × Nat := (b.page, b.count)

/-- The record of the cache that a slab belongs to. -/
theorem cachep_ok {b : Slab} (hc : b.cache < SLAB_CACHE_NUM) :
    CacheOk b.cache b.cachep :=
  slabCache_ok hc

theorem count_pos (b : Slab) : 0 < b.count := by
  rw [count, Nat.one_shiftLeft]
  exact Nat.pow_pos (by decide)

/-- The page numbers of a slab. -/
theorem mem_pages {b : Slab} {q : Nat} :
    q ∈ b.pages ↔ b.page ≤ q ∧ q < b.page + b.count := by
  rw [pages, List.mem_range'_1]

/-- The indices of its objects in use. -/
theorem mem_used {b : Slab} {k : Nat} :
    k ∈ b.used ↔ k < b.cachep.num ∧ k ∉ b.free := by
  rw [used, List.mem_filter, List.mem_range, decide_eq_true_iff]

theorem nodup_used (b : Slab) : b.used.Nodup :=
  List.nodup_range.filter _

end Slab

/-! ## Bytes -/

/-- Two areas of bytes without a common one. -/
def Apart (a n a' n' : Nat) : Prop := a + n ≤ a' ∨ a' + n' ≤ a

theorem Apart.symm {a n a' n' : Nat} (h : Apart a n a' n') : Apart a' n' a n :=
  Or.symm h

/-- An area in the pages of a slab. -/
def Slab.Holds (b : Slab) (a n : Nat) : Prop :=
  page2kva b.page ≤ a ∧ a + n ≤ page2kva b.page + b.count * PGSIZE

theorem Slab.holds_page {b : Slab} {a n : Nat} (h : b.Holds a n) (hn : 0 < n) :
    kva2page a ∈ b.pages := by
  obtain ⟨h1, h2⟩ := h
  rw [Slab.mem_pages, kva2page]
  rw [page2kva] at h1 h2
  have hge : (b.page * PGSIZE) / PGSIZE ≤ (a - KERNBASE) / PGSIZE :=
    Nat.div_le_div_right (by omega)
  have hlt : (a - KERNBASE) / PGSIZE < b.page + b.count := by
    rw [Nat.div_lt_iff_lt_mul (by decide), Nat.add_mul]
    omega
  rw [Nat.mul_div_cancel _ (by decide)] at hge
  exact ⟨hge, hlt⟩

/-- Slabs without a common page have no common byte. -/
theorem Slab.holds_apart {b b' : Slab} {a n a' n' : Nat} (h : b.Holds a n)
    (h' : b'.Holds a' n') (hd : b.pages.Disjoint b'.pages) :
    Apart a n a' n' := by
  have hpos := b.count_pos
  have hpos' := b'.count_pos
  have hsep : b.page + b.count ≤ b'.page ∨ b'.page + b'.count ≤ b.page := by
    by_contra hover
    rw [not_or, Nat.not_le, Nat.not_le] at hover
    refine hd (a := max b.page b'.page) ?_ ?_ <;> rw [Slab.mem_pages] <;> omega
  obtain ⟨h1, h2⟩ := h
  obtain ⟨h1', h2'⟩ := h'
  rw [page2kva] at h1 h2 h1' h2'
  rcases hsep with hsep | hsep
  · have := Nat.mul_le_mul_right PGSIZE hsep
    rw [Nat.add_mul] at this
    exact .inl (by omega)
  · have := Nat.mul_le_mul_right PGSIZE hsep
    rw [Nat.add_mul] at this
    exact .inr (by omega)

/-- Two objects of a slab share no byte. -/
theorem Slab.obj_apart (b : Slab) {k k' : Nat} (hne : k ≠ k') :
    Apart (b.objAddr k) b.cachep.objsize (b.objAddr k') b.cachep.objsize := by
  rcases Nat.lt_or_gt_of_ne hne with hlt | hlt
  · left
    have := Nat.mul_le_mul_right b.cachep.objsize hlt
    rw [Nat.succ_mul] at this
    rw [objAddr, objAddr]
    omega
  · right
    have := Nat.mul_le_mul_right b.cachep.objsize hlt
    rw [Nat.succ_mul] at this
    rw [objAddr, objAddr]
    omega

section
variable {b : Slab} (hc : b.cache < SLAB_CACHE_NUM)
include hc

theorem Slab.objsize_pos : 0 < b.cachep.objsize := by
  rw [(Slab.cachep_ok hc).objsize]
  exact Nat.pow_pos (by decide)

/-- An object lies in the pages of its slab. -/
theorem Slab.holds_obj {k : Nat} (hk : k < b.cachep.num) :
    b.Holds (b.objAddr k) b.cachep.objsize := by
  have hfits := (Slab.cachep_ok hc).fits
  have hstep : k * b.cachep.objsize + b.cachep.objsize ≤
      b.cachep.num * b.cachep.objsize := by
    rw [← Nat.succ_mul]
    exact Nat.mul_le_mul_right _ hk
  constructor
  · rw [objAddr]
    omega
  · rw [objAddr, count]
    omega

theorem Slab.page_obj {k : Nat} (hk : k < b.cachep.num) :
    kva2page (b.objAddr k) ∈ b.pages :=
  Slab.holds_page (Slab.holds_obj hc hk) (Slab.objsize_pos hc)

/-- Different indices are different addresses. -/
theorem Slab.objAddr_inj {k k' : Nat} (h : b.objAddr k = b.objAddr k') :
    k = k' := by
  by_contra hne
  have hpos := Slab.objsize_pos hc
  rcases b.obj_apart hne with h1 | h1 <;> omega

/-- The index that `kmem_cache_free_one` computes. -/
theorem Slab.objAddr_index (k : Nat) :
    (b.objAddr k - (page2kva b.page + b.cachep.offset)) / b.cachep.objsize = k
    := by
  rw [objAddr, Nat.add_sub_cancel_left,
    Nat.mul_div_cancel _ (Slab.objsize_pos hc)]

/-- Objects are aligned to sixteen bytes. -/
theorem Slab.objAddr_aligned (k : Nat) : 16 ∣ b.objAddr k := by
  have hok := Slab.cachep_ok hc
  refine Nat.dvd_add (Nat.dvd_add ?_ hok.aligned)
    (Nat.dvd_mul_left_of_dvd hok.objAligned k)
  exact Nat.dvd_add (by decide) (Nat.dvd_mul_left_of_dvd (by decide) _)

end

/-- The control block of a slab that keeps it lies in the slab, before the
    objects. -/
theorem Slab.holds_mgmt {b : Slab} (hc : b.cache < SLAB_CACHE_NUM)
    (hoff : b.cachep.offSlab = false) :
    b.Holds (page2kva b.page) (sizeofSlab + b.cachep.num * sizeofBufctl) ∧
      ∀ k, page2kva b.page + (sizeofSlab + b.cachep.num * sizeofBufctl)
        ≤ b.objAddr k := by
  have hok := Slab.cachep_ok hc
  have hin := hok.inSlab hoff
  have hfits := hok.fits
  refine ⟨⟨Nat.le_refl _, ?_⟩, fun k => ?_⟩
  · rw [count]
    omega
  · rw [objAddr]
    omega

/-! ## The bufctl chain -/

/-- The chain from `k` on visits these objects and ends. -/
def Chain (bufctl : Nat → Nat) : Nat → List Nat → Prop
  | k, [] => k = BUFCTL_END
  | k, x :: l => k = x ∧ Chain bufctl (bufctl x) l

/-- A chain is seen through its own links. -/
theorem chain_congr {bufctl bufctl' : Nat → Nat} {l : List Nat} :
    ∀ {k : Nat}, (∀ x ∈ l, bufctl' x = bufctl x) → Chain bufctl k l →
      Chain bufctl' k l := by
  induction l with
  | nil =>
      intro k _ h
      exact h
  | cons x l ih =>
      intro k heq h
      refine ⟨h.1, ?_⟩
      rw [heq x List.mem_cons_self]
      exact ih (fun y hy => heq y (List.mem_cons_of_mem _ hy)) h.2

/-- What `kmem_cache_grow` writes to the bufctls. -/
theorem initBufctl_eq {num : Nat} (bufctl : Nat → Nat) {k : Nat}
    (hk : k < num) :
    initBufctl num bufctl k = if k = num - 1 then BUFCTL_END else k + 1 := by
  have hloop : ∀ n, k < n → (List.range n).foldl
      (fun b i => Function.update b i (i + 1)) bufctl k = k + 1 := by
    intro n
    induction n with
    | zero =>
        intro h
        cases h
    | succ n ih =>
        intro h
        rw [List.range_succ, List.foldl_append]
        by_cases heq : k = n
        · subst heq
          exact Function.update_self _ _ _
        · refine (Function.update_of_ne heq _ _).trans (ih (by omega))
  rw [initBufctl]
  by_cases heq : k = num - 1
  · subst heq
    rw [Function.update_self, if_pos rfl]
  · rw [Function.update_of_ne heq, if_neg heq, hloop num hk]

/-- A place that is not on the chain becomes its head. -/
theorem chain_push {bufctl : Nat → Nat} {k head : Nat} {l : List Nat} (hk : k ∉ l)
    (h : Chain bufctl head l) : Chain (Function.update bufctl k head) k (k :: l) := by
  refine ⟨rfl, ?_⟩
  rw [Function.update_self]
  refine chain_congr (fun x hx => ?_) h
  refine Function.update_of_ne ?_ _ _
  rintro rfl
  exact hk hx

/-- A new slab is a chain of all objects. -/
theorem chain_initBufctl {num : Nat} (bufctl : Nat → Nat) (hnum : 0 < num) :
    Chain (initBufctl num bufctl) 0 (List.range num) := by
  have hfrom : ∀ n k, k + (n + 1) = num →
      Chain (initBufctl num bufctl) k (List.range' k (n + 1)) := by
    intro n
    induction n with
    | zero =>
        intro k hk
        refine ⟨rfl, ?_⟩
        rw [initBufctl_eq bufctl (by omega), if_pos (by omega)]
        exact rfl
    | succ n ih =>
        intro k hk
        refine ⟨rfl, ?_⟩
        rw [initBufctl_eq bufctl (by omega), if_neg (by omega)]
        exact ih (k + 1) (by omega)
  obtain ⟨n, rfl⟩ : ∃ n, num = n + 1 := ⟨num - 1, by omega⟩
  rw [List.range_eq_range']
  exact hfrom n 0 (by omega)

/-! ## Free and used objects -/

/-- A slab whose free objects are what they should be. -/
structure Slab.FreeOk (b : Slab) : Prop where
  nodup : b.free.Nodup
  lt : ∀ k ∈ b.free, k < b.cachep.num

/-- An object that is in use becomes free. -/
theorem Slab.FreeOk.push {b : Slab} {k : Nat} (hf : b.FreeOk) (hk : k < b.cachep.num)
    (hused : k ∉ b.free) : Slab.FreeOk { b with free := k :: b.free } := by
  refine ⟨List.nodup_cons.mpr ⟨hused, hf.nodup⟩, fun x hx => ?_⟩
  rcases List.mem_cons.mp hx with rfl | hx
  · exact hk
  · exact hf.lt x hx

/-- Each object is in use or in the free chain. -/
theorem Slab.length_used {b : Slab} (hf : b.FreeOk) :
    b.used.length + b.free.length = b.cachep.num := by
  have hperm : (b.used ++ b.free).Perm (List.range b.cachep.num) := by
    refine (List.perm_ext_iff_of_nodup ?_ List.nodup_range).mpr fun k => ?_
    · refine List.Nodup.append b.nodup_used hf.nodup fun k hk hk' => ?_
      exact (Slab.mem_used.mp hk).2 hk'
    · rw [List.mem_append, Slab.mem_used, List.mem_range]
      constructor
      · rintro (h | h)
        · exact h.1
        · exact hf.lt k h
      · intro h
        by_cases hk : k ∈ b.free
        · exact .inr hk
        · exact .inl ⟨h, hk⟩
  rw [← List.length_append, hperm.length_eq, List.length_range]

/-- Taking the first free object. -/
theorem Slab.used_cons {b b' : Slab} {k : Nat} (hf : b.FreeOk)
    (hcache : b'.cache = b.cache) (hfree : b.free = k :: b'.free) :
    b'.used.Perm (k :: b.used) := by
  have hn := hf.nodup
  rw [hfree, List.nodup_cons] at hn
  have hk : k < b.cachep.num := hf.lt k (by rw [hfree]; exact List.mem_cons_self)
  refine (List.perm_ext_iff_of_nodup b'.nodup_used ?_).mpr fun x => ?_
  · refine List.nodup_cons.mpr ⟨?_, b.nodup_used⟩
    intro hmem
    exact (Slab.mem_used.mp hmem).2 (by rw [hfree]; exact List.mem_cons_self)
  · rw [List.mem_cons, Slab.mem_used, Slab.mem_used, hfree, cachep, hcache,
      List.mem_cons, not_or]
    constructor
    · rintro ⟨h1, h2⟩
      by_cases hx : x = k
      · exact .inl hx
      · exact .inr ⟨h1, hx, h2⟩
    · rintro (rfl | ⟨h1, -, h2⟩)
      · exact ⟨hk, hn.1⟩
      · exact ⟨h1, h2⟩

/-- The object taken off the free chain is one more in use. -/
theorem Slab.objs_cons {b b' : Slab} {k : Nat} (hf : b.FreeOk)
    (hcache : b'.cache = b.cache) (hpage : b'.page = b.page)
    (hfree : b.free = k :: b'.free) :
    b'.objs.Perm ((b.cache, b.objAddr k) :: b.objs) := by
  have hperm := (Slab.used_cons hf hcache hfree).map
    fun k => (b'.cache, b'.objAddr k)
  have haddr : (fun k => (b'.cache, b'.objAddr k))
      = fun k => (b.cache, b.objAddr k) := by
    funext k
    rw [objAddr, objAddr, cachep, cachep, hcache, hpage]
  rw [haddr] at hperm
  rw [objs, haddr]
  exact hperm

theorem Slab.mem_objs {b : Slab} {o : Nat × Nat} :
    o ∈ b.objs ↔ ∃ k, k < b.cachep.num ∧ k ∉ b.free ∧
      o = (b.cache, b.objAddr k) := by
  rw [objs, List.mem_map]
  constructor
  · rintro ⟨k, hk, rfl⟩
    obtain ⟨h1, h2⟩ := Slab.mem_used.mp hk
    exact ⟨k, h1, h2, rfl⟩
  · rintro ⟨k, h1, h2, rfl⟩
    exact ⟨k, Slab.mem_used.mpr ⟨h1, h2⟩, rfl⟩

end SharixSlab
