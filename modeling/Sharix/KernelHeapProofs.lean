import Sharix.BuddyFrameProofs
import Sharix.SlabRunProofs

/-! # The heap on the page allocator — `slab.c` over `buddy_pmm.c`

    `slab.c` takes its pages from `alloc_pages`, which is `buddy_alloc_pages`
    through the table `pmm_manager`, and keeps the cache and the slab of a page in
    its `page_link`; the page allocator keeps its free lists in the `page_link` of
    the pages that are free.  Both write to the one array `pages`.

    * `Pmm` is the page allocator between two calls;
    * `found` is the array as it finds it: what `slab.c` has put in the links of
      the pages in use is there;
    * `pages_correct`: it is a page allocator as `slab.c` needs it;
    * `heap_on_pages`: so the objects of the heap are apart from each other, from
      the free lists, and from the pages of everyone else. -/

namespace SharixHeap

open SharixList
open SharixBuddy (MAX_ORDER buddyAllocPages buddyFreePages Call FreeListsOk)
open SharixSlab (PageLink PageAllocator Correct Slab Busy AllApart PGSIZE KMEMSIZE slabInit kmalloc
  kfree allocPages freePages kva2page runs runPages mem_runPages tagged tagged_erase objArea
  allocPages_none allocPages_some freePages_inv slabInit_inv)

/-- The page allocator between two calls: its lists are well formed, which
    `buddy_init` leaves to be done for the last of them, and the pages it was given
    by `page_init` are below `KMEMSIZE`. -/
structure Pmm where
  world : SharixBuddy.World
  inv : ∃ L, SharixBuddy.Inv world L
  below : ∀ q ∈ world.managed, (q + 1) * PGSIZE ≤ KMEMSIZE

def inUse (m : Pmm) (q : Nat) : Prop := q ∈ m.world.allocated

/-! ## One array of `struct Page` -/

section Links

-- a `list_entry_t` is two words: `words` are those that hold a cache and a slab,
-- and `tags` reads them back
variable (words : PageLink → ListEntry SharixBuddy.Addr)
variable (tags : ListEntry SharixBuddy.Addr → PageLink)

/-- The array as the page allocator finds it. -/
def found (m : Pmm) (links : Nat → PageLink) : SharixBuddy.World :=
  { m.world with s := { m.world.s with
      link := fun
        | .pageLink q =>
            if q ∈ m.world.allocated then words (links q) else m.world.s.link (.pageLink q)
        | a => m.world.s.link a } }

/-- The links of pages in use are on no list. -/
theorem found_inv (m : Pmm) (links : Nat → PageLink) :
    ∃ L, SharixBuddy.Inv (found words m links) L := by
  obtain ⟨L, h⟩ := m.inv
  refine ⟨L, ⟨h.1.rings.frame fun i hi a ha => ?_, h.1.count, h.1.order⟩, h.2⟩
  rcases List.mem_cons.mp ha with rfl | ha
  · rfl
  · obtain ⟨p, hp, rfl⟩ := List.mem_map.mp ha
    refine if_neg fun hin => ?_
    exact (h.beside hin hi hp).ne (Nat.two_pow_pos i) rfl

/-- The page allocator after a call. -/
def Pmm.after (m : Pmm) {links : Nat → PageLink} {w : SharixBuddy.World}
    (hcall : Call (found words m links) w) : Pmm where
  world := w
  inv := by
    obtain ⟨L, h⟩ := found_inv words m links
    exact (SharixBuddy.call_inv h hcall).1
  below := by
    obtain ⟨L, h⟩ := found_inv words m links
    rw [(SharixBuddy.call_inv h hcall).2]
    exact m.below

/-- The allocated pages among the `n` from `page`, given up for lost. -/
def Pmm.lose (page n : Nat) (m : Pmm) : Pmm where
  world :=
    ⟨m.world.s, m.world.managed \ (m.world.allocated ∩ Finset.Ico page (page + n)),
      m.world.allocated \ (m.world.allocated ∩ Finset.Ico page (page + n))⟩
  inv := by
    obtain ⟨L, hR, hpages⟩ := m.inv
    refine ⟨L, hR, ?_⟩
    show SharixBuddy.freePages L + (_ \ _ : Finset Nat).val = (_ \ _ : Finset Nat).val
    rw [Finset.sdiff_val, Finset.sdiff_val, ← hpages]
    exact (add_tsub_assoc_of_le (Finset.val_le_iff.mpr Finset.inter_subset_left) _).symm
  below := fun q hq => m.below q (Finset.mem_sdiff.mp hq).1

/-- `alloc_pages`. -/
def alloc (n : Nat) (m : Pmm) (links : Nat → PageLink) :
    Option Nat × Pmm × (Nat → PageLink) :=
  match h : buddyAllocPages n (found words m links).s with
  | none => (none, m, links)
  | some (s, none) => (none, m.after words (.allocNull h), fun q => tags (s.link (.pageLink q)))
  | some (s, some p) => (some p, m.after words (.alloc h), fun q => tags (s.link (.pageLink q)))

/-- `free_pages`.  For more than `2 ^ MAX_ORDER` pages it would write behind the
    array of lists; `alloc_pages` grants no such run. -/
def free (page n : Nat) (m : Pmm) (links : Nat → PageLink) : Pmm × (Nat → PageLink) :=
  if hok : 0 < n ∧ n ≤ 2 ^ MAX_ORDER ∧ Finset.Ico page (page + n) ⊆ m.world.allocated then
    match h : buddyFreePages page n (found words m links).s with
    | none => (m, links)
    | some s =>
        (m.after words (.free hok.1 hok.2.1 hok.2.2 h), fun q => tags (s.link (.pageLink q)))
  else (m.lose page n, links)

def pages : PageAllocator Pmm := ⟨alloc words tags, free words tags⟩

variable {words tags}

/-- The link of a page in use is what `slab.c` finds there after a call that has
    not written to it. -/
theorem tags_kept (htags : ∀ l, tags (words l) = l) {m : Pmm} {links : Nat → PageLink}
    {q : Nat} (hq : inUse m q) {s : SharixBuddy.State}
    (hkept : s.link (.pageLink q) = (found words m links).s.link (.pageLink q)) :
    tags (s.link (.pageLink q)) = links q := by
  have hfound : (found words m links).s.link (.pageLink q) = words (links q) := if_pos hq
  rw [hkept, hfound, htags]

variable (words tags) in
/-- `alloc_pages` does what `buddy_alloc_pages` does. -/
theorem alloc_spec (n : Nat) (m : Pmm) (links : Nat → PageLink) :
    ∃ s r, buddyAllocPages n (found words m links).s = some (s, r) ∧
      (alloc words tags n m links).1 = r ∧
      (∀ q, inUse (alloc words tags n m links).2.1 q ↔
        inUse m q ∨ ∃ p, r = some p ∧ p ≤ q ∧ q < p + n) ∧
      (alloc words tags n m links).2.2 = fun q => tags (s.link (.pageLink q)) := by
  obtain ⟨L, hinv⟩ := found_inv words m links
  obtain ⟨s, r, hrun, -⟩ := hinv.alloc_result n
  refine ⟨s, r, hrun, ?_⟩
  unfold alloc
  split
  · rename_i hnone
    cases hrun.symm.trans hnone
  · rename_i s' hnull
    cases hrun.symm.trans hnull
    refine ⟨rfl, fun q => ?_, rfl⟩
    exact ⟨.inl, fun h => h.resolve_right fun ⟨p, hp, _⟩ => by cases hp⟩
  · rename_i s' p hsome
    cases hrun.symm.trans hsome
    refine ⟨rfl, fun q => ?_, rfl⟩
    show q ∈ m.world.allocated ∪ Finset.Ico p (p + n) ↔ _
    rw [Finset.mem_union, Finset.mem_Ico]
    refine or_congr Iff.rfl ⟨fun h => ⟨p, rfl, h⟩, ?_⟩
    rintro ⟨p', hp, h⟩
    cases hp
    exact h

variable (words tags) in
/-- A legal `free_pages` does what `buddy_free_pages` does. -/
theorem free_spec {page n : Nat} {m : Pmm} (links : Nat → PageLink) (hpos : 0 < n)
    (hn : n ≤ 2 ^ MAX_ORDER) (hin : Finset.Ico page (page + n) ⊆ m.world.allocated) :
    ∃ s, buddyFreePages page n (found words m links).s = some s ∧
      (free words tags page n m links).1.world.allocated
        = m.world.allocated \ Finset.Ico page (page + n) ∧
      (free words tags page n m links).2 = fun q => tags (s.link (.pageLink q)) := by
  obtain ⟨L, hinv⟩ := found_inv words m links
  obtain ⟨s, hrun, -⟩ := SharixBuddy.free_inv hinv hn hin
  refine ⟨s, hrun, ?_⟩
  rw [free, dif_pos ⟨hpos, hn, hin⟩]
  split
  · rename_i hnone
    cases hrun.symm.trans hnone
  · rename_i s' hsome
    cases hrun.symm.trans hsome
    exact ⟨rfl, rfl⟩

/-- **THE TWO FIT**: the buddy allocator grants pages that are not in use, below
    `KMEMSIZE`, and leaves the `page_link` of pages in use alone. -/
theorem pages_correct (htags : ∀ l, tags (words l) = l) : Correct (pages words tags) inUse := by
  refine ⟨fun n m links hnone => ?_, fun n m links page hsome => ?_,
    fun page n m links hall => ?_⟩
  · obtain ⟨L, hinv⟩ := found_inv words m links
    obtain ⟨s, r, hrun, hr, huse, hlinks⟩ := alloc_spec words tags n m links
    obtain rfl : r = none := hr.symm.trans hnone
    refine ⟨fun q => (huse q).trans ?_, fun q hq => ?_⟩
    · exact ⟨fun h => h.resolve_right fun ⟨p, hp, _⟩ => (by cases hp), .inl⟩
    · show (alloc words tags n m links).2.2 q = links q
      rw [hlinks]
      exact tags_kept htags hq (hinv.alloc_link hq hrun)
  · obtain ⟨L, hinv⟩ := found_inv words m links
    obtain ⟨s, r, hrun, hr, huse, hlinks⟩ := alloc_spec words tags n m links
    obtain rfl : r = some page := hr.symm.trans hsome
    obtain ⟨s', r', hrun', hnull, hgrant⟩ := hinv.alloc_result n
    cases hrun.symm.trans hrun'
    obtain ⟨hmanaged, hfree⟩ := hgrant page rfl
    have hpos : n ≠ 0 := fun h => absurd (hnull.mpr (.inl h)) (Option.some_ne_none _)
    refine ⟨fun q h1 h2 hq => ?_, ?_, fun q => (huse q).trans ?_, fun q hq => ?_⟩
    · exact Finset.disjoint_left.mp hfree (Finset.mem_Ico.mpr ⟨h1, h2⟩) hq
    · have hlast := m.below (page + n - 1) (hmanaged (Finset.mem_Ico.mpr (by omega)))
      rwa [show page + n - 1 + 1 = page + n by omega] at hlast
    · refine or_congr Iff.rfl ⟨?_, fun h => ⟨page, rfl, h⟩⟩
      rintro ⟨p, hp, h⟩
      cases hp
      exact h
    · show (alloc words tags n m links).2.2 q = links q
      rw [hlinks]
      exact tags_kept htags hq (hinv.alloc_link hq hrun)
  · have hin : Finset.Ico page (page + n) ⊆ m.world.allocated := fun q hq =>
      hall q (Finset.mem_Ico.mp hq).1 (Finset.mem_Ico.mp hq).2
    by_cases hok : 0 < n ∧ n ≤ 2 ^ MAX_ORDER
    · obtain ⟨L, hinv⟩ := found_inv words m links
      obtain ⟨s, hrun, huse, hlinks⟩ := free_spec words tags links hok.1 hok.2 hin
      have hmem : ∀ q, inUse (free words tags page n m links).1 q ↔
          inUse m q ∧ ¬ (page ≤ q ∧ q < page + n) := by
        intro q
        rw [inUse, huse, Finset.mem_sdiff, Finset.mem_Ico, inUse]
      refine ⟨hmem, fun q hq => ?_⟩
      obtain ⟨hq, hout⟩ := (hmem q).mp hq
      show (free words tags page n m links).2 q = links q
      rw [hlinks]
      exact tags_kept htags hq (hinv.free_link hq hok.2 (by rwa [Finset.mem_Ico]) hrun)
    · have hlose : free words tags page n m links = (m.lose page n, links) := by
        rw [free, dif_neg fun h => hok ⟨h.1, h.2.1⟩]
      refine ⟨fun q => ?_, fun q _ => ?_⟩
      · show inUse (free words tags page n m links).1 q ↔ _
        rw [hlose]
        show q ∈ _ \ (_ ∩ Finset.Ico page (page + n)) ↔ _
        rw [Finset.mem_sdiff, Finset.mem_inter, Finset.mem_Ico, inUse]
        tauto
      · show (free words tags page n m links).2 q = links q
        rw [hlose]

end Links

/-! ## The kernel's memory -/

section Run

variable (A : PageAllocator Pmm)

/-- The heap and its live objects, and the runs of pages that the rest of the
    kernel has from `alloc_pages`. -/
structure World where
  state : SharixSlab.State Pmm
  live : List (Nat × Nat)
  others : List (Nat × Nat)

/-- A call of anyone, who frees what he has. -/
inductive Step : World → World → Prop where
  | kmallocNull {s s' : SharixSlab.State Pmm} {live others : List (Nat × Nat)} {size : Nat} :
      kmalloc A size s = some (none, s') → Step ⟨s, live, others⟩ ⟨s', live, others⟩
  | kmalloc {s s' : SharixSlab.State Pmm} {live others : List (Nat × Nat)} {size p : Nat} :
      kmalloc A size s = some (some p, s') →
      Step ⟨s, live, others⟩ ⟨s', (p, size) :: live, others⟩
  | kfree {s s' : SharixSlab.State Pmm} {live others : List (Nat × Nat)} {o : Nat × Nat} :
      o ∈ live → kfree A o.1 s = some s' → Step ⟨s, live, others⟩ ⟨s', live.erase o, others⟩
  | allocNull {s : SharixSlab.State Pmm} {live others : List (Nat × Nat)} {n : Nat} :
      (allocPages A n s).1 = none →
      Step ⟨s, live, others⟩ ⟨(allocPages A n s).2, live, others⟩
  | alloc {s : SharixSlab.State Pmm} {live others : List (Nat × Nat)} {n page : Nat} :
      (allocPages A n s).1 = some page →
      Step ⟨s, live, others⟩ ⟨(allocPages A n s).2, live, (page, n) :: others⟩
  | free {s : SharixSlab.State Pmm} {live others : List (Nat × Nat)} {r : Nat × Nat} :
      r ∈ others → Step ⟨s, live, others⟩ ⟨freePages A r.1 r.2 s, live, others.erase r⟩

variable {A}

/-- The slabs `bs` have the live objects, and their pages and those of the
    others are in use, each once. -/
def Inv (w : World) : Prop :=
  ∃ bs, SharixSlab.Inv inUse False w.state bs (tagged w.live) w.others ∧ Busy bs

/-- Which run of pages is named first does not matter. -/
theorem permOthers {s : SharixSlab.State Pmm} {bs : List Slab} {live : List (Nat × Nat)}
    {l l' : List (Nat × Nat)} (hi : SharixSlab.Inv inUse False s bs live l) (hperm : l.Perm l') :
    SharixSlab.Inv inUse False s bs live l' := by
  have hruns : (runs bs l).Perm (runs bs l') := hperm.append_right _
  have hpages := hruns.flatMap_right runPages
  exact ⟨hi.ok, hi.lists, hi.addrs, hpages.nodup_iff.mp hi.pages,
    fun q hq => hi.inUse q (hpages.mem_iff.mpr hq), hi.accounts,
    hi.log.trans (hruns.append_left _), fun h => h.elim⟩

/-- One call keeps the invariant. -/
theorem step_inv (hA : Correct A inUse) {w w' : World} (hw : Inv w) (hstep : Step A w w') :
    Inv w' := by
  obtain ⟨bs, hi, hbusy⟩ := hw
  cases hstep with
  | kmallocNull hcall => exact hi.after_kmalloc hA hbusy hcall
  | kmalloc hcall => exact hi.after_kmalloc hA hbusy hcall
  | kfree ho hcall => exact hi.after_kfree hA ho hbusy hcall
  | allocNull hnone => exact ⟨bs, (allocPages_none hA hi hnone).1, hbusy⟩
  | alloc hsome => exact ⟨bs, (allocPages_some hA hi hsome).1, hbusy⟩
  | free hr =>
      have hi' := permOthers hi (List.perm_cons_erase hr)
      exact ⟨bs, (freePages_inv hA hi' fun h => h.elim).1, hbusy⟩

theorem run_inv (hA : Correct A inUse) {w w' : World}
    (hrun : Relation.ReflTransGen (Step A) w w') (hw : Inv w) : Inv w' :=
  SharixRun.run_invariant (I := Inv) (fun _ _ => step_inv hA) hrun hw

/-- After `slab_init` nothing is live and no one has pages. -/
theorem start_inv {s : SharixSlab.State Pmm} (hobt : s.obtained = []) (hret : s.returned = []) :
    ∃ s₀, slabInit s = some s₀ ∧ Inv ⟨s₀, [], []⟩ := by
  obtain ⟨s₀, hinit, hi⟩ : ∃ s₀, slabInit s = some s₀ ∧
      SharixSlab.Inv inUse (∀ q, s.pgSlab q = false) s₀ [] [] [] := slabInit_inv hobt hret
  refine ⟨s₀, hinit, [], ?_, fun b hb => absurd hb List.not_mem_nil⟩
  exact ⟨hi.ok, hi.lists, hi.addrs, hi.pages, hi.inUse, hi.accounts, hi.log, fun h => h.elim⟩

/-- `kmalloc` and `kfree` return. -/
theorem Inv.returns (hA : Correct A inUse) {w : World} (hw : Inv w) :
    (∀ size, ∃ r, kmalloc A size w.state = some r) ∧
      ∀ o ∈ w.live, ∃ s', kfree A o.1 w.state = some s' := by
  obtain ⟨bs, hi, hbusy⟩ := hw
  exact hi.returns hA hbusy

/-- The pages of an object: handed out, on no free list, and no one else's. -/
structure Owned (w : World) (q : Nat) : Prop where
  managed : q ∈ w.state.pmm.world.managed
  inUse : q ∈ w.state.pmm.world.allocated
  others : ∀ r ∈ w.others, ¬ (r.1 ≤ q ∧ q < r.1 + r.2)

theorem Inv.owned {w : World} (hw : Inv w) {o : Nat × Nat} (ho : o ∈ w.live) {k : Nat}
    (hk : k < o.2) : Owned w (kva2page (o.1 + k)) := by
  obtain ⟨bs, hi, -⟩ := hw
  obtain ⟨b, hb, hobj⟩ := (hi.permLive (tagged_erase ho)).objectIn
  have hbyte : b.Holds (o.1 + k) 1 := by
    obtain ⟨h1, h2⟩ := hobj.pages
    have hroom := hobj.room
    exact ⟨by omega, by omega⟩
  have hmem := Slab.holds_page hbyte Nat.one_pos
  have hin := hi.inUse _ (hi.mem_pages hb hmem)
  refine ⟨?_, hin, fun r hr hrange => ?_⟩
  · obtain ⟨L, hL⟩ := w.state.pmm.inv
    exact (hL.mem_iff _).mpr (.inr hin)
  · have hpages := hi.pages
    rw [runs, List.flatMap_append, List.nodup_append'] at hpages
    refine hpages.2.2 (List.mem_flatMap.mpr ⟨r, hr, mem_runPages.mpr hrange⟩) ?_
    exact List.mem_flatMap.mpr ⟨b.block, List.mem_map_of_mem hb, hmem⟩

/-- Objects share no byte. -/
theorem Inv.apart {w : World} (hw : Inv w) : AllApart ((tagged w.live).map objArea) := by
  obtain ⟨bs, hi, -⟩ := hw
  exact (List.pairwise_append.mp hi.areas_apart).1

/-- The runs of the others are in use, and share no page. -/
theorem Inv.runs_inUse {w : World} (hw : Inv w) :
    (w.others.flatMap runPages).Nodup ∧
      ∀ q ∈ w.others.flatMap runPages, q ∈ w.state.pmm.world.allocated := by
  obtain ⟨bs, hi, -⟩ := hw
  have hpages := hi.pages
  have hmem := hi.inUse
  rw [runs, List.flatMap_append] at hpages hmem
  exact ⟨(List.nodup_append'.mp hpages).1, fun q hq => hmem q (List.mem_append_left _ hq)⟩

/-- The two words of a link, as if they were links of pages. -/
def demoWords (l : PageLink) : ListEntry SharixBuddy.Addr := ⟨.pageLink l.prev, .pageLink l.next⟩

def demoTags (l : ListEntry SharixBuddy.Addr) : PageLink :=
  ⟨(SharixBuddy.toPage l.next).getD 0, (SharixBuddy.toPage l.prev).getD 0⟩

def demoArea : SharixBuddy.State :=
  (SharixBuddy.buddyInitMemmap 0 8 SharixBuddy.emptyArea).getD SharixBuddy.emptyArea

def demoPmm : Pmm where
  world := ⟨demoArea, ∅ ∪ Finset.Ico 0 8, ∅⟩
  inv := by
    have hnew : Disjoint (∅ : Finset Nat) (Finset.Ico 0 (0 + 8)) := Finset.disjoint_empty_left _
    obtain ⟨s, hrun, hinv⟩ := SharixBuddy.initMemmap_inv
      (SharixBuddy.inv_of_empty SharixBuddy.emptyArea_empty) hnew
    rw [demoArea, hrun]
    exact ⟨_, hinv⟩
  below := by decide

def demoStart : SharixSlab.State Pmm where
  link := fun _ => ⟨.null, .null⟩
  slab := fun _ => ⟨0, 0, 0, 0, fun _ => 0⟩
  pageLink := fun _ => ⟨0, 0⟩
  pgSlab := fun _ => false
  pmm := demoPmm
  obtained := []
  returned := []

def demoInit : SharixSlab.State Pmm := (slabInit demoStart).getD demoStart

end Run

end SharixHeap
