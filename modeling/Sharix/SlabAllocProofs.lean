import Sharix.SlabInvProofs

/-! # `kmem_cache_alloc`

    An object comes from the first slab on `slabs_notfull`; if there is none,
    `kmem_cache_grow` makes one.  The control block of a new slab may be an
    object itself, of a cache whose slabs keep their own: one call deeper, and
    no further.

    Either an object is allocated, or nothing has changed. -/

namespace SharixSlab

open SharixList

variable {σ : Type} {A : PageAllocator σ} {inUse : σ → Nat → Prop} {C : Prop}
  {s : State σ} {bs : List Slab} {live extra : List (Nat × Nat)}

/-! ## Pages -/

/-- Lists, records and flags are as they were. -/
def Unchanged (s s' : State σ) : Prop :=
  s'.link = s.link ∧ s'.slab = s.slab ∧ s'.pgSlab = s.pgSlab

theorem Unchanged.trans {s₁ s₂ s₃ : State σ} (h : Unchanged s₁ s₂)
    (h' : Unchanged s₂ s₃) : Unchanged s₁ s₃ :=
  ⟨h'.1.trans h.1, h'.2.1.trans h.2.1, h'.2.2.trans h.2.2⟩

theorem Inv.pageLink_inUse (hi : Inv inUse C s bs live extra) {b : Slab}
    (hb : b ∈ bs) {q : Nat} (hq : q ∈ b.pages) : inUse s.pmm q :=
  hi.inUse q (hi.mem_pages hb hq)

theorem allocPages_none (hA : Correct A inUse)
    (hi : Inv inUse C s bs live extra) {n : Nat}
    (hnone : (allocPages A n s).1 = none) :
    Inv inUse C (allocPages A n s).2 bs live extra ∧
      Unchanged s (allocPages A n s).2 := by
  obtain ⟨huse, hlinks⟩ := hA.allocNone n s.pmm s.pageLink hnone
  refine ⟨⟨fun b hb => ?_, hi.lists, hi.addrs, hi.pages, fun q hq => ?_,
    hi.accounts, ?_, hi.clean⟩, rfl, rfl, rfl⟩
  · exact (hi.ok b hb).congr rfl
      (fun q hq => hlinks q (hi.pageLink_inUse hb hq)) fun _ _ => rfl
  · exact (huse q).mpr (hi.inUse q hq)
  · have hlog : (allocPages A n s).2.obtained = s.obtained := by
      have h1 : (A.alloc n s.pmm s.pageLink).1 = none := hnone
      simp only [allocPages, h1]
    rw [hlog]
    exact hi.log

theorem allocPages_some (hA : Correct A inUse)
    (hi : Inv inUse C s bs live extra) {n page : Nat}
    (hsome : (allocPages A n s).1 = some page) :
    Inv inUse C (allocPages A n s).2 bs live ((page, n) :: extra) ∧
      Unchanged s (allocPages A n s).2 ∧
      (page + n) * PGSIZE ≤ KMEMSIZE ∧
      ∀ q ∈ runPages (page, n), q ∉ (runs bs extra).flatMap runPages := by
  obtain ⟨hfree, hbound, huse, hlinks⟩ :=
    hA.allocSome n s.pmm s.pageLink page hsome
  have hnew : ∀ q ∈ runPages (page, n),
      q ∉ (runs bs extra).flatMap runPages := by
    intro q hq hold
    obtain ⟨h1, h2⟩ := mem_runPages.mp hq
    exact hfree q h1 h2 (hi.inUse q hold)
  have hcons : (runs bs ((page, n) :: extra)).flatMap runPages
      = runPages (page, n) ++ (runs bs extra).flatMap runPages := by
    rw [runs, runs, List.cons_append, List.flatMap_cons]
  refine ⟨⟨fun b hb => ?_, hi.lists, hi.addrs, ?_, fun q hq => ?_,
    hi.accounts, ?_, fun hC q hq => ?_⟩, ⟨rfl, rfl, rfl⟩, hbound, hnew⟩
  · exact (hi.ok b hb).congr rfl
      (fun q hq => hlinks q (hi.pageLink_inUse hb hq)) fun _ _ => rfl
  · rw [hcons]
    exact List.Nodup.append List.nodup_range' hi.pages hnew
  · rw [hcons] at hq
    refine (huse q).mpr ?_
    rcases List.mem_append.mp hq with h | h
    · exact .inr (mem_runPages.mp h)
    · exact .inl (hi.inUse q h)
  · have hlog : (allocPages A n s).2.obtained = (page, n) :: s.obtained := by
      have h1 : (A.alloc n s.pmm s.pageLink).1 = some page := hsome
      simp only [allocPages, h1]
    rw [hlog]
    exact (hi.log.cons _).trans List.perm_middle.symm
  · rw [hcons]
    exact List.mem_append_right _ (hi.clean hC q hq)

/-- Pages that belong to no slab go back, once their flags are clear. -/
theorem freePages_inv (hA : Correct A inUse) {page n : Nat}
    (hi : Inv inUse C s bs live ((page, n) :: extra))
    (hflag : C → ∀ q ∈ runPages (page, n), s.pgSlab q = false) :
    Inv inUse C (freePages A page n s) bs live extra ∧
      Unchanged s (freePages A page n s) := by
  have hcons : (runs bs ((page, n) :: extra)).flatMap runPages
      = runPages (page, n) ++ (runs bs extra).flatMap runPages := by
    rw [runs, runs, List.cons_append, List.flatMap_cons]
  have hpages := hi.pages
  rw [hcons, List.nodup_append'] at hpages
  obtain ⟨huse, hlinks⟩ := hA.free page n s.pmm s.pageLink fun q h1 h2 =>
    hi.inUse q (by
      rw [hcons]
      exact List.mem_append_left _ (mem_runPages.mpr ⟨h1, h2⟩))
  have hkept : ∀ q ∈ (runs bs extra).flatMap runPages,
      inUse (freePages A page n s).pmm q := by
    intro q hq
    refine (huse q).mpr ⟨hi.inUse q ?_, fun hr => ?_⟩
    · rw [hcons]
      exact List.mem_append_right _ hq
    · exact hpages.2.2 (mem_runPages.mpr hr) hq
  refine ⟨⟨fun b hb => ?_, hi.lists, hi.addrs, hpages.2.1, hkept,
    hi.accounts, ?_, fun hC q hq => ?_⟩, rfl, rfl, rfl⟩
  · refine (hi.ok b hb).congr rfl (fun q hq => hlinks q (hkept q ?_))
      fun _ _ => rfl
    exact List.mem_flatMap.mpr ⟨b.block,
      List.mem_append_right _ (List.mem_map_of_mem hb), hq⟩
  · exact hi.log.trans List.perm_middle
  · have hmem := hi.clean hC q hq
    rw [hcons] at hmem
    rcases List.mem_append.mp hmem with h | h
    · have hoff := hflag hC q h
      exact absurd (hq.symm.trans hoff) (by simp)
    · exact h

/-- The loop of `kmem_cache_grow` over the pages. -/
theorem setPages_eq (i slabp : Nat) (n : Nat) : ∀ (page : Nat) (s : State σ),
    setPages i slabp n page s = { s with
      pageLink := fun q => if page ≤ q ∧ q < page + n then ⟨i, slabp⟩
        else s.pageLink q
      pgSlab := fun q => if page ≤ q ∧ q < page + n then true
        else s.pgSlab q } := by
  induction n with
  | zero =>
      intro page s
      have hno : ∀ q, ¬ (page ≤ q ∧ q < page + 0) := fun q h => by omega
      simp only [setPages, hno, if_false]
  | succ n ih =>
      intro page s
      rw [setPages, ih]
      have hstep : ∀ q, (page ≤ q ∧ q < page + (n + 1)) ↔
          (page + 1 ≤ q ∧ q < page + 1 + n) ∨ q = page := fun q => by omega
      simp only [setPage, Function.update_apply, hstep, ite_or]

/-! ## `kmem_cache_grow` -/

/-- The record of a new slab. -/
def newRecord (i page : Nat) (bufctl : Nat → Nat) : SlabT :=
  { sMem := page2kva page + (slabCache i).offset
    inuse := 0
    offset := (slabCache i).offset
    free := 0
    bufctl := initBufctl (slabCache i).num bufctl }

/-- The state when `kmem_cache_grow` has written the record and the pages of
    the new slab, but for its link. -/
def grown (b : Slab) (s : State σ) : State σ :=
  { s with
    slab := Function.update s.slab b.addr
      (newRecord b.cache b.page (s.slab b.addr).bufctl)
    pageLink := fun q => if b.page ≤ q ∧ q < b.page + b.count
      then ⟨b.cache, b.addr⟩ else s.pageLink q
    pgSlab := fun q => if b.page ≤ q ∧ q < b.page + b.count then true
      else s.pgSlab q }

theorem used_range {b : Slab} (hfree : b.free = List.range b.cachep.num) :
    b.used = [] := by
  rw [Slab.used, hfree, List.filter_eq_nil_iff]
  intro k hk
  simpa using hk

theorem grown_ok {b : Slab} (hc : b.cache < SLAB_CACHE_NUM)
    (hfree : b.free = List.range b.cachep.num)
    (haddr : b.cachep.offSlab = false → b.addr = page2kva b.page)
    (hbound : (b.page + b.count) * PGSIZE ≤ KMEMSIZE) :
    SlabOk (grown b s) b := by
  have hrec : (grown b s).slab b.addr
      = newRecord b.cache b.page (s.slab b.addr).bufctl :=
    Function.update_self _ _ _
  refine ⟨hc, ⟨?_, ?_⟩, ?_, ?_, ?_, ?_, haddr, ?_, ?_, hbound⟩
  · rw [hfree]
    exact List.nodup_range
  · intro k hk
    rw [hfree] at hk
    exact List.mem_range.mp hk
  · rw [hrec]
    rfl
  · rw [hrec]
    rfl
  · rw [hrec, used_range hfree]
    rfl
  · rw [hrec, hfree]
    exact chain_initBufctl _ (slabCache_ok hc).num
  · intro q hq
    exact if_pos (Slab.mem_pages.mp hq)
  · intro q hq
    exact if_pos (Slab.mem_pages.mp hq)

/-- The new slab takes over its run of pages and its control block. -/
theorem grown_inv {b : Slab}
    (hi : Inv inUse C s bs (b.control ++ live) (b.block :: extra))
    (hc : b.cache < SLAB_CACHE_NUM)
    (hfree : b.free = List.range b.cachep.num)
    (haddr : b.cachep.offSlab = false → b.addr = page2kva b.page)
    (hbound : (b.page + b.count) * PGSIZE ≤ KMEMSIZE)
    (hnew : b.addr ∉ bs.map Slab.addr) :
    ∃ link, listAdd (grown b s).link (.slabsNotfull b.cache)
        (.slabLink b.addr) = some link ∧
      Inv inUse C { grown b s with link := link } (b :: bs) live extra ∧
      listNext link (.slabsNotfull b.cache) = some (.slabLink b.addr) ∧
      listEmpty link (.slabsNotfull b.cache) = some false := by
  have hempty : b.free.isEmpty = false := by
    have hnum := (slabCache_ok hc).num
    rw [hfree, List.isEmpty_eq_false_iff]
    intro hnil
    have hlen := congrArg List.length hnil
    rw [List.length_range] at hlen
    exact absurd hlen (Nat.ne_of_gt hnum)
  have hhead : head b.list = Addr.slabsNotfull b.cache := by
    rw [Slab.list, hempty]
    rfl
  obtain ⟨link, hadd, hlists, hnext, hne⟩ := lists_add hi.lists hc hnew
  rw [hhead] at hadd hnext hne
  have hruns : (runs bs (b.block :: extra)).Perm (runs (b :: bs) extra) := by
    rw [runs, runs, List.map_cons]
    exact List.perm_middle.symm
  have hpages := hruns.flatMap_right runPages
  -- no page of another slab is written
  have hsep : ∀ c ∈ bs, ∀ q ∈ c.pages, ¬ (b.page ≤ q ∧ q < b.page + b.count) := by
    intro c hcm q hq hr
    have hn := hi.pages
    rw [runs, List.cons_append, List.flatMap_cons, List.nodup_append'] at hn
    refine hn.2.2 (mem_runPages.mpr hr) (List.mem_flatMap.mpr
      ⟨c.block, List.mem_append_right _ (List.mem_map_of_mem hcm), hq⟩)
  refine ⟨link, hadd, ⟨?_, hlists, ?_, hpages.nodup_iff.mp hi.pages,
    fun q hq => hi.inUse q (hpages.mem_iff.mpr hq), ?_,
    hi.log.trans (hruns.append_left _), ?_⟩, hnext, hne⟩
  · intro c hcm
    rcases List.mem_cons.mp hcm with rfl | hcm
    · exact (grown_ok hc hfree haddr hbound).congr rfl (fun _ _ => rfl)
        fun _ _ => rfl
    · refine (hi.ok c hcm).congr ?_ (fun q hq => ?_) fun q hq => ?_
      · refine Function.update_of_ne ?_ _ _
        intro heq
        exact hnew (heq ▸ List.mem_map_of_mem hcm)
      · exact if_neg (hsep c hcm q hq)
      · exact if_neg (hsep c hcm q hq)
  · rw [List.map_cons]
    exact List.nodup_cons.mpr ⟨hnew, hi.addrs⟩
  · have hobjs : b.objs = [] := by
      rw [Slab.objs, used_range hfree]
      rfl
    rw [List.flatMap_cons, hobjs, List.nil_append, List.flatMap_cons]
    refine hi.accounts.trans ?_
    rw [← List.append_assoc]
    exact List.perm_append_comm.append_right _
  · intro hC q hq
    rw [← hpages.mem_iff]
    by_cases hr : b.page ≤ q ∧ q < b.page + b.count
    · rw [runs, List.cons_append, List.flatMap_cons]
      exact List.mem_append_left _ (mem_runPages.mpr hr)
    · refine hi.clean hC q ?_
      rw [← hq]
      exact (if_neg hr).symm

/-- What a call of `kmem_cache_alloc` for cache `i` comes to. -/
def AllocEnd (inUse : σ → Nat → Prop) (C : Prop) (i : Nat) (s : State σ)
    (bs : List Slab) (live extra : List (Nat × Nat))
    (r : Option Nat × State σ) : Prop :=
  (r.1 = none ∧ Inv inUse C r.2 bs live extra ∧ Unchanged s r.2) ∨
  ∃ p bs', r.1 = some p ∧ Inv inUse C r.2 bs' ((i, p) :: live) extra ∧
    Busy bs'

/-- What `kmem_cache_grow` comes to: a new slab, first on its list, or no
    change. -/
def GrowEnd (inUse : σ → Nat → Prop) (C : Prop) (i : Nat) (s : State σ)
    (bs : List Slab) (live extra : List (Nat × Nat))
    (r : Bool × State σ) : Prop :=
  (r.1 = false ∧ Inv inUse C r.2 bs live extra ∧ Unchanged s r.2) ∨
  ∃ b bs', r.1 = true ∧ Inv inUse C r.2 (b :: bs') live extra ∧ Busy bs' ∧
    b.cache = i ∧ b.free ≠ [] ∧
    listNext r.2.link (.slabsNotfull i) = some (.slabLink b.addr) ∧
    listEmpty r.2.link (.slabsNotfull i) = some false

section
variable {alloc : Nat → State σ → Option (Option Nat × State σ)}

/-- The call for the address of the control block. -/
def controlBlock (alloc : Nat → State σ → Option (Option Nat × State σ))
    (i page : Nat) (s : State σ) : Option (Option Nat × State σ) :=
  if (slabCache i).offSlab then alloc (slabCache i).slabCachep s
  else some (some (page2kva page), s)

theorem kmemCacheGrow_noPages {i : Nat}
    (hpages : (allocPages A (1 <<< (slabCache i).pageOrder) s).1 = none) :
    kmemCacheGrow A alloc i s =
      some (false, (allocPages A (1 <<< (slabCache i).pageOrder) s).2) := by
  simp only [kmemCacheGrow, hpages]

theorem kmemCacheGrow_noControl {i page : Nat} {s₂ : State σ}
    (hpages : (allocPages A (1 <<< (slabCache i).pageOrder) s).1 = some page)
    (hctl : controlBlock alloc i page
      (allocPages A (1 <<< (slabCache i).pageOrder) s).2 = some (none, s₂)) :
    kmemCacheGrow A alloc i s =
      some (false, freePages A page (1 <<< (slabCache i).pageOrder) s₂) := by
  rw [controlBlock] at hctl
  simp only [kmemCacheGrow, hpages, kmemCacheSlabmgmt, hctl, Option.map_some,
    Option.bind_some]

theorem kmemCacheGrow_slab {i page slabp : Nat} {s₂ : State σ}
    (hpages : (allocPages A (1 <<< (slabCache i).pageOrder) s).1 = some page)
    (hctl : controlBlock alloc i page
      (allocPages A (1 <<< (slabCache i).pageOrder) s).2
        = some (some slabp, s₂)) :
    kmemCacheGrow A alloc i s =
      (listAdd s₂.link (.slabsNotfull i) (.slabLink slabp)).map fun link =>
        (true, { grown ⟨i, slabp, page, List.range (slabCache i).num⟩ s₂ with
          link := link }) := by
  rw [controlBlock] at hctl
  simp only [kmemCacheGrow, hpages, kmemCacheSlabmgmt, hctl, Option.map_some,
    Option.bind_some, setPages_eq, Function.update_self, Function.update_idem]
  rfl

/-- A control block in its own slab is new: its page was in no slab. -/
theorem Inv.addr_fresh (hi : Inv inUse C s bs live extra) {page n : Nat}
    (hn : 0 < n)
    (hnew : ∀ q ∈ runPages (page, n), q ∉ (runs bs extra).flatMap runPages) :
    page2kva page ∉ bs.map Slab.addr := by
  intro hmem
  obtain ⟨b, hb, haddr⟩ := List.mem_map.mp hmem
  obtain ⟨c, hc, hq⟩ := hi.addr_page hb
  rw [haddr, kva2page, page2kva, Nat.add_sub_cancel_left,
    Nat.mul_div_cancel _ (by decide)] at hq
  refine hnew page (mem_runPages.mpr ⟨Nat.le_refl _, ?_⟩) (hi.mem_pages hc hq)
  exact Nat.lt_add_of_pos_right hn

/-- Once there is a control block, there is a new slab. -/
theorem kmemCacheGrow_grown {i page slabp : Nat} {s₂ : State σ}
    {bs' : List Slab} (hc : i < SLAB_CACHE_NUM)
    (hpages : (allocPages A (1 <<< (slabCache i).pageOrder) s).1 = some page)
    (hctl : controlBlock alloc i page
      (allocPages A (1 <<< (slabCache i).pageOrder) s).2
        = some (some slabp, s₂))
    (hi₂ : Inv inUse C s₂ bs' ((Slab.mk i slabp page
      (List.range (slabCache i).num)).control ++ live)
      ((page, 1 <<< (slabCache i).pageOrder) :: extra))
    (hbound : (page + 1 <<< (slabCache i).pageOrder) * PGSIZE ≤ KMEMSIZE)
    (haddr : (slabCache i).offSlab = false → slabp = page2kva page)
    (hfresh : slabp ∉ bs'.map Slab.addr) (hbusy : Busy bs') :
    ∃ r, kmemCacheGrow A alloc i s = some r ∧
      GrowEnd inUse C i s bs live extra r := by
  obtain ⟨link, hadd, hi₃, hnext, hempty⟩ := grown_inv
    (b := ⟨i, slabp, page, List.range (slabCache i).num⟩) hi₂ hc rfl haddr
    hbound hfresh
  refine ⟨(true, _), ?_, .inr ⟨_, bs', rfl, hi₃, hbusy, rfl, ?_, hnext,
    hempty⟩⟩
  · rw [kmemCacheGrow_slab hpages hctl]
    exact congrArg (Option.map _) hadd
  · intro hnil
    have hlen := congrArg List.length hnil
    rw [List.length_range] at hlen
    exact absurd hlen (Nat.ne_of_gt (slabCache_ok hc).num)

/-- Whatever the page allocator and the call for the control block answer. -/
theorem kmemCacheGrow_spec (hA : Correct A inUse) {i : Nat}
    (hc : i < SLAB_CACHE_NUM) (hi : Inv inUse C s bs live extra)
    (hbusy : Busy bs)
    (halloc : (slabCache i).offSlab = true → ∀ s' extra',
      Inv inUse C s' bs live extra' →
      ∃ r, alloc (slabCache i).slabCachep s' = some r ∧
        AllocEnd inUse C (slabCache i).slabCachep s' bs live extra' r) :
    ∃ r, kmemCacheGrow A alloc i s = some r ∧
      GrowEnd inUse C i s bs live extra r := by
  cases hpages : (allocPages A (1 <<< (slabCache i).pageOrder) s).1 with
  | none =>
      obtain ⟨hi', hsame⟩ := allocPages_none hA hi hpages
      exact ⟨_, kmemCacheGrow_noPages hpages, .inl ⟨rfl, hi', hsame⟩⟩
  | some page =>
      obtain ⟨hi', hsame, hbound, hnew⟩ := allocPages_some hA hi hpages
      cases hoff : (slabCache i).offSlab with
      | false =>
          have hctl : controlBlock alloc i page
              (allocPages A (1 <<< (slabCache i).pageOrder) s).2
              = some (some (page2kva page),
                (allocPages A (1 <<< (slabCache i).pageOrder) s).2) := by
            rw [controlBlock, hoff]
            rfl
          refine kmemCacheGrow_grown hc hpages hctl ?_ hbound
            (fun _ => rfl) ?_ hbusy
          · rw [Slab.control, Slab.cachep, hoff]
            exact hi'
          · exact hi.addr_fresh (Slab.count_pos ⟨i, 0, 0, []⟩) hnew
      | true =>
          obtain ⟨⟨o, s₂⟩, hr, hrend⟩ := halloc hoff _ _ hi'
          have hctl : controlBlock alloc i page
              (allocPages A (1 <<< (slabCache i).pageOrder) s).2
              = some (o, s₂) := by
            rw [controlBlock, hoff]
            exact hr
          rcases hrend with ⟨hnone, hi₂, hsame₂⟩ | ⟨p, bs', hsome, hi₂, hbusy'⟩
          · obtain rfl := hnone
            -- the pages go back as they came, their flags were never set
            obtain ⟨hi₃, hsame₃⟩ := freePages_inv hA hi₂ (by
              intro hC q hq
              rw [hsame₂.2.2, hsame.2.2]
              by_contra hset
              rw [Bool.not_eq_false] at hset
              exact hnew q hq (hi.clean hC q hset))
            exact ⟨_, kmemCacheGrow_noControl hpages hctl,
              .inl ⟨rfl, hi₃, (hsame.trans hsame₂).trans hsame₃⟩⟩
          · obtain rfl := hsome
            refine kmemCacheGrow_grown hc hpages hctl ?_ hbound (fun h => ?_)
              ?_ hbusy'
            · rw [Slab.control, Slab.cachep, hoff]
              exact hi₂
            · rw [hoff] at h
              cases h
            · intro hmem
              obtain ⟨b, hb, haddr⟩ := List.mem_map.mp hmem
              exact hi₂.live_not_addr hb haddr

end

/-! ## `kmem_cache_alloc_one` -/

/-- The first free object of a slab that is not full. -/
theorem kmemCacheAllocOne_spec {b : Slab}
    (hi : Inv inUse C s (b :: bs) live extra) (hbusy : Busy bs)
    (hfree : b.free ≠ []) :
    ∃ r b', kmemCacheAllocOne b.cache b.addr s = some r ∧
      Inv inUse C r.2 (b' :: bs) ((b.cache, r.1) :: live) extra ∧
      Busy (b' :: bs) := by
  have hok := hi.ok b List.mem_cons_self
  have hc := hok.cache
  obtain ⟨k, fr, hkfr⟩ := List.exists_cons_of_ne_nil hfree
  have hchain := hok.chain
  rw [hkfr] at hchain
  obtain ⟨hk, hchain⟩ := hchain
  have hsub : Slab.FreeOk { b with free := fr } := by
    have hn := hok.free.nodup
    rw [hkfr, List.nodup_cons] at hn
    exact ⟨hn.2, fun x hx => hok.free.lt x (by
      rw [hkfr]
      exact List.mem_cons_of_mem _ hx)⟩
  have hused : (Slab.used { b with free := fr }).Perm (k :: b.used) :=
    Slab.used_cons hok.free rfl hkfr
  have hobjs : (Slab.objs { b with free := fr }).Perm
      ((b.cache, b.objAddr k) :: b.objs) := Slab.objs_cons hok.free rfl rfl hkfr
  have hacc : (Slab.objs { b with free := fr } ++ bs.flatMap Slab.objs).Perm
      (((b.cache, b.objAddr k) :: live) ++ (b :: bs).flatMap Slab.control) :=
    (hobjs.append_right _).trans (hi.accounts.cons _)
  have hbusy' : Busy ({ b with free := fr } :: bs) := by
    intro c hcm
    rcases List.mem_cons.mp hcm with rfl | hcm
    · intro hnil
      rw [hnil] at hused
      exact absurd hused.length_eq (by simp)
    · exact hbusy c hcm
  have hset : ∀ {link}, Lists link ({ b with free := fr } :: bs) →
      Inv inUse C { s with
        slab := Function.update s.slab b.addr { s.slab b.addr with
          inuse := (s.slab b.addr).inuse + 1
          free := (s.slab b.addr).bufctl k }
        link := link } ({ b with free := fr } :: bs)
        ((b.cache, b.objAddr k) :: live) extra := by
    intro link hlists
    refine hi.setFree hsub rfl rfl ?_ hchain hlists hacc
    rw [hused.length_eq, List.length_cons, ← hok.inuse]
  have hobjp : (s.slab b.addr).sMem + k * (slabCache b.cache).objsize
      = b.objAddr k := by
    rw [hok.sMem]
    rfl
  have hnew := (List.nodup_cons.mp hi.addrs).1
  rw [kmemCacheAllocOne]
  simp only [Function.update_self, hk, hobjp]
  cases hfr : fr with
  | nil =>
      -- the last one: the slab is full
      subst hfr
      obtain ⟨m₁, m₂, hdel, hadd, hl₂⟩ := lists_move
        { b with free := [] } hi.lists hc hnew rfl rfl
      have hadd' : listAdd m₁ (.slabsFull b.cache) (.slabLink b.addr)
          = some m₂ := hadd
      have hlast : (s.slab b.addr).bufctl k = BUFCTL_END := hchain
      rw [if_pos hlast, hdel, Option.bind_some, hadd', Option.map_some]
      exact ⟨_, _, rfl, hset hl₂, hbusy'⟩
  | cons x l =>
      -- the slab stays on its list
      subst hfr
      have hlt : x < BUFCTL_END := Nat.lt_trans
        (hok.free.lt x (by
          rw [hkfr]
          exact List.mem_cons_of_mem _ List.mem_cons_self))
        (slabCache_ok hc).numLt
      rw [if_neg (by rw [hchain.1]; exact Nat.ne_of_lt hlt)]
      have hstay : Slab.list { b with free := x :: l } = b.list := by
        rw [Slab.list, Slab.list, hkfr]
        rfl
      have hlists : Lists s.link ({ b with free := x :: l } :: bs) :=
        lists_change (b := b) rfl hstay hi.lists
      exact ⟨_, _, rfl, hset hlists, hbusy'⟩

/-! ## `kmem_cache_alloc` -/

/-- The first slab on the list has an object. -/
theorem kmemCacheAlloc_found {b : Slab} (fuel : Nat)
    (hi : Inv inUse C s (b :: bs) live extra) (hbusy : Busy bs)
    (hfree : b.free ≠ [])
    (hnext : listNext s.link (.slabsNotfull b.cache)
      = some (.slabLink b.addr))
    (hempty : listEmpty s.link (.slabsNotfull b.cache) = some false) :
    ∃ p s' bs', kmemCacheAlloc A (fuel + 1) b.cache s = some (some p, s') ∧
      Inv inUse C s' bs' ((b.cache, p) :: live) extra ∧ Busy bs' := by
  obtain ⟨⟨p, s'⟩, b', hone, hi', hbusy'⟩ := kmemCacheAllocOne_spec hi hbusy
    hfree
  refine ⟨p, s', b' :: bs, ?_, hi', hbusy'⟩
  rw [kmemCacheAlloc, hempty, Option.bind_some, if_neg (by decide), hnext,
    Option.bind_some, le2slab, Option.bind_some, hone]
  rfl

/-- From the calls for control blocks to the call itself. -/
theorem kmemCacheAlloc_step (hA : Correct A inUse) {i : Nat}
    (hc : i < SLAB_CACHE_NUM) (fuel : Nat)
    (hi : Inv inUse C s bs live extra) (hbusy : Busy bs)
    (halloc : (slabCache i).offSlab = true → ∀ s' extra',
      Inv inUse C s' bs live extra' →
      ∃ r, kmemCacheAlloc A (fuel + 1) (slabCache i).slabCachep s' = some r ∧
        AllocEnd inUse C (slabCache i).slabCachep s' bs live extra' r) :
    ∃ r, kmemCacheAlloc A (fuel + 2) i s = some r ∧
      AllocEnd inUse C i s bs live extra r := by
  have hfound : ∀ {s' : State σ} {b : Slab} {bs'} (n : Nat),
      Inv inUse C s' (b :: bs') live extra → Busy bs' → b.cache = i →
      b.free ≠ [] →
      listNext s'.link (.slabsNotfull i) = some (.slabLink b.addr) →
      listEmpty s'.link (.slabsNotfull i) = some false →
      ∃ r, kmemCacheAlloc A (n + 1) i s' = some r ∧
        AllocEnd inUse C i s bs live extra r := by
    rintro s' b bs' n hi' hbusy' rfl hfree hnext hempty
    obtain ⟨p, s'', bs'', hrun, hend⟩ := kmemCacheAlloc_found n hi' hbusy' hfree
      hnext hempty
    exact ⟨_, hrun, .inr ⟨p, bs'', rfl, hend⟩⟩
  rcases lists_first hi.lists (j := (i, false)) hc with
    hempty | ⟨b, hb, hlist, hempty, hnext⟩
  · obtain ⟨⟨grew, s'⟩, hgrow, hend⟩ := kmemCacheGrow_spec hA hc hi hbusy halloc
    have hstep : kmemCacheAlloc A (fuel + 2) i s
        = if grew then kmemCacheAlloc A (fuel + 1) i s'
          else some (none, s') := by
      have hempty' : listEmpty s.link (.slabsNotfull i) = some true := hempty
      rw [kmemCacheAlloc, hempty', Option.bind_some, if_pos rfl, hgrow,
        Option.bind_some]
    rcases hend with ⟨rfl, hi', hsame⟩ |
      ⟨b, bs', rfl, hi', hbusy', hcache, hfree, hnext, hempty⟩
    · exact ⟨_, hstep, .inl ⟨rfl, hi', hsame⟩⟩
    · rw [hstep, if_pos rfl]
      exact hfound fuel hi' hbusy' hcache hfree hnext hempty
  · obtain ⟨rest, hperm⟩ := exists_perm_cons hb
    have hcache : b.cache = i := congrArg Prod.fst hlist
    refine hfound (fuel + 1) (hi.perm hperm) ?_ hcache ?_ hnext hempty
    · intro c hcm
      exact hbusy c (hperm.mem_iff.mpr (List.mem_cons_of_mem _ hcm))
    · intro hnil
      have hfull := congrArg Prod.snd hlist
      rw [Slab.list, hnil] at hfull
      cases hfull

theorem kmemCacheAlloc_inSlab (hA : Correct A inUse) {i : Nat}
    (hc : i < SLAB_CACHE_NUM) (hoff : (slabCache i).offSlab = false)
    (fuel : Nat) (hi : Inv inUse C s bs live extra) (hbusy : Busy bs) :
    ∃ r, kmemCacheAlloc A (fuel + 2) i s = some r ∧
      AllocEnd inUse C i s bs live extra r :=
  kmemCacheAlloc_step hA hc fuel hi hbusy fun h => by
    rw [hoff] at h
    cases h

theorem kmemCacheAlloc_spec (hA : Correct A inUse) {i : Nat}
    (hc : i < SLAB_CACHE_NUM) (fuel : Nat)
    (hi : Inv inUse C s bs live extra) (hbusy : Busy bs) :
    ∃ r, kmemCacheAlloc A (fuel + 3) i s = some r ∧
      AllocEnd inUse C i s bs live extra r := by
  refine kmemCacheAlloc_step hA hc (fuel + 1) hi hbusy ?_
  intro hoff s' extra' hi'
  obtain ⟨-, hc', hin, -⟩ := (slabCache_ok hc).offSlab hoff
  exact kmemCacheAlloc_inSlab hA hc' hin fuel hi' hbusy

/-- The cache for a size, as `kmalloc` computes its index. -/
def cacheOf (size : Nat) : Nat := getorder size - MIN_SIZE_ORDER

theorem cacheOf_room {size : Nat} (h : cacheOf size < SLAB_CACHE_NUM) :
    size ≤ (slabCache (cacheOf size)).objsize := by
  have hnum : SLAB_CACHE_NUM = MAX_SIZE_ORDER - MIN_SIZE_ORDER + 1 := rfl
  rw [(slabCache_ok h).objsize]
  rw [cacheOf] at h ⊢
  rcases getorder_spec size with ⟨-, hmin, hsize⟩ | ⟨-, hmax⟩
  · rw [Nat.sub_add_cancel hmin]
    exact hsize
  · have hle : MIN_SIZE_ORDER ≤ MAX_SIZE_ORDER := by decide
    omega

/-- A call of `kmalloc` answers `NULL` and changes nothing, or allocates an
    object of the cache for the size. -/
theorem kmalloc_spec (hA : Correct A inUse) (size : Nat)
    (hi : Inv inUse C s bs live extra) (hbusy : Busy bs) :
    ∃ r, kmalloc A size s = some r ∧
      AllocEnd inUse C (cacheOf size) s bs live extra r := by
  rw [kmalloc]
  rcases getorder_spec size with ⟨hmax, hmin, -⟩ | ⟨-, hmax⟩
  · have hc : cacheOf size < SLAB_CACHE_NUM := by
      have hnum : SLAB_CACHE_NUM = MAX_SIZE_ORDER - MIN_SIZE_ORDER + 1 := rfl
      rw [cacheOf]
      omega
    rw [if_neg (Nat.not_lt.mpr hmax)]
    exact kmemCacheAlloc_spec hA hc 0 hi hbusy
  · rw [if_pos hmax]
    exact ⟨_, rfl, .inl ⟨rfl, hi, rfl, rfl, rfl⟩⟩

end SharixSlab
