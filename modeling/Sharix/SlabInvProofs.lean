import Sharix.SlabLayoutProofs

/-! # The invariant of the slab allocator

    `Inv s bs live extra`: the state holds the slabs `bs`; the objects in use
    are the objects `live` of the callers and the control blocks of slabs that
    do not keep their own; the pages obtained and not returned are those of
    the slabs and the runs `extra`.

    `extra` is not empty only inside a call: while a slab is built its pages
    are not yet, and while it is torn down no longer, those of a slab.  In the
    same way its control block is live then. -/

namespace SharixSlab

open SharixList

/-- A correct page allocator: it grants pages that are not in use, below
    `KMEMSIZE`, and leaves the `page_link` of pages in use alone. -/
structure Correct {σ : Type} (A : PageAllocator σ) (inUse : σ → Nat → Prop) :
    Prop where
  allocNone : ∀ n m links, (A.alloc n m links).1 = none →
    (∀ q, inUse (A.alloc n m links).2.1 q ↔ inUse m q) ∧
    ∀ q, inUse m q → (A.alloc n m links).2.2 q = links q
  allocSome : ∀ n m links page, (A.alloc n m links).1 = some page →
    (∀ q, page ≤ q → q < page + n → ¬ inUse m q) ∧
    (page + n) * PGSIZE ≤ KMEMSIZE ∧
    (∀ q, inUse (A.alloc n m links).2.1 q ↔
      inUse m q ∨ (page ≤ q ∧ q < page + n)) ∧
    ∀ q, inUse m q → (A.alloc n m links).2.2 q = links q
  free : ∀ page n m links, (∀ q, page ≤ q → q < page + n → inUse m q) →
    (∀ q, inUse (A.free page n m links).1 q ↔
      inUse m q ∧ ¬ (page ≤ q ∧ q < page + n)) ∧
    ∀ q, inUse (A.free page n m links).1 q →
      (A.free page n m links).2 q = links q

/-! ## The lists of the caches -/

/-- The heads of a cache: `(i, true)` is `slabs_full`. -/
def head : Nat × Bool → Addr
  | (i, true) => .slabsFull i
  | (i, false) => .slabsNotfull i

/-- The list a slab belongs to. -/
def Slab.list (b : Slab) : Nat × Bool := (b.cache, b.free.isEmpty)

/-- Every slab is on the list it belongs to, and nothing else is on a list. -/
def Lists (m : LinkMem Addr) (bs : List Slab) : Prop :=
  ∃ L : Nat × Bool → List Nat,
    Rings m head (fun j => j.1 < SLAB_CACHE_NUM)
      (fun j => (L j).map Addr.slabLink) ∧
    ∀ j, j.1 < SLAB_CACHE_NUM → ∀ a, a ∈ L j ↔
      ∃ b ∈ bs, b.list = j ∧ b.addr = a

theorem head_ne_slabLink (j : Nat × Bool) (a : Nat) :
    head j ≠ Addr.slabLink a := by
  rcases j with ⟨i, full⟩
  cases full <;> simp [head]

theorem slabLink_mem {j : Nat × Bool} {a : Nat} {l : List Nat} :
    Addr.slabLink a ∈ head j :: l.map Addr.slabLink ↔ a ∈ l := by
  rw [List.mem_cons, List.mem_map]
  constructor
  · rintro (heq | ⟨x, hx, heq⟩)
    · exact absurd heq.symm (head_ne_slabLink j a)
    · cases heq
      exact hx
  · exact fun h => .inr ⟨a, h, rfl⟩

theorem lists_perm {m : LinkMem Addr} {bs bs' : List Slab}
    (hperm : bs.Perm bs') (h : Lists m bs) : Lists m bs' := by
  obtain ⟨L, hR, hmem⟩ := h
  refine ⟨L, hR, fun j hj a => (hmem j hj a).trans ?_⟩
  constructor
  · rintro ⟨b, hb, h⟩
    exact ⟨b, hperm.mem_iff.mp hb, h⟩
  · rintro ⟨b, hb, h⟩
    exact ⟨b, hperm.mem_iff.mpr hb, h⟩

/-- A slab that changes and stays on its list. -/
theorem lists_change {m : LinkMem Addr} {bs : List Slab} {b b' : Slab}
    (haddr : b'.addr = b.addr) (hlist : b'.list = b.list)
    (h : Lists m (b :: bs)) : Lists m (b' :: bs) := by
  obtain ⟨L, hR, hmem⟩ := h
  refine ⟨L, hR, fun j hj a => (hmem j hj a).trans ?_⟩
  simp only [List.mem_cons, exists_eq_or_imp, haddr, hlist]

theorem lists_remove {m : LinkMem Addr} {bs : List Slab} {b : Slab}
    (h : Lists m (b :: bs)) (hc : b.cache < SLAB_CACHE_NUM)
    (hnew : b.addr ∉ bs.map Slab.addr) :
    ∃ m', listDel m (.slabLink b.addr) = some m' ∧ Lists m' bs := by
  obtain ⟨L, hR, hmem⟩ := h
  have hb : b.addr ∈ L b.list :=
    (hmem b.list hc b.addr).mpr ⟨b, List.mem_cons_self, rfl, rfl⟩
  obtain ⟨l, r, hL⟩ := List.append_of_mem hb
  have hsplit : (L b.list).map Addr.slabLink
      = l.map Addr.slabLink ++ Addr.slabLink b.addr :: r.map Addr.slabLink := by
    rw [hL, List.map_append, List.map_cons]
  obtain ⟨m', hdel, hR', -⟩ := listDel_rings hR hc hsplit
  have hn : (l ++ b.addr :: r).Nodup := by
    have hring := (List.nodup_cons.mp (hR.ring b.list hc).nodup).2
    rw [← hL]
    exact List.Nodup.of_map _ hring
  have hout := (List.nodup_cons.mp (List.nodup_middle.mp hn)).1
  refine ⟨m', hdel, Function.update L b.list (l ++ r), ?_, ?_⟩
  · have hfun : (fun j => (Function.update L b.list (l ++ r) j).map
        Addr.slabLink) = Function.update (fun j => (L j).map Addr.slabLink)
          b.list ((l ++ r).map Addr.slabLink) := Function.comp_update _ _ _ _
    rw [hfun, List.map_append]
    exact hR'
  · intro j hj a
    have hold := hmem j hj a
    by_cases hjb : j = b.list
    · subst hjb
      rw [Function.update_self]
      have hiff : a ∈ l ++ r ↔ a ∈ L b.list ∧ a ≠ b.addr := by
        rw [hL, List.mem_append, List.mem_append, List.mem_cons]
        constructor
        · rintro h
          refine ⟨h.imp_right .inr, ?_⟩
          rintro rfl
          exact hout (List.mem_append.mpr h)
        · rintro ⟨h | h | h, hne⟩
          · exact .inl h
          · exact absurd h hne
          · exact .inr h
      rw [hiff, hold]
      constructor
      · rintro ⟨⟨c, hc, h1, h2⟩, hne⟩
        rcases List.mem_cons.mp hc with rfl | hc
        · exact absurd h2.symm hne
        · exact ⟨c, hc, h1, h2⟩
      · rintro ⟨c, hc, h1, rfl⟩
        refine ⟨⟨c, List.mem_cons_of_mem _ hc, h1, rfl⟩, fun heq => ?_⟩
        exact hnew (heq ▸ List.mem_map_of_mem hc)
    · rw [Function.update_of_ne hjb, hold]
      constructor
      · rintro ⟨c, hc, h1, h2⟩
        rcases List.mem_cons.mp hc with rfl | hc
        · exact absurd h1.symm hjb
        · exact ⟨c, hc, h1, h2⟩
      · rintro ⟨c, hc, h⟩
        exact ⟨c, List.mem_cons_of_mem _ hc, h⟩

theorem lists_add {m : LinkMem Addr} {bs : List Slab} {b : Slab}
    (h : Lists m bs) (hc : b.cache < SLAB_CACHE_NUM)
    (hnew : b.addr ∉ bs.map Slab.addr) :
    ∃ m', listAdd m (head b.list) (.slabLink b.addr) = some m' ∧
      Lists m' (b :: bs) ∧
      listNext m' (head b.list) = some (.slabLink b.addr) ∧
      listEmpty m' (head b.list) = some false := by
  obtain ⟨L, hR, hmem⟩ := h
  have hfresh : ∀ j : Nat × Bool, j.1 < SLAB_CACHE_NUM →
      Addr.slabLink b.addr ∉ head j :: (L j).map Addr.slabLink := by
    intro j hj hin
    obtain ⟨c, hcm, -, heq⟩ := (hmem j hj _).mp (slabLink_mem.mp hin)
    exact hnew (heq ▸ List.mem_map_of_mem hcm)
  obtain ⟨m', hadd, hR', -⟩ := listAdd_rings hR (i := b.list) hc
    (n := Addr.slabLink b.addr) (fun h => by cases h) hfresh
  have hring := hR'.ring b.list hc
  rw [Function.update_self] at hring
  refine ⟨m', hadd, ⟨Function.update L b.list (b.addr :: L b.list), ?_, ?_⟩,
    hring.listNext_cons, hring.listEmpty_eq⟩
  · have hfun : (fun j => (Function.update L b.list (b.addr :: L b.list) j).map
        Addr.slabLink) = Function.update (fun j => (L j).map Addr.slabLink)
          b.list ((b.addr :: L b.list).map Addr.slabLink) :=
      Function.comp_update _ _ _ _
    rw [hfun, List.map_cons]
    exact hR'
  · intro j hj a
    by_cases hjb : j = b.list
    · subst hjb
      rw [Function.update_self, List.mem_cons, hmem _ hj]
      constructor
      · rintro (rfl | ⟨c, hc, h⟩)
        · exact ⟨b, List.mem_cons_self, rfl, rfl⟩
        · exact ⟨c, List.mem_cons_of_mem _ hc, h⟩
      · rintro ⟨c, hc, h1, rfl⟩
        rcases List.mem_cons.mp hc with rfl | hc
        · exact .inl rfl
        · exact .inr ⟨c, hc, h1, rfl⟩
    · rw [Function.update_of_ne hjb, hmem _ hj]
      constructor
      · rintro ⟨c, hc, h⟩
        exact ⟨c, List.mem_cons_of_mem _ hc, h⟩
      · rintro ⟨c, hc, h1, h2⟩
        rcases List.mem_cons.mp hc with rfl | hc
        · exact absurd h1.symm hjb
        · exact ⟨c, hc, h1, h2⟩

/-- A slab that changes and moves to another list. -/
theorem lists_move {m : LinkMem Addr} {bs : List Slab} {b : Slab} (b' : Slab)
    (h : Lists m (b :: bs)) (hc : b.cache < SLAB_CACHE_NUM)
    (hnew : b.addr ∉ bs.map Slab.addr) (haddr : b'.addr = b.addr)
    (hcache : b'.cache = b.cache) :
    ∃ m₁ m₂, listDel m (.slabLink b.addr) = some m₁ ∧
      listAdd m₁ (head b'.list) (.slabLink b.addr) = some m₂ ∧
      Lists m₂ (b' :: bs) := by
  obtain ⟨m₁, hdel, h₁⟩ := lists_remove h hc hnew
  rw [← hcache] at hc
  rw [← haddr] at hnew
  obtain ⟨m₂, hadd, h₂, -⟩ := lists_add h₁ hc hnew
  rw [haddr] at hadd
  exact ⟨m₁, m₂, hdel, hadd, h₂⟩

/-- A list is empty, or its first entry is a slab that belongs to it. -/
theorem lists_first {m : LinkMem Addr} {bs : List Slab} (h : Lists m bs)
    {j : Nat × Bool} (hj : j.1 < SLAB_CACHE_NUM) :
    listEmpty m (head j) = some true ∨
    ∃ b ∈ bs, b.list = j ∧ listEmpty m (head j) = some false ∧
      listNext m (head j) = some (.slabLink b.addr) := by
  obtain ⟨L, hR, hmem⟩ := h
  have hring := hR.ring j hj
  cases hL : L j with
  | nil =>
      rw [hL] at hring
      exact .inl hring.listEmpty_eq
  | cons a l =>
      rw [hL] at hring
      obtain ⟨b, hb, hlist, rfl⟩ := (hmem j hj a).mp (by
        rw [hL]
        exact List.mem_cons_self)
      exact .inr ⟨b, hb, hlist, hring.listEmpty_eq, hring.listNext_cons⟩

/-! ## The invariant -/

/-- The record, the chain and the pages of a slab. -/
structure SlabOk {σ : Type} (s : State σ) (b : Slab) : Prop where
  cache : b.cache < SLAB_CACHE_NUM
  free : b.FreeOk
  sMem : (s.slab b.addr).sMem = page2kva b.page + b.cachep.offset
  offset : (s.slab b.addr).offset = b.cachep.offset
  inuse : (s.slab b.addr).inuse = b.used.length
  chain : Chain (s.slab b.addr).bufctl (s.slab b.addr).free b.free
  addr : b.cachep.offSlab = false → b.addr = page2kva b.page
  link : ∀ q ∈ b.pages, s.pageLink q = ⟨b.cache, b.addr⟩
  flag : ∀ q ∈ b.pages, s.pgSlab q = true
  bound : (b.page + b.count) * PGSIZE ≤ KMEMSIZE

/-- The pages of a run of pages. -/
def runPages (r : Nat × Nat) : List Nat := List.range' r.1 r.2

/-- All runs of pages that the slab layer has. -/
def runs (bs : List Slab) (extra : List (Nat × Nat)) : List (Nat × Nat) :=
  extra ++ bs.map Slab.block

/-- The invariant; `C` says whether the flags of all other pages are clear. -/
structure Inv {σ : Type} (inUse : σ → Nat → Prop) (C : Prop) (s : State σ)
    (bs : List Slab) (live extra : List (Nat × Nat)) : Prop where
  ok : ∀ b ∈ bs, SlabOk s b
  lists : Lists s.link bs
  addrs : (bs.map Slab.addr).Nodup
  pages : ((runs bs extra).flatMap runPages).Nodup
  inUse : ∀ q ∈ (runs bs extra).flatMap runPages, inUse s.pmm q
  accounts : (bs.flatMap Slab.objs).Perm (live ++ bs.flatMap Slab.control)
  log : s.obtained.Perm (s.returned ++ runs bs extra)
  clean : C → ∀ q, s.pgSlab q = true → q ∈ (runs bs extra).flatMap runPages

/-- No slab is without an object in use. -/
def Busy (bs : List Slab) : Prop := ∀ b ∈ bs, b.used ≠ []

section
variable {σ : Type} {inUse : σ → Nat → Prop} {C : Prop} {s : State σ}
  {bs : List Slab} {live extra : List (Nat × Nat)}

theorem mem_runPages {r : Nat × Nat} {q : Nat} :
    q ∈ runPages r ↔ r.1 ≤ q ∧ q < r.1 + r.2 := by
  rw [runPages, List.mem_range'_1]

theorem runs_perm {bs' : List Slab} (hperm : bs.Perm bs') :
    (runs bs extra).Perm (runs bs' extra) :=
  (hperm.map _).append_left _

theorem Inv.perm {bs' : List Slab} (hi : Inv inUse C s bs live extra)
    (hperm : bs.Perm bs') : Inv inUse C s bs' live extra := by
  have hruns : (runs bs extra).Perm (runs bs' extra) := runs_perm hperm
  have hpages := hruns.flatMap_right runPages
  refine ⟨fun b hb => hi.ok b (hperm.mem_iff.mpr hb),
    lists_perm hperm hi.lists, (hperm.map _).nodup_iff.mp hi.addrs,
    hpages.nodup_iff.mp hi.pages,
    fun q hq => hi.inUse q (hpages.mem_iff.mpr hq), ?_,
    hi.log.trans (hruns.append_left _),
    fun hC q hq => hpages.mem_iff.mp (hi.clean hC q hq)⟩
  exact ((hperm.flatMap_right _).symm.trans hi.accounts).trans
    ((hperm.flatMap_right _).append_left _)

/-- A slab of the list, in front. -/
theorem exists_perm_cons {b : Slab} (hb : b ∈ bs) :
    ∃ rest, bs.Perm (b :: rest) := by
  obtain ⟨l, r, rfl⟩ := List.append_of_mem hb
  exact ⟨l ++ r, List.perm_middle⟩

theorem Inv.mem_pages (_ : Inv inUse C s bs live extra) {b : Slab}
    (hb : b ∈ bs) {q : Nat} (hq : q ∈ b.pages) :
    q ∈ (runs bs extra).flatMap runPages :=
  List.mem_flatMap.mpr ⟨b.block,
    List.mem_append_right _ (List.mem_map_of_mem hb), hq⟩

theorem Inv.pages_apart (hi : Inv inUse C s bs live extra) {b c : Slab}
    (hb : b ∈ bs) (hc : c ∈ bs) (hne : b ≠ c) : b.pages.Disjoint c.pages := by
  have hpair := (List.nodup_flatMap.mp hi.pages).2
  rw [runs, List.pairwise_append] at hpair
  have hmap : bs.Pairwise fun b c => b.pages.Disjoint c.pages :=
    (List.pairwise_map (f := Slab.block)).mp hpair.2.1
  have hsymm : Std.Symm fun b c : Slab => b.pages.Disjoint c.pages :=
    ⟨fun _ _ h _ hb hc => h hc hb⟩
  exact hmap.forall hb hc hne

theorem Inv.slab_unique (hi : Inv inUse C s bs live extra) {b c : Slab}
    (hb : b ∈ bs) (hc : c ∈ bs) {q : Nat} (hqb : q ∈ b.pages)
    (hqc : q ∈ c.pages) : b = c := by
  by_contra hne
  exact hi.pages_apart hb hc hne hqb hqc

/-- No two objects in use share an address. -/
theorem Inv.objs_nodup (hi : Inv inUse C s bs live extra) :
    ((bs.flatMap Slab.objs).map Prod.snd).Nodup := by
  rw [List.map_flatMap]
  refine List.nodup_flatMap.mpr ⟨fun b hb => ?_, ?_⟩
  · have hc := (hi.ok b hb).cache
    rw [Slab.objs, List.map_map]
    refine b.nodup_used.map_on ?_
    exact fun k _ k' _ heq => Slab.objAddr_inj hc heq
  · have hpair := (List.nodup_flatMap.mp hi.pages).2
    rw [runs, List.pairwise_append] at hpair
    refine (List.pairwise_map.mp hpair.2.1).imp_of_mem ?_
    intro b c hb hc hd a ha ha'
    obtain ⟨o, ho, rfl⟩ := List.mem_map.mp ha
    obtain ⟨o', ho', heq⟩ := List.mem_map.mp ha'
    obtain ⟨k, hk, -, rfl⟩ := Slab.mem_objs.mp ho
    obtain ⟨k', hk', -, rfl⟩ := Slab.mem_objs.mp ho'
    have h1 := Slab.page_obj (hi.ok b hb).cache hk
    have h2 := Slab.page_obj (hi.ok c hc).cache hk'
    dsimp only at heq
    rw [heq] at h2
    exact hd h1 h2

/-- An object that is live or a control block is an object in use. -/
theorem Inv.mem_obj (hi : Inv inUse C s bs live extra) {o : Nat × Nat}
    (ho : o ∈ live ++ bs.flatMap Slab.control) :
    ∃ b ∈ bs, ∃ k, k < b.cachep.num ∧ k ∉ b.free ∧
      o = (b.cache, b.objAddr k) := by
  obtain ⟨b, hb, hob⟩ := List.mem_flatMap.mp (hi.accounts.mem_iff.mpr ho)
  obtain ⟨k, hk⟩ := Slab.mem_objs.mp hob
  exact ⟨b, hb, k, hk⟩

theorem Slab.mem_control {b : Slab} (hoff : b.cachep.offSlab = true) :
    (b.cachep.slabCachep, b.addr) ∈ b.control := by
  rw [control, if_pos hoff]
  exact List.mem_cons_self

/-- A control block lies in the pages of some slab. -/
theorem Inv.addr_page (hi : Inv inUse C s bs live extra) {b : Slab}
    (hb : b ∈ bs) : ∃ c ∈ bs, kva2page b.addr ∈ c.pages := by
  cases hoff : b.cachep.offSlab with
  | false =>
      refine ⟨b, hb, ?_⟩
      rw [(hi.ok b hb).addr hoff, kva2page, page2kva, Nat.add_sub_cancel_left,
        Nat.mul_div_cancel _ (by decide), Slab.mem_pages]
      have := b.count_pos
      omega
  | true =>
      obtain ⟨c, hc, k, hk, -, heq⟩ := hi.mem_obj (List.mem_append_right _
        (List.mem_flatMap.mpr ⟨b, hb, Slab.mem_control hoff⟩))
      refine ⟨c, hc, ?_⟩
      have haddr : b.addr = c.objAddr k := congrArg Prod.snd heq
      rw [haddr]
      exact Slab.page_obj (hi.ok c hc).cache hk

/-- A live object is the control block of no slab. -/
theorem Inv.live_not_addr {j a : Nat}
    (hi : Inv inUse C s bs ((j, a) :: live) extra) {b : Slab} (hb : b ∈ bs) :
    b.addr ≠ a := by
  rintro rfl
  cases hoff : b.cachep.offSlab with
  | false =>
      obtain ⟨c, hc, k, hk, -, heq⟩ := hi.mem_obj
        (List.mem_append_left _ (List.mem_cons_self (a := (j, b.addr))))
      have haddr : b.addr = c.objAddr k := congrArg Prod.snd heq
      have hkva := (hi.ok b hb).addr hoff
      have hpage := Slab.page_obj (hi.ok c hc).cache hk
      have hown : kva2page (c.objAddr k) ∈ b.pages := by
        rw [← haddr, hkva, kva2page, page2kva, Nat.add_sub_cancel_left,
          Nat.mul_div_cancel _ (by decide), Slab.mem_pages]
        have := b.count_pos
        omega
      obtain rfl := hi.slab_unique hb hc hown hpage
      have hmgmt := (Slab.holds_mgmt (hi.ok b hb).cache hoff).2 k
      rw [← haddr, hkva] at hmgmt
      have hpos : 0 < sizeofSlab := by decide
      omega
  | true =>
      have hn := hi.objs_nodup
      rw [(hi.accounts.map Prod.snd).nodup_iff, List.cons_append,
        List.map_cons, List.nodup_cons] at hn
      apply hn.1
      rw [List.map_append]
      refine List.mem_append_right _ (List.mem_map.mpr
        ⟨_, List.mem_flatMap.mpr ⟨b, hb, Slab.mem_control hoff⟩, rfl⟩)

/-- Records, links and flags that a write spares. -/
theorem SlabOk.congr {s' : State σ} {b : Slab} (h : SlabOk s b)
    (hslab : s'.slab b.addr = s.slab b.addr)
    (hlink : ∀ q ∈ b.pages, s'.pageLink q = s.pageLink q)
    (hflag : ∀ q ∈ b.pages, s'.pgSlab q = s.pgSlab q) : SlabOk s' b := by
  refine ⟨h.cache, h.free, ?_, ?_, ?_, ?_, h.addr, fun q hq => ?_,
    fun q hq => ?_, h.bound⟩
  · rw [hslab, h.sMem]
  · rw [hslab, h.offset]
  · rw [hslab, h.inuse]
  · rw [hslab]
    exact h.chain
  · rw [hlink q hq, h.link q hq]
  · rw [hflag q hq, h.flag q hq]

/-- A slab whose free objects change, with its record. -/
theorem Inv.setFree {b : Slab} {fr : List Nat} {t : SlabT}
    {link : LinkMem Addr} {live' : List (Nat × Nat)}
    (hi : Inv inUse C s (b :: bs) live extra)
    (hfree : Slab.FreeOk { b with free := fr })
    (hsMem : t.sMem = (s.slab b.addr).sMem)
    (hoffset : t.offset = (s.slab b.addr).offset)
    (hinuse : t.inuse = (Slab.used { b with free := fr }).length)
    (hchain : Chain t.bufctl t.free fr)
    (hlists : Lists link ({ b with free := fr } :: bs))
    (hacc : (Slab.objs { b with free := fr } ++ bs.flatMap Slab.objs).Perm
      (live' ++ (b :: bs).flatMap Slab.control)) :
    Inv inUse C { s with
        slab := Function.update s.slab b.addr t
        link := link } ({ b with free := fr } :: bs) live' extra := by
  have hb := hi.ok b List.mem_cons_self
  have hnew := (List.nodup_cons.mp hi.addrs).1
  refine ⟨fun c hc => ?_, hlists, hi.addrs, hi.pages, hi.inUse, hacc, hi.log,
    hi.clean⟩
  rcases List.mem_cons.mp hc with rfl | hc
  · have hrec : Function.update s.slab b.addr t b.addr = t :=
      Function.update_self _ _ _
    refine ⟨hb.cache, hfree, ?_, ?_, ?_, ?_, hb.addr, hb.link, hb.flag,
      hb.bound⟩
    · exact (congrArg SlabT.sMem hrec).trans (hsMem.trans hb.sMem)
    · exact (congrArg SlabT.offset hrec).trans (hoffset.trans hb.offset)
    · exact (congrArg SlabT.inuse hrec).trans hinuse
    · dsimp only
      rw [hrec]
      exact hchain
  · refine (hi.ok c (List.mem_cons_of_mem _ hc)).congr ?_ (fun _ _ => rfl)
      fun _ _ => rfl
    refine Function.update_of_ne ?_ _ _
    intro heq
    exact hnew (heq ▸ List.mem_map_of_mem hc)

end

end SharixSlab
