import Sharix.SlabInvProofs
import Sharix.SlabAllocProofs

/-! # `kmem_cache_free`

    The page of an object leads to its slab and the slab to its cache, so the
    object goes back to where it came from.  A slab without objects in use is
    destroyed: its pages go back, and with them or after them its control
    block. -/

namespace SharixSlab

open SharixList

variable {σ : Type} {A : PageAllocator σ} {inUse : σ → Nat → Prop} {C : Prop}
  {s : State σ} {bs : List Slab} {live extra : List (Nat × Nat)}

/-- The slab and the index of a live object. -/
theorem Inv.live_obj {i p : Nat} (hi : Inv inUse C s bs ((i, p) :: live) extra) :
    ∃ b ∈ bs, ∃ k, k < b.cachep.num ∧ k ∉ b.free ∧ b.cache = i ∧
      b.objAddr k = p := by
  obtain ⟨b, hb, k, hk, hused, heq⟩ := hi.mem_obj
    (List.mem_append_left _ List.mem_cons_self)
  exact ⟨b, hb, k, hk, hused, (congrArg Prod.fst heq).symm,
    (congrArg Prod.snd heq).symm⟩

/-- What `kmem_cache_free` reads from the page of an object. -/
theorem SlabOk.page_link {b : Slab} (h : SlabOk s b) {k : Nat}
    (hk : k < b.cachep.num) :
    s.pageLink (kva2page (b.objAddr k)) = ⟨b.cache, b.addr⟩ :=
  h.link _ (Slab.page_obj h.cache hk)

/-! ## `kmem_slab_destroy` -/

/-- The loop of `kmem_slab_destroy` over the pages. -/
theorem clearPages_eq (n : Nat) : ∀ (page : Nat) (s : State σ),
    clearPages n page s = { s with
      pgSlab := fun q => if page ≤ q ∧ q < page + n then !s.pgSlab q
        else s.pgSlab q } := by
  induction n with
  | zero =>
      intro page s
      have hno : ∀ q, ¬ (page ≤ q ∧ q < page + 0) := fun q h => by omega
      simp only [clearPages, hno, if_false]
  | succ n ih =>
      intro page s
      rw [clearPages, ih]
      simp only [clearPageSlab, Function.update_apply]
      congr 1
      funext q
      by_cases h1 : q = page
      · subst h1
        rw [if_neg (by omega), if_pos rfl, if_pos (by omega)]
      · rw [if_neg h1]
        by_cases h2 : page + 1 ≤ q ∧ q < page + 1 + n
        · rw [if_pos h2, if_pos (by omega)]
        · rw [if_neg h2, if_neg (by omega)]

/-- `btcl` complements the flags; those of a slab are set. -/
theorem clearPages_inv {page n : Nat}
    (hi : Inv inUse C s bs live ((page, n) :: extra))
    (hset : ∀ q ∈ runPages (page, n), s.pgSlab q = true) :
    Inv inUse C (clearPages n page s) bs live ((page, n) :: extra) ∧
      ∀ q ∈ runPages (page, n), (clearPages n page s).pgSlab q = false := by
  have hpages := hi.pages
  rw [runs, List.cons_append, List.flatMap_cons, List.nodup_append'] at hpages
  rw [clearPages_eq]
  refine ⟨⟨fun b hb => ?_, hi.lists, hi.addrs, hi.pages, hi.inUse, hi.accounts,
    hi.log, fun hC q hq => ?_⟩, fun q hq => ?_⟩
  · refine (hi.ok b hb).congr rfl (fun _ _ => rfl) fun q hq => ?_
    refine if_neg fun hr => ?_
    exact hpages.2.2 (mem_runPages.mpr hr) (List.mem_flatMap.mpr
      ⟨b.block, List.mem_append_right _ (List.mem_map_of_mem hb), hq⟩)
  · dsimp only at hq
    by_cases hr : page ≤ q ∧ q < page + n
    · rw [runs, List.cons_append, List.flatMap_cons]
      exact List.mem_append_left _ (mem_runPages.mpr hr)
    · rw [if_neg hr] at hq
      exact hi.clean hC q hq
  · dsimp only
    rw [if_pos (mem_runPages.mp hq), hset q hq]
    rfl

/-- A slab without objects in use, off its list: what is left are its pages
    and its control block. -/
theorem Inv.drop {b : Slab} {t : SlabT} {link : LinkMem Addr}
    {live' : List (Nat × Nat)} (hi : Inv inUse C s (b :: bs) live extra)
    (hlists : Lists link bs)
    (hacc : (bs.flatMap Slab.objs).Perm
      (live' ++ (b :: bs).flatMap Slab.control)) :
    Inv inUse C { s with
        slab := Function.update s.slab b.addr t
        link := link } bs (b.control ++ live') (b.block :: extra) := by
  have hnew := (List.nodup_cons.mp hi.addrs).1
  have hruns : (runs bs (b.block :: extra)).Perm (runs (b :: bs) extra) := by
    rw [runs, runs, List.map_cons]
    exact List.perm_middle.symm
  have hpages := hruns.flatMap_right runPages
  refine ⟨fun c hc => ?_, hlists, (List.nodup_cons.mp hi.addrs).2,
    hpages.nodup_iff.mpr hi.pages,
    fun q hq => hi.inUse q (hpages.mem_iff.mp hq), ?_,
    hi.log.trans (hruns.symm.append_left _),
    fun hC q hq => hpages.mem_iff.mpr (hi.clean hC q hq)⟩
  · refine (hi.ok c (List.mem_cons_of_mem _ hc)).congr ?_ (fun _ _ => rfl)
      fun _ _ => rfl
    refine Function.update_of_ne ?_ _ _
    intro heq
    exact hnew (heq ▸ List.mem_map_of_mem hc)
  · refine hacc.trans ?_
    rw [List.flatMap_cons, ← List.append_assoc]
    exact List.perm_append_comm.append_right _

/-- What a call of `kmem_cache_free` comes to. -/
def FreeEnd (inUse : σ → Nat → Prop) (C : Prop)
    (live extra : List (Nat × Nat)) (r : Option (State σ)) : Prop :=
  ∃ s' bs', r = some s' ∧ Inv inUse C s' bs' live extra ∧ Busy bs'

section
variable {free : Nat → Nat → State σ → Option (State σ)}

theorem kmemSlabDestroy_spec (hA : Correct A inUse) {b : Slab}
    (hi : Inv inUse C s bs (b.control ++ live) (b.block :: extra))
    (hbusy : Busy bs)
    (hpage : (s.slab b.addr).sMem - (s.slab b.addr).offset = page2kva b.page)
    (hset : ∀ q ∈ b.pages, s.pgSlab q = true)
    (hfree : b.cachep.offSlab = true → ∀ s',
      Inv inUse C s' bs ((b.cachep.slabCachep, b.addr) :: live) extra →
      FreeEnd inUse C live extra (free b.cachep.slabCachep b.addr s')) :
    FreeEnd inUse C live extra (kmemSlabDestroy A free b.cache b.addr s) := by
  have hkva : kva2page (page2kva b.page) = b.page := by
    rw [kva2page, page2kva, Nat.add_sub_cancel_left,
      Nat.mul_div_cancel _ (by decide)]
  obtain ⟨hi₁, hclear⟩ := clearPages_inv hi hset
  obtain ⟨hi₂, -⟩ := freePages_inv hA hi₁ fun _ => hclear
  rw [kmemSlabDestroy, hpage, hkva]
  cases hoff : b.cachep.offSlab with
  | false =>
      rw [Slab.control, hoff] at hi₂
      exact ⟨_, bs, if_neg Bool.false_ne_true, hi₂, hbusy⟩
  | true =>
      rw [Slab.control, hoff] at hi₂
      have hend := hfree hoff _ hi₂
      rw [if_pos rfl]
      exact hend

/-! ## `kmem_cache_free_one` -/

/-- The object goes back to the head of the chain. -/
theorem kmemCacheFreeOne_spec (hA : Correct A inUse) {b : Slab} {k : Nat}
    (hi : Inv inUse C s (b :: bs) ((b.cache, b.objAddr k) :: live) extra)
    (hbusy : Busy bs) (hk : k < b.cachep.num) (hused : k ∉ b.free)
    (hfree : b.cachep.offSlab = true → ∀ s',
      Inv inUse C s' bs ((b.cachep.slabCachep, b.addr) :: live) extra →
      FreeEnd inUse C live extra (free b.cachep.slabCachep b.addr s')) :
    FreeEnd inUse C live extra
      (kmemCacheFreeOne A free b.cache b.addr (b.objAddr k) s) := by
  have hok := hi.ok b List.mem_cons_self
  have hc := hok.cache
  have hnew := (List.nodup_cons.mp hi.addrs).1
  have hsub : Slab.FreeOk { b with free := k :: b.free } := hok.free.push hk hused
  have hperm : b.used.Perm (k :: Slab.used { b with free := k :: b.free }) :=
    Slab.used_cons hsub rfl rfl
  have hlen := hperm.length_eq
  rw [List.length_cons] at hlen
  have hacc : (Slab.objs { b with free := k :: b.free } ++
      bs.flatMap Slab.objs).Perm
      (live ++ (b :: bs).flatMap Slab.control) := by
    have hobjs : b.objs.Perm ((b.cache, b.objAddr k)
        :: Slab.objs { b with free := k :: b.free }) :=
      @Slab.objs_cons { b with free := k :: b.free } b k hsub rfl rfl rfl
    exact ((hobjs.append_right _).symm.trans hi.accounts).cons_inv
  have hchain : Chain (Function.update (s.slab b.addr).bufctl k
      (s.slab b.addr).free) k (k :: b.free) := chain_push hused hok.chain
  have hinuse : (s.slab b.addr).inuse - 1
      = (Slab.used { b with free := k :: b.free }).length := by
    rw [hok.inuse, hlen, Nat.add_sub_cancel]
  have hindex : (b.objAddr k - (s.slab b.addr).sMem)
      / (slabCache b.cache).objsize = k := by
    rw [hok.sMem]
    exact Slab.objAddr_index hc k
  have hset : ∀ {link}, Lists link ({ b with free := k :: b.free } :: bs) →
      Inv inUse C { s with
        slab := Function.update s.slab b.addr { s.slab b.addr with
          bufctl := Function.update (s.slab b.addr).bufctl k
            (s.slab b.addr).free
          free := k
          inuse := (s.slab b.addr).inuse - 1 }
        link := link } ({ b with free := k :: b.free } :: bs) live extra :=
    fun hlists => hi.setFree hsub rfl rfl hinuse hchain hlists hacc
  rw [kmemCacheFreeOne]
  simp only [Function.update_self, hindex]
  by_cases hzero : (s.slab b.addr).inuse - 1 = 0
  · -- the last one in use: the slab is destroyed
    have hnil : Slab.used { b with free := k :: b.free } = [] := by
      rw [hinuse] at hzero
      exact List.eq_nil_of_length_eq_zero hzero
    have hobjs : Slab.objs { b with free := k :: b.free } = [] := by
      rw [Slab.objs, hnil]
      rfl
    rw [hobjs, List.nil_append] at hacc
    obtain ⟨m, hdel, hlists⟩ := lists_remove hi.lists hc hnew
    rw [if_pos hzero, hdel, Option.bind_some]
    refine kmemSlabDestroy_spec hA (hi.drop hlists hacc) hbusy ?_ hok.flag hfree
    simp only [Function.update_self]
    rw [hok.sMem, hok.offset, Nat.add_sub_cancel]
  · have hne : Slab.used { b with free := k :: b.free } ≠ [] := by
      intro hnil
      rw [hnil] at hinuse
      exact hzero hinuse
    have hbusy' : Busy ({ b with free := k :: b.free } :: bs) := by
      intro c hcm
      rcases List.mem_cons.mp hcm with rfl | hcm
      · exact hne
      · exact hbusy c hcm
    have hsum := Slab.length_used hsub
    rw [← hinuse, List.length_cons] at hsum
    rw [if_neg hzero]
    by_cases hfull : (s.slab b.addr).inuse - 1 = (slabCache b.cache).num - 1
    · -- the slab was full
      obtain ⟨m₁, m₂, hdel, hadd, hl₂⟩ := lists_move
        { b with free := k :: b.free } hi.lists hc hnew rfl rfl
      have hadd' : listAdd m₁ (.slabsNotfull b.cache) (.slabLink b.addr)
          = some m₂ := hadd
      rw [if_pos hfull, hdel, Option.bind_some, hadd', Option.map_some]
      exact ⟨_, _, rfl, hset hl₂, hbusy'⟩
    · -- it had free objects before
      rw [if_neg hfull]
      have hsome : b.free ≠ [] := by
        intro hnil
        rw [hnil, List.length_nil] at hsum
        exact hfull (by
          rw [← hsum]
          rfl)
      have hstay : Slab.list { b with free := k :: b.free } = b.list := by
        rw [Slab.list, Slab.list, List.isEmpty_eq_false_iff.mpr hsome]
        rfl
      have hlists : Lists s.link ({ b with free := k :: b.free } :: bs) :=
        lists_change (b := b) rfl hstay hi.lists
      exact ⟨_, _, rfl, hset hlists, hbusy'⟩

end

/-! ## `kmem_cache_free` -/

/-- From the calls for control blocks to the call itself. -/
theorem kmemCacheFree_step (hA : Correct A inUse) {i p : Nat} (fuel : Nat)
    (hi : Inv inUse C s bs ((i, p) :: live) extra) (hbusy : Busy bs)
    (hfree : (slabCache i).offSlab = true → ∀ s' bs' a,
      Inv inUse C s' bs' (((slabCache i).slabCachep, a) :: live) extra →
      Busy bs' → FreeEnd inUse C live extra
        (kmemCacheFree A fuel (slabCache i).slabCachep a s')) :
    FreeEnd inUse C live extra (kmemCacheFree A (fuel + 1) i p s) := by
  obtain ⟨b, hb, k, hk, hused, rfl, rfl⟩ := hi.live_obj
  obtain ⟨rest, hperm⟩ := exists_perm_cons hb
  have hrest : Busy rest := fun c hc =>
    hbusy c (hperm.mem_iff.mpr (List.mem_cons_of_mem _ hc))
  rw [kmemCacheFree, (hi.ok b hb).page_link hk]
  exact kmemCacheFreeOne_spec hA (hi.perm hperm) hrest hk hused
    fun hoff s' hi' => hfree hoff s' rest _ hi' hrest

theorem kmemCacheFree_inSlab (hA : Correct A inUse) {i p : Nat}
    (hoff : (slabCache i).offSlab = false) (fuel : Nat)
    (hi : Inv inUse C s bs ((i, p) :: live) extra) (hbusy : Busy bs) :
    FreeEnd inUse C live extra (kmemCacheFree A (fuel + 1) i p s) :=
  kmemCacheFree_step hA fuel hi hbusy fun h => by
    rw [hoff] at h
    cases h

theorem kmemCacheFree_spec (hA : Correct A inUse) {i p : Nat} (fuel : Nat)
    (hi : Inv inUse C s bs ((i, p) :: live) extra) (hbusy : Busy bs) :
    FreeEnd inUse C live extra (kmemCacheFree A (fuel + 2) i p s) := by
  refine kmemCacheFree_step hA (fuel + 1) hi hbusy ?_
  intro hoff s' bs' a hi' hbusy'
  obtain ⟨b, hb, -, -, -, rfl, -⟩ := hi.live_obj
  obtain ⟨-, -, hin, -⟩ := (slabCache_ok (hi.ok b hb).cache).offSlab hoff
  exact kmemCacheFree_inSlab hA hin fuel hi' hbusy'

/-- `kfree` finds the cache of a live object. -/
theorem kfree_spec (hA : Correct A inUse) {i p : Nat}
    (hi : Inv inUse C s bs ((i, p) :: live) extra) (hbusy : Busy bs) :
    FreeEnd inUse C live extra (kfree A p s) := by
  obtain ⟨b, hb, k, hk, -, rfl, rfl⟩ := hi.live_obj
  rw [kfree, (hi.ok b hb).page_link hk]
  exact kmemCacheFree_spec hA 0 hi hbusy

end SharixSlab
