import Sharix.SlabRunProofs
import Mathlib.Algebra.GroupWithZero.Nat

/-! # `slab_allocated`

    The function adds up the lists: a full slab counts all its objects, one
    that is not full counts `inuse`.  With every slab on its list and every
    count right this is the size of the objects in use: the live ones and the
    control blocks.  Their pages bound it, so the 32 bits do not overflow. -/

namespace SharixSlab

open SharixList

variable {σ : Type} {A : PageAllocator σ} {inUse : σ → Nat → Prop} {C : Prop}
  {s : State σ} {bs : List Slab} {live extra : List (Nat × Nat)}

/-! ## The loops -/

/-- A loop over a list from any entry on. -/
theorem sumList_chain {list : Addr} {count : Nat → Nat} {objsize : Nat}
    {xs : List Nat} :
    ∀ {fuel total : Nat} {le : Addr}, le ≠ NULL → list ≠ NULL →
      list ∉ xs.map Addr.slabLink →
      List.IsChain (Link s.link) (le :: (xs.map Addr.slabLink ++ [list])) →
      xs.length < fuel →
      total + (xs.map fun a => count a * objsize).sum < 2 ^ 32 →
      sumList s list count objsize fuel le total
        = some (total + (xs.map fun a => count a * objsize).sum) := by
  induction xs with
  | nil =>
      intro fuel total le hle hlist _ hch hfuel hsum
      obtain ⟨n, rfl⟩ : ∃ n, fuel = n + 1 := ⟨fuel - 1, by
        rw [List.length_nil] at hfuel
        omega⟩
      have hnext : listNext s.link le = some list := by
        rw [listNext, if_neg hle, (List.isChain_cons_cons.mp hch).1.1]
      rw [sumList, hnext, Option.bind_some, if_pos rfl]
      rfl
  | cons a xs ih =>
      intro fuel total le hle hlist hout hch hfuel hsum
      obtain ⟨n, rfl⟩ : ∃ n, fuel = n + 1 := ⟨fuel - 1, by
        rw [List.length_cons] at hfuel
        omega⟩
      have hnext : listNext s.link le = some (.slabLink a) := by
        rw [listNext, if_neg hle, (List.isChain_cons_cons.mp hch).1.1]
      rw [List.map_cons, List.mem_cons, not_or] at hout
      rw [List.map_cons, List.sum_cons, ← Nat.add_assoc] at hsum ⊢
      have hmod : (total + count a * objsize) % 2 ^ 32
          = total + count a * objsize :=
        Nat.mod_eq_of_lt (by omega)
      rw [sumList, hnext, Option.bind_some, if_neg (Ne.symm hout.1), le2slab,
        Option.bind_some, hmod]
      exact ih (fun h => by cases h) hlist hout.2
        (List.isChain_cons_cons.mp hch).2 (Nat.lt_of_succ_lt_succ hfuel) hsum

theorem sumList_ring {list : Addr} {count : Nat → Nat} {objsize : Nat}
    {xs : List Nat} {fuel total : Nat}
    (hr : Ring s.link list (xs.map Addr.slabLink)) (hfuel : xs.length < fuel)
    (hsum : total + (xs.map fun a => count a * objsize).sum < 2 ^ 32) :
    sumList s list count objsize fuel list total
      = some (total + (xs.map fun a => count a * objsize).sum) :=
  sumList_chain hr.head_ne_null hr.head_ne_null hr.head_notMem hr.linked hfuel
    hsum

/-! ## Sums over slabs -/

/-- The bytes of the objects in use of a slab. -/
def Slab.inUseBytes (b : Slab) : Nat := b.used.length * b.cachep.objsize

/-- The same over the slabs with a property. -/
def bytesOf (bs : List Slab) (P : Slab → Bool) : Nat :=
  ((bs.filter P).map Slab.inUseBytes).sum

theorem bytesOf_split {P Q R : Slab → Bool}
    (h : ∀ b ∈ bs, P b = (Q b || R b) ∧ (Q b && R b) = false) :
    bytesOf bs P = bytesOf bs Q + bytesOf bs R := by
  induction bs with
  | nil => rfl
  | cons b bs ih =>
      obtain ⟨hor, hand⟩ := h b List.mem_cons_self
      have hrest := ih fun c hc => h c (List.mem_cons_of_mem _ hc)
      rw [bytesOf, bytesOf, bytesOf] at hrest ⊢
      rw [List.filter_cons, List.filter_cons, List.filter_cons, hor]
      cases hQ : Q b <;> cases hR : R b <;> simp [hQ, hR] at hand ⊢ <;> omega

/-- One list of one cache. -/
theorem sumList_bytes (hi : Inv inUse C s bs live extra) {j : Nat × Bool}
    (hj : j.1 < SLAB_CACHE_NUM) {count : Nat → Nat}
    (hcount : ∀ b ∈ bs, b.list = j → count b.addr = b.used.length)
    {fuel total : Nat} (hfuel : bs.length < fuel)
    (hsum : total + bytesOf bs (fun b => b.list = j) < 2 ^ 32) :
    sumList s (head j) count (slabCache j.1).objsize fuel (head j) total
      = some (total + bytesOf bs fun b => b.list = j) := by
  obtain ⟨L, hR, hmem⟩ := hi.lists
  have hring := hR.ring j hj
  have hnodup : (L j).Nodup :=
    List.Nodup.of_map _ (List.nodup_cons.mp hring.nodup).2
  have hperm : (L j).Perm ((bs.filter fun b => b.list = j).map Slab.addr) := by
    refine (List.perm_ext_iff_of_nodup hnodup ?_).mpr fun a => ?_
    · exact hi.addrs.sublist (List.filter_sublist.map _)
    · rw [hmem j hj, List.mem_map]
      constructor
      · rintro ⟨b, hb, hlist, haddr⟩
        exact ⟨b, List.mem_filter.mpr ⟨hb, decide_eq_true hlist⟩, haddr⟩
      · rintro ⟨b, hb, haddr⟩
        obtain ⟨hb, hlist⟩ := List.mem_filter.mp hb
        exact ⟨b, hb, of_decide_eq_true hlist, haddr⟩
  have hbytes : ((L j).map fun a => count a * (slabCache j.1).objsize).sum
      = bytesOf bs fun b => b.list = j := by
    rw [(hperm.map _).sum_nat, List.map_map, bytesOf]
    refine congrArg List.sum (List.map_congr_left fun b hb => ?_)
    obtain ⟨hb, hlist⟩ := List.mem_filter.mp hb
    have hlist := of_decide_eq_true hlist
    have hcache : b.cache = j.1 := congrArg Prod.fst hlist
    rw [Function.comp, hcount b hb hlist, Slab.inUseBytes, Slab.cachep, hcache]
  have hlen : (L j).length ≤ bs.length := by
    rw [hperm.length_eq, List.length_map]
    exact List.length_filter_le _ _
  rw [← hbytes] at hsum ⊢
  exact sumList_ring hring (Nat.lt_of_le_of_lt hlen hfuel) hsum

/-- The caches from `i` on. -/
theorem sumCaches_bytes (hi : Inv inUse C s bs live extra) {fuel : Nat}
    (hfuel : bs.length < fuel) {n : Nat} :
    ∀ {i total : Nat}, i + n = SLAB_CACHE_NUM →
      total + bytesOf bs (fun b => i ≤ b.cache) < 2 ^ 32 →
      sumCaches fuel s n i total
        = some (total + bytesOf bs fun b => i ≤ b.cache) := by
  induction n with
  | zero =>
      intro i total hin _
      have hnone : bytesOf bs (fun b => i ≤ b.cache) = 0 := by
        have hnil : bs.filter (fun b => i ≤ b.cache) = [] := by
          refine List.filter_eq_nil_iff.mpr fun b hb hle => ?_
          have hlt := (hi.ok b hb).cache
          have hle := of_decide_eq_true hle
          omega
        rw [bytesOf, hnil]
        rfl
      rw [sumCaches, hnone]
      rfl
  | succ n ih =>
      intro i total hin hsum
      have hcache : bytesOf bs (fun b => i ≤ b.cache)
          = bytesOf bs (fun b => b.cache = i)
            + bytesOf bs (fun b => i + 1 ≤ b.cache) := by
        refine bytesOf_split fun b _ => ⟨?_, ?_⟩
        · rw [← Bool.decide_or, decide_eq_decide]
          omega
        · rw [← Bool.decide_and, decide_eq_false_iff_not]
          omega
      have hlists : bytesOf bs (fun b => b.cache = i)
          = bytesOf bs (fun b => b.list = (i, true))
            + bytesOf bs (fun b => b.list = (i, false)) := by
        refine bytesOf_split fun b _ => ?_
        rw [Slab.list]
        cases b.free.isEmpty <;> simp
      have hc : i < SLAB_CACHE_NUM := by omega
      rw [hcache, hlists] at hsum ⊢
      have hfull : sumList s (.slabsFull i) (fun _ => (slabCache i).num)
          (slabCache i).objsize fuel (.slabsFull i) total
          = some (total + bytesOf bs fun b => b.list = (i, true)) := by
        refine sumList_bytes hi (j := (i, true)) hc ?_ hfuel (by omega)
        intro b hb hlist
        obtain ⟨hcache, hfull⟩ := (hi.list_iff hb i).1.mp hlist
        rw [← (hi.ok b hb).inuse, hfull, Slab.cachep, hcache]
      have hnotfull : sumList s (.slabsNotfull i)
          (fun slabp => (s.slab slabp).inuse) (slabCache i).objsize fuel
          (.slabsNotfull i) (total + bytesOf bs fun b => b.list = (i, true))
          = some (total + bytesOf bs (fun b => b.list = (i, true))
            + bytesOf bs fun b => b.list = (i, false)) :=
        sumList_bytes hi (j := (i, false)) hc
          (fun b hb _ => (hi.ok b hb).inuse) hfuel (by omega)
      rw [sumCaches, hfull, Option.bind_some, hnotfull, Option.bind_some,
        ih (by omega) (by omega)]
      congr 1
      omega

/-! ## The objects in use -/

def objsizes (objs : List (Nat × Nat)) : List Nat :=
  objs.map fun o => (slabCache o.1).objsize

theorem sum_objsizes (bs : List Slab) :
    (objsizes (bs.flatMap Slab.objs)).sum = (bs.map Slab.inUseBytes).sum := by
  induction bs with
  | nil => rfl
  | cons b bs ih =>
      have hb : (objsizes b.objs).sum = b.inUseBytes := by
        have hconst : (objsizes b.objs)
            = List.replicate b.used.length b.cachep.objsize := by
          rw [objsizes, Slab.objs, List.map_map]
          exact List.map_const' (l := b.used) (b := b.cachep.objsize)
        rw [hconst, List.sum_replicate_nat, Slab.inUseBytes]
      rw [List.flatMap_cons, objsizes, List.map_append, List.sum_append,
        List.map_cons, List.sum_cons]
      rw [objsizes] at hb ih
      rw [hb, ih]

/-- The objects lie in pages, and there are not so many. -/
theorem Inv.bytes_lt (hi : Inv inUse C s bs live []) :
    (bs.map Slab.inUseBytes).sum < 2 ^ 32 := by
  have hfit : ∀ l : List Slab, (∀ b ∈ l, SlabOk s b) →
      (l.map Slab.inUseBytes).sum
        ≤ ((l.map Slab.block).flatMap runPages).length * PGSIZE := by
    intro l
    induction l with
    | nil => exact fun _ => Nat.zero_le _
    | cons b l ih =>
        intro hok
        have hb := hok b List.mem_cons_self
        have hrest := ih fun c hc => hok c (List.mem_cons_of_mem _ hc)
        have hfits := (Slab.cachep_ok hb.cache).fits
        have hused : b.used.length ≤ b.cachep.num := by
          have := Slab.length_used hb.free
          omega
        have hbytes : b.inUseBytes ≤ b.cachep.num * b.cachep.objsize :=
          Nat.mul_le_mul_right _ hused
        have hcount : (1 <<< b.cachep.pageOrder) = b.count := rfl
        rw [hcount] at hfits
        rw [List.map_cons, List.sum_cons, List.map_cons, List.flatMap_cons,
          List.length_append, runPages, List.length_range', Slab.block,
          Nat.add_mul]
        dsimp only
        omega
  have hpages := hi.pages
  rw [runs, List.nil_append] at hpages
  have hsub : (bs.map Slab.block).flatMap runPages
      ⊆ List.range (KMEMSIZE / PGSIZE) := by
    intro q hq
    obtain ⟨r, hr, hqr⟩ := List.mem_flatMap.mp hq
    obtain ⟨b, hb, rfl⟩ := List.mem_map.mp hr
    have hlt := (mem_runPages.mp hqr).2
    have hbound := (hi.ok b hb).bound
    refine List.mem_range.mpr ((Nat.lt_div_iff_mul_lt (by decide)).mpr ?_)
    have hmul := Nat.mul_le_mul_right PGSIZE hlt
    have hblock : b.block.1 + b.block.2 = b.page + b.count := rfl
    rw [hblock, Nat.succ_mul] at hmul
    have hpos : 0 < PGSIZE := by decide
    omega
  have hlen := List.Nodup.length_le_of_subset hpages hsub
  rw [List.length_range] at hlen
  have htotal := Nat.mul_le_mul_right PGSIZE hlen
  have hbytes := hfit bs hi.ok
  have hmem : KMEMSIZE / PGSIZE * PGSIZE < 2 ^ 32 := by decide
  omega

/-- **THE SUM IS RIGHT**: in every state of every run `slab_allocated` is the
    size of the live objects and of the control blocks that are objects, each
    counted with the object size of its cache. -/
theorem slab_allocated_eq (hA : Correct A inUse) {s : State σ}
    (hobt : s.obtained = []) (hret : s.returned = []) :
    ∃ s₀, slabInit s = some s₀ ∧
      ∀ w, Relation.ReflTransGen (Step A inUse) ⟨s₀, []⟩ w →
        ∃ bs, Placed w bs ∧ ∀ fuel, bs.length < fuel →
          slabAllocated fuel w.state = some ((objsizes (tagged w.live)).sum
            + (objsizes (bs.flatMap Slab.control)).sum) := by
  obtain ⟨s₀, hinit, hall⟩ := slabInit_run hA hobt hret
  refine ⟨s₀, hinit, fun w hrun => ?_⟩
  obtain ⟨bs, hi, -⟩ := hall w hrun
  refine ⟨bs, hi.placed, fun fuel hfuel => ?_⟩
  have hevery : bytesOf bs (fun b => 0 ≤ b.cache)
      = (bs.map Slab.inUseBytes).sum := by
    rw [bytesOf, List.filter_eq_self.mpr fun b _ =>
      decide_eq_true (Nat.zero_le b.cache)]
  have hsum : (objsizes (bs.flatMap Slab.objs)).sum
      = (objsizes (tagged w.live)).sum
        + (objsizes (bs.flatMap Slab.control)).sum := by
    rw [objsizes, (hi.accounts.map _).sum_nat, List.map_append,
      List.sum_append]
    rfl
  have hlt : 0 + bytesOf bs (fun b => 0 ≤ b.cache) < 2 ^ 32 := by
    rw [Nat.zero_add, hevery]
    exact hi.bytes_lt
  have hcaches := sumCaches_bytes hi hfuel (Nat.zero_add _) hlt
  rw [slabAllocated, hcaches, Nat.zero_add, hevery, ← sum_objsizes, hsum]

/-- An object of 1024 bytes, and one of 64 for the control block. -/
theorem slab_allocated_eq_demo :
    ∃ bs, Placed ⟨(demoCall 8).2, [(0xC0000000, 1000)]⟩ bs ∧
      ∀ fuel, bs.length < fuel → slabAllocated fuel (demoCall 8).2 = some (1024
        + (objsizes (bs.flatMap Slab.control)).sum) := by
  obtain ⟨s₀, hinit, hall⟩ :=
    slab_allocated_eq demoPages_eight (s := demoStart) rfl rfl
  obtain rfl := Option.some.inj (demoInit_eq.symm.trans hinit)
  obtain ⟨bs, hplaced, hsum⟩ := hall _ (.single (.kmalloc demo_kmalloc))
  have hlive : (objsizes (tagged [(0xC0000000, 1000)])).sum = 1024 := by
    decide +kernel
  dsimp only at hsum
  rw [hlive] at hsum
  exact ⟨bs, hplaced, hsum⟩

end SharixSlab
