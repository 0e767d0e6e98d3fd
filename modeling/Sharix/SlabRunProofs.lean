import Sharix.RunProofs
import Sharix.SlabAllocProofs
import Sharix.SlabFreeProofs

/-! # Runs of `kmalloc` and `kfree`

    A world is the state and, as a ghost, the live objects with the sizes
    asked for.  A step is a call, or anything that the rest of the kernel may
    do: use other pages, and write to objects it has and to memory that is not
    the slab layer's.

    From `slab_init` on the slabs hold the live objects and the control
    blocks, each in its own place. -/

namespace SharixSlab

open SharixList SharixRun

variable {σ : Type} {A : PageAllocator σ} {inUse : σ → Nat → Prop} {C : Prop}

/-! ## Steps -/

/-- The state, and address and size of each live object. -/
structure World (σ : Type) where
  state : State σ
  live : List (Nat × Nat)

/-- The runs of pages that were obtained and not returned. -/
def heldRuns (s : State σ) : List (Nat × Nat) := s.obtained.diff s.returned

def heldPages (s : State σ) : List Nat := (heldRuns s).flatMap runPages

/-- What the rest of the kernel leaves alone: pages in use and their
    `page_link`, the lists and the control blocks. -/
structure Elsewhere (inUse : σ → Nat → Prop) (s s' : State σ) : Prop where
  inUse : ∀ q ∈ heldPages s, inUse s.pmm q → inUse s'.pmm q
  pageLink : ∀ q ∈ heldPages s, s'.pageLink q = s.pageLink q
  heads : ∀ j, s'.link (head j) = s.link (head j)
  links : ∀ q ∈ heldPages s, s'.link (.slabLink (s.pageLink q).prev)
    = s.link (.slabLink (s.pageLink q).prev)
  slabs : ∀ q ∈ heldPages s, s'.slab (s.pageLink q).prev
    = s.slab (s.pageLink q).prev
  pgSlab : s'.pgSlab = s.pgSlab
  obtained : s'.obtained = s.obtained
  returned : s'.returned = s.returned

inductive Step (A : PageAllocator σ) (inUse : σ → Nat → Prop) :
    World σ → World σ → Prop where
  | kmallocNull {s s' : State σ} {live : List (Nat × Nat)} {size : Nat} :
      kmalloc A size s = some (none, s') → Step A inUse ⟨s, live⟩ ⟨s', live⟩
  | kmalloc {s s' : State σ} {live : List (Nat × Nat)} {size p : Nat} :
      kmalloc A size s = some (some p, s') →
      Step A inUse ⟨s, live⟩ ⟨s', (p, size) :: live⟩
  | kfree {s s' : State σ} {live : List (Nat × Nat)} {o : Nat × Nat} :
      o ∈ live → kfree A o.1 s = some s' →
      Step A inUse ⟨s, live⟩ ⟨s', live.erase o⟩
  | elsewhere {s s' : State σ} {live : List (Nat × Nat)} :
      Elsewhere inUse s s' → Step A inUse ⟨s, live⟩ ⟨s', live⟩

/-! ## `slab_init` -/

theorem slabInitLists_rings (n : Nat) (m : LinkMem Addr) :
    ∃ m', slabInitLists n m = some m' ∧
      ∀ j : Nat × Bool, j.1 < n → Ring m' (head j) [] := by
  induction n with
  | zero => exact ⟨m, rfl, fun j hj => absurd hj (Nat.not_lt_zero _)⟩
  | succ n ih =>
      obtain ⟨m₀, hm₀, hrings⟩ := ih
      obtain ⟨m₁, hm₁, hfull, hframe₁⟩ := listInit_ring m₀
        (h := Addr.slabsFull n) (fun h => by cases h)
      obtain ⟨m₂, hm₂, hnotfull, hframe₂⟩ := listInit_ring m₁
        (h := Addr.slabsNotfull n) (fun h => by cases h)
      refine ⟨m₂, ?_, ?_⟩
      · rw [slabInitLists, hm₀, Option.bind_some, hm₁, Option.bind_some, hm₂]
      · rintro ⟨i, full⟩ hi
        by_cases hin : i = n
        · subst hin
          cases full with
          | false => exact hnotfull
          | true =>
              refine hfull.frame fun a ha => hframe₂ a ?_
              rw [List.mem_singleton.mp ha]
              exact fun h => by cases h
        · have hlt : i < n := Nat.lt_of_le_of_ne (Nat.le_of_lt_succ hi) hin
          refine (hrings (i, full) hlt).frame fun a ha => ?_
          rw [List.mem_singleton.mp ha, hframe₂, hframe₁]
          · cases full
            · exact fun h => by cases h
            · exact fun h => hin (Addr.slabsFull.inj h)
          · cases full
            · exact fun h => hin (Addr.slabsNotfull.inj h)
            · exact fun h => by cases h

/-- After `slab_init` there are no slabs. -/
theorem slabInit_inv {s : State σ} (hobt : s.obtained = [])
    (hret : s.returned = []) :
    ∃ s₀, slabInit s = some s₀ ∧
      Inv inUse (∀ q, s.pgSlab q = false) s₀ [] [] [] := by
  obtain ⟨m, hm, hrings⟩ := slabInitLists_rings SLAB_CACHE_NUM s.link
  refine ⟨{ s with link := m }, by rw [slabInit, hm]; rfl, ?_⟩
  refine ⟨fun b hb => absurd hb List.not_mem_nil, ⟨fun _ => [], ?_, ?_⟩,
    List.nodup_nil, List.nodup_nil, fun q hq => absurd hq List.not_mem_nil,
    List.Perm.refl _, ?_, ?_⟩
  · refine ⟨hrings, fun i j hi hj hne a ha ha' => hne ?_⟩
    have heq : head i = head j :=
      (List.mem_singleton.mp ha).symm.trans (List.mem_singleton.mp ha')
    rcases i with ⟨i, full⟩
    rcases j with ⟨j, full'⟩
    cases full <;> cases full' <;> simp_all [head]
  · intro j _ a
    simp
  · simp [runs, hobt, hret]
  · intro hclean q hq
    exact absurd ((hclean q).symm.trans hq) Bool.false_ne_true

/-! ## The invariant of a run -/

/-- The objects in use as the invariant has them: cache and address. -/
def tagged (live : List (Nat × Nat)) : List (Nat × Nat) :=
  live.map fun o => (cacheOf o.2, o.1)

def RunInv (inUse : σ → Nat → Prop) (C : Prop) (w : World σ) : Prop :=
  ∃ bs, Inv inUse C w.state bs (tagged w.live) [] ∧ Busy bs

section
variable {s s' : State σ} {bs : List Slab} {live extra : List (Nat × Nat)}

theorem Inv.permLive {live' : List (Nat × Nat)}
    (hi : Inv inUse C s bs live extra) (hperm : live.Perm live') :
    Inv inUse C s bs live' extra :=
  ⟨hi.ok, hi.lists, hi.addrs, hi.pages, hi.inUse,
    hi.accounts.trans (hperm.append_right _), hi.log, hi.clean⟩

theorem tagged_erase {o : Nat × Nat} (ho : o ∈ live) :
    (tagged live).Perm ((cacheOf o.2, o.1) :: tagged (live.erase o)) :=
  (List.perm_cons_erase ho).map _

/-- After a call of `kmalloc` the object it gives is live. -/
theorem Inv.after_kmalloc (hA : Correct A inUse) {size : Nat} {r : Option Nat}
    (hi : Inv inUse C s bs (tagged live) extra) (hbusy : Busy bs)
    (hcall : kmalloc A size s = some (r, s')) :
    ∃ bs', Inv inUse C s' bs'
      (tagged ((r.map fun p => (p, size)).toList ++ live)) extra ∧ Busy bs' := by
  obtain ⟨r', hr, hend⟩ := kmalloc_spec hA size hi hbusy
  obtain rfl := Option.some.inj (hcall.symm.trans hr)
  rcases hend with ⟨hnone, hi', -⟩ | ⟨p, bs', hsome, hi', hbusy'⟩
  · obtain rfl : r = none := hnone
    exact ⟨bs, hi', hbusy⟩
  · obtain rfl : r = some p := hsome
    exact ⟨bs', hi', hbusy'⟩

/-- After a call of `kfree` the object it is given is not. -/
theorem Inv.after_kfree (hA : Correct A inUse) {o : Nat × Nat} (ho : o ∈ live)
    (hi : Inv inUse C s bs (tagged live) extra) (hbusy : Busy bs)
    (hcall : kfree A o.1 s = some s') :
    ∃ bs', Inv inUse C s' bs' (tagged (live.erase o)) extra ∧ Busy bs' := by
  obtain ⟨s'', bs', hr, hi', hbusy'⟩ :=
    kfree_spec hA (hi.permLive (tagged_erase ho)) hbusy
  obtain rfl := Option.some.inj (hcall.symm.trans hr)
  exact ⟨bs', hi', hbusy'⟩

/-- The calls return. -/
theorem Inv.returns (hA : Correct A inUse)
    (hi : Inv inUse C s bs (tagged live) extra) (hbusy : Busy bs) :
    (∀ size, ∃ r, kmalloc A size s = some r) ∧
      ∀ o ∈ live, ∃ s', kfree A o.1 s = some s' := by
  refine ⟨fun size => ?_, fun o ho => ?_⟩
  · obtain ⟨r, hr, -⟩ := kmalloc_spec hA size hi hbusy
    exact ⟨r, hr⟩
  · obtain ⟨s', -, hr, -⟩ := kfree_spec hA (hi.permLive (tagged_erase ho)) hbusy
    exact ⟨s', hr⟩

/-- The pages held are those of the slabs. -/
theorem Inv.heldRuns (hi : Inv inUse C s bs live extra) :
    (heldRuns s).Perm (runs bs extra) := by
  refine (hi.log.diff_right s.returned).trans ?_
  have hcancel : ∀ l r : List (Nat × Nat), (l ++ r).diff l = r := by
    intro l r
    induction l with
    | nil => rfl
    | cons x l ih =>
        rw [List.cons_append, List.diff_cons, List.erase_cons_head]
        exact ih
  rw [hcancel]

theorem Inv.heldPages (hi : Inv inUse C s bs live extra) :
    (heldPages s).Perm ((runs bs extra).flatMap runPages) :=
  hi.heldRuns.flatMap_right _

theorem Inv.elsewhere (hi : Inv inUse C s bs live extra)
    (he : Elsewhere inUse s s') : Inv inUse C s' bs live extra := by
  have hheld : ∀ {q}, q ∈ (runs bs extra).flatMap runPages →
      q ∈ SharixSlab.heldPages s := fun hq => hi.heldPages.mem_iff.mpr hq
  have hpage : ∀ {b}, b ∈ bs → ∃ q ∈ SharixSlab.heldPages s,
      (s.pageLink q).prev = b.addr := by
    intro b hb
    have hfirst : b.page ∈ b.pages := by
      rw [Slab.mem_pages]
      have := b.count_pos
      omega
    exact ⟨b.page, hheld (hi.mem_pages hb hfirst),
      congrArg PageLink.prev ((hi.ok b hb).link _ hfirst)⟩
  refine ⟨fun b hb => ?_, ?_, hi.addrs, hi.pages, fun q hq => ?_, hi.accounts,
    ?_, ?_⟩
  · obtain ⟨q, hq, hprev⟩ := hpage hb
    refine (hi.ok b hb).congr ?_ (fun q hq => ?_) fun q _ => ?_
    · rw [← hprev]
      exact he.slabs q hq
    · exact he.pageLink q (hheld (hi.mem_pages hb hq))
    · rw [he.pgSlab]
  · obtain ⟨L, hR, hmem⟩ := hi.lists
    refine ⟨L, hR.frame fun j hj a ha => ?_, hmem⟩
    rcases List.mem_cons.mp ha with rfl | ha
    · exact he.heads j
    · obtain ⟨x, hx, rfl⟩ := List.mem_map.mp ha
      obtain ⟨b, hb, -, rfl⟩ := (hmem j hj x).mp hx
      obtain ⟨q, hq, hprev⟩ := hpage hb
      rw [← hprev]
      exact he.links q hq
  · exact he.inUse q (hheld hq) (hi.inUse q hq)
  · rw [he.obtained, he.returned]
    exact hi.log
  · rw [he.pgSlab]
    exact hi.clean

end

/-- What one step keeps. -/
theorem runInv_step (hA : Correct A inUse) {w w' : World σ}
    (hw : RunInv inUse C w) (hstep : Step A inUse w w') :
    RunInv inUse C w' := by
  obtain ⟨bs, hi, hbusy⟩ := hw
  cases hstep with
  | kmallocNull hcall => exact hi.after_kmalloc hA hbusy hcall
  | kmalloc hcall => exact hi.after_kmalloc hA hbusy hcall
  | kfree ho hcall => exact hi.after_kfree hA ho hbusy hcall
  | elsewhere he => exact ⟨bs, hi.elsewhere he, hbusy⟩

/-- The calls return. -/
theorem runInv_returns (hA : Correct A inUse) {w : World σ}
    (hw : RunInv inUse C w) :
    (∀ size, ∃ r, kmalloc A size w.state = some r) ∧
      ∀ o ∈ w.live, ∃ s', kfree A o.1 w.state = some s' := by
  obtain ⟨bs, hi, hbusy⟩ := hw
  exact hi.returns hA hbusy

theorem runInv_run (hA : Correct A inUse) {w w' : World σ}
    (hrun : Relation.ReflTransGen (Step A inUse) w w')
    (hw : RunInv inUse C w) : RunInv inUse C w' :=
  run_invariant (I := RunInv inUse C) (fun _ _ => runInv_step hA) hrun hw

/-! ## Where everything is -/

/-- The bytes of an object. -/
def objArea (o : Nat × Nat) : Nat × Nat := (o.2, (slabCache o.1).objsize)

/-- The bytes of the `slab_t` and the bufctls. -/
def Slab.mgmtArea (b : Slab) : Nat × Nat :=
  (b.addr, sizeofSlab + b.cachep.num * sizeofBufctl)

/-- Areas of bytes, no two with a common one. -/
def AllApart (areas : List (Nat × Nat)) : Prop :=
  areas.Pairwise fun x y => Apart x.1 x.2 y.1 y.2

/-- The entries of a list are the slabs with this property. -/
def OnList (m : LinkMem Addr) (list : Addr) (bs : List Slab)
    (P : Slab → Prop) : Prop :=
  ∃ l : List Nat, Ring m list (l.map Addr.slabLink) ∧
    ∀ a, a ∈ l ↔ ∃ b ∈ bs, P b ∧ b.addr = a

/-- A live object of this size in a slab of its cache. -/
structure ObjectIn (s : State σ) (b : Slab) (p size : Nat) : Prop where
  cache : b.cache = cacheOf size
  index : ∃ k < b.cachep.num, k ∉ b.free ∧ b.objAddr k = p
  aligned : 16 ∣ p
  room : size ≤ b.cachep.objsize
  pages : b.Holds p b.cachep.objsize
  link : s.pageLink (kva2page p) = ⟨b.cache, b.addr⟩

/-- The state holds the slabs `bs`, and these the live objects. -/
structure Placed (w : World σ) (bs : List Slab) : Prop where
  slabs : ∀ b ∈ bs, SlabOk w.state b
  pages : bs.Pairwise fun b c => b.pages.Disjoint c.pages
  free : ∀ b ∈ bs, ∀ k < b.cachep.num, k ∈ b.free ↔
    (∀ o ∈ w.live, o.1 ≠ b.objAddr k) ∧
    ∀ c ∈ bs, c.cachep.offSlab = true → c.addr ≠ b.objAddr k
  inuse : ∀ b ∈ bs, (w.state.slab b.addr).inuse = b.cachep.num - b.free.length
  slabsFull : ∀ i < SLAB_CACHE_NUM, OnList w.state.link (.slabsFull i) bs
    fun b => b.cache = i ∧ (w.state.slab b.addr).inuse = b.cachep.num
  slabsNotfull : ∀ i < SLAB_CACHE_NUM, OnList w.state.link (.slabsNotfull i) bs
    fun b => b.cache = i ∧ (w.state.slab b.addr).inuse ≠ b.cachep.num
  objects : ∀ o ∈ w.live, ∃ b ∈ bs, ObjectIn w.state b o.1 o.2
  apart : AllApart ((tagged w.live).map objArea ++ bs.map Slab.mgmtArea)

section
variable {s : State σ} {bs : List Slab} {live extra : List (Nat × Nat)}

theorem Apart.mono {a n a' n' m m' : Nat} (h : Apart a n a' n') (hm : m ≤ n)
    (hm' : m' ≤ n') : Apart a m a' m' := by
  rcases h with h | h
  · exact .inl (by omega)
  · exact .inr (by omega)

/-- Objects in use at different addresses. -/
theorem Inv.objs_apart (hi : Inv inUse C s bs live extra) {o o' : Nat × Nat}
    (ho : o ∈ live ++ bs.flatMap Slab.control)
    (ho' : o' ∈ live ++ bs.flatMap Slab.control) (hne : o.2 ≠ o'.2) :
    Apart (objArea o).1 (objArea o).2 (objArea o').1 (objArea o').2 := by
  obtain ⟨b, hb, k, hk, -, rfl⟩ := hi.mem_obj ho
  obtain ⟨c, hc, k', hk', -, rfl⟩ := hi.mem_obj ho'
  by_cases hbc : b = c
  · subst hbc
    refine b.obj_apart ?_
    rintro rfl
    exact hne rfl
  · exact Slab.holds_apart (Slab.holds_obj (hi.ok b hb).cache hk)
      (Slab.holds_obj (hi.ok c hc).cache hk') (hi.pages_apart hb hc hbc)

/-- The control block of a slab that keeps it, and an object in use. -/
theorem Inv.mgmt_apart (hi : Inv inUse C s bs live extra) {b : Slab}
    (hb : b ∈ bs) (hoff : b.cachep.offSlab = false) {o : Nat × Nat}
    (ho : o ∈ live ++ bs.flatMap Slab.control) :
    Apart (objArea o).1 (objArea o).2 b.mgmtArea.1 b.mgmtArea.2 := by
  have hok := hi.ok b hb
  obtain ⟨hmgmt, hbefore⟩ := Slab.holds_mgmt hok.cache hoff
  rw [Slab.mgmtArea, hok.addr hoff]
  obtain ⟨c, hc, k, hk, -, rfl⟩ := hi.mem_obj ho
  by_cases hbc : b = c
  · subst hbc
    exact .inr (hbefore k)
  · exact (Slab.holds_apart hmgmt (Slab.holds_obj (hi.ok c hc).cache hk)
      (hi.pages_apart hb hc hbc)).symm

/-- A control block that is not in its slab is an object with room for it. -/
theorem Inv.control_obj (hi : Inv inUse C s bs live extra) {b : Slab}
    (hb : b ∈ bs) (hoff : b.cachep.offSlab = true) :
    ∃ o ∈ live ++ bs.flatMap Slab.control, o.2 = b.mgmtArea.1 ∧
      b.mgmtArea.2 ≤ (objArea o).2 := by
  have hroom := ((Slab.cachep_ok (hi.ok b hb).cache).offSlab hoff).2.2.2
  refine ⟨(b.cachep.slabCachep, b.addr), List.mem_append_right _
    (List.mem_flatMap.mpr ⟨b, hb, Slab.mem_control hoff⟩), ?_, ?_⟩
  · rw [Slab.mgmtArea]
  · rw [Slab.mgmtArea, objArea]
    dsimp only
    exact hroom

/-- An object in use and a control block with another address. -/
theorem Inv.obj_mgmt_apart (hi : Inv inUse C s bs live extra) {b : Slab}
    (hb : b ∈ bs) {o : Nat × Nat} (ho : o ∈ live ++ bs.flatMap Slab.control)
    (hne : o.2 ≠ b.addr) :
    Apart (objArea o).1 (objArea o).2 b.mgmtArea.1 b.mgmtArea.2 := by
  cases hoff : b.cachep.offSlab with
  | false => exact hi.mgmt_apart hb hoff ho
  | true =>
      obtain ⟨o', ho', haddr, hroom⟩ := hi.control_obj hb hoff
      rw [← haddr]
      refine (hi.objs_apart ho ho' ?_).mono (Nat.le_refl _) hroom
      rw [haddr]
      exact hne

theorem Inv.mgmts_apart (hi : Inv inUse C s bs live extra) {b c : Slab}
    (hb : b ∈ bs) (hc : c ∈ bs) (hne : b ≠ c) :
    Apart b.mgmtArea.1 b.mgmtArea.2 c.mgmtArea.1 c.mgmtArea.2 := by
  have haddr : b.addr ≠ c.addr :=
    fun heq => hne (List.inj_on_of_nodup_map hi.addrs hb hc heq)
  cases hoff : b.cachep.offSlab with
  | true =>
      obtain ⟨o, ho, hoaddr, hroom⟩ := hi.control_obj hb hoff
      rw [← hoaddr]
      refine (hi.obj_mgmt_apart hc ho ?_).mono hroom (Nat.le_refl _)
      rw [hoaddr]
      exact haddr
  | false =>
      cases hoff' : c.cachep.offSlab with
      | true =>
          obtain ⟨o, ho, hoaddr, hroom⟩ := hi.control_obj hc hoff'
          rw [← hoaddr]
          exact (hi.mgmt_apart hb hoff ho).symm.mono (Nat.le_refl _) hroom
      | false =>
          have hok := hi.ok b hb
          have hok' := hi.ok c hc
          rw [Slab.mgmtArea, Slab.mgmtArea, hok.addr hoff, hok'.addr hoff']
          exact Slab.holds_apart (Slab.holds_mgmt hok.cache hoff).1
            (Slab.holds_mgmt hok'.cache hoff').1 (hi.pages_apart hb hc hne)

theorem Inv.slabs_nodup (hi : Inv inUse C s bs live extra) : bs.Nodup :=
  List.Nodup.of_map _ hi.addrs

theorem Inv.live_nodup (hi : Inv inUse C s bs live extra) :
    ((live ++ bs.flatMap Slab.control).map Prod.snd).Nodup :=
  (hi.accounts.map Prod.snd).nodup_iff.mp hi.objs_nodup

/-- Live objects and control blocks, all apart. -/
theorem Inv.areas_apart (hi : Inv inUse C s bs live extra) :
    AllApart (live.map objArea ++ bs.map Slab.mgmtArea) := by
  refine List.pairwise_append.mpr ⟨?_, ?_, ?_⟩
  · have hn := hi.live_nodup
    rw [List.map_append, List.nodup_append'] at hn
    refine List.pairwise_map.mpr ((List.pairwise_map.mp hn.1).imp_of_mem ?_)
    intro o o' ho ho' hne
    exact hi.objs_apart (List.mem_append_left _ ho)
      (List.mem_append_left _ ho') hne
  · refine List.pairwise_map.mpr (hi.slabs_nodup.pairwise_of_forall_ne ?_)
    exact fun b hb c hc hne => hi.mgmts_apart hb hc hne
  · intro x hx y hy
    obtain ⟨o, ho, rfl⟩ := List.mem_map.mp hx
    obtain ⟨b, hb, rfl⟩ := List.mem_map.mp hy
    obtain ⟨rest, hperm⟩ : ∃ rest, live.Perm (o :: rest) :=
      ⟨_, List.perm_cons_erase ho⟩
    refine hi.obj_mgmt_apart hb (List.mem_append_left _ ho) ?_
    exact fun heq => (hi.permLive hperm).live_not_addr hb heq.symm

/-- A free object is neither live nor a control block. -/
theorem Inv.free_iff (hi : Inv inUse C s bs live extra) {b : Slab} (hb : b ∈ bs)
    {k : Nat} (hk : k < b.cachep.num) :
    k ∈ b.free ↔ ∀ o ∈ live ++ bs.flatMap Slab.control, o.2 ≠ b.objAddr k := by
  constructor
  · rintro hfree o ho heq
    obtain ⟨c, hc, k', hk', hused, rfl⟩ := hi.mem_obj ho
    have hpage := Slab.page_obj (hi.ok c hc).cache hk'
    dsimp only at heq
    rw [heq] at hpage
    obtain rfl := hi.slab_unique hb hc
      (Slab.page_obj (hi.ok b hb).cache hk) hpage
    obtain rfl := Slab.objAddr_inj (hi.ok b hb).cache heq
    exact hused hfree
  · intro hnone
    by_contra hused
    have hobj : (b.cache, b.objAddr k) ∈ bs.flatMap Slab.objs :=
      List.mem_flatMap.mpr ⟨b, hb, Slab.mem_objs.mpr ⟨k, hk, hused, rfl⟩⟩
    exact hnone _ (hi.accounts.mem_iff.mp hobj) rfl

theorem Inv.length_free (hi : Inv inUse C s bs live extra) {b : Slab}
    (hb : b ∈ bs) :
    (s.slab b.addr).inuse + b.free.length = b.cachep.num := by
  rw [(hi.ok b hb).inuse]
  exact Slab.length_used (hi.ok b hb).free

theorem Lists.onList {m : LinkMem Addr} (h : Lists m bs) {j : Nat × Bool}
    (hj : j.1 < SLAB_CACHE_NUM) {P : Slab → Prop}
    (hP : ∀ b ∈ bs, b.list = j ↔ P b) : OnList m (head j) bs P := by
  obtain ⟨L, hR, hmem⟩ := h
  refine ⟨L j, hR.ring j hj, fun a => (hmem j hj a).trans ?_⟩
  constructor
  · rintro ⟨b, hb, hlist, haddr⟩
    exact ⟨b, hb, (hP b hb).mp hlist, haddr⟩
  · rintro ⟨b, hb, hlist, haddr⟩
    exact ⟨b, hb, (hP b hb).mpr hlist, haddr⟩

theorem Inv.list_iff (hi : Inv inUse C s bs live extra) {b : Slab} (hb : b ∈ bs)
    (i : Nat) :
    (b.list = (i, true) ↔
      b.cache = i ∧ (s.slab b.addr).inuse = b.cachep.num) ∧
    (b.list = (i, false) ↔
      b.cache = i ∧ (s.slab b.addr).inuse ≠ b.cachep.num) := by
  have hlen := hi.length_free hb
  have hfull : (s.slab b.addr).inuse = b.cachep.num ↔
      b.free.isEmpty = true := by
    rw [← hlen, List.isEmpty_iff_length_eq_zero]
    omega
  rw [Slab.list, Prod.mk.injEq, Prod.mk.injEq, Ne, hfull, Bool.not_eq_true]
  exact ⟨Iff.rfl, Iff.rfl⟩

theorem Inv.objectIn {p size : Nat}
    (hi : Inv inUse C s bs ((cacheOf size, p) :: live) extra) :
    ∃ b ∈ bs, ObjectIn s b p size := by
  obtain ⟨b, hb, k, hk, hused, hcache, rfl⟩ := hi.live_obj
  have hok := hi.ok b hb
  refine ⟨b, hb, hcache, ⟨k, hk, hused, rfl⟩, Slab.objAddr_aligned hok.cache k,
    ?_, Slab.holds_obj hok.cache hk, hok.page_link hk⟩
  have hroom := cacheOf_room (hcache ▸ hok.cache)
  rw [← hcache] at hroom
  exact hroom

end

theorem Inv.placed {w : World σ} {bs : List Slab}
    (hi : Inv inUse C w.state bs (tagged w.live) []) : Placed w bs := by
  refine ⟨hi.ok, ?_, ?_, ?_, ?_, ?_, ?_, hi.areas_apart⟩
  · exact hi.slabs_nodup.pairwise_of_forall_ne fun b hb c hc hne =>
      hi.pages_apart hb hc hne
  · intro b hb k hk
    rw [hi.free_iff hb hk]
    constructor
    · intro hnone
      refine ⟨fun o ho => ?_, fun c hc hoff => ?_⟩
      · exact hnone _ (List.mem_append_left _ (List.mem_map_of_mem ho))
      · exact hnone _ (List.mem_append_right _ (List.mem_flatMap.mpr
          ⟨c, hc, Slab.mem_control hoff⟩))
    · rintro ⟨hlive, hctl⟩ o ho
      rcases List.mem_append.mp ho with h | h
      · obtain ⟨o, hmem, rfl⟩ := List.mem_map.mp h
        exact hlive o hmem
      · obtain ⟨c, hc, hmem⟩ := List.mem_flatMap.mp h
        rw [Slab.control] at hmem
        split at hmem
        · rename_i hoff
          rw [List.mem_singleton.mp hmem]
          exact hctl c hc hoff
        · cases hmem
  · exact fun b hb => Nat.eq_sub_of_add_eq (hi.length_free hb)
  · exact fun i hc => hi.lists.onList (j := (i, true)) hc
      fun b hb => (hi.list_iff hb i).1
  · exact fun i hc => hi.lists.onList (j := (i, false)) hc
      fun b hb => (hi.list_iff hb i).2
  · intro o ho
    exact (hi.permLive (tagged_erase ho)).objectIn

/-! ## A run -/

/-- The first page behind all pages in use. -/
def demoNext (m : List Nat) : Nat := m.foldr (fun q p => max (q + 1) p) 0

/-- A page allocator of `limit` pages. -/
def demoPages (limit : Nat) : PageAllocator (List Nat) where
  alloc n m links :=
    if demoNext m + n ≤ limit then
      (some (demoNext m), List.range' (demoNext m) n ++ m, links)
    else (none, m, links)
  free page n m links :=
    (m.filter fun q => !decide (page ≤ q ∧ q < page + n), links)

theorem demoNext_lt {m : List Nat} {q : Nat} (h : q ∈ m) : q < demoNext m := by
  induction m with
  | nil => cases h
  | cons x m ih =>
      rw [demoNext, List.foldr_cons]
      rcases List.mem_cons.mp h with rfl | h
      · exact Nat.lt_of_lt_of_le (Nat.lt_succ_self _) (Nat.le_max_left _ _)
      · exact Nat.lt_of_lt_of_le (ih h) (Nat.le_max_right _ _)

theorem demoPages_correct {limit : Nat} (hlimit : limit * PGSIZE ≤ KMEMSIZE) :
    Correct (demoPages limit) (fun m q => q ∈ m) := by
  refine ⟨?_, ?_, ?_⟩
  · intro n m links hnone
    by_cases hroom : demoNext m + n ≤ limit
    · simp only [demoPages, if_pos hroom] at hnone
      cases hnone
    · simp only [demoPages, if_neg hroom]
      exact ⟨fun _ => trivial, fun _ _ => trivial⟩
  · intro n m links page hsome
    by_cases hroom : demoNext m + n ≤ limit
    · simp only [demoPages, if_pos hroom, Option.some.injEq] at hsome ⊢
      subst hsome
      refine ⟨fun q hq _ hin => ?_, ?_, fun q => ?_, fun _ _ => trivial⟩
      · exact absurd (demoNext_lt hin) (Nat.not_lt.mpr hq)
      · exact Nat.le_trans (Nat.mul_le_mul_right _ hroom) hlimit
      · rw [List.mem_append, List.mem_range'_1, or_comm]
    · simp only [demoPages, if_neg hroom] at hsome
      cases hsome
  · intro page n m links _
    refine ⟨fun q => ?_, fun _ _ => rfl⟩
    simp only [demoPages, List.mem_filter, Bool.not_eq_true',
      decide_eq_false_iff_not]

/-- Nothing is linked, no page in use. -/
def demoStart : State (List Nat) where
  link := fun _ => ⟨.null, .null⟩
  slab := fun _ => ⟨0, 0, 0, 0, fun _ => 0⟩
  pageLink := fun _ => ⟨0, 0⟩
  pgSlab := fun _ => false
  pmm := []
  obtained := []
  returned := []

def demoInit : State (List Nat) := (slabInit demoStart).getD demoStart

/-- `kmalloc(1000)`: the control block is an object itself. -/
def demoCall (limit : Nat) : Option Nat × State (List Nat) :=
  (kmalloc (demoPages limit) 1000 demoInit).getD (none, demoInit)

def demoFreed : State (List Nat) :=
  (kfree (demoPages 8) ((demoCall 8).1.getD 0) (demoCall 8).2).getD demoInit

theorem demoPages_eight : Correct (demoPages 8) (fun m q => q ∈ m) :=
  demoPages_correct (by decide)

theorem demoInit_eq : slabInit demoStart = some demoInit := by
  have hinit : ∃ s₀, slabInit demoStart = some s₀ ∧ Inv (fun m q => q ∈ m)
      (∀ q, demoStart.pgSlab q = false) s₀ [] [] [] := slabInit_inv rfl rfl
  obtain ⟨s₀, h, -⟩ := hinit
  rw [demoInit, h]
  rfl

theorem demo_kmalloc : kmalloc (demoPages 8) 1000 demoInit
    = some (some 0xC0000000, (demoCall 8).2) := by
  have hfst : (kmalloc (demoPages 8) 1000 demoInit).map Prod.fst
      = some (some 0xC0000000) := by decide +kernel
  obtain ⟨⟨o, s'⟩, hcall, rfl⟩ := Option.map_eq_some_iff.mp hfst
  rw [demoCall, hcall]
  rfl

theorem demo_kfree : kfree (demoPages 8) 0xC0000000 (demoCall 8).2
    = some demoFreed := by
  have hsome : (kfree (demoPages 8) 0xC0000000 (demoCall 8).2).isSome := by
    decide +kernel
  obtain ⟨s', hcall⟩ := Option.isSome_iff_exists.mp hsome
  have hfst : (demoCall 8).1 = some 0xC0000000 := by
    rw [demoCall, demo_kmalloc]
    rfl
  rw [demoFreed, hfst, Option.getD_some, hcall]
  rfl

/-- One page is enough for the objects, not for the control block. -/
theorem demo_null : kmalloc (demoPages 1) 1000 demoInit
    = some (none, (demoCall 1).2) := by
  have hfst : (kmalloc (demoPages 1) 1000 demoInit).map Prod.fst
      = some none := by decide +kernel
  obtain ⟨⟨o, s'⟩, hcall, rfl⟩ := Option.map_eq_some_iff.mp hfst
  rw [demoCall, hcall]
  rfl

/-! ## The theorems -/

/-- What a page allocator and `slab_init` start from. -/
theorem slabInit_run (hA : Correct A inUse) {s : State σ}
    (hobt : s.obtained = []) (hret : s.returned = []) :
    ∃ s₀, slabInit s = some s₀ ∧
      ∀ w, Relation.ReflTransGen (Step A inUse) ⟨s₀, []⟩ w →
        RunInv inUse (∀ q, s.pgSlab q = false) w := by
  have hrun : ∃ s₀, slabInit s = some s₀ ∧
      Inv inUse (∀ q, s.pgSlab q = false) s₀ [] [] [] := slabInit_inv hobt hret
  obtain ⟨s₀, hinit, hi⟩ := hrun
  refine ⟨s₀, hinit, fun w hrun => runInv_run hA hrun ⟨[], hi, ?_⟩⟩
  exact fun b hb => absurd hb List.not_mem_nil

/-- **EVERY OBJECT IN ITS PLACE**: after `slab_init`, in every run of `kmalloc`
    and of `kfree` on live objects, the calls return, and the slabs are placed
    and hold the live objects. -/
theorem slab_placed (hA : Correct A inUse) {s : State σ}
    (hobt : s.obtained = []) (hret : s.returned = []) :
    ∃ s₀, slabInit s = some s₀ ∧
      ∀ w, Relation.ReflTransGen (Step A inUse) ⟨s₀, []⟩ w →
        ((∀ size, ∃ r, kmalloc A size w.state = some r) ∧
          ∀ o ∈ w.live, ∃ s', kfree A o.1 w.state = some s') ∧
        ∃ bs, Placed w bs := by
  obtain ⟨s₀, hinit, hall⟩ := slabInit_run hA hobt hret
  refine ⟨s₀, hinit, fun w hrun => ?_⟩
  have hw := hall w hrun
  refine ⟨runInv_returns hA hw, ?_⟩
  obtain ⟨bs, hi, -⟩ := hw
  exact ⟨bs, hi.placed⟩

theorem slab_placed_demo :
    ∃ bs, Placed ⟨(demoCall 8).2, [(0xC0000000, 1000)]⟩ bs := by
  obtain ⟨s₀, hinit, hall⟩ := slab_placed demoPages_eight (s := demoStart) rfl rfl
  obtain rfl := Option.some.inj (demoInit_eq.symm.trans hinit)
  exact (hall _ (.single (.kmalloc demo_kmalloc))).2

/-- Without live objects there are no slabs: all objects in use would be
    control blocks, and the slabs that these lie in need none. -/
theorem Inv.no_slabs {s : State σ} {bs : List Slab} {extra : List (Nat × Nat)}
    (hi : Inv inUse C s bs [] extra) (hbusy : Busy bs) : bs = [] := by
  have hctl : ∀ b ∈ bs, ∃ c ∈ bs, c.cachep.offSlab = true ∧
      b.cachep.offSlab = false := by
    intro b hb
    obtain ⟨k, hk⟩ := List.exists_mem_of_ne_nil _ (hbusy b hb)
    have hobj : (b.cache, b.objAddr k) ∈ bs.flatMap Slab.objs :=
      List.mem_flatMap.mpr ⟨b, hb, List.mem_map_of_mem hk⟩
    obtain ⟨c, hc, hmem⟩ := List.mem_flatMap.mp (hi.accounts.mem_iff.mp hobj)
    rw [Slab.control] at hmem
    split at hmem
    · rename_i hoff
      have hcache : b.cache = c.cachep.slabCachep :=
        congrArg Prod.fst (List.mem_singleton.mp hmem)
      have hin := ((Slab.cachep_ok (hi.ok c hc).cache).offSlab hoff).2.2.1
      rw [← hcache] at hin
      exact ⟨c, hc, hoff, hin⟩
    · cases hmem
  by_contra hne
  obtain ⟨b, hb⟩ := List.exists_mem_of_ne_nil _ hne
  obtain ⟨c, hc, hoff, -⟩ := hctl b hb
  obtain ⟨-, -, -, hin⟩ := hctl c hc
  exact absurd (hin.symm.trans hoff) Bool.false_ne_true

/-- **NOTHING LEFT BEHIND**: in a run that ends with no live object the lists
    are empty, each run of pages obtained has been returned, as it was
    obtained, and no page has a flag if none had one. -/
theorem slab_no_leak (hA : Correct A inUse) {s : State σ}
    (hobt : s.obtained = []) (hret : s.returned = []) :
    ∃ s₀, slabInit s = some s₀ ∧
      ∀ w, Relation.ReflTransGen (Step A inUse) ⟨s₀, []⟩ w → w.live = [] →
        (∀ i < SLAB_CACHE_NUM,
          listEmpty w.state.link (.slabsFull i) = some true ∧
          listEmpty w.state.link (.slabsNotfull i) = some true) ∧
        w.state.obtained.Perm w.state.returned ∧
        ((∀ q, s.pgSlab q = false) → ∀ q, w.state.pgSlab q = false) := by
  obtain ⟨s₀, hinit, hall⟩ := slabInit_run hA hobt hret
  refine ⟨s₀, hinit, fun w hrun hlive => ?_⟩
  obtain ⟨bs, hi, hbusy⟩ := hall w hrun
  rw [hlive] at hi
  obtain rfl := hi.no_slabs hbusy
  refine ⟨fun i hc => ⟨?_, ?_⟩, ?_, fun hclean q => ?_⟩
  · rcases lists_first hi.lists (j := (i, true)) hc with h | ⟨b, hb, -⟩
    · exact h
    · cases hb
  · rcases lists_first hi.lists (j := (i, false)) hc with h | ⟨b, hb, -⟩
    · exact h
    · cases hb
  · have hlog := hi.log
    rwa [runs, List.map_nil, List.append_nil, List.append_nil] at hlog
  · by_contra hset
    rw [Bool.not_eq_false] at hset
    have hmem := hi.clean hclean q hset
    cases hmem

theorem slab_no_leak_demo :
    demoFreed.obtained.Perm demoFreed.returned ∧
      ∀ q, demoFreed.pgSlab q = false := by
  obtain ⟨s₀, hinit, hall⟩ := slab_no_leak demoPages_eight (s := demoStart) rfl rfl
  obtain rfl := Option.some.inj (demoInit_eq.symm.trans hinit)
  have hkmalloc : Step (demoPages 8) (fun m q => q ∈ m) ⟨demoInit, []⟩
      ⟨(demoCall 8).2, [(0xC0000000, 1000)]⟩ := .kmalloc demo_kmalloc
  have hkfree : Step (demoPages 8) (fun m q => q ∈ m)
      ⟨(demoCall 8).2, [(0xC0000000, 1000)]⟩
      ⟨demoFreed, [(0xC0000000, 1000)].erase (0xC0000000, 1000)⟩ :=
    .kfree (o := (0xC0000000, 1000)) (List.mem_singleton_self _) demo_kfree
  rw [List.erase_cons_head] at hkfree
  obtain ⟨-, hlog, hflags⟩ := hall _ (.tail (.single hkmalloc) hkfree) rfl
  have hclean := hflags fun _ => rfl
  dsimp only at hlog hclean
  exact ⟨hlog, hclean⟩

/-- **A FAILED CALL CHANGES NOTHING**: in every state of every run, if
    `kmalloc` answers `NULL`, the lists, the records and the flags are those
    before the call, the same runs of pages are held with the same
    `page_link`, and the objects are where they were. -/
theorem kmalloc_null (hA : Correct A inUse) {s : State σ}
    (hobt : s.obtained = []) (hret : s.returned = []) :
    ∃ s₀, slabInit s = some s₀ ∧
      ∀ w, Relation.ReflTransGen (Step A inUse) ⟨s₀, []⟩ w →
        ∀ size s', kmalloc A size w.state = some (none, s') →
          s'.link = w.state.link ∧ s'.slab = w.state.slab ∧
          s'.pgSlab = w.state.pgSlab ∧
          (heldRuns s').Perm (heldRuns w.state) ∧
          (∀ q ∈ heldPages w.state, s'.pageLink q = w.state.pageLink q) ∧
          ∃ bs, Placed w bs ∧ Placed ⟨s', w.live⟩ bs := by
  obtain ⟨s₀, hinit, hall⟩ := slabInit_run hA hobt hret
  refine ⟨s₀, hinit, fun w hrun size s' hcall => ?_⟩
  obtain ⟨bs, hi, hbusy⟩ := hall w hrun
  obtain ⟨r, hr, hend⟩ := kmalloc_spec hA size hi hbusy
  obtain rfl := Option.some.inj (hcall.symm.trans hr)
  rcases hend with ⟨-, hi', hlink, hslab, hflag⟩ | ⟨p, -, hp, -⟩
  · have hplaced : Placed ⟨s', w.live⟩ bs :=
      Inv.placed (w := ⟨s', w.live⟩) hi'
    refine ⟨hlink, hslab, hflag, hi'.heldRuns.trans hi.heldRuns.symm, ?_, bs,
      hi.placed, hplaced⟩
    intro q hq
    obtain ⟨r, hr, hqr⟩ := List.mem_flatMap.mp (hi.heldPages.mem_iff.mp hq)
    obtain ⟨b, hb, rfl⟩ := List.mem_map.mp hr
    rw [(hi.ok b hb).link q hqr]
    exact (hi'.ok b hb).link q hqr
  · cases hp

/-- The pages that were obtained for the objects went back. -/
theorem kmalloc_null_demo :
    (demoCall 1).2.link = demoInit.link ∧
      (heldRuns (demoCall 1).2).Perm (heldRuns demoInit) := by
  have hone : Correct (demoPages 1) (fun m q => q ∈ m) :=
    demoPages_correct (by decide)
  obtain ⟨s₀, hinit, hall⟩ := kmalloc_null hone (s := demoStart) rfl rfl
  obtain rfl := Option.some.inj (demoInit_eq.symm.trans hinit)
  obtain ⟨hlink, -, -, hheld, -⟩ := hall _ .refl 1000 _ demo_null
  exact ⟨hlink, hheld⟩

end SharixSlab
