import Sharix.MmapListProofs
import Sharix.SlabUseProofs

/-! # The life of an `mm` — `kern/mm/vmm.c` over `kern/mm/slab.c`

    `mm_create` and `vma_create` take their structures from `kmalloc`;
    `mm_destroy` gives the areas on the list back, one after the other, and
    then the `mm`.  It reads the list while it frees the areas, and freed memory
    is the heap's: after each `vma_destroy` the links of the area hold anything.

    A world has the heap, the `mm`, the areas inserted and those only created.
    Nothing is asked of the areas: they may be empty, or overlap. -/

namespace SharixMmHeap

open SharixList SharixRun SharixVmm
open SharixPaging (Word)

variable {σ : Type}

/-! ## The model -/

/-- `sizeof(struct vma_struct)` -/
def sizeofVma : Nat := 24

/-- `sizeof(struct mm_struct)` -/
def sizeofMm : Nat := 20

section Model

variable (A : SharixSlab.PageAllocator σ)

def vmaCreate (vmStart vmEnd vmFlags : Word) (vma : Nat → Vma) (s : SharixSlab.State σ) :
    Option (Option Nat × (Nat → Vma) × SharixSlab.State σ) :=
  (SharixSlab.kmalloc A sizeofVma s).map fun r =>
    match r.1 with
    | none => (none, vma, r.2)
    | some v => (some v, Function.update vma v ⟨vmStart, vmEnd, vmFlags⟩, r.2)

def mmCreate (m : LinkMem Addr) (s : SharixSlab.State σ) :
    Option (Option (Nat × MmStruct) × SharixSlab.State σ) :=
  (SharixSlab.kmalloc A sizeofMm s).bind fun r =>
    match r.1 with
    | none => some (none, r.2)
    | some p => (SharixVmm.mmCreate m).map fun mm => (some (p, mm), r.2)

def vmaDestroy (v : Nat) (s : SharixSlab.State σ) : Option (SharixSlab.State σ) :=
  SharixSlab.kfree A v s

variable (scribble : Nat → LinkMem Addr → ListEntry Addr)

/-- The loop of `mm_destroy`.  `scribble` writes the links of the area just
    freed; the code on its own leaves them as they are. -/
def destroyFrom : Nat → LinkMem Addr → SharixSlab.State σ → Option (SharixSlab.State σ)
  | 0, _, _ => none
  | fuel + 1, m, s =>
      (listNext m .mmapList).bind fun le =>
        if le = .mmapList then some s
        else
          (listDel m le).bind fun m =>
            (toVma le).bind fun v =>
              (vmaDestroy A v s).bind fun s =>
                destroyFrom fuel (Function.update m (.listLink v) (scribble v m)) s

def mmDestroy (fuel p : Nat) (mm : MmStruct) (s : SharixSlab.State σ) :
    Option (SharixSlab.State σ) :=
  (destroyFrom A scribble fuel mm.link s).bind fun s => SharixSlab.kfree A p s

end Model

/-! ## Worlds and steps -/

/-- The heap, the areas' fields, the `mm` with its address, the areas inserted
    into it, and those that are not in it yet. -/
structure World (σ : Type) where
  heap : SharixSlab.World σ
  vma : Nat → Vma
  mm : Option (Nat × MmStruct)
  areas : List Nat
  spare : List Nat

/-- An area as the heap has it. -/
def vmaBlock (v : Nat) : Nat × Nat := (v, sizeofVma)

/-- What `mm_destroy` has to give back. -/
def mmBlocks (areas : List Nat) (p : Nat) : List (Nat × Nat) :=
  areas.map vmaBlock ++ [(p, sizeofMm)]

def World.mmPart (w : World σ) : List (Nat × Nat) := w.mm.toList.map fun x => (x.1, sizeofMm)

/-- All that was created and not destroyed. -/
def World.blocks (w : World σ) : List (Nat × Nat) :=
  w.areas.map vmaBlock ++ w.mmPart ++ w.spare.map vmaBlock

/-- The blocks are live, each for itself. -/
def Holds (live blocks : List (Nat × Nat)) : Prop := ∃ rest, live.Perm (blocks ++ rest)

/-- What other code leaves alone of an `mm`: it may write elsewhere, also
    `pgdir`. -/
structure Kept (areas : List Nat) (mm mm' : MmStruct) : Prop where
  links : ∀ a ∈ Addr.mmapList :: areas.map Addr.listLink, mm'.link a = mm.link a
  cache : mm'.mmapCache = mm.mmapCache
  count : mm'.mapCount = mm.mapCount

section Steps

variable (A : SharixSlab.PageAllocator σ) (inUse : σ → Nat → Prop)
variable (scribble : Nat → LinkMem Addr → ListEntry Addr)

inductive Step : World σ → World σ → Prop where
  /-- Any other use of the heap, and of memory. -/
  | other {h h' : SharixSlab.World σ} {vma vma' : Nat → Vma}
      {mm mm' : Option (Nat × MmStruct)} {areas spare : List Nat} :
      SharixSlab.Step A inUse h h' →
      Holds h'.live (World.blocks ⟨h, vma, mm, areas, spare⟩) →
      Option.Rel (fun x y => x.1 = y.1 ∧ Kept areas x.2 y.2) mm mm' →
      Step ⟨h, vma, mm, areas, spare⟩ ⟨h', vma', mm', areas, spare⟩
  | mmCreateNull {s s' : SharixSlab.State σ} {live : List (Nat × Nat)} {vma : Nat → Vma}
      {areas spare : List Nat} {m : LinkMem Addr} :
      mmCreate A m s = some (none, s') →
      Step ⟨⟨s, live⟩, vma, none, areas, spare⟩ ⟨⟨s', live⟩, vma, none, areas, spare⟩
  | mmCreate {s s' : SharixSlab.State σ} {live : List (Nat × Nat)} {vma : Nat → Vma}
      {areas spare : List Nat} {m : LinkMem Addr} {p : Nat} {mm : MmStruct} :
      mmCreate A m s = some (some (p, mm), s') →
      Step ⟨⟨s, live⟩, vma, none, areas, spare⟩
        ⟨⟨s', (p, sizeofMm) :: live⟩, vma, some (p, mm), areas, spare⟩
  | vmaCreateNull {s s' : SharixSlab.State σ} {live : List (Nat × Nat)} {vma vma' : Nat → Vma}
      {mm : Option (Nat × MmStruct)} {areas spare : List Nat} {vmStart vmEnd vmFlags : Word} :
      vmaCreate A vmStart vmEnd vmFlags vma s = some (none, vma', s') →
      Step ⟨⟨s, live⟩, vma, mm, areas, spare⟩ ⟨⟨s', live⟩, vma', mm, areas, spare⟩
  | vmaCreate {s s' : SharixSlab.State σ} {live : List (Nat × Nat)} {vma vma' : Nat → Vma}
      {mm : Option (Nat × MmStruct)} {areas spare : List Nat} {vmStart vmEnd vmFlags : Word}
      {v : Nat} :
      vmaCreate A vmStart vmEnd vmFlags vma s = some (some v, vma', s') →
      Step ⟨⟨s, live⟩, vma, mm, areas, spare⟩
        ⟨⟨s', vmaBlock v :: live⟩, vma', mm, areas, v :: spare⟩
  | insert {h : SharixSlab.World σ} {vma : Nat → Vma} {areas spare : List Nat} {p : Nat}
      {mm mm' : MmStruct} {v fuel : Nat} :
      v ∈ spare → insertVmaStruct vma fuel mm v = some mm' →
      Step ⟨h, vma, some (p, mm), areas, spare⟩
        ⟨h, vma, some (p, mm'), v :: areas, spare.erase v⟩
  | find {h : SharixSlab.World σ} {vma : Nat → Vma} {areas spare : List Nat} {p : Nat}
      {mm : MmStruct} {mm' : Mm} {addr : Word} {fuel : Nat} {r : Option Nat} :
      findVma vma fuel mm.toMm addr = some (mm', r) →
      Step ⟨h, vma, some (p, mm), areas, spare⟩
        ⟨h, vma, some (p, { mm with toMm := mm' }), areas, spare⟩
  | destroy {s s' : SharixSlab.State σ} {live : List (Nat × Nat)} {vma : Nat → Vma}
      {areas spare : List Nat} {p fuel : Nat} {mm : MmStruct} :
      mmDestroy A scribble fuel p mm s = some s' →
      Step ⟨⟨s, live⟩, vma, some (p, mm), areas, spare⟩
        ⟨⟨s', live.diff (mmBlocks areas p)⟩, vma, none, [], spare⟩

end Steps

/-! ## The list of areas -/

/-- The list has the areas, each once, and the cache has one of them or
    none. -/
structure Listed (mm : MmStruct) (areas : List Nat) : Prop where
  list : ∃ vs : List Nat, Ring mm.link .mmapList (vs.map Addr.listLink) ∧ vs.Perm areas
  count : mm.mapCount = areas.length
  cache : ∀ v, mm.mmapCache = some v → v ∈ areas

/-- The list stays with its links. -/
theorem Listed.kept {mm mm' : MmStruct} {areas : List Nat} (h : Listed mm areas)
    (hk : Kept areas mm mm') : Listed mm' areas := by
  obtain ⟨vs, hring, hperm⟩ := h.list
  refine ⟨⟨vs, hring.frame fun a ha => hk.links a ?_, hperm⟩, hk.count.trans h.count, ?_⟩
  · rcases List.mem_cons.mp ha with rfl | ha
    · exact List.mem_cons_self ..
    · exact List.mem_cons_of_mem _ ((hperm.map Addr.listLink).mem_iff.mp ha)
  · intro v hv
    exact h.cache v (hk.cache ▸ hv)

/-- A new `mm` has an empty list. -/
theorem mmCreate_listed {m : LinkMem Addr} {mm : MmStruct}
    (h : SharixVmm.mmCreate m = some mm) : Listed mm [] := by
  obtain ⟨mm', hmm', hok, hcount⟩ := @mmCreate_ok (fun _ => ⟨0, 0, 0⟩) m
  obtain rfl := Option.some.inj (h.symm.trans hmm')
  obtain ⟨vs, hring, -, hperm⟩ := hok.list
  exact ⟨⟨vs, hring, hperm⟩, hcount, hok.cache⟩

theorem insertVmaStruct_mono {vma : Nat → Vma} {mm mm' : MmStruct} {v k n : Nat}
    (hle : k ≤ n) (hk : insertVmaStruct vma k mm v = some mm') :
    insertVmaStruct vma n mm v = some mm' := by
  obtain ⟨p, hprev, hrest⟩ := Option.bind_eq_some_iff.mp hk
  rw [insertVmaStruct, prevFrom_mono hle hprev, Option.bind_some, hrest]

/-- `insert_vma_struct` returns, and puts the area in the list once. -/
theorem Listed.insert (vma : Nat → Vma) {mm : MmStruct} {areas : List Nat} {v fuel : Nat}
    (h : Listed mm areas) (hv : v ∉ areas) (hfuel : areas.length < fuel) :
    ∃ mm', insertVmaStruct vma fuel mm v = some mm' ∧ Listed mm' (v :: areas) := by
  obtain ⟨vs, hring, hperm⟩ := h.list
  obtain ⟨l, r, l', p, rfl, -, -, hp, hprev⟩ := @prevFrom_split vma mm.link v vs
    fuel _ hring.linked (fun h => by cases h) (hperm.length_eq ▸ hfuel)
  rw [List.map_append] at hring
  have hfresh : Addr.listLink v ∉
      Addr.mmapList :: (l.map Addr.listLink ++ r.map Addr.listLink) := by
    rw [← List.map_append, List.mem_cons, List.mem_map]
    rintro (hhead | ⟨u, hu, heq⟩)
    · cases hhead
    · cases heq
      exact hv (hperm.mem_iff.mp hu)
  obtain ⟨link, hadd, hring', -⟩ := listAddAfter_ring hring hp (fun h => by cases h) hfresh
  refine ⟨{ mm with link := link, mapCount := mm.mapCount + 1 }, ?_,
    ⟨l ++ v :: r, ?_, List.perm_middle.trans (hperm.cons v)⟩, ?_, ?_⟩
  · rw [insertVmaStruct, hprev, Option.bind_some, hadd]
    rfl
  · rw [List.map_append, List.map_cons]
    exact hring'
  · exact congrArg (· + 1) h.count
  · exact fun u hu => List.mem_cons_of_mem _ (h.cache u hu)

/-- `find_vma` leaves the list, with a cache that is one of its areas or none. -/
theorem Listed.find {vma : Nat → Vma} {mm : MmStruct} {mm' : Mm} {areas : List Nat}
    {addr : Word} {fuel : Nat} {r : Option Nat} (h : Listed mm areas)
    (hcall : findVma vma fuel mm.toMm addr = some (mm', r)) :
    Listed { mm with toMm := mm' } areas := by
  rcases findVma_cases hcall with ⟨v, hhit, -, rfl⟩ | ⟨hfrom, rfl⟩
  · refine ⟨h.list, h.count, fun u hu => h.cache u ?_⟩
    exact (cacheHit_some hhit).1.trans hu
  · refine ⟨h.list, h.count, fun u hu => ?_⟩
    obtain ⟨vs, hring, hperm⟩ := h.list
    -- the loop answers one of the list, with any fuel that is enough
    have hbig := findFrom_mono (Nat.le_max_left fuel (vs.length + 1)) hfrom
    rw [findFrom_eq addr hring.linked (fun h => by cases h) (by omega)] at hbig
    obtain rfl := Option.some.inj hbig
    cases hfind : vs.find? fun v => addr.toNat < stopOf vma v with
    | none =>
        rw [hfind] at hu
        exact h.cache u hu
    | some v =>
        rw [hfind] at hu
        obtain rfl := Option.some.inj hu
        exact hperm.mem_iff.mp (List.mem_of_find?_eq_some hfind)

/-! ## `mm_destroy` -/

section Destroy

variable {A : SharixSlab.PageAllocator σ} {inUse : σ → Nat → Prop} {C : Prop}
variable (scribble : Nat → LinkMem Addr → ListEntry Addr)

/-- The loop frees the areas of the list, each live when its turn comes, and
    never reads what it has freed. -/
theorem destroyFrom_spec (hA : SharixSlab.Correct A inUse) {vs : List Nat} :
    ∀ {fuel : Nat} {m : LinkMem Addr} {s : SharixSlab.State σ} {live rest : List (Nat × Nat)},
      Ring m .mmapList (vs.map Addr.listLink) → vs.length < fuel →
      SharixSlab.RunInv inUse C ⟨s, live⟩ → live.Perm (vs.map vmaBlock ++ rest) →
      ∃ s', destroyFrom A scribble fuel m s = some s' ∧
        SharixSlab.Uses A inUse s s' live rest := by
  induction vs with
  | nil =>
      intro fuel m s live rest hring hfuel _ hperm
      obtain ⟨fuel, rfl⟩ := Nat.exists_eq_succ_of_ne_zero (Nat.ne_of_gt hfuel)
      have hnext : listNext m .mmapList = some .mmapList := by
        rw [listNext, if_neg (fun h => by cases h), (List.isChain_cons_cons.mp hring.linked).1.1]
      refine ⟨s, ?_, .of_perm hperm⟩
      rw [destroyFrom, hnext]
      rfl
  | cons v vs ih =>
      intro fuel m s live rest hring hfuel hinv hperm
      obtain ⟨fuel, rfl⟩ := Nat.exists_eq_succ_of_ne_zero (Nat.ne_of_gt
        (Nat.lt_of_le_of_lt (Nat.zero_le _) hfuel))
      have hnext : listNext m .mmapList = some (.listLink v) := by
        rw [listNext, if_neg (fun h => by cases h), (List.isChain_cons_cons.mp hring.linked).1.1]
      rw [List.map_cons] at hring
      obtain ⟨m', hdel, hring', -⟩ := listDel_ring (l := []) hring
      have hfirst : live.Perm (vmaBlock v :: (vs.map vmaBlock ++ rest)) := hperm
      obtain ⟨s₁, hkfree, huse⟩ := hinv.kfree hA hfirst
      have hfree : vmaDestroy A v s = some s₁ := hkfree
      -- the area is off the list, so the others do not see what becomes of it
      have hoff : Ring (Function.update m' (.listLink v) (scribble v m')) .mmapList
          (vs.map Addr.listLink) := by
        refine hring'.frame fun a ha => Function.update_of_ne ?_ _ _
        rintro rfl
        rcases List.mem_cons.mp ha with h | h
        · cases h
        · exact (List.nodup_cons.mp (List.nodup_cons.mp hring.nodup).2).1 h
      obtain ⟨s', hrun, hrest⟩ := ih hoff (Nat.lt_of_succ_lt_succ hfuel) (hinv.uses hA huse)
        (.refl _)
      refine ⟨s', ?_, huse.trans hrest⟩
      rw [destroyFrom, hnext, Option.bind_some, if_neg (fun h => by cases h), hdel,
        Option.bind_some, toVma, Option.bind_some, hfree, Option.bind_some]
      exact hrun

/-- It returns, and frees the blocks of the areas and of the `mm` and no other. -/
theorem mmDestroy_spec (hA : SharixSlab.Correct A inUse) {mm : MmStruct} {areas : List Nat}
    {p fuel : Nat} {s : SharixSlab.State σ} {live rest : List (Nat × Nat)}
    (hlist : Listed mm areas) (hfuel : areas.length < fuel)
    (hinv : SharixSlab.RunInv inUse C ⟨s, live⟩) (hperm : live.Perm (mmBlocks areas p ++ rest)) :
    ∃ s', mmDestroy A scribble fuel p mm s = some s' ∧
      SharixSlab.Uses A inUse s s' live rest := by
  obtain ⟨vs, hring, hvs⟩ := hlist.list
  have hfirst : live.Perm (vs.map vmaBlock ++ (p, sizeofMm) :: rest) := by
    refine hperm.trans ?_
    rw [mmBlocks, List.append_assoc]
    exact (hvs.map vmaBlock).symm.append_right _
  obtain ⟨s₁, hrun, huse⟩ := destroyFrom_spec scribble hA hring (hvs.length_eq ▸ hfuel) hinv hfirst
  obtain ⟨s', hfree, hlast⟩ := (hinv.uses hA huse).kfree hA (.refl _)
  refine ⟨s', ?_, huse.trans hlast⟩
  rw [mmDestroy, hrun, Option.bind_some, hfree]

theorem mmDestroy_mono {mm : MmStruct} {p k n : Nat} {s s' : SharixSlab.State σ} (hle : k ≤ n)
    (hk : mmDestroy A scribble k p mm s = some s') :
    mmDestroy A scribble n p mm s = some s' := by
  obtain ⟨s₁, hloop, hrest⟩ := Option.bind_eq_some_iff.mp hk
  have hmore : destroyFrom A scribble n mm.link s = some s₁ := by
    refine fuel_mono (f := fun k x => destroyFrom A scribble k x.1 x.2) (s := (mm.link, s))
      (fun _ => rfl) (fun x => ?_) hle hloop
    refine .bind _ fun le => .ite (.done _) (.bind _ fun m => .bind _ fun v => .bind _ fun s => ?_)
    exact .next (f := fun k x => destroyFrom A scribble k x.1 x.2)
      (Function.update m (.listLink v) (scribble v m), s)
  rw [mmDestroy, hmore, Option.bind_some, hrest]

end Destroy

/-! ## Runs -/

theorem World.blocks_some {h : SharixSlab.World σ} {vma : Nat → Vma} {areas spare : List Nat}
    {p : Nat} {mm : MmStruct} :
    World.blocks ⟨h, vma, some (p, mm), areas, spare⟩
      = mmBlocks areas p ++ spare.map vmaBlock := rfl

section Runs

variable {A : SharixSlab.PageAllocator σ} {inUse : σ → Nat → Prop} {C : Prop}
variable {scribble : Nat → LinkMem Addr → ListEntry Addr}

/-- Every structure in use is a live object, and the list has the areas. -/
structure Inv (inUse : σ → Nat → Prop) (C : Prop) (w : World σ) : Prop where
  heap : SharixSlab.RunInv inUse C w.heap
  holds : Holds w.heap.live w.blocks
  listed : ∀ x, w.mm = some x → Listed x.2 w.areas
  noMm : w.mm = none → w.areas = []

/-- No area is in the list and outside of it. -/
theorem Inv.spare_fresh {w : World σ} (h : Inv inUse C w) {v : Nat} (hv : v ∈ w.spare) :
    v ∉ w.areas := by
  intro hv'
  obtain ⟨rest, hperm⟩ := h.holds
  have hnodup := (hperm.map Prod.fst).nodup_iff.mp (SharixSlab.RunInv.nodup h.heap)
  rw [List.map_append, World.blocks, List.map_append] at hnodup
  have hapart := (List.nodup_append.mp (List.nodup_append.mp hnodup).1).2.2
  refine hapart v ?_ v ?_ rfl
  · rw [List.map_append, List.map_map]
    exact List.mem_append_left _ (List.mem_map.mpr ⟨v, hv', rfl⟩)
  · rw [List.map_map]
    exact List.mem_map.mpr ⟨v, hv, rfl⟩

/-- A new object, first among the live ones and anywhere among the blocks. -/
theorem Holds.new {live blocks blocks' : List (Nat × Nat)} {o : Nat × Nat}
    (h : Holds live blocks) (hperm : (o :: blocks).Perm blocks') :
    Holds (o :: live) blocks' := by
  obtain ⟨rest, hlive⟩ := h
  exact ⟨rest, (hlive.cons o).trans (hperm.append_right rest)⟩

theorem Holds.perm {live blocks blocks' : List (Nat × Nat)} (h : Holds live blocks)
    (hperm : blocks.Perm blocks') : Holds live blocks' := by
  obtain ⟨rest, hlive⟩ := h
  exact ⟨rest, hlive.trans (hperm.append_right rest)⟩

/-- Every call keeps the ledger of who holds which block. -/
theorem inv_step (hA : SharixSlab.Correct A inUse) {w w' : World σ} (h : Inv inUse C w)
    (hstep : Step A inUse scribble w w') : Inv inUse C w' := by
  have hfresh : ∀ {v}, v ∈ w.spare → v ∉ w.areas := h.spare_fresh
  obtain ⟨hheap, hholds, hlisted, hnone⟩ := h
  cases hstep with
  | @other h h' vma vma' mm mm' areas spare hslab hheld hkept =>
      refine ⟨SharixSlab.runInv_step hA hheap hslab, ?_, ?_, ?_⟩
      · cases hkept with
        | none => exact hheld
        | some hrel =>
            rename_i x y
            refine hheld.perm (List.Perm.of_eq ?_)
            show mmBlocks areas x.1 ++ _ = mmBlocks areas y.1 ++ _
            rw [hrel.1]
      · intro y hy
        cases hkept with
        | none => cases hy
        | some hrel =>
            obtain rfl := Option.some.inj hy
            exact (hlisted _ rfl).kept hrel.2
      · rintro rfl
        cases hkept with
        | none => exact hnone rfl
  | @mmCreateNull s s' live vma areas spare m hcall =>
      obtain ⟨⟨o, s₁⟩, hk, hrest⟩ := Option.bind_eq_some_iff.mp hcall
      cases o with
      | some p =>
          obtain ⟨mm, -, hmm⟩ := Option.map_eq_some_iff.mp hrest
          cases hmm
      | none =>
          obtain ⟨-, rfl⟩ := Prod.mk.inj (Option.some.inj hrest)
          exact ⟨SharixSlab.runInv_step hA hheap (.kmallocNull hk), hholds, hlisted, hnone⟩
  | @mmCreate s s' live vma areas spare m p mm hcall =>
      obtain ⟨⟨o, s₁⟩, hk, hrest⟩ := Option.bind_eq_some_iff.mp hcall
      cases o with
      | none => cases hrest
      | some q =>
          obtain ⟨mm₁, hcreate, hmm⟩ := Option.map_eq_some_iff.mp hrest
          obtain ⟨hqm, rfl⟩ := Prod.mk.inj hmm
          obtain ⟨rfl, rfl⟩ := Prod.mk.inj (Option.some.inj hqm)
          obtain rfl := hnone rfl
          refine ⟨SharixSlab.runInv_step hA hheap (.kmalloc hk), hholds.new (.refl _), ?_, ?_⟩
          · intro x hx
            obtain rfl := Option.some.inj hx
            exact mmCreate_listed hcreate
          · exact fun hx => absurd hx (Option.some_ne_none _)
  | @vmaCreateNull s s' live vma vma' mm areas spare vmStart vmEnd vmFlags hcall =>
      obtain ⟨⟨o, s₁⟩, hk, hrest⟩ := Option.map_eq_some_iff.mp hcall
      cases o with
      | some v => cases hrest
      | none =>
          obtain ⟨-, hcopy⟩ := Prod.mk.inj hrest
          obtain ⟨rfl, rfl⟩ := Prod.mk.inj hcopy
          exact ⟨SharixSlab.runInv_step hA hheap (.kmallocNull hk), hholds, hlisted, hnone⟩
  | @vmaCreate s s' live vma vma' mm areas spare vmStart vmEnd vmFlags v hcall =>
      obtain ⟨⟨o, s₁⟩, hk, hrest⟩ := Option.map_eq_some_iff.mp hcall
      cases o with
      | none => cases hrest
      | some u =>
          obtain ⟨hu, hcopy⟩ := Prod.mk.inj hrest
          obtain rfl := Option.some.inj hu
          obtain ⟨rfl, rfl⟩ := Prod.mk.inj hcopy
          refine ⟨SharixSlab.runInv_step hA hheap (.kmalloc hk), hholds.new ?_, hlisted, hnone⟩
          exact List.perm_middle.symm
  | @insert h vma areas spare p mm mm' v fuel hv hcall =>
      refine ⟨hheap, hholds.perm ?_, ?_, fun hx => absurd hx (Option.some_ne_none _)⟩
      · rw [World.blocks_some, World.blocks_some, mmBlocks, mmBlocks, List.map_cons,
          List.cons_append, List.cons_append]
        refine List.Perm.trans ?_ List.perm_middle
        exact List.Perm.append_left _ ((List.perm_cons_erase hv).map vmaBlock)
      · intro x hx
        obtain rfl := Option.some.inj hx
        -- the call that was made may have had less fuel
        have hmore := insertVmaStruct_mono (Nat.le_max_left fuel (areas.length + 1)) hcall
        obtain ⟨mm'', hret, hlist⟩ := (hlisted _ rfl).insert vma (hfresh hv)
          (Nat.lt_of_lt_of_le (Nat.lt_succ_self _) (Nat.le_max_right fuel (areas.length + 1)))
        obtain rfl := Option.some.inj (hmore.symm.trans hret)
        exact hlist
  | @find h vma areas spare p mm mm' addr fuel r hcall =>
      refine ⟨hheap, hholds, ?_, fun hx => absurd hx (Option.some_ne_none _)⟩
      intro x hx
      obtain rfl := Option.some.inj hx
      exact (hlisted _ rfl).find hcall
  | @destroy s s' live vma areas spare p fuel mm hcall =>
      obtain ⟨rest, hperm⟩ := hholds
      rw [World.blocks_some, List.append_assoc] at hperm
      obtain ⟨s₁, hrun, huse⟩ := mmDestroy_spec scribble hA (hlisted _ rfl)
        (Nat.lt_of_lt_of_le (Nat.lt_succ_self _)
          (Nat.le_max_right fuel (areas.length + 1))) hheap hperm
      obtain rfl : s' = s₁ := by
        have hmore := mmDestroy_mono scribble (Nat.le_max_left fuel (areas.length + 1)) hcall
        exact Option.some.inj (hmore.symm.trans hrun)
      have hdiff : (live.diff (mmBlocks areas p)).Perm (spare.map vmaBlock ++ rest) :=
        SharixSlab.perm_diff hperm
      refine ⟨(SharixSlab.RunInv.uses hA hheap huse).perm hdiff.symm, ⟨rest, hdiff⟩,
        fun x hx => absurd hx.symm (Option.some_ne_none _), fun _ => rfl⟩

/-- **NO AREA IS FREED TWICE, NONE IS LEFT**: in every run from `slab_init`, of
    `mm_create`, `vma_create`, `insert_vma_struct`, `find_vma` and `mm_destroy`
    and any other use of the heap, the list has the inserted areas, each once,
    and the cache one of them or none, all of them live objects;
    `insert_vma_struct` returns; and so does `mm_destroy`, whatever becomes of the
    memory that it frees.  It frees live objects only, and what was live before is
    its areas, its `mm`, and what is live after. -/
theorem mm_destroy_frees (hA : SharixSlab.Correct A inUse) {s : SharixSlab.State σ}
    (hobt : s.obtained = []) (hret : s.returned = [])
    (scribble : Nat → LinkMem Addr → ListEntry Addr) (vma : Nat → Vma) :
    ∃ s₀, SharixSlab.slabInit s = some s₀ ∧
      ∀ w, Relation.ReflTransGen (Step A inUse scribble) ⟨⟨s₀, []⟩, vma, none, [], []⟩ w →
        ∀ p mm, w.mm = some (p, mm) →
          (∃ vs : List Nat, Ring mm.link .mmapList (vs.map Addr.listLink) ∧ vs.Perm w.areas) ∧
          mm.mapCount = w.areas.length ∧
          (∀ v, mm.mmapCache = some v → v ∈ w.areas) ∧
          (∀ v ∈ w.areas, vmaBlock v ∈ w.heap.live) ∧
          (∀ v ∈ w.spare, ∀ fuel, w.areas.length < fuel →
            ∃ mm', insertVmaStruct w.vma fuel mm v = some mm') ∧
          ∀ fuel, w.areas.length < fuel → ∃ s' live',
            mmDestroy A scribble fuel p mm w.heap.state = some s' ∧
            Relation.ReflTransGen (SharixSlab.Step A inUse) w.heap ⟨s', live'⟩ ∧
            w.heap.live.Perm (w.areas.map vmaBlock ++ (p, sizeofMm) :: live') := by
  obtain ⟨s₀, hinit, hall⟩ := SharixSlab.slabInit_run hA hobt hret
  refine ⟨s₀, hinit, fun w hrun p mm hmm => ?_⟩
  have hstart : Inv inUse (∀ q, s.pgSlab q = false) ⟨⟨s₀, []⟩, vma, none, [], []⟩ :=
    ⟨hall _ .refl, ⟨[], .refl _⟩, fun x hx => absurd hx.symm (Option.some_ne_none _), fun _ => rfl⟩
  have hw : Inv inUse (∀ q, s.pgSlab q = false) w :=
    run_invariant (I := Inv inUse _) (fun _ _ => inv_step hA) hrun hstart
  have hlist : Listed mm w.areas := hw.listed _ hmm
  obtain ⟨rest, hperm⟩ := hw.holds
  have hblocks : w.blocks = mmBlocks w.areas p ++ w.spare.map vmaBlock := by
    rw [World.blocks, World.mmPart, hmm]
    rfl
  rw [hblocks, List.append_assoc] at hperm
  refine ⟨hlist.list, hlist.count, hlist.cache, fun v hv => ?_, fun v hv fuel hfuel => ?_,
    fun fuel hfuel => ?_⟩
  · refine hperm.mem_iff.mpr (List.mem_append_left _ (List.mem_append_left _ ?_))
    exact List.mem_map_of_mem hv
  · obtain ⟨mm', hret, -⟩ := hlist.insert w.vma (hw.spare_fresh hv) hfuel
    exact ⟨mm', hret⟩
  · obtain ⟨s', hcall, live', hsteps, hrest⟩ := mmDestroy_spec scribble hA hlist hfuel hw.heap hperm
    refine ⟨s', live', hcall, hsteps, hperm.trans ?_⟩
    rw [mmBlocks, List.append_assoc]
    exact List.Perm.append_left _ (hrest.symm.cons _)

end Runs

def demoLink : LinkMem Addr := fun _ => ⟨.null, .null⟩

def demoVma : Nat → Vma := fun _ => ⟨0, 0, 0⟩

/-- The links of what is freed are cleared. -/
def demoScribble : Nat → LinkMem Addr → ListEntry Addr := fun _ _ => ⟨.null, .null⟩

/-- An `mm` with one area, as `check_vma_struct` makes it, and its end. -/
theorem mm_destroy_frees_one :
    ∃ p mm s v vma, Relation.ReflTransGen
        (Step (SharixSlab.demoPages 8) (fun m q => q ∈ m) demoScribble)
        ⟨⟨SharixSlab.demoInit, []⟩, demoVma, none, [], []⟩
        ⟨⟨s, [(v, 24), (p, 20)]⟩, vma, some (p, mm), [v], []⟩ ∧
      ∃ s', mmDestroy (SharixSlab.demoPages 8) demoScribble 2 p mm s = some s' ∧
        Relation.ReflTransGen (SharixSlab.Step (SharixSlab.demoPages 8) fun m q => q ∈ m)
          ⟨s, [(v, 24), (p, 20)]⟩ ⟨s', []⟩ := by
  have hmm : ((mmCreate (SharixSlab.demoPages 8) demoLink SharixSlab.demoInit).bind
      fun r => r.1).isSome := by decide +kernel
  have hv : ((mmCreate (SharixSlab.demoPages 8) demoLink SharixSlab.demoInit).bind
      fun r => (vmaCreate (SharixSlab.demoPages 8) 0 0xff 0 demoVma r.2).bind
        fun r => r.1).isSome := by decide +kernel
  obtain ⟨⟨p, mm⟩, hmm⟩ := Option.isSome_iff_exists.mp hmm
  obtain ⟨⟨o, s₁⟩, hcreate, rfl⟩ := Option.bind_eq_some_iff.mp hmm
  rw [hcreate, Option.bind_some] at hv
  obtain ⟨v, hv⟩ := Option.isSome_iff_exists.mp hv
  obtain ⟨⟨o, vma, s⟩, hvma, rfl⟩ := Option.bind_eq_some_iff.mp hv
  have hstep₁ : Step (SharixSlab.demoPages 8) (fun m q => q ∈ m) demoScribble
      ⟨⟨SharixSlab.demoInit, []⟩, demoVma, none, [], []⟩
      ⟨⟨s₁, [(p, 20)]⟩, demoVma, some (p, mm), [], []⟩ := .mmCreate hcreate
  have hstep₂ : Step (SharixSlab.demoPages 8) (fun m q => q ∈ m) demoScribble
      ⟨⟨s₁, [(p, 20)]⟩, demoVma, some (p, mm), [], []⟩
      ⟨⟨s, [(v, 24), (p, 20)]⟩, vma, some (p, mm), [], [v]⟩ := .vmaCreate hvma
  obtain ⟨s₀, hinit, hall⟩ := mm_destroy_frees SharixSlab.demoPages_eight
    (s := SharixSlab.demoStart) rfl rfl demoScribble demoVma
  obtain rfl := Option.some.inj (SharixSlab.demoInit_eq.symm.trans hinit)
  have hrun₂ := (Relation.ReflTransGen.single hstep₁).tail hstep₂
  obtain ⟨-, -, -, -, hinsert, -⟩ := hall _ hrun₂ p mm rfl
  obtain ⟨mm', hmm'⟩ := hinsert v List.mem_cons_self 1 Nat.one_pos
  have hstep₃ : Step (SharixSlab.demoPages 8) (fun m q => q ∈ m) demoScribble
      ⟨⟨s, [(v, 24), (p, 20)]⟩, vma, some (p, mm), [], [v]⟩
      ⟨⟨s, [(v, 24), (p, 20)]⟩, vma, some (p, mm'), [v], [v].erase v⟩ :=
    .insert List.mem_cons_self hmm'
  rw [List.erase_cons_head] at hstep₃
  have hrun₃ := hrun₂.tail hstep₃
  obtain ⟨-, -, -, -, -, hdestroy⟩ := hall _ hrun₃ p mm' rfl
  obtain ⟨s', live', hcall, hsteps, hperm⟩ := hdestroy 2 Nat.one_lt_two
  have hlen : 2 = live'.length + 2 := hperm.length_eq
  obtain rfl : live' = [] := List.length_eq_zero_iff.mp (by omega)
  exact ⟨p, mm', s, v, vma, hrun₃, s', hcall, hsteps⟩

end SharixMmHeap
