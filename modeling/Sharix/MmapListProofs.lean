import Mathlib.Data.List.Perm.Basic
import Mathlib.Order.Nat
import Sharix.RunProofs
import Sharix.IntervalProofs
import Sharix.VmmProofs

/-! # `mmap_list` — `kern/mm/vmm.c`

    `insert_vma_struct` keeps the areas of an `mm` in the order of their
    starts, so `find_vma` stops at the right one; the area in the cache is
    always one of the list.  The areas are non-empty and disjoint, as the
    callers make them. -/

namespace SharixVmm

open SharixList SharixPaging SharixInterval SharixRun

/-! ## The model -/

/-- `struct mm_struct` with `map_count`.  The areas counted are structures of
    24 bytes at addresses of their own, so the `int` has room. -/
structure MmStruct extends Mm where
  mapCount : Nat

/-- `mm_create`, where `kmalloc` has room. -/
def mmCreate (m : LinkMem Addr) : Option MmStruct :=
  (listInit m .mmapList).map fun link => ⟨⟨link, none, 0#32⟩, 0⟩

section Model

variable (vma : Nat → Vma)

/-- The loop of `insert_vma_struct`; `le` is `le_prev` at its head. -/
def prevFrom (m : LinkMem Addr) (v : Nat) : Nat → Addr → Option Addr
  | 0, _ => none
  | fuel + 1, lePrev =>
      (listNext m lePrev).bind fun le =>
        if le = .mmapList then some lePrev
        else (toVma le).bind fun mmapPrev =>
          if (vma mmapPrev).vmStart > (vma v).vmStart then some lePrev
          else prevFrom m v fuel le

def insertVmaStruct (fuel : Nat) (mm : MmStruct) (v : Nat) : Option MmStruct :=
  (prevFrom vma mm.link v fuel .mmapList).bind fun lePrev =>
    (listAddAfter mm.link lePrev (.listLink v)).map fun link =>
      { mm with link := link, mapCount := mm.mapCount + 1 }

end Model

/-! ## Areas as intervals -/

variable {vma : Nat → Vma}

def startOf (vma : Nat → Vma) (v : Nat) : Nat := (vma v).vmStart.toNat

def stopOf (vma : Nat → Vma) (v : Nat) : Nat := (vma v).vmEnd.toNat

/-- Non-empty areas on a well-formed list in their order, and a cache with one
    of them or none. -/
structure MmOk (vma : Nat → Vma) (mm : Mm) (areas : List Nat) : Prop where
  list : ∃ vs : List Nat, Ring mm.link .mmapList (vs.map Addr.listLink) ∧
    vs.Pairwise (Before (startOf vma) (stopOf vma)) ∧ vs.Perm areas
  nonEmpty : ∀ v ∈ areas, startOf vma v < stopOf vma v
  cache : ∀ v, mm.mmapCache = some v → v ∈ areas

theorem mmCreate_ok (m : LinkMem Addr) :
    ∃ mm, mmCreate m = some mm ∧ MmOk vma mm.toMm [] ∧ mm.mapCount = 0 := by
  obtain ⟨link, hinit, hring, -⟩ := listInit_ring m (h := Addr.mmapList)
    (fun h => by cases h)
  refine ⟨_, by rw [mmCreate, hinit]; rfl, ?_, rfl⟩
  exact ⟨⟨[], hring, List.Pairwise.nil, List.Perm.refl _⟩,
    fun v hv => absurd hv List.not_mem_nil, fun v hv => by cases hv⟩

/-! ## `find_vma` -/

/-- The loop answers the first area that ends past `addr`. -/
theorem findFrom_eq {m : LinkMem Addr} (addr : Word) {vs : List Nat} {fuel : Nat} {le : Addr}
    (hchain : List.IsChain (Link m) (le :: vs.map Addr.listLink ++ [.mmapList]))
    (hle : le ≠ NULL) (hfuel : vs.length < fuel) :
    findFrom vma m addr fuel le = some (vs.find? fun v => addr.toNat < stopOf vma v) :=
  findFrom_find vma addr hchain hle hfuel

theorem findFrom_mono {m : LinkMem Addr} {addr : Word} {le : Addr}
    {r : Option Nat} {k n : Nat} (hle : k ≤ n)
    (hk : findFrom vma m addr k le = some r) :
    findFrom vma m addr n le = some r := by
  refine fuel_mono (fun _ => rfl) (fun le => ?_) hle hk
  exact .bind _ fun a => .ite (.done _) (.bind _ fun v => .ite (.done _) (.next a))

theorem findVma_mono {mm mm' : Mm} {addr : Word} {r : Option Nat} {k n : Nat}
    (hle : k ≤ n) (hk : findVma vma k mm addr = some (mm', r)) :
    findVma vma n mm addr = some (mm', r) := by
  rw [findVma] at hk ⊢
  cases hhit : cacheHit vma mm addr with
  | some v => rwa [hhit] at hk
  | none =>
      rw [hhit] at hk
      obtain ⟨found, hf, hrest⟩ := Option.bind_eq_some_iff.mp hk
      exact Option.bind_eq_some_iff.mpr ⟨found, findFrom_mono hle hf, hrest⟩

theorem cacheHit_some {mm : Mm} {addr : Word} {v : Nat}
    (h : cacheHit vma mm addr = some v) :
    mm.mmapCache = some v ∧
      Contains (startOf vma) (stopOf vma) v addr.toNat := by
  rw [cacheHit] at h
  cases hc : mm.mmapCache with
  | none =>
      rw [hc] at h
      cases h
  | some u =>
      rw [hc] at h
      dsimp only at h
      split at h
      · rename_i hin
        obtain rfl := Option.some.inj h
        exact ⟨rfl, BitVec.le_def.mp hin.1, BitVec.lt_def.mp hin.2⟩
      · cases h

/-- Whatever area is in the cache, the answer is the one of the list. -/
theorem findVma_answer {mm : Mm} {areas : List Nat} (h : MmOk vma mm areas)
    (addr : Word) :
    ∃ r, Answer (startOf vma) (stopOf vma) areas addr.toNat r ∧
      ∀ cache, (∀ v, cache = some v → v ∈ areas) →
        ∀ fuel, areas.length < fuel →
          findVma vma fuel { mm with mmapCache := cache } addr
            = some ({ mm with mmapCache := r.or cache }, r) := by
  obtain ⟨vs, hring, hord, hperm⟩ := h.list
  have hne : ∀ v ∈ vs, startOf vma v < stopOf vma v :=
    fun v hv => h.nonEmpty v (hperm.mem_iff.mp hv)
  refine ⟨_, answer_perm hperm (answer_find hne hord addr.toNat), ?_⟩
  intro cache hcache fuel hfuel
  have hscan : findFrom vma mm.link addr fuel .mmapList = _ :=
    findFrom_eq addr hring.linked (fun h => by cases h) (hperm.length_eq ▸ hfuel)
  rw [findVma]
  cases hhit : cacheHit vma { mm with mmapCache := cache } addr with
  | some v =>
      -- the areas are apart, so the list has no other one at `addr`
      obtain ⟨hv, hin⟩ := cacheHit_some hhit
      have hfind := find_contains hord (hperm.mem_iff.mpr (hcache v hv)) hin
      rw [hfind]
      rfl
  | none =>
      dsimp only
      rw [hscan]
      cases vs.find? fun v => addr.toNat < stopOf vma v with
      | none => rfl
      | some v => rfl

/-- An answered area is one of the areas. -/
theorem answer_mem {areas : List Nat} {x : Nat} {r : Option Nat}
    (h : Answer (startOf vma) (stopOf vma) areas x r) :
    ∀ v, r = some v → v ∈ areas := by
  rintro v rfl
  exact h.1

/-- `find_vma` keeps the `mm` in order, with whatever fuel it has returned. -/
theorem MmOk.findVma {mm mm' : Mm} {areas : List Nat} (h : MmOk vma mm areas)
    {fuel : Nat} {addr : Word} {r : Option Nat}
    (hcall : findVma vma fuel mm addr = some (mm', r)) : MmOk vma mm' areas := by
  obtain ⟨r', hr', hall⟩ := findVma_answer h addr
  -- more fuel changes nothing
  have hbig := hall mm.mmapCache h.cache (max fuel (areas.length + 1))
    (by omega)
  have hmono := findVma_mono (Nat.le_max_left fuel (areas.length + 1)) hcall
  obtain ⟨rfl, rfl⟩ := Prod.mk.inj (Option.some.inj (hbig.symm.trans hmono))
  refine ⟨h.list, h.nonEmpty, fun v hv => ?_⟩
  cases r' with
  | none => exact h.cache v hv
  | some u => exact answer_mem hr' v hv

/-! ## `insert_vma_struct` -/

/-- The loop ends behind the last area that does not start after the new
    one. -/
theorem prevFrom_split {m : LinkMem Addr} {v : Nat} {us : List Nat} :
    ∀ {fuel : Nat} {le : Addr},
      List.IsChain (Link m) (le :: us.map Addr.listLink ++ [.mmapList]) →
      le ≠ NULL → us.length < fuel →
      ∃ l r l' p, us = l ++ r ∧ (∀ u ∈ l, startOf vma u ≤ startOf vma v) ∧
        (∀ u ∈ r.head?, startOf vma v < startOf vma u) ∧
        le :: l.map Addr.listLink = l' ++ [p] ∧
        prevFrom vma m v fuel le = some p := by
  induction us with
  | nil =>
      intro fuel le hchain hle hfuel
      obtain ⟨fuel, rfl⟩ := Nat.exists_eq_succ_of_ne_zero (Nat.ne_of_gt hfuel)
      have hnext : listNext m le = some .mmapList := by
        rw [listNext, if_neg hle, (List.isChain_cons_cons.mp hchain).1.1]
      refine ⟨[], [], [], le, rfl, fun u hu => absurd hu List.not_mem_nil,
        fun u hu => ?_, rfl, ?_⟩
      · cases hu
      · rw [prevFrom, hnext]
        rfl
  | cons u us ih =>
      intro fuel le hchain hle hfuel
      obtain ⟨fuel, rfl⟩ := Nat.exists_eq_succ_of_ne_zero (Nat.ne_of_gt
        (Nat.lt_of_le_of_lt (Nat.zero_le _) hfuel))
      obtain ⟨hlink, hrest⟩ := List.isChain_cons_cons.mp hchain
      have hnext : listNext m le = some (.listLink u) := by
        rw [listNext, if_neg hle, hlink.1]
      by_cases hlt : (vma u).vmStart > (vma v).vmStart
      · refine ⟨[], u :: us, [], le, rfl,
          fun x hx => absurd hx List.not_mem_nil, fun x hx => ?_, rfl, ?_⟩
        · obtain rfl := Option.some.inj hx
          exact BitVec.lt_def.mp hlt
        · rw [prevFrom, hnext]
          exact if_pos hlt
      · obtain ⟨l, r, l', p, rfl, hl, hr, hp, hrun⟩ := ih hrest
          (by intro e; cases e) (Nat.lt_of_succ_lt_succ hfuel)
        refine ⟨u :: l, r, le :: l', p, rfl, fun x hx => ?_, hr, ?_, ?_⟩
        · rcases List.mem_cons.mp hx with rfl | hx
          · exact Nat.not_lt.mp fun h => hlt (BitVec.lt_def.mpr h)
          · exact hl x hx
        · rw [List.map_cons, hp, List.cons_append]
        · rw [prevFrom, hnext]
          exact (if_neg hlt).trans hrun

theorem prevFrom_mono {m : LinkMem Addr} {v : Nat} {le p : Addr} {k n : Nat}
    (hle : k ≤ n) (hk : prevFrom vma m v k le = some p) :
    prevFrom vma m v n le = some p := by
  refine fuel_mono (fun _ => rfl) (fun le => ?_) hle hk
  exact .bind _ fun a => .ite (.done _) (.bind _ fun u => .ite (.done _) (.next a))

/-- A new area, not empty, without a common address with the others. -/
structure NewArea (vma : Nat → Vma) (areas : List Nat) (v : Nat) : Prop where
  fresh : v ∉ areas
  nonEmpty : startOf vma v < stopOf vma v
  apart : ∀ u ∈ areas, Apart (startOf vma) (stopOf vma) v u

theorem MmOk.insert {mm : MmStruct} {areas : List Nat}
    (h : MmOk vma mm.toMm areas) {v : Nat} (hv : NewArea vma areas v)
    {fuel : Nat} (hfuel : areas.length < fuel) :
    ∃ mm', insertVmaStruct vma fuel mm v = some mm' ∧
      MmOk vma mm'.toMm (v :: areas) ∧ mm'.mapCount = mm.mapCount + 1 := by
  obtain ⟨vs, hring, hord, hperm⟩ := h.list
  obtain ⟨l, r, l', p, rfl, hl, hr, hp, hprev⟩ := @prevFrom_split vma _ v
    vs fuel _ hring.linked (fun h => by cases h) (hperm.length_eq ▸ hfuel)
  rw [List.map_append] at hring
  have hfresh : Addr.listLink v ∉
      Addr.mmapList :: (l.map Addr.listLink ++ r.map Addr.listLink) := by
    intro hmem
    rcases List.mem_cons.mp hmem with h | hmem
    · cases h
    · rw [← List.map_append] at hmem
      obtain ⟨u, hu, heq⟩ := List.mem_map.mp hmem
      cases heq
      exact hv.fresh (hperm.mem_iff.mp hu)
  obtain ⟨link, hadd, hring', -⟩ := listAddAfter_ring hring hp
    (fun h => by cases h) hfresh
  refine ⟨{ mm with link := link, mapCount := mm.mapCount + 1 }, ?_,
    ⟨⟨l ++ v :: r, ?_, ?_, ?_⟩, ?_, ?_⟩, rfl⟩
  · rw [insertVmaStruct, hprev, Option.bind_some, hadd]
    rfl
  · rw [List.map_append, List.map_cons]
    exact hring'
  · refine before_insert hord (fun u hu => ?_) (fun u hu => ?_) hl hr
    · rcases List.mem_cons.mp hu with rfl | hu
      · exact hv.nonEmpty
      · exact h.nonEmpty u (hperm.mem_iff.mp hu)
    · exact hv.apart u (hperm.mem_iff.mp hu)
  · exact List.perm_middle.trans (hperm.cons v)
  · intro u hu
    rcases List.mem_cons.mp hu with rfl | hu
    · exact hv.nonEmpty
    · exact h.nonEmpty u hu
  · exact fun u hu => List.mem_cons_of_mem _ (h.cache u hu)

/-! ## Runs -/

/-- The `mm`, and the areas inserted into it. -/
structure World where
  mm : MmStruct
  areas : List Nat

inductive Step (vma : Nat → Vma) : World → World → Prop where
  | insert {mm mm' : MmStruct} {areas : List Nat} {v fuel : Nat} :
      NewArea vma areas v → insertVmaStruct vma fuel mm v = some mm' →
      Step vma ⟨mm, areas⟩ ⟨mm', v :: areas⟩
  | find {mm : MmStruct} {mm' : Mm} {areas : List Nat} {addr : Word}
      {fuel : Nat} {r : Option Nat} :
      findVma vma fuel mm.toMm addr = some (mm', r) →
      Step vma ⟨mm, areas⟩ ⟨{ mm with toMm := mm' }, areas⟩

structure RunInv (vma : Nat → Vma) (w : World) : Prop where
  ok : MmOk vma w.mm.toMm w.areas
  nodup : w.areas.Nodup
  count : w.mm.mapCount = w.areas.length

theorem runInv_step {w w' : World} (h : RunInv vma w) (hstep : Step vma w w') :
    RunInv vma w' := by
  cases hstep with
  | @insert mm mm' areas v fuel hnew hcall =>
      obtain ⟨mm'', hret, hok, hcount⟩ := h.ok.insert hnew
        (Nat.lt_of_lt_of_le (Nat.lt_succ_self _)
          (Nat.le_max_right fuel (areas.length + 1)))
      -- the call that was made may have had less fuel
      have hsame : mm'' = mm' := by
        obtain ⟨p, hprev, hrest⟩ := Option.bind_eq_some_iff.mp hcall
        have hmore := prevFrom_mono (Nat.le_max_left fuel (areas.length + 1))
          hprev
        rw [insertVmaStruct, hmore, Option.bind_some, hrest] at hret
        exact (Option.some.inj hret).symm
      subst hsame
      refine ⟨hok, List.nodup_cons.mpr ⟨hnew.fresh, h.nodup⟩, ?_⟩
      have hcount' : mm''.mapCount = mm.mapCount + 1 := hcount
      have hold : mm.mapCount = areas.length := h.count
      rw [List.length_cons, hcount', hold]
  | find hcall =>
      exact ⟨h.ok.findVma hcall, h.nodup, h.count⟩

/-- **THE LIST, THE COUNT AND THE ANSWERS**: in every run from `mm_create` the
    list has the inserted areas, each once, in the order of their starts, and
    `map_count` counts them; the calls return; and `find_vma` answers the
    area with the address or the next one, the same with any of the areas in
    the cache, such as the one that is there, and with none. -/
theorem find_vma_refines (vma : Nat → Vma) (m : LinkMem Addr) :
    ∃ mm₀, mmCreate m = some mm₀ ∧
      ∀ w, Relation.ReflTransGen (Step vma) ⟨mm₀, []⟩ w →
        (∃ vs : List Nat, Ring w.mm.link .mmapList (vs.map Addr.listLink) ∧
          vs.Pairwise (fun u v => (vma u).vmStart < (vma v).vmStart) ∧
          vs.Nodup ∧ vs.Perm w.areas) ∧
        w.mm.mapCount = w.areas.length ∧
        (∀ v, w.mm.mmapCache = some v → v ∈ w.areas) ∧
        (∀ v, NewArea vma w.areas v → ∀ fuel, w.areas.length < fuel →
          ∃ mm', insertVmaStruct vma fuel w.mm v = some mm') ∧
        ∀ addr, ∃ r,
          Answer (startOf vma) (stopOf vma) w.areas addr.toNat r ∧
          ∀ cache, (∀ v, cache = some v → v ∈ w.areas) →
            ∀ fuel, w.areas.length < fuel →
              findVma vma fuel { w.mm.toMm with mmapCache := cache } addr
                = some ({ w.mm.toMm with mmapCache := r.or cache }, r) := by
  obtain ⟨mm₀, hcreate, hok, hcount⟩ := @mmCreate_ok vma m
  refine ⟨mm₀, hcreate, fun w hrun => ?_⟩
  have hw : RunInv vma w := run_invariant (I := RunInv vma)
    (fun _ _ => runInv_step) hrun ⟨hok, List.nodup_nil, hcount⟩
  refine ⟨?_, hw.count, hw.ok.cache, ?_, fun addr => findVma_answer hw.ok addr⟩
  · obtain ⟨vs, hring, hord, hperm⟩ := hw.ok.list
    refine ⟨vs, hring, ?_, hperm.nodup_iff.mpr hw.nodup, hperm⟩
    refine hord.imp_of_mem ?_
    intro u v hu _ hbefore
    have hu' := hw.ok.nonEmpty u (hperm.mem_iff.mp hu)
    exact BitVec.lt_def.mpr (Nat.lt_of_lt_of_le hu' hbefore)
  · intro v hv fuel hfuel
    obtain ⟨mm', hret, -⟩ := hw.ok.insert hv hfuel
    exact ⟨mm', hret⟩

end SharixVmm
