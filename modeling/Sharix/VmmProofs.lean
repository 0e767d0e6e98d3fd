import Sharix.ListProofs
import Sharix.PageTableProofs

/-! # Page faults — `kern/mm/vmm.c`

    `find_vma` looks an address up in the areas of an `mm_struct`, through its
    one-entry cache; `do_pgfault` checks the access against the area and maps
    a page.

    A fault can need two pages, a table and the page itself, and `alloc_page`
    may answer `NULL` for either.  `get_pte` does not look at the answer: it
    clears and enters whatever page `NULL` comes to, and returns a pointer
    into it.  `do_pgfault` does not look either, and maps that page.  So the
    error path that the callers of `get_pte` are written for is taken exactly
    when no answer is `NULL`. -/

namespace SharixVmm

open SharixList SharixPaging

/-! ## Areas -/

/-- The addresses of list entries: `NULL`, `&mm->mmap_list`, and
    `&vma->list_link`. -/
inductive Addr where
  | null
  | mmapList
  | listLink (v : Nat)
deriving DecidableEq, Repr

instance : Nullable Addr := ⟨.null⟩

structure Vma where
  vmStart : Word
  vmEnd : Word
  vmFlags : Word
deriving DecidableEq, Repr

/-- `struct mm_struct`, with the links of its areas. -/
structure Mm where
  link : LinkMem Addr
  mmapCache : Option Nat
  pgdir : Word

def VM_READ : Word := 0x00000001#32
def VM_WRITE : Word := 0x00000002#32
def VM_EXEC : Word := 0x00000004#32
def E_INVAL : Int := 3

/-- `to_struct(le, struct vma_struct, list_link)`. -/
def toVma : Addr → Option Nat
  | .listLink v => some v
  | _ => none

section Model

variable (vma : Nat → Vma)

/-- `while ((le = list_next(le)) != list)`: the first area that ends past
    `addr`. -/
def findFrom (m : LinkMem Addr) (addr : Word) :
    Nat → Addr → Option (Option Nat)
  | 0, _ => none
  | fuel + 1, le => do
      let le ← listNext m le
      if le = .mmapList then return none
      else do
        let v ← toVma le
        if addr < (vma v).vmEnd then return some v
        else findFrom m addr fuel le

/-- The area in the cache, if it contains `addr`. -/
def cacheHit (mm : Mm) (addr : Word) : Option Nat :=
  match mm.mmapCache with
  | some v =>
      if (vma v).vmStart ≤ addr ∧ addr < (vma v).vmEnd then some v else none
  | none => none

def findVma (fuel : Nat) (mm : Mm) (addr : Word) : Option (Mm × Option Nat) :=
  match cacheHit vma mm addr with
  | some v => some ({ mm with mmapCache := some v }, some v)
  | none => do
      let found ← findFrom vma mm.link addr fuel .mmapList
      match found with
      | some v => return ({ mm with mmapCache := some v }, some v)
      | none => return (mm, none)

/-- `switch (error_code & 0x3)`: whether the access falls through to the
    mapping. -/
def accessOk (errorCode vmFlags : Word) : Bool :=
  if errorCode &&& 0x3#32 = 1#32 then false
  else if errorCode &&& 0x3#32 = 0#32 then
    vmFlags &&& (VM_READ ||| VM_EXEC) ≠ 0#32
  else vmFlags &&& VM_WRITE ≠ 0#32

variable (pages : Word) (allocPage : Nat → Word)

/-- `do_pgfault` from `perm = PTE_U` on. -/
def mapFault (pgdir vmFlags addr : Word) (s : State) : Int × State :=
  let perm := if vmFlags &&& VM_WRITE ≠ 0#32 then PTE_U ||| PTE_W else PTE_U
  let addr := addr - addr % PGSIZE
  let r := getPte pages allocPage pgdir addr s
  if r.1 = 0#32 then (E_INVAL, r.2)
  else if r.2.mem r.1 &&& PTE_P ≠ 0#32 then
    let page := pte2page pages (r.2.mem r.1)
    (0, pageInsert pages allocPage pgdir page addr perm r.2)
  else
    let page := allocPage r.2.calls
    let s := { r.2 with calls := r.2.calls + 1 }
    (0, pageInsert pages allocPage pgdir page addr perm s)

/-- `find_vma` of a `NULL` `mm` is `NULL`; of another it may set the cache,
    which the result has beside the returned value. -/
def doPgfault (fuel : Nat) (mm : Option Mm) (errorCode addr : Word)
    (s : State) : Option (Option Mm × Int × State) :=
  match mm with
  | none => some (none, -1, s)
  | some mm => do
      let (mm, found) ← findVma vma fuel mm addr
      match found with
      | none => return (some mm, -1, s)
      | some v =>
          if addr < (vma v).vmStart then return (some mm, -1, s)
          else if accessOk errorCode (vma v).vmFlags = false then
            return (some mm, -1, s)
          else
            return (some mm,
              mapFault pages allocPage mm.pgdir (vma v).vmFlags addr s)

end Model

/-! ## `find_vma` returns -/

/-- On a well-formed list the loop answers the first area that ends past `addr`. -/
theorem findFrom_find (vma : Nat → Vma) {m : LinkMem Addr} (addr : Word)
    {vs : List Nat} : ∀ {fuel : Nat} {le : Addr},
      List.IsChain (Link m) (le :: vs.map Addr.listLink ++ [.mmapList]) →
      le ≠ NULL → vs.length < fuel →
      findFrom vma m addr fuel le = some (vs.find? fun v => addr < (vma v).vmEnd) := by
  induction vs with
  | nil =>
      intro fuel le hchain hle hfuel
      obtain ⟨fuel, rfl⟩ := Nat.exists_eq_succ_of_ne_zero (Nat.ne_of_gt hfuel)
      have hnext : listNext m le = some .mmapList := by
        rw [listNext, if_neg hle, (List.isChain_cons_cons.mp hchain).1.1]
      rw [findFrom, hnext]
      rfl
  | cons v vs ih =>
      intro fuel le hchain hle hfuel
      obtain ⟨fuel, rfl⟩ := Nat.exists_eq_succ_of_ne_zero (Nat.ne_of_gt
        (Nat.lt_of_le_of_lt (Nat.zero_le _) hfuel))
      obtain ⟨hlink, hrest⟩ := List.isChain_cons_cons.mp hchain
      have hnext : listNext m le = some (.listLink v) := by
        rw [listNext, if_neg hle, hlink.1]
      by_cases hv : addr < (vma v).vmEnd
      · rw [List.find?_cons_of_pos (by simpa using hv), findFrom, hnext]
        exact if_pos hv
      · rw [List.find?_cons_of_neg (by simpa using hv),
          ← ih hrest (by intro e; cases e) (Nat.lt_of_succ_lt_succ hfuel),
          findFrom, hnext]
        exact if_neg hv

/-- The list of an `mm` is a ring through its areas, which `fuel` covers. -/
def Listed (fuel : Nat) (mm : Mm) : Prop :=
  ∃ vs : List Nat, Ring mm.link .mmapList (vs.map Addr.listLink) ∧
    vs.length < fuel

theorem findVma_returns (vma : Nat → Vma) {fuel : Nat} {mm : Mm} (addr : Word)
    (h : Listed fuel mm) : ∃ r, findVma vma fuel mm addr = some r := by
  obtain ⟨vs, hring, hfuel⟩ := h
  rw [findVma]
  cases cacheHit vma mm addr with
  | some v => exact ⟨_, rfl⟩
  | none =>
      have hf := findFrom_find vma addr hring.linked (by intro e; cases e) hfuel
      dsimp only
      rw [hf]
      cases vs.find? fun v => decide (addr < (vma v).vmEnd) with
      | none => exact ⟨_, rfl⟩
      | some v => exact ⟨_, rfl⟩

/-- `find_vma` answers from the cache, or what the loop answers, and keeps that
    in the cache. -/
theorem findVma_cases {vma : Nat → Vma} {fuel : Nat} {mm mm' : Mm} {addr : Word}
    {r : Option Nat} (h : findVma vma fuel mm addr = some (mm', r)) :
    (∃ v, cacheHit vma mm addr = some v ∧ r = some v ∧
      mm' = { mm with mmapCache := some v }) ∨
    (findFrom vma mm.link addr fuel .mmapList = some r ∧
      mm' = { mm with mmapCache := r.or mm.mmapCache }) := by
  rw [findVma] at h
  cases hhit : cacheHit vma mm addr with
  | some v =>
      rw [hhit] at h
      obtain ⟨rfl, rfl⟩ := Prod.mk.inj (Option.some.inj h)
      exact .inl ⟨v, rfl, rfl, rfl⟩
  | none =>
      rw [hhit] at h
      obtain ⟨found, hfrom, hret⟩ := Option.bind_eq_some_iff.mp h
      cases found with
      | none =>
          obtain ⟨rfl, rfl⟩ := Prod.mk.inj (Option.some.inj hret)
          exact .inr ⟨hfrom, rfl⟩
      | some v =>
          obtain ⟨rfl, rfl⟩ := Prod.mk.inj (Option.some.inj hret)
          exact .inr ⟨hfrom, rfl⟩

/-- It writes no field but the cache. -/
theorem findVma_fields {vma : Nat → Vma} {fuel : Nat} {mm mm' : Mm} {addr : Word}
    {r : Option Nat} (h : findVma vma fuel mm addr = some (mm', r)) :
    mm'.link = mm.link ∧ mm'.pgdir = mm.pgdir := by
  rcases findVma_cases h with ⟨v, -, -, rfl⟩ | ⟨-, rfl⟩
  · exact ⟨rfl, rfl⟩
  · exact ⟨rfl, rfl⟩

end SharixVmm
