import Sharix.ListProofs
import Mathlib.Algebra.Group.Nat.Defs
import Mathlib.Logic.Function.Basic

/-! # The buddy page allocator — `kern/mm/buddy_pmm.c`, statement by statement

    A `struct Page *` is the page's index in `pages`; its `page_link` and the
    `free_list` heads are the only `list_entry_t` objects the allocator
    touches, so a link address is a head, a page's link or `NULL`.  Every list
    operation is the one of `list.h`: a dereference of `NULL` leaves the whole
    call without a result.

    `nr_free` is a natural number: it counts blocks of struct pages, of which
    a 32-bit address space holds far fewer than `2^32`. -/

namespace SharixBuddy

open SharixList

/-- The addresses of list entries: `NULL`, `&free_list(i)`, and
    `&pages[p].page_link`. -/
inductive Addr where
  | null
  | freeList (i : Nat)
  | pageLink (p : Nat)
deriving DecidableEq, Repr

instance : Nullable Addr := ⟨.null⟩

@[simp] theorem freeList_ne_null (i : Nat) : Addr.freeList i ≠ NULL := by
  intro h
  cases h

@[simp] theorem pageLink_ne_null (p : Nat) : Addr.pageLink p ≠ NULL := by
  intro h
  cases h

def MAX_ORDER : Nat := 10

/-- The static `free_area` and the fields of the `pages` array. -/
structure State where
  link : LinkMem Addr
  nrFree : Nat → Nat
  flags : Nat → Nat
  order : Nat → Nat

/-- `to_struct(le, struct Page, page_link)`, defined where `le` is the link of
    a page. -/
def toPage : Addr → Option Nat
  | .pageLink p => some p
  | _ => none

/-! ## `buddy_init`, `buddy_init_memmap` -/

/-- `list_init(&free_list(i)); nr_free(i) = 0`. -/
def initFreeList (s : State) (i : Nat) : Option State := do
  let link ← listInit s.link (.freeList i)
  return { s with link := link, nrFree := Function.update s.nrFree i 0 }

/-- The loop runs over `i < MAX_ORDER`, one short of the array. -/
def buddyInit (s : State) : Option State :=
  (List.range MAX_ORDER).foldlM initFreeList s

/-- `for (; p != base + n; p++) p->flags = p->order = 0`. -/
def clearPages (base : Nat) : Nat → State → State
  | 0, s => s
  | n + 1, s => clearPages (base + 1) n
      { s with
        flags := Function.update s.flags base 0
        order := Function.update s.order base 0 }

/-- `p->order = order; list_add(&free_list(order), ..); nr_free(order)++`. -/
def putBlock (p order : Nat) (s : State) : Option State := do
  let s := { s with order := Function.update s.order p order }
  let link ← listAdd s.link (.freeList order) (.pageLink p)
  return { s with
    link := link
    nrFree := Function.update s.nrFree order (s.nrFree order + 1) }

/-- The inner loop, `while (n >= order_size)`. -/
def initBlocks (order p n : Nat) (s : State) : Option (Nat × Nat × State) :=
  if 2 ^ order ≤ n then do
    let s ← putBlock p order s
    initBlocks order (p + 2 ^ order) (n - 2 ^ order) s
  else
    some (p, n, s)
termination_by n
decreasing_by
  have := Nat.two_pow_pos order
  omega

/-- The outer loop, `while (n != 0)`, from `order` down.  At order 0 the inner
    loop takes every page that is left. -/
def initOrders : Nat → Nat → Nat → State → Option State
  | 0, p, n, s =>
      if n = 0 then some s
      else do
        let (_, _, s) ← initBlocks 0 p n s
        return s
  | order + 1, p, n, s =>
      if n = 0 then some s
      else do
        let (p, n, s) ← initBlocks (order + 1) p n s
        initOrders order p n s

def buddyInitMemmap (base n : Nat) (s : State) : Option State :=
  initOrders MAX_ORDER base n (clearPages base n s)

/-! ## `buddy_alloc_pages` -/

/-- `while (i > order)`: split the block at `page`, giving the upper half to
    the list below. -/
def splitBlock (order page : Nat) : Nat → State → Option State
  | 0, s => some s
  | i + 1, s =>
      if order < i + 1 then do
        let s ← putBlock (page + 2 ^ i) i s
        splitBlock order page i s
      else some s

/-- `for (i = order; i <= MAX_ORDER; i++)`. -/
def allocFrom (order i : Nat) (s : State) : Option (State × Option Nat) :=
  if i ≤ MAX_ORDER then do
    if ← listEmpty s.link (.freeList i) then
      allocFrom order (i + 1) s
    else do
      let le ← listNext s.link (.freeList i)
      let s := { s with nrFree := Function.update s.nrFree i (s.nrFree i - 1) }
      let link ← listDel s.link le
      let page ← toPage le
      let s ← splitBlock order page i { s with link := link }
      return (s, some page)
  else
    return (s, none)
termination_by MAX_ORDER + 1 - i
decreasing_by omega

def buddyAllocPagesSub (order : Nat) (s : State) :
    Option (State × Option Nat) :=
  allocFrom order order s

/-- The loop of `getorder`; `(size_t)-1` when no order is large enough. -/
def getorderFrom (n order : Nat) : Nat :=
  if order ≤ MAX_ORDER then
    if n ≤ 2 ^ order then order else getorderFrom n (order + 1)
  else 2 ^ 32 - 1
termination_by MAX_ORDER + 1 - order
decreasing_by omega

def getorder (n : Nat) : Nat := getorderFrom n 0

/-! ## `buddy_free_pages` -/

/-- `while (i < MAX_ORDER)`.  Every path through the inner `while (1)` breaks
    in its first pass, so only the first block of `free_list(i)` is looked
    at. -/
def mergeFrom (i p : Nat) (s : State) : Option (Nat × Nat × State) :=
  if i < MAX_ORDER then do
    let le ← listNext s.link (.freeList i)
    if le = .freeList i then
      return (i, p, s)
    else do
      let buddy ← toPage le
      let _ ← listNext s.link le
      let pSize := 2 ^ s.order p
      let buddySize := 2 ^ s.order buddy
      if p = buddy + buddySize then do
        let link ← listDel s.link (.pageLink buddy)
        mergeFrom (i + 1) buddy
          { s with
            link := link
            nrFree := Function.update s.nrFree i (s.nrFree i - 1)
            order := Function.update s.order buddy (s.order buddy + 1) }
      else if p + pSize = buddy then do
        let link ← listDel s.link (.pageLink buddy)
        mergeFrom (i + 1) p
          { s with
            link := link
            nrFree := Function.update s.nrFree i (s.nrFree i - 1)
            order := Function.update s.order p (s.order p + 1) }
      else
        return (i, p, s)
  else
    return (i, p, s)
termination_by MAX_ORDER - i
decreasing_by all_goals omega

def buddyFreePagesSub (base order : Nat) (s : State) : Option State := do
  let s := { s with order := Function.update s.order base order }
  let (i, p, s) ← mergeFrom order base s
  let link ← listAdd s.link (.freeList i) (.pageLink p)
  return { s with
    link := link
    nrFree := Function.update s.nrFree i (s.nrFree i + 1) }

/-- `while (n >= size) { i++; size <<= 1; }`. -/
def orderAbove (n i : Nat) : Nat :=
  if 2 ^ i ≤ n then orderAbove n (i + 1) else i
termination_by n - i
decreasing_by
  have := Nat.lt_two_pow_self (n := i)
  omega

/-- `while (n < size) { i--; size >>= 1; }`, for `n != 0`. -/
def orderBelow (n : Nat) : Nat → Nat
  | 0 => 0
  | i + 1 => if n < 2 ^ (i + 1) then orderBelow n i else i + 1

/-- `while (n != 0)`: free the run piece by piece, largest first. -/
def freeRun (base n i : Nat) (s : State) : Option State :=
  if n = 0 then some s
  else do
    let i := orderBelow n i
    let s := { s with order := Function.update s.order base i }
    let s ← buddyFreePagesSub base i s
    freeRun (base + 2 ^ i) (n - 2 ^ i) i s
termination_by n
decreasing_by exact Nat.sub_lt (Nat.pos_of_ne_zero ‹_›) (Nat.two_pow_pos _)

def buddyFreePages (base n : Nat) (s : State) : Option State :=
  if n = 1 then buddyFreePagesSub base 0 s
  else freeRun base n (orderAbove n 0) s

/-- `order_size` is computed only where the source reads it: for
    `order = (size_t)-1` there is no page and no use of it. -/
def buddyAllocPages (n : Nat) (s : State) : Option (State × Option Nat) :=
  if n = 0 then some (s, none)
  else do
    let order := getorder n
    let (s, page) ← buddyAllocPagesSub order s
    match page with
    | none => return (s, none)
    | some p =>
        let orderSize := 2 ^ order
        if n ≠ orderSize then do
          let s ← buddyFreePages (p + n) (orderSize - n) s
          return (s, some p)
        else
          return (s, some p)

end SharixBuddy
