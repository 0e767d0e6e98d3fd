import Mathlib.Data.List.Chain
import Mathlib.Data.List.Nodup
import Mathlib.Logic.Function.Basic

/-! # Circular lists — `libs/list.h` over an arbitrary address type

    Every kernel list is a ring of `list_entry_t` threaded through a head.
    The operations below are the statements of `list.h`, one store at a time;
    a load or a store through `NULL` has no result.

    * `Ring m h xs`: from the head `h`, `next` meets exactly the nodes `xs`
      before it returns to `h`, and `prev` is inverse to `next`;
    * `Rings m hd P L`: a family of rings that share no node.

    The rules state what one operation does to one ring, then lift it to a
    family: the ring it names changes, the others and the rest of memory do
    not. -/

namespace SharixList

/-- An address type with a `NULL`. -/
class Nullable (A : Type) where
  null : A

/-- The null pointer. -/
abbrev NULL {A : Type} [Nullable A] : A := Nullable.null

/-- `struct list_entry`. -/
structure ListEntry (A : Type) where
  prev : A
  next : A
deriving DecidableEq, Repr

/-- The link fields of memory, by address. -/
abbrev LinkMem (A : Type) := A → ListEntry A

variable {A : Type}

/-! ## The operations of `list.h` -/

section Operations

variable [DecidableEq A] [Nullable A]

/-- `p->next`. -/
def listNext (m : LinkMem A) (p : A) : Option A :=
  if p = NULL then none else some (m p).next

/-- `p->prev`. -/
def listPrev (m : LinkMem A) (p : A) : Option A :=
  if p = NULL then none else some (m p).prev

/-- The memory after `p->next = v`. -/
def setNext (m : LinkMem A) (p v : A) : LinkMem A := fun a =>
  { m a with next := if a = p then v else (m a).next }

/-- The memory after `p->prev = v`. -/
def setPrev (m : LinkMem A) (p v : A) : LinkMem A := fun a =>
  { m a with prev := if a = p then v else (m a).prev }

/-- `p->next = v`. -/
def storeNext (m : LinkMem A) (p v : A) : Option (LinkMem A) :=
  if p = NULL then none else some (setNext m p v)

/-- `p->prev = v`. -/
def storePrev (m : LinkMem A) (p v : A) : Option (LinkMem A) :=
  if p = NULL then none else some (setPrev m p v)

def listInit (m : LinkMem A) (phead : A) : Option (LinkMem A) := do
  let m ← storeNext m phead phead
  storePrev m phead phead

def listAddAfter (m : LinkMem A) (pcur pnode : A) : Option (LinkMem A) := do
  let next ← listNext m pcur
  let m ← storePrev m next pnode
  let next ← listNext m pcur
  let m ← storeNext m pnode next
  let m ← storePrev m pnode pcur
  storeNext m pcur pnode

def listAdd (m : LinkMem A) (pcur pnode : A) : Option (LinkMem A) :=
  listAddAfter m pcur pnode

def listDel (m : LinkMem A) (pcur : A) : Option (LinkMem A) := do
  let prev ← listPrev m pcur
  let next ← listNext m pcur
  let m ← storeNext m prev next
  let next ← listNext m pcur
  let prev ← listPrev m pcur
  storePrev m next prev

def listEmpty (m : LinkMem A) (phead : A) : Option Bool := do
  let next ← listNext m phead
  return next = phead

/-! ## What the stores come to -/

/-- The memory after `list_add_after`: only `n`, `p` and the old successor of
    `p` are written. -/
def addedAfter (m : LinkMem A) (p n : A) : LinkMem A := fun a =>
  { prev := if a = n then p else if a = (m p).next then n else (m a).prev
    next := if a = p then n else if a = n then (m p).next else (m a).next }

/-- `list_add_after` faults exactly on a `NULL` argument or successor. -/
theorem listAddAfter_eq (m : LinkMem A) (p n : A) :
    listAddAfter m p n
      = if p = NULL ∨ (m p).next = NULL ∨ n = NULL then none
        else some (addedAfter m p n) := by
  by_cases hp : p = NULL
  · simp [listAddAfter, listNext, hp]
  by_cases hx : (m p).next = NULL
  · simp [listAddAfter, listNext, storePrev, hp, hx]
  by_cases hn : n = NULL
  · simp [listAddAfter, listNext, storePrev, storeNext, hp, hx, hn]
  rw [if_neg (by simp [hp, hx, hn])]
  simp only [listAddAfter, listNext, storePrev, storeNext, hp, hx, hn,
    if_false, Option.bind_eq_bind, Option.bind_some, setPrev]
  rfl

/-- The memory after `list_del`: only the two neighbours are written. -/
def deleted (m : LinkMem A) (x : A) : LinkMem A := fun a =>
  { prev := if a = (m x).next then (m x).prev else (m a).prev
    next := if a = (m x).prev then (m x).next else (m a).next }

/-- `list_del` faults exactly on a `NULL` argument or neighbour. -/
theorem listDel_eq (m : LinkMem A) (x : A) :
    listDel m x
      = if x = NULL ∨ (m x).prev = NULL ∨ (m x).next = NULL then none
        else some (deleted m x) := by
  by_cases hx : x = NULL
  · simp [listDel, listPrev, hx]
  by_cases hp : (m x).prev = NULL
  · simp [listDel, listPrev, listNext, storeNext, hx, hp]
  -- the second read of `next` sees the first store when `x` is its own `prev`
  have hkeep : (setNext m (m x).prev (m x).next x).next = (m x).next := by
    rw [setNext]
    split <;> rfl
  by_cases hn : (m x).next = NULL
  · simp [listDel, listPrev, listNext, storeNext, storePrev, setNext, hx, hp, hn]
  rw [if_neg (by simp [hx, hp, hn])]
  simp only [listDel, listPrev, listNext, storePrev, storeNext, hx, hp, hn,
    if_false, hkeep, Option.bind_eq_bind, Option.bind_some]
  rfl

end Operations

/-! ## Rings -/

/-- `b` follows `a`, in both directions. -/
def Link (m : LinkMem A) (a b : A) : Prop := (m a).next = b ∧ (m b).prev = a

/-- The well-formed circular list through the head `h` with nodes `xs`. -/
structure Ring [Nullable A] (m : LinkMem A) (h : A) (xs : List A) : Prop where
  nodup : (h :: xs).Nodup
  nonNull : NULL ∉ h :: xs
  linked : List.IsChain (Link m) (h :: xs ++ [h])

/-- A chain reads `next` of all nodes but the last and `prev` of all but the
    first. -/
theorem links_transport {m m' : LinkMem A} :
    ∀ {c : List A}, List.IsChain (Link m) c →
      (∀ a ∈ c.dropLast, (m' a).next = (m a).next) →
      (∀ b ∈ c.tail, (m' b).prev = (m b).prev) →
      List.IsChain (Link m') c := by
  intro c
  induction c with
  | nil => intro _ _ _; exact List.isChain_nil
  | cons a t ih =>
      intro hc hn hp
      cases t with
      | nil => exact List.isChain_singleton a
      | cons b t =>
          obtain ⟨hab, hrest⟩ := List.isChain_cons_cons.mp hc
          refine List.isChain_cons_cons.mpr ⟨?_, ?_⟩
          · exact ⟨(hn a (List.mem_cons_self ..)).trans hab.1,
              (hp b (List.mem_cons_self ..)).trans hab.2⟩
          · exact ih hrest (fun c hc => hn c (List.mem_cons_of_mem _ hc))
              (fun c hc => hp c (List.mem_cons_of_mem _ hc))

/-- The place between two parts of a ring: the last node `p` before it and
    the first node `s` after it, either of which may be the head. -/
theorem seam {h : A} {l r : List A} (hnd : (h :: (l ++ r)).Nodup) :
    ∃ l' p s r', h :: l = l' ++ [p] ∧ r ++ [h] = s :: r' ∧
      (∀ a ∈ l', a ≠ p) ∧ (∀ b ∈ l, b ≠ s) ∧
      (∀ a ∈ r, a ≠ p) ∧ (∀ b ∈ r', b ≠ s) := by
  obtain ⟨l', p, hl⟩ : ∃ l' p, h :: l = l' ++ [p] :=
    ⟨(h :: l).dropLast, (h :: l).getLast (by simp),
      (List.dropLast_append_getLast (by simp)).symm⟩
  obtain ⟨s, r', hs⟩ : ∃ s r', r ++ [h] = s :: r' :=
    List.exists_cons_of_ne_nil (by simp)
  obtain ⟨hndl, hndr, hdis⟩ := List.nodup_append.mp
    (show (h :: l ++ r).Nodup from hnd)
  have hp : p ∈ h :: l := by rw [hl]; simp
  have hs' : s ∈ r ∨ s = h := by
    have : s ∈ r ++ [h] := by rw [hs]; simp
    simpa using this
  have hhl : h ∉ l := (List.nodup_cons.mp hndl).1
  have hhr : h ∉ r := fun hm => hdis h (List.mem_cons_self ..) h hm rfl
  refine ⟨l', p, s, r', hl, hs, ?_, ?_, ?_, ?_⟩
  · intro a ha e
    rw [hl] at hndl
    exact (List.nodup_append.mp hndl).2.2 a ha p (by simp) e
  · intro b hb e
    rcases hs' with hsr | hsh
    · exact hdis b (List.mem_cons_of_mem _ hb) s hsr e
    · exact hhl (hsh ▸ e ▸ hb)
  · intro a ha e
    exact hdis p hp a ha e.symm
  · intro b hb e
    have hnds : (r ++ [h]).Nodup := by
      refine List.nodup_append.mpr ⟨hndr, by simp, ?_⟩
      intro a ha b hb e
      exact hhr (List.mem_singleton.mp hb ▸ e ▸ ha)
    rw [hs] at hnds
    exact (List.nodup_cons.mp hnds).1 (e ▸ hb)

/-- The nodes beside a place of the ring belong to it. -/
theorem seam_mem {h p s : A} {l l' r r' : List A} (hl : h :: l = l' ++ [p])
    (hs : r ++ [h] = s :: r') : p ∈ h :: (l ++ r) ∧ s ∈ h :: (l ++ r) := by
  constructor
  · have hp : p ∈ h :: l := by rw [hl]; simp
    exact List.mem_append_left r hp
  · have hs' : s ∈ r ++ [h] := by rw [hs]; simp
    simp only [List.mem_append, List.mem_singleton] at hs'
    rcases hs' with h1 | rfl <;> simp [*]

section Rings

variable [Nullable A]

/-- Rings see only their own links. -/
theorem Ring.frame {m m' : LinkMem A} {h : A} {xs : List A}
    (hr : Ring m h xs) (hm : ∀ a ∈ h :: xs, m' a = m a) : Ring m' h xs := by
  have hmem : ∀ a ∈ h :: xs ++ [h], m' a = m a := by
    intro a ha
    rcases List.mem_append.mp ha with hL | hR
    · exact hm a hL
    · exact hm a (List.mem_singleton.mp hR ▸ List.mem_cons_self ..)
  refine ⟨hr.nodup, hr.nonNull, links_transport hr.linked ?_ ?_⟩
  · intro a ha
    rw [hmem a (List.dropLast_subset _ ha)]
  · intro b hb
    rw [hmem b (List.mem_of_mem_tail hb)]

theorem Ring.head_ne_null {m : LinkMem A} {h : A} {xs : List A}
    (hr : Ring m h xs) : h ≠ NULL :=
  fun e => hr.nonNull (e ▸ List.mem_cons_self ..)

theorem Ring.mem_ne_null {m : LinkMem A} {h x : A} {xs : List A}
    (hr : Ring m h xs) (hx : x ∈ h :: xs) : x ≠ NULL :=
  fun e => hr.nonNull (e ▸ hx)

theorem Ring.head_notMem {m : LinkMem A} {h : A} {xs : List A}
    (hr : Ring m h xs) : h ∉ xs :=
  (List.nodup_cons.mp hr.nodup).1

/-- The head's `next` is the first node. -/
theorem Ring.next_cons {m : LinkMem A} {h x : A} {xs : List A}
    (hr : Ring m h (x :: xs)) : (m h).next = x :=
  (List.isChain_cons_cons.mp hr.linked).1.1

/-- The head of an empty ring is its own `next`. -/
theorem Ring.next_nil {m : LinkMem A} {h : A} (hr : Ring m h []) :
    (m h).next = h :=
  (List.isChain_cons_cons.mp hr.linked).1.1

theorem Ring.listNext_cons [DecidableEq A] {m : LinkMem A} {h x : A} {xs : List A}
    (hr : Ring m h (x :: xs)) : listNext m h = some x := by
  rw [listNext, if_neg hr.head_ne_null, hr.next_cons]

theorem Ring.listNext_nil [DecidableEq A] {m : LinkMem A} {h : A} (hr : Ring m h []) :
    listNext m h = some h := by
  rw [listNext, if_neg hr.head_ne_null, hr.next_nil]

/-- `list_empty` holds exactly of the empty ring. -/
theorem Ring.listEmpty_eq [DecidableEq A] {m : LinkMem A} {h : A} {xs : List A}
    (hr : Ring m h xs) : listEmpty m h = some xs.isEmpty := by
  cases xs with
  | nil => simp [listEmpty, hr.listNext_nil]
  | cons x xs =>
      have hne : x ≠ h := fun e =>
        hr.head_notMem (e ▸ List.mem_cons_self ..)
      simp [listEmpty, hr.listNext_cons, hne]

/-- One ring has one node sequence. -/
theorem Ring.unique {m : LinkMem A} {h : A} {xs ys : List A}
    (hx : Ring m h xs) (hy : Ring m h ys) : xs = ys := by
  -- the two sequences are read off the same `next` pointers from one address
  have key : ∀ (xs ys : List A) (a : A), h ∉ xs → h ∉ ys →
      List.IsChain (Link m) (a :: (xs ++ [h])) →
      List.IsChain (Link m) (a :: (ys ++ [h])) → xs = ys := by
    intro xs
    induction xs with
    | nil =>
        intro ys a _ hny hcx hcy
        cases ys with
        | nil => rfl
        | cons y ys =>
            have h1 := (List.isChain_cons_cons.mp hcx).1.1
            have h2 := (List.isChain_cons_cons.mp hcy).1.1
            exact absurd (h1.symm.trans h2) (fun e =>
              hny (e ▸ List.mem_cons_self ..))
    | cons x xs ih =>
        intro ys a hnx hny hcx hcy
        obtain ⟨hx1, hx2⟩ := List.isChain_cons_cons.mp hcx
        cases ys with
        | nil =>
            have h2 := (List.isChain_cons_cons.mp hcy).1.1
            exact absurd (h2.symm.trans hx1.1) (fun e =>
              hnx (e ▸ List.mem_cons_self ..))
        | cons y ys =>
            obtain ⟨hy1, hy2⟩ := List.isChain_cons_cons.mp hcy
            have hxy : x = y := hx1.1.symm.trans hy1.1
            subst hxy
            rw [ih ys x (fun hm => hnx (List.mem_cons_of_mem _ hm))
              (fun hm => hny (List.mem_cons_of_mem _ hm)) hx2 hy2]
  exact key xs ys h hx.head_notMem hy.head_notMem hx.linked hy.linked

/-- The nodes beside a place of the ring are linked to each other. -/
theorem Ring.at_seam {m : LinkMem A} {h p s : A} {l l' r r' : List A}
    (hr : Ring m h (l ++ r)) (hl : h :: l = l' ++ [p])
    (hs : r ++ [h] = s :: r') : Link m p s := by
  have hc := hr.linked
  rw [show h :: (l ++ r) ++ [h] = (h :: l) ++ (r ++ [h]) by simp, hl, hs,
    List.append_assoc, List.singleton_append,
    List.isChain_append_cons_cons] at hc
  exact hc.2.1

/-- A node of the ring is linked to the nodes beside it. -/
theorem Ring.at_node {m : LinkMem A} {h x p s : A} {l l' r r' : List A}
    (hr : Ring m h (l ++ x :: r)) (hl : h :: l = l' ++ [p])
    (hs : r ++ [h] = s :: r') : Link m p x ∧ Link m x s := by
  have hc := hr.linked
  rw [show h :: (l ++ x :: r) ++ [h] = (h :: l) ++ x :: (r ++ [h]) by simp,
    hl, hs, List.append_assoc, List.singleton_append,
    List.isChain_append_cons_cons, List.isChain_cons_cons] at hc
  exact ⟨hc.2.1, hc.2.2.1⟩

/-- A node of the ring occurs once. -/
theorem Ring.ne_node {m : LinkMem A} {h x : A} {l r : List A}
    (hr : Ring m h (l ++ x :: r)) {a : A} (ha : a ∈ h :: (l ++ r)) : a ≠ x := by
  have hnd : (h :: l ++ x :: r).Nodup := hr.nodup
  have hx : x ∉ h :: l ++ r :=
    (List.nodup_cons.mp (List.perm_middle.nodup_iff.mp hnd)).1
  exact fun e => hx (e ▸ ha)

/-! ## Splicing -/

/-- Splicing: the part `t` of a ring between the nodes `p` and `s` is
    replaced by `y`, when the new links join `p`, `y` and `s` and all others
    are kept. -/
theorem Ring.splice {m m' : LinkMem A} {h p s : A} {l l' r r' t y : List A}
    (hr : Ring m h (l ++ t ++ r)) (hl : h :: l = l' ++ [p])
    (hs : r ++ [h] = s :: r')
    (hnext : ∀ a, a ≠ p → a ∉ y → (m' a).next = (m a).next)
    (hprev : ∀ b, b ≠ s → b ∉ y → (m' b).prev = (m b).prev)
    (hmid : List.IsChain (Link m') (p :: y ++ [s]))
    (hy : (h :: (l ++ r)).Disjoint y) (hynd : y.Nodup) (hynn : NULL ∉ y) :
    Ring m' h (l ++ y ++ r) := by
  have hnd₀ : (h :: (l ++ r)).Nodup := by
    refine hr.nodup.sublist (List.Sublist.cons_cons h ?_)
    exact List.Sublist.append_right (List.sublist_append_left l t) r
  -- `p` and `s` occur at the seam only
  obtain ⟨l₁, p₁, s₁, r₁, hl₁, hs₁, hA, hB, hC, hD⟩ := seam hnd₀
  obtain ⟨rfl, hpp⟩ : l' = l₁ ∧ [p] = [p₁] :=
    List.append_inj' (hl.symm.trans hl₁) rfl
  obtain rfl : p = p₁ := by simpa using hpp
  obtain ⟨rfl, rfl⟩ : s = s₁ ∧ r' = r₁ := by
    simpa using hs.symm.trans hs₁
  have hfresh : ∀ a ∈ h :: (l ++ r), a ∉ y := fun a ha hay => hy ha hay
  refine ⟨?_, ?_, ?_⟩
  · obtain ⟨hndl, hndr, hdis⟩ := List.nodup_append.mp
      (show (h :: l ++ r).Nodup from hnd₀)
    have hleft : (h :: l ++ y).Nodup := by
      refine List.nodup_append.mpr ⟨hndl, hynd, ?_⟩
      intro a ha b hb e
      exact hfresh a (List.mem_append_left r ha) (e ▸ hb)
    have hall : ((h :: l ++ y) ++ r).Nodup := by
      refine List.nodup_append.mpr ⟨hleft, hndr, ?_⟩
      intro a ha b hb e
      rcases List.mem_append.mp ha with hL | hY
      · exact hdis a hL b hb e
      · exact hfresh b (by simp [hb]) (e ▸ hY)
    simpa using hall
  · intro hn
    have hn' : NULL ∈ h :: (l ++ t ++ r) ∨ (NULL : A) ∈ y := by
      simp only [List.mem_cons, List.mem_append] at hn ⊢
      tauto
    rcases hn' with h1 | h1
    · exact hr.nonNull h1
    · exact hynn h1
  · have hlinked : List.IsChain (Link m) ((l' ++ p :: t) ++ s :: r') := by
      have heq : h :: (l ++ t ++ r) ++ [h] = (l' ++ p :: t) ++ s :: r' := by
        calc h :: (l ++ t ++ r) ++ [h] = (h :: l) ++ (t ++ (r ++ [h])) := by
              simp
          _ = (l' ++ p :: t) ++ s :: r' := by rw [hl, hs]; simp
      rw [← heq]
      exact hr.linked
    have hleft : List.IsChain (Link m) (l' ++ [p]) := by
      have h1 := hlinked.left_of_append
      exact (List.isChain_split.mp h1).1
    have hright : List.IsChain (Link m) (s :: r') := hlinked.right_of_append
    have hleft' : List.IsChain (Link m') (l' ++ [p]) := by
      refine links_transport hleft ?_ ?_
      · intro a ha
        rw [List.dropLast_concat] at ha
        refine hnext a (hA a ha) (hfresh a ?_)
        have : a ∈ h :: l := by rw [hl]; simp [ha]
        exact List.mem_append_left r this
      · intro b hb
        rw [← hl] at hb
        have hb' : b ∈ l := hb
        exact hprev b (hB b hb') (hfresh b (by simp [hb']))
    have hright' : List.IsChain (Link m') (s :: r') := by
      refine links_transport hright ?_ ?_
      · intro a ha
        rw [← hs, List.dropLast_concat] at ha
        exact hnext a (hC a ha) (hfresh a (by simp [ha]))
      · intro b hb
        have hb' : b ∈ r' := hb
        have hbm : b ∈ r ++ [h] := by rw [hs]; simp [hb']
        refine hprev b (hD b hb') (hfresh b ?_)
        simp only [List.mem_append, List.mem_singleton] at hbm
        rcases hbm with hbr | rfl
        · simp [hbr]
        · simp
    have hmid' : List.IsChain (Link m') (p :: (y ++ [s])) := hmid
    have hgoal : List.IsChain (Link m') (l' ++ p :: (y ++ s :: r')) :=
      List.isChain_split.mpr
        ⟨hleft', List.isChain_cons_split.mpr ⟨hmid', hright'⟩⟩
    have heq : h :: (l ++ y ++ r) ++ [h] = l' ++ p :: (y ++ s :: r') := by
      calc h :: (l ++ y ++ r) ++ [h] = (h :: l) ++ (y ++ (r ++ [h])) := by simp
        _ = l' ++ p :: (y ++ s :: r') := by rw [hl, hs]; simp
    rw [heq]
    exact hgoal

/-! ## Families of rings -/

/-- Rings through the heads of the live indices `P`, sharing no node. -/
structure Rings {I : Type} (m : LinkMem A) (hd : I → A) (P : I → Prop)
    (L : I → List A) : Prop where
  ring : ∀ i, P i → Ring m (hd i) (L i)
  disj : ∀ i j, P i → P j → i ≠ j → (hd i :: L i).Disjoint (hd j :: L j)

/-- A store outside every ring keeps the family. -/
theorem Rings.frame {I : Type} {m m' : LinkMem A} {hd : I → A} {P : I → Prop}
    {L : I → List A} (hR : Rings m hd P L)
    (hm : ∀ i, P i → ∀ a ∈ hd i :: L i, m' a = m a) : Rings m' hd P L :=
  ⟨fun i hi => (hR.ring i hi).frame (hm i hi), hR.disj⟩

/-- A family sees only the sequences of its live indices. -/
theorem Rings.congr {I : Type} {m : LinkMem A} {hd : I → A} {P : I → Prop}
    {L L' : I → List A} (hR : Rings m hd P L) (hL : ∀ i, P i → L i = L' i) :
    Rings m hd P L' := by
  refine ⟨fun i hi => hL i hi ▸ hR.ring i hi, fun i j hi hj hij => ?_⟩
  rw [← hL i hi, ← hL j hj]
  exact hR.disj i j hi hj hij

/-- One ring of the family is replaced by one that uses its old nodes and
    fresh ones. -/
theorem Rings.update {I : Type} [DecidableEq I] {m m' : LinkMem A}
    {hd : I → A} {P : I → Prop} {L : I → List A} (hR : Rings m hd P L)
    {i : I} {xs : List A} (hi : P i) (hnew : Ring m' (hd i) xs)
    (hm : ∀ a, a ∉ hd i :: L i → a ∉ xs → m' a = m a)
    (hxs : ∀ a ∈ xs, a ∈ hd i :: L i ∨ ∀ j, P j → a ∉ hd j :: L j) :
    Rings m' hd P (Function.update L i xs) := by
  have hother : ∀ j, P j → j ≠ i → (hd j :: L j).Disjoint (hd i :: xs) := by
    intro j hj hji a haj hai
    have hdis := hR.disj j i hj hi hji
    rcases List.mem_cons.mp hai with rfl | hax
    · exact hdis haj (List.mem_cons_self ..)
    · rcases hxs a hax with h1 | h1
      · exact hdis haj h1
      · exact h1 j hj haj
  refine ⟨?_, ?_⟩
  · intro j hj
    by_cases hji : j = i
    · subst hji
      rw [Function.update_self]
      exact hnew
    · rw [Function.update_of_ne hji]
      refine (hR.ring j hj).frame ?_
      intro a ha
      refine hm a (hR.disj j i hj hi hji ha) ?_
      exact fun hax => hother j hj hji ha (List.mem_cons_of_mem _ hax)
  · intro j k hj hk hjk
    by_cases hji : j = i
    · subst hji
      rw [Function.update_self, Function.update_of_ne (Ne.symm hjk)]
      exact fun a ha hb => hother k hk (Ne.symm hjk) hb ha
    · rw [Function.update_of_ne hji]
      by_cases hki : k = i
      · subst hki
        rw [Function.update_self]
        exact hother j hj hji
      · rw [Function.update_of_ne hki]
        exact hR.disj j k hj hk hjk

/-! ## The operations on rings -/

variable [DecidableEq A]

/-- `list_init` makes an empty ring. -/
theorem listInit_ring (m : LinkMem A) {h : A} (hh : h ≠ NULL) :
    ∃ m', listInit m h = some m' ∧ Ring m' h [] ∧
      ∀ a, a ≠ h → m' a = m a := by
  refine ⟨setPrev (setNext m h h) h h, ?_, ?_, ?_⟩
  · simp [listInit, storeNext, storePrev, hh]
  · refine ⟨by simp, by simp [hh.symm], ?_⟩
    simp [Link, setNext, setPrev]
  · intro a ha
    simp [setNext, setPrev, ha]

/-- `list_add_after` puts the new node right behind `pcur`. -/
theorem listAddAfter_ring {m : LinkMem A} {h n p : A} {l l' r : List A}
    (hr : Ring m h (l ++ r)) (hp : h :: l = l' ++ [p]) (hn : n ≠ NULL)
    (hfresh : n ∉ h :: (l ++ r)) :
    ∃ m', listAddAfter m p n = some m' ∧ Ring m' h (l ++ n :: r) ∧
      ∀ a, a ∉ h :: (l ++ r) → a ≠ n → m' a = m a := by
  obtain ⟨s, r', hs⟩ : ∃ s r', r ++ [h] = s :: r' :=
    List.exists_cons_of_ne_nil (by simp)
  obtain ⟨hpm, hsm⟩ := seam_mem hp hs
  have hpn : p ≠ n := fun e => hfresh (e ▸ hpm)
  have hsn : s ≠ n := fun e => hfresh (e ▸ hsm)
  have hp0 : p ≠ NULL := hr.mem_ne_null hpm
  have hs0 : s ≠ NULL := hr.mem_ne_null hsm
  have hnx : (m p).next = s := (hr.at_seam hp hs).1
  have hrun : listAddAfter m p n = some (addedAfter m p n) := by
    rw [listAddAfter_eq, if_neg (by simp [hp0, hnx, hs0, hn])]
  refine ⟨_, hrun, ?_, ?_⟩
  · have hring : Ring (addedAfter m p n) h (l ++ [n] ++ r) := by
      refine Ring.splice (t := []) (by simpa using hr) hp hs ?_ ?_ ?_ ?_
        (by simp) (by simp [hn.symm])
      · intro a hap han
        simp [addedAfter, hap, List.mem_singleton.not.mp han]
      · intro b hbs hbn
        simp [addedAfter, hnx, hbs, List.mem_singleton.not.mp hbn]
      · simp [Link, addedAfter, hnx, hpn.symm, hsn]
      · intro a ha hay
        exact hfresh (List.mem_singleton.mp hay ▸ ha)
    simpa using hring
  · intro a ha han
    have hap : a ≠ p := fun e => ha (e ▸ hpm)
    have has : a ≠ s := fun e => ha (e ▸ hsm)
    simp [addedAfter, hnx, hap, has, han]

/-- `list_add` on the head pushes the new node in front. -/
theorem listAdd_ring {m : LinkMem A} {h n : A} {xs : List A}
    (hr : Ring m h xs) (hn : n ≠ NULL) (hfresh : n ∉ h :: xs) :
    ∃ m', listAdd m h n = some m' ∧ Ring m' h (n :: xs) ∧
      ∀ a, a ∉ h :: xs → a ≠ n → m' a = m a := by
  have hsplit : h :: ([] : List A) = [] ++ [h] := rfl
  exact listAddAfter_ring (r := xs) hr hsplit hn hfresh

/-- `list_del` takes the node out, wherever it sits in the ring. -/
theorem listDel_ring {m : LinkMem A} {h x : A} {l r : List A}
    (hr : Ring m h (l ++ x :: r)) :
    ∃ m', listDel m x = some m' ∧ Ring m' h (l ++ r) ∧
      ∀ a, a ∉ h :: (l ++ r) → m' a = m a := by
  obtain ⟨l', p, hl⟩ : ∃ l' p, h :: l = l' ++ [p] :=
    ⟨(h :: l).dropLast, (h :: l).getLast (by simp),
      (List.dropLast_append_getLast (by simp)).symm⟩
  obtain ⟨s, r', hs⟩ : ∃ s r', r ++ [h] = s :: r' :=
    List.exists_cons_of_ne_nil (by simp)
  obtain ⟨hpm, hsm⟩ := seam_mem hl hs
  obtain ⟨⟨-, hprev⟩, hnext, -⟩ := hr.at_node hl hs
  have hsub : ∀ a ∈ h :: (l ++ r), a ∈ h :: (l ++ x :: r) := by
    intro a ha
    simp only [List.mem_cons, List.mem_append] at ha ⊢
    tauto
  have hp0 : p ≠ NULL := hr.mem_ne_null (hsub p hpm)
  have hs0 : s ≠ NULL := hr.mem_ne_null (hsub s hsm)
  have hx0 : x ≠ NULL := hr.mem_ne_null (by simp)
  have hrun : listDel m x = some (deleted m x) := by
    rw [listDel_eq, if_neg (by simp [hx0, hprev, hp0, hnext, hs0])]
  refine ⟨_, hrun, ?_, ?_⟩
  · have hring : Ring (deleted m x) h (l ++ [] ++ r) := by
      refine Ring.splice (t := [x]) (by simpa using hr) hl hs ?_ ?_ ?_
        (by simp) (by simp) (by simp)
      · intro a hap _
        simp [deleted, hprev, hap]
      · intro b hbs _
        simp [deleted, hnext, hbs]
      · simp [Link, deleted, hprev, hnext]
    simpa using hring
  · intro a ha
    have hap : a ≠ p := fun e => ha (e ▸ hpm)
    have has : a ≠ s := fun e => ha (e ▸ hsm)
    simp [deleted, hprev, hnext, hap, has]

/-- `list_add` on one head of a family. -/
theorem listAdd_rings {I : Type} [DecidableEq I] {m : LinkMem A} {hd : I → A}
    {P : I → Prop} {L : I → List A} (hR : Rings m hd P L) {i : I} {n : A}
    (hi : P i) (hn : n ≠ NULL) (hfresh : ∀ j, P j → n ∉ hd j :: L j) :
    ∃ m', listAdd m (hd i) n = some m' ∧
      Rings m' hd P (Function.update L i (n :: L i)) ∧
      ∀ a, a ∉ hd i :: L i → a ≠ n → m' a = m a := by
  obtain ⟨m', hrun, hring, hframe⟩ :=
    listAdd_ring (hR.ring i hi) hn (hfresh i hi)
  refine ⟨m', hrun, hR.update hi hring ?_ ?_, hframe⟩
  · exact fun a ha hax => hframe a ha fun e => hax (by simp [e])
  · intro a ha
    rcases List.mem_cons.mp ha with rfl | h1
    · exact Or.inr hfresh
    · exact Or.inl (List.mem_cons_of_mem _ h1)

/-- `list_del` of a node of one ring of a family. -/
theorem listDel_rings {I : Type} [DecidableEq I] {m : LinkMem A} {hd : I → A}
    {P : I → Prop} {L : I → List A} (hR : Rings m hd P L) {i : I} {x : A}
    {l r : List A} (hi : P i) (hL : L i = l ++ x :: r) :
    ∃ m', listDel m x = some m' ∧
      Rings m' hd P (Function.update L i (l ++ r)) ∧
      ∀ a, a ∉ hd i :: (l ++ r) → m' a = m a := by
  have hr : Ring m (hd i) (l ++ x :: r) := hL ▸ hR.ring i hi
  obtain ⟨m', hrun, hring, hframe⟩ := listDel_ring hr
  have hsub : ∀ a ∈ l ++ r, a ∈ L i := by
    intro a ha
    rw [hL]
    simp only [List.mem_append, List.mem_cons] at ha ⊢
    tauto
  refine ⟨m', hrun, hR.update hi hring ?_ ?_, hframe⟩
  · intro a ha _
    refine hframe a fun h1 => ha ?_
    rcases List.mem_cons.mp h1 with rfl | h2
    · exact List.mem_cons_self ..
    · exact List.mem_cons_of_mem _ (hsub a h2)
  · exact fun a ha => Or.inl (List.mem_cons_of_mem _ (hsub a ha))

end Rings

end SharixList
