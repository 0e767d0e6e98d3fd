import Sharix.ListProofs

/-! # Runs of list operations — `libs/list.h` on many rings at once

    A kernel holds many rings in one memory and calls the operations in any
    order.  `ListOp` is one call, `ListOp.onRing` what it prescribes for the
    node sequence of a ring: nothing when the place it names is elsewhere.

    * `ListOp.run_ring`: one call on the ring that holds its place;
    * `ListOp.run_rings`: the same call on a family of rings;
    * `listRun_refines`: every legal run, by induction on the calls. -/

namespace SharixList

variable {A : Type}

/-! ## What a call prescribes -/

/-- One call of an operation that changes a list. -/
inductive ListOp (A : Type) where
  | add (pcur pnode : A)
  | addBefore (pcur pnode : A)
  | addAfter (pcur pnode : A)
  | del (pcur : A)
  | delInit (pcur : A)
deriving DecidableEq, Repr

namespace ListOp

/-- The entry a call works at. -/
def pcur : ListOp A → A
  | add c _ | addBefore c _ | addAfter c _ | del c | delInit c => c

/-- The node a call brings in. -/
def pnode : ListOp A → Option A
  | add _ n | addBefore _ n | addAfter _ n => some n
  | del _ | delInit _ => none

/-- The ring holds the place of the call: any entry for an insertion, a node
    other than the head for a removal. -/
def At (h : A) (xs : List A) : ListOp A → Prop
  | add c _ | addBefore c _ | addAfter c _ => c ∈ h :: xs
  | del c | delInit c => c ∈ xs

theorem At.pcur_mem {h : A} {xs : List A} {op : ListOp A} (hat : op.At h xs) :
    op.pcur ∈ h :: xs := by
  cases op with
  | add c n | addBefore c n | addAfter c n => exact hat
  | del c | delInit c => exact List.mem_cons_of_mem h hat

end ListOp

variable [DecidableEq A]

/-- `xs` with `n` right behind `c`. -/
def insertAfter (c n : A) : List A → List A
  | [] => []
  | a :: t => if a = c then a :: n :: t else a :: insertAfter c n t

/-- `xs` with `n` right in front of `c`. -/
def insertBefore (c n : A) : List A → List A
  | [] => []
  | a :: t => if a = c then n :: a :: t else a :: insertBefore c n t

theorem insertAfter_append {c n : A} {l r : List A} (hc : c ∉ l) :
    insertAfter c n (l ++ c :: r) = l ++ c :: n :: r := by
  induction l with
  | nil => simp [insertAfter]
  | cons a t ih =>
      simp only [List.mem_cons, not_or] at hc
      rw [List.cons_append, insertAfter, if_neg (Ne.symm hc.1), ih hc.2]
      rfl

theorem insertBefore_append {c n : A} {l r : List A} (hc : c ∉ l) :
    insertBefore c n (l ++ c :: r) = l ++ n :: c :: r := by
  induction l with
  | nil => simp [insertBefore]
  | cons a t ih =>
      simp only [List.mem_cons, not_or] at hc
      rw [List.cons_append, insertBefore, if_neg (Ne.symm hc.1), ih hc.2]
      rfl

theorem insertAfter_of_notMem {c n : A} {xs : List A} (hc : c ∉ xs) :
    insertAfter c n xs = xs := by
  induction xs with
  | nil => rfl
  | cons a t ih =>
      simp only [List.mem_cons, not_or] at hc
      rw [insertAfter, if_neg (Ne.symm hc.1), ih hc.2]

theorem insertBefore_of_notMem {c n : A} {xs : List A} (hc : c ∉ xs) :
    insertBefore c n xs = xs := by
  induction xs with
  | nil => rfl
  | cons a t ih =>
      simp only [List.mem_cons, not_or] at hc
      rw [insertBefore, if_neg (Ne.symm hc.1), ih hc.2]

namespace ListOp

/-- What a call prescribes for the nodes `xs` behind the head `h`: behind the
    head is the front of the sequence, in front of the head its end. -/
def onRing (h : A) (xs : List A) : ListOp A → List A
  | add c n | addAfter c n => if c = h then n :: xs else insertAfter c n xs
  | addBefore c n => if c = h then xs ++ [n] else insertBefore c n xs
  | del c | delInit c => xs.erase c

/-- Elsewhere nothing is prescribed. -/
theorem onRing_of_notMem {h : A} {xs : List A} {op : ListOp A}
    (hc : op.pcur ∉ h :: xs) : op.onRing h xs = xs := by
  obtain ⟨hch, hcx⟩ : op.pcur ≠ h ∧ op.pcur ∉ xs := by simpa using hc
  cases op with
  | add c n | addAfter c n =>
      rw [onRing, if_neg (show c ≠ h from hch)]
      exact insertAfter_of_notMem hcx
  | addBefore c n =>
      rw [onRing, if_neg (show c ≠ h from hch)]
      exact insertBefore_of_notMem hcx
  | del c | delInit c => exact List.erase_of_not_mem hcx

/-- A ring and a place of it to insert behind, as the two parts beside the
    new node. -/
theorem split_after {h c : A} (n : A) {xs : List A} (hc : c ∈ h :: xs) :
    ∃ l l' r, xs = l ++ r ∧ h :: l = l' ++ [c] ∧
      (if c = h then n :: xs else insertAfter c n xs) = l ++ n :: r := by
  by_cases hch : c = h
  · exact ⟨[], [], xs, rfl, by simp [hch], by simp [hch]⟩
  obtain ⟨l, r, rfl, hcl⟩ :=
    List.eq_append_cons_of_mem ((List.mem_cons.mp hc).resolve_left hch)
  refine ⟨l ++ [c], h :: l, r, by simp, rfl, ?_⟩
  rw [if_neg hch, insertAfter_append hcl]
  simp

/-- The same for a place to insert in front of. -/
theorem split_before {h c : A} (n : A) {xs : List A} (hc : c ∈ h :: xs) :
    ∃ l r r', xs = l ++ r ∧ r ++ [h] = c :: r' ∧
      (if c = h then xs ++ [n] else insertBefore c n xs) = l ++ n :: r := by
  by_cases hch : c = h
  · exact ⟨xs, [], [], by simp, by simp [hch], by simp [hch]⟩
  obtain ⟨l, r, rfl, hcl⟩ :=
    List.eq_append_cons_of_mem ((List.mem_cons.mp hc).resolve_left hch)
  refine ⟨l, c :: r, r ++ [h], rfl, rfl, ?_⟩
  rw [if_neg hch, insertBefore_append hcl]

end ListOp

variable [Nullable A]

/-! ## The two remaining operations -/

def listAddBefore (m : LinkMem A) (pcur pnode : A) : Option (LinkMem A) := do
  let prev ← listPrev m pcur
  let m ← storeNext m prev pnode
  let m ← storeNext m pnode pcur
  let prev ← listPrev m pcur
  let m ← storePrev m pnode prev
  storePrev m pcur pnode

def listDelInit (m : LinkMem A) (pcur : A) : Option (LinkMem A) := do
  let m ← listDel m pcur
  listInit m pcur

/-- In front of `s` is behind the node linked to it. -/
theorem listAddBefore_eq {m : LinkMem A} {p s n : A} (hlink : Link m p s)
    (hp : p ≠ NULL) (hs : s ≠ NULL) (hn : n ≠ NULL) (hnp : n ≠ p) (hns : n ≠ s) :
    listAddBefore m s n = listAddAfter m p n := by
  obtain ⟨hnext, hprev⟩ := hlink
  have hafter : listAddAfter m p n = some (addedAfter m p n) := by
    rw [listAddAfter_eq, if_neg (by simp [hp, hnext, hs, hn])]
  rw [hafter]
  -- the stores to `n` lie between the two stores to the old neighbours
  simp only [listAddBefore, listPrev, storeNext, storePrev, setNext, hs, hn, hp,
    hprev, if_false, Option.bind_eq_bind, Option.bind_some]
  refine congrArg some (funext fun a => ?_)
  simp only [setNext, setPrev, addedAfter, hnext, ListEntry.mk.injEq]
  constructor
  · by_cases han : a = n
    · simp [han, hns]
    · simp [han]
  · by_cases hap : a = p
    · simp [hap, Ne.symm hnp]
    · simp [hap]

/-- `list_add_before` puts the new node right in front of `s`. -/
theorem listAddBefore_ring {m : LinkMem A} {h n s : A} {l r r' : List A}
    (hr : Ring m h (l ++ r)) (hs : r ++ [h] = s :: r') (hn : n ≠ NULL)
    (hfresh : n ∉ h :: (l ++ r)) :
    ∃ m', listAddBefore m s n = some m' ∧ Ring m' h (l ++ n :: r) ∧
      ∀ a, a ∉ h :: (l ++ r) → a ≠ n → m' a = m a := by
  obtain ⟨l', p, hl⟩ : ∃ l' p, h :: l = l' ++ [p] :=
    ⟨(h :: l).dropLast, (h :: l).getLast (by simp),
      (List.dropLast_append_getLast (by simp)).symm⟩
  obtain ⟨hpm, hsm⟩ := seam_mem hl hs
  have hsame : listAddBefore m s n = listAddAfter m p n :=
    listAddBefore_eq (hr.at_seam hl hs) (hr.mem_ne_null hpm)
      (hr.mem_ne_null hsm) hn (fun e => hfresh (e ▸ hpm))
      (fun e => hfresh (e ▸ hsm))
  rw [hsame]
  exact listAddAfter_ring hr hl hn hfresh

/-- `list_del_init` takes the node out and leaves it a ring of its own. -/
theorem listDelInit_ring {m : LinkMem A} {h x : A} {l r : List A}
    (hr : Ring m h (l ++ x :: r)) :
    ∃ m', listDelInit m x = some m' ∧ Ring m' h (l ++ r) ∧ Ring m' x [] ∧
      ∀ a, a ∉ h :: (l ++ x :: r) → m' a = m a := by
  obtain ⟨m₁, hdel, hring, hframe⟩ := listDel_ring hr
  obtain ⟨m₂, hinit, hself, hrest⟩ :=
    listInit_ring m₁ (hr.mem_ne_null (x := x) (by simp))
  refine ⟨m₂, ?_, ?_, hself, ?_⟩
  · simp [listDelInit, hdel, hinit]
  · exact hring.frame fun a ha => hrest a (hr.ne_node ha)
  · intro a ha
    have hax : a ≠ x := fun e => ha (by simp [e])
    have hal : a ∉ h :: (l ++ r) := by
      simp only [List.mem_cons, List.mem_append] at ha ⊢
      tauto
    rw [hrest a hax, hframe a hal]

/-! ## Following `list_next` -/

/-- The entries that `k` steps of `list_next` meet from `p`. -/
def listWalk (m : LinkMem A) : Nat → A → Option (List A)
  | 0, _ => some []
  | k + 1, p => do
      let q ← listNext m p
      let rest ← listWalk m k q
      return q :: rest

/-- A walk along a chain meets the chain. -/
theorem listWalk_chain {m : LinkMem A} {h : A} :
    ∀ (xs : List A) (p : A), NULL ∉ p :: xs →
      List.IsChain (Link m) (p :: xs ++ [h]) →
      listWalk m (xs.length + 1) p = some (xs ++ [h]) := by
  intro xs
  induction xs with
  | nil =>
      intro p hnn hc
      have hp : p ≠ NULL := fun e => hnn (by simp [e])
      have hnext : (m p).next = h := (List.isChain_cons_cons.mp hc).1.1
      simp [listWalk, listNext, hp, hnext]
  | cons x xs ih =>
      intro p hnn hc
      have hp : p ≠ NULL := fun e => hnn (by simp [e])
      obtain ⟨hpx, hrest⟩ := List.isChain_cons_cons.mp hc
      have hstep : listNext m p = some x := by
        rw [listNext, if_neg hp, hpx.1]
      have hwalk := ih x (fun e => hnn (List.mem_cons_of_mem p e)) hrest
      rw [List.length_cons, listWalk, hstep]
      simp [hwalk]

/-- From the head `list_next` meets every node and comes back. -/
theorem Ring.listWalk_eq {m : LinkMem A} {h : A} {xs : List A} (hr : Ring m h xs) :
    listWalk m (xs.length + 1) h = some (xs ++ [h]) :=
  listWalk_chain xs h hr.nonNull hr.linked

/-! ## One call -/

namespace ListOp

def run (m : LinkMem A) : ListOp A → Option (LinkMem A)
  | add pcur pnode => listAdd m pcur pnode
  | addBefore pcur pnode => listAddBefore m pcur pnode
  | addAfter pcur pnode => listAddAfter m pcur pnode
  | del pcur => listDel m pcur
  | delInit pcur => listDelInit m pcur

/-- A call that brings a node in. -/
theorem run_ring_insert {m m' : LinkMem A} {h n : A} {l r : List A} {op : ListOp A}
    (hn : op.pnode = some n) (hins : op.onRing h (l ++ r) = l ++ n :: r)
    (hring : Ring m' h (l ++ n :: r))
    (hframe : ∀ a, a ∉ h :: (l ++ r) → a ≠ n → m' a = m a) :
    Ring m' h (op.onRing h (l ++ r)) ∧
      (∀ a ∈ op.onRing h (l ++ r), a ∈ l ++ r ∨ a ∈ op.pnode) ∧
      ∀ a, a ∉ h :: (l ++ r) → a ∉ op.onRing h (l ++ r) → m' a = m a := by
  rw [hins, hn]
  refine ⟨hring, fun a ha => ?_, fun a ha han => hframe a ha fun e => han (by simp [e])⟩
  simp only [List.mem_append, List.mem_cons, Option.mem_some_iff] at ha ⊢
  tauto

/-- A call that takes its place off. -/
theorem run_ring_erase {m m' : LinkMem A} {h c : A} {l r : List A} {op : ListOp A}
    (hcl : c ∉ l) (hon : op.onRing h (l ++ c :: r) = (l ++ c :: r).erase c)
    (hring : Ring m' h (l ++ r)) (hframe : ∀ a, a ∉ h :: (l ++ c :: r) → m' a = m a) :
    Ring m' h (op.onRing h (l ++ c :: r)) ∧
      (∀ a ∈ op.onRing h (l ++ c :: r), a ∈ l ++ c :: r ∨ a ∈ op.pnode) ∧
      ∀ a, a ∉ h :: (l ++ c :: r) → a ∉ op.onRing h (l ++ c :: r) → m' a = m a := by
  have herase : (l ++ c :: r).erase c = l ++ r := by
    rw [List.erase_append_right _ hcl, List.erase_cons_head]
  refine ⟨?_, fun a ha => Or.inl (List.mem_of_mem_erase (hon ▸ ha)), fun a ha _ => hframe a ha⟩
  rw [hon, herase]
  exact hring

/-- One call on the ring that holds its place. -/
theorem run_ring {m : LinkMem A} {h : A} {xs : List A} {op : ListOp A}
    (hr : Ring m h xs) (hat : op.At h xs)
    (hnew : ∀ n ∈ op.pnode, n ≠ NULL ∧ n ∉ h :: xs) :
    ∃ m', op.run m = some m' ∧ Ring m' h (op.onRing h xs) ∧
      (∀ a ∈ op.onRing h xs, a ∈ xs ∨ a ∈ op.pnode) ∧
      ∀ a, a ∉ h :: xs → a ∉ op.onRing h xs → m' a = m a := by
  cases op with
  | add c n | addAfter c n =>
      obtain ⟨hn0, hfresh⟩ := hnew n rfl
      obtain ⟨l, l', r, rfl, hl, hins⟩ := split_after n hat
      obtain ⟨m', hrun, hring, hframe⟩ := listAddAfter_ring hr hl hn0 hfresh
      exact ⟨m', hrun, run_ring_insert rfl hins hring hframe⟩
  | addBefore c n =>
      obtain ⟨hn0, hfresh⟩ := hnew n rfl
      obtain ⟨l, r, r', rfl, hs, hins⟩ := split_before n hat
      obtain ⟨m', hrun, hring, hframe⟩ := listAddBefore_ring hr hs hn0 hfresh
      exact ⟨m', hrun, run_ring_insert rfl hins hring hframe⟩
  | del c =>
      obtain ⟨l, r, rfl, hcl⟩ := List.eq_append_cons_of_mem hat
      obtain ⟨m', hrun, hring, hframe⟩ := listDel_ring hr
      refine ⟨m', hrun, run_ring_erase hcl rfl hring fun a ha => hframe a fun h1 => ha ?_⟩
      simp only [List.mem_cons, List.mem_append] at h1 ⊢
      tauto
  | delInit c =>
      obtain ⟨l, r, rfl, hcl⟩ := List.eq_append_cons_of_mem hat
      obtain ⟨m', hrun, hring, -, hframe⟩ := listDelInit_ring hr
      exact ⟨m', hrun, run_ring_erase hcl rfl hring hframe⟩

/-- A call is legal on a family of rings: its place is on one of them, and a
    node it brings in is on none. -/
structure Legal {I : Type} (hd : I → A) (P : I → Prop) (L : I → List A)
    (op : ListOp A) : Prop where
  place : ∃ i, P i ∧ op.At (hd i) (L i)
  fresh : ∀ n ∈ op.pnode, n ≠ NULL ∧ ∀ j, P j → n ∉ hd j :: L j

/-- What a call prescribes for a family of rings. -/
def onRings {I : Type} (hd : I → A) (op : ListOp A) (L : I → List A) : I → List A :=
  fun i => op.onRing (hd i) (L i)

/-- One call on a family: the rings stay well formed, and those that do not
    hold its place are not touched. -/
theorem run_rings {I : Type} {m : LinkMem A} {hd : I → A} {P : I → Prop}
    {L : I → List A} {op : ListOp A} (hR : Rings m hd P L)
    (hop : op.Legal hd P L) :
    ∃ m', op.run m = some m' ∧ Rings m' hd P (op.onRings hd L) ∧
      ∀ j, P j → op.pcur ∉ hd j :: L j →
        op.onRings hd L j = L j ∧ ∀ a ∈ hd j :: L j, m' a = m a := by
  classical
  obtain ⟨⟨i, hi, hat⟩, hfresh⟩ := hop
  obtain ⟨m', hrun, hring, hsub, hframe⟩ := run_ring (hR.ring i hi) hat
    fun n hn => ⟨(hfresh n hn).1, (hfresh n hn).2 i hi⟩
  have helse : ∀ j, P j → j ≠ i → (hd j :: L j).Disjoint (hd i :: L i) :=
    fun j hj hji => hR.disj j i hj hi hji
  have hnone : ∀ j, P j → j ≠ i → op.pcur ∉ hd j :: L j := fun j hj hji hc =>
    helse j hj hji hc hat.pcur_mem
  have hnew : ∀ a ∈ op.onRing (hd i) (L i),
      a ∈ hd i :: L i ∨ ∀ j, P j → a ∉ hd j :: L j := by
    intro a ha
    rcases hsub a ha with h1 | h1
    · exact Or.inl (List.mem_cons_of_mem _ h1)
    · exact Or.inr (hfresh a h1).2
  have hR' := hR.update hi hring hframe hnew
  refine ⟨m', hrun, hR'.congr fun j hj => ?_, ?_⟩
  · by_cases hji : j = i
    · subst hji
      rw [Function.update_self, onRings]
    · rw [Function.update_of_ne hji, onRings, onRing_of_notMem (hnone j hj hji)]
  · intro j hj hc
    have hji : j ≠ i := fun e => hc (e ▸ hat.pcur_mem)
    refine ⟨onRing_of_notMem hc, fun a ha => ?_⟩
    refine hframe a (helse j hj hji ha) fun hax => ?_
    rcases hnew a hax with h1 | h1
    · exact helse j hj hji ha h1
    · exact h1 j hj ha

end ListOp

/-! ## Runs -/

/-- The calls of `ops`, one after the other. -/
def runAll (m : LinkMem A) (ops : List (ListOp A)) : Option (LinkMem A) :=
  ops.foldlM ListOp.run m

section Runs

variable {I : Type} {m : LinkMem A} {hd : I → A} {P : I → Prop} {L : I → List A}

/-- What the calls of `ops` prescribe in turn. -/
def onRingsAll (hd : I → A) (ops : List (ListOp A)) (L : I → List A) : I → List A :=
  ops.foldl (fun L op => op.onRings hd L) L

/-- Every call of the run is legal where it is made. -/
def LegalRun (hd : I → A) (P : I → Prop) : List (ListOp A) → (I → List A) → Prop
  | [], _ => True
  | op :: ops, L => op.Legal hd P L ∧ LegalRun hd P ops (op.onRings hd L)

/-- A legal run keeps the rings well formed, by induction on its calls. -/
theorem runAll_rings {ops : List (ListOp A)} (hR : Rings m hd P L)
    (hops : LegalRun hd P ops L) :
    ∃ m', runAll m ops = some m' ∧ Rings m' hd P (onRingsAll hd ops L) := by
  induction ops generalizing m L with
  | nil => exact ⟨m, rfl, hR⟩
  | cons op ops ih =>
      obtain ⟨m₁, hone, hR₁, -⟩ := ListOp.run_rings hR hops.1
      obtain ⟨m₂, hrest, hR₂⟩ := ih hR₁ hops.2
      refine ⟨m₂, ?_, hR₂⟩
      rw [runAll, List.foldlM_cons, hone]
      exact hrest

/-- Any legal run on any family of rings: no call faults, every ring has the
    nodes that the calls prescribe, `list_empty` and `list_next` read them off,
    and a further call changes no ring but the one that holds its place. -/
theorem listRun_refines {ops : List (ListOp A)} (hR : Rings m hd P L)
    (hops : LegalRun hd P ops L) :
    ∃ m', runAll m ops = some m' ∧ Rings m' hd P (onRingsAll hd ops L) ∧
      (∀ i, P i →
        listEmpty m' (hd i) = some (onRingsAll hd ops L i).isEmpty ∧
        listWalk m' ((onRingsAll hd ops L i).length + 1) (hd i)
          = some (onRingsAll hd ops L i ++ [hd i])) ∧
      ∀ op : ListOp A, op.Legal hd P (onRingsAll hd ops L) →
        ∃ m'', op.run m' = some m'' ∧
          ∀ j, P j → op.pcur ∉ hd j :: onRingsAll hd ops L j →
            op.onRings hd (onRingsAll hd ops L) j = onRingsAll hd ops L j ∧
            ∀ a ∈ hd j :: onRingsAll hd ops L j, m'' a = m' a := by
  obtain ⟨m', hrun, hR'⟩ := runAll_rings hR hops
  refine ⟨m', hrun, hR', ?_, ?_⟩
  · exact fun i hi => ⟨(hR'.ring i hi).listEmpty_eq, (hR'.ring i hi).listWalk_eq⟩
  · intro op hop
    obtain ⟨m'', hone, -, hother⟩ := ListOp.run_rings hR' hop
    exact ⟨m'', hone, hother⟩

end Runs

/-- Pointers to cells of `B`, or none. -/
instance {B : Type} : Nullable (Option B) := ⟨none⟩

/-- Heads at the cells 0 and 1. -/
def twoHeads : Bool → Option (Fin 4)
  | false => some 0
  | true => some 1

/-- Two empty rings; the cell 2 is put behind the first head, the cell 3 at its
    end, and the cell 2 is moved to the second ring. -/
theorem listRun_two_heads :
    ∃ m', runAll (fun a => ⟨a, a⟩)
        [.add (some 0) (some 2), .addBefore (some 0) (some 3), .delInit (some 2),
          .addAfter (some 1) (some 2)] = some m' ∧
      (listEmpty m' (twoHeads false) = some false ∧
        listWalk m' 2 (twoHeads false) = some [some 3, some 0]) ∧
      (listEmpty m' (twoHeads true) = some false ∧
        listWalk m' 2 (twoHeads true) = some [some 2, some 1]) := by
  have hR : Rings (fun a : Option (Fin 4) => ⟨a, a⟩) twoHeads (fun _ => True)
      (fun _ => []) := by
    refine ⟨fun i _ => ⟨by simp, ?_, by simp [Link]⟩, fun i j _ _ hij => ?_⟩
    · cases i <;> decide
    · cases i <;> cases j <;> simp [twoHeads] at hij ⊢
  have hops : LegalRun twoHeads (fun _ => True)
      [.add (some 0) (some 2), .addBefore (some 0) (some 3), .delInit (some 2),
        .addAfter (some 1) (some 2)] (fun _ => []) := by
    refine ⟨⟨⟨false, trivial, ?_⟩, ?_⟩, ⟨⟨false, trivial, ?_⟩, ?_⟩,
      ⟨⟨false, trivial, ?_⟩, ?_⟩, ⟨⟨true, trivial, ?_⟩, ?_⟩, trivial⟩
    all_goals simp [ListOp.At, ListOp.onRings, ListOp.onRing, ListOp.pnode,
      twoHeads, insertAfter, insertBefore]
  obtain ⟨m', hrun, -, hshow, -⟩ := listRun_refines hR hops
  exact ⟨m', hrun, hshow false trivial, hshow true trivial⟩

end SharixList
