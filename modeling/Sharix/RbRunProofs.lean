import Sharix.RunProofs
import Sharix.RbInsertProofs
import Sharix.RbDeleteProofs
import Sharix.RbShapeProofs

/-! # Runs of `rb_insert` and `rb_delete`

    A world is the heap and, as a ghost, the nodes that are in the tree.  A
    step inserts a node that is not in the tree, deletes one that is, or
    writes elsewhere.  From `rb_tree_create` on the heap holds a balanced tree
    of these nodes, and one in order if `compare` orders them. -/

namespace SharixRbTree

open SharixRedBlack
open SharixRedBlack.CTree
open SharixRun

variable {ν : Type} [DecidableEq ν] {t : RbTree ν} {h : Heap ν}

/-! ## More fuel -/

/-- A loop that has ended takes nothing of the fuel that is left; so for each of
    the loops, and then for the calls. -/
theorem insertWalk_mono {node v y x : ν} {k n : Nat} (hle : k ≤ n)
    (hw : insertWalk t node h k y x = some v) :
    insertWalk t node h n y x = some v := by
  refine fuel_mono (f := fun n (s : ν × ν) => insertWalk t node h n s.1 s.2)
    (fun _ => rfl) ?_ hle (s := (y, x)) hw
  rintro ⟨y, x⟩
  exact .ite (.done _) (.next (x, _))

theorem insertFixup_mono {x : ν} {h' : Heap ν} {k n : Nat} (hle : k ≤ n)
    (hw : insertFixup t k x h = some h') : insertFixup t n x h = some h' := by
  refine fuel_mono (f := fun n (s : ν × Heap ν) => insertFixup t n s.1 s.2)
    (fun _ => rfl) ?_ hle (s := (x, h)) hw
  rintro ⟨x, h⟩
  exact .ite (.next (insertSub t _ x h)) (.done _)

theorem leftmost_mono {y v : ν} {k n : Nat} (hle : k ≤ n)
    (hw : leftmost t h k y = some v) : leftmost t h n y = some v := by
  refine fuel_mono (f := leftmost t h) (fun _ => rfl) ?_ hle hw
  exact fun y => .ite (.next _) (.done _)

theorem climbRight_mono {x y v : ν} {k n : Nat} (hle : k ≤ n)
    (hw : climbRight h k x y = some v) : climbRight h n x y = some v := by
  refine fuel_mono (f := fun n (s : ν × ν) => climbRight h n s.1 s.2)
    (fun _ => rfl) ?_ hle (s := (x, y)) hw
  rintro ⟨x, y⟩
  exact .ite (.next (y, _)) (.done _)

theorem deleteFixupLoop_mono {root x : ν} {h' : Heap ν} {k n : Nat}
    (hle : k ≤ n) (hw : deleteFixupLoop t root k x h = some h') :
    deleteFixupLoop t root n x h = some h' := by
  refine fuel_mono
    (f := fun n (s : ν × Heap ν) => deleteFixupLoop t root n s.1 s.2)
    (fun _ => rfl) ?_ hle (s := (x, h)) hw
  rintro ⟨x, h⟩
  exact .ite (.next (deleteSub t _ root x h)) (.done _)

/-- `rb_insert` with more fuel returns the same heap. -/
theorem rbInsert_mono {node : ν} {h' : Heap ν} {fuel n : Nat} (hle : fuel ≤ n)
    (hw : rbInsert fuel t node h = some h') :
    rbInsert n t node h = some h' := by
  obtain ⟨h₁, hbin, hw⟩ := Option.bind_eq_some_iff.mp hw
  obtain ⟨y, hwalk, rfl⟩ := Option.map_eq_some_iff.mp hbin
  obtain ⟨h₂, hfix, rfl⟩ := Option.map_eq_some_iff.mp hw
  refine Option.bind_eq_some_iff.mpr ⟨_, Option.map_eq_some_iff.mpr
    ⟨y, insertWalk_mono hle hwalk, rfl⟩, Option.map_eq_some_iff.mpr
    ⟨h₂, insertFixup_mono hle hfix, rfl⟩⟩

/-- And `rb_delete`, whether the successor is below the node or above it. -/
theorem rbDelete_mono {node : ν} {h' : Heap ν} {fuel n : Nat} (hle : fuel ≤ n)
    (hw : rbDelete fuel t node h = some h') :
    rbDelete n t node h = some h' := by
  obtain ⟨y, hy, hw⟩ := Option.bind_eq_some_iff.mp hw
  refine Option.bind_eq_some_iff.mpr ⟨y, ?_, ?_⟩
  · split at hy
    · rename_i hside
      rwa [if_pos hside]
    · rename_i hside
      rw [if_neg hside]
      rw [rbTreeSuccessor] at hy ⊢
      split at hy
      · rename_i hr
        rw [if_pos hr]
        exact leftmost_mono hle hy
      · rename_i hr
        rw [if_neg hr]
        obtain ⟨v, hv, hv'⟩ := Option.map_eq_some_iff.mp hy
        exact Option.map_eq_some_iff.mpr ⟨v, climbRight_mono hle hv, hv'⟩
  · dsimp only at hw ⊢
    split at hw
    · rename_i hfix
      rw [if_pos hfix]
      exact deleteFixupLoop_mono hle hw
    · rename_i hfix
      rwa [if_neg hfix]

/-! ## The calls on a tree -/

/-- `rb_insert` of a new node returns; the frames that the walk went down say
    where the node is. -/
theorem rbInsert_returns {z : ν} {l : List ν} (hh : Holds t h l)
    (hz : z ∉ t.nil :: t.root :: l) :
    ∃ h' fs, (∀ n, l.length < n → rbInsert n t z h = some h') ∧
      l = before fs ++ after fs ∧ Steers t.compare z fs ∧
      Holds t h' (before fs ++ z :: after fs) := by
  obtain ⟨T, k, hf, hb, htop, rfl⟩ := hh
  obtain ⟨h', T', k', fs, hret, hf', hb', htop', hp, hs, hlist⟩ :=
    rbInsert_focus hf hb htop hz (Nat.lt_succ_self _)
  refine ⟨h', fs, fun n hn => rbInsert_mono hn hret, ?_, hs,
    T', k', hf', hb', htop', hlist⟩
  rw [← hp, toList_plug]
  simp [toList]

/-- `rb_delete` of a node returns, and takes just that node out of the sequence. -/
theorem rbDelete_returns {z : ν} {l₁ l₂ : List ν}
    (hh : Holds t h (l₁ ++ z :: l₂)) :
    ∃ h', (∀ n, (l₁ ++ z :: l₂).length < n → rbDelete n t z h = some h') ∧
      Holds t h' (l₁ ++ l₂) := by
  obtain ⟨h', hret, hh'⟩ := rbDelete_holds hh (Nat.lt_succ_self _)
  exact ⟨h', fun n hn => rbDelete_mono hn hret, hh'⟩

/-! ## Runs -/

/-- The heap, and the nodes that are in the tree. -/
structure World (ν : Type) where
  heap : Heap ν
  nodes : List ν

inductive Step (t : RbTree ν) : World ν → World ν → Prop where
  | insert {h h' : Heap ν} {nodes : List ν} {node : ν} {fuel : Nat} :
      node ∉ t.nil :: t.root :: nodes → rbInsert fuel t node h = some h' →
      Step t ⟨h, nodes⟩ ⟨h', node :: nodes⟩
  | delete {h h' : Heap ν} {nodes : List ν} {node : ν} {fuel : Nat} :
      node ∈ nodes → rbDelete fuel t node h = some h' →
      Step t ⟨h, nodes⟩ ⟨h', nodes.erase node⟩
  | elsewhere {h h' : Heap ν} {nodes : List ν} :
      (∀ v ∈ t.nil :: t.root :: nodes, h' v = h v) →
      Step t ⟨h, nodes⟩ ⟨h', nodes⟩

/-- `compare` orders the nodes, equal ones allowed. -/
structure TotalPreorder (compare : ν → ν → Int) : Prop where
  total : ∀ a b, compare a b ≤ 0 ∨ compare b a ≤ 0
  trans : ∀ a b c, compare a b ≤ 0 → compare b c ≤ 0 → compare a c ≤ 0

def Sorted (compare : ν → ν → Int) (l : List ν) : Prop :=
  l.Pairwise fun a b => compare a b ≤ 0

omit [DecidableEq ν] in
/-- The frames of the walk part a sorted tree at the place of the new node. -/
theorem steers_parts {compare : ν → ν → Int} (hpre : TotalPreorder compare)
    {z : ν} (fs : List (Frame ν)) :
    ∀ {m : List ν}, Sorted compare (before fs ++ m ++ after fs) →
      Steers compare z fs →
      (∀ v ∈ before fs, compare v z ≤ 0) ∧
        ∀ v ∈ after fs, 0 < compare v z := by
  induction fs with
  | nil =>
      intro m _ _
      constructor <;> intro v hv <;> cases hv
  | cons f fs ih =>
      intro m hsort hs
      rcases f with ⟨d, c, x, sib⟩
      have hx := hs _ List.mem_cons_self
      have hrest : Steers compare z fs := fun g hg =>
        hs g (List.mem_cons_of_mem _ hg)
      cases d with
      | left =>
          have hsort' : Sorted compare
              (before fs ++ (m ++ x :: sib.toList) ++ after fs) := by
            simpa [before, after] using hsort
          obtain ⟨h1, h2⟩ := ih hsort' hrest
          have hpos : 0 < compare x z := hx.mp rfl
          simp only [before, after, List.append_nil, List.mem_append,
            List.mem_cons]
          refine ⟨h1, ?_⟩
          rintro v ((rfl | hv) | hv)
          · exact hpos
          · -- `x` comes before `v`, so `v` is above `z` as `x` is
            by_contra hle
            have hxv : compare x v ≤ 0 := by
              have hin := (List.pairwise_append.mp
                (List.pairwise_append.mp hsort').1).2.1
              have hin' := (List.pairwise_append.mp hin).2.1
              exact (List.pairwise_cons.mp hin').1 v hv
            have hxz := hpre.trans x v z hxv (by omega)
            omega
          · exact h2 v hv
      | right =>
          have hsort' : Sorted compare
              (before fs ++ (sib.toList ++ x :: m) ++ after fs) := by
            simpa [before, after] using hsort
          obtain ⟨h1, h2⟩ := ih hsort' hrest
          have hle : compare x z ≤ 0 := by
            by_contra hnot
            have hpos : 0 < compare x z := by omega
            have hdir := hx.mpr hpos
            cases hdir
          simp only [before, after, List.nil_append, List.mem_append,
            List.mem_singleton]
          refine ⟨?_, h2⟩
          rintro v (hv | hv | rfl)
          · exact h1 v hv
          · have hvx : compare v x ≤ 0 := by
              have hin := (List.pairwise_append.mp
                (List.pairwise_append.mp hsort').1).2.1
              exact (List.pairwise_append.mp hin).2.2 v hv x
                List.mem_cons_self
            exact hpre.trans v x z hvx hle
          · exact hle

/-- What every world of a run has: the heap holds a balanced tree of the
    nodes, in order if `compare` orders them. -/
def Inv (t : RbTree ν) (w : World ν) : Prop :=
  ∃ l, Holds t w.heap l ∧ l.Perm w.nodes ∧
    (TotalPreorder t.compare → Sorted t.compare l)

omit [DecidableEq ν] in
/-- `rb_insert` keeps the order. -/
theorem sorted_insert {compare : ν → ν → Int} (hpre : TotalPreorder compare)
    {z : ν} {fs : List (Frame ν)}
    (hsort : Sorted compare (before fs ++ after fs))
    (hs : Steers compare z fs) :
    Sorted compare (before fs ++ z :: after fs) := by
  obtain ⟨h1, h2⟩ := steers_parts hpre (m := []) fs
    (by rwa [List.append_nil]) hs
  obtain ⟨hb, ha, hba⟩ := List.pairwise_append.mp hsort
  refine List.pairwise_append.mpr ⟨hb, List.pairwise_cons.mpr ⟨?_, ha⟩, ?_⟩
  · intro v hv
    have hpos := h2 v hv
    rcases hpre.total z v with hle | hle
    · exact hle
    · omega
  · intro u hu v hv
    rcases List.mem_cons.mp hv with rfl | hv
    · exact h1 u hu
    · exact hba u hu v hv

/-- Every step keeps the invariant, a case for each kind: the new node comes
    where the walk ended, the deleted one is taken out, and writes elsewhere are
    not seen. -/
theorem inv_step {w w' : World ν} (hi : Inv t w) (hstep : Step t w w') :
    Inv t w' := by
  obtain ⟨l, hh, hperm, hsort⟩ := hi
  cases hstep with
  | @insert h h' nodes node fuel hnew hret =>
      obtain ⟨h₁, fs, hret₁, rfl, hs, hh₁⟩ := rbInsert_returns hh (by
        simpa only [List.mem_cons, hperm.mem_iff] using hnew)
      obtain rfl := fuel_agree rbInsert_mono hret hret₁
      refine ⟨_, hh₁, List.perm_middle.trans (hperm.cons node), ?_⟩
      exact fun hpre => sorted_insert hpre (hsort hpre) hs
  | @delete h h' nodes node fuel hmem hret =>
      obtain ⟨l₁, l₂, rfl⟩ := List.append_of_mem (hperm.mem_iff.mpr hmem)
      obtain ⟨h₁, hret₁, hh₁⟩ := rbDelete_returns hh
      obtain rfl := fuel_agree rbDelete_mono hret hret₁
      refine ⟨_, hh₁, ?_, fun hpre => (hsort hpre).sublist
        ((List.sublist_cons_self node l₂).append_left l₁)⟩
      have hcons := (List.perm_middle.symm.trans hperm).trans
        (List.perm_cons_erase hmem)
      exact hcons.cons_inv
  | elsewhere hsame =>
      obtain ⟨T, k, hf, hb, htop, rfl⟩ := hh
      refine ⟨_, ⟨T, k, focus_congr (fun v hv => hsame v ?_) hf, hb, htop,
        rfl⟩, hperm, hsort⟩
      simpa only [frameNodes, List.append_nil, List.mem_cons,
        hperm.mem_iff] using hv

/-- `rb_tree_create` succeeds only with all three allocations. -/
theorem rbTreeCreate_eq_some {compare : ν → ν → Int}
    {tree nil root : Option ν} {h h' : Heap ν} {freed : List ν}
    (hcreate : rbTreeCreate compare tree nil root h = (some t, h', freed)) :
    t.compare = compare ∧
      h' = Function.update (Function.update h t.nil
        ⟨false, t.nil, t.nil, t.nil⟩) t.root ⟨false, t.nil, t.nil, t.nil⟩ := by
  cases tree with
  | none => cases hcreate
  | some tree =>
      cases nil with
      | none => cases hcreate
      | some nil =>
          cases root with
          | none => cases hcreate
          | some root =>
              cases hcreate
              exact ⟨rfl, rfl⟩

/-- `rb_tree_create` makes an empty tree, if it makes one. -/
theorem inv_create {compare : ν → ν → Int} {tree nil root : Option ν}
    {h h' : Heap ν} {freed : List ν}
    (hcreate : rbTreeCreate compare tree nil root h = (some t, h', freed))
    (hne : t.nil ≠ t.root) : Inv t ⟨h', []⟩ := by
  obtain ⟨-, rfl⟩ := rbTreeCreate_eq_some hcreate
  refine ⟨[], ⟨leaf, 0, ⟨trivial, Function.update_self _ _ _, ?_, ?_⟩, .leaf,
    rfl, rfl⟩, List.Perm.refl _, fun _ => List.Pairwise.nil⟩
  · simpa [toList, frameNodes] using hne
  · dsimp only
    rw [Function.update_of_ne hne, Function.update_self]

/-- Every run keeps the invariant. -/
theorem inv_run {w w' : World ν} (hi : Inv t w)
    (hrun : Relation.ReflTransGen (Step t) w w') : Inv t w' :=
  run_invariant (I := Inv t) (fun _ _ => inv_step) hrun hi

/-! ## Every tree that is built -/

/-- **THE TREE STAYS A RED-BLACK TREE**, and every call on it returns, with
    fuel above the number of nodes. -/
theorem rb_tree_balanced {compare : ν → ν → Int} {tree nil root : Option ν}
    {h₀ h : Heap ν} {freed : List ν} {w : World ν}
    (hcreate : rbTreeCreate compare tree nil root h₀ = (some t, h, freed))
    (hne : t.nil ≠ t.root)
    (hrun : Relation.ReflTransGen (Step t) ⟨h, []⟩ w) :
    RedBlack t w.heap w.nodes ∧
    (∀ node, node ∉ t.nil :: t.root :: w.nodes → ∃ h', ∀ fuel,
      w.nodes.length < fuel → rbInsert fuel t node w.heap = some h') ∧
    (∀ node, node ∈ w.nodes → ∃ h', ∀ fuel,
      w.nodes.length < fuel → rbDelete fuel t node w.heap = some h') := by
  obtain ⟨l, hh, hperm, -⟩ := inv_run (inv_create hcreate hne) hrun
  refine ⟨hh.redBlack hperm, ?_, ?_⟩
  · intro node hnew
    obtain ⟨h', fs, hret, -⟩ := rbInsert_returns hh (by
      simpa only [List.mem_cons, hperm.mem_iff] using hnew)
    rw [hperm.length_eq] at hret
    exact ⟨h', hret⟩
  · intro node hmem
    obtain ⟨l₁, l₂, rfl⟩ := List.append_of_mem (hperm.mem_iff.mpr hmem)
    obtain ⟨h', hret, -⟩ := rbDelete_returns hh
    rw [hperm.length_eq] at hret
    exact ⟨h', hret⟩

/-! Nodes 2, 3 and 4, inserted in this order, and 2 deleted; the comparison
    is that of their numbers. -/

def demoTree : RbTree Nat := ⟨fun a b => a - b, 0, 1⟩

def demoHeap : Heap Nat :=
  Function.update (Function.update (fun _ => ⟨false, 0, 0, 0⟩) 0
    ⟨false, 0, 0, 0⟩) 1 ⟨false, 0, 0, 0⟩

/-- The three allocations are given. -/
theorem demo_create : rbTreeCreate demoTree.compare (some 2) (some 0) (some 1)
    (fun _ => ⟨false, 0, 0, 0⟩) = (some demoTree, demoHeap, []) := rfl

def demoInsert (node : Nat) (w : World Nat) : World Nat :=
  ⟨(rbInsert 4 demoTree node w.heap).getD w.heap, node :: w.nodes⟩

def demoDelete (node : Nat) (w : World Nat) : World Nat :=
  ⟨(rbDelete 4 demoTree node w.heap).getD w.heap, w.nodes.erase node⟩

def demoWorld : World Nat :=
  demoDelete 2 (demoInsert 4 (demoInsert 3 (demoInsert 2 ⟨demoHeap, []⟩)))

theorem some_getD {α : Type} {o : Option α} (a : α) (h : o.isSome = true) :
    o = some (o.getD a) := by
  cases o with
  | none => cases h
  | some b => rfl

theorem demoInsert_step (node : Nat) (w : World Nat)
    (hnew : node ∉ demoTree.nil :: demoTree.root :: w.nodes)
    (hret : (rbInsert 4 demoTree node w.heap).isSome = true) :
    Step demoTree w (demoInsert node w) :=
  .insert hnew (some_getD w.heap hret)

theorem demoDelete_step (node : Nat) (w : World Nat) (hmem : node ∈ w.nodes)
    (hret : (rbDelete 4 demoTree node w.heap).isSome = true) :
    Step demoTree w (demoDelete node w) :=
  .delete hmem (some_getD w.heap hret)

/-- The run: three calls of `rb_insert`, one of `rb_delete`. -/
theorem demo_run :
    Relation.ReflTransGen (Step demoTree) ⟨demoHeap, []⟩ demoWorld := by
  have h2 := demoInsert_step 2 ⟨demoHeap, []⟩ (by decide) (by decide +kernel)
  have h3 := demoInsert_step 3 (demoInsert 2 ⟨demoHeap, []⟩)
    (by decide) (by decide +kernel)
  have h4 := demoInsert_step 4 (demoInsert 3 (demoInsert 2 ⟨demoHeap, []⟩))
    (by decide) (by decide +kernel)
  have hd := demoDelete_step 2
    (demoInsert 4 (demoInsert 3 (demoInsert 2 ⟨demoHeap, []⟩)))
    (by decide) (by decide +kernel)
  exact (((Relation.ReflTransGen.single h2).tail h3).tail h4).tail hd

theorem rb_tree_balanced_demo :
    RedBlack demoTree demoWorld.heap demoWorld.nodes :=
  (rb_tree_balanced demo_create (by decide) demo_run).1

/-- **THE TREE IS A SORTED SEQUENCE**: `rb_insert` puts the new node behind
    all nodes that are not above it, `rb_delete` takes its node out, and
    neither does more. -/
theorem rb_tree_ordered {compare : ν → ν → Int} {tree nil root : Option ν}
    {h₀ h : Heap ν} {freed : List ν} {w : World ν}
    (hcreate : rbTreeCreate compare tree nil root h₀ = (some t, h, freed))
    (hne : t.nil ≠ t.root) (hpre : TotalPreorder compare)
    (hrun : Relation.ReflTransGen (Step t) ⟨h, []⟩ w) :
    (∃ l, InOrder t w.heap (w.heap t.root).left l) ∧
    ∀ l, InOrder t w.heap (w.heap t.root).left l →
      Sorted compare l ∧ l.Perm w.nodes ∧ l.Nodup ∧
      (∀ node, node ∉ t.nil :: t.root :: w.nodes → ∃ h' l₁ l₂,
        (∀ fuel, w.nodes.length < fuel →
          rbInsert fuel t node w.heap = some h') ∧
        l = l₁ ++ l₂ ∧ InOrder t h' (h' t.root).left (l₁ ++ node :: l₂) ∧
        (∀ v ∈ l₁, compare v node ≤ 0) ∧ ∀ v ∈ l₂, 0 < compare v node) ∧
      (∀ l₁ node l₂, l = l₁ ++ node :: l₂ → ∃ h',
        (∀ fuel, w.nodes.length < fuel →
          rbDelete fuel t node w.heap = some h') ∧
        InOrder t h' (h' t.root).left (l₁ ++ l₂)) := by
  obtain ⟨rfl, -⟩ := rbTreeCreate_eq_some hcreate
  obtain ⟨l, hh, hperm, hsort⟩ := inv_run (inv_create hcreate hne) hrun
  refine ⟨⟨l, hh.inOrder⟩, fun l' hl' => ?_⟩
  obtain rfl := hh.inOrder.unique hl'
  refine ⟨hsort hpre, hperm, ?_, ?_, ?_⟩
  · exact (List.nodup_cons.mp (List.nodup_cons.mp hh.nodup).2).2
  · intro node hnew
    obtain ⟨h', fs, hret, hl, hs, hh'⟩ := rbInsert_returns hh (by
      simpa only [List.mem_cons, hperm.mem_iff] using hnew)
    rw [hperm.length_eq] at hret
    obtain ⟨h1, h2⟩ := steers_parts hpre (m := []) fs (by
      rw [List.append_nil, ← hl]
      exact hsort hpre) hs
    exact ⟨h', before fs, after fs, hret, hl, hh'.inOrder, h1, h2⟩
  · rintro l₁ node l₂ rfl
    obtain ⟨h', hret, hh'⟩ := rbDelete_returns hh
    rw [hperm.length_eq] at hret
    exact ⟨h', hret, hh'.inOrder⟩

theorem rb_tree_ordered_demo :
    ∃ l, InOrder demoTree demoWorld.heap (demoWorld.heap demoTree.root).left l
    := by
  have hpre : TotalPreorder demoTree.compare :=
    ⟨fun a b => by simp only [demoTree]; omega,
      fun a b c => by simp only [demoTree]; omega⟩
  exact (rb_tree_ordered demo_create (by decide) hpre demo_run).1

end SharixRbTree
