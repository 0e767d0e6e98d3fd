import Sharix.RbRunProofs
import Sharix.SlabUseProofs

/-! # The life of a tree — `rb_tree.c` over `slab.c`

    `rb_tree_create` makes three calls of `kmalloc`, and where one fails it
    gives back what the others got; `rb_tree_destroy` gives back all three.
    The nodes that were inserted are their users'. -/

namespace SharixRbAlloc

open SharixRbTree SharixRun
open SharixSlab (PageAllocator Correct RunInv Uses granted)

variable {σ : Type}

/-! ## The model -/

/-- `sizeof(rb_tree)` -/
def sizeofRbTree : Nat := 12

/-- `sizeof(rb_node)` -/
def sizeofRbNode : Nat := 16

section Model

variable (A : PageAllocator σ)

def rbNodeCreate (s : SharixSlab.State σ) : Option (Option Nat × SharixSlab.State σ) :=
  SharixSlab.kmalloc A sizeofRbNode s

/-- From the label `bad_node_cleanup_tree` on. -/
def badNodeCleanupTree (tree : Nat) (s : SharixSlab.State σ) : Option (SharixSlab.State σ) :=
  SharixSlab.kfree A tree s

/-- From the label `bad_node_cleanup_nil` on. -/
def badNodeCleanupNil (nil tree : Nat) (s : SharixSlab.State σ) :
    Option (SharixSlab.State σ) :=
  (SharixSlab.kfree A nil s).bind (badNodeCleanupTree A tree)

/-- `rb_tree_create`: the tree with its address, or `NULL`. -/
def rbTreeCreate (compare : Nat → Nat → Int) (h : Heap Nat) (s : SharixSlab.State σ) :
    Option (Option (Nat × RbTree Nat) × Heap Nat × SharixSlab.State σ) :=
  (SharixSlab.kmalloc A sizeofRbTree s).bind fun r =>
    match r.1 with
    | none => some (none, h, r.2)
    | some tree =>
        (rbNodeCreate A r.2).bind fun r =>
          match r.1 with
          | none => (badNodeCleanupTree A tree r.2).map fun s => (none, h, s)
          | some nil =>
              let h := Function.update h nil ⟨false, nil, nil, nil⟩
              (rbNodeCreate A r.2).bind fun r =>
                match r.1 with
                | none => (badNodeCleanupNil A nil tree r.2).map fun s => (none, h, s)
                | some root =>
                    some (some (tree, ⟨compare, nil, root⟩),
                      Function.update h root ⟨false, nil, nil, nil⟩, r.2)

def rbTreeDestroy (tree : Nat) (t : RbTree Nat) (s : SharixSlab.State σ) :
    Option (SharixSlab.State σ) :=
  (SharixSlab.kfree A t.root s).bind fun s =>
    (SharixSlab.kfree A t.nil s).bind fun s => SharixSlab.kfree A tree s

end Model

/-! ## Creating -/

/-- The objects of a tree, the last one first. -/
def treeBlocks (tree : Nat) (t : RbTree Nat) : List (Nat × Nat) :=
  [(t.root, sizeofRbNode), (t.nil, sizeofRbNode), (tree, sizeofRbTree)]

variable {A : PageAllocator σ} {inUse : σ → Nat → Prop} {C : Prop}
variable {s : SharixSlab.State σ} {live : List (Nat × Nat)}

theorem badNodeCleanupNil_spec (hA : Correct A inUse) {nil tree : Nat}
    (hinv : RunInv inUse C ⟨s, (nil, sizeofRbNode) :: (tree, sizeofRbTree) :: live⟩) :
    ∃ s', badNodeCleanupNil A nil tree s = some s' ∧
      Uses A inUse s s' ((nil, sizeofRbNode) :: (tree, sizeofRbTree) :: live) live := by
  obtain ⟨s₁, hnil, huse₁⟩ := hinv.kfree hA (.refl _)
  obtain ⟨s₂, htree, huse₂⟩ := (hinv.uses hA huse₁).kfree hA (.refl _)
  refine ⟨s₂, ?_, huse₁.trans huse₂⟩
  rw [badNodeCleanupNil, hnil, Option.bind_some, badNodeCleanupTree, htree]

/-- `rb_tree_create` returns: all of a tree, or nothing. -/
theorem rbTreeCreate_spec (hA : Correct A inUse) (hinv : RunInv inUse C ⟨s, live⟩)
    (compare : Nat → Nat → Int) (h : Heap Nat) :
    ∃ r h' s', rbTreeCreate A compare h s = some (r, h', s') ∧
      (r = none → Uses A inUse s s' live live ∧ ∀ p ∈ live.map Prod.fst, h' p = h p) ∧
      ∀ tree t, r = some (tree, t) →
        Uses A inUse s s' live (treeBlocks tree t ++ live) ∧
        (SharixRbTree.rbTreeCreate compare (some tree) (some t.nil) (some t.root) h)
          = (some t, h', []) := by
  obtain ⟨o₁, s₁, hcall₁, huse₁⟩ := hinv.kmalloc hA sizeofRbTree
  cases o₁ with
  | none =>
      refine ⟨none, h, s₁, by rw [rbTreeCreate, hcall₁]; rfl, fun _ => ⟨huse₁, fun _ _ => rfl⟩, ?_⟩
      exact fun _ _ hr => absurd hr.symm (Option.some_ne_none _)
  | some tree =>
      have hinv₁ := hinv.uses hA huse₁
      obtain ⟨o₂, s₂, hcall₂, huse₂⟩ := hinv₁.kmalloc hA sizeofRbNode
      have hnode₂ : rbNodeCreate A s₁ = some (o₂, s₂) := hcall₂
      have hinv₂ := hinv₁.uses hA huse₂
      cases o₂ with
      | none =>
          obtain ⟨s₃, hfree, huse₃⟩ := hinv₂.kfree hA (o := (tree, sizeofRbTree)) (.refl _)
          have hclean : badNodeCleanupTree A tree s₂ = some s₃ := hfree
          refine ⟨none, h, s₃, ?_, fun _ => ⟨(huse₁.trans huse₂).trans huse₃, fun _ _ => rfl⟩, ?_⟩
          · rw [rbTreeCreate, hcall₁, Option.bind_some]
            dsimp only
            rw [hnode₂, Option.bind_some]
            dsimp only
            rw [hclean, Option.map_some]
          · exact fun _ _ hr => absurd hr.symm (Option.some_ne_none _)
      | some nil =>
          obtain ⟨o₃, s₃, hcall₃, huse₃⟩ := hinv₂.kmalloc hA sizeofRbNode
          have hnode₃ : rbNodeCreate A s₂ = some (o₃, s₃) := hcall₃
          have hall := (huse₁.trans huse₂).trans huse₃
          cases o₃ with
          | none =>
              obtain ⟨s₄, hclean, huse₄⟩ := badNodeCleanupNil_spec hA (hinv₂.uses hA huse₃)
              refine ⟨none, Function.update h nil ⟨false, nil, nil, nil⟩, s₄, ?_,
                fun _ => ⟨hall.trans huse₄, fun p hp => ?_⟩, ?_⟩
              · rw [rbTreeCreate, hcall₁, Option.bind_some]
                dsimp only
                rw [hnode₂, Option.bind_some]
                dsimp only
                rw [hnode₃, Option.bind_some]
                dsimp only
                rw [hclean, Option.map_some]
              · -- the node that was cleared has gone back
                refine Function.update_of_ne ?_ _ _
                rintro rfl
                have hfresh := (List.nodup_cons.mp (RunInv.nodup hinv₂)).1
                exact hfresh (List.mem_cons_of_mem _ hp)
              · exact fun _ _ hr => absurd hr.symm (Option.some_ne_none _)
          | some root =>
              refine ⟨some (tree, ⟨compare, nil, root⟩),
                Function.update (Function.update h nil ⟨false, nil, nil, nil⟩) root
                  ⟨false, nil, nil, nil⟩,
                s₃, ?_, fun hr => absurd hr (Option.some_ne_none _), ?_⟩
              · rw [rbTreeCreate, hcall₁, Option.bind_some]
                dsimp only
                rw [hnode₂, Option.bind_some]
                dsimp only
                rw [hnode₃, Option.bind_some]
              · rintro tree' t hr
                obtain ⟨rfl, rfl⟩ := Prod.mk.inj (Option.some.inj hr)
                exact ⟨hall, rfl⟩

/-! ## Destroying -/

theorem rbTreeDestroy_spec (hA : Correct A inUse) {tree : Nat} {t : RbTree Nat}
    (hinv : RunInv inUse C ⟨s, treeBlocks tree t ++ live⟩) :
    ∃ s', rbTreeDestroy A tree t s = some s' ∧
      Uses A inUse s s' (treeBlocks tree t ++ live) live := by
  obtain ⟨s₁, hroot, huse₁⟩ := hinv.kfree hA (.refl _)
  have hinv₁ := hinv.uses hA huse₁
  obtain ⟨s₂, hnil, huse₂⟩ := hinv₁.kfree hA (.refl _)
  obtain ⟨s₃, htree, huse₃⟩ := (hinv₁.uses hA huse₂).kfree hA (.refl _)
  refine ⟨s₃, ?_, (huse₁.trans huse₂).trans huse₃⟩
  rw [rbTreeDestroy, hroot, Option.bind_some, hnil, Option.bind_some, htree]

/-- **ALL OF A TREE OR NOTHING**: at any point of any run of the heap, over a
    correct page allocator, `rb_tree_create` returns.  If it answers `NULL`, the
    live objects and what they hold are those before the call.  Otherwise there
    are three more, each for itself, that make an empty tree, which every run of
    `rb_insert` and `rb_delete` keeps a red-black tree; and whenever they are
    live, `rb_tree_destroy` returns and takes just these three away. -/
theorem rb_tree_create_cleans (hA : Correct A inUse) (hobt : s.obtained = [])
    (hret : s.returned = []) (compare : Nat → Nat → Int) (h : Heap Nat) :
    ∃ s₀, SharixSlab.slabInit s = some s₀ ∧
      ∀ w, Relation.ReflTransGen (SharixSlab.Step A inUse) ⟨s₀, []⟩ w →
        ∃ r h' s', rbTreeCreate A compare h w.state = some (r, h', s') ∧
          (r = none → Uses A inUse w.state s' w.live w.live ∧
            ∀ p ∈ w.live.map Prod.fst, h' p = h p) ∧
          ∀ tree t, r = some (tree, t) →
            Uses A inUse w.state s' w.live (treeBlocks tree t ++ w.live) ∧
            ((treeBlocks tree t ++ w.live).map Prod.fst).Nodup ∧
            (∀ w', Relation.ReflTransGen (SharixRbTree.Step t) ⟨h', []⟩ w' →
              RedBlack t w'.heap w'.nodes) ∧
            ∀ s₁ live₁, Uses A inUse s' s₁ (treeBlocks tree t ++ w.live)
                (treeBlocks tree t ++ live₁) →
              ∃ s₂, rbTreeDestroy A tree t s₁ = some s₂ ∧
                Uses A inUse s₁ s₂ (treeBlocks tree t ++ live₁) live₁ := by
  obtain ⟨s₀, hinit, hall⟩ := SharixSlab.slabInit_run hA hobt hret
  refine ⟨s₀, hinit, fun w hrun => ?_⟩
  have hw : RunInv inUse (∀ q, s.pgSlab q = false) ⟨w.state, w.live⟩ := hall w hrun
  obtain ⟨r, h', s', hcreate, hnull, htree⟩ := rbTreeCreate_spec hA hw compare h
  refine ⟨r, h', s', hcreate, hnull, fun tree t hr => ?_⟩
  obtain ⟨huse, hsame⟩ := htree tree t hr
  have hinv := hw.uses hA huse
  have hnodup := hinv.nodup
  refine ⟨huse, hnodup, fun w' hrun' => ?_, fun s₁ live₁ huse₁ => ?_⟩
  · have hne : t.nil ≠ t.root := by
      rintro heq
      exact (List.nodup_cons.mp hnodup).1 (heq ▸ List.mem_cons_self)
    obtain ⟨l, hh, hperm, -⟩ := inv_run (inv_create hsame hne) hrun'
    exact hh.redBlack hperm
  · exact rbTreeDestroy_spec hA (hinv.uses hA huse₁)

/-- With one page there is room for a tree. -/
theorem rb_tree_create_cleans_demo :
    ∃ tree t h' s' s₂,
      rbTreeCreate (SharixSlab.demoPages 8) (fun a b => a - b) demoHeap SharixSlab.demoInit
        = some (some (tree, t), h', s') ∧
      RedBlack t h' [] ∧
      rbTreeDestroy (SharixSlab.demoPages 8) tree t s' = some s₂ ∧
      Uses (SharixSlab.demoPages 8) (fun m q => q ∈ m) s' s₂ (treeBlocks tree t) [] := by
  have hsome : ((rbTreeCreate (SharixSlab.demoPages 8) (fun a b => a - b) demoHeap
      SharixSlab.demoInit).bind fun r => r.1).isSome := by decide +kernel
  obtain ⟨s₀, hinit, hall⟩ := rb_tree_create_cleans SharixSlab.demoPages_eight
    (s := SharixSlab.demoStart) rfl rfl (fun a b => a - b) demoHeap
  obtain rfl := Option.some.inj (SharixSlab.demoInit_eq.symm.trans hinit)
  obtain ⟨r, h', s', hcreate, -, htree⟩ := hall _ .refl
  rw [hcreate, Option.bind_some] at hsome
  obtain ⟨⟨tree, t⟩, rfl⟩ := Option.isSome_iff_exists.mp hsome
  obtain ⟨-, -, hred, hdestroy⟩ := htree tree t rfl
  obtain ⟨s₂, hcall, huse⟩ := hdestroy s' [] (.of_perm (.refl _))
  exact ⟨tree, t, h', s', s₂, hcreate, hred _ .refl, hcall, huse⟩

end SharixRbAlloc
