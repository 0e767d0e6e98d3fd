import Mathlib.Data.List.Nodup
import Sharix.RbTreeProofs

/-! # Trees in the heap of nodes

    `Focus t h T fs`: the heap holds the tree `T` in the hole of the frames
    `fs`, below the node `root`, each node of it once and apart from `nil` and
    `root`.  Every parent link and every child link is fixed by it.

    The writes of `rb_tree.c` act on a focus as operations on trees:

    * `setRed` colours the top of the tree in the hole;
    * `rotate` rotates it;
    * `unlink` replaces it by its only child;
    * `replace` puts another node in its place. -/

namespace SharixRbTree

open SharixRedBlack
open SharixRedBlack.CTree

variable {ν : Type}

/-! ## Records seen from a side -/

@[simp] theorem of_red (d : Dir) (c : Bool) (p a b : ν) :
    (RbNode.of d c p a b).red = c := by
  cases d <;> rfl

@[simp] theorem of_parent (d : Dir) (c : Bool) (p a b : ν) :
    (RbNode.of d c p a b).parent = p := by
  cases d <;> rfl

@[simp] theorem of_child (d : Dir) (c : Bool) (p a b : ν) :
    (RbNode.of d c p a b).child d = a := by
  cases d <;> rfl

@[simp] theorem of_child_flip (d : Dir) (c : Bool) (p a b : ν) :
    (RbNode.of d c p a b).child d.flip = b := by
  cases d <;> rfl

/-- A record seen from its other side. -/
theorem of_flip (d : Dir) (c : Bool) (p a b : ν) :
    RbNode.of d.flip c p a b = RbNode.of d c p b a := by
  cases d <;> rfl

@[simp] theorem of_withChild (d : Dir) (c : Bool) (p a b y : ν) :
    (RbNode.of d c p a b).withChild d y = .of d c p y b := by
  cases d <;> rfl

@[simp] theorem of_withChild_flip (d : Dir) (c : Bool) (p a b y : ν) :
    (RbNode.of d c p a b).withChild d.flip y = .of d c p a y := by
  cases d <;> rfl

@[simp] theorem of_withRed (d : Dir) (c c' : Bool) (p a b : ν) :
    { RbNode.of d c p a b with red := c' } = .of d c' p a b := by
  cases d <;> rfl

@[simp] theorem of_withParent (d : Dir) (c : Bool) (p q a b : ν) :
    { RbNode.of d c p a b with parent := q } = .of d c q a b := by
  cases d <;> rfl

/-! ## The tree of a node, the frames of a hole -/

/-- The node a link to the tree points to. -/
def top (nil : ν) : CTree ν → ν
  | .leaf => nil
  | .node _ _ x _ => x

@[simp] theorem top_leaf (nil : ν) : top nil .leaf = nil := rfl

@[simp] theorem top_mk (nil : ν) (d : Dir) (c : Bool) (a : CTree ν) (x : ν)
    (b : CTree ν) : top nil (mk d c a x b) = x := by
  cases d <;> rfl

theorem toList_ne_nil {T : CTree ν} (hT : T ≠ leaf) : T.toList ≠ [] := by
  cases T with
  | leaf => exact absurd rfl hT
  | node c l x r => simp [toList]

/-- The address of a tree that is no leaf is one of its nodes. -/
theorem top_mem {nil : ν} {T : CTree ν} (h : T ≠ leaf) :
    top nil T ∈ T.toList := by
  cases T with
  | leaf => exact absurd rfl h
  | node c l x r => exact List.mem_append_right _ List.mem_cons_self

theorem top_plug_cons (nil : ν) (f : Frame ν) (fs : List (Frame ν))
    (T T' : CTree ν) : top nil (plug T (f :: fs)) = top nil (plug T' (f :: fs))
    := by
  induction fs generalizing f T T' with
  | nil =>
      rw [plug, plug, plug, plug, top_mk, top_mk]
  | cons g gs ih => exact ih g _ _

/-- The root changes only when the hole is at the root. -/
theorem top_plug_congr {nil : ν} (fs : List (Frame ν)) {T T' : CTree ν}
    (h : top nil T = top nil T') :
    top nil (plug T fs) = top nil (plug T' fs) := by
  cases fs with
  | nil => exact h
  | cons f fs => exact top_plug_cons nil f fs T T'

/-- The heap holds the tree, below the node `p`. -/
def Rep (nil : ν) (h : Heap ν) : CTree ν → ν → Prop
  | .leaf, _ => True
  | .node c l x r, p =>
      h x = ⟨c, p, top nil l, top nil r⟩ ∧ Rep nil h l x ∧ Rep nil h r x

/-- The node above a hole. -/
def up (root : ν) : List (Frame ν) → ν
  | [] => root
  | f :: _ => f.x

/-- The side of the hole below the node above it. -/
def upDir : List (Frame ν) → Dir
  | [] => .left
  | f :: _ => f.dir

/-- The heap holds the frames, with a link to `p` at the hole. -/
def CtxRep (t : RbTree ν) (h : Heap ν) : List (Frame ν) → ν → Prop
  | [], p => h t.root = .of .left false t.nil p t.nil
  | f :: fs, p =>
      h f.x = .of f.dir f.red (up t.root fs) p (top t.nil f.sib) ∧
      Rep t.nil h f.sib f.x ∧ CtxRep t h fs f.x

def frameNodes : List (Frame ν) → List ν
  | [] => []
  | f :: fs => f.x :: (f.sib.toList ++ frameNodes fs)

theorem frameNodes_append (gs fs : List (Frame ν)) :
    frameNodes (gs ++ fs) = frameNodes gs ++ frameNodes fs := by
  induction gs with
  | nil => rfl
  | cons g gs ih =>
      simp only [List.cons_append, frameNodes, ih, List.append_assoc]

theorem top_plug_mem (nil : ν) (f : Frame ν) (fs : List (Frame ν))
    (T : CTree ν) : top nil (plug T (f :: fs)) ∈ frameNodes (f :: fs) := by
  induction fs generalizing f T with
  | nil =>
      rw [plug, plug, top_mk]
      exact List.mem_cons_self
  | cons g gs ih =>
      exact List.mem_cons_of_mem _ (List.mem_append_right _ (ih g _))

structure Focus (t : RbTree ν) (h : Heap ν) (T : CTree ν)
    (fs : List (Frame ν)) : Prop where
  rep : Rep t.nil h T (up t.root fs)
  ctx : CtxRep t h fs (top t.nil T)
  nodup : (t.nil :: t.root :: (T.toList ++ frameNodes fs)).Nodup
  nilBlack : (h t.nil).red = false

/-- The nodes, in no order. -/
theorem toList_mk_perm (d : Dir) (c : Bool) (a : CTree ν) (x : ν)
    (b : CTree ν) : (mk d c a x b).toList.Perm (x :: (a.toList ++ b.toList)) := by
  cases d with
  | left => exact List.perm_middle
  | right =>
      exact List.perm_middle.trans
        (List.Perm.cons x List.perm_append_comm)

/-- The nodes of a whole tree are those of the part and of the frames. -/
theorem plug_perm (fs : List (Frame ν)) :
    ∀ T : CTree ν, (plug T fs).toList.Perm (T.toList ++ frameNodes fs) := by
  induction fs with
  | nil =>
      intro T
      rw [frameNodes, List.append_nil]
      exact List.Perm.refl _
  | cons f fs ih =>
      intro T
      refine (ih _).trans (((toList_mk_perm ..).append_right _).trans ?_)
      rw [List.cons_append, List.append_assoc]
      exact List.perm_middle.symm

/-- A node in memory, its subtrees on both sides. -/
theorem rep_mk {nil : ν} {h : Heap ν} {d : Dir} {c : Bool} {a b : CTree ν}
    {x p : ν} :
    Rep nil h (mk d c a x b) p ↔
      h x = .of d c p (top nil a) (top nil b) ∧
      Rep nil h a x ∧ Rep nil h b x := by
  cases d with
  | left => exact Iff.rfl
  | right => exact and_congr_right fun _ => and_comm

/-- Moving the focus down to the side `d`. -/
theorem focus_down {t : RbTree ν} {h : Heap ν} {d : Dir} {c : Bool}
    {a b : CTree ν} {x : ν} {fs : List (Frame ν)} :
    Focus t h (mk d c a x b) fs ↔ Focus t h a (⟨d, c, x, b⟩ :: fs) := by
  have hperm : ((mk d c a x b).toList ++ frameNodes fs).Perm
      (a.toList ++ frameNodes (⟨d, c, x, b⟩ :: fs)) := by
    refine ((toList_mk_perm d c a x b).append_right _).trans ?_
    simp only [frameNodes, List.cons_append, List.append_assoc]
    exact List.perm_middle.symm
  have hnodup := ((hperm.cons t.root).cons t.nil).nodup_iff
  constructor
  · rintro ⟨hrep, hctx, hn, hb⟩
    obtain ⟨hx, ha, hb'⟩ := rep_mk.mp hrep
    rw [top_mk] at hctx
    exact ⟨ha, ⟨hx, hb', hctx⟩, hnodup.mp hn, hb⟩
  · rintro ⟨ha, ⟨hx, hb', hctx⟩, hn, hb⟩
    exact ⟨rep_mk.mpr ⟨hx, ha, hb'⟩, by rw [top_mk]; exact hctx,
      hnodup.mpr hn, hb⟩

/-- Moving the focus over to the sibling. -/
theorem focus_over {t : RbTree ν} {h : Heap ν} {d : Dir} {c : Bool}
    {a b : CTree ν} {x : ν} {fs : List (Frame ν)} :
    Focus t h a (⟨d, c, x, b⟩ :: fs) ↔ Focus t h b (⟨d.flip, c, x, a⟩ :: fs)
    := by
  rw [← focus_down, ← focus_down, mk_flip]

/-- Moving the focus down all the way to a hole. -/
theorem focus_plug {t : RbTree ν} {h : Heap ν} (gs : List (Frame ν)) :
    ∀ {T : CTree ν} {fs : List (Frame ν)},
      Focus t h (plug T gs) fs ↔ Focus t h T (gs ++ fs) := by
  induction gs with
  | nil =>
      intro T fs
      exact Iff.rfl
  | cons g gs ih =>
      intro T fs
      exact ih.trans focus_down

/-- The heap holds a balanced tree with a black top, with these nodes in
    order. -/
def Holds (t : RbTree ν) (h : Heap ν) (l : List ν) : Prop :=
  ∃ T k, Focus t h T [] ∧ Balanced T k ∧ T.isRed = false ∧ T.toList = l

/-- No node is in the tree twice, and none is one of the two sentinels. -/
theorem Holds.nodup {t : RbTree ν} {h : Heap ν} {l : List ν} (hh : Holds t h l) :
    (t.nil :: t.root :: l).Nodup := by
  obtain ⟨T, k, hf, _, _, rfl⟩ := hh
  have hn := hf.nodup
  rwa [frameNodes, List.append_nil] at hn

/-! ## What a focus says about the heap -/

section
variable {t : RbTree ν} {h : Heap ν} {T : CTree ν} {fs : List (Frame ν)}

theorem Focus.node {d : Dir} {c : Bool} {a b : CTree ν} {x : ν}
    (hf : Focus t h (CTree.mk d c a x b) fs) :
    h x = .of d c (up t.root fs) (top t.nil a) (top t.nil b) :=
  (rep_mk.mp hf.rep).1

/-- The frame above, as it is in memory. -/
theorem Focus.frame {f : Frame ν} (hf : Focus t h T (f :: fs)) :
    h f.x = .of f.dir f.red (up t.root fs) (top t.nil T) (top t.nil f.sib) :=
  hf.ctx.1

/-- The link of `root` is one to the top of the tree. -/
theorem Focus.root_left (hf : Focus t h T []) :
    (h t.root).left = top t.nil T := by
  have hroot : h t.root = .of .left false t.nil (top t.nil T) t.nil := hf.ctx
  rw [hroot]
  rfl

/-- The colour of a subtree is that of its first node, a leaf having that of `nil`. -/
theorem Focus.red_top (hf : Focus t h T fs) :
    (h (top t.nil T)).red = T.isRed := by
  cases T with
  | leaf => exact hf.nilBlack
  | node c l x r =>
      rw [top, hf.rep.1]
      rfl

/-- Its parent is the node of the frame above it. -/
theorem Focus.parent_top (hf : Focus t h T fs) (hT : T ≠ leaf) :
    (h (top t.nil T)).parent = up t.root fs := by
  cases T with
  | leaf => exact absurd rfl hT
  | node c l x r =>
      rw [top, hf.rep.1]

theorem Focus.red_sib {f : Frame ν} (hf : Focus t h T (f :: fs)) :
    (h (top t.nil f.sib)).red = f.sib.isRed := by
  exact (focus_over.mp hf).red_top

theorem Focus.red_up (hf : Focus t h T fs) :
    (h (up t.root fs)).red = headRed fs := by
  cases fs with
  | nil =>
      have hroot : h t.root = _ := hf.ctx
      rw [up, hroot]
      rfl
  | cons f fs =>
      rw [up, hf.frame]
      exact of_red ..

/-- The parent that a hole reads from its tree, after writes that spare
    `nil`. -/
theorem parent_kept {h' : Heap ν} {f : Frame ν}
    (hf : Focus t h' T (f :: fs))
    (hnil : h' t.nil = h t.nil) (hp : (h (top t.nil T)).parent = f.x) :
    (h' (top t.nil T)).parent = f.x := by
  cases T with
  | leaf =>
      rw [top_leaf] at hp ⊢
      rw [hnil, hp]
  | node c l x r => exact hf.parent_top (by simp)

theorem up_mem (fs : List (Frame ν)) (root : ν) :
    up root fs ∈ root :: frameNodes fs := by
  cases fs with
  | nil => exact List.mem_cons_self
  | cons f fs => exact List.mem_cons_of_mem _ List.mem_cons_self

/-- The record of the node above the hole. -/
theorem CtxRep.up_eq {p : ν} (hc : CtxRep t h fs p) :
    ∃ c q s, h (up t.root fs) = .of (upDir fs) c q p s ∧
      (s = t.nil ∨ s ∈ frameNodes fs) := by
  cases fs with
  | nil => exact ⟨_, _, _, hc, .inl rfl⟩
  | cons f fs =>
      refine ⟨_, _, _, hc.1, ?_⟩
      cases hs : f.sib with
      | leaf => exact .inl rfl
      | node c l x r =>
          right
          rw [← hs]
          exact List.mem_cons_of_mem _ (List.mem_append_left _
            (top_mem (by rw [hs]; simp)))

end

/-! ## Heaps that agree on a tree -/

/-- A tree is seen through its own nodes only. -/
theorem rep_congr {nil : ν} {h h' : Heap ν} {T : CTree ν} :
    ∀ {p : ν}, (∀ v ∈ T.toList, h' v = h v) → Rep nil h T p →
      Rep nil h' T p := by
  induction T with
  | leaf =>
      intro p _ _
      trivial
  | node c l x r ihl ihr =>
      intro p heq hrep
      obtain ⟨hx, hl, hr⟩ := hrep
      refine ⟨?_, ihl (fun v hv => ?_) hl, ihr (fun v hv => ?_) hr⟩
      · rw [heq x (List.mem_append_right _ List.mem_cons_self), hx]
      · exact heq v (List.mem_append_left _ hv)
      · exact heq v (List.mem_append_right _ (List.mem_cons_of_mem _ hv))

/-- A new parent for the top of the tree. -/
theorem rep_reparent {nil : ν} {h h' : Heap ν} {T : CTree ν} {p q : ν}
    (hn : T.toList.Nodup)
    (htop : T ≠ leaf →
      h' (top nil T) = { h (top nil T) with parent := q })
    (heq : ∀ v ∈ T.toList, v ≠ top nil T → h' v = h v)
    (hrep : Rep nil h T p) : Rep nil h' T q := by
  cases T with
  | leaf => trivial
  | node c l x r =>
      obtain ⟨hx, hl, hr⟩ := hrep
      have hnx := (List.nodup_middle.mp hn)
      rw [List.nodup_cons] at hnx
      have hne : ∀ v ∈ l.toList ++ r.toList, v ≠ x := by
        rintro v hv rfl
        exact hnx.1 hv
      refine ⟨?_, rep_congr (fun v hv => ?_) hl, rep_congr (fun v hv => ?_) hr⟩
      · have h1 := htop (by simp)
        rw [top, hx] at h1
        exact h1
      · exact heq v (List.mem_append_left _ hv)
          (hne v (List.mem_append_left _ hv))
      · exact heq v (List.mem_append_right _ (List.mem_cons_of_mem _ hv))
          (hne v (List.mem_append_right _ hv))

/-- And so are the frames around it. -/
theorem ctxRep_congr {t : RbTree ν} {h h' : Heap ν} {fs : List (Frame ν)} :
    ∀ {p : ν}, (∀ v ∈ t.root :: frameNodes fs, h' v = h v) →
      CtxRep t h fs p → CtxRep t h' fs p := by
  induction fs with
  | nil =>
      intro p heq hc
      exact (heq _ List.mem_cons_self).trans hc
  | cons f fs ih =>
      intro p heq hc
      obtain ⟨hx, hs, hfs⟩ := hc
      refine ⟨?_, rep_congr (fun v hv => ?_) hs, ih (fun v hv => ?_) hfs⟩
      · rw [heq f.x (List.mem_cons_of_mem _ List.mem_cons_self), hx]
      · exact heq v (List.mem_cons_of_mem _ (List.mem_cons_of_mem _
          (List.mem_append_left _ hv)))
      · apply heq
        rcases List.mem_cons.mp hv with rfl | hv
        · exact List.mem_cons_self
        · exact List.mem_cons_of_mem _ (List.mem_cons_of_mem _
            (List.mem_append_right _ hv))

/-- A new link at the hole. -/
theorem ctxRep_relink {t : RbTree ν} {h h' : Heap ν} {fs : List (Frame ν)}
    {p q : ν} (hn : (t.root :: frameNodes fs).Nodup)
    (hup : h' (up t.root fs) = (h (up t.root fs)).withChild (upDir fs) q)
    (heq : ∀ v ∈ t.root :: frameNodes fs, v ≠ up t.root fs → h' v = h v)
    (hc : CtxRep t h fs p) : CtxRep t h' fs q := by
  cases fs with
  | nil =>
      have h1 : h t.root = _ := hc
      rw [up, h1] at hup
      exact hup
  | cons f fs =>
      obtain ⟨hx, hs, hfs⟩ := hc
      have hne : ∀ v ∈ t.root :: (f.sib.toList ++ frameNodes fs), v ≠ f.x := by
        simp only [frameNodes, List.nodup_cons, List.mem_cons] at hn
        rintro v hv rfl
        rcases List.mem_cons.mp hv with heq' | hv
        · exact hn.1 (.inl heq'.symm)
        · exact hn.2.1 hv
      refine ⟨?_, rep_congr (fun v hv => ?_) hs,
        ctxRep_congr (fun v hv => ?_) hfs⟩
      · rw [up, hx, upDir, of_withChild] at hup
        exact hup
      · refine heq v ?_ (hne v ?_)
        · exact List.mem_cons_of_mem _ (List.mem_cons_of_mem _
            (List.mem_append_left _ hv))
        · exact List.mem_cons_of_mem _ (List.mem_append_left _ hv)
      · have hmem : v ∈ t.root :: (f.sib.toList ++ frameNodes fs) := by
          rcases List.mem_cons.mp hv with rfl | hv
          · exact List.mem_cons_self
          · exact List.mem_cons_of_mem _ (List.mem_append_right _ hv)
        refine heq v ?_ (hne v hmem)
        rcases List.mem_cons.mp hmem with rfl | hmem
        · exact List.mem_cons_self
        · exact List.mem_cons_of_mem _ (List.mem_cons_of_mem _ hmem)

/-- A focus reads the nodes of its tree, `root` and `nil` only. -/
theorem focus_congr {t : RbTree ν} {h h' : Heap ν} {T : CTree ν}
    {fs : List (Frame ν)}
    (heq : ∀ v ∈ t.nil :: t.root :: (T.toList ++ frameNodes fs), h' v = h v)
    (hf : Focus t h T fs) : Focus t h' T fs := by
  refine ⟨rep_congr (fun v hv => heq v ?_) hf.rep,
    ctxRep_congr (fun v hv => heq v ?_) hf.ctx, hf.nodup, ?_⟩
  · exact List.mem_cons_of_mem _ (List.mem_cons_of_mem _
      (List.mem_append_left _ hv))
  · rcases List.mem_cons.mp hv with rfl | hv
    · exact List.mem_cons_of_mem _ List.mem_cons_self
    · exact List.mem_cons_of_mem _ (List.mem_cons_of_mem _
        (List.mem_append_right _ hv))
  · rw [heq _ List.mem_cons_self]
    exact hf.nilBlack

/-! ## Nodes that are apart -/

theorem perm_focus (t : RbTree ν) (d : Dir) (c : Bool) (a : CTree ν) (x : ν)
    (b : CTree ν) (l : List ν) :
    (t.nil :: t.root :: ((CTree.mk d c a x b).toList ++ l)).Perm
      (t.nil :: t.root :: x :: (a.toList ++ (b.toList ++ l))) := by
  refine ((((toList_mk_perm d c a x b).append_right l).cons _).cons _).trans ?_
  simp

/-- The top of the tree in the hole is no other node. -/
theorem Focus.apart {t : RbTree ν} {h : Heap ν} {d : Dir} {c : Bool}
    {a b : CTree ν} {x : ν} {fs : List (Frame ν)}
    (hf : Focus t h (CTree.mk d c a x b) fs) :
    x ≠ t.nil ∧ x ∉ a.toList ∧ x ∉ b.toList ∧ x ∉ t.root :: frameNodes fs := by
  have hn := (perm_focus t d c a x b _).nodup_iff.mp hf.nodup
  simp only [List.nodup_cons, List.mem_cons, List.mem_append, not_or] at hn
  simp only [List.mem_cons, not_or]
  exact ⟨Ne.symm hn.1.2.1, hn.2.2.1.1, hn.2.2.1.2.1, Ne.symm hn.2.1.1,
    hn.2.2.1.2.2⟩

/-- The node in focus is none of the others. -/
theorem Focus.top_apart {t : RbTree ν} {h : Heap ν} {T : CTree ν}
    {fs : List (Frame ν)} (hf : Focus t h T fs) (hT : T ≠ leaf) :
    top t.nil T ≠ t.nil ∧ top t.nil T ∉ t.root :: frameNodes fs := by
  obtain ⟨a, x, b, heq⟩ := exists_mk .left hT
  rw [heq] at hf ⊢
  rw [top_mk]
  exact ⟨hf.apart.1, hf.apart.2.2.2⟩

theorem Focus.top_not_mem {t : RbTree ν} {h : Heap ν} {T : CTree ν}
    {fs : List (Frame ν)} (hf : Focus t h T fs) :
    top t.nil T ∉ frameNodes fs := by
  intro hmem
  by_cases hT : T = leaf
  · subst hT
    exact (List.nodup_cons.mp hf.nodup).1 (List.mem_cons_of_mem _ hmem)
  · exact (hf.top_apart hT).2 (List.mem_cons_of_mem _ hmem)

theorem Focus.top_ne_sib {t : RbTree ν} {h : Heap ν} {T : CTree ν}
    {f : Frame ν} {fs : List (Frame ν)} (hf : Focus t h T (f :: fs))
    (hne : T ≠ leaf ∨ f.sib ≠ leaf) : top t.nil T ≠ top t.nil f.sib := by
  have hflip := focus_over.mp hf
  have hsib : f.sib ≠ leaf → top t.nil f.sib ≠ t.nil ∧
      top t.nil f.sib ∉ T.toList := by
    intro hs
    have h1 := hflip.top_apart hs
    refine ⟨h1.1, fun hmem => h1.2 ?_⟩
    exact List.mem_cons_of_mem _ (List.mem_cons_of_mem _
      (List.mem_append_left _ hmem))
  intro heq
  by_cases hT : T = leaf
  · rw [hT, top_leaf] at heq
    exact (hsib (hne.resolve_left (not_not_intro hT))).1 heq.symm
  · by_cases hs : f.sib = leaf
    · rw [hs, top_leaf] at heq
      exact (hf.top_apart hT).1 heq
    · exact (hsib hs).2 (heq ▸ top_mem hT)

/-- The test `x == x->parent->left`. -/
theorem Focus.dir_eq [DecidableEq ν] {t : RbTree ν} {h : Heap ν} {T : CTree ν}
    {f : Frame ν} {fs : List (Frame ν)} (hf : Focus t h T (f :: fs))
    (hne : T ≠ leaf ∨ f.sib ≠ leaf) :
    (if top t.nil T = (h f.x).left then Dir.left else Dir.right) = f.dir := by
  have hframe := hf.frame
  have hapart := hf.top_ne_sib hne
  cases hd : f.dir with
  | left =>
      rw [hd] at hframe
      rw [hframe]
      exact if_pos rfl
  | right =>
      rw [hd] at hframe
      rw [hframe]
      exact if_neg hapart

/-- The record above a tree, with its link to the tree on one side only. -/
theorem Focus.link {t : RbTree ν} {h : Heap ν} {T : CTree ν} {fs : List (Frame ν)}
    (hf : Focus t h T fs) (hT : T ≠ leaf) :
    ∃ c q s, h (up t.root fs) = .of (upDir fs) c q (top t.nil T) s ∧
      s ≠ top t.nil T := by
  obtain ⟨c, q, s, hp, hs⟩ := hf.ctx.up_eq
  refine ⟨c, q, s, hp, ?_⟩
  obtain ⟨h1, h2⟩ := hf.top_apart hT
  rcases hs with rfl | hs
  · exact h1.symm
  · rintro rfl
    exact h2 (List.mem_cons_of_mem _ hs)

/-! ## Writes -/

section
variable [DecidableEq ν] {t : RbTree ν} {h : Heap ν}

/-- Painting the node in focus paints the tree there. -/
theorem setRed_focus {d : Dir} {c : Bool} {a b : CTree ν} {x : ν}
    {fs : List (Frame ν)} (hf : Focus t h (mk d c a x b) fs) (c' : Bool) :
    Focus t (h.setRed x c') (mk d c' a x b) fs := by
  obtain ⟨hnil, ha, hb, hfs⟩ := hf.apart
  have heq : ∀ v, v ≠ x → h.setRed x c' v = h v := fun v hv =>
    Function.update_of_ne hv _ _
  obtain ⟨hx, hra, hrb⟩ := rep_mk.mp hf.rep
  refine ⟨rep_mk.mpr ⟨?_, rep_congr (fun v hv => heq v ?_) hra,
    rep_congr (fun v hv => heq v ?_) hrb⟩,
    ctxRep_congr (fun v hv => heq v ?_) ?_, ?_, ?_⟩
  · rw [Heap.setRed, Function.update_self, hx, of_withRed]
  · rintro rfl
    exact ha hv
  · rintro rfl
    exact hb hv
  · rintro rfl
    exact hfs hv
  · have hc := hf.ctx
    rwa [top_mk] at hc ⊢
  · exact (perm_focus t d c' a x b _).nodup_iff.mpr
      ((perm_focus t d c a x b _).nodup_iff.mp hf.nodup)
  · rw [heq _ hnil.symm]
    exact hf.nilBlack

/-- The sentinel keeps its colour when another node is painted. -/
theorem setRed_nil {x : ν} (hx : x ≠ t.nil) (c : Bool) :
    h.setRed x c t.nil = h t.nil :=
  Function.update_of_ne hx.symm _ _

/-- The link from above to a node of the tree. -/
theorem relink_eq {p x y s q : ν} {d dp : Dir} {c : Bool}
    (hp : h p = .of dp c q x s) (hs : s ≠ x) :
    relink p x y d h = Function.update h p (.of dp c q y s) := by
  by_cases hd : dp = d
  · subst hd
    rw [relink, if_pos (by rw [hp, of_child]), Heap.setChild, hp, of_withChild]
  · have hflip : dp = d.flip := by cases d <;> cases dp <;> simp_all [Dir.flip]
    subst hflip
    rw [relink, if_neg (by rw [hp, of_flip, of_child]; exact hs.symm),
      Heap.setChild, hp, of_withChild]

/-- The records that a rotation writes. -/
theorem rotate_eq {d dp : Dir} {c c' cp : Bool} {p q s x y A B E : ν}
    (hx : h x = .of d c p A y) (hy : h y = .of d c' x B E)
    (hp : h p = .of dp cp q x s) (hxy : x ≠ y) (hpx : p ≠ x) (hpy : p ≠ y)
    (hs : s ≠ x) (hB : B ≠ t.nil → B ≠ x ∧ B ≠ y ∧ B ≠ p) :
    rotate t d x h =
      Function.update (Function.update (Function.update
        (if B ≠ t.nil then h.setParent B x else h)
        p (.of dp cp q y s)) y (.of d c' p x E)) x (.of d c y A B) := by
  -- the heap after `y->_left->parent = x`
  obtain ⟨h₂, hh₂⟩ : ∃ h₂, h₂ = if B ≠ t.nil
      then (h.setChild x d.flip B).setParent B x
      else h.setChild x d.flip B := ⟨_, rfl⟩
  have hother : ∀ v, v ≠ x →
      h₂ v = (if B ≠ t.nil then h.setParent B x else h) v := by
    intro v hv
    rw [hh₂]
    by_cases hnil : B = t.nil
    · rw [if_neg (not_not_intro hnil), if_neg (not_not_intro hnil)]
      exact Function.update_of_ne hv _ _
    · rw [if_pos hnil, if_pos hnil]
      simp only [Heap.setParent, Heap.setChild, Function.update_apply, hv,
        (hB hnil).1, if_false]
  have hkeep : ∀ v, v ≠ x → (B ≠ t.nil → B ≠ v) → h₂ v = h v := by
    intro v hv hBv
    rw [hother v hv]
    split
    · rename_i hnil
      exact Function.update_of_ne (hBv hnil).symm _ _
    · rfl
  have hx₂ : h₂ x = .of d c p A B := by
    have h1 : h.setChild x d.flip B x = .of d c p A B := by
      rw [Heap.setChild, Function.update_self, hx, of_withChild_flip]
    rw [hh₂]
    split
    · rename_i hnil
      rw [Heap.setParent, Function.update_of_ne (hB hnil).1.symm, h1]
    · exact h1
  have hy₂ := (hkeep y hxy.symm fun hnil => (hB hnil).2.1).trans hy
  have hp₂ := (hkeep p hpx fun hnil => (hB hnil).2.2).trans hp
  have hrot : rotate t d x h =
      ((relink p x y d (h₂.setParent y p)).setChild y d x).setParent x y := by
    have h1 : (h.setChild x d.flip B) y = .of d c' x B E :=
      (Function.update_of_ne hxy.symm _ _).trans hy
    have h2 : (h₂.setParent y p) x = h₂ x := Function.update_of_ne hxy _ _
    simp only [rotate, hx, of_child_flip, hy, of_child, h1, ← hh₂, hx₂,
      of_parent, h2]
  have hp₃ : (h₂.setParent y p) p = .of dp cp q x s :=
    (Function.update_of_ne hpy _ _).trans hp₂
  rw [hrot, relink_eq hp₃ hs]
  funext v
  by_cases hvx : v = x
  · subst hvx
    simp only [Heap.setParent, Heap.setChild, Function.update_self,
      Function.update_of_ne hxy, Function.update_of_ne hpx.symm, hx₂,
      of_withParent]
  by_cases hvy : v = y
  · subst hvy
    simp only [Heap.setParent, Heap.setChild, Function.update_self,
      Function.update_of_ne hvx, Function.update_of_ne hpy.symm, hy₂,
      of_withParent, of_withChild]
  by_cases hvp : v = p
  · subst hvp
    simp only [Heap.setParent, Heap.setChild, Function.update_self,
      Function.update_of_ne hvx, Function.update_of_ne hvy]
  · simp only [Heap.setParent, Heap.setChild, Function.update_of_ne hvx,
      Function.update_of_ne hvy, Function.update_of_ne hvp]
    exact hother v hvx

/-- `rotate` is a rotation of the tree in the hole; the sentinel is not
    written. -/
theorem rotate_focus {d : Dir} {c c' : Bool} {a b e : CTree ν} {x y : ν}
    {fs : List (Frame ν)}
    (hf : Focus t h (mk d c a x (mk d c' b y e)) fs) :
    Focus t (rotate t d x h) (mk d c' (mk d c a x b) y e) fs ∧
      rotate t d x h t.nil = h t.nil := by
  obtain ⟨cp, q, s, hp, hs⟩ := hf.ctx.up_eq
  rw [top_mk] at hp
  obtain ⟨hx, hra, hxe⟩ := rep_mk.mp hf.rep
  obtain ⟨hy, hrb, hre⟩ := rep_mk.mp hxe
  rw [top_mk] at hx
  have hperm : (t.nil :: t.root :: ((mk d c' (mk d c a x b) y e).toList
      ++ frameNodes fs)).Perm (t.nil :: t.root ::
        ((mk d c a x (mk d c' b y e)).toList ++ frameNodes fs)) := by
    rw [toList_rotate d c c' c c' a b e x y]
  have hn : (t.nil :: t.root :: x :: y :: (a.toList ++ (b.toList ++
      (e.toList ++ frameNodes fs)))).Nodup := by
    refine (List.Perm.nodup_iff ?_).mp hf.nodup
    refine (perm_focus t d c a x _ _).trans ((((?_ : List.Perm _ _).cons _).cons
      _).cons _)
    refine (((toList_mk_perm d c' b y e).append_right _).append_left _).trans ?_
    simp
  have hnb : b.toList.Nodup := by
    simp only [List.nodup_cons, List.nodup_append] at hn
    exact hn.2.2.2.2.2.1.1
  have hnfs : (t.root :: frameNodes fs).Nodup := by
    simp only [List.nodup_cons, List.nodup_append, List.mem_cons,
      List.mem_append, not_or] at hn ⊢
    exact ⟨hn.2.1.2.2.2.2.2, hn.2.2.2.2.2.1.2.1.2.1⟩
  have hpmem := up_mem fs t.root
  have hbmem : b ≠ leaf → top t.nil b ∈ b.toList := top_mem
  have hbnil : top t.nil b ≠ t.nil → b ≠ leaf := by
    rintro hne rfl
    exact hne rfl
  obtain ⟨p, hpdef⟩ : ∃ p, p = up t.root fs := ⟨_, rfl⟩
  rw [← hpdef] at hp hx hpmem
  simp only [List.nodup_cons, List.nodup_append, List.mem_cons,
    List.mem_append, not_or] at hn hpmem
  have hxy : x ≠ y := by grind
  have hpx : p ≠ x := by grind
  have hpy : p ≠ y := by grind
  have hpnil : p ≠ t.nil := by grind
  have hsx : s ≠ x := by grind
  have hB : top t.nil b ≠ t.nil →
      top t.nil b ≠ x ∧ top t.nil b ≠ y ∧ top t.nil b ≠ p := by grind
  -- the four records that the rotation writes, and all others
  obtain ⟨h', hh'⟩ : ∃ h', h' = rotate t d x h := ⟨_, rfl⟩
  have hrot := hh'.trans (rotate_eq hx hy hp hxy hpx hpy hsx hB)
  have hkeep : ∀ v, v ≠ x → v ≠ y → v ≠ p → (b ≠ leaf → v ≠ top t.nil b) →
      h' v = h v := by
    intro v hvx hvy hvp hvb
    rw [hrot, Function.update_of_ne hvx, Function.update_of_ne hvy,
      Function.update_of_ne hvp]
    split
    · rename_i hne
      exact Function.update_of_ne (hvb (hbnil hne)) _ _
    · rfl
  have hx' : h' x = .of d c y (top t.nil a) (top t.nil b) := by
    rw [hrot, Function.update_self]
  have hy' : h' y = .of d c' p x (top t.nil e) := by
    rw [hrot, Function.update_of_ne hxy.symm, Function.update_self]
  have hp' : h' p = (h p).withChild (upDir fs) y := by
    rw [hrot, Function.update_of_ne hpx, Function.update_of_ne hpy,
      Function.update_self, hp, of_withChild]
  have hb' : b ≠ leaf →
      h' (top t.nil b) = { h (top t.nil b) with parent := x } := by
    intro hne
    have hbn : top t.nil b ≠ t.nil := by grind
    obtain ⟨h1, h2, h3⟩ := hB hbn
    rw [hrot, Function.update_of_ne h1, Function.update_of_ne h2,
      Function.update_of_ne h3, if_pos hbn, Heap.setParent,
      Function.update_self]
  have hnil' : h' t.nil = h t.nil := hkeep _ (by grind) (by grind) (by grind)
    (by grind)
  rw [← hh']
  refine ⟨⟨?_, ?_, hperm.nodup_iff.mpr hf.nodup, ?_⟩, hnil'⟩
  · rw [← hpdef]
    refine rep_mk.mpr ⟨by rw [hy', top_mk], rep_mk.mpr ⟨hx',
      rep_congr ?_ hra, rep_reparent hnb hb' ?_ hrb⟩, rep_congr ?_ hre⟩
    · intro v hv
      exact hkeep v (by grind) (by grind) (by grind) (by grind)
    · intro v hv hvb
      exact hkeep v (by grind) (by grind) (by grind) fun _ => hvb
    · intro v hv
      exact hkeep v (by grind) (by grind) (by grind) (by grind)
  · have hc := hf.ctx
    rw [top_mk] at hc ⊢
    refine ctxRep_relink hnfs (by rw [← hpdef, hp']) ?_ hc
    intro v hv hvp
    rw [← hpdef] at hvp
    rw [List.mem_cons] at hv
    exact hkeep v (by grind) (by grind) hvp (by grind)
  · rw [hnil']
    exact hf.nilBlack

/-- `unlink` takes a node with an empty side out; the child that takes its
    place gets the parent, even if it is `nil`. -/
theorem unlink_focus {d : Dir} {c : Bool} {a : CTree ν} {y : ν}
    {fs : List (Frame ν)} (hf : Focus t h (mk d c a y leaf) fs) :
    Focus t (unlink (top t.nil a) y h) a fs ∧
      (unlink (top t.nil a) y h (top t.nil a)).parent = up t.root fs ∧
      (∀ v, v ≠ top t.nil a → v ≠ up t.root fs →
        unlink (top t.nil a) y h v = h v) := by
  obtain ⟨cp, q, s, hp, hs⟩ := hf.link (mk_ne_leaf _ _ _ _ _)
  rw [top_mk] at hp hs
  obtain ⟨hy, hra, -⟩ := rep_mk.mp hf.rep
  have hn := (perm_focus t d c a y leaf _).nodup_iff.mp hf.nodup
  have hpmem := up_mem fs t.root
  obtain ⟨p, hpdef⟩ : ∃ p, p = up t.root fs := ⟨_, rfl⟩
  rw [← hpdef] at hp hy hpmem
  simp only [List.nodup_cons, List.nodup_append, List.mem_cons,
    List.mem_append, not_or, toList, List.not_mem_nil] at hn hpmem
  have hamem : a ≠ leaf → top t.nil a ∈ a.toList := top_mem
  have hanil : a = leaf → top t.nil a = t.nil := by
    rintro rfl
    rfl
  have hay : top t.nil a ≠ y := by grind
  have hap : top t.nil a ≠ p := by grind
  have hpy : p ≠ y := by grind
  obtain ⟨h', hh'⟩ : ∃ h', h' = unlink (top t.nil a) y h := ⟨_, rfl⟩
  have heq : h' = Function.update (h.setParent (top t.nil a) p) p
      (.of (upDir fs) cp q (top t.nil a) s) := by
    have h1 : (h.setParent (top t.nil a) p) y = h y :=
      Function.update_of_ne hay.symm _ _
    have h2 : (h.setParent (top t.nil a) p) p = _ :=
      (Function.update_of_ne hap.symm _ _).trans hp
    rw [hh', unlink, hy, of_parent, h1, hy, of_parent, relink_eq h2 hs]
  have hkeep : ∀ v, v ≠ top t.nil a → v ≠ p → h' v = h v := by
    intro v hva hvp
    rw [heq, Function.update_of_ne hvp]
    exact Function.update_of_ne hva _ _
  have ha' : h' (top t.nil a) = { h (top t.nil a) with parent := p } := by
    rw [heq, Function.update_of_ne hap, Heap.setParent, Function.update_self]
  rw [← hh', ← hpdef]
  refine ⟨⟨?_, ?_, ?_, ?_⟩, by rw [ha'], hkeep⟩
  · rw [← hpdef]
    refine rep_reparent (by grind) (fun _ => ha') ?_ hra
    intro v hv hva
    exact hkeep v hva (by grind)
  · have hc := hf.ctx
    rw [top_mk] at hc
    refine ctxRep_relink (by grind) ?_ ?_ hc
    · rw [← hpdef, heq, Function.update_self, hp, of_withChild]
    · intro v hv hvp
      rw [← hpdef] at hvp
      rw [List.mem_cons] at hv
      exact hkeep v (by grind) hvp
  · simp only [List.nodup_cons, List.nodup_append, List.mem_cons,
      List.mem_append, not_or]
    grind
  · by_cases hnil : top t.nil a = t.nil
    · rw [hnil] at ha'
      rw [ha']
      exact hf.nilBlack
    · rw [hkeep _ (Ne.symm hnil) (by grind)]
      exact hf.nilBlack

/-- `replace` puts a node that is not in the tree in the place of one that
    is; its right child gets it as a parent, even if it is `nil`. -/
theorem replace_focus {c : Bool} {l r : CTree ν} {y z : ν}
    {fs : List (Frame ν)} (hf : Focus t h (node c l z r) fs)
    (hnil : y ≠ t.nil) (hroot : y ≠ t.root) (hl : y ∉ l.toList)
    (hr : y ∉ r.toList) (hfs : y ∉ frameNodes fs) :
    Focus t (replace y z h) (node c l y r) fs ∧
      (replace y z h (top t.nil r)).parent = y ∧
      (∀ v, v ≠ y → v ≠ up t.root fs → v ≠ top t.nil l → v ≠ top t.nil r →
        replace y z h v = h v) := by
  obtain ⟨cp, q, s, hp, hs⟩ := hf.link (by simp)
  obtain ⟨hzr, hrl, hrr⟩ := hf.rep
  have hn := (perm_focus t .left c l z r _).nodup_iff.mp hf.nodup
  have hpmem := up_mem fs t.root
  obtain ⟨p, hpdef⟩ : ∃ p, p = up t.root fs := ⟨_, rfl⟩
  rw [← hpdef] at hp hzr hpmem
  simp only [List.nodup_cons, List.nodup_append, List.mem_cons,
    List.mem_append, not_or] at hn hpmem
  have hlmem : l ≠ leaf → top t.nil l ∈ l.toList := top_mem
  have hrmem : r ≠ leaf → top t.nil r ∈ r.toList := top_mem
  have hlnil : l = leaf → top t.nil l = t.nil := by
    rintro rfl
    rfl
  have hrnil : r = leaf → top t.nil r = t.nil := by
    rintro rfl
    rfl
  have hpz : p ≠ z := by grind
  have hpy : p ≠ y := by grind
  have hlz : top t.nil l ≠ z := by grind
  have hrz : top t.nil r ≠ z := by grind
  have hlp : top t.nil l ≠ p := by grind
  have hrp : top t.nil r ≠ p := by grind
  have hly : top t.nil l ≠ y := by grind
  have hry : top t.nil r ≠ y := by grind
  obtain ⟨h', hh'⟩ : ∃ h', h' = replace y z h := ⟨_, rfl⟩
  have heq : h' = Function.update (Heap.setParent (Heap.setParent
      (Function.update h p (.of (upDir fs) cp q y s)) (top t.nil r) y)
        (top t.nil l) y) y ⟨c, p, top t.nil l, top t.nil r⟩ := by
    have h1 : relink p z y .left h =
        Function.update h p (.of (upDir fs) cp q y s) := relink_eq hp hs
    rw [hh', replace]
    simp only [hzr, h1, Heap.setParent, Function.update_of_ne hpz.symm,
      Function.update_of_ne hrz.symm, Function.update_of_ne hlz.symm]
  have hkeep : ∀ v, v ≠ y → v ≠ p → v ≠ top t.nil l → v ≠ top t.nil r →
      h' v = h v := by
    intro v hvy hvp hvl hvr
    simp only [heq, Heap.setParent, Function.update_apply, hvy, hvp, hvl, hvr,
      if_false]
  have hy' : h' y = ⟨c, p, top t.nil l, top t.nil r⟩ := by
    rw [heq, Function.update_self]
  have hp' : h' p = .of (upDir fs) cp q y s := by
    simp only [heq, Heap.setParent, Function.update_apply, hpy, hlp.symm,
      hrp.symm, if_false, if_true]
  have hl' : h' (top t.nil l) = { h (top t.nil l) with parent := y } := by
    simp only [heq, Heap.setParent, Function.update_apply, hly, hlp,
      if_false, if_true]
    split
    · rename_i hlr
      rw [hlr]
    · rfl
  have hr' : h' (top t.nil r) = { h (top t.nil r) with parent := y } := by
    simp only [heq, Heap.setParent, Function.update_apply, hry, hrp,
      if_false, if_true]
    split
    · rename_i hlr
      simp only [hlr, if_true]
    · rfl
  rw [← hh', ← hpdef]
  refine ⟨⟨⟨?_, ?_, ?_⟩, ?_, ?_, ?_⟩, by rw [hr'], hkeep⟩
  · rw [← hpdef, hy']
  · refine rep_reparent (by grind) (fun _ => hl') ?_ hrl
    intro v hv hvl
    exact hkeep v (by grind) (by grind) hvl (by grind)
  · refine rep_reparent (by grind) (fun _ => hr') ?_ hrr
    intro v hv hvr
    exact hkeep v (by grind) (by grind) (by grind) hvr
  · refine ctxRep_relink (by grind) ?_ ?_ hf.ctx
    · rw [← hpdef, hp', hp, of_withChild]
      rfl
    · intro v hv hvp
      rw [← hpdef] at hvp
      rw [List.mem_cons] at hv
      exact hkeep v (by grind) hvp (by grind) (by grind)
  · refine (perm_focus t .left c l y r _).nodup_iff.mpr ?_
    simp only [List.nodup_cons, List.nodup_append, List.mem_cons,
      List.mem_append, not_or]
    grind
  · -- an empty side means that the sentinel gets `y` as a parent
    have hb : (h t.nil).red = false := hf.nilBlack
    by_cases hnl : t.nil = top t.nil l
    · rw [← hnl] at hl'
      rw [hl']
      exact hb
    · by_cases hnr : t.nil = top t.nil r
      · rw [← hnr] at hr'
        rw [hr']
        exact hb
      · rw [hkeep _ hnil.symm (by grind) hnl hnr]
        exact hb

/-- A node that is in no tree fills an empty hole. -/
theorem attach_focus {c : Bool} {z : ν} {fs : List (Frame ν)}
    (hf : Focus t h leaf fs) (hz : h z = ⟨c, up t.root fs, t.nil, t.nil⟩)
    (hnil : z ≠ t.nil) (hfs : z ∉ t.root :: frameNodes fs) :
    Focus t (h.setChild (up t.root fs) (upDir fs) z) (node c leaf z leaf) fs
    := by
  have hn := hf.nodup
  have hpmem := up_mem fs t.root
  have hother : ∀ v, v ≠ up t.root fs →
      h.setChild (up t.root fs) (upDir fs) z v = h v := fun v hv =>
    Function.update_of_ne hv _ _
  refine ⟨⟨?_, trivial, trivial⟩, ctxRep_relink ?_ ?_ ?_ hf.ctx, ?_, ?_⟩
  · rw [hother z (by rintro heq; exact hfs (heq ▸ hpmem)), hz]
    rfl
  · exact (List.nodup_cons.mp hn).2
  · exact Function.update_self _ _ _
  · exact fun v _ hv => hother v hv
  · simp only [toList, List.nil_append, List.cons_append, List.nodup_cons,
      List.mem_cons, not_or] at hn hfs ⊢
    exact ⟨⟨hn.1.1, hnil.symm, hn.1.2⟩, ⟨Ne.symm hfs.1, hn.2.1⟩, hfs.2,
      hn.2.2⟩
  · rw [hother]
    · exact hf.nilBlack
    · intro heq
      rw [← heq] at hpmem
      exact (List.nodup_cons.mp hn).1 hpmem

/-! ## Colours -/

@[simp] theorem setRed_parent (x v : ν) (c : Bool) :
    (h.setRed x c v).parent = (h v).parent := by
  rw [Heap.setRed, Function.update_apply]
  split
  · rename_i heq
    rw [heq]
  · rfl

@[simp] theorem setRed_child (x v : ν) (c : Bool) (d : Dir) :
    (h.setRed x c v).child d = (h v).child d := by
  rw [Heap.setRed, Function.update_apply]
  split
  · rename_i heq
    rw [heq]
    cases d <;> rfl
  · rfl

/-- Painting a node as it is. -/
theorem setRed_same {x : ν} {c : Bool} (hx : (h x).red = c) :
    h.setRed x c = h := by
  rw [Heap.setRed, ← hx]
  exact Function.update_eq_self x h

theorem setRed_top {T : CTree ν} {fs : List (Frame ν)} (hf : Focus t h T fs)
    (hT : T ≠ leaf) (c : Bool) :
    Focus t (h.setRed (top t.nil T) c) (T.paint c) fs := by
  obtain ⟨a, x, b, heq⟩ := exists_mk .left hT
  rw [heq] at hf ⊢
  rw [top_mk, paint_mk]
  exact setRed_focus hf c

theorem setRed_frame {T : CTree ν} {f : Frame ν} {fs : List (Frame ν)}
    (hf : Focus t h T (f :: fs)) (c : Bool) :
    Focus t (h.setRed f.x c) T ({ f with red := c } :: fs) :=
  focus_down.mp (setRed_focus (focus_down.mpr hf) c)

theorem setRed_sib {T : CTree ν} {f : Frame ν} {fs : List (Frame ν)}
    (hf : Focus t h T (f :: fs)) (hs : f.sib ≠ leaf) (c : Bool) :
    Focus t (h.setRed (top t.nil f.sib) c) T
      ({ f with sib := f.sib.paint c } :: fs) := by
  have hpaint := setRed_top (focus_over.mp hf) hs c
  exact focus_over.mpr hpaint

end

end SharixRbTree
