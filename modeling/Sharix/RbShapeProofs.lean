import Sharix.RbHeapProofs

/-! # Readings of the heap

    What a heap that holds a balanced tree looks like to a reader that only
    follows the links: `Way`, a way down to `nil`; `InOrder`, the nodes below
    a link from left to right; and the red-black conditions. -/

namespace SharixRbTree

open SharixRedBlack
open SharixRedBlack.CTree

variable {ν : Type} {t : RbTree ν} {h : Heap ν}

/-- A way down from a node to `nil`, by its number of nodes and of black
    nodes. -/
inductive Way (t : RbTree ν) (h : Heap ν) : ν → Nat → Nat → Prop where
  | nil : Way t h t.nil 0 0
  | down {x : ν} {len blacks : Nat} (d : Dir) : x ≠ t.nil →
      Way t h ((h x).child d) len blacks →
      Way t h x (len + 1) (blacks + if (h x).red then 0 else 1)

/-- The nodes below a link, from left to right. -/
inductive InOrder (t : RbTree ν) (h : Heap ν) : ν → List ν → Prop where
  | nil : InOrder t h t.nil []
  | node {x : ν} {l r : List ν} : x ≠ t.nil → InOrder t h (h x).left l →
      InOrder t h (h x).right r → InOrder t h x (l ++ x :: r)

/-- A heap has one sequence below a node. -/
theorem InOrder.unique {x : ν} {l l' : List ν} (hl : InOrder t h x l)
    (hl' : InOrder t h x l') : l = l' := by
  induction hl generalizing l' with
  | nil =>
      cases hl' with
      | nil => rfl
      | node hx _ _ => exact absurd rfl hx
  | node hx _ _ ihl ihr =>
      cases hl' with
      | nil => exact absurd rfl hx
      | node _ h1 h2 => rw [ihl h1, ihr h2]

/-- The sequence read off the heap is that of the tree. -/
theorem Focus.inOrder {T : CTree ν} : ∀ {fs : List (Frame ν)},
    Focus t h T fs → InOrder t h (top t.nil T) T.toList := by
  induction T with
  | leaf =>
      intro fs _
      exact .nil
  | node c l x r ihl ihr =>
      intro fs hf
      have hl := ihl (focus_down (d := .left).mp hf)
      have hr := ihr (focus_down (d := .right).mp hf)
      have hrec : h x = _ := hf.rep.1
      refine .node (hf.top_apart (by simp)).1 ?_ ?_
      · rw [top, hrec]
        exact hl
      · rw [top, hrec]
        exact hr

/-- Lengths and black nodes of the paths from a focus to the root. -/
theorem Focus.way {T : CTree ν} : ∀ {fs : List (Frame ν)} {k len blacks : Nat},
    Focus t h T fs → Balanced T k → Way t h (top t.nil T) len blacks →
    len ≤ T.height ∧ blacks = k := by
  induction T with
  | leaf =>
      intro fs k len blacks _ hb hw
      cases hb
      cases hw with
      | nil => exact ⟨Nat.le_refl _, rfl⟩
      | down _ hx _ => exact absurd rfl hx
  | node c l x r ihl ihr =>
      intro fs k len blacks hf hb hw
      have hx : x ≠ t.nil := (hf.top_apart (by simp)).1
      have hrec : h x = _ := hf.rep.1
      have hw' : Way t h x len blacks := hw
      cases hw' with
      | nil => exact absurd rfl hx
      | @down _ len b d _ hdown =>
          rw [hrec] at hdown ⊢
          -- one node less below, and one black node less if `x` is black
          obtain ⟨k', hk, hbl, hbr⟩ : ∃ k', k = k' + (if c then 0 else 1) ∧
              Balanced l k' ∧ Balanced r k' := by
            cases hb with
            | red _ _ h3 h4 => exact ⟨k, rfl, h3, h4⟩
            | black h1 h2 => exact ⟨_, rfl, h1, h2⟩
          have hsub : len ≤ max l.height r.height ∧ b = k' := by
            cases d with
            | left =>
                obtain ⟨h1, h2⟩ := ihl (focus_down (d := .left).mp hf) hbl hdown
                exact ⟨le_trans h1 (le_max_left _ _), h2⟩
            | right =>
                obtain ⟨h1, h2⟩ :=
                  ihr (focus_down (d := .right).mp hf) hbr hdown
                exact ⟨le_trans h1 (le_max_right _ _), h2⟩
          exact ⟨Nat.succ_le_succ hsub.1, by rw [hk, hsub.2]⟩

/-- The red-black conditions, for the nodes in the tree. -/
structure RedBlack (t : RbTree ν) (h : Heap ν) (nodes : List ν) : Prop where
  nilBlack : (h t.nil).red = false
  topBlack : (h (h t.root).left).red = false
  redChild : ∀ x ∈ nodes, (h x).red = true →
    ∀ d, (h ((h x).child d)).red = false
  blackHeight : ∃ k, ∀ len blacks,
    Way t h (h t.root).left len blacks → blacks = k
  childParent : ∀ x ∈ nodes, ∀ d, (h x).child d ≠ t.nil →
    (h x).child d ∈ nodes ∧ (h ((h x).child d)).parent = x
  parentChild : ∀ x ∈ nodes,
    ((h x).parent = t.root ∧ (h t.root).left = x) ∨
    ((h x).parent ∈ nodes ∧ ∃ d, (h (h x).parent).child d = x)
  rootRight : (h t.root).right = t.nil
  inTree : ∃ l, InOrder t h (h t.root).left l ∧ l.Perm nodes ∧
    (t.nil :: t.root :: l).Nodup
  height : ∀ len blacks, Way t h (h t.root).left len blacks →
    2 ^ len ≤ (nodes.length + 1) ^ 2

theorem Holds.inOrder {l : List ν} (hh : Holds t h l) :
    InOrder t h (h t.root).left l := by
  obtain ⟨T, k, hf, -, -, rfl⟩ := hh
  rw [hf.root_left]
  exact hf.inOrder

/-- Every node of the tree is the top of a part of it, seen from a side. -/
theorem Focus.exists_focus {T : CTree ν} (hf : Focus t h T []) {x : ν}
    (hx : x ∈ T.toList) (d : Dir) :
    ∃ c a b fs, T = plug (CTree.mk d c a x b) fs ∧
      Focus t h (CTree.mk d c a x b) fs := by
  obtain ⟨c, l, r, fs, heq⟩ := exists_plug hx
  rw [heq, focus_plug, List.append_nil] at hf
  cases d with
  | left => exact ⟨c, l, r, fs, heq, hf⟩
  | right => exact ⟨c, r, l, fs, heq, hf⟩

/-- **THE CONDITIONS HOLD** in a heap that holds a balanced tree. -/
theorem Holds.redBlack {l nodes : List ν} (hh : Holds t h l)
    (hperm : l.Perm nodes) : RedBlack t h nodes := by
  have hnodup := hh.nodup
  obtain ⟨T, k, hf, hb, htop, rfl⟩ := hh
  have hroot : h t.root = .of .left false t.nil (top t.nil T) t.nil := hf.ctx
  have hleft := hf.root_left
  constructor
  case nilBlack => exact hf.nilBlack
  case topBlack => rw [hleft, hf.red_top, htop]
  case redChild =>
    intro x hx hred d
    obtain ⟨c, a, b, fs, rfl, hfx⟩ := hf.exists_focus (hperm.mem_iff.mpr hx) d
    obtain ⟨n, hbx, -, -⟩ := split fs hb htop
    rw [hfx.node, of_red] at hred
    subst hred
    rw [hfx.node, of_child, (focus_down.mp hfx).red_top]
    exact (balanced_mk_red.mp hbx).1.1
  case blackHeight =>
    refine ⟨k, fun len blacks hw => ?_⟩
    rw [hleft] at hw
    exact (hf.way hb hw).2
  case childParent =>
    intro x hx d hne
    obtain ⟨c, a, b, fs, rfl, hfx⟩ := hf.exists_focus (hperm.mem_iff.mpr hx) d
    rw [hfx.node, of_child] at hne ⊢
    have ha : a ≠ leaf := by
      rintro rfl
      exact hne rfl
    refine ⟨hperm.mem_iff.mp ?_, (focus_down.mp hfx).parent_top ha⟩
    rw [(plug_perm fs _).mem_iff, List.mem_append,
      (toList_mk_perm d c a x b).mem_iff, List.mem_cons, List.mem_append]
    exact .inl (.inr (.inl (top_mem ha)))
  case parentChild =>
    intro x hx
    obtain ⟨c, a, b, fs, rfl, hfx⟩ :=
      hf.exists_focus (hperm.mem_iff.mpr hx) .left
    rw [hfx.node, of_parent]
    cases fs with
    | nil =>
        left
        rw [hleft, plug, top_mk]
        exact ⟨rfl, rfl⟩
    | cons f fs =>
        right
        have hframe := hfx.frame
        rw [top_mk] at hframe
        refine ⟨hperm.mem_iff.mp ?_, f.dir, ?_⟩
        · rw [(plug_perm (f :: fs) _).mem_iff]
          exact List.mem_append_right _ List.mem_cons_self
        · rw [up, hframe, of_child]
  case rootRight =>
    rw [hroot]
    rfl
  case inTree => exact ⟨T.toList, hleft ▸ hf.inOrder, hperm, hnodup⟩
  case height =>
    intro len blacks hw
    rw [hleft] at hw
    rw [← hperm.length_eq]
    exact le_trans (Nat.pow_le_pow_right (by omega) (hf.way hb hw).1)
      (hb.height_bound htop)

end SharixRbTree
