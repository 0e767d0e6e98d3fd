import Mathlib.Data.List.Nodup
import Mathlib.Algebra.Group.Nat.Defs
import Mathlib.Algebra.Order.Monoid.Unbundled.Pow

/-! # Red-black trees and their holes

    Trees over any label type, and a tree with a hole as the list of frames
    from the hole up.  Left and right are one definition with a direction:
    `mk d c a x b` has `a` on the side `d` of `x` and `b` on the other.

    * `Balanced t n`: no red node has a red child, and every way down meets
      `n` black nodes;
    * `Ctx fs n`: the frames around a hole for such a tree, below a black top;
    * a tree fills a hole to a balanced tree exactly if the two fit
      (`fill`, `split`). -/

namespace SharixRedBlack

variable {α : Type}

inductive Dir where
  | left
  | right
deriving DecidableEq, Repr

def Dir.flip : Dir → Dir
  | .left => .right
  | .right => .left

@[simp] theorem Dir.flip_flip (d : Dir) : d.flip.flip = d := by
  cases d <;> rfl

@[simp] theorem Dir.flip_ne (d : Dir) : d.flip ≠ d := by
  cases d <;> decide

@[simp] theorem Dir.ne_flip (d : Dir) : d ≠ d.flip := by
  cases d <;> decide

theorem Dir.eq_or_eq_flip (d e : Dir) : d = e ∨ d = e.flip := by
  cases d <;> cases e <;> simp [Dir.flip]

/-- A tree with a colour at every node. -/
inductive CTree (α : Type) where
  | leaf
  | node (red : Bool) (l : CTree α) (x : α) (r : CTree α)
deriving DecidableEq, Repr

namespace CTree

def toList : CTree α → List α
  | leaf => []
  | node _ l x r => l.toList ++ x :: r.toList

def isRed : CTree α → Bool
  | leaf => false
  | node red _ _ _ => red

def height : CTree α → Nat
  | leaf => 0
  | node _ l _ r => max l.height r.height + 1

/-- A node with `a` on the side `d` and `b` on the other. -/
def mk (d : Dir) (red : Bool) (a : CTree α) (x : α) (b : CTree α) : CTree α :=
  match d with
  | .left => node red a x b
  | .right => node red b x a

@[simp] theorem isRed_leaf : (leaf : CTree α).isRed = false := rfl

@[simp] theorem isRed_mk (d : Dir) (red : Bool) (a : CTree α) (x : α)
    (b : CTree α) : (mk d red a x b).isRed = red := by
  cases d <;> rfl

/-- Left and right exchanged, sides and all. -/
theorem mk_flip (d : Dir) (red : Bool) (a : CTree α) (x : α) (b : CTree α) :
    mk d.flip red a x b = mk d red b x a := by
  cases d <;> rfl

@[simp] theorem mk_ne_leaf (d : Dir) (red : Bool) (a : CTree α) (x : α)
    (b : CTree α) : mk d red a x b ≠ leaf := by
  cases d <;> simp [mk]

/-- The tree with another colour at the top. -/
def paint (red : Bool) : CTree α → CTree α
  | leaf => leaf
  | node _ l x r => node red l x r

@[simp] theorem paint_mk (d : Dir) (c c' : Bool) (a : CTree α) (x : α)
    (b : CTree α) : paint c' (mk d c a x b) = mk d c' a x b := by
  cases d <;> rfl

/-- Colours are not in the sequence. -/
@[simp] theorem toList_paint (c : Bool) (t : CTree α) :
    (paint c t).toList = t.toList := by
  cases t <;> rfl

theorem paint_isRed (t : CTree α) : paint t.isRed t = t := by
  cases t <;> rfl

/-- A leaf is black too. -/
theorem isRed_paint_false (t : CTree α) : (paint false t).isRed = false := by
  cases t <;> rfl

theorem ne_leaf_of_isRed {t : CTree α} (h : t.isRed = true) : t ≠ leaf := by
  rintro rfl
  cases h

/-- A tree with nodes, seen from a side. -/
theorem exists_mk (d : Dir) {t : CTree α} (h : t ≠ leaf) :
    ∃ a x b, t = mk d t.isRed a x b := by
  cases t with
  | leaf => exact absurd rfl h
  | node red l x r =>
      cases d with
      | left => exact ⟨l, x, r, rfl⟩
      | right => exact ⟨r, x, l, rfl⟩

/-- A rotation keeps the order of the nodes. -/
theorem toList_rotate (d : Dir) (c c' c₁ c₁' : Bool) (a b e : CTree α)
    (x y : α) :
    (mk d c' (mk d c a x b) y e).toList
      = (mk d c₁ a x (mk d c₁' b y e)).toList := by
  cases d <;> simp [mk, toList]

/-- Colours do not matter to the order of the nodes. -/
theorem toList_mk_congr (d : Dir) (c c' : Bool) {a a' b b' : CTree α} (x : α)
    (ha : a.toList = a'.toList) (hb : b.toList = b'.toList) :
    (mk d c a x b).toList = (mk d c' a' x b').toList := by
  cases d <;> simp only [mk, toList, ha, hb]

end CTree

open CTree

/-! ## Holes -/

/-- One step down to a hole: the hole is on the side `dir` of `x`, the tree
    `sib` on the other. -/
structure Frame (α : Type) where
  dir : Dir
  red : Bool
  x : α
  sib : CTree α

/-- The tree with the hole filled. -/
def plug : CTree α → List (Frame α) → CTree α
  | t, [] => t
  | t, f :: fs => plug (mk f.dir f.red t f.x f.sib) fs

/-- The nodes before the hole. -/
def before : List (Frame α) → List α
  | [] => []
  | f :: fs =>
      before fs ++ match f.dir with
        | .left => []
        | .right => f.sib.toList ++ [f.x]

/-- The nodes after the hole. -/
def after : List (Frame α) → List α
  | [] => []
  | f :: fs =>
      (match f.dir with
        | .left => f.x :: f.sib.toList
        | .right => []) ++ after fs

/-- What the frames have before the hole, the tree in it, and what they have
    behind. -/
theorem toList_plug (fs : List (Frame α)) :
    ∀ t : CTree α, (plug t fs).toList = before fs ++ t.toList ++ after fs := by
  induction fs with
  | nil =>
      intro t
      simp [plug, before, after]
  | cons f fs ih =>
      intro t
      rw [plug, ih]
      rcases f with ⟨d, red, x, sib⟩
      cases d <;> simp [before, after, mk, toList]

theorem plug_ne_leaf (fs : List (Frame α)) :
    ∀ {t : CTree α}, t ≠ leaf → plug t fs ≠ leaf := by
  induction fs with
  | nil =>
      intro t h
      exact h
  | cons f fs ih =>
      intro t _
      exact ih (mk_ne_leaf _ _ _ _ _)

theorem length_le_plug (fs : List (Frame α)) (t : CTree α) :
    fs.length + t.toList.length ≤ (plug t fs).toList.length := by
  rw [toList_plug, List.length_append, List.length_append]
  have hlen : fs.length ≤ (before fs).length + (after fs).length := by
    induction fs with
    | nil => exact Nat.zero_le _
    | cons f fs ih =>
        rcases f with ⟨d, red, x, sib⟩
        cases d <;>
          simp only [before, after, List.length_append, List.length_cons,
            List.length_nil] <;>
          omega
  omega

/-- The sequence is changed where the tree is. -/
theorem toList_plug_congr (fs : List (Frame α)) {t t' : CTree α}
    (h : t.toList = t'.toList) :
    (plug t fs).toList = (plug t' fs).toList := by
  rw [toList_plug, toList_plug, h]

/-- A path in two parts. -/
theorem plug_append (gs fs : List (Frame α)) :
    ∀ t : CTree α, plug t (gs ++ fs) = plug (plug t gs) fs := by
  induction gs with
  | nil =>
      intro t
      rfl
  | cons g gs ih =>
      intro t
      exact ih _

/-- Every node of a tree is the top of the tree in some hole. -/
theorem exists_plug {x : α} : ∀ {t : CTree α}, x ∈ t.toList →
    ∃ c l r fs, t = plug (node c l x r) fs := by
  intro t
  induction t with
  | leaf =>
      intro h
      cases h
  | node c l y r ihl ihr =>
      intro h
      rcases List.mem_append.mp h with h | h
      · obtain ⟨c', l', r', fs, heq⟩ := ihl h
        refine ⟨c', l', r', fs ++ [⟨.left, c, y, r⟩], ?_⟩
        rw [plug_append, ← heq]
        rfl
      · rcases List.mem_cons.mp h with rfl | h
        · exact ⟨c, l, r, [], rfl⟩
        · obtain ⟨c', l', r', fs, heq⟩ := ihr h
          refine ⟨c', l', r', fs ++ [⟨.right, c, y, l⟩], ?_⟩
          rw [plug_append, ← heq]
          rfl

/-- The hole of a node parts the others into those before and after it. -/
theorem exists_cut {x : α} {t : CTree α} {l₁ l₂ : List α} (hn : t.toList.Nodup)
    (h : t.toList = l₁ ++ x :: l₂) :
    ∃ c l r fs, t = plug (node c l x r) fs ∧ before fs ++ l.toList = l₁ ∧
      r.toList ++ after fs = l₂ := by
  have hmem : x ∈ t.toList := by
    rw [h]
    exact List.mem_append_right _ List.mem_cons_self
  obtain ⟨c, l, r, fs, rfl⟩ := exists_plug hmem
  have hsame : (plug (node c l x r) fs).toList
      = (before fs ++ l.toList) ++ x :: (r.toList ++ after fs) := by
    rw [toList_plug]
    simp [toList]
  rw [hsame] at hn h
  have hout := (List.nodup_cons.mp (List.nodup_middle.mp hn)).1
  rw [List.mem_append, not_or] at hout
  obtain ⟨h1, -, h2⟩ := (List.append_cons_inj_of_notMem hout.1 hout.2).mp h
  exact ⟨c, l, r, fs, rfl, h1, h2⟩

/-! ## Balance -/

inductive Balanced : CTree α → Nat → Prop where
  | leaf : Balanced leaf 0
  | red {l r : CTree α} {x : α} {n : Nat} : l.isRed = false → r.isRed = false →
      Balanced l n → Balanced r n → Balanced (node true l x r) n
  | black {l r : CTree α} {x : α} {n : Nat} :
      Balanced l n → Balanced r n → Balanced (node false l x r) (n + 1)

/-- A red node has black children of its own height. -/
theorem balanced_mk_red {d : Dir} {a b : CTree α} {x : α} {n : Nat} :
    Balanced (mk d true a x b) n ↔
      (a.isRed = false ∧ Balanced a n) ∧ b.isRed = false ∧ Balanced b n := by
  cases d with
  | left =>
      constructor
      · rintro (_ | ⟨h1, h2, h3, h4⟩)
        exact ⟨⟨h1, h3⟩, h2, h4⟩
      · rintro ⟨⟨h1, h2⟩, h3, h4⟩
        exact .red h1 h3 h2 h4
  | right =>
      constructor
      · rintro (_ | ⟨h1, h2, h3, h4⟩)
        exact ⟨⟨h2, h4⟩, h1, h3⟩
      · rintro ⟨⟨h1, h2⟩, h3, h4⟩
        exact .red h3 h1 h4 h2

/-- Below a black node the height is one less. -/
theorem balanced_mk_black {d : Dir} {a b : CTree α} {x : α} {n : Nat} :
    Balanced (mk d false a x b) n ↔
      ∃ k, n = k + 1 ∧ Balanced a k ∧ Balanced b k := by
  cases d with
  | left =>
      constructor
      · rintro (_ | _ | ⟨h1, h2⟩)
        exact ⟨_, rfl, h1, h2⟩
      · rintro ⟨k, rfl, h1, h2⟩
        exact .black h1 h2
  | right =>
      constructor
      · rintro (_ | _ | ⟨h1, h2⟩)
        exact ⟨_, rfl, h2, h1⟩
      · rintro ⟨k, rfl, h1, h2⟩
        exact .black h2 h1

theorem balanced_pos {t : CTree α} {n : Nat} (h : Balanced t (n + 1)) :
    t ≠ leaf := by
  rintro rfl
  cases h

/-- A red top can be made black. -/
theorem Balanced.paint_red {t : CTree α} {n : Nat} (h : Balanced t n)
    (hred : t.isRed = true) : Balanced (paint false t) (n + 1) := by
  cases h with
  | leaf => cases hred
  | red _ _ hl hr => exact .black hl hr
  | black _ _ => cases hred

/-- Whether the frame next to the hole is red. -/
def headRed : List (Frame α) → Bool
  | [] => false
  | f :: _ => f.red

/-- The frames around a hole for a balanced tree with `n` black nodes on every
    way down, in a balanced tree with a black top. -/
inductive Ctx : List (Frame α) → Nat → Prop where
  | nil {n : Nat} : Ctx [] n
  | red {d : Dir} {x : α} {sib : CTree α} {fs : List (Frame α)} {n : Nat} :
      sib.isRed = false → Balanced sib n → headRed fs = false → fs ≠ [] →
      Ctx fs n → Ctx (⟨d, true, x, sib⟩ :: fs) n
  | black {d : Dir} {x : α} {sib : CTree α} {fs : List (Frame α)} {n : Nat} :
      Balanced sib n → Ctx fs (n + 1) → Ctx (⟨d, false, x, sib⟩ :: fs) n

/-- A tree that fits its hole fills it to a balanced tree; unless it is all of
    the tree, the top is black. -/
theorem fill {fs : List (Frame α)} {n : Nat} (hc : Ctx fs n) :
    ∀ {t : CTree α}, Balanced t n → (headRed fs = true → t.isRed = false) →
      ∃ k, Balanced (plug t fs) k ∧ (fs ≠ [] → (plug t fs).isRed = false) := by
  induction hc with
  | nil =>
      intro t ht _
      exact ⟨_, ht, fun h => absurd rfl h⟩
  | @red d x sib fs n hsr hs hhead hne hc ih =>
      intro t ht hr
      obtain ⟨k, hk, htop⟩ := ih (t := mk d true t x sib)
        (balanced_mk_red.mpr ⟨⟨hr rfl, ht⟩, hsr, hs⟩)
        (by rw [hhead]; exact fun h => by cases h)
      exact ⟨k, hk, fun _ => htop hne⟩
  | @black d x sib fs n hs hc ih =>
      intro t ht _
      obtain ⟨k, hk, htop⟩ := ih (t := mk d false t x sib)
        (balanced_mk_black.mpr ⟨n, rfl, ht, hs⟩) (fun _ => isRed_mk ..)
      refine ⟨k, hk, fun _ => ?_⟩
      cases fs with
      | nil => exact isRed_mk ..
      | cons f fs => exact htop (by simp)

/-- A balanced tree with a black top is a fit of every part and its hole. -/
theorem split (fs : List (Frame α)) : ∀ {t : CTree α} {k : Nat},
    Balanced (plug t fs) k → (plug t fs).isRed = false →
    ∃ n, Balanced t n ∧ Ctx fs n ∧ (headRed fs = true → t.isRed = false) := by
  induction fs with
  | nil =>
      intro t k ht _
      exact ⟨k, ht, .nil, fun h => by cases h⟩
  | cons f fs ih =>
      intro t k ht htop
      obtain ⟨n, hb, hc, hhead⟩ := ih ht htop
      rcases f with ⟨d, red, x, sib⟩
      cases red with
      | true =>
          obtain ⟨⟨h1, h2⟩, h3, h4⟩ := balanced_mk_red.mp hb
          have hblack : headRed fs = false := by
            cases hh : headRed fs with
            | false => rfl
            | true => exact absurd (hhead hh) (by simp)
          have hne : fs ≠ [] := by
            rintro rfl
            exact absurd htop (by simp [plug])
          exact ⟨n, h2, .red h3 h4 hblack hne hc, fun _ => h1⟩
      | false =>
          obtain ⟨m, rfl, h1, h2⟩ := balanced_mk_black.mp hb
          exact ⟨m, h1, .black h2 hc, fun h => by cases h⟩

/-- The frames fit whatever node is at one of them. -/
theorem Ctx.relabel {d : Dir} {c : Bool} {x y : α} {sib : CTree α}
    {fs : List (Frame α)} (gs : List (Frame α)) : ∀ {n : Nat},
      Ctx (gs ++ ⟨d, c, x, sib⟩ :: fs) n → Ctx (gs ++ ⟨d, c, y, sib⟩ :: fs) n
    := by
  induction gs with
  | nil =>
      intro n h
      cases h with
      | red h1 h2 h3 h4 h5 => exact .red h1 h2 h3 h4 h5
      | black h1 h2 => exact .black h1 h2
  | cons g gs ih =>
      intro n h
      rw [List.cons_append] at h ⊢
      have hhead : headRed (gs ++ ⟨d, c, x, sib⟩ :: fs)
          = headRed (gs ++ ⟨d, c, y, sib⟩ :: fs) := by
        cases gs <;> rfl
      cases h with
      | red h1 h2 h3 _ h5 =>
          exact .red h1 h2 (by rw [← hhead, h3]) (by simp) (ih h5)
      | black h1 h2 => exact .black h1 (ih h2)

/-! ## Height -/

/-- Black nodes alone make a full tree. -/
theorem Balanced.size {t : CTree α} {n : Nat} (h : Balanced t n) :
    2 ^ n ≤ t.toList.length + 1 := by
  induction h with
  | leaf => simp [toList]
  | red _ _ _ _ ihl ihr =>
      simp only [toList, List.length_append, List.length_cons]
      omega
  | black _ _ ihl ihr =>
      simp only [toList, List.length_append, List.length_cons]
      rw [Nat.pow_succ]
      omega

/-- At most every other node of a path is red. -/
theorem Balanced.height {t : CTree α} {n : Nat} (h : Balanced t n) :
    t.height ≤ 2 * n + t.isRed.toNat := by
  induction h with
  | leaf => exact Nat.le_refl _
  | @red l r x n hl hr _ _ ihl ihr =>
      rw [hl] at ihl
      rw [hr] at ihr
      simp only [CTree.height, isRed, Bool.toNat_false, Bool.toNat_true] at *
      omega
  | @black l r x n _ _ ihl ihr =>
      have h1 := Bool.toNat_le l.isRed
      have h2 := Bool.toNat_le r.isRed
      simp only [CTree.height, isRed, Bool.toNat_false] at *
      omega

/-- **THE HEIGHT BOUND**: a balanced tree of `m` nodes with a black top has a
    height of at most `2 * log2 (m + 1)`. -/
theorem Balanced.height_bound {t : CTree α} {n : Nat} (h : Balanced t n)
    (htop : t.isRed = false) : 2 ^ t.height ≤ (t.toList.length + 1) ^ 2 := by
  have hh := h.height
  rw [htop, Bool.toNat_false, Nat.add_zero] at hh
  calc 2 ^ t.height ≤ 2 ^ (2 * n) := Nat.pow_le_pow_right (by omega) hh
    _ = (2 ^ n) ^ 2 := by rw [Nat.mul_comm, Nat.pow_mul]
    _ ≤ (t.toList.length + 1) ^ 2 := Nat.pow_le_pow_left h.size 2

end SharixRedBlack
