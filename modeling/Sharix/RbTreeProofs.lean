import Mathlib.Logic.Function.Basic
import Sharix.RedBlackProofs

/-! # The red-black tree of the kernel — `rb_tree.c`

    The nodes live in a heap.  A tree has two nodes of its own: `nil`, the end
    of every way down, and `root`, whose left child is the top of the tree.
    Code that the source writes once for `(_left, _right)` and its mirror has
    a direction here, the side called `_left`.

    Every loop has a fuel: one unit for each test of its condition. -/

namespace SharixRbTree

open SharixRedBlack

/-- `rb_node`. -/
structure RbNode (ν : Type) where
  red : Bool
  parent : ν
  left : ν
  right : ν
deriving DecidableEq, Repr

/-- `rb_tree`. -/
structure RbTree (ν : Type) where
  compare : ν → ν → Int
  nil : ν
  root : ν

abbrev Heap (ν : Type) := ν → RbNode ν

section
variable {ν : Type}

/-! ## Fields of nodes -/

/-- `node->_left`, where the direction is what `_left` stands for. -/
def RbNode.child (n : RbNode ν) : Dir → ν
  | .left => n.left
  | .right => n.right

def RbNode.withChild (n : RbNode ν) (d : Dir) (y : ν) : RbNode ν :=
  match d with
  | .left => { n with left := y }
  | .right => { n with right := y }

/-- The node with `a` on the side `d` and `b` on the other. -/
def RbNode.of (d : Dir) (red : Bool) (parent a b : ν) : RbNode ν :=
  match d with
  | .left => ⟨red, parent, a, b⟩
  | .right => ⟨red, parent, b, a⟩

variable [DecidableEq ν]

def Heap.setRed (h : Heap ν) (x : ν) (red : Bool) : Heap ν :=
  Function.update h x { h x with red := red }

def Heap.setParent (h : Heap ν) (x p : ν) : Heap ν :=
  Function.update h x { h x with parent := p }

def Heap.setChild (h : Heap ν) (x : ν) (d : Dir) (y : ν) : Heap ν :=
  Function.update h x ((h x).withChild d y)

/-! ## `rb_tree_create` -/

/-- `rb_tree_create`, by what its three calls of `kmalloc` return: the tree,
    if there is one, the heap, and the blocks given to `kfree`. -/
def rbTreeCreate (compare : ν → ν → Int) (tree nil root : Option ν)
    (h : Heap ν) : Option (RbTree ν) × Heap ν × List ν :=
  match tree with
  | none => (none, h, [])
  | some tree =>
      match nil with
      | none => (none, h, [tree])
      | some nil =>
          let h := Function.update h nil ⟨false, nil, nil, nil⟩
          match root with
          | none => (none, h, [nil, tree])
          | some root =>
              (some ⟨compare, nil, root⟩,
                Function.update h root ⟨false, nil, nil, nil⟩, [])

/-! ## Rotations -/

/-- `if (x == p->_left) { p->_left = y; } else { p->_right = y; }`. -/
def relink (p x y : ν) (d : Dir) (h : Heap ν) : Heap ν :=
  if x = (h p).child d then h.setChild p d y else h.setChild p d.flip y

/-- `FUNC_ROTATE(_, _left, _right)`: `rb_left_rotate` for the direction
    `left` and `rb_right_rotate` for `right`. -/
def rotate (t : RbTree ν) (d : Dir) (x : ν) (h : Heap ν) : Heap ν :=
  let y := (h x).child d.flip
  let h := h.setChild x d.flip ((h y).child d)
  let h := if (h y).child d ≠ t.nil then h.setParent ((h y).child d) x else h
  let h := h.setParent y (h x).parent
  let h := relink (h x).parent x y d h
  let h := h.setChild y d x
  h.setParent x y

def rbLeftRotate (t : RbTree ν) (x : ν) (h : Heap ν) : Heap ν :=
  rotate t .left x h

def rbRightRotate (t : RbTree ν) (x : ν) (h : Heap ν) : Heap ν :=
  rotate t .right x h

/-! ## `rb_insert` -/

/-- The loop of `rb_insert_binary`: the last `y`, the end of the walk at
    `nil`. -/
def insertWalk (t : RbTree ν) (node : ν) (h : Heap ν) :
    Nat → ν → ν → Option ν
  | 0, _, _ => none
  | fuel + 1, y, x =>
      if x = t.nil then some y
      else insertWalk t node h fuel x
        (if 0 < t.compare x node then (h x).left else (h x).right)

def rbInsertBinary (fuel : Nat) (t : RbTree ν) (z : ν) (h : Heap ν) :
    Option (Heap ν) :=
  let h := h.setChild z .left t.nil
  let h := h.setChild z .right t.nil
  (insertWalk t z h fuel t.root (h t.root).left).map fun y =>
    let h := h.setParent z y
    if y = t.root ∨ 0 < t.compare y z then h.setChild y .left z
    else h.setChild y .right z

/-- The first part of the `else` branch of `RB_INSERT_SUB`: `x` and the heap
    after `x` is made the outer child. -/
def insertOuter (t : RbTree ν) (d : Dir) (x : ν) (h : Heap ν) : ν × Heap ν :=
  if x = (h (h x).parent).child d.flip then
    ((h x).parent, rotate t d (h x).parent h)
  else (x, h)

/-- The rest of the `else` branch of `RB_INSERT_SUB`. -/
def insertRaise (t : RbTree ν) (d : Dir) (x : ν) (h : Heap ν) : Heap ν :=
  let h := h.setRed (h x).parent false
  let h := h.setRed (h (h x).parent).parent true
  rotate t d.flip (h (h x).parent).parent h

/-- `RB_INSERT_SUB(_left, _right)`: the next `x` and the heap. -/
def insertSub (t : RbTree ν) (d : Dir) (x : ν) (h : Heap ν) : ν × Heap ν :=
  let y := (h (h (h x).parent).parent).child d.flip
  if (h y).red then
    let h := h.setRed (h x).parent false
    let h := h.setRed y false
    let h := h.setRed (h (h x).parent).parent true
    ((h (h x).parent).parent, h)
  else
    let s := insertOuter t d x h
    (s.1, insertRaise t d s.1 s.2)

/-- The loop of `rb_insert`. -/
def insertFixup (t : RbTree ν) : Nat → ν → Heap ν → Option (Heap ν)
  | 0, _, _ => none
  | fuel + 1, x, h =>
      if (h (h x).parent).red then
        let d := if (h x).parent = (h (h (h x).parent).parent).left
          then Dir.left else Dir.right
        insertFixup t fuel (insertSub t d x h).1 (insertSub t d x h).2
      else some h

def rbInsert (fuel : Nat) (t : RbTree ν) (node : ν) (h : Heap ν) :
    Option (Heap ν) :=
  (rbInsertBinary fuel t node h).bind fun h =>
    (insertFixup t fuel node (h.setRed node true)).map fun h =>
      h.setRed (h t.root).left false

/-! ## `rb_tree_successor` -/

/-- `while (y->left != nil) { y = y->left; }`. -/
def leftmost (t : RbTree ν) (h : Heap ν) : Nat → ν → Option ν
  | 0, _ => none
  | fuel + 1, y =>
      if (h y).left ≠ t.nil then leftmost t h fuel (h y).left else some y

/-- `while (x == y->right) { x = y, y = y->parent; }`. -/
def climbRight (h : Heap ν) : Nat → ν → ν → Option ν
  | 0, _, _ => none
  | fuel + 1, x, y =>
      if x = (h y).right then climbRight h fuel y (h y).parent else some y

def rbTreeSuccessor (fuel : Nat) (t : RbTree ν) (node : ν) (h : Heap ν) :
    Option ν :=
  if (h node).right ≠ t.nil then leftmost t h fuel (h node).right
  else (climbRight h fuel node (h node).parent).map fun y =>
    if y = t.root then t.nil else y

/-! ## `rb_delete` -/

/-- The first `if` of `RB_DELETE_FIXUP_SUB`. -/
def deleteRedSibling (t : RbTree ν) (d : Dir) (x : ν) (h : Heap ν) : Heap ν :=
  let w := (h (h x).parent).child d.flip
  if (h w).red then
    let h := h.setRed w false
    let h := h.setRed (h x).parent true
    rotate t d (h x).parent h
  else h

/-- The first `if` of the last branch of `RB_DELETE_FIXUP_SUB`. -/
def deleteOuter (t : RbTree ν) (d : Dir) (w : ν) (h : Heap ν) : Heap ν :=
  if (h ((h w).child d.flip)).red then h
  else
    let h := h.setRed ((h w).child d) false
    let h := h.setRed w true
    rotate t d.flip w h

/-- The rest of the last branch of `RB_DELETE_FIXUP_SUB`. -/
def deleteRaise (t : RbTree ν) (d : Dir) (x w : ν) (h : Heap ν) : Heap ν :=
  let h := h.setRed w (h (h x).parent).red
  let h := h.setRed (h x).parent false
  let h := h.setRed ((h w).child d.flip) false
  rotate t d (h x).parent h

/-- `RB_DELETE_FIXUP_SUB` from its second `if` on: the next `x` and the
    heap. -/
def deleteBlackSibling (t : RbTree ν) (d : Dir) (root x : ν) (h : Heap ν) :
    ν × Heap ν :=
  let w := (h (h x).parent).child d.flip
  if !(h ((h w).child d)).red && !(h ((h w).child d.flip)).red then
    ((h x).parent, h.setRed w true)
  else
    let h := deleteOuter t d w h
    let w := (h (h x).parent).child d.flip
    (root, deleteRaise t d x w h)

/-- `RB_DELETE_FIXUP_SUB(_left, _right)`.  After each of its first two
    rotations the source reads `w` from `x->parent` again; it is read here
    also if there was no rotation. -/
def deleteSub (t : RbTree ν) (d : Dir) (root x : ν) (h : Heap ν) :
    ν × Heap ν :=
  deleteBlackSibling t d root x (deleteRedSibling t d x h)

/-- The loop of `rb_delete_fixup`, and what follows it. -/
def deleteFixupLoop (t : RbTree ν) (root : ν) :
    Nat → ν → Heap ν → Option (Heap ν)
  | 0, _, _ => none
  | fuel + 1, x, h =>
      if x ≠ root ∧ (h x).red = false then
        let d := if x = (h (h x).parent).left then Dir.left else Dir.right
        deleteFixupLoop t root fuel
          (deleteSub t d root x h).1 (deleteSub t d root x h).2
      else some (h.setRed x false)

/-- `rb_delete_fixup`: `root` is the top of the tree as the call finds it. -/
def rbDeleteFixup (fuel : Nat) (t : RbTree ν) (node : ν) (h : Heap ν) :
    Option (Heap ν) :=
  deleteFixupLoop t (h t.root).left fuel node h

/-- The only child of `y`, or `nil`. -/
def onlyChild (t : RbTree ν) (y : ν) (h : Heap ν) : ν :=
  if (h y).left ≠ t.nil then (h y).left else (h y).right

/-- `x->parent = y->parent` and the link from there. -/
def unlink (x y : ν) (h : Heap ν) : Heap ν :=
  let h := h.setParent x (h y).parent
  relink (h y).parent y x .left h

/-- What `rb_delete` does if `y != z`: `y` takes the place of `z`, and
    `*y = *z`. -/
def replace (y z : ν) (h : Heap ν) : Heap ν :=
  let h := relink (h z).parent z y .left h
  let h := h.setParent (h z).right y
  let h := h.setParent (h z).left y
  Function.update h y (h z)

def rbDelete (fuel : Nat) (t : RbTree ν) (z : ν) (h : Heap ν) :
    Option (Heap ν) :=
  (if (h z).left = t.nil ∨ (h z).right = t.nil then some z
    else rbTreeSuccessor fuel t z h).bind fun y =>
    let x := onlyChild t y h
    let h := unlink x y h
    let needFixup := !(h y).red
    let h := if y ≠ z then replace y z h else h
    if needFixup then rbDeleteFixup fuel t x h else some h

end

end SharixRbTree
