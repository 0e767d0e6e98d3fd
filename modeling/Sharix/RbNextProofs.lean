import Sharix.RbRunProofs

/-! # `rb_node_next` and `rb_node_prev`

    Each goes down on one side, or up to the first node that it comes to from
    the other side.  The way up ends at `root`: `rb_tree_successor` stops
    there because the right link of `root` is `nil`, and
    `rb_tree_predecessor`, which comes to `root` from its left link, tests for
    it. -/

namespace SharixRbTree

open SharixRedBlack
open SharixRun

variable {ν : Type} [DecidableEq ν] {t : RbTree ν} {h : Heap ν}

/-! ## The model -/

/-- `while (y->right != nil) { y = y->right; }`. -/
def rightmost (t : RbTree ν) (h : Heap ν) : Nat → ν → Option ν
  | 0, _ => none
  | fuel + 1, y =>
      if (h y).right ≠ t.nil then rightmost t h fuel (h y).right else some y

/-- The loop of `rb_tree_predecessor`, and what it returns. -/
def climbLeft (t : RbTree ν) (h : Heap ν) : Nat → ν → ν → Option ν
  | 0, _, _ => none
  | fuel + 1, x, y =>
      if x = (h y).left then
        if y = t.root then some t.nil else climbLeft t h fuel y (h y).parent
      else some y

def rbTreePredecessor (fuel : Nat) (t : RbTree ν) (node : ν) (h : Heap ν) :
    Option ν :=
  if (h node).left ≠ t.nil then rightmost t h fuel (h node).left
  else climbLeft t h fuel node (h node).parent

/-- The outer `none` is a loop that does not end, the inner one is `NULL`. -/
def rbNodePrev (fuel : Nat) (t : RbTree ν) (node : ν) (h : Heap ν) :
    Option (Option ν) :=
  (rbTreePredecessor fuel t node h).map fun prev =>
    if prev ≠ t.nil then some prev else none

def rbNodeNext (fuel : Nat) (t : RbTree ν) (node : ν) (h : Heap ν) :
    Option (Option ν) :=
  (rbTreeSuccessor fuel t node h).map fun next =>
    if next ≠ t.nil then some next else none

/-- `rb_node_root`. -/
def rbNodeRoot (t : RbTree ν) (h : Heap ν) : Option ν :=
  if (h t.root).left ≠ t.nil then some (h t.root).left else none

/-- From `rb_node_root` on to the left, as long as there is a node. -/
def firstNode (fuel : Nat) (t : RbTree ν) (h : Heap ν) : Option (Option ν) :=
  match rbNodeRoot t h with
  | none => some none
  | some y => (leftmost t h fuel y).map some

/-- `for (; node != NULL; node = rb_node_next(tree, node))`: the nodes that it
    visits. -/
def visit (fuel : Nat) (t : RbTree ν) (h : Heap ν) :
    Nat → Option ν → Option (List ν)
  | 0, _ => none
  | _ + 1, none => some []
  | n + 1, some node =>
      (rbNodeNext fuel t node h).bind fun next =>
        (visit fuel t h n next).map (node :: ·)

/-! ## Down -/

open SharixRedBlack.CTree

theorem leftmost_eq_head {T : CTree ν} {fs : List (Frame ν)} {fuel : Nat}
    (hf : Focus t h T fs) (hT : T ≠ leaf) (hlen : T.toList.length ≤ fuel) :
    leftmost t h fuel (top t.nil T) = T.toList.head? := by
  obtain ⟨c, y, r, gs, hwalk, heq, hgs⟩ := leftmost_focus hlen hf hT
  rw [hwalk, heq, toList_plug, hgs]
  rfl

theorem rightmost_eq_last {T : CTree ν} : ∀ {fuel : Nat} {fs : List (Frame ν)},
    Focus t h T fs → T ≠ leaf → T.toList.length ≤ fuel →
      rightmost t h fuel (top t.nil T) = T.toList.getLast? := by
  induction T with
  | leaf => exact fun _ hne => absurd rfl hne
  | node c l x r _ ihr =>
      intro fuel fs hf _ hlen
      rw [toList, List.length_append, List.length_cons] at hlen
      obtain ⟨n, rfl⟩ : ∃ n, fuel = n + 1 := ⟨fuel - 1, by omega⟩
      have hrec : (h x).right = top t.nil r := by rw [hf.rep.1]
      have hr := focus_down (d := .right).mp hf
      rw [top, rightmost, hrec, toList]
      by_cases hleaf : r = leaf
      · subst hleaf
        rw [top_leaf, if_neg (not_not_intro rfl), toList, List.getLast?_concat]
      · have hne : r.toList ≠ [] := toList_ne_nil hleaf
        rw [if_pos (hr.top_apart hleaf).1,
          ihr hr hleaf (show r.toList.length ≤ n by omega),
          List.getLast?_append_of_ne_nil _ (by simp), List.getLast?_cons,
          List.getLast?_eq_some_getLast hne]
        rfl

/-! ## Up -/

/-- The way up ends at the first node after the hole, or at `root`. -/
theorem climbRight_focus {fs : List (Frame ν)} : ∀ {T : CTree ν} {fuel : Nat},
    Focus t h T fs → T ≠ leaf → fs.length < fuel →
      climbRight h fuel (top t.nil T) (up t.root fs)
        = some ((after fs).head?.getD t.root) := by
  induction fs with
  | nil =>
      intro T fuel hf hT hlen
      obtain ⟨n, rfl⟩ : ∃ n, fuel = n + 1 := ⟨fuel - 1, by omega⟩
      have hroot : h t.root = .of .left false t.nil (top t.nil T) t.nil := hf.ctx
      rw [climbRight, up, hroot]
      exact if_neg (hf.top_apart hT).1
  | cons f fs ih =>
      intro T fuel hf hT hlen
      obtain ⟨n, rfl⟩ : ∃ n, fuel = n + 1 := ⟨fuel - 1, by omega⟩
      have hrest : fs.length < n := Nat.lt_of_succ_lt_succ hlen
      have hrec := hf.frame
      have hsib := hf.top_ne_sib (.inl hT)
      rcases f with ⟨d, c, x, sib⟩
      rw [climbRight, up, hrec]
      cases d with
      | left => exact if_neg hsib
      | right =>
          refine (if_pos rfl).trans ?_
          have hrun := ih (focus_down (d := .right).mpr hf) (mk_ne_leaf _ _ _ _ _) hrest
          rw [top_mk] at hrun
          exact hrun

/-- The way up ends at the last node before the hole, or at `nil`. -/
theorem climbLeft_focus {fs : List (Frame ν)} : ∀ {T : CTree ν} {fuel : Nat},
    Focus t h T fs → T ≠ leaf → fs.length < fuel →
      climbLeft t h fuel (top t.nil T) (up t.root fs)
        = some ((before fs).getLast?.getD t.nil) := by
  induction fs with
  | nil =>
      intro T fuel hf hT hlen
      obtain ⟨n, rfl⟩ : ∃ n, fuel = n + 1 := ⟨fuel - 1, by omega⟩
      have hroot : h t.root = .of .left false t.nil (top t.nil T) t.nil := hf.ctx
      rw [climbLeft, up, hroot]
      exact (if_pos rfl).trans (if_pos rfl)
  | cons f fs ih =>
      intro T fuel hf hT hlen
      obtain ⟨n, rfl⟩ : ∃ n, fuel = n + 1 := ⟨fuel - 1, by omega⟩
      have hrest : fs.length < n := Nat.lt_of_succ_lt_succ hlen
      have hrec := hf.frame
      have hsib := hf.top_ne_sib (.inl hT)
      rcases f with ⟨d, c, x, sib⟩
      have hup := focus_down.mpr hf
      have hx : x ≠ t.root := fun he => hup.apart.2.2.2 (he ▸ List.mem_cons_self)
      rw [climbLeft, up, hrec, before]
      cases d with
      | left =>
          refine (if_pos rfl).trans ((if_neg hx).trans ?_)
          have hrun := ih hup (mk_ne_leaf _ _ _ _ _) hrest
          rw [top_mk] at hrun
          rw [List.append_nil]
          exact hrun
      | right =>
          refine (if_neg hsib).trans ?_
          rw [← List.append_assoc, List.getLast?_concat]
          rfl

/-! ## Neighbours -/

omit [DecidableEq ν] in
theorem frameNodes_perm (fs : List (Frame ν)) :
    (before fs ++ after fs).Perm (frameNodes fs) := by
  have hperm := plug_perm fs leaf
  rw [toList_plug, toList, List.append_nil] at hperm
  exact hperm

theorem rbTreeSuccessor_focus {c : Bool} {l r : CTree ν} {x : ν}
    {fs : List (Frame ν)} {fuel : Nat} (hf : Focus t h (node c l x r) fs)
    (hlen : fs.length + r.toList.length < fuel) :
    rbTreeSuccessor fuel t x h
      = some ((r.toList ++ after fs).head?.getD t.nil) := by
  have hright := focus_down (d := .right).mp hf
  have hrec : h x = _ := hf.rep.1
  rw [rbTreeSuccessor, hrec]
  by_cases hr : r = leaf
  · subst hr
    rw [toList, List.nil_append]
    refine (if_neg (not_not_intro rfl)).trans ?_
    have hlen' : fs.length < fuel := by omega
    have hup := climbRight_focus hf (by simp) hlen'
    rw [top] at hup
    rw [hup]
    cases ha : after fs with
    | nil => exact congrArg some (if_pos rfl)
    | cons y ys =>
        have hy : y ∈ frameNodes fs := (frameNodes_perm fs).mem_iff.mp
          (List.mem_append_right _ (by rw [ha]; exact List.mem_cons_self))
        have hroot : y ≠ t.root := by
          rintro rfl
          have hn := (List.nodup_cons.mp (List.nodup_cons.mp hf.nodup).2).1
          exact hn (List.mem_append_right _ hy)
        exact congrArg some (if_neg hroot)
  · have hne : r.toList ≠ [] := toList_ne_nil hr
    refine (if_pos (hright.top_apart hr).1).trans ?_
    have hlen' : r.toList.length ≤ fuel := by omega
    have hdown := leftmost_eq_head hright hr hlen'
    obtain ⟨y, ys, hy⟩ := List.exists_cons_of_ne_nil hne
    rw [hy] at hdown ⊢
    exact hdown

theorem rbTreePredecessor_focus {c : Bool} {l r : CTree ν} {x : ν}
    {fs : List (Frame ν)} {fuel : Nat} (hf : Focus t h (node c l x r) fs)
    (hlen : fs.length + l.toList.length < fuel) :
    rbTreePredecessor fuel t x h
      = some ((before fs ++ l.toList).getLast?.getD t.nil) := by
  have hleft := focus_down (d := .left).mp hf
  have hrec : h x = _ := hf.rep.1
  rw [rbTreePredecessor, hrec]
  by_cases hl : l = leaf
  · subst hl
    rw [toList, List.append_nil]
    refine (if_neg (not_not_intro rfl)).trans ?_
    have hlen' : fs.length < fuel := by omega
    exact climbLeft_focus hf (by simp) hlen'
  · have hne : l.toList ≠ [] := toList_ne_nil hl
    refine (if_pos (hleft.top_apart hl).1).trans ?_
    have hlen' : l.toList.length ≤ fuel := by omega
    have hdown := rightmost_eq_last hleft hl hlen'
    rw [List.getLast?_append_of_ne_nil _ hne, List.getLast?_eq_some_getLast hne]
    exact hdown.trans (List.getLast?_eq_some_getLast hne)

/-- The answers, `NULL` for the end. -/
theorem Holds.next_prev {l₁ l₂ : List ν} {x : ν} (hh : Holds t h (l₁ ++ x :: l₂))
    {fuel : Nat} (hlen : (l₁ ++ x :: l₂).length < fuel) :
    rbNodeNext fuel t x h = some l₂.head? ∧
      rbNodePrev fuel t x h = some l₁.getLast? := by
  have hnil := (List.nodup_cons.mp hh.nodup).1
  have hend : ∀ {o : Option ν}, (∀ y ∈ o, y ∈ l₁ ++ x :: l₂) →
      (if o.getD t.nil ≠ t.nil then some (o.getD t.nil) else none) = o := by
    intro o ho
    cases o with
    | none => exact if_neg (not_not_intro rfl)
    | some y =>
        refine if_pos fun he => hnil (List.mem_cons_of_mem _ ?_)
        exact he ▸ ho y rfl
  have hnext : ∀ y ∈ l₂.head?, y ∈ l₁ ++ x :: l₂ := fun y hy =>
    List.mem_append_right _ (List.mem_cons_of_mem _ (List.mem_of_mem_head? hy))
  have hprev : ∀ y ∈ l₁.getLast?, y ∈ l₁ ++ x :: l₂ := fun y hy =>
    List.mem_append_left _ (List.mem_of_mem_getLast? hy)
  have hn := (List.nodup_cons.mp (List.nodup_cons.mp hh.nodup).2).2
  obtain ⟨T, k, hf, -, -, hlist⟩ := hh
  obtain ⟨c, l, r, fs, rfl, rfl, rfl⟩ := exists_cut (hlist ▸ hn) hlist
  have hsize := length_le_plug fs (node c l x r)
  rw [hlist] at hsize
  rw [focus_plug, List.append_nil] at hf
  simp only [toList, List.length_append, List.length_cons] at hsize hlen
  constructor
  · rw [rbNodeNext, rbTreeSuccessor_focus hf (by omega), Option.map_some, hend hnext]
  · rw [rbNodePrev, rbTreePredecessor_focus hf (by omega), Option.map_some, hend hprev]

/-- From any node on `rb_node_next` visits the rest of the tree. -/
theorem Holds.visit_rest {fuel : Nat} {l₂ : List ν} : ∀ {l₁ : List ν} {n : Nat},
    Holds t h (l₁ ++ l₂) → (l₁ ++ l₂).length < fuel → l₂.length < n →
      visit fuel t h n l₂.head? = some l₂ := by
  induction l₂ with
  | nil =>
      intro l₁ n _ _ hn
      obtain ⟨n, rfl⟩ := Nat.exists_eq_succ_of_ne_zero (Nat.ne_of_gt hn)
      rfl
  | cons x xs ih =>
      intro l₁ n hh hlen hn
      obtain ⟨n, rfl⟩ := Nat.exists_eq_succ_of_ne_zero (Nat.ne_of_gt
        (Nat.lt_of_le_of_lt (Nat.zero_le _) hn))
      have hrest : visit fuel t h n xs.head? = some xs := by
        rw [List.append_cons] at hh hlen
        exact ih hh hlen (Nat.lt_of_succ_lt_succ hn)
      rw [List.head?_cons, visit, (hh.next_prev hlen).1,
        Option.bind_some, hrest]
      rfl

theorem Holds.first_node {l : List ν} (hh : Holds t h l) {fuel : Nat}
    (hlen : l.length < fuel) : firstNode fuel t h = some l.head? := by
  obtain ⟨T, k, hf, -, -, rfl⟩ := hh
  rw [firstNode, rbNodeRoot, hf.root_left]
  by_cases hT : T = leaf
  · rw [hT, top_leaf, if_neg (not_not_intro rfl)]
    rfl
  · rw [if_pos (hf.top_apart hT).1]
    dsimp only
    rw [leftmost_eq_head hf hT (Nat.le_of_lt hlen)]
    obtain ⟨x, xs, hl⟩ := List.exists_cons_of_ne_nil
      (toList_ne_nil hT)
    rw [hl]
    rfl

/-- In a tree without double nodes the two calls are inverse. -/
theorem Holds.next_iff_prev {l : List ν} (hh : Holds t h l) {fuel : Nat}
    (hlen : l.length < fuel) {x y : ν} (hx : x ∈ l) (hy : y ∈ l) :
    rbNodeNext fuel t x h = some (some y) ↔
      rbNodePrev fuel t y h = some (some x) := by
  constructor
  · intro hnext
    obtain ⟨l₁, l₂, rfl⟩ := List.append_of_mem hx
    rw [(hh.next_prev hlen).1] at hnext
    obtain ⟨l₃, rfl⟩ := List.head?_eq_some_iff.mp (Option.some.inj hnext)
    rw [List.append_cons] at hh hlen
    rw [(hh.next_prev hlen).2, List.getLast?_concat]
  · intro hprev
    obtain ⟨l₁, l₂, rfl⟩ := List.append_of_mem hy
    rw [(hh.next_prev hlen).2] at hprev
    obtain ⟨l₃, rfl⟩ := List.getLast?_eq_some_iff.mp (Option.some.inj hprev)
    rw [← List.append_cons] at hh hlen
    rw [(hh.next_prev hlen).1, List.head?_cons]

/-- **NEXT AND PREVIOUS**: with fuel above the number of nodes, the two calls
    answer the neighbours in order and `NULL` at the ends, so they are inverse;
    and from the first node on `rb_node_next` visits every node, once, in
    order. -/
theorem rb_node_next_prev {compare : ν → ν → Int} {tree nil root : Option ν}
    {h₀ h : Heap ν} {freed : List ν} {w : World ν}
    (hcreate : rbTreeCreate compare tree nil root h₀ = (some t, h, freed))
    (hne : t.nil ≠ t.root)
    (hrun : Relation.ReflTransGen (Step t) ⟨h, []⟩ w) :
    ∃ l, InOrder t w.heap (w.heap t.root).left l ∧ l.Perm w.nodes ∧ l.Nodup ∧
      (TotalPreorder compare → Sorted compare l) ∧
      ∀ fuel, w.nodes.length < fuel →
        (∀ l₁ x l₂, l = l₁ ++ x :: l₂ →
          rbNodeNext fuel t x w.heap = some l₂.head? ∧
          rbNodePrev fuel t x w.heap = some l₁.getLast?) ∧
        (∀ x y, x ∈ w.nodes → y ∈ w.nodes →
          (rbNodeNext fuel t x w.heap = some (some y) ↔
            rbNodePrev fuel t y w.heap = some (some x))) ∧
        ∃ first, firstNode fuel t w.heap = some first ∧
          visit fuel t w.heap fuel first = some l := by
  obtain ⟨rfl, -⟩ := rbTreeCreate_eq_some hcreate
  obtain ⟨l, hh, hperm, hsort⟩ := inv_run (inv_create hcreate hne) hrun
  refine ⟨l, hh.inOrder, hperm, ?_, hsort, fun fuel hfuel => ?_⟩
  · exact (List.nodup_cons.mp (List.nodup_cons.mp hh.nodup).2).2
  · rw [← hperm.length_eq] at hfuel
    refine ⟨?_, fun x y hx hy => ?_, l.head?, hh.first_node hfuel, ?_⟩
    · rintro l₁ x l₂ rfl
      exact hh.next_prev hfuel
    · exact hh.next_iff_prev hfuel (hperm.mem_iff.mpr hx) (hperm.mem_iff.mpr hy)
    · exact (show Holds t w.heap ([] ++ l) from hh).visit_rest hfuel hfuel

theorem rb_node_next_prev_demo :
    ∃ l, l.Perm demoWorld.nodes ∧ ∃ first,
      firstNode 3 demoTree demoWorld.heap = some first ∧
      visit 3 demoTree demoWorld.heap 3 first = some l := by
  obtain ⟨l, -, hperm, -, -, hall⟩ :=
    rb_node_next_prev demo_create (by decide) demo_run
  obtain ⟨-, -, first, hfirst, hvisit⟩ := hall 3 (by decide)
  exact ⟨l, hperm, first, hfirst, hvisit⟩

end SharixRbTree
