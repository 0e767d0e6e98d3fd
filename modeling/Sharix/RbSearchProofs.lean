import Sharix.RbRunProofs

/-! # `rb_search`

    The keys of a tree say of each node whether it is below, equal to or above
    a key, in this order from left to right.  The equal nodes are then next to
    each other, and the way down meets the highest of them first: a node that
    is above has no equal node on its right, and one that is below none on its
    left. -/

namespace SharixRbTree

open SharixRedBlack
open SharixRun

variable {ν κ : Type} {t : RbTree ν} {h : Heap ν}

/-! ## The model -/

section Model
variable [DecidableEq ν]

/-- `while (node != nil && (r = compare(node, key)) != 0)`. -/
def searchLoop (t : RbTree ν) (compare : ν → κ → Int) (key : κ) (h : Heap ν) :
    Nat → ν → Option ν
  | 0, _ => none
  | fuel + 1, node =>
      if node ≠ t.nil ∧ compare node key ≠ 0 then
        searchLoop t compare key h fuel
          (if 0 < compare node key then (h node).left else (h node).right)
      else some node

/-- The outer `none` is a loop that does not end, the inner one is `NULL`. -/
def rbSearch (fuel : Nat) (t : RbTree ν) (compare : ν → κ → Int) (key : κ)
    (h : Heap ν) : Option (Option ν) :=
  (searchLoop t compare key h fuel (h t.root).left).map fun node =>
    if node ≠ t.nil then some node else none

end Model

/-! ## Ancestors -/

open SharixRedBlack.CTree

/-- `x` is `v` or an ancestor of `v`: the links to children lead from `x` to
    `v`. -/
def Below (t : RbTree ν) (h : Heap ν) : ν → ν → Prop :=
  Relation.ReflTransGen fun x v => x ≠ t.nil ∧ ∃ d, (h x).child d = v

/-- The top of a tree is an ancestor of its nodes. -/
theorem Focus.below {T : CTree ν} : ∀ {fs : List (Frame ν)} {v : ν},
    Focus t h T fs → v ∈ T.toList → Below t h (top t.nil T) v := by
  induction T with
  | leaf => exact fun _ hv => absurd hv List.not_mem_nil
  | node c l x r ihl ihr =>
      intro fs v hf hv
      have hrec : h x = _ := hf.rep.1
      have hx : x ≠ t.nil := (hf.top_apart (by simp)).1
      have hleft := focus_down (d := .left).mp hf
      have hright := focus_down (d := .right).mp hf
      rcases List.mem_append.mp hv with hv | hv
      · exact .head ⟨hx, .left, by rw [top, hrec]; rfl⟩ (ihl hleft hv)
      · rcases List.mem_cons.mp hv with rfl | hv
        · exact .refl
        · exact .head ⟨hx, .right, by rw [top, hrec]; rfl⟩ (ihr hright hv)

/-- A node of a tree, with what is below it and around it. -/
theorem Focus.at_node {T : CTree ν} {fs : List (Frame ν)} (hf : Focus t h T fs)
    {x : ν} (hx : x ∈ T.toList) :
    ∃ c l r gs, Focus t h (CTree.node c l x r) (gs ++ fs) ∧
      ∀ v ∈ (CTree.node c l x r).toList, v ∈ T.toList := by
  obtain ⟨c, l, r, gs, rfl⟩ := exists_plug hx
  refine ⟨c, l, r, gs, (focus_plug gs).mp hf, fun v hv => ?_⟩
  exact (plug_perm gs _).mem_iff.mpr (List.mem_append_left _ hv)

/-- The links lead to nodes of the tree, or to `nil`. -/
theorem Focus.mem_of_below {T : CTree ν} {fs : List (Frame ν)} {v : ν}
    (hf : Focus t h T fs) (hb : Below t h (top t.nil T) v) :
    v = t.nil ∨ v ∈ T.toList := by
  have htop : ∀ {T' : CTree ν}, (∀ u ∈ T'.toList, u ∈ T.toList) →
      top t.nil T' = t.nil ∨ top t.nil T' ∈ T.toList := by
    intro T' hsub
    by_cases hT : T' = leaf
    · exact .inl (by rw [hT, top_leaf])
    · exact .inr (hsub _ (top_mem hT))
  induction hb with
  | refl => exact htop fun _ hu => hu
  | @tail x v _ hstep ih =>
      obtain ⟨hx, d, rfl⟩ := hstep
      obtain ⟨c, l, r, gs, hfx, hsub⟩ := hf.at_node (ih.resolve_left hx)
      rw [hfx.rep.1]
      cases d with
      | left => exact htop fun u hu => hsub u (List.mem_append_left _ hu)
      | right =>
          exact htop fun u hu => hsub u
            (List.mem_append_right _ (List.mem_cons_of_mem _ hu))

/-- Two nodes that are ancestors of each other are the same. -/
theorem Focus.below_antisymm {T : CTree ν} {fs : List (Frame ν)} {x y : ν}
    (hf : Focus t h T fs) (hx : x ∈ T.toList) (hy : y ∈ T.toList)
    (hxy : Below t h x y) (hyx : Below t h y x) : x = y := by
  obtain ⟨c, l, r, gs, hfx, -⟩ := hf.at_node hx
  obtain ⟨hxnil, hxl, hxr, -⟩ := hfx.apart (d := .left)
  have hynil : y ≠ t.nil := by
    rintro rfl
    exact (List.nodup_cons.mp hf.nodup).1
      (List.mem_cons_of_mem _ (List.mem_append_left _ hy))
  -- a proper part that has `y` would have `x` as well
  have hpart : ∀ {T' : CTree ν} {fs' : List (Frame ν)}, Focus t h T' fs' →
      y ∈ T'.toList → x ∈ T'.toList := by
    intro T' fs' hf' hy'
    obtain ⟨c', l', r', gs', hfy, hsub⟩ := hf'.at_node hy'
    exact hsub x ((hfy.mem_of_below hyx).resolve_left hxnil)
  rcases List.mem_append.mp ((hfx.mem_of_below hxy).resolve_left hynil) with hl | hr
  · exact absurd (hpart (focus_down (d := .left).mp hfx) hl) hxl
  · rcases List.mem_cons.mp hr with he | hr
    · exact he.symm
    · exact absurd (hpart (focus_down (d := .right).mp hfx) hr) hxr

/-! ## The search -/

/-- The nodes of `l` are below, equal to and above `key`, in this order. -/
def Monotone (compare : ν → κ → Int) (key : κ) (l : List ν) : Prop :=
  l.Pairwise fun a b => (compare a key).sign ≤ (compare b key).sign

/-- Only the signs of the comparison matter, so it may as well rise itself. -/
theorem monotone_of_le {compare : ν → κ → Int} {key : κ} {l : List ν}
    (h : l.Pairwise fun a b => compare a key ≤ compare b key) :
    Monotone compare key l := by
  refine h.imp fun {a b} hab => ?_
  rcases Int.lt_trichotomy (compare a key) 0 with hlt | heq | hgt
  · rw [Int.sign_eq_neg_one_of_neg hlt]
    rcases Int.sign_trichotomy (compare b key) with hb | hb | hb <;> omega
  · rw [heq, Int.sign_zero, Int.sign_nonneg_iff, ← heq]
    exact hab
  · rw [Int.sign_eq_one_of_pos hgt, Int.sign_eq_one_of_pos (Int.lt_of_lt_of_le hgt hab)]

/-- A node equal to `key` that is an ancestor of all the others. -/
def Highest (t : RbTree ν) (h : Heap ν) (compare : ν → κ → Int) (key : κ)
    (nodes : List ν) (x : ν) : Prop :=
  x ∈ nodes ∧ compare x key = 0 ∧
    ∀ v ∈ nodes, compare v key = 0 → Below t h x v

variable [DecidableEq ν]

/-- The loop ends at `nil` if no node of the tree is equal to `key`, and at the
    highest one that is. -/
theorem searchLoop_spec {compare : ν → κ → Int} {key : κ} {T : CTree ν} :
    ∀ {fs : List (Frame ν)} {fuel : Nat}, Focus t h T fs →
      Monotone compare key T.toList → T.toList.length < fuel →
      ∃ node, searchLoop t compare key h fuel (top t.nil T) = some node ∧
        ((node = t.nil ∧ ∀ v ∈ T.toList, compare v key ≠ 0) ∨
          (node ≠ t.nil ∧ Highest t h compare key T.toList node)) := by
  induction T with
  | leaf =>
      intro fs fuel hf _ hfuel
      obtain ⟨fuel, rfl⟩ := Nat.exists_eq_succ_of_ne_zero (Nat.ne_of_gt hfuel)
      exact ⟨t.nil, if_neg fun hne => hne.1 rfl, .inl ⟨rfl,
        fun v hv => absurd hv List.not_mem_nil⟩⟩
  | node c l x r ihl ihr =>
      intro fs fuel hf hmono hfuel
      obtain ⟨fuel, rfl⟩ := Nat.exists_eq_succ_of_ne_zero (Nat.ne_of_gt
        (Nat.lt_of_le_of_lt (Nat.zero_le _) hfuel))
      have hrec : h x = _ := hf.rep.1
      have hx : x ≠ t.nil := (hf.top_apart (by simp)).1
      have hmem : x ∈ (node c l x r).toList :=
        List.mem_append_right _ List.mem_cons_self
      rw [toList, List.length_append, List.length_cons] at hfuel
      obtain ⟨hl, hr, hlr⟩ := List.pairwise_append.mp hmono
      obtain ⟨hxr, hr⟩ := List.pairwise_cons.mp hr
      rcases Int.lt_trichotomy (compare x key) 0 with hlt | heq | hgt
      · -- `x` is below: so is all on its left
        obtain ⟨node, hrun, hres⟩ := ihr (focus_down (d := .right).mp hf) hr
          (show r.toList.length < fuel by omega)
        have hout : ∀ v ∈ (CTree.node c l x r).toList, compare v key = 0 →
            v ∈ r.toList := by
          intro v hv hz
          rcases List.mem_append.mp hv with hv | hv
          · have hle := hlr v hv x List.mem_cons_self
            rw [hz, Int.sign_zero, Int.sign_eq_neg_one_of_neg hlt] at hle
            omega
          · rcases List.mem_cons.mp hv with rfl | hv
            · omega
            · exact hv
        refine ⟨node, ?_, ?_⟩
        · rw [top, searchLoop, if_pos ⟨hx, by omega⟩, if_neg (by omega), hrec]
          exact hrun
        · rcases hres with ⟨hnil, hno⟩ | ⟨hne, hin, hz, habove⟩
          · exact .inl ⟨hnil, fun v hv hz => hno v (hout v hv hz) hz⟩
          · refine .inr ⟨hne, ?_, hz, fun v hv hz => habove v (hout v hv hz) hz⟩
            exact List.mem_append_right _ (List.mem_cons_of_mem _ hin)
      · refine ⟨x, if_neg fun hne => hne.2 heq, .inr ⟨hx, hmem, heq, ?_⟩⟩
        exact fun v hv _ => hf.below hv
      · -- `x` is above: so is all on its right
        obtain ⟨node, hrun, hres⟩ := ihl (focus_down (d := .left).mp hf) hl
          (show l.toList.length < fuel by omega)
        have hout : ∀ v ∈ (CTree.node c l x r).toList, compare v key = 0 →
            v ∈ l.toList := by
          intro v hv hz
          rcases List.mem_append.mp hv with hv | hv
          · exact hv
          · rcases List.mem_cons.mp hv with rfl | hv
            · omega
            · have hle := hxr v hv
              rw [hz, Int.sign_zero, Int.sign_eq_one_of_pos hgt] at hle
              omega
        refine ⟨node, ?_, ?_⟩
        · rw [top, searchLoop, if_pos ⟨hx, by omega⟩, if_pos hgt, hrec]
          exact hrun
        · rcases hres with ⟨hnil, hno⟩ | ⟨hne, hin, hz, habove⟩
          · exact .inl ⟨hnil, fun v hv hz => hno v (hout v hv hz) hz⟩
          · exact .inr ⟨hne, List.mem_append_left _ hin, hz,
              fun v hv hz => habove v (hout v hv hz) hz⟩

/-- **THE HIGHEST EQUAL NODE**: `rb_search` returns; it answers `NULL` exactly
    if no node is equal to the key, and else the only node equal to it that is
    an ancestor of all the others. -/
theorem rb_search_highest {compare : ν → ν → Int} {tree nil root : Option ν}
    {h₀ h : Heap ν} {freed : List ν} {w : World ν}
    (hcreate : rbTreeCreate compare tree nil root h₀ = (some t, h, freed))
    (hne : t.nil ≠ t.root)
    (hrun : Relation.ReflTransGen (Step t) ⟨h, []⟩ w)
    (keyCompare : ν → κ → Int) (key : κ)
    (hmono : ∀ l, InOrder t w.heap (w.heap t.root).left l →
      Monotone keyCompare key l) :
    ∃ r, (∀ fuel, w.nodes.length < fuel →
        rbSearch fuel t keyCompare key w.heap = some r) ∧
      (r = none ↔ ∀ v ∈ w.nodes, keyCompare v key ≠ 0) ∧
      ∀ x, r = some x ↔ Highest t w.heap keyCompare key w.nodes x := by
  obtain ⟨l, hh, hperm, -⟩ := inv_run (inv_create hcreate hne) hrun
  have hmono := hmono l hh.inOrder
  obtain ⟨T, k, hf, -, -, rfl⟩ := hh
  have hmem : ∀ {v}, v ∈ w.nodes ↔ v ∈ T.toList := hperm.mem_iff.symm
  have hhigh : ∀ {x}, Highest t w.heap keyCompare key w.nodes x ↔
      Highest t w.heap keyCompare key T.toList x := by
    intro x
    simp only [Highest, hmem]
  have hcall : ∀ fuel, w.nodes.length < fuel → ∃ node,
      rbSearch fuel t keyCompare key w.heap
        = some (if node ≠ t.nil then some node else none) ∧
      ((node = t.nil ∧ ∀ v ∈ T.toList, keyCompare v key ≠ 0) ∨
        (node ≠ t.nil ∧ Highest t w.heap keyCompare key T.toList node)) := by
    intro fuel hfuel
    obtain ⟨node, hrun, hres⟩ := searchLoop_spec hf hmono
      (hperm.length_eq ▸ hfuel)
    exact ⟨node, by rw [rbSearch, hf.root_left, hrun]; rfl, hres⟩
  by_cases hno : ∀ v ∈ T.toList, keyCompare v key ≠ 0
  · refine ⟨none, fun fuel hfuel => ?_, iff_of_true rfl fun v hv => hno v (hmem.mp hv),
      fun x => iff_of_false (fun he => by cases he) fun hx => ?_⟩
    · obtain ⟨node, hcall, ⟨rfl, -⟩ | ⟨-, hx⟩⟩ := hcall fuel hfuel
      · rw [hcall, if_neg (not_not_intro rfl)]
      · exact absurd hx.2.1 (hno node hx.1)
    · exact hno x (hmem.mp hx.1) hx.2.1
  · obtain ⟨x, -, ⟨-, hnone⟩ | ⟨hxnil, hx⟩⟩ := hcall _ (Nat.lt_succ_self _)
    · exact absurd hnone hno
    · -- there is one such node only
      have honly : ∀ {y}, Highest t w.heap keyCompare key T.toList y → x = y :=
        fun hy => hf.below_antisymm hx.1 hy.1 (hx.2.2 _ hy.1 hy.2.1)
          (hy.2.2 _ hx.1 hx.2.1)
      refine ⟨some x, fun fuel hfuel => ?_, iff_of_false (fun he => by cases he)
        fun h => hno fun v hv => h v (hmem.mpr hv), fun y => ?_⟩
      · obtain ⟨node, hcall, ⟨-, hnone⟩ | ⟨hnil, hnode⟩⟩ := hcall fuel hfuel
        · exact absurd hnone hno
        · rw [hcall, if_pos hnil, honly hnode]
      · rw [hhigh]
        constructor
        · rintro ⟨⟩
          exact hx
        · exact fun hy => congrArg some (honly hy)

/-- The nodes 3 and 4 of the tree above, searched for 3. -/
theorem rb_search_highest_demo :
    ∃ r, rbSearch 3 demoTree (fun n (k : Nat) => (n : Int) - k) 3 demoWorld.heap
        = some r ∧ r ≠ none := by
  have hpre : TotalPreorder demoTree.compare :=
    ⟨fun a b => by simp only [demoTree]; omega,
      fun a b c => by simp only [demoTree]; omega⟩
  obtain ⟨l, hh, -, hsort⟩ := inv_run (inv_create demo_create (by decide)) demo_run
  obtain ⟨r, hrun, hnone, -⟩ := rb_search_highest demo_create (by decide) demo_run
    (fun n (k : Nat) => (n : Int) - k) 3 fun l' hl' => by
      obtain rfl := hh.inOrder.unique hl'
      refine monotone_of_le ((hsort hpre).imp fun {a b} hab => ?_)
      simp only [demoTree] at hab
      omega
  exact ⟨r, hrun 3 (by decide), fun h => hnone.mp h 3 (by decide) (by decide)⟩

end SharixRbTree
