import Sharix.RbHeapProofs

/-! # `rb_delete`

    A node with an empty side is taken out; if both sides have nodes that is
    the successor, which then takes the place of the node to delete.  If the
    node taken out was black, the tree in its hole has one black node too few
    on every way down.  `RB_DELETE_FIXUP_SUB` moves such a hole one frame up,
    or ends.  The tree in the hole may be empty: then the parent is read from
    `nil`. -/

namespace SharixRbTree

open SharixRedBlack
open SharixRedBlack.CTree

variable {ν : Type} [DecidableEq ν] {t : RbTree ν} {h : Heap ν}

/-! ## `RB_DELETE_FIXUP_SUB` -/

/-- A red sibling: it goes above the parent, and a child of it is the new
    sibling. -/
theorem deleteRedSibling_red {T a b : CTree ν} {d : Dir} {c : Bool} {p w : ν}
    {fs : List (Frame ν)}
    (hf : Focus t h T (⟨d, c, p, mk d true a w b⟩ :: fs))
    (hp : (h (top t.nil T)).parent = p) :
    Focus t (deleteRedSibling t d (top t.nil T) h) T
        (⟨d, true, p, a⟩ :: ⟨d, false, w, b⟩ :: fs) ∧
      (deleteRedSibling t d (top t.nil T) h (top t.nil T)).parent = p := by
  have hframe := hf.frame
  have hred := hf.red_sib
  have hw := (focus_over.mp hf).apart.1
  have hf₁ := setRed_sib hf (mk_ne_leaf _ _ _ _ _) false
  simp only [top_mk, isRed_mk, paint_mk] at hframe hred hf₁
  have hf₂ := setRed_frame hf₁ true
  have hpn : p ≠ t.nil := (focus_down.mpr hf).apart.1
  obtain ⟨hrot, hnil⟩ := rotate_focus (focus_down.mpr hf₂)
  have heq : deleteRedSibling t d (top t.nil T) h =
      rotate t d p ((h.setRed w false).setRed p true) := by
    simp only [deleteRedSibling, hp, hframe, of_child_flip, hred, if_true,
      setRed_parent]
  have hlast := focus_down.mp (focus_down.mp hrot)
  rw [heq]
  refine ⟨hlast, parent_kept hlast ?_ hp⟩
  rw [hnil, setRed_nil hpn, setRed_nil hw]

theorem deleteRedSibling_black {T s : CTree ν} {d : Dir} {c : Bool} {p : ν}
    {fs : List (Frame ν)} (hf : Focus t h T (⟨d, c, p, s⟩ :: fs))
    (hp : (h (top t.nil T)).parent = p) (hs : s.isRed = false) :
    deleteRedSibling t d (top t.nil T) h = h := by
  have hframe := hf.frame
  have hred := hf.red_sib
  simp only [hs] at hframe hred
  simp only [deleteRedSibling, hp, hframe, of_child_flip, hred,
    Bool.false_eq_true, if_false]

/-- A black sibling with a red child gets one on the outer side. -/
theorem deleteOuter_focus {T a b : CTree ν} {d : Dir} {c : Bool} {p w : ν}
    {fs : List (Frame ν)} {k : Nat}
    (hf : Focus t h T (⟨d, c, p, mk d false a w b⟩ :: fs))
    (ha : Balanced a k) (hb : Balanced b k)
    (hred : a.isRed = true ∨ b.isRed = true) :
    ∃ a' v b' h', deleteOuter t d w h = h' ∧
      Focus t h' T (⟨d, c, p, mk d false a' v b'⟩ :: fs) ∧
      Balanced a' k ∧ Balanced b' k ∧ b'.isRed = true ∧
      (mk d false a' v b').toList = (mk d false a w b).toList ∧
      h' t.nil = h t.nil := by
  have hsib := focus_over.mp hf
  have hw := hsib.node
  have hbr := (focus_down.mp hsib).red_sib
  simp only at hbr
  cases hbc : b.isRed with
  | true =>
      refine ⟨a, w, b, h, ?_, hf, ha, hb, hbc, rfl, rfl⟩
      simp only [deleteOuter, hw, of_child_flip, hbr, hbc, if_true]
  | false =>
      have har : a.isRed = true := by
        rcases hred with h1 | h1
        · exact h1
        · rw [hbc] at h1
          cases h1
      obtain ⟨a₁, v, a₂, rfl⟩ : ∃ a₁ v a₂, a = mk d true a₁ v a₂ := by
        obtain ⟨a₁, v, a₂, heq⟩ := exists_mk d (ne_leaf_of_isRed har)
        exact ⟨a₁, v, a₂, har ▸ heq⟩
      obtain ⟨⟨-, hb₁⟩, hr₂, hb₂⟩ := balanced_mk_red.mp ha
      have hv := (focus_down.mp hsib).apart.1
      have hwn := hsib.apart.1
      have hf₁ := focus_down.mpr (setRed_focus (focus_down.mp hsib) false)
      have hf₂ := setRed_focus hf₁ true
      have hmirror : Focus t ((h.setRed v false).setRed w true)
          (mk d.flip true b w (mk d.flip false a₂ v a₁))
          (⟨d.flip, c, p, T⟩ :: fs) := by
        rw [mk_flip, mk_flip]
        exact hf₂
      obtain ⟨hlast, hnil⟩ := rotate_focus hmirror
      rw [mk_flip, mk_flip] at hlast
      refine ⟨a₁, v, mk d true a₂ w b, _, ?_, focus_over.mpr hlast, hb₁,
        balanced_mk_red.mpr ⟨⟨hr₂, hb₂⟩, hbc, hb⟩, isRed_mk .., ?_, ?_⟩
      · simp only [deleteOuter, hw, of_child_flip, of_child, hbr, hbc, top_mk,
          Bool.false_eq_true, if_false]
      · exact (toList_rotate d true false false true a₁ a₂ b v w).symm
      · rw [hnil, setRed_nil hwn, setRed_nil hv]

/-- The last rotation, with a red node on the outer side. -/
theorem deleteRaise_focus {T a b : CTree ν} {d : Dir} {c : Bool} {p w : ν}
    {fs : List (Frame ν)}
    (hf : Focus t h T (⟨d, c, p, mk d false a w b⟩ :: fs))
    (hp : (h (top t.nil T)).parent = p) (hb : b.isRed = true) :
    Focus t (deleteRaise t d (top t.nil T) w h)
      (mk d c (mk d false T p a) w (b.paint false)) fs := by
  have hred := (focus_down.mpr hf).red_top
  have hwr := (focus_over.mp hf).node
  simp only [top_mk, isRed_mk] at hred
  have hf₁ := setRed_sib hf (mk_ne_leaf _ _ _ _ _) c
  simp only [top_mk, paint_mk] at hf₁
  have hf₂ := focus_over.mp (setRed_frame hf₁ false)
  have hf₃ := focus_down.mpr
    (setRed_sib (focus_down.mp hf₂) (ne_leaf_of_isRed hb) false)
  have hlast := (rotate_focus (focus_down.mpr (focus_over.mpr hf₃))).1
  have heq : deleteRaise t d (top t.nil T) w h = rotate t d p
      (((h.setRed w c).setRed p false).setRed (top t.nil b) false) := by
    simp only [deleteRaise, setRed_parent, setRed_child, hp, hred, hwr,
      of_child_flip]
  rw [heq]
  exact hlast

/-- Two black children: the sibling becomes red, `x` goes up. -/
theorem deleteBlackSibling_black {T a b : CTree ν} {d : Dir} {c : Bool}
    {p w : ν} {fs : List (Frame ν)} (root : ν)
    (hf : Focus t h T (⟨d, c, p, mk d false a w b⟩ :: fs))
    (hp : (h (top t.nil T)).parent = p) (ha : a.isRed = false)
    (hb : b.isRed = false) :
    ∃ h', deleteBlackSibling t d root (top t.nil T) h = (p, h') ∧
      Focus t h' (mk d c T p (mk d true a w b)) fs := by
  have hframe := hf.frame
  have hsib := focus_over.mp hf
  have hw := hsib.node
  have har := (focus_down.mp hsib).red_top
  have hbr := (focus_down.mp hsib).red_sib
  have hf₁ := setRed_sib hf (mk_ne_leaf _ _ _ _ _) true
  simp only [top_mk, paint_mk] at hframe hf₁ hbr
  refine ⟨_, ?_, focus_down.mpr hf₁⟩
  simp only [deleteBlackSibling, hp, hframe, of_child_flip, of_child, hw, har,
    hbr, ha, hb]
  rfl

/-- A red child: the rotations bring the missing black node. -/
theorem deleteBlackSibling_red {T a b : CTree ν} {d : Dir} {c : Bool}
    {p w : ν} {fs : List (Frame ν)} {k : Nat} (root : ν)
    (hf : Focus t h T (⟨d, c, p, mk d false a w b⟩ :: fs))
    (hp : (h (top t.nil T)).parent = p)
    (ha : Balanced a k) (hb : Balanced b k)
    (hred : a.isRed = true ∨ b.isRed = true) :
    ∃ a' v b' h', deleteBlackSibling t d root (top t.nil T) h = (root, h') ∧
      Focus t h' (mk d c (mk d false T p a') v b') fs ∧
      Balanced a' k ∧ Balanced b' (k + 1) ∧ b'.isRed = false ∧
      (mk d c (mk d false T p a') v b').toList
        = (mk d c T p (mk d false a w b)).toList := by
  have hframe := hf.frame
  have hsib := focus_over.mp hf
  have hw := hsib.node
  have har := (focus_down.mp hsib).red_top
  have hbr := (focus_down.mp hsib).red_sib
  obtain ⟨a', v, b', h', hout, hf', ha', hb', hbr', hlist, hnil⟩ :=
    deleteOuter_focus hf ha hb hred
  have hp' := parent_kept hf' hnil hp
  have hframe' := hf'.frame
  have hraise := deleteRaise_focus hf' hp' hbr'
  simp only [top_mk] at hframe hframe' hbr hp'
  have hguard : (!a.isRed && !b.isRed) = false := by
    rcases hred with h1 | h1 <;> simp [h1]
  refine ⟨a', v, b'.paint false, _, ?_, hraise, ha', hb'.paint_red hbr',
    isRed_paint_false b', ?_⟩
  · simp only [deleteBlackSibling, hp, hframe, of_child_flip, of_child, hw, har,
      hbr, hguard, hout, hp', hframe', Bool.false_eq_true, if_false]
  · calc (mk d c (mk d false T p a') v (b'.paint false)).toList
        = (mk d c T p (mk d false a' v (b'.paint false))).toList :=
          toList_rotate d false c c false T a' _ p v
      _ = (mk d c T p (mk d false a w b)).toList :=
          toList_mk_congr d c c p rfl ((toList_mk_congr d false false v rfl
            (toList_paint false b')).trans hlist)

/-! ## The loop of `rb_delete_fixup` -/

/-- What one round of the loop reaches: `x` at a hole that is still one black
    node short, or `x` at `root` and a balanced tree. -/
def RoundEnd (t : RbTree ν) (root : ν) (fs : List (Frame ν)) (l : List ν)
    (x : ν) (h : Heap ν) : Prop :=
  (∃ T gs k, x = top t.nil T ∧ Focus t h T gs ∧ T ≠ leaf ∧
    Balanced (T.paint false) k ∧ (plug T gs).toList = l ∧
    (T.isRed = true ∧ Ctx gs k ∨
      T.isRed = false ∧ Ctx gs (k + 1) ∧ gs = fs ∧
        top t.nil (plug T gs) = root)) ∨
  (x = root ∧ (h root).red = false ∧ Holds t h l)

/-- The round once the sibling is black. -/
theorem deleteBlackSibling_step {T s : CTree ν} {d : Dir} {c : Bool}
    {p : ν} {fs : List (Frame ν)} {k : Nat} (root : ν) (gs : List (Frame ν))
    (hf : Focus t h T (⟨d, c, p, s⟩ :: fs))
    (hp : (h (top t.nil T)).parent = p)
    (hb : Balanced T k) (hc : Ctx (⟨d, c, p, s⟩ :: fs) (k + 1))
    (hs : s.isRed = false)
    (hgs : c = false → fs = gs ∧ top t.nil (plug (mk d c T p s) fs) = root)
    (hroot : root = p ∨ (fs ≠ [] ∧ ∀ U, top t.nil (plug U fs) = root)) :
    ∃ x' h', deleteBlackSibling t d root (top t.nil T) h = (x', h') ∧
      RoundEnd t root gs (plug T (⟨d, c, p, s⟩ :: fs)).toList x' h' := by
  obtain ⟨hbs, hup⟩ : Balanced s (k + 1) ∧
      (c = true ∧ headRed fs = false ∧ fs ≠ [] ∧ Ctx fs (k + 1) ∨
        c = false ∧ Ctx fs (k + 2)) := by
    cases hc with
    | red _ h2 h3 h4 h5 => exact ⟨h2, .inl ⟨rfl, h3, h4, h5⟩⟩
    | black h1 h2 => exact ⟨h1, .inr ⟨rfl, h2⟩⟩
  obtain ⟨a, w, b, rfl⟩ : ∃ a w b, s = mk d false a w b := by
    obtain ⟨a, w, b, heq⟩ := exists_mk d (balanced_pos hbs)
    exact ⟨a, w, b, hs ▸ heq⟩
  obtain ⟨k', hk, ha, hbb⟩ := balanced_mk_black.mp hbs
  obtain rfl : k = k' := by omega
  by_cases hred : a.isRed = true ∨ b.isRed = true
  · -- a red nephew: the rotation fills the hole, and the loop ends
    obtain ⟨a', v, b', h', hsub, hf', ha', hb', hbr', hlist⟩ :=
      deleteBlackSibling_red root hf hp ha hbb hred
    have hin : Balanced (mk d false T p a') (k + 1) :=
      balanced_mk_black.mpr ⟨k, rfl, hb, ha'⟩
    obtain ⟨n, hU, hcn, hhead, hne⟩ : ∃ n,
        Balanced (mk d c (mk d false T p a') v b') n ∧ Ctx fs n ∧
        (headRed fs = true →
          (mk d c (mk d false T p a') v b').isRed = false) ∧
        (fs = [] → c = false) := by
      rcases hup with ⟨rfl, h1, h2, h3⟩ | ⟨rfl, h1⟩
      · refine ⟨k + 1, balanced_mk_red.mpr ⟨⟨isRed_mk .., hin⟩, hbr', hb'⟩, h3,
          ?_, fun h => absurd h h2⟩
        rw [h1]
        exact fun h => by cases h
      · exact ⟨k + 2, balanced_mk_black.mpr ⟨k + 1, rfl, hin, hb'⟩, h1,
          fun _ => isRed_mk .., fun _ => rfl⟩
    obtain ⟨m, hm, htop⟩ := fill hcn hU hhead
    have hwhole : Focus t h' (plug (mk d c (mk d false T p a') v b') fs) [] := by
      rw [focus_plug, List.append_nil]
      exact hf'
    have hlist' : (plug (mk d c (mk d false T p a') v b') fs).toList =
        (plug T (⟨d, c, p, mk d false a w b⟩ :: fs)).toList :=
      toList_plug_congr fs hlist
    refine ⟨root, h', hsub, .inr ⟨rfl, ?_, _, m, hwhole, hm, ?_, hlist'⟩⟩
    · rcases hroot with rfl | ⟨hnil, htopR⟩
      · have hr := (focus_down.mp hf').red_top
        rw [top_mk, isRed_mk] at hr
        exact hr
      · have hr := hwhole.red_top
        rw [htopR, htop hnil] at hr
        exact hr
    · by_cases hnil : fs = []
      · subst hnil
        rw [hne rfl]
        exact isRed_mk ..
      · exact htop hnil
  · -- the sibling is painted red, and the hole moves up
    rw [not_or, Bool.not_eq_true, Bool.not_eq_true] at hred
    obtain ⟨h', hsub, hf'⟩ :=
      deleteBlackSibling_black root hf hp hred.1 hred.2
    refine ⟨p, h', hsub, .inl ⟨_, fs, k + 1, (top_mk ..).symm, hf',
      mk_ne_leaf _ _ _ _ _, ?_, ?_, ?_⟩⟩
    · rw [paint_mk]
      exact balanced_mk_black.mpr ⟨k, rfl, hb,
        balanced_mk_red.mpr ⟨⟨hred.1, ha⟩, hred.2, hbb⟩⟩
    · exact toList_plug_congr fs (toList_mk_congr d c c p rfl
        (toList_mk_congr d true false w rfl rfl))
    · rw [isRed_mk]
      rcases hup with ⟨rfl, -, -, h3⟩ | ⟨rfl, h1⟩
      · exact .inl ⟨rfl, h3⟩
      · obtain ⟨hfs, htop⟩ := hgs rfl
        refine .inr ⟨rfl, h1, hfs, ?_⟩
        rw [← htop]
        exact top_plug_congr fs (by rw [top_mk, top_mk])

/-- **ONE ROUND**: `RB_DELETE_FIXUP_SUB` at a hole that is one black node
    short. -/
theorem deleteSub_step {T : CTree ν} {f : Frame ν} {root : ν}
    {fs : List (Frame ν)} {k : Nat} (hf : Focus t h T (f :: fs))
    (hp : (h (top t.nil T)).parent = f.x) (hb : Balanced T k)
    (hc : Ctx (f :: fs) (k + 1)) (hroot : top t.nil (plug T (f :: fs)) = root) :
    ∃ x' h', deleteSub t f.dir root (top t.nil T) h = (x', h') ∧
      RoundEnd t root fs (plug T (f :: fs)).toList x' h' := by
  rcases f with ⟨d, c, p, s⟩
  have hroot' : root = p ∨ (fs ≠ [] ∧ ∀ U, top t.nil (plug U fs) = root) := by
    cases fs with
    | nil =>
        left
        rw [← hroot, plug, plug, top_mk]
    | cons g gs =>
        refine .inr ⟨by simp, fun U => ?_⟩
        rw [← hroot]
        exact top_plug_cons t.nil g gs U _
  cases hs : s.isRed with
  | false =>
      rw [deleteSub, deleteRedSibling_black hf hp hs]
      exact deleteBlackSibling_step root fs hf hp hb hc hs (fun _ => ⟨rfl, hroot⟩)
        hroot'
  | true =>
      obtain ⟨hbs, hc', rfl⟩ : Balanced s (k + 1) ∧ Ctx fs (k + 2) ∧
          c = false := by
        cases hc with
        | red h1 _ _ _ _ =>
            rw [hs] at h1
            cases h1
        | black h1 h2 => exact ⟨h1, h2, rfl⟩
      obtain ⟨a, w, b, rfl⟩ : ∃ a w b, s = mk d true a w b := by
        obtain ⟨a, w, b, heq⟩ := exists_mk d (ne_leaf_of_isRed hs)
        exact ⟨a, w, b, hs ▸ heq⟩
      obtain ⟨⟨har, ha⟩, hbr, hbb⟩ := balanced_mk_red.mp hbs
      obtain ⟨hf', hp'⟩ := deleteRedSibling_red hf hp
      obtain ⟨x', h', hsub, hend⟩ := deleteBlackSibling_step root fs hf' hp'
        hb (.red har ha rfl (by simp) (.black hbb hc')) har (fun h => by cases h) (by
          rcases hroot' with rfl | ⟨hne, htop⟩
          · exact .inl rfl
          · exact .inr ⟨by simp, fun U => htop _⟩)
      have hlist : (plug T (⟨d, true, p, a⟩ :: ⟨d, false, w, b⟩ :: fs)).toList =
          (plug T (⟨d, false, p, mk d true a w b⟩ :: fs)).toList :=
        toList_plug_congr fs (toList_rotate d true false false true T a b p w)
      rw [hlist] at hend
      exact ⟨x', h', hsub, hend⟩

/-- Colouring the tree in a hole black, even if it is empty. -/
theorem setRed_black {T : CTree ν} {fs : List (Frame ν)}
    (hf : Focus t h T fs) :
    Focus t (h.setRed (top t.nil T) false) (T.paint false) fs := by
  by_cases hT : T = leaf
  · subst hT
    rw [top_leaf, setRed_same hf.nilBlack]
    exact hf
  · exact setRed_top hf hT false

/-- The end of the loop: the tree in the hole becomes black. -/
theorem holds_of_black {T : CTree ν} {fs : List (Frame ν)} {k : Nat}
    (hf : Focus t h T fs) (hb : Balanced (T.paint false) k) (hc : Ctx fs k) :
    Holds t (h.setRed (top t.nil T) false) (plug T fs).toList := by
  obtain ⟨m, hm, htop⟩ := fill hc hb fun _ => isRed_paint_false T
  refine ⟨plug (T.paint false) fs, m, ?_, hm, ?_,
    toList_plug_congr fs (toList_paint false T)⟩
  · rw [focus_plug, List.append_nil]
    exact setRed_black hf
  · cases fs with
    | nil => exact isRed_paint_false T
    | cons f fs => exact htop (by simp)

/-- **THE LOOP OF `rb_delete_fixup`** ends with a balanced tree. -/
theorem deleteFixupLoop_focus {root : ν} (fuel : Nat) :
    ∀ {T : CTree ν} {fs : List (Frame ν)} {k : Nat} {h : Heap ν},
      Focus t h T fs → (h (top t.nil T)).parent = up t.root fs →
      Balanced (T.paint false) k →
      (T.isRed = true ∧ Ctx fs k ∨
        T.isRed = false ∧ Ctx fs (k + 1) ∧ fs.length ≤ fuel ∧
          top t.nil (plug T fs) = root) →
      ∃ h', deleteFixupLoop t root (fuel + 1) (top t.nil T) h = some h' ∧
        Holds t h' (plug T fs).toList := by
  induction fuel with
  | zero =>
      intro T fs k h hf _ hb hcase
      have hend : ¬ (top t.nil T ≠ root ∧ (h (top t.nil T)).red = false) ∧
          Ctx fs k := by
        rcases hcase with ⟨hred, hc⟩ | ⟨_, _, hlen, htop⟩
        · exact ⟨by rw [hf.red_top, hred]; simp, hc⟩
        · obtain rfl := List.eq_nil_of_length_eq_zero (Nat.le_zero.mp hlen)
          exact ⟨fun h => h.1 htop, .nil⟩
      exact ⟨_, if_neg hend.1, holds_of_black hf hb hend.2⟩
  | succ fuel ih =>
      intro T fs k h hf hp hb hcase
      rcases hcase with ⟨hred, hc⟩ | ⟨hblack, hc, hlen, htop⟩
      · refine ⟨_, if_neg ?_, holds_of_black hf hb hc⟩
        rw [hf.red_top, hred]
        simp
      cases fs with
      | nil => exact ⟨_, if_neg fun h => h.1 htop, holds_of_black hf hb .nil⟩
      | cons f fs =>
          have hsib : f.sib ≠ leaf := by
            cases hc with
            | red _ h2 _ _ _ => exact balanced_pos h2
            | black h1 _ => exact balanced_pos h1
          have hbT : Balanced T k := by
            have hpaint := paint_isRed T
            rw [hblack] at hpaint
            rwa [hpaint] at hb
          have hne : top t.nil T ≠ root := by
            rintro heq
            apply hf.top_not_mem
            rw [heq, ← htop]
            exact top_plug_mem t.nil f fs T
          have hround : deleteFixupLoop t root (fuel + 2) (top t.nil T) h =
              deleteFixupLoop t root (fuel + 1)
                (deleteSub t f.dir root (top t.nil T) h).1
                (deleteSub t f.dir root (top t.nil T) h).2 := by
            have hred := hf.red_top
            have hdir := hf.dir_eq (.inr hsib)
            rw [hblack] at hred
            simp only [up] at hp
            rw [deleteFixupLoop, if_pos ⟨hne, hred⟩]
            simp only [hp, hdir]
          obtain ⟨x', h', hsub, hend⟩ := deleteSub_step hf hp hbT hc htop
          rw [hround, hsub]
          rcases hend with ⟨X, gs, k', rfl, hf', hX, hb', hlist, hcase'⟩ |
            ⟨rfl, hred', hholds⟩
          · rw [← hlist]
            refine ih hf' (hf'.parent_top hX) hb' ?_
            rcases hcase' with hcase' | ⟨h1, h2, rfl, h4⟩
            · exact .inl hcase'
            · exact .inr ⟨h1, h2, Nat.le_of_succ_le_succ hlen, h4⟩
          · refine ⟨h', ?_, hholds⟩
            rw [deleteFixupLoop, if_neg fun h => h.1 rfl, setRed_same hred']

/-! ## `rb_tree_successor`, with a right child -/

/-- `while (y->left != nil) { y = y->left; }` ends at the first node of the
    tree. -/
theorem leftmost_focus {T : CTree ν} : ∀ {fuel : Nat} {fs : List (Frame ν)},
    T.toList.length ≤ fuel → Focus t h T fs → T ≠ leaf →
    ∃ c y r gs, leftmost t h fuel (top t.nil T) = some y ∧
      T = plug (node c leaf y r) gs ∧ before gs = [] := by
  induction T with
  | leaf =>
      intro fuel fs _ _ hne
      exact absurd rfl hne
  | node c l x r ihl _ =>
      intro fuel fs hlen hf _
      simp only [toList, List.length_append, List.length_cons] at hlen
      obtain ⟨n, rfl⟩ : ∃ n, fuel = n + 1 := ⟨fuel - 1, by omega⟩
      have hrec : (h x).left = top t.nil l := by rw [hf.rep.1]
      have hl := focus_down (d := .left).mp hf
      by_cases hleaf : l = leaf
      · subst hleaf
        refine ⟨c, x, r, [], ?_, rfl, rfl⟩
        rw [top, leftmost, hrec]
        exact if_neg (not_not_intro rfl)
      · obtain ⟨c', y, r', gs, hwalk, heq, hgs⟩ :=
          ihl (show l.toList.length ≤ n by omega) hl hleaf
        refine ⟨c', y, r', gs ++ [⟨.left, c, x, r⟩], ?_, ?_, ?_⟩
        · rw [top, leftmost, hrec, if_pos (hl.top_apart hleaf).1, hwalk]
        · rw [plug_append, ← heq]
          rfl
        · clear hwalk heq
          induction gs with
          | nil => rfl
          | cons g gs ih =>
              rw [before, List.append_eq_nil_iff] at hgs
              rw [List.cons_append, before, ih hgs.1, hgs.2]
              rfl

/-! ## `rb_delete` -/

/-- The end of `rb_delete`, once the tree has the one node less. -/
theorem deleteEnd_focus {a : CTree ν} {c : Bool} {fs : List (Frame ν)}
    {n fuel : Nat} (hf : Focus t h a fs)
    (hp : (h (top t.nil a)).parent = up t.root fs) (hc : Ctx fs n)
    (hfit : c = true ∧ Balanced a n ∧ a.isRed = false ∨
      c = false ∧ ∃ k, n = k + 1 ∧ Balanced a k)
    (hlen : fs.length < fuel) :
    ∃ h', (if !c then rbDeleteFixup fuel t (top t.nil a) h else some h)
        = some h' ∧ Holds t h' (plug a fs).toList := by
  have hwhole : Focus t h (plug a fs) [] := by
    rw [focus_plug, List.append_nil]
    exact hf
  rcases hfit with ⟨rfl, hb, hr⟩ | ⟨rfl, k, rfl, hb⟩
  · obtain ⟨m, hm, htop⟩ := fill hc hb fun _ => hr
    refine ⟨h, rfl, _, m, hwhole, hm, ?_, rfl⟩
    cases fs with
    | nil => exact hr
    | cons f fs => exact htop (by simp)
  · obtain ⟨n, rfl⟩ : ∃ n, fuel = n + 1 := ⟨fuel - 1, by omega⟩
    have hroot : h t.root = _ := hwhole.ctx
    have hcall : rbDeleteFixup (n + 1) t (top t.nil a) h =
        deleteFixupLoop t (top t.nil (plug a fs)) (n + 1) (top t.nil a) h := by
      rw [rbDeleteFixup, hroot]
      rfl
    rw [Bool.not_false, if_pos rfl, hcall]
    cases hr : a.isRed with
    | true =>
        exact deleteFixupLoop_focus n hf hp (hb.paint_red hr) (.inl ⟨hr, hc⟩)
    | false =>
        have hpaint := paint_isRed a
        rw [hr] at hpaint
        exact deleteFixupLoop_focus n hf hp (by rwa [hpaint])
          (.inr ⟨hr, hc, by omega, rfl⟩)

/-- What taking a node with an empty side out means for `rb_delete`: its only
    child, the heap, and the colour read afterwards. -/
theorem unlink_out {d : Dir} {c : Bool} {a : CTree ν} {y : ν}
    {fs : List (Frame ν)} (hf : Focus t h (mk d c a y leaf) fs) :
    onlyChild t y h = top t.nil a ∧
      (unlink (top t.nil a) y h y).red = c := by
  have hy := hf.node
  obtain ⟨hnil, ha, -, hfs⟩ := hf.apart
  have hya : y ≠ top t.nil a := by
    intro heq
    by_cases hleaf : a = leaf
    · rw [hleaf] at heq
      exact hnil heq
    · exact ha (heq ▸ top_mem hleaf)
  have hyp : y ≠ up t.root fs := by
    intro heq
    exact hfs (heq ▸ up_mem fs t.root)
  constructor
  · rw [onlyChild, hy]
    cases d with
    | left =>
        by_cases hleaf : a = leaf
        · rw [hleaf]
          exact if_neg (not_not_intro rfl)
        · exact if_pos ((focus_down (d := .left).mp hf).top_apart hleaf).1
    | right => exact if_neg (not_not_intro rfl)
  · rw [(unlink_focus hf).2.2 y hya hyp, hy, of_red]

/-- A node with an empty side is deleted itself. -/
theorem rbDelete_oneSide {d : Dir} {c : Bool} {a : CTree ν} {z : ν}
    {fs : List (Frame ν)} {n fuel : Nat}
    (hf : Focus t h (mk d c a z leaf) fs) (hb : Balanced (mk d c a z leaf) n)
    (hc : Ctx fs n) (hlen : fs.length < fuel) :
    ∃ h', rbDelete fuel t z h = some h' ∧ Holds t h' (plug a fs).toList := by
  obtain ⟨hchild, hred⟩ := unlink_out hf
  obtain ⟨hf', hp', -⟩ := unlink_focus hf
  have hside : (h z).left = t.nil ∨ (h z).right = t.nil := by
    rw [hf.node]
    cases d with
    | left => exact .inr rfl
    | right => exact .inl rfl
  have hfit : c = true ∧ Balanced a n ∧ a.isRed = false ∨
      c = false ∧ ∃ k, n = k + 1 ∧ Balanced a k := by
    cases c with
    | true =>
        obtain ⟨⟨hr, ha⟩, -⟩ := balanced_mk_red.mp hb
        exact .inl ⟨rfl, ha, hr⟩
    | false =>
        obtain ⟨k, hk, ha, -⟩ := balanced_mk_black.mp hb
        exact .inr ⟨rfl, k, hk, ha⟩
  obtain ⟨h', hend, hholds⟩ := deleteEnd_focus hf' hp' hc hfit hlen
  refine ⟨h', ?_, hholds⟩
  rw [← hend, rbDelete, if_pos hside, Option.bind_some]
  simp only [hchild, hred, ne_eq, not_true_eq_false, if_false]

/-- A node with nodes on both sides is deleted by its successor. -/
theorem rbDelete_bothSides {c cy : Bool} {l r : CTree ν} {y z : ν}
    {gs fs : List (Frame ν)} {n fuel : Nat}
    (hf : Focus t h (node c l z (plug (node cy leaf y r) gs)) fs)
    (hl : l ≠ leaf) (hb : Balanced (node cy leaf y r) n)
    (hc : Ctx (gs ++ ⟨.right, c, z, l⟩ :: fs) n)
    (hsucc : rbTreeSuccessor fuel t z h = some y)
    (hlen : (gs ++ ⟨Dir.right, c, z, l⟩ :: fs).length < fuel) :
    ∃ h', rbDelete fuel t z h = some h' ∧
      Holds t h' (plug (node c l y (plug r gs)) fs).toList := by
  have hin : Focus t h (mk .right cy r y leaf)
      (gs ++ ⟨.right, c, z, l⟩ :: fs) := by
    rw [← focus_plug]
    exact focus_down (d := .right).mp hf
  obtain ⟨hchild, hred⟩ := unlink_out hin
  obtain ⟨hf₁, hp₁, hkeep₁⟩ := unlink_focus hin
  obtain ⟨hnil, hyr, -, hyfs⟩ := hin.apart
  simp only [frameNodes_append, frameNodes, List.mem_cons, List.mem_append,
    not_or] at hyfs
  obtain ⟨hyroot, hygs, hyz, hyl, hyfs⟩ := hyfs
  have hyplug : y ∉ (plug r gs).toList := by
    rw [(plug_perm gs r).mem_iff, List.mem_append, not_or]
    exact ⟨hyr, hygs⟩
  -- the place of `z`
  have hf₁' : Focus t (unlink (top t.nil r) y h) (node c l z (plug r gs)) fs :=
    (focus_down (d := .right)).mpr ((focus_plug gs).mpr hf₁)
  obtain ⟨hf₂, hpr, hkeep₂⟩ :=
    replace_focus hf₁' hnil hyroot hyl hyplug hyfs
  have hf₂' : Focus t (replace y z (unlink (top t.nil r) y h)) r
      (gs ++ ⟨.right, c, y, l⟩ :: fs) :=
    (focus_plug gs).mp ((focus_down (d := .right)).mp hf₂)
  have hp₂ : (replace y z (unlink (top t.nil r) y h) (top t.nil r)).parent =
      up t.root (gs ++ ⟨.right, c, y, l⟩ :: fs) := by
    by_cases hr : r = leaf
    · cases gs with
      | nil => exact hpr
      | cons g gs =>
          have hplug : plug r (g :: gs) ≠ leaf :=
            plug_ne_leaf gs (mk_ne_leaf _ _ _ _ _)
          have hleft := (focus_down (d := .left).mp hf₁').top_apart hl
          have hright := (focus_down (d := .right).mp hf₁').top_apart hplug
          have hup : t.nil ≠ up t.root fs := by
            intro heq
            apply (List.nodup_cons.mp hf₁'.nodup).1
            rw [heq]
            rcases List.mem_cons.mp (up_mem fs t.root) with h1 | h1
            · rw [h1]
              exact List.mem_cons_self
            · exact List.mem_cons_of_mem _ (List.mem_append_right _ h1)
          -- `y` was not the child of `z`, so the parent of `nil` is kept
          have hkept := hkeep₂ _ hnil.symm hup hleft.1.symm hright.1.symm
          have htop : top t.nil r = t.nil := by rw [hr, top_leaf]
          rw [htop] at hp₁ hkept ⊢
          rw [hkept, hp₁]
          rfl
    · exact hf₂'.parent_top hr
  have hfit : cy = true ∧ Balanced r n ∧ r.isRed = false ∨
      cy = false ∧ ∃ k, n = k + 1 ∧ Balanced r k := by
    cases hb with
    | red _ h2 _ h4 => exact .inl ⟨rfl, h4, h2⟩
    | black _ h2 => exact .inr ⟨rfl, _, rfl, h2⟩
  have hlen' : (gs ++ ⟨Dir.right, c, y, l⟩ :: fs).length < fuel := by
    simpa only [List.length_append, List.length_cons] using hlen
  obtain ⟨h', hend, hholds⟩ :=
    deleteEnd_focus hf₂' hp₂ (hc.relabel gs) hfit hlen'
  rw [plug_append] at hholds
  refine ⟨h', ?_, hholds⟩
  have hside : ¬ ((h z).left = t.nil ∨ (h z).right = t.nil) := by
    have hleft := (focus_down (d := .left).mp hf).top_apart hl
    have hright := (focus_down (d := .right).mp hf).top_apart
      (plug_ne_leaf gs (by simp))
    rw [hf.rep.1, not_or]
    exact ⟨hleft.1, hright.1⟩
  rw [← hend, rbDelete, if_neg hside, hsucc, Option.bind_some]
  simp only [hchild, hred, ne_eq, hyz, not_false_eq_true, if_true]

/-- The successor of a node with a right child is the first node there. -/
theorem successor_focus {c : Bool} {l r : CTree ν} {z : ν}
    {fs : List (Frame ν)} {fuel : Nat} (hf : Focus t h (node c l z r) fs)
    (hr : r ≠ leaf) (hlen : r.toList.length ≤ fuel) :
    ∃ cy y ry gs, rbTreeSuccessor fuel t z h = some y ∧
      r = plug (node cy leaf y ry) gs ∧ before gs = [] := by
  have hright := focus_down (d := .right).mp hf
  obtain ⟨cy, y, ry, gs, hwalk, heq, hgs⟩ := leftmost_focus hlen hright hr
  refine ⟨cy, y, ry, gs, ?_, heq, hgs⟩
  have hrec : (h z).right = top t.nil r := by rw [hf.rep.1]
  rw [rbTreeSuccessor, hrec, if_pos (hright.top_apart hr).1, hwalk]

/-- **DELETION**: `rb_delete` returns, with fuel above the number of nodes,
    and leaves a balanced tree of all nodes but the one deleted. -/
theorem rbDelete_holds {z : ν} {l₁ l₂ : List ν} {fuel : Nat}
    (hh : Holds t h (l₁ ++ z :: l₂)) (hlen : (l₁ ++ z :: l₂).length < fuel) :
    ∃ h', rbDelete fuel t z h = some h' ∧ Holds t h' (l₁ ++ l₂) := by
  obtain ⟨T, m, hf, hb, htop, hlist⟩ := hh
  have hn : T.toList.Nodup := by
    have hn := (List.nodup_cons.mp (List.nodup_cons.mp hf.nodup).2).2
    rwa [frameNodes, List.append_nil] at hn
  obtain ⟨c, l, r, fs, rfl, hcut⟩ := exists_cut hn hlist
  obtain ⟨n, hbn, hcn, -⟩ := split fs hb htop
  rw [focus_plug, List.append_nil] at hf
  have hsize := length_le_plug fs (node c l z r)
  rw [hlist] at hsize
  simp only [toList, List.length_append, List.length_cons] at hsize hlen
  have hbound : fs.length + l.toList.length + r.toList.length < fuel := by
    omega
  obtain ⟨rfl, rfl⟩ := hcut
  by_cases hr : r = leaf
  · subst hr
    obtain ⟨h', hdel, hholds⟩ := rbDelete_oneSide (d := .left) hf hbn hcn
      (show fs.length < fuel by omega)
    refine ⟨h', hdel, ?_⟩
    rw [toList_plug] at hholds
    simpa [toList] using hholds
  by_cases hl : l = leaf
  · subst hl
    obtain ⟨h', hdel, hholds⟩ := rbDelete_oneSide (d := .right) hf hbn hcn
      (show fs.length < fuel by omega)
    refine ⟨h', hdel, ?_⟩
    rw [toList_plug] at hholds
    simpa [toList] using hholds
  obtain ⟨cy, y, ry, gs, hsucc, rfl, hgs⟩ := successor_focus hf hr
    (show r.toList.length ≤ fuel by omega)
  have hgs' := length_le_plug gs (node cy leaf y ry)
  obtain ⟨k, hby, hcy, -⟩ := split (gs ++ ⟨.right, c, z, l⟩ :: fs)
    (by rw [plug_append]; exact hb) (by rw [plug_append]; exact htop)
  obtain ⟨h', hdel, hholds⟩ := rbDelete_bothSides hf hl hby hcy hsucc (by
    simp only [List.length_append, List.length_cons]
    omega)
  refine ⟨h', hdel, ?_⟩
  rw [toList_plug] at hholds
  simpa [toList, toList_plug, hgs] using hholds

end SharixRbTree
