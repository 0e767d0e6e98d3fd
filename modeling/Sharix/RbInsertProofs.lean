import Sharix.RbHeapProofs

/-! # `rb_insert`

    The walk of `rb_insert_binary` ends at a hole; the new node fills it, red.
    `RB_INSERT_SUB` then either moves the red node with a red parent two
    frames up or ends with a black parent.  In between, the node's subtrees
    are black at the top and the frames fit them. -/

namespace SharixRbTree

open SharixRedBlack
open SharixRedBlack.CTree

variable {ν : Type} [DecidableEq ν] {t : RbTree ν} {h : Heap ν}

/-! ## `RB_INSERT_SUB` -/

/-- A red uncle: the colours change and `x` goes up to the grandparent. -/
theorem insertSub_redUncle {T s u : CTree ν} {d d' : Dir} {p g : ν}
    {fs : List (Frame ν)}
    (hf : Focus t h T (⟨d, true, p, s⟩ :: ⟨d', false, g, u⟩ :: fs))
    (hT : T ≠ leaf) (hu : u.isRed = true) :
    ∃ h', insertSub t d' (top t.nil T) h = (g, h') ∧
      Focus t h' (mk d' true (mk d false T p s) g (u.paint false)) fs := by
  have hp := hf.parent_top hT
  have hg := (focus_down.mpr hf).parent_top (mk_ne_leaf _ _ _ _ _)
  have hy := (focus_down.mpr hf).frame
  have hyr := (focus_down.mpr hf).red_sib
  rw [top_mk] at hg
  simp only [up] at hp hg hy hyr
  -- the three writes, each with the focus after it
  have hf₁ := setRed_frame hf false
  have hf₂ := focus_down.mp
    (setRed_sib (focus_down.mpr hf₁) (ne_leaf_of_isRed hu) false)
  have hp₂ := hf₂.parent_top hT
  have hg₂ := (focus_down.mpr hf₂).parent_top (mk_ne_leaf _ _ _ _ _)
  rw [top_mk] at hg₂
  have hf₃ := setRed_frame (focus_down.mpr hf₂) true
  have hp₃ := (focus_down.mp hf₃).parent_top hT
  have hg₃ := hf₃.parent_top (mk_ne_leaf _ _ _ _ _)
  rw [top_mk] at hg₃
  simp only [up] at hp₂ hg₂ hp₃ hg₃
  refine ⟨_, ?_, focus_down.mpr hf₃⟩
  simp only [insertSub, hp, hg, hy, of_child_flip, hyr, hu, if_true, hp₂, hg₂,
    hp₃, hg₃]

/-- The last rotation, with `x` on the outer side. -/
theorem insertRaise_focus {X S u : CTree ν} {d : Dir} {p g : ν}
    {fs : List (Frame ν)}
    (hf : Focus t h X (⟨d, true, p, S⟩ :: ⟨d, false, g, u⟩ :: fs))
    (hX : X ≠ leaf) :
    Focus t (insertRaise t d (top t.nil X) h) X
      (⟨d, false, p, mk d true S g u⟩ :: fs) := by
  have hp := hf.parent_top hX
  have hf₁ := setRed_frame hf false
  have hp₁ := hf₁.parent_top hX
  have hg₁ := (focus_down.mpr hf₁).parent_top (mk_ne_leaf _ _ _ _ _)
  have hf₂ := setRed_frame (focus_down.mpr hf₁) true
  have hp₂ := (focus_down.mp hf₂).parent_top hX
  have hg₂ := hf₂.parent_top (mk_ne_leaf _ _ _ _ _)
  rw [top_mk] at hg₁ hg₂
  simp only [up] at hp hp₁ hg₁ hp₂ hg₂
  have hmirror : Focus t ((h.setRed p false).setRed g true)
      (mk d.flip true u g (mk d.flip false S p X)) fs := by
    rw [mk_flip, mk_flip]
    exact focus_down.mpr hf₂
  have hlast := (rotate_focus hmirror).1
  rw [mk_flip, mk_flip] at hlast
  simp only [insertRaise, hp, hp₁, hg₁, hp₂, hg₂]
  exact focus_down.mp hlast

theorem insertOuter_outer {T s u : CTree ν} {d : Dir} {p g : ν}
    {fs : List (Frame ν)}
    (hf : Focus t h T (⟨d, true, p, s⟩ :: ⟨d, false, g, u⟩ :: fs))
    (hT : T ≠ leaf) : insertOuter t d (top t.nil T) h = (top t.nil T, h) := by
  have hp := hf.parent_top hT
  have hframe := hf.frame
  simp only [up] at hp hframe
  rw [insertOuter, hp, hframe, of_child_flip]
  exact if_neg (hf.top_ne_sib (.inl hT))

theorem insertOuter_inner {a b s u : CTree ν} {d : Dir} {z p g : ν}
    {fs : List (Frame ν)}
    (hf : Focus t h (mk d true a z b)
      (⟨d.flip, true, p, s⟩ :: ⟨d, false, g, u⟩ :: fs)) :
    ∃ h', insertOuter t d z h = (p, h') ∧
      Focus t h' (mk d true s p a) (⟨d, true, z, b⟩ :: ⟨d, false, g, u⟩ :: fs)
      := by
  have hp := hf.parent_top (mk_ne_leaf _ _ _ _ _)
  have hframe := hf.frame
  rw [top_mk] at hp hframe
  simp only [up] at hp hframe
  have hdown := focus_down.mpr hf
  rw [mk_flip] at hdown
  refine ⟨_, ?_, focus_down.mp (rotate_focus hdown).1⟩
  rw [insertOuter, hp, hframe, of_child]
  exact if_pos rfl

/-- A black uncle: two or one rotations, and the parent of `x` is black. -/
theorem insertSub_blackUncle {T s u : CTree ν} {d d' : Dir} {p g : ν}
    {fs : List (Frame ν)} {k : Nat}
    (hf : Focus t h T (⟨d, true, p, s⟩ :: ⟨d', false, g, u⟩ :: fs))
    (hT : T.isRed = true) (hb : Balanced T k)
    (hs : s.isRed = false) (hbs : Balanced s k)
    (hu : u.isRed = false) (hbu : Balanced u k) :
    ∃ X q S h', insertSub t d' (top t.nil T) h = (top t.nil X, h') ∧
      Focus t h' X (⟨d', false, q, S⟩ :: fs) ∧
      X.isRed = true ∧ Balanced X k ∧ Balanced S k ∧
      (mk d' false X q S).toList
        = (mk d' false (mk d true T p s) g u).toList := by
  have hTl := ne_leaf_of_isRed hT
  have hp := hf.parent_top hTl
  have hg := (focus_down.mpr hf).parent_top (mk_ne_leaf _ _ _ _ _)
  have hy := (focus_down.mpr hf).frame
  have hyr := (focus_down.mpr hf).red_sib
  rw [top_mk] at hg
  simp only [up, hu] at hp hg hy hyr
  have hsub : insertSub t d' (top t.nil T) h =
      ((insertOuter t d' (top t.nil T) h).1,
        insertRaise t d' (insertOuter t d' (top t.nil T) h).1
          (insertOuter t d' (top t.nil T) h).2) := by
    simp only [insertSub, hp, hg, hy, of_child_flip, hyr]
    rfl
  rcases Dir.eq_or_eq_flip d d' with rfl | rfl
  · rw [insertOuter_outer hf hTl] at hsub
    exact ⟨T, p, _, _, hsub, insertRaise_focus hf hTl, hT, hb,
      balanced_mk_red.mpr ⟨⟨hs, hbs⟩, hu, hbu⟩,
      (toList_rotate d true false false true T s u p g).symm⟩
  · obtain ⟨a, z, b, rfl⟩ : ∃ a z b, T = mk d' true a z b := by
      obtain ⟨a, z, b, heq⟩ := exists_mk d' hTl
      exact ⟨a, z, b, hT ▸ heq⟩
    obtain ⟨⟨har, hba⟩, hbr, hbb⟩ := balanced_mk_red.mp hb
    rw [top_mk] at hsub ⊢
    obtain ⟨h', hout, hf'⟩ := insertOuter_inner hf
    rw [hout] at hsub
    have hraise := insertRaise_focus hf' (mk_ne_leaf _ _ _ _ _)
    rw [top_mk] at hraise
    refine ⟨mk d' true s p a, z, mk d' true b g u, _, ?_, hraise,
      isRed_mk .., balanced_mk_red.mpr ⟨⟨hs, hbs⟩, har, hba⟩,
      balanced_mk_red.mpr ⟨⟨hbr, hbb⟩, hu, hbu⟩, ?_⟩
    · rw [hsub, top_mk]
    · rw [mk_flip d']
      cases d' <;> simp [mk, toList]

/-- **ONE ROUND**: `RB_INSERT_SUB` keeps the invariant of the loop, nearer to
    the top. -/
theorem insertSub_step {T : CTree ν} {f f' : Frame ν} {fs : List (Frame ν)}
    {k : Nat} (hf : Focus t h T (f :: f' :: fs)) (hT : T.isRed = true)
    (hb : Balanced T k) (hc : Ctx (f :: f' :: fs) k) (hfr : f.red = true) :
    ∃ X gs k' h', insertSub t f'.dir (top t.nil T) h = (top t.nil X, h') ∧
      Focus t h' X gs ∧ X.isRed = true ∧ Balanced X k' ∧ Ctx gs k' ∧
      gs.length < fs.length + 2 ∧
      (plug X gs).toList = (plug T (f :: f' :: fs)).toList := by
  rcases f with ⟨d, red, p, s⟩
  rcases f' with ⟨d', red', g, u⟩
  cases hfr
  obtain ⟨hs, hbs, hblack, hc'⟩ : s.isRed = false ∧ Balanced s k ∧
      red' = false ∧ Ctx (⟨d', red', g, u⟩ :: fs) k := by
    cases hc with
    | red h1 h2 h3 _ h5 => exact ⟨h1, h2, h3, h5⟩
  cases hblack
  obtain ⟨hbu, hc''⟩ : Balanced u k ∧ Ctx fs (k + 1) := by
    cases hc' with
    | black h1 h2 => exact ⟨h1, h2⟩
  cases hu : u.isRed with
  | true =>
      obtain ⟨h', hsub, hf'⟩ := insertSub_redUncle hf (ne_leaf_of_isRed hT) hu
      refine ⟨_, fs, k + 1, h', ?_, hf', isRed_mk .., ?_, hc'', by omega, ?_⟩
      · rw [hsub, top_mk]
      · exact balanced_mk_red.mpr ⟨⟨isRed_mk .., balanced_mk_black.mpr
          ⟨k, rfl, hb, hbs⟩⟩, isRed_paint_false u, hbu.paint_red hu⟩
      · exact toList_plug_congr fs (toList_mk_congr d' true false g
          (toList_mk_congr d false true p rfl rfl) (toList_paint false u))
  | false =>
      obtain ⟨X, q, S, h', hsub, hf', hX, hbX, hbS, hlist⟩ :=
        insertSub_blackUncle hf hT hb hs hbs hu hbu
      exact ⟨X, _, k, h', hsub, hf', hX, hbX, .black hbS hc'',
        by simp only [List.length_cons]; omega, toList_plug_congr fs hlist⟩

/-- The loop of `rb_insert` ends, at a tree that is balanced once its top is
    black, with the nodes in the same order. -/
theorem insertFixup_focus (fuel : Nat) :
    ∀ {T : CTree ν} {fs : List (Frame ν)} {k : Nat} {h : Heap ν},
      fs.length < fuel → Focus t h T fs → T.isRed = true → Balanced T k →
      Ctx fs k →
      ∃ h' T' k', insertFixup t fuel (top t.nil T) h = some h' ∧
        Focus t h' T' [] ∧ T' ≠ leaf ∧ Balanced (T'.paint false) k' ∧
        T'.toList = (plug T fs).toList := by
  induction fuel with
  | zero =>
      intro T fs k h hlt
      omega
  | succ fuel ih =>
      intro T fs k h hlt hf hT hb hc
      have hTl := ne_leaf_of_isRed hT
      have hp := hf.parent_top hTl
      have hred := hf.red_up
      cases hh : headRed fs with
      | false =>
          have hplug : Focus t h (plug T fs) [] := by
            rw [focus_plug, List.append_nil]
            exact hf
          have hne := plug_ne_leaf fs hTl
          obtain ⟨k', hk, htop⟩ := fill hc hb
            (by rw [hh]; exact fun h => by cases h)
          have hend : insertFixup t (fuel + 1) (top t.nil T) h = some h := by
            simp only [insertFixup, hp, hred, hh, Bool.false_eq_true, if_false]
          refine ⟨h, plug T fs, ?_⟩
          cases fs with
          | nil => exact ⟨_, hend, hplug, hne, hb.paint_red hT, rfl⟩
          | cons f fs =>
              have hpaint := paint_isRed (plug T (f :: fs))
              rw [htop (by simp)] at hpaint
              exact ⟨k', hend, hplug, hne, by rwa [hpaint], rfl⟩
      | true =>
          obtain ⟨f, f', fs', rfl⟩ : ∃ f f' fs', fs = f :: f' :: fs' := by
            cases hc with
            | nil => cases hh
            | @red d x sib fs n _ _ _ hne _ =>
                cases fs with
                | nil => exact absurd rfl hne
                | cons f' fs' => exact ⟨_, f', fs', rfl⟩
            | black _ _ => cases hh
          obtain ⟨X, gs, k', h', hsub, hf', hX, hbX, hcX, hlt', hlist⟩ :=
            insertSub_step hf hT hb hc hh
          have hg := (focus_down.mpr hf).parent_top (mk_ne_leaf _ _ _ _ _)
          have hdir := (focus_down.mpr hf).dir_eq (.inl (mk_ne_leaf _ _ _ _ _))
          rw [top_mk] at hg hdir
          simp only [List.length_cons] at hlt
          simp only [up] at hp hg hred
          have hround : insertFixup t (fuel + 1) (top t.nil T) h =
              insertFixup t fuel (top t.nil X) h' := by
            simp only [insertFixup, hp, hred, hh, if_true, hg, hdir, hsub]
          rw [hround, ← hlist]
          exact ih (by omega) hf' hX hbX hcX

/-! ## `rb_insert_binary` -/

/-- Every frame goes where the comparison with `z` sends the walk. -/
def Steers (compare : ν → ν → Int) (z : ν) (fs : List (Frame ν)) : Prop :=
  ∀ f ∈ fs, f.dir = .left ↔ 0 < compare f.x z

/-- The walk ends at an empty hole of the tree. -/
theorem insertWalk_focus {z : ν} {T : CTree ν} :
    ∀ {fuel : Nat} {fs : List (Frame ν)}, T.toList.length < fuel →
      Focus t h T fs → Steers t.compare z fs →
      ∃ gs, insertWalk t z h fuel (up t.root fs) (top t.nil T)
          = some (up t.root gs) ∧
        plug leaf gs = plug T fs ∧ Steers t.compare z gs := by
  induction T with
  | leaf =>
      intro fuel fs hlt hf hs
      obtain ⟨fuel, rfl⟩ := Nat.exists_eq_add_of_lt hlt
      exact ⟨fs, if_pos rfl, rfl, hs⟩
  | node c l x r ihl ihr =>
      intro fuel fs hlt hf hs
      cases fuel with
      | zero => omega
      | succ fuel =>
          simp only [toList, List.length_append, List.length_cons] at hlt
          have hx : x ≠ t.nil := (hf.top_apart (by simp)).1
          have hrec : h x = ⟨c, _, top t.nil l, top t.nil r⟩ := hf.rep.1
          by_cases hcmp : 0 < t.compare x z
          · obtain ⟨gs, hw, hp, hg⟩ := ihl
              (show l.toList.length < fuel by omega)
              (focus_down (d := .left).mp hf) (by
                rintro f (_ | ⟨_, hf⟩)
                · exact iff_of_true rfl hcmp
                · exact hs f hf)
            refine ⟨gs, ?_, hp, hg⟩
            rw [← hw, insertWalk, top, if_neg hx, if_pos hcmp, hrec]
            rfl
          · obtain ⟨gs, hw, hp, hg⟩ := ihr
              (show r.toList.length < fuel by omega)
              (focus_down (d := .right).mp hf) (by
                rintro f (_ | ⟨_, hf⟩)
                · exact iff_of_false (by simp) hcmp
                · exact hs f hf)
            refine ⟨gs, ?_, hp, hg⟩
            rw [← hw, insertWalk, top, if_neg hx, if_neg hcmp, hrec]
            rfl

theorem rbInsertBinary_focus {z : ν} {T : CTree ν} {fuel : Nat}
    (hf : Focus t h T []) (hz : z ∉ t.nil :: t.root :: T.toList)
    (hlt : T.toList.length < fuel) :
    ∃ h' fs, rbInsertBinary fuel t z h = some h' ∧
      Focus t (h'.setRed z true) (node true leaf z leaf) fs ∧
      plug leaf fs = T ∧ Steers t.compare z fs := by
  obtain ⟨hnil, hroot, hzT⟩ : z ≠ t.nil ∧ z ≠ t.root ∧ z ∉ T.toList := by
    simpa only [List.mem_cons, not_or] using hz
  obtain ⟨h₁, hh₁⟩ : ∃ h₁ : Heap ν, h₁ =
      (h.setChild z .left t.nil).setChild z .right t.nil := ⟨_, rfl⟩
  have hother : ∀ v, v ≠ z → h₁ v = h v := by
    intro v hv
    rw [hh₁]
    exact (Function.update_of_ne hv _ _).trans (Function.update_of_ne hv _ _)
  have hf₁ : Focus t h₁ T [] := by
    refine focus_congr (fun v hv => hother v ?_) hf
    rintro rfl
    rw [frameNodes, List.append_nil] at hv
    exact hz hv
  have hroot₁ : h₁ t.root = _ := hf₁.ctx
  obtain ⟨gs, hw, hp, hg⟩ := insertWalk_focus hlt hf₁ fun _ hf => by cases hf
  have hp : plug leaf gs = T := hp
  have hgs : z ∉ t.root :: frameNodes gs := by
    intro hmem
    rcases List.mem_cons.mp hmem with heq | hmem
    · exact hroot heq
    · apply hzT
      rw [← hp]
      exact (plug_perm gs leaf).mem_iff.mpr hmem
  have hne : up t.root gs ≠ z := by
    rintro rfl
    exact hgs (up_mem gs t.root)
  -- the heap with the parent of `z`
  have hf₂ : Focus t (h₁.setParent z (up t.root gs)) leaf gs := by
    have hleaf : Focus t h₁ leaf gs := by
      have hplug : Focus t h₁ (plug leaf gs) [] := by
        rw [hp]
        exact hf₁
      rw [focus_plug, List.append_nil] at hplug
      exact hplug
    refine focus_congr (fun v hv => Function.update_of_ne ?_ _ _) hleaf
    rintro rfl
    rcases List.mem_cons.mp hv with heq | hv
    · exact hnil heq
    · exact hgs hv
  have hz₂ : h₁.setParent z (up t.root gs) z =
      ⟨(h z).red, up t.root gs, t.nil, t.nil⟩ := by
    rw [Heap.setParent, Function.update_self, hh₁]
    simp only [Heap.setChild, Function.update_self, RbNode.withChild]
  have hlink := attach_focus hf₂ hz₂ hnil hgs
  refine ⟨_, gs, ?_, setRed_focus (d := .left) hlink true, hp, hg⟩
  -- the comparison made last is the direction of the innermost frame
  have hy : (if up t.root gs = t.root ∨ 0 < t.compare (up t.root gs) z
      then (h₁.setParent z (up t.root gs)).setChild (up t.root gs) .left z
      else (h₁.setParent z (up t.root gs)).setChild (up t.root gs) .right z) =
      (h₁.setParent z (up t.root gs)).setChild (up t.root gs) (upDir gs) z := by
    cases gs with
    | nil => exact if_pos (.inl rfl)
    | cons f gs =>
        have hd := hg f List.mem_cons_self
        have hfr : f.x ≠ t.root := by
          have hn := (List.nodup_cons.mp hf₂.nodup).2
          rintro heq
          refine (List.nodup_cons.mp hn).1 ?_
          rw [← heq]
          exact List.mem_cons_self
        cases hdir : f.dir with
        | left =>
            rw [upDir, hdir]
            exact if_pos (.inr (hd.mp hdir))
        | right =>
            rw [upDir, hdir]
            refine if_neg ?_
            rintro (heq | hcmp)
            · exact hfr heq
            · rw [hd.mpr hcmp] at hdir
              cases hdir
  rw [← hy, rbInsertBinary, ← hh₁, hroot₁]
  exact congrArg (Option.map _) hw

/-! ## `rb_insert` -/

/-- **INSERTION**: `rb_insert` returns, with fuel above the number of nodes,
    and leaves a balanced tree with a black top, the new node where the
    comparisons send it. -/
theorem rbInsert_focus {z : ν} {T : CTree ν} {k fuel : Nat}
    (hf : Focus t h T []) (hb : Balanced T k) (htop : T.isRed = false)
    (hz : z ∉ t.nil :: t.root :: T.toList) (hlt : T.toList.length < fuel) :
    ∃ h' T' k' fs, rbInsert fuel t z h = some h' ∧ Focus t h' T' [] ∧
      Balanced T' k' ∧ T'.isRed = false ∧ plug leaf fs = T ∧
      Steers t.compare z fs ∧ T'.toList = before fs ++ z :: after fs := by
  obtain ⟨h₁, fs, hbin, hf₁, hp, hs⟩ := rbInsertBinary_focus hf hz hlt
  have hfs : fs.length < fuel := by
    have hle := length_le_plug fs leaf
    rw [hp] at hle
    omega
  obtain ⟨n, hleaf, hc, -⟩ := split fs (by rwa [hp]) (by rwa [hp])
  obtain ⟨h₂, T', k', hfix, hf₂, hT', hb', hlist⟩ := insertFixup_focus fuel
    hfs hf₁ rfl (.red rfl rfl hleaf hleaf) hc
  have hroot : h₂ t.root = _ := hf₂.ctx
  refine ⟨h₂.setRed (h₂ t.root).left false, T'.paint false, k', fs, ?_, ?_, hb',
    isRed_paint_false T', hp, hs, ?_⟩
  · rw [rbInsert, hbin, Option.bind_some]
    exact congrArg (Option.map _) hfix
  · rw [hroot]
    exact setRed_top hf₂ hT' false
  · rw [toList_paint, hlist, toList_plug]
    simp [toList]

end SharixRbTree
