import Sharix.CheckedProofs
import Sharix.SlabProofs
import Mathlib.Order.Bounds.Basic

/-! # `cache_estimate` — `kern/mm/slab.c`

    How many objects fit in a slab.  The first guess leaves the alignment of
    the control area out, so it is never too small; the loop takes one object
    away until control area and objects fit, which they do at the latest with
    no object at all.

    `SharixSlab` computes with numbers.  Here the same functions compute with
    the words of the machine; where the flag `strict` is set, a step that would
    wrap around has no result.  `SizeT.cacheEstimate_eq` is the refinement. -/

namespace SharixSlab

open SharixChecked

/-! ## The model -/

abbrev Size := BitVec 32

namespace SizeT

variable (strict : Bool)

def roundDown (a n : Size) : Option Size := do
  let r ← mod a n
  sub strict a r

def roundUp (a n : Size) : Option Size := do
  let a ← add strict a n
  let a ← sub strict a 1
  roundDown strict a n

def slabMgmtSize (num align : Size) : Option Size := do
  let bufctls ← mul strict num 4
  let size ← add strict 24 bufctls
  roundUp strict size align

/-- `while (slab_mgmt_size(nr_objs, align) + nr_objs * objsize > slab_size)
    { nr_objs --; }`. -/
def fitObjs (objsize align slabSize : Size) : Nat → Size → Option Size
  | 0, _ => none
  | fuel + 1, nrObjs => do
      let mgmtSize ← slabMgmtSize strict nrObjs align
      let objs ← mul strict nrObjs objsize
      let total ← add strict mgmtSize objs
      if total > slabSize then
        let nrObjs ← sub strict nrObjs 1
        fitObjs objsize align slabSize fuel nrObjs
      else some nrObjs

/-- `if (nr_objs > SLAB_LIMIT) { nr_objs = SLAB_LIMIT; }`. -/
def limitObjs (nrObjs : Size) : Size :=
  if nrObjs > 0xFFFFFFFE then 0xFFFFFFFE else nrObjs

/-- The branches of `cache_estimate`: `nr_objs` and `mgmt_size`. -/
def estimateObjs (fuel : Nat) (slabSize objsize align : Size) (offSlab : Bool) :
    Option (Size × Size) :=
  if offSlab then do
    let mgmtSize := 0
    let nrObjs ← div slabSize objsize
    return (limitObjs nrObjs, mgmtSize)
  else do
    let room ← sub strict slabSize 24
    let each ← add strict objsize 4
    let nrObjs ← div room each
    let nrObjs ← fitObjs strict objsize align slabSize fuel nrObjs
    let nrObjs := limitObjs nrObjs
    let mgmtSize ← slabMgmtSize strict nrObjs align
    return (nrObjs, mgmtSize)

/-- `cache_estimate`: `*num` and `*remainder`. -/
def cacheEstimate (fuel : Nat) (order objsize align : Size) (offSlab : Bool) :
    Option (Size × Size) := do
  let slabSize ← shl strict 4096 order
  let (nrObjs, mgmtSize) ← estimateObjs strict fuel slabSize objsize align offSlab
  let objs ← mul strict nrObjs objsize
  let rest ← sub strict slabSize objs
  let remainder ← sub strict rest mgmtSize
  return (nrObjs, remainder)

end SizeT

/-! ## The size of the control area -/

theorem slabMgmtSize_le (n align : Nat) :
    slabMgmtSize n align ≤ 24 + n * 4 + align - 1 := Nat.sub_le ..

theorem le_slabMgmtSize {align : Nat} (ha : 0 < align) (n : Nat) :
    24 + n * 4 ≤ slabMgmtSize n align := by
  have h1 := Nat.mod_lt (24 + n * 4 + align - 1) ha
  show 24 + n * 4 ≤ 24 + n * 4 + align - 1 - (24 + n * 4 + align - 1) % align
  omega

/-- With no object it is within a page. -/
theorem slabMgmtSize_zero {align : Nat} (ha : 0 < align) (hle : align ≤ 4096) :
    slabMgmtSize 0 align ≤ 4096 := by
  rcases Nat.lt_or_ge align 24 with hlt | hge
  · have := slabMgmtSize_le 0 align
    omega
  · have hdiv : (24 + 0 * 4 + align - 1) / align ≤ 1 := by
      refine Nat.le_of_lt_succ (Nat.div_lt_of_lt_mul ?_)
      omega
    calc slabMgmtSize 0 align = (24 + 0 * 4 + align - 1) / align * align :=
          Nat.div_mul_self_eq_mod_sub_self.symm
      _ ≤ 1 * align := Nat.mul_le_mul_right _ hdiv
      _ ≤ 4096 := by omega

/-! ## The loop -/

/-- Control area and objects fit. -/
def Fits (objsize align slab n : Nat) : Prop := slabMgmtSize n align + n * objsize ≤ slab

theorem fitObjs_le (objsize align slab n : Nat) : fitObjs objsize align slab n ≤ n := by
  induction n with
  | zero => exact Nat.le_refl 0
  | succ n ih =>
      rw [fitObjs]
      split
      · exact Nat.le_succ_of_le ih
      · exact Nat.le_refl _

/-- The loop ends at the largest number of objects up to its guess that fits,
    by induction on the guess. -/
theorem fitObjs_largest {objsize align slab : Nat} (hzero : Fits objsize align slab 0)
    (n : Nat) : Fits objsize align slab (fitObjs objsize align slab n) ∧
      ∀ k, k ≤ n → Fits objsize align slab k → k ≤ fitObjs objsize align slab n := by
  induction n with
  | zero => exact ⟨hzero, fun k h _ => h⟩
  | succ n ih =>
      rw [fitObjs]
      split
      · next hnot =>
          refine ⟨ih.1, fun k hk hfits => ih.2 k ?_ hfits⟩
          rcases Nat.lt_or_eq_of_le hk with hlt | rfl
          · exact Nat.le_of_lt_succ hlt
          · exact absurd hfits (Nat.not_le.mpr hnot)
      · next hfits => exact ⟨Nat.not_lt.mp hfits, fun k hk _ => hk⟩

/-! ## Words for numbers -/

/-- `slab_mgmt_size` without a wrap-around. -/
theorem SizeT.slabMgmtSize_eq (strict : Bool) {n align : Nat} (ha : 0 < align)
    (hle : align ≤ 4096) (hn : n < 2 ^ 24) :
    SizeT.slabMgmtSize strict (BitVec.ofNat 32 n) (BitVec.ofNat 32 align)
      = some (BitVec.ofNat 32 (SharixSlab.slabMgmtSize n align)) := by
  show (mul strict (BitVec.ofNat 32 n) (BitVec.ofNat 32 4)).bind _ = _
  rw [mul_ofNat strict (by omega) (by omega) (by omega), Option.bind_some]
  show (add strict (BitVec.ofNat 32 24) _).bind _ = _
  rw [add_ofNat strict (by omega), Option.bind_some]
  show (add strict _ _).bind _ = _
  rw [add_ofNat strict (by omega), Option.bind_some]
  show (sub strict _ (BitVec.ofNat 32 1)).bind _ = _
  rw [sub_ofNat strict (by omega) (by omega), Option.bind_some]
  show (mod _ _).bind _ = _
  rw [mod_ofNat (by omega) (by omega) ha, Option.bind_some,
    sub_ofNat strict (by omega) (Nat.mod_le ..)]
  rfl

/-- The loop on words, from a guess that leaves the sizes far from the end of
    the words. -/
theorem SizeT.fitObjs_eq (strict : Bool) {objsize align slab : Nat}
    (hslab : slab ≤ 2 ^ 22) (hobj : objsize < 2 ^ 24) (ha : 0 < align)
    (hle : align ≤ 4096) (hzero : Fits objsize align slab 0) {n fuel : Nat}
    (hn : n < 2 ^ 24) (hobjs : n * objsize ≤ 2 ^ 22) (hfuel : n < fuel) :
    SizeT.fitObjs strict (BitVec.ofNat 32 objsize) (BitVec.ofNat 32 align)
        (BitVec.ofNat 32 slab) fuel (BitVec.ofNat 32 n)
      = some (BitVec.ofNat 32 (SharixSlab.fitObjs objsize align slab n)) := by
  -- one round: the sizes are computed without a wrap-around
  have hround : ∀ {n : Nat} (fuel : Nat), n < 2 ^ 24 → n * objsize ≤ 2 ^ 22 →
      SizeT.fitObjs strict (BitVec.ofNat 32 objsize) (BitVec.ofNat 32 align)
          (BitVec.ofNat 32 slab) (fuel + 1) (BitVec.ofNat 32 n)
        = if slab < SharixSlab.slabMgmtSize n align + n * objsize then
            (sub strict (BitVec.ofNat 32 n) 1).bind (SizeT.fitObjs strict
              (BitVec.ofNat 32 objsize) (BitVec.ofNat 32 align)
              (BitVec.ofNat 32 slab) fuel)
          else some (BitVec.ofNat 32 n) := by
    intro n fuel hn hobjs
    have hmgmt := slabMgmtSize_le n align
    rw [SizeT.fitObjs, SizeT.slabMgmtSize_eq strict ha hle hn]
    show (mul strict _ _).bind _ = _
    rw [mul_ofNat strict (by omega) (by omega) (by omega), Option.bind_some]
    show (add strict _ _).bind _ = _
    rw [add_ofNat strict (by omega), Option.bind_some]
    exact if_congr (lt_ofNat (by omega) (by omega)) rfl rfl
  induction n generalizing fuel with
  | zero =>
      obtain ⟨k, rfl⟩ := Nat.exists_eq_add_of_lt hfuel
      rw [hround _ hn hobjs, if_neg (Nat.not_lt.mpr hzero)]
      rfl
  | succ n ih =>
      obtain ⟨k, rfl⟩ := Nat.exists_eq_add_of_lt hfuel
      have hless : n * objsize ≤ (n + 1) * objsize :=
        Nat.mul_le_mul_right _ (Nat.le_succ n)
      rw [hround _ hn hobjs, SharixSlab.fitObjs]
      split
      · show (sub strict _ (BitVec.ofNat 32 1)).bind _ = _
        rw [sub_ofNat strict (by omega) (by omega), Option.bind_some, Nat.add_sub_cancel]
        exact ih (by omega) (by omega) (by omega)
      · rfl

/-- The limit on the number of objects is never reached. -/
theorem SizeT.limitObjs_eq {n : Nat} (hn : n ≤ 2 ^ 22) :
    SizeT.limitObjs (BitVec.ofNat 32 n) = BitVec.ofNat 32 n := by
  refine if_neg fun h => ?_
  have h1 := (lt_ofNat (w := 32) (x := 0xFFFFFFFE) (y := n) (by omega) (by omega)).mp h
  omega

/-! ## The estimate -/

theorem slabSize_bounds {order : Nat} (h : order ≤ KMALLOC_MAX_ORDER) :
    4096 ≤ PGSIZE <<< order ∧ PGSIZE <<< order ≤ 2 ^ 22 := by
  have hpos : 0 < 2 ^ order := Nat.two_pow_pos order
  have hle : 2 ^ order ≤ 2 ^ 10 := Nat.pow_le_pow_right (by omega) h
  have hpage : PGSIZE = 4096 := rfl
  rw [Nat.shiftLeft_eq, hpage]
  omega

/-- The control area inside a slab of `n` objects. -/
def controlArea (offSlab : Bool) (align n : Nat) : Nat :=
  if offSlab then 0 else slabMgmtSize n align

/-- The guess of the branch in the slab: no larger number fits. -/
def guess (objsize slab : Nat) : Nat := (slab - sizeofSlab) / (objsize + sizeofBufctl)

theorem guess_le (objsize slab : Nat) :
    guess objsize slab * objsize + guess objsize slab * 4 ≤ slab - 24 := by
  rw [← Nat.mul_add]
  exact Nat.div_mul_le_self ..

theorem le_guess {objsize align slab k : Nat} (ha : 0 < align)
    (h : Fits objsize align slab k) : k ≤ guess objsize slab := by
  have hcontrol := le_slabMgmtSize ha k
  rw [Fits] at h
  refine (Nat.le_div_iff_mul_le (Nat.succ_pos _)).mpr ?_
  show k * (objsize + 4) ≤ slab - 24
  rw [Nat.mul_add]
  omega

/-- `nr_objs` as a number. -/
def objsIn (objsize align slab : Nat) (offSlab : Bool) : Nat :=
  if offSlab then slab / objsize
  else fitObjs objsize align slab (guess objsize slab)

theorem objsIn_le (objsize align : Nat) {slab : Nat} (offSlab : Bool) (hslab : slab ≤ 2 ^ 22) :
    objsIn objsize align slab offSlab ≤ 2 ^ 22 := by
  cases offSlab with
  | false =>
      have h1 := fitObjs_le objsize align slab (guess objsize slab)
      have h2 := guess_le objsize slab
      show fitObjs _ _ _ _ ≤ _
      omega
  | true => exact Nat.le_trans (Nat.div_le_self ..) hslab

section Estimate

variable {objsize align slab : Nat} (offSlab : Bool)

/-- Both branches find the largest number of objects that fits. -/
theorem objsIn_isGreatest (hpage : 4096 ≤ slab) (hpos : 0 < objsize) (ha : 0 < align)
    (hle : align ≤ 4096) :
    IsGreatest {k : Nat | controlArea offSlab align k + k * objsize ≤ slab}
      (objsIn objsize align slab offSlab) := by
  cases offSlab with
  | false =>
      have hzero : Fits objsize align slab 0 := by
        have := slabMgmtSize_zero ha hle
        rw [Fits]
        omega
      obtain ⟨hfits, hmax⟩ := fitObjs_largest hzero (guess objsize slab)
      exact ⟨hfits, fun k hk => hmax k (le_guess ha hk) hk⟩
  | true =>
      refine ⟨?_, fun k hk => ?_⟩
      · show 0 + slab / objsize * objsize ≤ slab
        rw [Nat.zero_add]
        exact Nat.div_mul_le_self ..
      · have hk' : 0 + k * objsize ≤ slab := hk
        rw [Nat.zero_add] at hk'
        exact (Nat.le_div_iff_mul_le hpos).mpr hk'

theorem SizeT.estimateObjs_eq (strict : Bool) (hslab : slab ≤ 2 ^ 22) (hpage : 4096 ≤ slab)
    (hpos : 0 < objsize) (hobj : objsize ≤ 2 ^ 17) (ha : 0 < align) (hle : align ≤ 4096)
    {fuel : Nat} (hfuel : guess objsize slab < fuel) :
    SizeT.estimateObjs strict fuel (BitVec.ofNat 32 slab) (BitVec.ofNat 32 objsize)
        (BitVec.ofNat 32 align) offSlab
      = some (BitVec.ofNat 32 (objsIn objsize align slab offSlab), BitVec.ofNat 32
          (controlArea offSlab align (objsIn objsize align slab offSlab))) := by
  have hlimit := objsIn_le objsize align offSlab hslab
  cases offSlab with
  | false =>
      have hguess := guess_le objsize slab
      have hzero : Fits objsize align slab 0 := by
        have := slabMgmtSize_zero ha hle
        rw [Fits]
        omega
      rw [SizeT.estimateObjs, if_neg Bool.false_ne_true]
      show (sub strict _ (BitVec.ofNat 32 24)).bind _ = _
      rw [sub_ofNat strict (by omega) (by omega), Option.bind_some]
      show (add strict _ (BitVec.ofNat 32 4)).bind _ = _
      rw [add_ofNat strict (by omega), Option.bind_some]
      show (div _ _).bind _ = _
      rw [div_ofNat (by omega) (by omega) (by omega), Option.bind_some]
      show (SizeT.fitObjs strict _ _ _ fuel (BitVec.ofNat 32 (guess objsize slab))).bind _ = _
      rw [SizeT.fitObjs_eq strict hslab (by omega) ha hle hzero (by omega) (by omega) hfuel,
        Option.bind_some]
      have hcap : SizeT.limitObjs (BitVec.ofNat 32
          (SharixSlab.fitObjs objsize align slab (guess objsize slab)))
          = BitVec.ofNat 32 (SharixSlab.fitObjs objsize align slab (guess objsize slab)) :=
        SizeT.limitObjs_eq hlimit
      have hsmall : SharixSlab.fitObjs objsize align slab (guess objsize slab) ≤ 2 ^ 22 := hlimit
      show (SizeT.slabMgmtSize strict (SizeT.limitObjs _) _).bind
        (fun mgmtSize => some (SizeT.limitObjs _, mgmtSize)) = _
      rw [hcap, SizeT.slabMgmtSize_eq strict ha hle (by omega)]
      rfl
  | true =>
      rw [SizeT.estimateObjs, if_pos rfl]
      show (div _ _).bind _ = _
      rw [div_ofNat (by omega) (by omega) hpos, Option.bind_some]
      show some (SizeT.limitObjs (BitVec.ofNat 32 (objsIn objsize align slab true)), _) = _
      rw [SizeT.limitObjs_eq hlimit]
      rfl

end Estimate

/-- The number model of `cache_estimate`, by what it finds. -/
theorem cacheEstimate_eq {order objsize align : Nat} (offSlab : Bool)
    (horder : order ≤ KMALLOC_MAX_ORDER) :
    cacheEstimate order objsize align offSlab
      = (objsIn objsize align (PGSIZE <<< order) offSlab,
          PGSIZE <<< order - objsIn objsize align (PGSIZE <<< order) offSlab * objsize
            - controlArea offSlab align
                (objsIn objsize align (PGSIZE <<< order) offSlab)) := by
  have hslab := (slabSize_bounds horder).2
  have hlimit : ∀ offSlab, min (objsIn objsize align (PGSIZE <<< order) offSlab) SLAB_LIMIT
      = objsIn objsize align (PGSIZE <<< order) offSlab := by
    intro offSlab
    refine Nat.min_eq_left (Nat.le_trans (objsIn_le objsize align offSlab hslab) ?_)
    decide
  cases offSlab with
  | false =>
      have h1 : min (fitObjs objsize align (PGSIZE <<< order)
          ((PGSIZE <<< order - sizeofSlab) / (objsize + sizeofBufctl))) SLAB_LIMIT
          = objsIn objsize align (PGSIZE <<< order) false := hlimit false
      simp only [cacheEstimate, h1]
      rfl
  | true =>
      have h1 : min (PGSIZE <<< order / objsize) SLAB_LIMIT
          = objsIn objsize align (PGSIZE <<< order) true := hlimit true
      simp only [cacheEstimate, if_true, h1]
      rfl

/-- **THE NUMBERS ARE THE WORDS**: on the machine `cache_estimate` ends, meets no
    wrap-around, and computes what `SharixSlab.cacheEstimate` does. -/
theorem SizeT.cacheEstimate_eq (strict : Bool) {fuel order objsize align : Nat}
    (offSlab : Bool) (horder : order ≤ KMALLOC_MAX_ORDER) (hpos : 0 < objsize)
    (hobj : objsize ≤ 2 ^ 17) (ha : 0 < align) (hle : align ≤ 4096)
    (hfuel : guess objsize (PGSIZE <<< order) < fuel) :
    SizeT.cacheEstimate strict fuel (BitVec.ofNat 32 order) (BitVec.ofNat 32 objsize)
        (BitVec.ofNat 32 align) offSlab
      = some (BitVec.ofNat 32 (SharixSlab.cacheEstimate order objsize align offSlab).1,
          BitVec.ofNat 32 (SharixSlab.cacheEstimate order objsize align offSlab).2) := by
  obtain ⟨hpage, hslab⟩ := slabSize_bounds horder
  have horder' : order < 2 ^ 32 := Nat.lt_of_le_of_lt horder (by decide)
  have hlimit := objsIn_le objsize align offSlab hslab
  have hfits : controlArea offSlab align _ + _ * objsize ≤ PGSIZE <<< order :=
    (objsIn_isGreatest offSlab hpage hpos ha hle).1
  rw [SharixSlab.cacheEstimate_eq offSlab horder, SizeT.cacheEstimate]
  show (shl strict (BitVec.ofNat 32 PGSIZE) _).bind _ = _
  rw [Nat.shiftLeft_eq] at *
  rw [shl_ofNat strict (by decide) horder' (Nat.lt_of_le_of_lt hslab (by omega)),
    Option.bind_some]
  show (SizeT.estimateObjs strict fuel _ _ _ _).bind _ = _
  rw [SizeT.estimateObjs_eq offSlab strict hslab hpage hpos hobj ha hle hfuel,
    Option.bind_some]
  show (mul strict _ _).bind _ = _
  rw [mul_ofNat strict (by omega) (by omega) (by omega), Option.bind_some]
  show (sub strict _ _).bind _ = _
  rw [sub_ofNat strict (by omega) (by omega), Option.bind_some]
  show (sub strict _ _).bind _ = _
  rw [sub_ofNat strict (by omega) (by omega)]
  rfl

/-- Every estimate ends without a wrap-around, with the largest number of
    objects that fits and with what is left over. -/
theorem cacheEstimate_exact {order objsize align : Size} (offSlab : Bool)
    (horder : order.toNat ≤ KMALLOC_MAX_ORDER) (hpos : 1 ≤ objsize.toNat)
    (hobj : objsize.toNat ≤ 2 ^ 17) (ha : 1 ≤ align.toNat) (hle : align.toNat ≤ PGSIZE) :
    ∃ (num remainder : Size) (n : Nat),
      (∀ strict fuel, n ≤ fuel →
        SizeT.cacheEstimate strict fuel order objsize align offSlab
          = some (num, remainder)) ∧
      (offSlab = false → ∀ strict, SizeT.slabMgmtSize strict num align
        = some (BitVec.ofNat 32 (controlArea offSlab align.toNat num.toNat))) ∧
      IsGreatest {k : Nat | controlArea offSlab align.toNat k + k * objsize.toNat
        ≤ PGSIZE <<< order.toNat} num.toNat ∧
      num.toNat * objsize.toNat + controlArea offSlab align.toNat num.toNat
        + remainder.toNat = PGSIZE <<< order.toNat := by
  obtain ⟨hpage, hslab⟩ := slabSize_bounds horder
  have hgreatest := objsIn_isGreatest offSlab hpage hpos ha hle
  have hlimit := objsIn_le objsize.toNat align.toNat offSlab hslab
  have hword : ∀ a : Size, BitVec.ofNat 32 a.toNat = a := fun a => by
    rw [BitVec.ofNat_toNat, BitVec.setWidth_eq]
  have hrun : ∀ strict fuel, guess objsize.toNat (PGSIZE <<< order.toNat) + 1 ≤ fuel → _ :=
    fun strict fuel hfuel =>
      SizeT.cacheEstimate_eq strict offSlab horder hpos hobj ha hle hfuel
  simp only [cacheEstimate_eq offSlab horder, hword] at hrun
  obtain ⟨r, hr⟩ : ∃ r, r = objsIn objsize.toNat align.toNat (PGSIZE <<< order.toNat)
    offSlab := ⟨_, rfl⟩
  rw [← hr] at hgreatest hlimit hrun
  have hfits : controlArea offSlab align.toNat r + r * objsize.toNat
      ≤ PGSIZE <<< order.toNat := hgreatest.1
  have hnum : (BitVec.ofNat 32 r).toNat = r := toNat_ofNat_of_lt (by omega)
  refine ⟨_, _, _, hrun, fun hoff strict => ?_, ?_, ?_⟩
  · have h1 := SizeT.slabMgmtSize_eq strict ha hle (show r < 2 ^ 24 by omega)
    rw [hword] at h1
    rw [h1, hnum, hoff]
    rfl
  · rw [hnum]
    exact hgreatest
  · rw [hnum, toNat_ofNat_of_lt (by omega)]
    omega

/-- Objects of 128 bytes in one page, aligned to 16. -/
theorem cacheEstimate_exact_page :
    ∃ (num remainder : Size) (n : Nat),
      (∀ strict fuel, n ≤ fuel →
        SizeT.cacheEstimate strict fuel 0 128 16 false = some (num, remainder)) ∧
      num.toNat * 128 + controlArea false 16 num.toNat + remainder.toNat = 4096 := by
  obtain ⟨num, remainder, n, hrun, -, -, hsum⟩ :=
    cacheEstimate_exact false (show (0 : Size).toNat ≤ KMALLOC_MAX_ORDER by decide)
      (show 1 ≤ (128 : Size).toNat by decide) (show (128 : Size).toNat ≤ 2 ^ 17 by decide)
      (show 1 ≤ (16 : Size).toNat by decide) (show (16 : Size).toNat ≤ PGSIZE by decide)
  exact ⟨num, remainder, n, hrun, hsum⟩

end SharixSlab
