import Mathlib.Algebra.Group.Int.Defs
import Mathlib.Algebra.Group.Nat.Defs
import Mathlib.Data.List.Perm.Subperm
import Mathlib.Logic.Function.Basic
import Mathlib.Tactic.SplitIfs

/-! # `fill_rect` — `graphic.c`

    The rectangle is cut off at the edges of the screen before it is filled.
    But a rectangle that ends left of the screen, or above it, is not turned
    away: its last column is negative, and as a `size_t` it is behind every
    column there is.  One that reaches beyond `INT_MAX` is turned away although
    it covers part of the screen.  Every other rectangle is filled as it should
    be (`fillRect_draws_iff`). -/

namespace SharixGraphic

abbrev Byte := BitVec 8
abbrev Word := BitVec 32

/-- The memory, by address. -/
abbrev Mem := Word → Byte

/-! ## The model -/

/-- What `fill_rect` reads of `binfo`.  A pixel takes three or four bytes, and
    the frame buffer is not larger than the memory. -/
structure BootInfo where
  scrnx : BitVec 16
  scrny : BitVec 16
  bitspixel : BitVec 8
  vram : Word
  depth : (bitspixel >>> 3).toNat = 3 ∨ (bitspixel >>> 3).toNat = 4
  fits : (bitspixel >>> 3).toNat * (scrnx.toNat * scrny.toNat) ≤ 2 ^ 32

structure Point where
  x : Word
  y : Word
deriving DecidableEq

structure Rect where
  p : Point
  width : Word
  height : Word

structure Rgb where
  r : Byte
  g : Byte
  b : Byte

section Fill

variable (binfo : BootInfo) (c : Rgb)

/-- The body of the inner loop. -/
def fillPixel (i j : Word) (mem : Mem) : Mem :=
  let nBppixel := (binfo.bitspixel >>> 3).setWidth 32
  let pvram := binfo.vram + nBppixel * (binfo.scrnx.setWidth 32 * i + j)
  Function.update (Function.update (Function.update mem pvram c.b) (pvram + 1) c.g)
    (pvram + 2) c.r

/-- `for (size_t j = left; j <= right; j++)`, from some `j` on. -/
def fillRow (i right : Word) : Nat → Word → Mem → Option Mem
  | 0, _, _ => none
  | fuel + 1, j, mem =>
      if j ≤ right then fillRow i right fuel (j + 1) (fillPixel binfo c i j mem)
      else some mem

/-- `for (size_t i = top; i <= bottom; i++)`, from some `i` on. -/
def fillRows (left right bottom : Word) : Nat → Word → Mem → Option Mem
  | 0, _, _ => none
  | fuel + 1, i, mem =>
      if i ≤ bottom then do
        let mem ← fillRow binfo c i right fuel left mem
        fillRows left right bottom fuel (i + 1) mem
      else some mem

def fillRect (fuel : Nat) (rect : Rect) (mem : Mem) : Option Mem :=
  let scrnx : Int := binfo.scrnx.toNat
  let scrny : Int := binfo.scrny.toNat
  let left := rect.p.x.toInt
  let right := (rect.p.x + rect.width - 1).toInt
  let top := rect.p.y.toInt
  let bottom := (rect.p.y + rect.height - 1).toInt
  if left > right ∨ top > bottom ∨ left > scrnx - 1 ∨ top > scrny - 1 then some mem
  else
    let left := if left < 0 then 0 else left
    let top := if top < 0 then 0 else top
    let right := if right > scrnx - 1 then scrnx - 1 else right
    let bottom := if bottom > scrny - 1 then scrny - 1 else bottom
    fillRows binfo c (BitVec.ofInt 32 left) (BitVec.ofInt 32 right) (BitVec.ofInt 32 bottom)
      fuel (BitVec.ofInt 32 top) mem

end Fill

/-! ## Pixels -/

/-- Quotient and remainder are unique. -/
theorem mul_add_inj {d n m k l : Nat} (hk : k < d) (hl : l < d) (h : d * n + k = d * m + l) :
    n = m ∧ k = l := by
  have hdiv := congrArg (· / d) h
  have hmod := congrArg (· % d) h
  simp only [Nat.mul_add_div (Nat.zero_lt_of_lt hk), Nat.mul_add_mod, Nat.div_eq_of_lt hk,
    Nat.div_eq_of_lt hl, Nat.mod_eq_of_lt hk, Nat.mod_eq_of_lt hl, Nat.add_zero] at hdiv hmod
  exact ⟨hdiv, hmod⟩

namespace BootInfo

variable (binfo : BootInfo)

/-- The bytes of a pixel. -/
def bpp : Nat := (binfo.bitspixel >>> 3).toNat

/-- The pixels of the screen. -/
def size : Nat := binfo.scrnx.toNat * binfo.scrny.toNat

/-- Byte `k` of pixel `n`, counted along the rows. -/
def byte (n k : Nat) : Word := binfo.vram + BitVec.ofNat 32 (binfo.bpp * n + k)

/-- The numbers of the code, as words. -/
theorem word_bpp : (binfo.bitspixel >>> 3).setWidth 32 = BitVec.ofNat 32 binfo.bpp := by
  apply BitVec.eq_of_toNat_eq
  rw [BitVec.toNat_setWidth, BitVec.toNat_ofNat, bpp]

theorem word_scrnx : binfo.scrnx.setWidth 32 = BitVec.ofNat 32 binfo.scrnx.toNat := by
  apply BitVec.eq_of_toNat_eq
  rw [BitVec.toNat_setWidth, BitVec.toNat_ofNat]

theorem three_le_bpp : 3 ≤ binfo.bpp := by
  have := binfo.depth
  unfold bpp
  omega

/-- The frame buffer does not wrap around the memory. -/
theorem offset_lt {n k : Nat} (hn : n < binfo.size) (hk : k < binfo.bpp) :
    binfo.bpp * n + k < 2 ^ 32 :=
  calc binfo.bpp * n + k < binfo.bpp * n + binfo.bpp := Nat.add_lt_add_left hk _
    _ = binfo.bpp * (n + 1) := (Nat.mul_succ ..).symm
    _ ≤ binfo.bpp * binfo.size := Nat.mul_le_mul_left _ hn
    _ ≤ 2 ^ 32 := binfo.fits

/-- Two bytes of the frame buffer are one only if they are the same of the same
    pixel. -/
theorem byte_inj {n m k l : Nat} (hn : n < binfo.size) (hm : m < binfo.size)
    (hk : k < binfo.bpp) (hl : l < binfo.bpp) (h : binfo.byte n k = binfo.byte m l) :
    n = m ∧ k = l := by
  have heq : binfo.bpp * n + k = binfo.bpp * m + l := by
    have h := congrArg BitVec.toNat ((BitVec.add_right_inj _).mp h)
    rwa [BitVec.toNat_ofNat, BitVec.toNat_ofNat, Nat.mod_eq_of_lt (binfo.offset_lt hn hk),
      Nat.mod_eq_of_lt (binfo.offset_lt hm hl)] at h
  exact mul_add_inj hk hl heq

end BootInfo

/-- The bytes of a colour in memory. -/
def Rgb.channel (c : Rgb) : Nat → Byte
  | 0 => c.b
  | 1 => c.g
  | _ => c.r

/-- The pixels `P` have been given the colour, and no other byte has changed. -/
structure Painted (binfo : BootInfo) (c : Rgb) (P : Nat → Prop) (mem mem' : Mem) : Prop where
  inside : ∀ n, P n → ∀ k, k < 3 → mem' (binfo.byte n k) = c.channel k
  outside : ∀ a, (∀ n, P n → ∀ k, k < 3 → a ≠ binfo.byte n k) → mem' a = mem a

theorem Painted.none {binfo : BootInfo} {c : Rgb} {P : Nat → Prop} (h : ∀ n, ¬ P n) (mem : Mem) :
    Painted binfo c P mem mem :=
  ⟨fun n hn => absurd hn (h n), fun _ _ => rfl⟩

theorem Painted.congr {binfo : BootInfo} {c : Rgb} {P Q : Nat → Prop} {mem mem' : Mem}
    (hPQ : ∀ n, P n ↔ Q n) (h : Painted binfo c P mem mem') : Painted binfo c Q mem mem' :=
  ⟨fun n hn => h.inside n ((hPQ n).mpr hn),
    fun a ha => h.outside a fun n hn => ha n ((hPQ n).mp hn)⟩

/-- One after the other. -/
theorem Painted.trans {binfo : BootInfo} {c : Rgb} {P Q : Nat → Prop} {mem mem₁ mem' : Mem}
    (h : Painted binfo c P mem mem₁) (h' : Painted binfo c Q mem₁ mem')
    (hP : ∀ n, P n → n < binfo.size) (hQ : ∀ n, Q n → n < binfo.size) :
    Painted binfo c (fun n => P n ∨ Q n) mem mem' := by
  have h3 := binfo.three_le_bpp
  constructor
  · intro n hn k hk
    by_cases hq : Q n
    · exact h'.inside n hq k hk
    · have hp := hn.resolve_right hq
      rw [h'.outside, h.inside n hp k hk]
      intro m hm l hl heq
      obtain ⟨rfl, -⟩ := binfo.byte_inj (hP n hp) (hQ m hm) (Nat.lt_of_lt_of_le hk h3)
        (Nat.lt_of_lt_of_le hl h3) heq
      exact hq hm
  · intro a ha
    rw [h'.outside a fun n hn => ha n (.inr hn), h.outside a fun n hn => ha n (.inl hn)]

/-! ## The loops -/

section Fill

variable (binfo : BootInfo) (c : Rgb)

/-- The three bytes the body of the loop writes. -/
theorem fillPixel_eq (n : Nat) {i j : Word}
    (h : binfo.scrnx.setWidth 32 * i + j = BitVec.ofNat 32 n) (mem : Mem) :
    fillPixel binfo c i j mem = Function.update (Function.update
      (Function.update mem (binfo.byte n 0) c.b) (binfo.byte n 1) c.g) (binfo.byte n 2) c.r := by
  have hbyte : ∀ k, binfo.byte n k = binfo.vram + BitVec.ofNat 32 binfo.bpp * BitVec.ofNat 32 n
      + BitVec.ofNat 32 k := by
    intro k
    rw [BootInfo.byte, BitVec.ofNat_add, BitVec.ofNat_mul, BitVec.add_assoc]
  rw [fillPixel, binfo.word_bpp, h, hbyte, hbyte, hbyte]
  simp only [BitVec.ofNat_eq_ofNat, BitVec.add_zero]

/-- A pixel of the screen is given its colour. -/
theorem fillPixel_painted {n : Nat} (hn : n < binfo.size) {i j : Word}
    (h : binfo.scrnx.setWidth 32 * i + j = BitVec.ofNat 32 n) (mem : Mem) :
    Painted binfo c (· = n) mem (fillPixel binfo c i j mem) := by
  have h3 := binfo.three_le_bpp
  have hne : ∀ k l, k < 3 → l < 3 → k ≠ l → binfo.byte n k ≠ binfo.byte n l :=
    fun k l hk hl hkl heq => hkl (binfo.byte_inj hn hn (by omega) (by omega) heq).2
  rw [fillPixel_eq binfo c n h]
  constructor
  · rintro m rfl k hk
    match k, hk with
    | 0, _ =>
        rw [Function.update_of_ne (hne 0 2 (by decide) (by decide) (by decide)),
          Function.update_of_ne (hne 0 1 (by decide) (by decide) (by decide)),
          Function.update_self]
        rfl
    | 1, _ =>
        rw [Function.update_of_ne (hne 1 2 (by decide) (by decide) (by decide)),
          Function.update_self]
        rfl
    | 2, _ =>
        rw [Function.update_self]
        rfl
  · intro a ha
    rw [Function.update_of_ne (ha n rfl 2 (by decide)),
      Function.update_of_ne (ha n rfl 1 (by decide)),
      Function.update_of_ne (ha n rfl 0 (by decide))]

/-- The number of a pixel, as the loops compute it. -/
theorem pixel_index (Y X : Nat) :
    binfo.scrnx.setWidth 32 * BitVec.ofNat 32 Y + BitVec.ofNat 32 X
      = BitVec.ofNat 32 (binfo.scrnx.toNat * Y + X) := by
  rw [binfo.word_scrnx, BitVec.ofNat_add, BitVec.ofNat_mul]

/-- A pixel in a row and a column of the screen is one of its pixels. -/
theorem pixel_lt_size {Y X : Nat} (hY : Y < binfo.scrny.toNat) (hX : X < binfo.scrnx.toNat) :
    binfo.scrnx.toNat * Y + X < binfo.size :=
  calc binfo.scrnx.toNat * Y + X < binfo.scrnx.toNat * Y + binfo.scrnx.toNat :=
        Nat.add_lt_add_left hX _
    _ = binfo.scrnx.toNat * (Y + 1) := (Nat.mul_succ ..).symm
    _ ≤ binfo.size := Nat.mul_le_mul_left _ hY

theorem ofNat_le_iff {m n : Nat} (hm : m < 2 ^ 32) (hn : n < 2 ^ 32) :
    BitVec.ofNat 32 m ≤ BitVec.ofNat 32 n ↔ m ≤ n := by
  rw [BitVec.le_def, BitVec.toNat_ofNat, BitVec.toNat_ofNat, Nat.mod_eq_of_lt hm,
    Nat.mod_eq_of_lt hn]

/-- A row from column `j` to column `right`. -/
theorem fillRow_painted {Y right : Nat} (hY : Y < binfo.scrny.toNat)
    (hright : right < binfo.scrnx.toNat) : ∀ {k j : Nat} {mem : Mem}, j + k = right + 1 →
    ∃ mem', (∀ fuel, k < fuel → fillRow binfo c (BitVec.ofNat 32 Y) (BitVec.ofNat 32 right) fuel
        (BitVec.ofNat 32 j) mem = some mem') ∧
      Painted binfo c (fun n => ∃ X, j ≤ X ∧ X ≤ right ∧ n = binfo.scrnx.toNat * Y + X) mem
        mem' := by
  have hscrnx := binfo.scrnx.isLt
  have hle : ∀ j, j ≤ right + 1 → (BitVec.ofNat 32 j ≤ BitVec.ofNat 32 right ↔ j ≤ right) :=
    fun j hj => ofNat_le_iff (by omega) (by omega)
  intro k
  induction k with
  | zero =>
      intro j mem hj
      refine ⟨mem, fun fuel hf => ?_, .none (fun n => ?_) mem⟩
      · obtain ⟨fuel, rfl⟩ := Nat.exists_eq_succ_of_ne_zero (Nat.ne_of_gt hf)
        rw [fillRow, if_neg fun h => ?_]
        have := (hle j (by omega)).mp h
        omega
      · rintro ⟨X, h1, h2, -⟩
        omega
  | succ k ih =>
      intro j mem hj
      have hpixel := fillPixel_painted binfo c (pixel_lt_size binfo hY (by omega : j < _))
        (pixel_index binfo Y j) mem
      obtain ⟨mem', hrun, hpaint⟩ := @ih (j + 1)
        (fillPixel binfo c (BitVec.ofNat 32 Y) (BitVec.ofNat 32 j) mem) (by omega)
      refine ⟨mem', fun fuel hf => ?_, (hpixel.trans hpaint ?_ ?_).congr fun n => ?_⟩
      · obtain ⟨fuel, rfl⟩ := Nat.exists_eq_succ_of_ne_zero (Nat.ne_of_gt
          (Nat.lt_of_le_of_lt (Nat.zero_le _) hf))
        rw [fillRow, if_pos ((hle j (by omega)).mpr (by omega)), ← hrun fuel (by omega),
          BitVec.ofNat_add]
        rfl
      · rintro n rfl
        exact pixel_lt_size binfo hY (by omega)
      · rintro n ⟨X, -, h2, rfl⟩
        exact pixel_lt_size binfo hY (by omega)
      · constructor
        · rintro (rfl | ⟨X, h1, h2, rfl⟩)
          · exact ⟨j, Nat.le_refl _, by omega, rfl⟩
          · exact ⟨X, by omega, h2, rfl⟩
        · rintro ⟨X, h1, h2, rfl⟩
          rcases Nat.eq_or_lt_of_le h1 with rfl | hlt
          · exact .inl rfl
          · exact .inr ⟨X, hlt, h2, rfl⟩

/-- The rows from row `i` to row `bottom`. -/
theorem fillRows_painted {left right bottom : Nat} (hleft : left ≤ right)
    (hright : right < binfo.scrnx.toNat) (hbottom : bottom < binfo.scrny.toNat) :
    ∀ {k i : Nat} {mem : Mem}, i + k = bottom + 1 →
    ∃ mem', (∀ fuel, right + k + 1 < fuel → fillRows binfo c (BitVec.ofNat 32 left)
        (BitVec.ofNat 32 right) (BitVec.ofNat 32 bottom) fuel (BitVec.ofNat 32 i) mem
          = some mem') ∧
      Painted binfo c (fun n => ∃ Y X, i ≤ Y ∧ Y ≤ bottom ∧ left ≤ X ∧ X ≤ right ∧
        n = binfo.scrnx.toNat * Y + X) mem mem' := by
  have hscrny := binfo.scrny.isLt
  have hle : ∀ i, i ≤ bottom + 1 → (BitVec.ofNat 32 i ≤ BitVec.ofNat 32 bottom ↔ i ≤ bottom) :=
    fun i hi => ofNat_le_iff (by omega) (by omega)
  intro k
  induction k with
  | zero =>
      intro i mem hi
      refine ⟨mem, fun fuel hf => ?_, .none (fun n => ?_) mem⟩
      · obtain ⟨fuel, rfl⟩ := Nat.exists_eq_succ_of_ne_zero (Nat.ne_of_gt
          (Nat.lt_of_le_of_lt (Nat.zero_le _) hf))
        rw [fillRows, if_neg fun h => ?_]
        have := (hle i (by omega)).mp h
        omega
      · rintro ⟨Y, X, h1, h2, -⟩
        omega
  | succ k ih =>
      intro i mem hi
      have hi' : i < binfo.scrny.toNat := by omega
      obtain ⟨mem₁, hrow, hpaint₁⟩ := @fillRow_painted binfo c i right hi' hright
        (right + 1 - left) left mem (by omega)
      obtain ⟨mem', hrun, hpaint⟩ := @ih (i + 1) mem₁ (by omega)
      refine ⟨mem', fun fuel hf => ?_, (hpaint₁.trans hpaint ?_ ?_).congr fun n => ?_⟩
      · obtain ⟨fuel, rfl⟩ := Nat.exists_eq_succ_of_ne_zero (Nat.ne_of_gt
          (Nat.lt_of_le_of_lt (Nat.zero_le _) hf))
        rw [fillRows, if_pos ((hle i (by omega)).mpr (by omega)), hrow fuel (by omega),
          Option.bind_eq_bind, Option.bind_some, ← hrun fuel (by omega), BitVec.ofNat_add]
        rfl
      · rintro n ⟨X, -, h2, rfl⟩
        exact pixel_lt_size binfo hi' (by omega)
      · rintro n ⟨Y, X, -, h2, -, h4, rfl⟩
        exact pixel_lt_size binfo (by omega) (by omega)
      · constructor
        · rintro (⟨X, h1, h2, rfl⟩ | ⟨Y, X, h1, h2, h3, h4, rfl⟩)
          · exact ⟨i, X, Nat.le_refl _, by omega, h1, h2, rfl⟩
          · exact ⟨Y, X, by omega, h2, h3, h4, rfl⟩
        · rintro ⟨Y, X, h1, h2, h3, h4, rfl⟩
          rcases Nat.eq_or_lt_of_le h1 with rfl | hlt
          · exact .inl ⟨X, h3, h4, rfl⟩
          · exact .inr ⟨Y, X, hlt, h2, h3, h4, rfl⟩

/-! ## What is written stays -/

/-- The byte has one of the three values that are written. -/
def Tinted (a : Word) (mem : Mem) : Prop := mem a ∈ [c.b, c.g, c.r]

theorem Tinted.update {a : Word} {mem : Mem} (h : Tinted c a mem) (a' : Word) {v : Byte}
    (hv : v ∈ [c.b, c.g, c.r]) : Tinted c a (Function.update mem a' v) := by
  unfold Tinted
  by_cases ha : a = a'
  · rw [ha, Function.update_self]
    exact hv
  · rw [Function.update_of_ne ha]
    exact h

theorem Tinted.fillPixel {a : Word} {mem : Mem} (h : Tinted c a mem) (i j : Word) :
    Tinted c a (fillPixel binfo c i j mem) :=
  ((h.update c _ (by simp)).update c _ (by simp)).update c _ (by simp)

/-- The first byte of the pixel. -/
theorem tinted_fillPixel (i j : Word) (mem : Mem) :
    Tinted c (binfo.vram + (binfo.bitspixel >>> 3).setWidth 32 * (binfo.scrnx.setWidth 32 * i + j))
      (fillPixel binfo c i j mem) := by
  refine ((show Tinted c _ (Function.update mem _ c.b) from ?_).update c _ (by simp)).update c _
    (by simp)
  unfold Tinted
  rw [Function.update_self]
  exact List.mem_cons_self ..

theorem Tinted.fillRow {a i right : Word} : ∀ {fuel : Nat} {j : Word} {mem mem' : Mem},
    fillRow binfo c i right fuel j mem = some mem' → Tinted c a mem → Tinted c a mem' := by
  intro fuel
  induction fuel with
  | zero => exact fun h => nomatch h
  | succ fuel ih =>
      intro j mem mem' hrun h
      rw [SharixGraphic.fillRow] at hrun
      split at hrun
      · exact ih hrun (h.fillPixel binfo c i j)
      · exact Option.some.inj hrun ▸ h

theorem Tinted.fillRows {a left right bottom : Word} :
    ∀ {fuel : Nat} {i : Word} {mem mem' : Mem},
    fillRows binfo c left right bottom fuel i mem = some mem' → Tinted c a mem →
      Tinted c a mem' := by
  intro fuel
  induction fuel with
  | zero => exact fun h => nomatch h
  | succ fuel ih =>
      intro i mem mem' hrun h
      rw [SharixGraphic.fillRows] at hrun
      split at hrun
      · obtain ⟨mem₁, hrow, hrest⟩ := Option.bind_eq_some_iff.mp hrun
        exact ih hrest (h.fillRow binfo c hrow)
      · exact Option.some.inj hrun ▸ h

/-- If the loops are entered at all, the first pixel is written. -/
theorem fillRows_first {left right top bottom : Word} (hrows : top ≤ bottom)
    (hcols : left ≤ right) {fuel : Nat} {mem mem' : Mem}
    (hrun : fillRows binfo c left right bottom fuel top mem = some mem') :
    Tinted c (binfo.vram + (binfo.bitspixel >>> 3).setWidth 32
      * (binfo.scrnx.setWidth 32 * top + left)) mem' := by
  cases fuel with
  | zero => exact nomatch hrun
  | succ fuel =>
      rw [fillRows, if_pos hrows] at hrun
      obtain ⟨mem₁, hrow, hrest⟩ := Option.bind_eq_some_iff.mp hrun
      refine Tinted.fillRows binfo c hrest ?_
      cases fuel with
      | zero => exact nomatch hrow
      | succ fuel =>
          rw [fillRow, if_pos hcols] at hrow
          exact Tinted.fillRow binfo c hrow (tinted_fillPixel binfo c top left mem)

end Fill

/-! ## The pixels of the rectangle on the screen -/

/-- The pixel in column `X` and row `Y` is on the screen and in the rectangle. -/
structure Common (binfo : BootInfo) (rect : Rect) (X Y : Nat) : Prop where
  scrnx : X < binfo.scrnx.toNat
  scrny : Y < binfo.scrny.toNat
  left : rect.p.x.toInt ≤ X
  right : (X : Int) < rect.p.x.toInt + rect.width.toNat
  top : rect.p.y.toInt ≤ Y
  bottom : (Y : Int) < rect.p.y.toInt + rect.height.toNat

/-- From any memory `fill_rect` returns, and has given the pixels of the
    rectangle on the screen the colour and left every other byte alone. -/
def Draws (binfo : BootInfo) (rect : Rect) (c : Rgb) : Prop :=
  ∀ mem, ∃ n mem', (∀ fuel, n ≤ fuel → fillRect binfo c fuel rect mem = some mem') ∧
    (∀ X Y, Common binfo rect X Y → ∀ k, k < 3 →
      mem' (binfo.byte (binfo.scrnx.toNat * Y + X) k) = c.channel k) ∧
    ∀ a, (∀ X Y, Common binfo rect X Y → ∀ k, k < binfo.bpp →
      a ≠ binfo.byte (binfo.scrnx.toNat * Y + X) k) → mem' a = mem a

/-- The rectangle covers some of the screen. -/
def Meets (binfo : BootInfo) (rect : Rect) : Prop := ∃ X Y, Common binfo rect X Y

/-- Along one axis: the rectangle begins behind the screen, its last column or
    row is beyond `INT_MAX`, or it has none. -/
def Outside (scrn : Nat) (x w : Word) : Prop :=
  (scrn : Int) ≤ x.toInt ∨ 2 ^ 31 ≤ x.toInt + w.toNat - 1 ∨ (w.toNat = 0 ∧ x.toInt ≠ -2 ^ 31)

/-- The rectangles that are turned away. -/
def Rejected (binfo : BootInfo) (rect : Rect) : Prop :=
  Outside binfo.scrnx.toNat rect.p.x rect.width ∨
    Outside binfo.scrny.toNat rect.p.y rect.height

/-! ## The test -/

/-- The last column, as an `int`. -/
theorem last_eq (x : Word) {w : Word} (hw : w.toNat < 2 ^ 31) :
    (x + w - 1).toInt = if 2 ^ 31 ≤ x.toInt + w.toNat - 1 then x.toInt + w.toNat - 1 - 2 ^ 32
      else if x.toInt + w.toNat - 1 < -2 ^ 31 then x.toInt + w.toNat - 1 + 2 ^ 32
      else x.toInt + w.toNat - 1 := by
  have h1 := BitVec.toInt_lt (x := x)
  have h2 := BitVec.le_toInt x
  have hone : (1 : Word).toInt = 1 := by decide
  rw [BitVec.toInt_sub, BitVec.toInt_add, BitVec.toInt_eq_toNat_of_lt (x := w) (by omega), hone,
    Int.bmod_sub_bmod]
  simp only [Int.bmod_def]
  omega

/-- One half of the test, along an axis. -/
theorem outside_iff {scrn : Nat} {x w : Word} (hw : w.toNat < 2 ^ 31) :
    Outside scrn x w ↔ x.toInt > (x + w - 1).toInt ∨ x.toInt > (scrn : Int) - 1 := by
  have h1 := BitVec.toInt_lt (x := x)
  have h2 := BitVec.le_toInt x
  rw [last_eq x hw, Outside]
  split_ifs <;> omega

theorem rejected_iff {binfo : BootInfo} {rect : Rect} (hw : rect.width.toNat < 2 ^ 31)
    (hh : rect.height.toNat < 2 ^ 31) :
    Rejected binfo rect ↔ rect.p.x.toInt > (rect.p.x + rect.width - 1).toInt ∨
      rect.p.y.toInt > (rect.p.y + rect.height - 1).toInt ∨
      rect.p.x.toInt > (binfo.scrnx.toNat : Int) - 1 ∨
      rect.p.y.toInt > (binfo.scrny.toNat : Int) - 1 := by
  rw [Rejected, outside_iff hw, outside_iff hh]
  omega

/-- The bounds of an axis, cut off at the edges of the screen. -/
def clipFirst (x : Word) : Int := if x.toInt < 0 then 0 else x.toInt

def clipLast (scrn : Nat) (x w : Word) : Int :=
  if (x + w - 1).toInt > (scrn : Int) - 1 then (scrn : Int) - 1 else (x + w - 1).toInt

theorem fillRect_rejected {binfo : BootInfo} {rect : Rect} (hw : rect.width.toNat < 2 ^ 31)
    (hh : rect.height.toNat < 2 ^ 31) (h : Rejected binfo rect) (c : Rgb) (fuel : Nat) (mem : Mem) :
    fillRect binfo c fuel rect mem = some mem :=
  if_pos ((rejected_iff hw hh).mp h)

theorem fillRect_accepted {binfo : BootInfo} {rect : Rect} (hw : rect.width.toNat < 2 ^ 31)
    (hh : rect.height.toNat < 2 ^ 31) (h : ¬ Rejected binfo rect) (c : Rgb) (fuel : Nat)
    (mem : Mem) :
    fillRect binfo c fuel rect mem
      = fillRows binfo c (BitVec.ofInt 32 (clipFirst rect.p.x))
          (BitVec.ofInt 32 (clipLast binfo.scrnx.toNat rect.p.x rect.width))
          (BitVec.ofInt 32 (clipLast binfo.scrny.toNat rect.p.y rect.height)) fuel
          (BitVec.ofInt 32 (clipFirst rect.p.y)) mem :=
  if_neg fun ht => h ((rejected_iff hw hh).mpr ht)

/-- Once cut off, the first column is not behind the last one; a negative last
    column is behind all others. -/
theorem clip_le {scrn : Nat} (hscrn : scrn < 2 ^ 16) {x w : Word}
    (h : ¬ (x.toInt > (x + w - 1).toInt ∨ x.toInt > (scrn : Int) - 1)) :
    BitVec.ofInt 32 (clipFirst x) ≤ BitVec.ofInt 32 (clipLast scrn x w) := by
  have h1 := BitVec.toInt_lt (x := x)
  have h2 := BitVec.le_toInt (x + w - 1)
  rw [BitVec.le_def, BitVec.toNat_ofInt, BitVec.toNat_ofInt, clipFirst, clipLast]
  split_ifs <;> omega

/-- Where the rectangle covers some of the screen, its columns there are those
    between the bounds. -/
theorem clip_eq {scrn : Nat} (hscrn : scrn < 2 ^ 16) {x w : Word} (hw : w.toNat < 2 ^ 31)
    (h : ¬ Outside scrn x w) {X : Nat} (hX : X < scrn) (hleft : x.toInt ≤ X)
    (hright : (X : Int) < x.toInt + w.toNat) :
    ∃ first last : Nat, clipFirst x = first ∧ clipLast scrn x w = last ∧ first ≤ last ∧
      last < scrn ∧ ∀ Z : Nat, first ≤ Z ∧ Z ≤ last ↔
        Z < scrn ∧ x.toInt ≤ Z ∧ (Z : Int) < x.toInt + w.toNat := by
  have h1 := BitVec.toInt_lt (x := x)
  have h2 := BitVec.le_toInt x
  rw [Outside, not_or, not_or] at h
  unfold clipFirst clipLast
  rw [last_eq x hw]
  refine ⟨_, _, (Int.toNat_of_nonneg ?_).symm, (Int.toNat_of_nonneg ?_).symm, ?_, ?_, fun Z => ?_⟩
    <;> split_ifs <;> omega

/-! ## When the rectangle is drawn -/

/-- Some byte is none of the three of a colour. -/
theorem exists_other (c : Rgb) : ∃ v, v ∉ [c.b, c.g, c.r] := by
  have hnodup : ([0, 1, 2, 3] : List Byte).Nodup := by decide
  refine not_forall_not.mp fun hall => ?_
  have hsub : ([0, 1, 2, 3] : List Byte) ⊆ [c.b, c.g, c.r] := fun v _ =>
    Decidable.not_not.mp (hall v)
  have hlen : 4 ≤ 3 := (List.subperm_of_subset hnodup hsub).length_le
  exact absurd hlen (by decide)

section Draws

variable {binfo : BootInfo} {rect : Rect} (hw : rect.width.toNat < 2 ^ 31)
  (hh : rect.height.toNat < 2 ^ 31) (c : Rgb)
include hw hh

theorem draws_of_meets (hmeets : Meets binfo rect) (h : ¬ Rejected binfo rect) :
    Draws binfo rect c := by
  intro mem
  obtain ⟨X₀, Y₀, hcommon⟩ := hmeets
  obtain ⟨hcols, hrows⟩ := not_or.mp h
  obtain ⟨left, right, hl, hr, hle, hlt, hmem⟩ := clip_eq binfo.scrnx.isLt hw hcols
    hcommon.scrnx hcommon.left hcommon.right
  obtain ⟨top, bottom, ht, hb, hle', hlt', hmem'⟩ := clip_eq binfo.scrny.isLt hh hrows
    hcommon.scrny hcommon.top hcommon.bottom
  obtain ⟨mem', hrun, hpaint⟩ := @fillRows_painted binfo c left right bottom hle hlt hlt'
    (bottom + 1 - top) top mem (by omega)
  have hiff : ∀ X Y, Common binfo rect X Y ↔
      top ≤ Y ∧ Y ≤ bottom ∧ left ≤ X ∧ X ≤ right := by
    intro X Y
    constructor
    · intro hc
      obtain ⟨h1, h2⟩ := (hmem X).mpr ⟨hc.scrnx, hc.left, hc.right⟩
      obtain ⟨h3, h4⟩ := (hmem' Y).mpr ⟨hc.scrny, hc.top, hc.bottom⟩
      exact ⟨h3, h4, h1, h2⟩
    · rintro ⟨h3, h4, h1, h2⟩
      obtain ⟨hx, hx1, hx2⟩ := (hmem X).mp ⟨h1, h2⟩
      obtain ⟨hy, hy1, hy2⟩ := (hmem' Y).mp ⟨h3, h4⟩
      exact ⟨hx, hy, hx1, hx2, hy1, hy2⟩
  refine ⟨right + bottom + 3, mem', fun fuel hf => ?_, fun X Y hc k hk => ?_, fun a ha => ?_⟩
  · rw [fillRect_accepted hw hh h, hl, hr, ht, hb]
    simp only [BitVec.ofInt_natCast]
    exact hrun fuel (by omega)
  · obtain ⟨h1, h2, h3, h4⟩ := (hiff X Y).mp hc
    exact hpaint.inside _ ⟨Y, X, h1, h2, h3, h4, rfl⟩ k hk
  · refine hpaint.outside a ?_
    rintro n ⟨Y, X, h1, h2, h3, h4, rfl⟩ k hk
    exact ha X Y ((hiff X Y).mpr ⟨h1, h2, h3, h4⟩) k
      (Nat.lt_of_lt_of_le hk binfo.three_le_bpp)

/-- What ends before the screen is not turned away, and some pixel is written. -/
theorem not_draws_of_accepted (hmeets : ¬ Meets binfo rect) (h : ¬ Rejected binfo rect) :
    ¬ Draws binfo rect c := by
  intro hdraws
  obtain ⟨v, hv⟩ := exists_other c
  obtain ⟨n, mem', hrun, -, hframe⟩ := hdraws fun _ => v
  obtain ⟨hcols, hrows⟩ := not_or.mp h
  have hfill := hrun n (Nat.le_refl n)
  rw [fillRect_accepted hw hh h] at hfill
  rw [outside_iff hw] at hcols
  rw [outside_iff hh] at hrows
  have htint := fillRows_first binfo c (clip_le binfo.scrny.isLt hrows)
    (clip_le binfo.scrnx.isLt hcols) hfill
  unfold Tinted at htint
  rw [hframe _ fun X Y hc => absurd ⟨X, Y, hc⟩ hmeets] at htint
  exact hv htint

/-- What is turned away leaves the screen as it was. -/
theorem not_draws_of_rejected (hmeets : Meets binfo rect) (h : Rejected binfo rect) :
    ¬ Draws binfo rect c := by
  intro hdraws
  obtain ⟨v, hv⟩ := exists_other c
  obtain ⟨n, mem', hrun, hpaint, -⟩ := hdraws fun _ => v
  obtain ⟨X, Y, hcommon⟩ := hmeets
  have hsame := hrun n (Nat.le_refl n)
  rw [fillRect_rejected hw hh h] at hsame
  have hbyte := hpaint X Y hcommon 0 (by decide)
  rw [← Option.some.inj hsame] at hbyte
  have hblue : v = c.b := hbyte
  exact hv (hblue ▸ List.mem_cons_self ..)

theorem draws_of_rejected (hmeets : ¬ Meets binfo rect) (h : Rejected binfo rect) :
    Draws binfo rect c := fun mem =>
  ⟨0, mem, fun fuel _ => fillRect_rejected hw hh h c fuel mem,
    fun X Y hc => absurd ⟨X, Y, hc⟩ hmeets, fun _ _ => rfl⟩

/-- **WHICH RECTANGLES ARE FILLED**: with any screen, colour and memory the
    pixels of the rectangle on the screen are given the colour, and nothing else
    is written, exactly if the rectangle is turned away where it covers nothing
    of the screen, and only there. -/
theorem fillRect_draws_iff : Draws binfo rect c ↔ (Meets binfo rect ↔ ¬ Rejected binfo rect) := by
  by_cases hmeets : Meets binfo rect
  · by_cases h : Rejected binfo rect
    · -- its last column or row is beyond `INT_MAX`
      exact iff_of_false (not_draws_of_rejected hw hh c hmeets h) fun hiff => hiff.mp hmeets h
    · exact iff_of_true (draws_of_meets hw hh c hmeets h) (iff_of_true hmeets h)
  · by_cases h : Rejected binfo rect
    · exact iff_of_true (draws_of_rejected hw hh c hmeets h)
        (iff_of_false hmeets (not_not_intro h))
    · -- it ends left of the screen or above it
      exact iff_of_false (not_draws_of_accepted hw hh c hmeets h) fun hiff => hmeets (hiff.mpr h)

end Draws

/-- 1024 by 768 pixels of three bytes. -/
def vbeScreen : BootInfo := ⟨1024, 768, 24, 0xE0000000, by decide, by decide⟩

/-- A square of ten pixels, half of it left of the screen. -/
def halfOut : Rect := ⟨⟨BitVec.ofInt 32 (-5), 100⟩, 10, 10⟩

theorem fillRect_draws_iff_halfOut : Draws vbeScreen halfOut ⟨255, 0, 0⟩ ↔
    (Meets vbeScreen halfOut ↔ ¬ Rejected vbeScreen halfOut) :=
  fillRect_draws_iff (by decide) (by decide) ⟨255, 0, 0⟩

/-- Not every rectangle is drawn: one column left of the screen the loop over
    the columns has no end. -/
theorem not_fillRect_draws : ¬ ∀ binfo rect c, rect.width.toNat < 2 ^ 31 →
    rect.height.toNat < 2 ^ 31 → Draws binfo rect c := by
  intro h
  have hmeets : ¬ Meets vbeScreen ⟨⟨BitVec.ofInt 32 (-1), 0⟩, 1, 1⟩ := by
    rintro ⟨X, Y, hcommon⟩
    have hright := hcommon.right
    have hlast : (BitVec.ofInt 32 (-1)).toInt + ((1 : Word).toNat : Int) = 0 := by decide
    rw [hlast] at hright
    omega
  have hrejected : ¬ Rejected vbeScreen ⟨⟨BitVec.ofInt 32 (-1), 0⟩, 1, 1⟩ := by
    rw [rejected_iff (by decide) (by decide)]
    decide
  exact not_draws_of_accepted (by decide) (by decide) ⟨0, 0, 0⟩ hmeets hrejected
    (h _ _ _ (by decide) (by decide))

end SharixGraphic
