import Mathlib.Data.Int.ModEq
import Sharix.FillRectProofs
import Sharix.WritesProofs

/-! # `draw_bitmap` — `graphic.c`

    The bitmap is cut off at the rectangle, and then at the right and the lower
    edge of the screen.  Where it reaches beyond such an edge the last column,
    or row, of the screen is lost; a corner left of the screen, or above it, is
    not looked at, and the bytes before the screen are written; and the length
    of a row is computed in 32 bits.  Every other bitmap is copied as it should
    be (`drawBitmap_copies_iff`).

    The route: the loops are a row of writes (`drawBitmap_runs`), and one write
    too many or too few is found on each path through the cuts. -/

namespace SharixGraphic

open SharixWrites

/-! ## The model -/

/-- What `draw_bitmap` reads of a `bitmap_t` at an address; `data` are the bytes
    from `bf_offset_bits` on, which are no part of the memory that is drawn to. -/
structure Bitmap where
  addr : Word
  biWidth : Word
  biHeight : Word
  biBitCount : BitVec 16
  data : Word → Byte

/-- `abs`, of an `int32_t`. -/
def absInt (x : Word) : Word := if x.toInt > 0 then x else -x

/-- `if (x0 + width > scrnx) width = scrnx - x0 - 1;` -/
def clip (scrn x0 width : Word) : Word := if x0 + width > scrn then scrn - x0 - 1 else width

/-- `((width * nbit + 31) >> 5) << 2` -/
def lineBytes (width nbit : Word) : Word := ((width * nbit + 31) >>> 5) <<< 2

section Draw

variable (binfo : BootInfo) (data : Word → Byte) (nBpline x0 y0 : Word)

/-- The body of the inner loop. -/
def copyPixel (i j : Word) (mem : Mem) : Mem :=
  let nBppixel := (binfo.bitspixel >>> 3).setWidth 32
  let pvram := binfo.vram + nBppixel * (binfo.scrnx.setWidth 32 * (y0 + j) + x0 + i)
  let pdata := nBpline * j + i * 3
  Function.update (Function.update (Function.update mem pvram (data pdata)) (pvram + 1)
    (data (pdata + 1))) (pvram + 2) (data (pdata + 2))

/-- `for (size_t j = 0; j < height; j++)`, from some `j` on. -/
def drawColumn (i height : Word) : Nat → Word → Mem → Option Mem
  | 0, _, _ => none
  | fuel + 1, j, mem =>
      if j < height then
        drawColumn i height fuel (j + 1) (copyPixel binfo data nBpline x0 y0 i j mem)
      else some mem

/-- `for (size_t i = 0; i < width; i++)`, from some `i` on. -/
def drawColumns (width height : Word) : Nat → Word → Mem → Option Mem
  | 0, _, _ => none
  | fuel + 1, i, mem =>
      if i < width then do
        let mem ← drawColumn binfo data nBpline x0 y0 i height fuel 0 mem
        drawColumns width height fuel (i + 1) mem
      else some mem

end Draw

def drawBitmap (binfo : BootInfo) (fuel : Nat) (rect : Rect) (bmp : Bitmap) (mem : Mem) :
    Option Mem :=
  let nbit := bmp.biBitCount.setWidth 32
  if nbit ≠ 24 then some mem
  else
    let width := absInt bmp.biWidth
    let height := absInt bmp.biHeight
    let nBpline := lineBytes width nbit
    let width := if width > rect.width then rect.width else width
    let height := if height > rect.height then rect.height else height
    let width := clip (binfo.scrnx.setWidth 32) rect.p.x width
    let height := clip (binfo.scrny.setWidth 32) rect.p.y height
    drawColumns binfo bmp.data nBpline rect.p.x rect.p.y width height fuel 0 mem

/-! ## The loops are rows of writes -/

section Draw

variable (binfo : BootInfo) (data : Word → Byte) (nBpline x0 y0 : Word)

/-- Byte `k` of the pixel in column `X` and row `Y`, on the screen or not. -/
def BootInfo.byteAt (X Y : Int) (k : Nat) : Word :=
  binfo.vram + BitVec.ofInt 32 (binfo.bpp * (binfo.scrnx.toNat * Y + X) + k)

/-- Byte `k` of the pixel in column `i` and row `j` of the bitmap, with rows of
    `line` bytes. -/
def dataAt (line i j k : Nat) : Byte := data (BitVec.ofNat 32 (line * j + 3 * i + k))

/-- The writes of one pixel. -/
def pixelWrites (i j : Nat) : List (Word × Byte) :=
  (List.range 3).map fun k => (binfo.byteAt (x0.toInt + i) (y0.toInt + j) k,
    dataAt data nBpline.toNat i j k)

theorem copyPixel_eq (i j : Nat) (mem : Mem) :
    copyPixel binfo data nBpline x0 y0 (BitVec.ofNat 32 i) (BitVec.ofNat 32 j) mem
      = write mem (pixelWrites binfo data nBpline x0 y0 i j) := by
  have hbyte : ∀ k, binfo.byteAt (x0.toInt + i) (y0.toInt + j) k
      = binfo.vram + (binfo.bitspixel >>> 3).setWidth 32 *
        (binfo.scrnx.setWidth 32 * (y0 + BitVec.ofNat 32 j) + x0 + BitVec.ofNat 32 i)
          + BitVec.ofNat 32 k := by
    intro k
    rw [BootInfo.byteAt, binfo.word_bpp, binfo.word_scrnx]
    simp only [BitVec.ofInt_add, BitVec.ofInt_mul, BitVec.ofInt_toInt, BitVec.ofInt_natCast,
      BitVec.add_assoc]
  have hdata : ∀ k, dataAt data nBpline.toNat i j k
      = data (nBpline * BitVec.ofNat 32 j + BitVec.ofNat 32 i * 3 + BitVec.ofNat 32 k) := by
    intro k
    rw [dataAt, BitVec.ofNat_add, BitVec.ofNat_add, BitVec.ofNat_mul, BitVec.ofNat_toNat,
      BitVec.setWidth_eq, BitVec.ofNat_mul, BitVec.mul_comm (BitVec.ofNat 32 3)]
    rfl
  rw [copyPixel]
  simp only [pixelWrites, List.range_succ, List.range_zero, List.nil_append, List.cons_append,
    List.map_cons, List.map_nil, write_cons, write_nil, hbyte, hdata, BitVec.ofNat_eq_ofNat,
    BitVec.add_zero]

theorem ofNat_lt_iff {i : Nat} {n : Word} (hi : i ≤ n.toNat) :
    BitVec.ofNat 32 i < n ↔ i < n.toNat := by
  have := n.isLt
  rw [BitVec.lt_def, BitVec.toNat_ofNat, Nat.mod_eq_of_lt (by omega)]

theorem drawColumn_runs (i : Nat) (height : Word) :
    Runs (fun fuel => drawColumn binfo data nBpline x0 y0 (BitVec.ofNat 32 i) height fuel 0)
      ((List.range height.toNat).flatMap (pixelWrites binfo data nBpline x0 y0 i)) := by
  refine Runs.loop (f := fun j fuel => drawColumn binfo data nBpline x0 y0 (BitVec.ofNat 32 i)
    height fuel (BitVec.ofNat 32 j)) (g := fun j _ mem => some (copyPixel binfo data nBpline x0 y0
      (BitVec.ofNat 32 i) (BitVec.ofNat 32 j) mem)) ?_ ?_ ?_
  · intro j hj fuel mem
    rw [drawColumn, if_pos ((ofNat_lt_iff hj.le).mpr hj), BitVec.ofNat_add]
    rfl
  · intro fuel mem
    rw [drawColumn, if_neg fun h => absurd ((ofNat_lt_iff (Nat.le_refl _)).mp h) (Nat.lt_irrefl _)]
  · intro j _
    exact ⟨0, fun _ _ mem => congrArg some (copyPixel_eq binfo data nBpline x0 y0 i j mem)⟩

theorem drawColumns_runs (width height : Word) :
    Runs (fun fuel => drawColumns binfo data nBpline x0 y0 width height fuel 0)
      ((List.range width.toNat).flatMap fun i => (List.range height.toNat).flatMap
        (pixelWrites binfo data nBpline x0 y0 i)) := by
  refine Runs.loop (f := fun i fuel => drawColumns binfo data nBpline x0 y0 width height fuel
    (BitVec.ofNat 32 i)) (g := fun i fuel => drawColumn binfo data nBpline x0 y0
      (BitVec.ofNat 32 i) height fuel 0) ?_ ?_ fun i _ => drawColumn_runs ..
  · intro i hi fuel mem
    rw [drawColumns, if_pos ((ofNat_lt_iff hi.le).mpr hi), BitVec.ofNat_add]
    rfl
  · intro fuel mem
    rw [drawColumns, if_neg fun h => absurd ((ofNat_lt_iff (Nat.le_refl _)).mp h) (Nat.lt_irrefl _)]

end Draw

/-! ## The rows and columns of a bitmap -/

namespace Bitmap

variable (bmp : Bitmap)

def width : Nat := bmp.biWidth.toInt.natAbs

def height : Nat := bmp.biHeight.toInt.natAbs

/-- The bytes of a row, filled up to a multiple of four. -/
def stride : Nat := (24 * bmp.width + 31) / 32 * 4

/-- The same, computed in 32 bits. -/
def pitch : Nat := (24 * bmp.width + 31) % 2 ^ 32 / 32 * 4

/-- The columns and rows of the bitmap in a rectangle. -/
def cols (rect : Rect) : Nat := min bmp.width rect.width.toNat

def rows (rect : Rect) : Nat := min bmp.height rect.height.toNat

end Bitmap

/-- Along one axis: what lies in bitmap and rectangle, and on the screen. -/
def Shown (scrn : Nat) (x : Int) (w i : Nat) : Prop :=
  i < w ∧ 0 ≤ x + i ∧ x + i < scrn

instance (scrn : Nat) (x : Int) (w i : Nat) : Decidable (Shown scrn x w i) :=
  inferInstanceAs (Decidable (_ ∧ _ ∧ _))

/-- The pixel in column `i` and row `j` of the bitmap lies in the rectangle and
    on the screen. -/
def Copied (binfo : BootInfo) (rect : Rect) (bmp : Bitmap) (i j : Nat) : Prop :=
  Shown binfo.scrnx.toNat rect.p.x.toInt (bmp.cols rect) i ∧
    Shown binfo.scrny.toNat rect.p.y.toInt (bmp.rows rect) j

/-- The byte `v` of the bitmap belongs at the address `a` of the screen. -/
def Belongs (binfo : BootInfo) (rect : Rect) (bmp : Bitmap) (a : Word) (v : Byte) : Prop :=
  ∃ i j k, Copied binfo rect bmp i j ∧ k < 3 ∧
    a = binfo.byteAt (rect.p.x.toInt + i) (rect.p.y.toInt + j) k ∧
    v = dataAt bmp.data bmp.stride i j k

/-- From any memory `draw_bitmap` returns, and has copied the pixels of the
    bitmap in the rectangle and on the screen and left every other byte alone. -/
def CopiesBitmap (binfo : BootInfo) (rect : Rect) (bmp : Bitmap) : Prop :=
  Leaves (fun fuel => drawBitmap binfo fuel rect bmp) (Belongs binfo rect bmp)

/-- Along one axis: what lies in bitmap and rectangle is on the screen. -/
def Within (scrn : Nat) (x : Int) (w : Nat) : Prop := 0 ≤ x ∧ x + w ≤ scrn

instance (scrn : Nat) (x : Int) (w : Nat) : Decidable (Within scrn x w) :=
  inferInstanceAs (Decidable (_ ∧ _))

/-- Along one axis: nothing is left of it once it has been cut off. -/
def Skipped (scrn : Nat) (x : Int) (w : Nat) : Prop :=
  if 0 ≤ x + w ∧ x + w ≤ scrn then w = 0 else x = scrn - 1

/-- The headers of the bitmap, 54 bytes, are no part of the frame buffer: counted
    from its start they lie behind its end. -/
def Apart (binfo : BootInfo) (bmp : Bitmap) : Prop :=
  binfo.bpp * binfo.size ≤ (bmp.addr - binfo.vram).toNat ∧
    (bmp.addr - binfo.vram).toNat + 54 ≤ 2 ^ 32

instance (binfo : BootInfo) (bmp : Bitmap) : Decidable (Apart binfo bmp) :=
  inferInstanceAs (Decidable (_ ∧ _))

/-- In the first columns and rows the data at the computed length of a row are
    those at its length. -/
def RowsAgree (bmp : Bitmap) (cols rows : Nat) : Prop :=
  ∀ i j k, i < cols → j < rows → k < 3 →
    dataAt bmp.data bmp.pitch i j k = dataAt bmp.data bmp.stride i j k

/-! ## The cuts -/

theorem absInt_toNat (x : Word) : (absInt x).toNat = x.toInt.natAbs := by
  have h1 := BitVec.toInt_lt (x := x)
  have h2 := BitVec.le_toInt x
  have hx := BitVec.toInt_eq_toNat_bmod x
  have hlt := x.isLt
  rw [absInt]
  split
  · next hpos =>
      rw [Int.bmod_def] at hx
      split at hx <;> omega
  · next hneg =>
      rw [BitVec.toNat_neg]
      rw [Int.bmod_def] at hx
      split at hx <;> omega

theorem lineBytes_toNat (bmp : Bitmap) :
    (lineBytes (absInt bmp.biWidth) 24).toNat = bmp.pitch := by
  have hlt := Nat.mod_lt (24 * bmp.width + 31) (by decide : 2 ^ 32 > 0)
  have hbits : (absInt bmp.biWidth * 24 + 31).toNat = (24 * bmp.width + 31) % 2 ^ 32 := by
    rw [BitVec.toNat_add, BitVec.toNat_mul, absInt_toNat, ← Bitmap.width,
      show (24 : Word).toNat = 24 from rfl, show (31 : Word).toNat = 31 from rfl]
    omega
  rw [lineBytes, BitVec.toNat_shiftLeft, BitVec.toNat_ushiftRight, hbits, Nat.shiftRight_eq_div_pow,
    Nat.shiftLeft_eq, Bitmap.pitch, Nat.mod_eq_of_lt]
  omega

theorem min_toNat {x w : Word} : (if x > w then w else x).toNat = min x.toNat w.toNat := by
  split
  · next h =>
      rw [gt_iff_lt, BitVec.lt_def] at h
      omega
  · next h =>
      rw [gt_iff_lt, BitVec.lt_def] at h
      omega

/-- The columns that are left of `w`, from column `x` of a screen of `scrn`. -/
def cut (scrn : Nat) (x : Int) (w : Nat) : Nat :=
  if 0 ≤ x + w ∧ x + w ≤ scrn then w else ((scrn - x - 1) % 2 ^ 32).toNat

theorem clip_toNat (scrn : BitVec 16) (x : Word) {w : Word} (hw : w.toNat ≤ 2 ^ 31) :
    (clip (scrn.setWidth 32) x w).toNat = cut scrn.toNat x.toInt w.toNat := by
  have h1 := BitVec.toInt_lt (x := x)
  have h2 := BitVec.le_toInt x
  have hx := BitVec.toInt_eq_toNat_bmod x
  have hlt := x.isLt
  have hscrn := scrn.isLt
  have hwide : (scrn.setWidth 32).toNat = scrn.toNat := by
    rw [BitVec.toNat_setWidth]
    omega
  have hout : x + w > scrn.setWidth 32 ↔ scrn.toNat < (x.toNat + w.toNat) % 2 ^ 32 := by
    rw [gt_iff_lt, BitVec.lt_def, BitVec.toNat_add, hwide]
  rw [Int.bmod_def] at hx
  rw [clip, cut]
  by_cases h : x + w > scrn.setWidth 32
  · rw [if_pos h, if_neg (by rw [hout] at h; split at hx <;> omega), BitVec.toNat_sub,
      BitVec.toNat_sub, hwide, show (1 : Word).toNat = 1 from rfl]
    split at hx <;> omega
  · rw [if_neg h, if_pos (by rw [hout] at h; split at hx <;> omega)]

/-! ## The writes of `draw_bitmap` -/

section Bitmap

variable {binfo : BootInfo} {rect : Rect} {bmp : Bitmap}

/-- The columns and rows that are drawn. -/
def drawnCols (binfo : BootInfo) (rect : Rect) (bmp : Bitmap) : Nat :=
  cut binfo.scrnx.toNat rect.p.x.toInt (bmp.cols rect)

def drawnRows (binfo : BootInfo) (rect : Rect) (bmp : Bitmap) : Nat :=
  cut binfo.scrny.toNat rect.p.y.toInt (bmp.rows rect)

def bitmapWrites (binfo : BootInfo) (rect : Rect) (bmp : Bitmap) : List (Word × Byte) :=
  (List.range (drawnCols binfo rect bmp)).flatMap fun i =>
    (List.range (drawnRows binfo rect bmp)).flatMap
      (pixelWrites binfo bmp.data (lineBytes (absInt bmp.biWidth) 24) rect.p.x rect.p.y i)

/-- A bitmap reaches over at most half of the 32-bit numbers. -/
theorem natAbs_le (x : Word) : x.toInt.natAbs ≤ 2 ^ 31 := by
  have h1 := BitVec.toInt_lt (x := x)
  have h2 := BitVec.le_toInt x
  omega

theorem drawBitmap_runs (h24 : bmp.biBitCount = 24) :
    Runs (fun fuel => drawBitmap binfo fuel rect bmp) (bitmapWrites binfo rect bmp) := by
  have hcut : ∀ (scrn : BitVec 16) (x dim w : Word),
      (clip (scrn.setWidth 32) x (if absInt dim > w then w else absInt dim)).toNat
        = cut scrn.toNat x.toInt (min dim.toInt.natAbs w.toNat) := by
    intro scrn x dim w
    have hle := natAbs_le dim
    rw [clip_toNat, min_toNat, absInt_toNat]
    rw [min_toNat, absInt_toNat]
    omega
  have hruns := drawColumns_runs binfo bmp.data (lineBytes (absInt bmp.biWidth) 24) rect.p.x
    rect.p.y (clip (binfo.scrnx.setWidth 32) rect.p.x
      (if absInt bmp.biWidth > rect.width then rect.width else absInt bmp.biWidth))
    (clip (binfo.scrny.setWidth 32) rect.p.y
      (if absInt bmp.biHeight > rect.height then rect.height else absInt bmp.biHeight))
  rw [hcut, hcut] at hruns
  have hsame : (fun fuel => drawBitmap binfo fuel rect bmp) = fun fuel =>
      drawColumns binfo bmp.data (lineBytes (absInt bmp.biWidth) 24) rect.p.x rect.p.y
        (clip (binfo.scrnx.setWidth 32) rect.p.x
          (if absInt bmp.biWidth > rect.width then rect.width else absInt bmp.biWidth))
        (clip (binfo.scrny.setWidth 32) rect.p.y
          (if absInt bmp.biHeight > rect.height then rect.height else absInt bmp.biHeight))
        fuel 0 := by
    funext fuel mem
    rw [drawBitmap, h24]
    rfl
  rw [hsame]
  exact hruns

theorem mem_bitmapWrites {w : Word × Byte} : w ∈ bitmapWrites binfo rect bmp ↔
    ∃ i < drawnCols binfo rect bmp, ∃ j < drawnRows binfo rect bmp, ∃ k < 3,
      w = (binfo.byteAt (rect.p.x.toInt + i) (rect.p.y.toInt + j) k,
        dataAt bmp.data bmp.pitch i j k) := by
  simp only [bitmapWrites, pixelWrites, lineBytes_toNat, List.mem_flatMap, List.mem_map,
    List.mem_range, eq_comm]

/-! ## Addresses -/

theorem byteAt_eq_byte {X Y k : Nat} :
    binfo.byteAt X Y k = binfo.byte (binfo.scrnx.toNat * Y + X) k := by
  rw [BootInfo.byteAt, BootInfo.byte, ← BitVec.ofInt_natCast]
  norm_cast

/-- Two bytes of the screen are one only if they are the same of the same pixel. -/
theorem byteAt_inj {X Y X' Y' : Int} {k l : Nat} (hX : 0 ≤ X ∧ X < binfo.scrnx.toNat)
    (hY : 0 ≤ Y ∧ Y < binfo.scrny.toNat) (hX' : 0 ≤ X' ∧ X' < binfo.scrnx.toNat)
    (hY' : 0 ≤ Y' ∧ Y' < binfo.scrny.toNat) (hk : k < 3) (hl : l < 3)
    (h : binfo.byteAt X Y k = binfo.byteAt X' Y' l) : X = X' ∧ Y = Y' ∧ k = l := by
  obtain ⟨x, rfl⟩ := Int.eq_ofNat_of_zero_le hX.1
  obtain ⟨y, rfl⟩ := Int.eq_ofNat_of_zero_le hY.1
  obtain ⟨x', rfl⟩ := Int.eq_ofNat_of_zero_le hX'.1
  obtain ⟨y', rfl⟩ := Int.eq_ofNat_of_zero_le hY'.1
  rw [byteAt_eq_byte, byteAt_eq_byte] at h
  have h3 := binfo.three_le_bpp
  obtain ⟨hn, hkl⟩ := binfo.byte_inj
    (pixel_lt_size binfo (by omega : y < _) (by omega : x < _))
    (pixel_lt_size binfo (by omega : y' < _) (by omega : x' < _)) (by omega) (by omega) h
  obtain ⟨hy, hx⟩ := mul_add_inj (by omega) (by omega) hn
  exact ⟨congrArg _ hx, congrArg _ hy, hkl⟩

/-- Bytes that are less than the memory apart. -/
theorem byteAt_ne {X Y X' Y' : Int} {k l : Nat}
    (hlt : binfo.bpp * (binfo.scrnx.toNat * Y + X) + k
      < binfo.bpp * (binfo.scrnx.toNat * Y' + X') + l)
    (hapart : binfo.bpp * (binfo.scrnx.toNat * Y' + X') + l
      < binfo.bpp * (binfo.scrnx.toNat * Y + X) + k + 2 ^ 32) :
    binfo.byteAt X Y k ≠ binfo.byteAt X' Y' l := by
  intro h
  have hmod := congrArg BitVec.toNat ((BitVec.add_right_inj _).mp h)
  rw [BitVec.toNat_ofInt, BitVec.toNat_ofInt] at hmod
  generalize (binfo.bpp * (binfo.scrnx.toNat * Y + X) + k : Int) = a at *
  generalize (binfo.bpp * (binfo.scrnx.toNat * Y' + X') + l : Int) = b at *
  omega

/-- A row or a column of the screen begins before the last one ends. -/
theorem row_le_size {Y : Int} (hY : Y < binfo.scrny.toNat) :
    (binfo.scrnx.toNat : Int) * Y + binfo.scrnx.toNat ≤ binfo.size := by
  have hle : (binfo.scrnx.toNat : Int) * (Y + 1) ≤ binfo.scrnx.toNat * binfo.scrny.toNat :=
    Int.mul_le_mul_of_nonneg_left (by omega) (by omega)
  rw [Int.mul_add, Int.mul_one] at hle
  exact_mod_cast hle

/-- So they leave room between the end of the frame buffer and its start. -/
theorem Apart.room (h : Apart binfo bmp) : binfo.bpp * binfo.size + 54 ≤ 2 ^ 32 := by
  obtain ⟨h1, h2⟩ := h
  omega

/-- A pixel that is not more than the screen behind another is not that one. -/
theorem byteAt_ne_of_lt (hroom : binfo.bpp * binfo.size + 54 ≤ 2 ^ 32) {X Y X' Y' : Int} {k : Nat}
    (hk : k < 3) (hlt : binfo.scrnx.toNat * Y + X < binfo.scrnx.toNat * Y' + X')
    (hnear : binfo.scrnx.toNat * Y' + X' ≤ binfo.scrnx.toNat * Y + X + binfo.size + 1) :
    binfo.byteAt X Y 0 ≠ binfo.byteAt X' Y' k := by
  have hdepth : binfo.bpp = 3 ∨ binfo.bpp = 4 := binfo.depth
  rcases hdepth with h3 | h4
  · rw [h3] at hroom
    exact byteAt_ne (by rw [h3]; omega) (by rw [h3]; omega)
  · rw [h4] at hroom
    exact byteAt_ne (by rw [h4]; omega) (by rw [h4]; omega)

/-- The row above the screen: no byte that is drawn in a column of it, or left
    of that column, or next to it. -/
theorem above_ne (hroom : binfo.bpp * binfo.size + 54 ≤ 2 ^ 32) {X X' Y : Int} {k : Nat}
    (hX : X < binfo.scrnx.toNat) (hX' : 0 ≤ X' ∧ X' ≤ X + 1)
    (hY : 0 ≤ Y ∧ Y < binfo.scrny.toNat) (hk : k < 3) :
    binfo.byteAt X (-1) 0 ≠ binfo.byteAt X' Y k := by
  have hrow := row_le_size hY.2
  have hpos : 0 ≤ (binfo.scrnx.toNat : Int) * Y := Int.mul_nonneg (by omega) hY.1
  exact byteAt_ne_of_lt hroom hk (by omega) (by omega)

/-- The column left of the screen, from the first row that is drawn. -/
theorem left_ne (hroom : binfo.bpp * binfo.size + 54 ≤ 2 ^ 32) {X Y Y' : Int} {k : Nat}
    (hX : 0 ≤ X ∧ X < binfo.scrnx.toNat) (hY : 0 ≤ Y ∧ Y ≤ Y') (hY' : Y' < binfo.scrny.toNat)
    (hk : k < 3) : binfo.byteAt (-1) Y 0 ≠ binfo.byteAt X Y' k := by
  have hrow := row_le_size hY'
  have hpos : 0 ≤ (binfo.scrnx.toNat : Int) * Y := Int.mul_nonneg (by omega) hY.1
  have hmono : (binfo.scrnx.toNat : Int) * Y ≤ binfo.scrnx.toNat * Y' :=
    Int.mul_le_mul_of_nonneg_left hY.2 (by omega)
  exact byteAt_ne_of_lt hroom hk (by omega) (by omega)

/-! ## What the cuts leave -/

theorem cut_of_within {scrn w : Nat} {x : Int} (h : Within scrn x w) : cut scrn x w = w :=
  if_pos ⟨by have := h.1; omega, h.2⟩

/-- Where something is to be drawn, the cut is at the right edge, one column
    too early. -/
theorem cut_of_shown {scrn w i : Nat} {x : Int} (hscrn : scrn < 2 ^ 16) (hx : -2 ^ 31 ≤ x)
    (h : Shown scrn x w i) :
    cut scrn x w = if x + w ≤ scrn then w else (scrn - x - 1).toNat := by
  obtain ⟨hi, hleft, hright⟩ := h
  rw [cut]
  by_cases hin : x + w ≤ scrn
  · rw [if_pos ⟨by omega, hin⟩, if_pos hin]
  · rw [if_neg fun hboth => hin hboth.2, if_neg hin]
    omega

theorem drawnCols_of_shown {i : Nat}
    (h : Shown binfo.scrnx.toNat rect.p.x.toInt (bmp.cols rect) i) :
    drawnCols binfo rect bmp = if rect.p.x.toInt + bmp.cols rect ≤ binfo.scrnx.toNat then
      bmp.cols rect else (binfo.scrnx.toNat - rect.p.x.toInt - 1).toNat :=
  cut_of_shown binfo.scrnx.isLt (BitVec.le_toInt rect.p.x) h

theorem drawnRows_of_shown {j : Nat}
    (h : Shown binfo.scrny.toNat rect.p.y.toInt (bmp.rows rect) j) :
    drawnRows binfo rect bmp = if rect.p.y.toInt + bmp.rows rect ≤ binfo.scrny.toNat then
      bmp.rows rect else (binfo.scrny.toNat - rect.p.y.toInt - 1).toNat :=
  cut_of_shown binfo.scrny.isLt (BitVec.le_toInt rect.p.y) h

theorem cut_eq_zero_iff {scrn w : Nat} {x : Int} (hscrn : scrn < 2 ^ 16)
    (hx : -2 ^ 31 ≤ x ∧ x < 2 ^ 31) : cut scrn x w = 0 ↔ Skipped scrn x w := by
  rw [cut, Skipped]
  split
  · exact Iff.rfl
  · omega

/-! ## One write too many, or one too few -/

instance : Nontrivial Byte := ⟨0, 1, by decide⟩

theorem belongs_iff {a : Word} {v : Byte} : Belongs binfo rect bmp a v ↔
    ∃ n : Nat × Nat × Nat, (Copied binfo rect bmp n.1 n.2.1 ∧ n.2.2 < 3) ∧
      a = binfo.byteAt (rect.p.x.toInt + n.1) (rect.p.y.toInt + n.2.1) n.2.2 ∧
      v = dataAt bmp.data bmp.stride n.1 n.2.1 n.2.2 := by
  simp only [Belongs, Prod.exists, and_assoc]

theorem shown_iff_of_within {scrn w i : Nat} {x : Int} (h : Within scrn x w) :
    Shown scrn x w i ↔ i < w := by
  obtain ⟨h1, h2⟩ := h
  exact ⟨And.left, fun hi => ⟨hi, by omega, by omega⟩⟩

/-- On the screen as a whole, each byte is written once. -/
theorem exact_of_within
    (hx : Within binfo.scrnx.toNat rect.p.x.toInt (bmp.cols rect))
    (hy : Within binfo.scrny.toNat rect.p.y.toInt (bmp.rows rect)) :
    (∀ mem, Exact (bitmapWrites binfo rect bmp) (Belongs binfo rect bmp) mem)
      ↔ RowsAgree bmp (bmp.cols rect) (bmp.rows rect) := by
  have hcopied : ∀ i j, Copied binfo rect bmp i j ↔ i < bmp.cols rect ∧ j < bmp.rows rect :=
    fun i j => and_congr (shown_iff_of_within hx) (shown_iff_of_within hy)
  rw [exact_iff_agree (fun n : Nat × Nat × Nat => Copied binfo rect bmp n.1 n.2.1 ∧ n.2.2 < 3)
    (fun n => binfo.byteAt (rect.p.x.toInt + n.1) (rect.p.y.toInt + n.2.1) n.2.2)
    (fun n => dataAt bmp.data bmp.pitch n.1 n.2.1 n.2.2) ?_ (fun _ _ => belongs_iff) ?_]
  · constructor
    · intro h i j k hi hj hk
      exact h (i, j, k) ⟨(hcopied i j).mpr ⟨hi, hj⟩, hk⟩
    · rintro h ⟨i, j, k⟩ ⟨hc, hk⟩
      obtain ⟨hi, hj⟩ := (hcopied i j).mp hc
      exact h i j k hi hj hk
  · intro w
    rw [mem_bitmapWrites, drawnCols, drawnRows, cut_of_within hx, cut_of_within hy]
    constructor
    · rintro ⟨i, hi, j, hj, k, hk, rfl⟩
      exact ⟨(i, j, k), ⟨(hcopied i j).mpr ⟨hi, hj⟩, hk⟩, rfl⟩
    · rintro ⟨⟨i, j, k⟩, ⟨hc, hk⟩, rfl⟩
      obtain ⟨hi, hj⟩ := (hcopied i j).mp hc
      exact ⟨i, hi, j, hj, k, hk, rfl⟩
  · rintro ⟨i, j, k⟩ ⟨i', j', k'⟩ ⟨⟨hi, hj⟩, hk⟩ ⟨⟨hi', hj'⟩, hk'⟩ haddr
    obtain ⟨hX, hY, hkl⟩ := byteAt_inj hi.2 hj.2 hi'.2 hj'.2 hk hk' haddr
    dsimp only at hX hY hkl
    rw [show i = i' by omega, show j = j' by omega, hkl]

/-- Where nothing is to be drawn, nothing may be written. -/
theorem exact_iff_of_none (hnone : ∀ i j, ¬ Copied binfo rect bmp i j) :
    (∀ mem, Exact (bitmapWrites binfo rect bmp) (Belongs binfo rect bmp) mem)
      ↔ Skipped binfo.scrnx.toNat rect.p.x.toInt (bmp.cols rect) ∨
        Skipped binfo.scrny.toNat rect.p.y.toInt (bmp.rows rect) := by
  have hx := BitVec.toInt_lt (x := rect.p.x)
  have hx' := BitVec.le_toInt rect.p.x
  have hy := BitVec.toInt_lt (x := rect.p.y)
  have hy' := BitVec.le_toInt rect.p.y
  have hno : ∀ a v, ¬ Belongs binfo rect bmp a v := by
    rintro a v ⟨i, j, -, hc, -⟩
    exact hnone i j hc
  rw [← cut_eq_zero_iff binfo.scrnx.isLt ⟨hx', hx⟩, ← cut_eq_zero_iff binfo.scrny.isLt ⟨hy', hy⟩]
  constructor
  · intro hexact
    by_contra hboth
    obtain ⟨hcols, hrows⟩ := not_or.mp hboth
    have hw : (binfo.byteAt (rect.p.x.toInt + 0) (rect.p.y.toInt + 0) 0,
        dataAt bmp.data bmp.pitch 0 0 0) ∈ bitmapWrites binfo rect bmp :=
      mem_bitmapWrites.mpr ⟨0, Nat.pos_of_ne_zero hcols, 0, Nat.pos_of_ne_zero hrows, 0,
        by decide, rfl⟩
    exact not_exact_of_stray hw (hno _) hexact
  · intro hzero
    refine Exact.of_none (fun w hw => ?_) hno
    obtain ⟨i, hi, j, hj, -⟩ := mem_bitmapWrites.mp hw
    unfold drawnCols at hi
    unfold drawnRows at hj
    omega

/-- A corner above the screen. -/
theorem not_exact_of_above (hapart : Apart binfo bmp) {i j : Nat}
    (hcopied : Copied binfo rect bmp i j) (hy : rect.p.y.toInt < 0)
    (hcols : 0 < drawnCols binfo rect bmp) :
    ¬ ∀ mem, Exact (bitmapWrites binfo rect bmp) (Belongs binfo rect bmp) mem := by
  obtain ⟨hi, hj⟩ := hcopied
  have hcut := drawnCols_of_shown hi
  have hcut' := drawnRows_of_shown hj
  have hi' := hi
  have hj' := hj
  unfold Shown at hi' hj'
  -- the last column that is drawn, in the row above the first one of the screen
  have hrow : rect.p.y.toInt + (-rect.p.y.toInt - 1).toNat = -1 := by omega
  refine not_exact_of_stray
    (w := (binfo.byteAt (rect.p.x.toInt + (drawnCols binfo rect bmp - 1 : Nat))
      (rect.p.y.toInt + (-rect.p.y.toInt - 1).toNat) 0, _))
    (mem_bitmapWrites.mpr ⟨drawnCols binfo rect bmp - 1, by omega,
      (-rect.p.y.toInt - 1).toNat, ?_, 0, by decide, rfl⟩) ?_
  · split at hcut' <;> omega
  · rintro v ⟨i', j', k, ⟨⟨hi1, hi2, hi3⟩, -, hj2, hj3⟩, hk, heq, -⟩
    rw [hrow] at heq
    refine above_ne hapart.room ?_ ?_ ⟨hj2, hj3⟩ hk heq
    · split at hcut <;> omega
    · split at hcut <;> omega

/-- A corner left of the screen. -/
theorem not_exact_of_left (hapart : Apart binfo bmp) {i j : Nat}
    (hcopied : Copied binfo rect bmp i j) (hx : rect.p.x.toInt < 0) (hy : 0 ≤ rect.p.y.toInt)
    (hrows : 0 < drawnRows binfo rect bmp) :
    ¬ ∀ mem, Exact (bitmapWrites binfo rect bmp) (Belongs binfo rect bmp) mem := by
  obtain ⟨hi, hj⟩ := hcopied
  have hcut := drawnCols_of_shown hi
  have hi' := hi
  unfold Shown at hi'
  have hcol : rect.p.x.toInt + (-rect.p.x.toInt - 1).toNat = -1 := by omega
  refine not_exact_of_stray (w := (binfo.byteAt (rect.p.x.toInt + (-rect.p.x.toInt - 1).toNat)
    (rect.p.y.toInt + (0 : Nat)) 0, _)) (mem_bitmapWrites.mpr
      ⟨(-rect.p.x.toInt - 1).toNat, ?_, 0, hrows, 0, by decide, rfl⟩) ?_
  · split at hcut <;> omega
  · rintro v ⟨i', j', k, ⟨⟨-, hi2, hi3⟩, -, -, hj3⟩, hk, heq, -⟩
    rw [hcol] at heq
    exact left_ne hapart.room ⟨hi2, hi3⟩ (by omega) hj3 hk heq

/-- Nothing is drawn at all. -/
theorem not_exact_of_empty {i j : Nat} (hcopied : Copied binfo rect bmp i j)
    (hempty : drawnCols binfo rect bmp = 0 ∨ drawnRows binfo rect bmp = 0) :
    ¬ ∀ mem, Exact (bitmapWrites binfo rect bmp) (Belongs binfo rect bmp) mem := by
  refine not_exact_of_missing ⟨i, j, 0, hcopied, by decide, rfl, rfl⟩ ?_
  intro w hw
  obtain ⟨i', hi', j', hj', -⟩ := mem_bitmapWrites.mp hw
  omega

/-- A pixel behind those that are drawn. -/
theorem not_exact_of_lost {i j : Nat} (hcopied : Copied binfo rect bmp i j)
    (hx : 0 ≤ rect.p.x.toInt) (hy : 0 ≤ rect.p.y.toInt)
    (hlost : drawnCols binfo rect bmp ≤ i ∨ drawnRows binfo rect bmp ≤ j) :
    ¬ ∀ mem, Exact (bitmapWrites binfo rect bmp) (Belongs binfo rect bmp) mem := by
  obtain ⟨hi, hj⟩ := hcopied
  have hcut := drawnCols_of_shown hi
  have hcut' := drawnRows_of_shown hj
  refine not_exact_of_missing ⟨i, j, 0, ⟨hi, hj⟩, by decide, rfl, rfl⟩ ?_
  intro w hw heq
  obtain ⟨i', hi', j', hj', k, hk, rfl⟩ := mem_bitmapWrites.mp hw
  have hX : 0 ≤ rect.p.x.toInt + i' ∧ rect.p.x.toInt + i' < binfo.scrnx.toNat := by
    split at hcut <;> omega
  have hY : 0 ≤ rect.p.y.toInt + j' ∧ rect.p.y.toInt + j' < binfo.scrny.toNat := by
    split at hcut' <;> omega
  obtain ⟨h1, h2, -⟩ := byteAt_inj hX hY hi.2 hj.2 hk (by decide) heq
  omega

/-- Something is to be drawn, and not all of it is on the screen. -/
theorem not_exact_of_not_within (hapart : Apart binfo bmp) {i j : Nat}
    (hcopied : Copied binfo rect bmp i j)
    (hout : ¬ (Within binfo.scrnx.toNat rect.p.x.toInt (bmp.cols rect) ∧
      Within binfo.scrny.toNat rect.p.y.toInt (bmp.rows rect))) :
    ¬ ∀ mem, Exact (bitmapWrites binfo rect bmp) (Belongs binfo rect bmp) mem := by
  by_cases hempty : drawnCols binfo rect bmp = 0 ∨ drawnRows binfo rect bmp = 0
  · exact not_exact_of_empty hcopied hempty
  obtain ⟨hcols, hrows⟩ := not_or.mp hempty
  by_cases hy : rect.p.y.toInt < 0
  · exact not_exact_of_above hapart hcopied hy (Nat.pos_of_ne_zero hcols)
  by_cases hx : rect.p.x.toInt < 0
  · exact not_exact_of_left hapart hcopied hx (Int.not_lt.mp hy) (Nat.pos_of_ne_zero hrows)
  -- the last column or the last row of the screen is lost
  obtain ⟨hi, hj⟩ := hcopied
  have hcut := drawnCols_of_shown hi
  have hcut' := drawnRows_of_shown hj
  have hi' := hi
  have hj' := hj
  unfold Shown at hi' hj'
  unfold Within at hout
  by_cases hright : rect.p.x.toInt + bmp.cols rect ≤ binfo.scrnx.toNat
  · have hlow : ¬ rect.p.y.toInt + bmp.rows rect ≤ binfo.scrny.toNat := by omega
    rw [if_neg hlow] at hcut'
    refine not_exact_of_lost (j := drawnRows binfo rect bmp) ⟨hi, ?_⟩ (by omega) (by omega)
      (.inr (Nat.le_refl _))
    exact ⟨by omega, by omega, by omega⟩
  · rw [if_neg hright] at hcut
    refine not_exact_of_lost (i := drawnCols binfo rect bmp) ⟨?_, hj⟩ (by omega) (by omega)
      (.inl (Nat.le_refl _))
    exact ⟨by omega, by omega, by omega⟩

/-- **WHICH BITMAPS ARE COPIED**: on any screen, and to any rectangle, exactly
    those of which all that lies in the rectangle is on the screen, and whose
    rows are where the computed length has them; and where nothing is to be
    copied, those of which nothing is left on one axis. -/
theorem drawBitmap_copies_iff (h24 : bmp.biBitCount = 24) (hapart : Apart binfo bmp) :
    CopiesBitmap binfo rect bmp ↔
      (Within binfo.scrnx.toNat rect.p.x.toInt (bmp.cols rect) ∧
        Within binfo.scrny.toNat rect.p.y.toInt (bmp.rows rect) ∧
        RowsAgree bmp (bmp.cols rect) (bmp.rows rect)) ∨
      ((∀ i j, ¬ Copied binfo rect bmp i j) ∧
        (Skipped binfo.scrnx.toNat rect.p.x.toInt (bmp.cols rect) ∨
          Skipped binfo.scrny.toNat rect.p.y.toInt (bmp.rows rect))) := by
  rw [CopiesBitmap, (drawBitmap_runs h24).leaves_iff]
  by_cases hsome : ∃ i j, Copied binfo rect bmp i j
  · obtain ⟨i, j, hcopied⟩ := hsome
    by_cases hboth : Within binfo.scrnx.toNat rect.p.x.toInt (bmp.cols rect) ∧
        Within binfo.scrny.toNat rect.p.y.toInt (bmp.rows rect)
    · rw [exact_of_within hboth.1 hboth.2]
      constructor
      · exact fun hagree => .inl ⟨hboth.1, hboth.2, hagree⟩
      · rintro (⟨-, -, hagree⟩ | ⟨hnone, -⟩)
        · exact hagree
        · exact absurd hcopied (hnone i j)
    · refine iff_of_false (not_exact_of_not_within hapart hcopied hboth) ?_
      rintro (⟨hx, hy, -⟩ | ⟨hnone, -⟩)
      · exact hboth ⟨hx, hy⟩
      · exact hnone i j hcopied
  · have hnone : ∀ i j, ¬ Copied binfo rect bmp i j := fun i j hc => hsome ⟨i, j, hc⟩
    rw [exact_iff_of_none hnone]
    constructor
    · exact fun hskipped => .inr ⟨hnone, hskipped⟩
    · rintro (⟨hx, hy, -⟩ | ⟨-, hskipped⟩)
      · -- on the screen, and still nothing to draw: there are no columns or no rows
        have hzero : ¬ (0 < bmp.cols rect ∧ 0 < bmp.rows rect) := fun hpos =>
          hnone 0 0 ⟨(shown_iff_of_within hx).mpr hpos.1, (shown_iff_of_within hy).mpr hpos.2⟩
        rcases Nat.eq_zero_or_pos (bmp.cols rect) with hcols | hcols
        · rw [Skipped, if_pos ⟨by have := hx.1; omega, hx.2⟩]
          exact .inl hcols
        · refine .inr ?_
          rw [Skipped, if_pos ⟨by have := hy.1; omega, hy.2⟩]
          exact Nat.eq_zero_of_not_pos fun hrows => hzero ⟨hcols, hrows⟩
      · exact hskipped

end Bitmap

/-- A bitmap of ten by ten pixels, all grey. -/
def greyBitmap : Bitmap := ⟨0xC0100000, 10, 10, 24, fun _ => 128⟩

theorem drawBitmap_copies_iff_corner :
    CopiesBitmap vbeScreen ⟨⟨100, 100⟩, 10, 10⟩ greyBitmap ↔
      (Within 1024 100 10 ∧ Within 768 100 10 ∧ RowsAgree greyBitmap 10 10) ∨
      ((∀ i j, ¬ Copied vbeScreen ⟨⟨100, 100⟩, 10, 10⟩ greyBitmap i j) ∧
        (Skipped 1024 100 10 ∨ Skipped 768 100 10)) :=
  drawBitmap_copies_iff (show greyBitmap.biBitCount = 24 by decide)
    (show Apart vbeScreen greyBitmap by decide)

/-- Half of the bitmap is right of the screen: the last column is lost. -/
theorem not_drawBitmap_copies : ¬ ∀ binfo rect bmp, bmp.biBitCount = 24 →
    Apart binfo bmp → CopiesBitmap binfo rect bmp := by
  intro hall
  have h := hall vbeScreen ⟨⟨1019, 100⟩, 10, 10⟩ greyBitmap (by decide) (by decide)
  rw [CopiesBitmap, (drawBitmap_runs (by decide)).leaves_iff] at h
  refine not_exact_of_not_within (by decide) (show Copied _ _ _ 0 0 from ?_) ?_ h
  · exact ⟨by decide, by decide⟩
  · decide

end SharixGraphic
