import Sharix.DrawBitmapProofs

/-! # `fill_bitmap` — `graphic.c`

    The rectangle is covered with copies of the bitmap, row by row of every
    column.  Each copy is cut off at the screen only, so the last ones reach
    over the edge of the rectangle unless its size is a multiple of the
    bitmap's; and where they reach over the edge of the screen its last column
    or row is lost.  So the rectangle is filled as it should be if the bitmap
    divides it, or if it happens to end one column before the screen does
    (`fillBitmap_fills_iff`). -/

namespace SharixGraphic

open SharixWrites

/-! ## The model -/

section Fill

variable (binfo : BootInfo) (rect : Rect) (bmp : Bitmap)

/-- `while (y<rect.p.y+rect.height)`, from some `y` on. -/
def fillColumn (x width height : Word) : Nat → Word → Mem → Option Mem
  | 0, _, _ => none
  | fuel + 1, y, mem =>
      if y < rect.p.y + rect.height then do
        let mem ← drawBitmap binfo fuel ⟨⟨x, y⟩, width, height⟩ bmp mem
        fillColumn x width height fuel (y + height) mem
      else some mem

/-- `while (x<rect.p.x+rect.width)`, from some `x` on. -/
def fillColumns (width height : Word) : Nat → Word → Mem → Option Mem
  | 0, _, _ => none
  | fuel + 1, x, mem =>
      if x < rect.p.x + rect.width then do
        let mem ← fillColumn binfo rect bmp x width height fuel rect.p.y mem
        fillColumns width height fuel (x + width) mem
      else some mem

end Fill

def fillBitmap (binfo : BootInfo) (fuel : Nat) (rect : Rect) (bmp : Bitmap) (mem : Mem) :
    Option Mem :=
  fillColumns binfo rect bmp (absInt bmp.biWidth) (absInt bmp.biHeight) fuel rect.p.x mem

/-! ## The bitmap repeated over the rectangle -/

/-- The rectangle is inside the screen. -/
structure InScreen (binfo : BootInfo) (rect : Rect) : Prop where
  across : Within binfo.scrnx.toNat rect.p.x.toInt rect.width.toNat
  down : Within binfo.scrny.toNat rect.p.y.toInt rect.height.toNat

/-- The byte `v` of the bitmap, repeated from the corner of the rectangle,
    belongs at the address `a` of the screen. -/
def Repeated (binfo : BootInfo) (rect : Rect) (bmp : Bitmap) (a : Word) (v : Byte) : Prop :=
  ∃ X Y k, X < rect.width.toNat ∧ Y < rect.height.toNat ∧ k < 3 ∧
    a = binfo.byteAt (rect.p.x.toInt + X) (rect.p.y.toInt + Y) k ∧
    v = dataAt bmp.data bmp.stride (X % bmp.width) (Y % bmp.height) k

/-- From any memory `fill_bitmap` returns, and has painted the rectangle with
    the bitmap and left every other byte alone. -/
def FillsBitmap (binfo : BootInfo) (rect : Rect) (bmp : Bitmap) : Prop :=
  Leaves (fun fuel => fillBitmap binfo fuel rect bmp) (Repeated binfo rect bmp)

/-- Along one axis: copies of width `w` end with the `n` columns from `x` on, or
    the last one is cut off there because the screen ends one column later. -/
def Divides (scrn : Nat) (x : Int) (w n : Nat) : Prop :=
  w ∣ n ∨ (x + n + 1 = scrn ∧ scrn < x + (n / w * w + w : Nat))

/-! ## Copies along one axis -/

/-- How many copies of width `w` it takes to cover `n` columns. -/
def copies (w n : Nat) : Nat := (n + w - 1) / w

theorem lt_copies_iff {w n m : Nat} (hw : 0 < w) : m < copies w n ↔ m * w < n := by
  rw [copies, Nat.lt_iff_add_one_le, Nat.le_div_iff_mul_le hw, Nat.add_mul, Nat.one_mul]
  omega

/-- The copies reach the last column. -/
theorem le_copies_mul {w n : Nat} (hw : 0 < w) : n ≤ copies w n * w :=
  Nat.not_lt.mp fun h => Nat.lt_irrefl _ ((lt_copies_iff hw).mpr h)

/-- The columns that are drawn, from column `x` on. -/
def covered (scrn : Nat) (x : Int) (w n : Nat) : Nat :=
  if x + (copies w n * w : Nat) ≤ scrn then copies w n * w else (scrn - 1 - x).toNat

section Axis

variable {scrn w n : Nat} {x : Int}

/-- Together the copies draw the columns that are covered, each of them with one
    column of the bitmap. -/
theorem covered_iff (hscrn : scrn < 2 ^ 16) (hw : 0 < w) (h : Within scrn x n) {X i : Nat} :
    (∃ m < copies w n, i < cut scrn (x + (m * w : Nat)) w ∧ X = m * w + i)
      ↔ X < covered scrn x w n ∧ i = X % w := by
  obtain ⟨hx, hxn⟩ := h
  have hcut : ∀ m, m < copies w n → cut scrn (x + (m * w : Nat)) w
      = if x + (m * w : Nat) + w ≤ scrn then w else (scrn - 1 - x - (m * w : Nat)).toNat := by
    intro m hm
    have hlt := (lt_copies_iff hw).mp hm
    rw [cut_of_shown (i := 0) hscrn (by omega) ⟨hw, by omega, by omega⟩]
    split
    · rfl
    · congr 1
      omega
  constructor
  · rintro ⟨m, hm, hi, rfl⟩
    have hlt := (lt_copies_iff hw).mp hm
    have hsucc : (m + 1) * w = m * w + w := Nat.succ_mul m w
    have hle : (m + 1) * w ≤ copies w n * w := Nat.mul_le_mul_right w hm
    rw [hcut m hm] at hi
    have hiw : i < w := by
      split at hi <;> omega
    refine ⟨?_, ?_⟩
    · rw [covered]
      split
      · omega
      · next hout =>
          -- the last copy reaches over the edge, so this one is not the last or is cut off
          by_cases hlast : (m + 1) * w < n
          · omega
          · have heq : copies w n = m + 1 := Nat.le_antisymm
              (Nat.not_lt.mp fun hlt' => hlast ((lt_copies_iff hw).mp hlt')) hm
            rw [heq, hsucc] at hout
            rw [if_neg (by omega)] at hi
            omega
    · rw [Nat.add_comm, Nat.add_mul_mod_self_right, Nat.mod_eq_of_lt hiw]
  · rintro ⟨hX, rfl⟩
    have hdiv : X / w * w + X % w = X := Nat.div_add_mod' X w
    have hmod := Nat.mod_lt X hw
    have hlt : X < copies w n * w := by
      rw [covered] at hX
      split at hX <;> omega
    have hm : X / w < copies w n := Nat.div_lt_of_lt_mul (by rwa [Nat.mul_comm])
    refine ⟨X / w, hm, ?_, hdiv.symm⟩
    rw [hcut _ hm]
    rw [covered] at hX
    split
    · exact hmod
    · split at hX
      · have hle : (X / w + 1) * w ≤ copies w n * w := Nat.mul_le_mul_right w hm
        rw [Nat.succ_mul] at hle
        omega
      · omega

theorem covered_le (h : Within scrn x n) : x + covered scrn x w n ≤ scrn := by
  obtain ⟨hx, hxn⟩ := h
  rw [covered]
  split
  · assumption
  · omega

/-- They are the columns of the rectangle. -/
theorem covered_eq_iff (hw : 0 < w) (h : Within scrn x n) :
    covered scrn x w n = n ↔ Divides scrn x w n := by
  obtain ⟨hx, hxn⟩ := h
  have hle := le_copies_mul (n := n) hw
  rw [Divides]
  by_cases hdvd : w ∣ n
  · have hcopies : copies w n * w = n := by
      obtain ⟨m, rfl⟩ := hdvd
      have hm : copies w (w * m) = m := by
        rw [copies, Nat.add_sub_assoc hw, Nat.mul_add_div hw, Nat.div_eq_of_lt (by omega),
          Nat.add_zero]
      rw [hm, Nat.mul_comm]
    rw [covered, hcopies, if_pos hxn]
    exact iff_of_true rfl (.inl hdvd)
  · have hmod : 0 < n % w := Nat.pos_of_ne_zero fun hzero => hdvd (Nat.dvd_of_mod_eq_zero hzero)
    have hdiv : n / w * w + n % w = n := Nat.div_add_mod' n w
    have hlt := Nat.mod_lt n hw
    have hcopies : copies w n * w = n / w * w + w := by
      have h1 : n / w < copies w n := (lt_copies_iff hw).mpr (by omega)
      have h2 : ¬ n / w + 1 < copies w n := fun h => by
        have := (lt_copies_iff hw).mp h
        rw [Nat.succ_mul] at this
        omega
      rw [show copies w n = n / w + 1 by omega, Nat.succ_mul]
    rw [covered, hcopies]
    constructor
    · intro heq
      refine .inr ?_
      split at heq <;> omega
    · intro hor
      obtain ⟨h1, h2⟩ := hor.resolve_left hdvd
      rw [if_neg (by omega)]
      omega

end Axis

/-! ## The writes of `fill_bitmap` -/

section Bitmap

variable {binfo : BootInfo} {rect : Rect} {bmp : Bitmap}

/-- Where one copy is drawn. -/
def copyRect (rect : Rect) (bmp : Bitmap) (m n : Nat) : Rect :=
  ⟨⟨rect.p.x + BitVec.ofNat 32 (m * bmp.width), rect.p.y + BitVec.ofNat 32 (n * bmp.height)⟩,
    absInt bmp.biWidth, absInt bmp.biHeight⟩

def fillWrites (binfo : BootInfo) (rect : Rect) (bmp : Bitmap) : List (Word × Byte) :=
  (List.range (copies bmp.width rect.width.toNat)).flatMap fun m =>
    (List.range (copies bmp.height rect.height.toNat)).flatMap fun n =>
      bitmapWrites binfo (copyRect rect bmp m n) bmp

/-- A coordinate inside the screen is not wrapped. -/
theorem corner_eq {scrn o : Nat} {x : Word} (hscrn : scrn < 2 ^ 16) (hx : 0 ≤ x.toInt)
    (ho : x.toInt + o ≤ scrn + 2 ^ 31) :
    (x + BitVec.ofNat 32 o).toNat = x.toNat + o ∧ x.toInt = x.toNat := by
  have heq := BitVec.toInt_eq_toNat_bmod x
  have hlt := x.isLt
  rw [Int.bmod_def] at heq
  split at heq
  · rw [BitVec.toNat_add, BitVec.toNat_ofNat]
    omega
  · omega

/-- The test of a loop, after `m` rounds. -/
theorem round_iff {scrn w m : Nat} {x n : Word} (hscrn : scrn < 2 ^ 16) (hw : 0 < w)
    (hwle : w ≤ 2 ^ 31) (h : Within scrn x.toInt n.toNat) (hm : m ≤ copies w n.toNat) :
    x + BitVec.ofNat 32 (m * w) < x + n ↔ m < copies w n.toNat := by
  obtain ⟨hx, hxn⟩ := h
  have hle : m * w ≤ copies w n.toNat * w := Nat.mul_le_mul_right w hm
  have hmul : copies w n.toNat * w ≤ n.toNat + w - 1 := Nat.div_mul_le_self ..
  obtain ⟨h1, hnat⟩ := corner_eq (o := m * w) hscrn hx (by omega)
  obtain ⟨h2, -⟩ := corner_eq (o := n.toNat) hscrn hx (by omega)
  rw [BitVec.ofNat_toNat, BitVec.setWidth_eq] at h2
  rw [BitVec.lt_def, h1, h2, lt_copies_iff hw]
  omega

theorem absInt_eq_ofNat (x : Word) : absInt x = BitVec.ofNat 32 x.toInt.natAbs := by
  have hle := natAbs_le x
  apply BitVec.eq_of_toNat_eq
  rw [absInt_toNat, BitVec.toNat_ofNat, Nat.mod_eq_of_lt (by omega)]

theorem ofNat_width : absInt bmp.biWidth = BitVec.ofNat 32 bmp.width := absInt_eq_ofNat _

theorem ofNat_height : absInt bmp.biHeight = BitVec.ofNat 32 bmp.height := absInt_eq_ofNat _

/-- The first corner, and the next one. -/
theorem corner_zero (x : Word) (w : Nat) : x + BitVec.ofNat 32 (0 * w) = x := by
  rw [Nat.zero_mul]
  exact BitVec.add_zero x

theorem corner_succ (x : Word) (m w : Nat) :
    x + BitVec.ofNat 32 (m * w) + BitVec.ofNat 32 w = x + BitVec.ofNat 32 ((m + 1) * w) := by
  rw [Nat.succ_mul, BitVec.ofNat_add, BitVec.add_assoc]

theorem fillColumn_runs (h24 : bmp.biBitCount = 24) (hh : 0 < bmp.height)
    (hin : InScreen binfo rect) (m : Nat) :
    Runs (fun fuel => fillColumn binfo rect bmp (rect.p.x + BitVec.ofNat 32 (m * bmp.width))
        (absInt bmp.biWidth) (absInt bmp.biHeight) fuel rect.p.y)
      ((List.range (copies bmp.height rect.height.toNat)).flatMap fun n =>
        bitmapWrites binfo (copyRect rect bmp m n) bmp) := by
  have hround := fun n => @round_iff _ _ n _ _ binfo.scrny.isLt hh (natAbs_le bmp.biHeight) hin.down
  have hruns := Runs.loop (n := copies bmp.height rect.height.toNat)
    (f := fun n fuel => fillColumn binfo rect bmp (rect.p.x + BitVec.ofNat 32 (m * bmp.width))
      (absInt bmp.biWidth) (absInt bmp.biHeight) fuel
      (rect.p.y + BitVec.ofNat 32 (n * bmp.height)))
    (g := fun n fuel => drawBitmap binfo fuel (copyRect rect bmp m n) bmp) ?_ ?_
    fun n _ => drawBitmap_runs h24
  · rw [corner_zero] at hruns
    exact hruns
  · intro n hn fuel mem
    rw [fillColumn, if_pos ((hround n hn.le).mpr hn), ← corner_succ, ← ofNat_height]
    rfl
  · intro fuel mem
    rw [fillColumn, if_neg fun h => Nat.lt_irrefl _ ((hround _ (Nat.le_refl _)).mp h)]

theorem fillBitmap_runs (h24 : bmp.biBitCount = 24) (hw : 0 < bmp.width) (hh : 0 < bmp.height)
    (hin : InScreen binfo rect) :
    Runs (fun fuel => fillBitmap binfo fuel rect bmp) (fillWrites binfo rect bmp) := by
  have hround := fun m =>
    @round_iff _ _ m _ _ binfo.scrnx.isLt hw (natAbs_le bmp.biWidth) hin.across
  have hruns := Runs.loop (n := copies bmp.width rect.width.toNat)
    (f := fun m fuel => fillColumns binfo rect bmp (absInt bmp.biWidth) (absInt bmp.biHeight) fuel
      (rect.p.x + BitVec.ofNat 32 (m * bmp.width)))
    (g := fun m fuel => fillColumn binfo rect bmp (rect.p.x + BitVec.ofNat 32 (m * bmp.width))
      (absInt bmp.biWidth) (absInt bmp.biHeight) fuel rect.p.y) ?_ ?_
    fun m _ => fillColumn_runs h24 hh hin m
  · rw [corner_zero] at hruns
    exact hruns
  · intro m hm fuel mem
    rw [fillColumns, if_pos ((hround m hm.le).mpr hm), ← corner_succ, ← ofNat_width]
    rfl
  · intro fuel mem
    rw [fillColumns, if_neg fun h => Nat.lt_irrefl _ ((hround _ (Nat.le_refl _)).mp h)]

/-- The coordinate of copy `m`. -/
theorem copy_toInt {scrn w m : Nat} {x n : Word} (hscrn : scrn < 2 ^ 16) (hw : 0 < w)
    (h : Within scrn x.toInt n.toNat) (hm : m < copies w n.toNat) :
    (x + BitVec.ofNat 32 (m * w)).toInt = x.toInt + (m * w : Nat) := by
  obtain ⟨hx, hxn⟩ := h
  have hlt := (lt_copies_iff hw).mp hm
  obtain ⟨h1, h2⟩ := corner_eq (o := m * w) hscrn hx (by omega)
  rw [BitVec.toInt_eq_toNat_of_lt (by omega), h1]
  omega

theorem cols_copyRect (m n : Nat) : bmp.cols (copyRect rect bmp m n) = bmp.width := by
  rw [Bitmap.cols, copyRect, absInt_toNat, ← Bitmap.width, Nat.min_self]

theorem rows_copyRect (m n : Nat) : bmp.rows (copyRect rect bmp m n) = bmp.height := by
  rw [Bitmap.rows, copyRect, absInt_toNat, ← Bitmap.height, Nat.min_self]

/-- The columns and rows that are covered. -/
def coveredCols (binfo : BootInfo) (rect : Rect) (bmp : Bitmap) : Nat :=
  covered binfo.scrnx.toNat rect.p.x.toInt bmp.width rect.width.toNat

def coveredRows (binfo : BootInfo) (rect : Rect) (bmp : Bitmap) : Nat :=
  covered binfo.scrny.toNat rect.p.y.toInt bmp.height rect.height.toNat

/-- Every byte that is covered is written with the byte of the bitmap repeated
    there, at the computed length of a row. -/
theorem mem_fillWrites (hw : 0 < bmp.width) (hh : 0 < bmp.height) (hin : InScreen binfo rect)
    {w : Word × Byte} : w ∈ fillWrites binfo rect bmp ↔
      ∃ X < coveredCols binfo rect bmp, ∃ Y < coveredRows binfo rect bmp, ∃ k < 3,
        w = (binfo.byteAt (rect.p.x.toInt + X) (rect.p.y.toInt + Y) k,
          dataAt bmp.data bmp.pitch (X % bmp.width) (Y % bmp.height) k) := by
  have hcols := fun X i => @covered_iff _ _ _ _ binfo.scrnx.isLt hw hin.across X i
  have hrows := fun Y j => @covered_iff _ _ _ _ binfo.scrny.isLt hh hin.down Y j
  simp only [fillWrites, List.mem_flatMap, List.mem_range, mem_bitmapWrites, drawnCols, drawnRows,
    cols_copyRect, rows_copyRect]
  constructor
  · rintro ⟨m, hm, n, hn, i, hi, j, hj, k, hk, rfl⟩
    rw [copyRect, copy_toInt binfo.scrnx.isLt hw hin.across hm] at hi
    rw [copyRect, copy_toInt binfo.scrny.isLt hh hin.down hn] at hj
    obtain ⟨hX, hXi⟩ := (hcols _ _).mp ⟨m, hm, hi, rfl⟩
    obtain ⟨hY, hYj⟩ := (hrows _ _).mp ⟨n, hn, hj, rfl⟩
    refine ⟨_, hX, _, hY, k, hk, ?_⟩
    rw [← hXi, ← hYj, copyRect, copy_toInt binfo.scrnx.isLt hw hin.across hm,
      copy_toInt binfo.scrny.isLt hh hin.down hn, Int.add_assoc, Int.add_assoc]
    rfl
  · rintro ⟨X, hX, Y, hY, k, hk, rfl⟩
    obtain ⟨m, hm, hi, hXm⟩ := (hcols _ _).mpr ⟨hX, rfl⟩
    obtain ⟨n, hn, hj, hYn⟩ := (hrows _ _).mpr ⟨hY, rfl⟩
    refine ⟨m, hm, n, hn, X % bmp.width, ?_, Y % bmp.height, ?_, k, hk, ?_⟩
    · rw [copyRect, copy_toInt binfo.scrnx.isLt hw hin.across hm]
      exact hi
    · rw [copyRect, copy_toInt binfo.scrny.isLt hh hin.down hn]
      exact hj
    · rw [copyRect, copy_toInt binfo.scrnx.isLt hw hin.across hm,
        copy_toInt binfo.scrny.isLt hh hin.down hn, Int.add_assoc, Int.add_assoc,
        ← Int.natCast_add, ← Int.natCast_add, ← hXm, ← hYn]

/-! ## Columns and rows that are covered -/

theorem repeated_iff {a : Word} {v : Byte} : Repeated binfo rect bmp a v ↔
    ∃ n : Nat × Nat × Nat,
      (n.1 < rect.width.toNat ∧ n.2.1 < rect.height.toNat ∧ n.2.2 < 3) ∧
      a = binfo.byteAt (rect.p.x.toInt + n.1) (rect.p.y.toInt + n.2.1) n.2.2 ∧
      v = dataAt bmp.data bmp.stride (n.1 % bmp.width) (n.2.1 % bmp.height) n.2.2 := by
  simp only [Repeated, Prod.exists, and_assoc]

/-- Bytes of the screen, by their distance from the corner of the rectangle. -/
theorem offset_inj (hin : InScreen binfo rect) {X Y X' Y' k l : Nat}
    (hX : rect.p.x.toInt + X < binfo.scrnx.toNat) (hY : rect.p.y.toInt + Y < binfo.scrny.toNat)
    (hX' : rect.p.x.toInt + X' < binfo.scrnx.toNat) (hY' : rect.p.y.toInt + Y' < binfo.scrny.toNat)
    (hk : k < 3) (hl : l < 3)
    (h : binfo.byteAt (rect.p.x.toInt + X) (rect.p.y.toInt + Y) k
      = binfo.byteAt (rect.p.x.toInt + X') (rect.p.y.toInt + Y') l) : X = X' ∧ Y = Y' ∧ k = l := by
  have hx := hin.across.1
  have hy := hin.down.1
  obtain ⟨h1, h2, h3⟩ := byteAt_inj ⟨by omega, hX⟩ ⟨by omega, hY⟩ ⟨by omega, hX'⟩ ⟨by omega, hY'⟩
    hk hl h
  exact ⟨by omega, by omega, h3⟩

/-- The rectangle is what is covered. -/
theorem exact_of_covered (hw : 0 < bmp.width) (hh : 0 < bmp.height) (hin : InScreen binfo rect)
    (hcols : coveredCols binfo rect bmp = rect.width.toNat)
    (hrows : coveredRows binfo rect bmp = rect.height.toNat) :
    (∀ mem, Exact (fillWrites binfo rect bmp) (Repeated binfo rect bmp) mem)
      ↔ RowsAgree bmp (min bmp.width rect.width.toNat) (min bmp.height rect.height.toNat) := by
  rw [exact_iff_agree (fun n : Nat × Nat × Nat =>
      n.1 < rect.width.toNat ∧ n.2.1 < rect.height.toNat ∧ n.2.2 < 3)
    (fun n => binfo.byteAt (rect.p.x.toInt + n.1) (rect.p.y.toInt + n.2.1) n.2.2)
    (fun n => dataAt bmp.data bmp.pitch (n.1 % bmp.width) (n.2.1 % bmp.height) n.2.2) ?_
    (fun _ _ => repeated_iff) ?_]
  · constructor
    · intro h i j k hi hj hk
      obtain ⟨hiw, hir⟩ := Nat.lt_min.mp hi
      obtain ⟨hjh, hjr⟩ := Nat.lt_min.mp hj
      have hboth := h (i, j, k) ⟨hir, hjr, hk⟩
      dsimp only at hboth
      rw [Nat.mod_eq_of_lt hiw, Nat.mod_eq_of_lt hjh] at hboth
      exact hboth
    · rintro h ⟨X, Y, k⟩ ⟨hX, hY, hk⟩
      exact h _ _ _ (Nat.lt_min.mpr ⟨Nat.mod_lt X hw, Nat.lt_of_le_of_lt (Nat.mod_le ..) hX⟩)
        (Nat.lt_min.mpr ⟨Nat.mod_lt Y hh, Nat.lt_of_le_of_lt (Nat.mod_le ..) hY⟩) hk
  · intro w
    rw [mem_fillWrites hw hh hin, hcols, hrows]
    constructor
    · rintro ⟨X, hX, Y, hY, k, hk, rfl⟩
      exact ⟨(X, Y, k), ⟨hX, hY, hk⟩, rfl⟩
    · rintro ⟨⟨X, Y, k⟩, ⟨hX, hY, hk⟩, rfl⟩
      exact ⟨X, hX, Y, hY, k, hk, rfl⟩
  · rintro ⟨X, Y, k⟩ ⟨X', Y', k'⟩ ⟨hX, hY, hk⟩ ⟨hX', hY', hk'⟩ haddr
    have hx := hin.across.2
    have hy := hin.down.2
    dsimp only at hX hY hk hX' hY' hk' haddr
    obtain ⟨h1, h2, h3⟩ := offset_inj hin (by omega) (by omega) (by omega) (by omega) hk hk' haddr
    rw [h1, h2, h3]

/-- Without columns or rows there is nothing to fill, and nothing is. -/
theorem exact_of_empty (hw : 0 < bmp.width) (hh : 0 < bmp.height) (hin : InScreen binfo rect)
    (hempty : rect.width.toNat = 0 ∨ rect.height.toNat = 0) :
    ∀ mem, Exact (fillWrites binfo rect bmp) (Repeated binfo rect bmp) mem := by
  have hzero : coveredCols binfo rect bmp = 0 ∨ coveredRows binfo rect bmp = 0 := by
    refine hempty.imp (fun h => ?_) fun h => ?_
    · rw [← h]
      exact (covered_eq_iff hw hin.across).mpr (.inl (h ▸ Nat.dvd_zero _))
    · rw [← h]
      exact (covered_eq_iff hh hin.down).mpr (.inl (h ▸ Nat.dvd_zero _))
  have hno : ∀ a v, ¬ Repeated binfo rect bmp a v := by
    rintro a v ⟨X, Y, -, hX, hY, -⟩
    omega
  refine Exact.of_none (fun w hmem => ?_) hno
  obtain ⟨X, hX, Y, hY, -⟩ := (mem_fillWrites hw hh hin).mp hmem
  omega

/-- Something of the rectangle is not covered, or something else is. -/
theorem not_exact_of_covered_ne (hw : 0 < bmp.width) (hh : 0 < bmp.height)
    (hin : InScreen binfo rect) (hrw : 0 < rect.width.toNat) (hrh : 0 < rect.height.toNat)
    (hne : ¬ (coveredCols binfo rect bmp = rect.width.toNat ∧
      coveredRows binfo rect bmp = rect.height.toNat)) :
    ¬ ∀ mem, Exact (fillWrites binfo rect bmp) (Repeated binfo rect bmp) mem := by
  have hx := hin.across.2
  have hy := hin.down.2
  have hcols : rect.p.x.toInt + coveredCols binfo rect bmp ≤ binfo.scrnx.toNat :=
    covered_le hin.across
  have hrows : rect.p.y.toInt + coveredRows binfo rect bmp ≤ binfo.scrny.toNat :=
    covered_le hin.down
  -- a pixel of the rectangle behind what is covered
  have missing : ∀ X Y, X < rect.width.toNat → Y < rect.height.toNat →
      coveredCols binfo rect bmp ≤ X ∨ coveredRows binfo rect bmp ≤ Y →
      ¬ ∀ mem, Exact (fillWrites binfo rect bmp) (Repeated binfo rect bmp) mem := by
    intro X Y hX hY hlost
    refine not_exact_of_missing ⟨X, Y, 0, hX, hY, by decide, rfl, rfl⟩ ?_
    intro w hmem heq
    obtain ⟨X', hX', Y', hY', k, hk, rfl⟩ := (mem_fillWrites hw hh hin).mp hmem
    obtain ⟨h1, h2, -⟩ := offset_inj hin (by omega) (by omega) (by omega) (by omega) hk
      (by decide) heq
    omega
  -- a pixel that is covered behind the rectangle
  have stray : ∀ X Y, X < coveredCols binfo rect bmp → Y < coveredRows binfo rect bmp →
      rect.width.toNat ≤ X ∨ rect.height.toNat ≤ Y →
      ¬ ∀ mem, Exact (fillWrites binfo rect bmp) (Repeated binfo rect bmp) mem := by
    intro X Y hX hY hbehind
    refine not_exact_of_stray ((mem_fillWrites hw hh hin).mpr
      ⟨X, hX, Y, hY, 0, by decide, rfl⟩) ?_
    rintro v ⟨X', Y', k, hX', hY', hk, heq, -⟩
    obtain ⟨h1, h2, -⟩ := offset_inj hin (by omega) (by omega) (by omega) (by omega)
      (by decide) hk heq
    omega
  by_cases hlost : coveredCols binfo rect bmp < rect.width.toNat
  · exact missing _ 0 hlost hrh (.inl (Nat.le_refl _))
  by_cases hlost' : coveredRows binfo rect bmp < rect.height.toNat
  · exact missing 0 _ hrw hlost' (.inr (Nat.le_refl _))
  by_cases hcol : rect.width.toNat < coveredCols binfo rect bmp
  · exact stray _ 0 hcol (by omega) (.inl (Nat.le_refl _))
  · exact stray 0 _ (by omega) (by omega) (.inr (Nat.le_refl _))

/-- **WHICH RECTANGLES ARE FILLED WITH A BITMAP**: with any screen, and any
    rectangle in it, those without columns or rows; and those that the bitmap
    divides on both axes, or that end one column or row before the screen does,
    if the rows of the bitmap are where the computed length has them. -/
theorem fillBitmap_fills_iff (h24 : bmp.biBitCount = 24) (hw : 0 < bmp.width)
    (hh : 0 < bmp.height) (hin : InScreen binfo rect) :
    FillsBitmap binfo rect bmp ↔ rect.width.toNat = 0 ∨ rect.height.toNat = 0 ∨
      (Divides binfo.scrnx.toNat rect.p.x.toInt bmp.width rect.width.toNat ∧
        Divides binfo.scrny.toNat rect.p.y.toInt bmp.height rect.height.toNat ∧
        RowsAgree bmp (min bmp.width rect.width.toNat) (min bmp.height rect.height.toNat)) := by
  rw [FillsBitmap, (fillBitmap_runs h24 hw hh hin).leaves_iff, ← covered_eq_iff hw hin.across,
    ← covered_eq_iff hh hin.down, ← coveredCols, ← coveredRows]
  by_cases hempty : rect.width.toNat = 0 ∨ rect.height.toNat = 0
  · exact iff_of_true (exact_of_empty hw hh hin hempty)
      (hempty.elim .inl fun h => .inr (.inl h))
  · obtain ⟨hrw, hrh⟩ := not_or.mp hempty
    by_cases hboth : coveredCols binfo rect bmp = rect.width.toNat ∧
        coveredRows binfo rect bmp = rect.height.toNat
    · rw [exact_of_covered hw hh hin hboth.1 hboth.2]
      constructor
      · exact fun hagree => .inr (.inr ⟨hboth.1, hboth.2, hagree⟩)
      · rintro (hzero | hzero | ⟨-, -, hagree⟩)
        · exact absurd hzero hrw
        · exact absurd hzero hrh
        · exact hagree
    · refine iff_of_false (not_exact_of_covered_ne hw hh hin (Nat.pos_of_ne_zero hrw)
        (Nat.pos_of_ne_zero hrh) hboth) ?_
      rintro (hzero | hzero | ⟨h1, h2, -⟩)
      · exact hrw hzero
      · exact hrh hzero
      · exact hboth ⟨h1, h2⟩

end Bitmap

theorem fillBitmap_fills_iff_square :
    FillsBitmap vbeScreen ⟨⟨100, 100⟩, 25, 30⟩ greyBitmap ↔ 25 = 0 ∨ 30 = 0 ∨
      (Divides 1024 100 10 25 ∧ Divides 768 100 10 30 ∧ RowsAgree greyBitmap 10 10) :=
  fillBitmap_fills_iff (show greyBitmap.biBitCount = 24 by decide)
    (show 0 < greyBitmap.width by decide) (show 0 < greyBitmap.height by decide)
    ⟨show Within vbeScreen.scrnx.toNat (100 : Word).toInt (25 : Word).toNat by decide,
      show Within vbeScreen.scrny.toNat (100 : Word).toInt (30 : Word).toNat by decide⟩

/-- Copies of ten columns do not end with a rectangle of twenty-five. -/
theorem not_fillBitmap_fills : ¬ ∀ binfo rect bmp, bmp.biBitCount = 24 → 0 < bmp.width →
    0 < bmp.height → InScreen binfo rect → FillsBitmap binfo rect bmp := by
  intro hall
  have hin : InScreen vbeScreen ⟨⟨100, 100⟩, 25, 30⟩ := ⟨by decide, by decide⟩
  have h := hall vbeScreen ⟨⟨100, 100⟩, 25, 30⟩ greyBitmap (by decide) (by decide) (by decide) hin
  rw [FillsBitmap, (fillBitmap_runs (by decide) (by decide) (by decide) hin).leaves_iff] at h
  refine not_exact_of_covered_ne (by decide) (by decide) hin (by decide) (by decide) ?_ h
  decide

end SharixGraphic
