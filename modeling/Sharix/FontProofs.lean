import Sharix.EditboxProofs
import Sharix.GetPixelProofs

/-! # Text on the screen — `font/font.c`

    `draw_asc16` sets the pixels whose bit is set in the glyph and leaves the
    others as they are; off the screen it sets nothing, so a text that runs out
    of its row is cut off and does not come in again on the left
    (`draw_str16_paints`).

    Nothing clears the place of a character.  An editbox that comes round to a
    place again writes the new character over the old one, and both are to be
    seen (`editbox_text_shows`). -/

namespace SharixFont

open SharixGraphic SharixEditbox

/-! ## The model -/

section Model

variable (binfo : BootInfo) (font : Word → Byte)

/-- The inner loop of `draw_asc16`, at column `x`: `bits` is `*p_asc`. -/
def drawBits (bits : Byte) (point : Point) (c : Rgb) (y : Word) :
    Nat → Word → Byte → Mem → Mem
  | 0, _, _, mem => mem
  | n + 1, x, testbit, mem =>
      let mem :=
        if bits &&& testbit ≠ 0 then setPixel binfo c (point.x + x) (point.y + y) mem else mem
      drawBits bits point c y n (x + 1) (testbit >>> 1) mem

/-- The outer loop, at row `y`; `font` is indexed from `p_font_asc16_b`. -/
def drawRows (point : Point) (c : Rgb) : Nat → Word → Word → Mem → Mem
  | 0, _, _, mem => mem
  | n + 1, y, pAsc, mem =>
      drawRows point c n (y + 1) (pAsc + 1)
        (drawBits binfo (font pAsc) point c y 8 0 (1#8 <<< 7) mem)

def drawAsc16 (ch : Byte) (point : Point) (c : Rgb) (mem : Mem) : Mem :=
  drawRows binfo font point c 16 0 (ch.setWidth 32 * 16) mem

/-- `draw_str16`, on the string without its `NUL`. -/
def drawStr16 : List Byte → Point → Rgb → Mem → Mem
  | [], _, _, mem => mem
  | ch :: s, point, c, mem =>
      drawStr16 s ⟨point.x + 8, point.y⟩ c (drawAsc16 binfo font ch point c mem)

/-- What the calls of `draw_asc16` that an editbox made leave in memory. -/
def paint (drawn : List (Int × Point × Rgb)) (mem : Mem) : Mem :=
  drawn.foldl (fun mem d => drawAsc16 binfo font (BitVec.ofInt 8 d.1) d.2.1 d.2.2 mem) mem

end Model

/-! ## Pixels that are set -/

variable {binfo : BootInfo} {font : Word → Byte}

/-- Pixel `n` is the one at `(x, y)`, on the screen. -/
def Dot (binfo : BootInfo) (x y : Word) (n : Nat) : Prop :=
  isPixelValid binfo x y = true ∧ n = binfo.number x y

theorem Dot.lt {x y : Word} {n : Nat} (h : Dot binfo x y n) : n < binfo.size := by
  obtain ⟨hvalid, rfl⟩ := h
  exact number_lt_size hvalid

/-- Off the screen nothing is set. -/
theorem setPixel_dot (c : Rgb) (x y : Word) (mem : Mem) :
    Painted binfo c (Dot binfo x y) mem (setPixel binfo c x y mem) := by
  by_cases hvalid : isPixelValid binfo x y = true
  · exact (setPixel_painted hvalid c mem).congr fun n => ⟨fun h => ⟨hvalid, h⟩, fun h => h.2⟩
  · rw [setPixel, if_pos (Bool.not_eq_true _ ▸ hvalid)]
    exact .none (fun n h => hvalid h.1) mem

/-- **THE RULE OF A COUNTED LOOP**: what round `i` paints, for each of the rounds. -/
theorem painted_rounds {c : Rgb} {f : Nat → Mem → Mem} {g : Nat → Nat → Mem → Mem}
    {P : Nat → Nat → Prop} (hstop : ∀ i mem, g 0 i mem = mem)
    (hround : ∀ n i mem, g (n + 1) i mem = g n (i + 1) (f i mem))
    (hf : ∀ i mem, Painted binfo c (P i) mem (f i mem)) (hP : ∀ i m, P i m → m < binfo.size)
    (n : Nat) : ∀ (i : Nat) (mem : Mem),
      Painted binfo c (fun m => ∃ k, i ≤ k ∧ k < i + n ∧ P k m) mem (g n i mem) := by
  induction n with
  | zero =>
      intro i mem
      rw [hstop]
      exact .none (fun m ⟨k, h, h', _⟩ => absurd h' (Nat.not_lt.mpr h)) mem
  | succ n ih =>
      intro i mem
      rw [hround]
      refine ((hf i mem).trans (ih (i + 1) _) (hP i) fun m ⟨k, _, _, h⟩ => hP k m h).congr ?_
      intro m
      constructor
      · rintro (h | ⟨k, h, h', hm⟩)
        · exact ⟨i, Nat.le_refl i, by omega, h⟩
        · exact ⟨k, by omega, by omega, hm⟩
      · rintro ⟨k, h, h', hm⟩
        rcases Nat.eq_or_lt_of_le h with rfl | hlt
        · exact .inl hm
        · exact .inr ⟨k, hlt, by omega, hm⟩

/-! ## Glyphs -/

/-- The bit of a glyph in column `i` of row `j`. -/
def glyphBit (font : Word → Byte) (ch : Byte) (i j : Nat) : Bool :=
  (font (BitVec.ofNat 32 (16 * ch.toNat + j))).getMsbD i

/-- Pixel `n` is one that the glyph sets when it is drawn at `p`. -/
def Inked (binfo : BootInfo) (font : Word → Byte) (ch : Byte) (p : Point) (n : Nat) : Prop :=
  ∃ i j, i < 8 ∧ j < 16 ∧ glyphBit font ch i j = true ∧
    Dot binfo (p.x + BitVec.ofNat 32 i) (p.y + BitVec.ofNat 32 j) n

theorem Inked.lt {ch : Byte} {p : Point} {n : Nat} (h : Inked binfo font ch p n) :
    n < binfo.size := by
  obtain ⟨i, j, -, -, -, hdot⟩ := h
  exact hdot.lt

theorem testbit_eq : ∀ i < 8, (1#8 <<< 7) >>> i = BitVec.twoPow 8 (7 - i) := by decide

theorem testbit_iff (bits : Byte) {i : Nat} (hi : i < 8) :
    bits &&& (1#8 <<< 7) >>> i ≠ 0 ↔ bits.getMsbD i = true := by
  rw [testbit_eq i hi, BitVec.and_twoPow, BitVec.getMsbD, decide_eq_true hi, Bool.true_and]
  by_cases hbit : bits.getLsbD (7 - i) = true
  · rw [if_pos hbit]
    refine ⟨fun _ => hbit, fun _ hzero => ?_⟩
    have htop := congrArg (fun b : Byte => b.getLsbD (7 - i)) hzero
    simp at htop
    omega
  · rw [if_neg hbit]
    exact ⟨fun h => absurd rfl h, fun h => absurd h hbit⟩

theorem drawBits_painted (bits : Byte) (p : Point) (c : Rgb) (y : Word) (mem : Mem) :
    Painted binfo c (fun n => ∃ i, i < 8 ∧ bits.getMsbD i = true ∧
      Dot binfo (p.x + BitVec.ofNat 32 i) (p.y + y) n) mem
      (drawBits binfo bits p c y 8 0 (1#8 <<< 7) mem) := by
  have hrounds := @painted_rounds binfo c
    (fun i mem => if bits &&& (1#8 <<< 7) >>> i ≠ 0 then
      setPixel binfo c (p.x + BitVec.ofNat 32 i) (p.y + y) mem else mem)
    (fun n i mem => drawBits binfo bits p c y n (BitVec.ofNat 32 i) ((1#8 <<< 7) >>> i) mem)
    (fun i n => bits &&& (1#8 <<< 7) >>> i ≠ 0 ∧
      Dot binfo (p.x + BitVec.ofNat 32 i) (p.y + y) n)
    (fun _ _ => rfl) (fun n i mem => ?_) (fun i mem => ?_) (fun i m h => h.2.lt) 8 0 mem
  · refine hrounds.congr fun n => exists_congr fun i => ?_
    constructor
    · rintro ⟨-, hi, hbit, hdot⟩
      exact ⟨by omega, (testbit_iff bits (by omega)).mp hbit, hdot⟩
    · rintro ⟨hi, hbit, hdot⟩
      exact ⟨Nat.zero_le i, by omega, (testbit_iff bits hi).mpr hbit, hdot⟩
  · rw [drawBits, BitVec.ofNat_add, BitVec.shiftRight_add]
    rfl
  · split
    · next hbit =>
        exact (setPixel_dot c _ _ mem).congr fun n => ⟨fun h => ⟨hbit, h⟩, fun h => h.2⟩
    · next hbit => exact .none (fun n h => hbit h.1) mem

/-- A glyph sets its pixels, as far as they are on the screen. -/
theorem drawAsc16_painted (ch : Byte) (p : Point) (c : Rgb) (mem : Mem) :
    Painted binfo c (Inked binfo font ch p) mem (drawAsc16 binfo font ch p c mem) := by
  have hrounds := @painted_rounds binfo c
    (fun j mem => drawBits binfo (font (BitVec.ofNat 32 (16 * ch.toNat + j))) p c
      (BitVec.ofNat 32 j) 8 0 (1#8 <<< 7) mem)
    (fun n j mem => drawRows binfo font p c n (BitVec.ofNat 32 j)
      (BitVec.ofNat 32 (16 * ch.toNat + j)) mem)
    (fun j n => ∃ i, i < 8 ∧ glyphBit font ch i j = true ∧
      Dot binfo (p.x + BitVec.ofNat 32 i) (p.y + BitVec.ofNat 32 j) n)
    (fun _ _ => rfl) (fun n j mem => ?_) (fun j mem => drawBits_painted _ _ _ _ _)
    (fun j m ⟨_, _, _, h⟩ => h.lt) 16 0 mem
  · have hbase : ch.setWidth 32 * 16 = BitVec.ofNat 32 (16 * ch.toNat + 0) := by
      refine BitVec.eq_of_toNat_eq ?_
      have := ch.isLt
      rw [BitVec.toNat_mul, BitVec.toNat_setWidth, BitVec.toNat_ofNat]
      show ch.toNat % 2 ^ 32 * 16 % 2 ^ 32 = _
      omega
    rw [drawAsc16, hbase]
    refine hrounds.congr fun n => ?_
    constructor
    · rintro ⟨j, -, hj, i, hi, hbit, hdot⟩
      exact ⟨i, j, hi, by omega, hbit, hdot⟩
    · rintro ⟨i, j, hi, hj, hbit, hdot⟩
      exact ⟨j, Nat.zero_le j, by omega, i, hi, hbit, hdot⟩
  · rw [drawRows, ← Nat.add_assoc, BitVec.ofNat_add (16 * ch.toNat + j), BitVec.ofNat_add j]
    rfl

/-- **A ROW OF TEXT**: `draw_str16` sets, of the pixels of the screen, those of the
    glyphs side by side, and leaves every other byte of memory alone. -/
theorem draw_str16_paints (binfo : BootInfo) (font : Word → Byte) (c : Rgb) (s : List Byte) :
    ∀ (p : Point) (mem : Mem),
      Painted binfo c (fun n => ∃ k ch, s[k]? = some ch ∧
        Inked binfo font ch ⟨p.x + BitVec.ofNat 32 (8 * k), p.y⟩ n) mem
        (drawStr16 binfo font s p c mem) := by
  induction s with
  | nil => exact fun p mem => .none (fun n ⟨k, ch, h, _⟩ => nomatch h) mem
  | cons ch s ih =>
      intro p mem
      refine ((drawAsc16_painted ch p c mem).trans (ih _ _) (fun n h => h.lt)
        fun n ⟨_, _, _, h⟩ => h.lt).congr fun n => ?_
      have hnext : ∀ k, (p.x + 8 + BitVec.ofNat 32 (8 * k) : Word)
          = p.x + BitVec.ofNat 32 (8 * (k + 1)) := by
        intro k
        rw [Nat.mul_add, Nat.add_comm (8 * k), BitVec.ofNat_add, ← BitVec.add_assoc]
        rfl
      have hfirst : (p.x + BitVec.ofNat 32 (8 * 0) : Word) = p.x := BitVec.add_zero _
      constructor
      · rintro (h | ⟨k, ch', hk, h⟩)
        · exact ⟨0, ch, rfl, by rw [hfirst]; exact h⟩
        · exact ⟨k + 1, ch', hk, hnext k ▸ h⟩
      · rintro ⟨k, ch', hk, h⟩
        cases k with
        | zero =>
            obtain rfl := Option.some.inj hk
            rw [hfirst] at h
            exact .inl h
        | succ k => exact .inr ⟨k, ch', hk, (hnext k).symm ▸ h⟩

/-! ## The places of an editbox -/

/-- The printed characters of a text, each with the place where it is drawn, from
    the place `p` on, in a box `w` wide. -/
def layout (w places : Int) : Int → List Int → List (Int × Int)
  | _, [] => []
  | p, ch :: str =>
      if ch = 10 ∨ ch = 9 then layout w places ((p / w + 1) * w % places) str
      else (p, ch) :: layout w places ((p + 1) % places) str

/-- Where the glyph of a place is drawn. -/
def placePoint (eb : Editbox) (q : Int) : Point :=
  ⟨eb.point.x + BitVec.ofInt 32 (q % eb.chX * ASC16_WIDTH),
    eb.point.y + BitVec.ofInt 32 (q / eb.chX * ASC16_HEIGHT)⟩

/-- A row of calls of `edit_putchar`, such as one of `edit_putstr`. -/
def putchars (str : List Int) (s : State) : State := str.foldl (fun s ch => editPutchar ch s) s

theorem editPutstr_eq (str : List Int) (s : State) :
    editPutstr str s = putchars (str.takeWhile (· ≠ 0)) s := rfl

theorem place_column {eb : Editbox} (h : Inside eb) : place eb % eb.chX = eb.curX := by
  rw [place, Int.add_comm, Int.add_mul_emod_self_right, Int.emod_eq_of_lt h.x.1 h.x.2]

/-- A newline goes to the first place of the next row. -/
theorem place_newline {eb : Editbox} (h : Inside eb) :
    place (wrapRow { eb with curY := eb.curY + 1, curX := 0 })
      = (place eb / eb.chX + 1) * eb.chX % (eb.chX * eb.chY) := by
  obtain ⟨⟨hx, hx'⟩, hy, hy'⟩ := h
  rw [place_row ⟨⟨hx, hx'⟩, hy, hy'⟩, place]
  show (if eb.curY + 1 ≥ eb.chY then 0 else eb.curY + 1) * eb.chX + 0 = _
  split
  · next hlast =>
      rw [show eb.curY + 1 = eb.chY by omega, Int.mul_comm eb.chX, Int.emod_self]
      omega
  · next hless =>
      have hroom : (eb.curY + 2) * eb.chX ≤ eb.chY * eb.chX :=
        Int.mul_le_mul_of_nonneg_right (by omega) (by omega)
      have htwo : (eb.curY + 2) * eb.chX = (eb.curY + 1) * eb.chX + eb.chX := by
        rw [Int.add_mul, Int.add_mul]
        omega
      have hpos : 0 ≤ (eb.curY + 1) * eb.chX := Int.mul_nonneg (by omega) (by omega)
      rw [Int.mul_comm eb.chX, Int.emod_eq_of_lt hpos (by omega), Int.add_zero]

/-- The glyphs that a row of calls draws: by induction on the text. -/
theorem putchars_drawn {str : List Int} : ∀ {s : State}, Inside s.eb →
    (putchars str s).drawn = s.drawn ++
      (layout s.eb.chX (s.eb.chX * s.eb.chY) (place s.eb) str).map fun d =>
        (d.2, placePoint s.eb d.1, s.eb.textC) := by
  induction str with
  | nil => exact fun _ => (List.append_nil _).symm
  | cons ch str ih =>
      intro s h
      obtain ⟨hin, hsame⟩ := editPutchar_inside ch h
      show (putchars str (editPutchar ch s)).drawn = _
      rw [ih hin]
      by_cases hch : ch = 10 ∨ ch = 9
      · have hnext : editPutchar ch s
            = { s with eb := wrapRow { s.eb with curY := s.eb.curY + 1, curX := 0 } } := if_pos hch
        rw [layout, if_pos hch, hnext, place_newline h]
        rfl
      · have hnext : editPutchar ch s = { s with
            eb := wrapRow (nextColumn s.eb)
            drawn := s.drawn ++ [(ch, placePoint s.eb (place s.eb), s.eb.textC)] } := by
          rw [editPutchar, if_neg hch, placePoint, place_row h, place_column h]
        rw [layout, if_neg hch, hnext, place_next h, List.map_cons, List.append_assoc]
        rfl

theorem paint_painted (c : Rgb) (drawn : List (Int × Point × Rgb)) :
    ∀ mem : Mem, (∀ d ∈ drawn, d.2.2 = c) →
      Painted binfo c (fun n => ∃ d ∈ drawn, Inked binfo font (BitVec.ofInt 8 d.1) d.2.1 n) mem
        (paint binfo font drawn mem) := by
  induction drawn with
  | nil => exact fun mem _ => .none (fun n ⟨d, hd, _⟩ => absurd hd List.not_mem_nil) mem
  | cons d drawn ih =>
      intro mem hc
      obtain ⟨ch, p, c'⟩ := d
      obtain rfl : c' = c := hc _ List.mem_cons_self
      have hrest := ih (drawAsc16 binfo font (BitVec.ofInt 8 ch) p c' mem) fun d hd =>
        hc d (List.mem_cons_of_mem _ hd)
      refine ((drawAsc16_painted (BitVec.ofInt 8 ch) p c' mem).trans hrest (fun n h => h.lt)
        fun n ⟨_, _, h⟩ => h.lt).congr fun n => ?_
      rw [List.exists_mem_cons_iff]

/-! ## What is to be seen -/

/-- The box lies on the screen. -/
structure OnScreen (binfo : BootInfo) (eb : Editbox) : Prop where
  x : eb.point.x.toNat + 8 * eb.chX ≤ binfo.scrnx.toNat
  y : eb.point.y.toNat + 16 * eb.chY ≤ binfo.scrny.toNat

/-- Column `i` and row `j` of the place `q`. -/
structure InPlace (eb : Editbox) (q : Int) (i j : Nat) : Prop where
  place : 0 ≤ q ∧ q < eb.chX * eb.chY
  column : i < 8
  row : j < 16

def pixelX (eb : Editbox) (q : Int) (i : Nat) : Nat :=
  eb.point.x.toNat + 8 * (q % eb.chX).toNat + i

def pixelY (eb : Editbox) (q : Int) (j : Nat) : Nat :=
  eb.point.y.toNat + 16 * (q / eb.chX).toNat + j

/-- The pixel in column `i` and row `j` of the place `q`. -/
def placePixel (binfo : BootInfo) (eb : Editbox) (q : Int) (i j : Nat) : Nat :=
  binfo.scrnx.toNat * pixelY eb q j + pixelX eb q i

theorem pixelX_lt {eb : Editbox} (h : Inside eb) (hon : OnScreen binfo eb) {q : Int} {i j : Nat}
    (hq : InPlace eb q i j) : pixelX eb q i < binfo.scrnx.toNat := by
  have hw : 0 < eb.chX := Int.lt_of_le_of_lt h.x.1 h.x.2
  have := Int.emod_nonneg q (Int.ne_of_gt hw)
  have := Int.emod_lt_of_pos q hw
  have := hon.x
  have := hq.column
  unfold pixelX
  omega

theorem row_lt {eb : Editbox} (h : Inside eb) {q : Int} {i j : Nat} (hq : InPlace eb q i j) :
    0 ≤ q / eb.chX ∧ q / eb.chX < eb.chY := by
  have hw : 0 < eb.chX := Int.lt_of_le_of_lt h.x.1 h.x.2
  refine ⟨Int.ediv_nonneg hq.place.1 (Int.le_of_lt hw), ?_⟩
  rw [Int.ediv_lt_iff_lt_mul hw, Int.mul_comm]
  exact hq.place.2

theorem pixelY_lt {eb : Editbox} (h : Inside eb) (hon : OnScreen binfo eb) {q : Int} {i j : Nat}
    (hq : InPlace eb q i j) : pixelY eb q j < binfo.scrny.toNat := by
  have := row_lt h hq
  have := hon.y
  have := hq.row
  unfold pixelY
  omega

/-- The sum of a coordinate of the box, an offset and a bit's number. -/
theorem word_offset (a : Word) {k : Int} (hk : 0 ≤ k) (m n : Nat) :
    a + BitVec.ofInt 32 (k * m) + BitVec.ofNat 32 n
      = BitVec.ofNat 32 (a.toNat + m * k.toNat + n) := by
  have hprod : k * m = ((m * k.toNat : Nat) : Int) := by
    rw [Int.natCast_mul, Int.toNat_of_nonneg hk, Int.mul_comm]
  rw [hprod, BitVec.ofInt_natCast, BitVec.ofNat_add, BitVec.ofNat_add, BitVec.ofNat_toNat,
    BitVec.setWidth_eq]

theorem valid_of_lt {X Y : Nat} (hX : X < binfo.scrnx.toNat) (hY : Y < binfo.scrny.toNat) :
    isPixelValid binfo (BitVec.ofNat 32 X) (BitVec.ofNat 32 Y) = true := by
  have hx := binfo.scrnx.isLt
  have hy := binfo.scrny.isLt
  refine if_neg ?_
  rw [BitVec.toInt_eq_toNat_of_lt (by rw [BitVec.toNat_ofNat]; omega),
    BitVec.toInt_eq_toNat_of_lt (by rw [BitVec.toNat_ofNat]; omega)]
  simp only [ge_iff_le, BitVec.le_def, BitVec.toNat_setWidth, BitVec.toNat_ofNat]
  omega

/-- A bit of the glyph is a pixel of its place. -/
theorem dot_iff {eb : Editbox} (h : Inside eb) (hon : OnScreen binfo eb) {q : Int} {i j : Nat}
    (hq : InPlace eb q i j) (n : Nat) :
    Dot binfo ((placePoint eb q).x + BitVec.ofNat 32 i) ((placePoint eb q).y + BitVec.ofNat 32 j) n
      ↔ n = placePixel binfo eb q i j := by
  have hX := pixelX_lt h hon hq
  have hY := pixelY_lt h hon hq
  have hw : 0 < eb.chX := Int.lt_of_le_of_lt h.x.1 h.x.2
  have hx : (placePoint eb q).x + BitVec.ofNat 32 i = BitVec.ofNat 32 (pixelX eb q i) :=
    word_offset _ (Int.emod_nonneg q (Int.ne_of_gt hw)) 8 i
  have hy : (placePoint eb q).y + BitVec.ofNat 32 j = BitVec.ofNat 32 (pixelY eb q j) :=
    word_offset _ (row_lt h hq).1 16 j
  have hnumber : binfo.number (BitVec.ofNat 32 (pixelX eb q i)) (BitVec.ofNat 32 (pixelY eb q j))
      = placePixel binfo eb q i j := by
    have := binfo.scrnx.isLt
    have := binfo.scrny.isLt
    rw [BootInfo.number, BitVec.toNat_ofNat, BitVec.toNat_ofNat, Nat.mod_eq_of_lt (by omega),
      Nat.mod_eq_of_lt (by omega), placePixel]
  rw [hx, hy, Dot, hnumber]
  exact ⟨fun h => h.2, fun h => ⟨valid_of_lt hX hY, h⟩⟩

/-- No pixel is in two places, or twice in one. -/
theorem placePixel_inj {eb : Editbox} (h : Inside eb) (hon : OnScreen binfo eb) {q q' : Int}
    {i j i' j' : Nat} (hq : InPlace eb q i j) (hq' : InPlace eb q' i' j')
    (heq : placePixel binfo eb q i j = placePixel binfo eb q' i' j') :
    q = q' ∧ i = i' ∧ j = j' := by
  obtain ⟨hY, hX⟩ := mul_add_inj (pixelX_lt h hon hq) (pixelX_lt h hon hq') heq
  have hw : 0 < eb.chX := Int.lt_of_le_of_lt h.x.1 h.x.2
  have hi := hq.column
  have hi' := hq'.column
  have hj := hq.row
  have hj' := hq'.row
  have hcol := Int.emod_nonneg q (Int.ne_of_gt hw)
  have hcol' := Int.emod_nonneg q' (Int.ne_of_gt hw)
  have hrow := (row_lt h hq).1
  have hrow' := (row_lt h hq').1
  unfold pixelX at hX
  unfold pixelY at hY
  have hdiv : q / eb.chX = q' / eb.chX := by omega
  have hmod : q % eb.chX = q' % eb.chX := by omega
  refine ⟨?_, by omega, by omega⟩
  rw [← Int.mul_ediv_add_emod q eb.chX, hdiv, hmod, Int.mul_ediv_add_emod]

/-! ## What a text leaves there -/

theorem layout_place {w h : Int} (hw : 0 < w) (hh : 0 < h) {str : List Int} : ∀ {p : Int},
    (0 ≤ p ∧ p < w * h) → ∀ d ∈ layout w (w * h) p str, 0 ≤ d.1 ∧ d.1 < w * h := by
  have hpos : 0 < w * h := Int.mul_pos hw hh
  induction str with
  | nil => exact fun _ d hd => absurd hd List.not_mem_nil
  | cons ch str ih =>
      intro p hp d hd
      rw [layout] at hd
      split at hd
      · exact ih ⟨Int.emod_nonneg _ (Int.ne_of_gt hpos), Int.emod_lt_of_pos _ hpos⟩ d hd
      · rcases List.mem_cons.mp hd with rfl | hd
        · exact hp
        · exact ih ⟨Int.emod_nonneg _ (Int.ne_of_gt hpos), Int.emod_lt_of_pos _ hpos⟩ d hd

theorem layout_printed {w n : Int} {str : List Int} (hprint : ∀ ch ∈ str, ¬ (ch = 10 ∨ ch = 9)) :
    ∀ {p : Int}, 0 ≤ p → p < n →
      layout w n p str = str.mapIdx fun m ch => ((p + m) % n, ch) := by
  induction str with
  | nil => exact fun _ _ => rfl
  | cons ch str ih =>
      intro p hp hlt
      have hn : 0 < n := Int.lt_of_le_of_lt hp hlt
      rw [layout, if_neg (hprint ch List.mem_cons_self),
        ih (fun ch hch => hprint ch (List.mem_cons_of_mem _ hch)) (Int.emod_nonneg _ (by omega))
          (Int.emod_lt_of_pos _ hn), List.mapIdx_cons, Int.natCast_zero, Int.add_zero,
        Int.emod_eq_of_lt hp hlt]
      congr 2
      funext m ch
      rw [Int.emod_add_emod, Int.natCast_add, Int.natCast_one, Int.add_assoc, Int.add_comm 1]

/-- As long as the text does not come round, a place has one character. -/
theorem layout_legible {w n : Int} {str : List Int} (hprint : ∀ ch ∈ str, ¬ (ch = 10 ∨ ch = 9))
    (hlen : str.length ≤ n) {p : Int} (hp : 0 ≤ p ∧ p < n) {m : Nat} {ch : Int}
    (hm : str[m]? = some ch) (d : Int × Int) :
    (d ∈ layout w n p str ∧ d.1 = (p + m) % n) ↔ d = ((p + m) % n, ch) := by
  rw [layout_printed hprint hp.1 hp.2, List.mem_mapIdx]
  constructor
  · rintro ⟨⟨k, hk, rfl⟩, hplace⟩
    have hm' : m < str.length := (List.getElem?_eq_some_iff.mp hm).1
    have hdvd : n ∣ (k : Int) - m := by
      rw [show (k : Int) - m = p + k - (p + m) by omega]
      exact Int.dvd_of_emod_eq_zero (Int.emod_eq_emod_iff_emod_sub_eq_zero.mp hplace)
    have hkm : (k : Int) = m := by
      have := Int.eq_zero_of_dvd_of_natAbs_lt_natAbs hdvd (by omega)
      omega
    obtain rfl := Int.ofNat.inj hkm
    rw [List.getElem?_eq_getElem hk] at hm
    rw [Option.some.inj hm]
  · rintro rfl
    obtain ⟨hk, hget⟩ := List.getElem?_eq_some_iff.mp hm
    exact ⟨⟨m, hk, by rw [hget]⟩, rfl⟩

/-- The pixels of a text in a box on the screen, by place. -/
theorem paint_layout {s : State} (h : Inside s.eb) (hon : OnScreen binfo s.eb) (str : List Int)
    (mem : Mem) :
    Painted binfo s.eb.textC
      (fun n => ∃ d ∈ layout s.eb.chX (s.eb.chX * s.eb.chY) (place s.eb) str, ∃ i j,
        InPlace s.eb d.1 i j ∧ glyphBit font (BitVec.ofInt 8 d.2) i j = true ∧
          n = placePixel binfo s.eb d.1 i j) mem
      (paint binfo font ((layout s.eb.chX (s.eb.chX * s.eb.chY) (place s.eb) str).map fun d =>
        (d.2, placePoint s.eb d.1, s.eb.textC)) mem) := by
  have hw : 0 < s.eb.chX := Int.lt_of_le_of_lt h.x.1 h.x.2
  have hh : 0 < s.eb.chY := Int.lt_of_le_of_lt h.y.1 h.y.2
  have hcolour : ∀ d ∈ (layout s.eb.chX (s.eb.chX * s.eb.chY) (place s.eb) str).map fun d =>
      (d.2, placePoint s.eb d.1, s.eb.textC), d.2.2 = s.eb.textC := by
    intro d hd
    obtain ⟨d', -, rfl⟩ := List.mem_map.mp hd
    rfl
  refine (paint_painted s.eb.textC _ mem hcolour).congr fun n => ?_
  constructor
  · rintro ⟨d, hd, i, j, hi, hj, hbit, hdot⟩
    obtain ⟨d', hd', rfl⟩ := List.mem_map.mp hd
    have hq : InPlace s.eb d'.1 i j := ⟨layout_place hw hh (place_lt h) d' hd', hi, hj⟩
    exact ⟨d', hd', i, j, hq, hbit, (dot_iff h hon hq n).mp hdot⟩
  · rintro ⟨d, hd, i, j, hq, hbit, hn⟩
    exact ⟨_, List.mem_map_of_mem hd, i, j, hq.column, hq.row, hbit, (dot_iff h hon hq n).mpr hn⟩

theorem placePixel_lt {eb : Editbox} (h : Inside eb) (hon : OnScreen binfo eb) {q : Int}
    {i j : Nat} (hq : InPlace eb q i j) : placePixel binfo eb q i j < binfo.size :=
  pixel_lt_size binfo (pixelY_lt h hon hq) (pixelX_lt h hon hq)

/-- **THE TEXT OF AN EDITBOX**: after any row of calls of `edit_putchar`, in a box
    on the screen, a pixel of a place has the colour of the text if any of the
    characters that were put there has its bit set, and is as it was if none
    has; and no other byte of memory has changed.  A text of printed characters
    that has room in the box has one character in each place it comes to. -/
theorem editbox_text_shows (binfo : BootInfo) (font : Word → Byte) {s : State}
    (h : Inside s.eb) (hon : OnScreen binfo s.eb) (str : List Int) (mem : Mem) :
    ∃ drawn mem' text, (putchars str s).drawn = s.drawn ++ drawn ∧
      paint binfo font drawn mem = mem' ∧
      text = layout s.eb.chX (s.eb.chX * s.eb.chY) (place s.eb) str ∧
      (∀ q i j, InPlace s.eb q i j → ∀ k < 3,
        mem' (binfo.byte (placePixel binfo s.eb q i j) k)
          = if ∃ d ∈ text, d.1 = q ∧ glyphBit font (BitVec.ofInt 8 d.2) i j = true
            then s.eb.textC.channel k
            else mem (binfo.byte (placePixel binfo s.eb q i j) k)) ∧
      (∀ a, (∀ q i j, InPlace s.eb q i j → ∀ k < 3,
          a ≠ binfo.byte (placePixel binfo s.eb q i j) k) → mem' a = mem a) ∧
      ((∀ ch ∈ str, ¬ (ch = 10 ∨ ch = 9)) → str.length ≤ s.eb.chX * s.eb.chY →
        ∀ (m : Nat) (ch : Int), str[m]? = some ch → ∀ d,
          (d ∈ text ∧ d.1 = (place s.eb + m) % (s.eb.chX * s.eb.chY))
            ↔ d = ((place s.eb + m) % (s.eb.chX * s.eb.chY), ch)) := by
  have h3 := binfo.three_le_bpp
  have hpaint := @paint_layout binfo font s h hon str mem
  refine ⟨_, _, _, putchars_drawn h, rfl, rfl, fun q i j hq k hk => ?_, fun a ha => ?_,
    fun hprint hlen m ch hm d => layout_legible hprint hlen (place_lt h) hm d⟩
  · split
    · next hink =>
        obtain ⟨d, hd, rfl, hbit⟩ := hink
        exact hpaint.inside _ ⟨d, hd, i, j, hq, hbit, rfl⟩ k hk
    · next hink =>
        refine hpaint.outside _ ?_
        rintro n ⟨d, hd, i', j', hq', hbit, rfl⟩ k' hk' heq
        obtain ⟨hn, -⟩ := binfo.byte_inj (placePixel_lt h hon hq) (placePixel_lt h hon hq')
          (Nat.lt_of_lt_of_le hk h3) (Nat.lt_of_lt_of_le hk' h3) heq
        obtain ⟨rfl, rfl, rfl⟩ := placePixel_inj h hon hq hq' hn
        exact hink ⟨d, hd, rfl, hbit⟩
  · refine hpaint.outside a ?_
    rintro n ⟨d, -, i, j, hq, -, rfl⟩ k hk
    exact ha d.1 i j hq k hk

/-- A box of two places, in which a third character comes round. -/
def twoPlaces : State :=
  ⟨⟨⟨100, 100⟩, 2, 1, ⟨255, 255, 255⟩, 0, 0, fun _ => 0, 0⟩, [], []⟩

/-- The first bit of the first place, where the first and the third character
    lie on top of each other. -/
theorem editbox_text_shows_two :
    ∃ drawn, (putchars [65, 66, 67] twoPlaces).drawn = drawn ∧
      paint vbeScreen (fun a => if a = 16 * 65 then 0x80 else 0) drawn (fun _ => 0)
        (vbeScreen.byte (placePixel vbeScreen twoPlaces.eb 0 0 0) 0) = 255 := by
  obtain ⟨drawn, mem', text, hdrawn, rfl, rfl, hshows, -⟩ := editbox_text_shows vbeScreen
    (fun a => if a = 16 * 65 then 0x80 else 0) (s := twoPlaces) ⟨by decide, by decide⟩
    ⟨by decide, by decide⟩ [65, 66, 67] (fun _ => 0)
  refine ⟨drawn, hdrawn, ?_⟩
  rw [hshows 0 0 0 ⟨by decide, by decide, by decide⟩ 0 (by decide), if_pos (by decide)]
  rfl

end SharixFont
