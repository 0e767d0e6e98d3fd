import Sharix.DrawLineProofs

/-! # `get_pixel` — `graphic.c`

    `set_pixel` writes the bytes of a pixel at its number times the bytes per
    pixel, blue first.  `get_pixel` reads at the number itself, red first.  So
    it returns what was written only where the other bytes happen to be right
    (`getPixel_setPixel_iff`). -/

namespace SharixGraphic

variable (binfo : BootInfo)

def getPixel (x y : Word) (mem : Mem) : Rgb :=
  if isPixelValid binfo x y = false then ⟨0, 0, 0⟩
  else
    let pvram := binfo.vram + y * binfo.scrnx.setWidth 32 + x
    ⟨mem pvram, mem (pvram + 1), mem (pvram + 2)⟩

/-! ## Pixels on the screen -/

/-- The number of a pixel, counted along the rows. -/
def BootInfo.number (x y : Word) : Nat := binfo.scrnx.toNat * y.toNat + x.toNat

variable {binfo} {x y x' y' : Word}

theorem onScreen (h : isPixelValid binfo x y = true) :
    x.toNat < binfo.scrnx.toNat ∧ y.toNat < binfo.scrny.toNat := by
  unfold isPixelValid at h
  split at h
  · exact nomatch h
  · next hno =>
      simp only [not_or, BitVec.le_def, BitVec.toNat_setWidth] at hno
      have hx := binfo.scrnx.isLt
      have hy := binfo.scrny.isLt
      omega

theorem number_lt_size (h : isPixelValid binfo x y = true) : binfo.number x y < binfo.size :=
  pixel_lt_size binfo (onScreen h).2 (onScreen h).1

theorem word_number (x y : Word) :
    binfo.scrnx.setWidth 32 * y + x = BitVec.ofNat 32 (binfo.number x y) := by
  have h := pixel_index binfo y.toNat x.toNat
  simp only [BitVec.ofNat_toNat, BitVec.setWidth_eq] at h
  exact h

/-! ## The bytes they touch -/

/-- `set_pixel` gives the pixel its colour. -/
theorem setPixel_painted (h : isPixelValid binfo x y = true) (c : Rgb) (mem : Mem) :
    Painted binfo c (· = binfo.number x y) mem (setPixel binfo c x y mem) := by
  have hsame : setPixel binfo c x y mem = fillPixel binfo c y x mem := by
    rw [setPixel, if_neg (by rw [h]; exact Bool.noConfusion), fillPixel]
    simp only [BitVec.mul_add, BitVec.mul_assoc, BitVec.add_assoc]
  rw [hsame]
  exact fillPixel_painted binfo c (number_lt_size h) (word_number x y) mem

/-- Byte `k` from the place where `get_pixel` reads pixel `n`. -/
def BootInfo.readAt (binfo : BootInfo) (n k : Nat) : Word := binfo.vram + BitVec.ofNat 32 (n + k)

theorem getPixel_eq (h : isPixelValid binfo x y = true) (mem : Mem) :
    getPixel binfo x y mem = ⟨mem (binfo.readAt (binfo.number x y) 0),
      mem (binfo.readAt (binfo.number x y) 1), mem (binfo.readAt (binfo.number x y) 2)⟩ := by
  have hbase : binfo.vram + y * binfo.scrnx.setWidth 32 + x
      = binfo.vram + BitVec.ofNat 32 (binfo.number x y) := by
    rw [BitVec.add_assoc, BitVec.mul_comm y, word_number]
  rw [getPixel, if_neg (by rw [h]; exact Bool.noConfusion), hbase]
  simp only [BootInfo.readAt, BitVec.ofNat_add, ← BitVec.add_assoc, BitVec.ofNat_eq_ofNat,
    BitVec.add_zero]

/-- What lies at an offset of the frame buffer once a pixel has its colour. -/
theorem Painted.at_offset {c : Rgb} {n o : Nat} {mem mem' : Mem} (hn : n < binfo.size)
    (ho : o < 2 ^ 32) (h : Painted binfo c (· = n) mem mem') :
    mem' (binfo.vram + BitVec.ofNat 32 o)
      = if binfo.bpp * n ≤ o ∧ o < binfo.bpp * n + 3 then c.channel (o - binfo.bpp * n)
        else mem (binfo.vram + BitVec.ofNat 32 o) := by
  split
  · next hin =>
      have hbyte := h.inside n rfl (o - binfo.bpp * n) (by omega)
      rwa [BootInfo.byte, Nat.add_sub_cancel' hin.1] at hbyte
  · next hout =>
      refine h.outside _ ?_
      rintro m rfl k hk heq
      have hlt := binfo.offset_lt hn (Nat.lt_of_lt_of_le hk binfo.three_le_bpp)
      have h1 := congrArg BitVec.toNat ((BitVec.add_right_inj _).mp heq)
      rw [BitVec.toNat_ofNat, BitVec.toNat_ofNat, Nat.mod_eq_of_lt ho,
        Nat.mod_eq_of_lt hlt] at h1
      omega

/-! ## A pixel read back -/

/-- `get_pixel` returns what `set_pixel` wrote, and another pixel as it was. -/
def ReadsBack (binfo : BootInfo) (x y x' y' : Word) (c : Rgb) (mem : Mem) : Prop :=
  getPixel binfo x y (setPixel binfo c x y mem) = c ∧
    ((x', y') ≠ (x, y) →
      getPixel binfo x' y' (setPixel binfo c x y mem) = getPixel binfo x' y' mem)

/-- The bytes at which pixel `n` is read hold the colour `c`, or are given it. -/
def HoldsColour (binfo : BootInfo) (n : Nat) (c : Rgb) (mem : Mem) : Prop :=
  if n = 0 then c.r = c.b
  else mem (binfo.readAt n 0) = c.r ∧ mem (binfo.readAt n 1) = c.g ∧
    ((n = 1 ∧ binfo.bpp = 3) ∨ mem (binfo.readAt n 2) = c.b)

/-- The bytes at which pixel `m` is read hold what pixel `n` is given there. -/
def KeepsColour (binfo : BootInfo) (n m : Nat) (c : Rgb) (mem : Mem) : Prop :=
  ∀ k j, k < 3 → j < 3 → m + k = binfo.bpp * n + j →
    mem (binfo.readAt m k) = c.channel j

theorem readAt_lt {n k : Nat} (hn : n < binfo.size) (hk : k < 3) : n + k < 2 ^ 32 := by
  have hfits : binfo.bpp * binfo.size ≤ 2 ^ 32 := binfo.fits
  have hmul := Nat.mul_le_mul_right binfo.size binfo.three_le_bpp
  omega

/-- The byte at which pixel `m` is read, once pixel `n` has its colour. -/
theorem Painted.readAt {c : Rgb} {n m k : Nat} {mem mem' : Mem} (hn : n < binfo.size)
    (hm : m < binfo.size) (hk : k < 3) (h : Painted binfo c (· = n) mem mem') :
    mem' (binfo.readAt m k)
      = if binfo.bpp * n ≤ m + k ∧ m + k < binfo.bpp * n + 3 then
          c.channel (m + k - binfo.bpp * n)
        else mem (binfo.readAt m k) :=
  h.at_offset hn (readAt_lt hm hk)

/-- Reading the pixel itself. -/
theorem getPixel_self_iff (h : isPixelValid binfo x y = true) (c : Rgb) (mem : Mem) :
    getPixel binfo x y (setPixel binfo c x y mem) = c
      ↔ HoldsColour binfo (binfo.number x y) c mem := by
  have hn := number_lt_size h
  have hpaint := setPixel_painted h c mem
  generalize setPixel binfo c x y mem = mem' at hpaint
  rw [getPixel_eq h]
  generalize binfo.number x y = n at hn hpaint
  obtain ⟨r, g, b⟩ := c
  rw [hpaint.readAt hn hn (by decide : 0 < 3), hpaint.readAt hn hn (by decide : 1 < 3),
    hpaint.readAt hn hn (by decide : 2 < 3), HoldsColour, Rgb.mk.injEq]
  have hdepth : binfo.bpp = 3 ∨ binfo.bpp = 4 := binfo.depth
  match n with
  | 0 =>
      -- all three bytes are those just written, the other way round
      simp only [Nat.mul_zero, Nat.le_refl, Nat.zero_le, true_and, Nat.zero_add, Nat.sub_zero,
        Nat.reduceLT, if_true, Rgb.channel]
      exact ⟨fun hboth => hboth.2, fun hred => ⟨hred.symm, hred⟩⟩
  | 1 =>
      rw [if_neg (by omega), if_neg (by omega), if_neg (by omega : ¬ 1 = 0)]
      rcases hdepth with h3 | h4
      · rw [if_pos (by omega), h3]
        exact and_congr_right fun _ => and_congr_right fun _ => iff_of_true rfl (.inl ⟨rfl, rfl⟩)
      · rw [if_neg (by omega), h4]
        simp
  | n + 2 =>
      have hfar : 3 * (n + 2) ≤ binfo.bpp * (n + 2) := Nat.mul_le_mul_right _ binfo.three_le_bpp
      rw [if_neg (by omega), if_neg (by omega), if_neg (by omega), if_neg (by omega : ¬ n + 2 = 0)]
      refine and_congr_right fun _ => and_congr_right fun _ => ?_
      exact ⟨.inr, fun hor => hor.resolve_left fun hone => absurd hone.1 (by omega)⟩

/-- Reading another pixel. -/
theorem getPixel_other_iff (h : isPixelValid binfo x y = true)
    (h' : isPixelValid binfo x' y' = true) (c : Rgb) (mem : Mem) :
    getPixel binfo x' y' (setPixel binfo c x y mem) = getPixel binfo x' y' mem
      ↔ KeepsColour binfo (binfo.number x y) (binfo.number x' y') c mem := by
  have hn := number_lt_size h
  have hm := number_lt_size h'
  have hpaint := setPixel_painted h c mem
  generalize setPixel binfo c x y mem = mem' at hpaint
  rw [getPixel_eq h', getPixel_eq h', Rgb.mk.injEq]
  generalize binfo.number x y = n at hn hpaint
  generalize binfo.number x' y' = m at hm
  have hread : ∀ k, k < 3 → (mem' (binfo.readAt m k) = mem (binfo.readAt m k) ↔
      ∀ j, j < 3 → m + k = binfo.bpp * n + j → mem (binfo.readAt m k) = c.channel j) := by
    intro k hk
    rw [hpaint.readAt hn hm hk]
    split
    · next hin =>
        refine ⟨fun heq j hj hjk => ?_, fun hall => ?_⟩
        · rw [← heq, show m + k - binfo.bpp * n = j by omega]
        · exact (hall (m + k - binfo.bpp * n) (by omega) (by omega)).symm
    · exact iff_of_true rfl fun j hj hjk => absurd hjk (by omega)
  constructor
  · rintro ⟨h0, h1, h2⟩ k j hk hj hjk
    match k, hk with
    | 0, hk => exact (hread 0 hk).mp h0 j hj hjk
    | 1, hk => exact (hread 1 hk).mp h1 j hj hjk
    | 2, hk => exact (hread 2 hk).mp h2 j hj hjk
  · intro hkeeps
    exact ⟨(hread 0 (by decide)).mpr fun j => hkeeps 0 j (by decide),
      (hread 1 (by decide)).mpr fun j => hkeeps 1 j (by decide),
      (hread 2 (by decide)).mpr fun j => hkeeps 2 j (by decide)⟩

/-- **WHEN A PIXEL IS READ BACK**: on every screen, for every two pixels, colour
    and memory, exactly if the bytes `get_pixel` reads already hold the colour
    that `set_pixel` is given, and for another pixel what it is given there. -/
theorem getPixel_setPixel_iff (h : isPixelValid binfo x y = true)
    (h' : isPixelValid binfo x' y' = true) (c : Rgb) (mem : Mem) :
    ReadsBack binfo x y x' y' c mem ↔ HoldsColour binfo (binfo.number x y) c mem ∧
      ((x', y') ≠ (x, y) → KeepsColour binfo (binfo.number x y) (binfo.number x' y') c mem) := by
  rw [ReadsBack, getPixel_self_iff h, getPixel_other_iff h h']

/-- The first two pixels, grey on a grey screen. -/
theorem getPixel_setPixel_iff_grey :
    ReadsBack vbeScreen 0 0 1 0 ⟨7, 7, 7⟩ (fun _ => 7)
      ↔ HoldsColour vbeScreen 0 ⟨7, 7, 7⟩ (fun _ => 7) ∧
        (((1, 0) : Word × Word) ≠ (0, 0) →
          KeepsColour vbeScreen 0 1 ⟨7, 7, 7⟩ (fun _ => 7)) :=
  getPixel_setPixel_iff (show isPixelValid vbeScreen 0 0 = true by decide)
    (show isPixelValid vbeScreen 1 0 = true by decide) ⟨7, 7, 7⟩ fun _ => 7

/-- A red pixel on a black screen is read back as black. -/
theorem not_getPixel_setPixel :
    ¬ ∀ binfo x y x' y' c mem, isPixelValid binfo x y = true →
      isPixelValid binfo x' y' = true → ReadsBack binfo x y x' y' c mem := by
  intro hall
  have hread := (hall vbeScreen 5 0 5 0 ⟨255, 0, 0⟩ (fun _ => 0) (by decide) (by decide)).1
  have hred := congrArg Rgb.r hread
  exact absurd hred (by decide)

end SharixGraphic
