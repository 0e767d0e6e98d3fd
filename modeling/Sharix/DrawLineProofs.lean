import Sharix.FillRectProofs
import Sharix.FloatProofs
import Sharix.RunProofs

/-! # `draw_line`, `draw_rect`, `draw_button` — `graphic.c`, `component.c`

    If the second point is left of the first or above it, `draw_line` calls
    itself with the points exchanged.  Where one coordinate grows and the other
    one falls that is so for both orders, and the calls have no end
    (`reachesLoop_iff`).  One of the two diagonals of a button is of this kind,
    unless the button has a single row or column (`draw_ends_iff`).  A loop that
    has begun ends, unless it counts up to `INT_MAX`. -/

namespace SharixGraphic

open SharixRun
open SharixFloat (leInt divInt nearest)

/-! ## The model

    The kernel is built for the x87 unit: an `int` that meets a `float` is not
    rounded to one, and a result is when it is stored. -/

/-- An `int` that is stored as a `float`. -/
def toFloat (a : Word) : Float32.Model := .ofInt a.toInt

/-- The conversion to an `int`: the fraction is cut off.  A value that is no
    `int` gives the nearest one, which is never on the screen. -/
def ofFloat (t : Float32.Model) : Word := t.toInt32.toBitVec

section Draw

variable (binfo : BootInfo) (c : Rgb)

def isPixelValid (x y : Word) : Bool :=
  if x.toInt < 0 ∨ y.toInt < 0 ∨ x ≥ binfo.scrnx.setWidth 32 ∨ y ≥ binfo.scrny.setWidth 32 then
    false
  else true

def setPixel (x y : Word) (mem : Mem) : Mem :=
  if isPixelValid binfo x y = false then mem
  else
    let nBppixel := (binfo.bitspixel >>> 3).setWidth 32
    let pvram := binfo.vram + nBppixel * binfo.scrnx.setWidth 32 * y + nBppixel * x
    Function.update (Function.update (Function.update mem pvram c.b) (pvram + 1) c.g)
      (pvram + 2) c.r

/-- A loop of `draw_line`: `i` counts up to `last`, and `t` grows by `d` up to
    `bound`. -/
def lineLoop (plot : Word → Float32.Model → Mem → Mem) (d : Float32.Model) (bound last : Word) :
    Nat → Float32.Model → Word → Mem → Option Mem
  | 0, _, _, _ => none
  | fuel + 1, t, i, mem =>
      if leInt t bound.toInt ∧ i.toInt ≤ last.toInt then
        lineLoop plot d bound last fuel (t + d) (i + 1) (plot i t mem)
      else some mem

/-- What `draw_line` does once the points are in order. -/
def drawLoop (p1 p2 : Point) (fuel : Nat) (mem : Mem) : Option Mem :=
  if (p2.x - p1.x).toInt > (p2.y - p1.y).toInt then
    let dy := divInt (p2.y - p1.y).toInt (p2.x - p1.x).toInt
    lineLoop (fun xt1 yt1 => setPixel binfo c xt1 (ofFloat yt1)) dy p2.y p2.x fuel
      (toFloat p1.y) p1.x mem
  else
    let dx := divInt (p2.x - p1.x).toInt (p2.y - p1.y).toInt
    lineLoop (fun yt2 xt2 => setPixel binfo c (ofFloat xt2) yt2) dx p2.x p2.y fuel
      (toFloat p1.x) p1.y mem

/-- The test of `draw_line`. -/
abbrev Exchanged (p1 p2 : Point) : Prop := p2.x.toInt < p1.x.toInt ∨ p2.y.toInt < p1.y.toInt

def drawLine : Nat → Point → Point → Mem → Option Mem
  | 0, _, _, _ => none
  | fuel + 1, p1, p2, mem =>
      if Exchanged p1 p2 then drawLine fuel p2 p1 mem
      else drawLoop binfo c p1 p2 fuel mem

def drawRect (rect : Rect) (fuel : Nat) (mem : Mem) : Option Mem := do
  let p1 := rect.p
  let p2 : Point := ⟨p1.x, p1.y + rect.height - 1⟩
  let p3 : Point := ⟨p1.x + rect.width - 1, p1.y⟩
  let p4 : Point := ⟨p1.x + rect.width - 1, p1.y + rect.height - 1⟩
  let mem ← drawLine binfo c fuel p1 p2 mem
  let mem ← drawLine binfo c fuel p2 p4 mem
  let mem ← drawLine binfo c fuel p4 p3 mem
  drawLine binfo c fuel p3 p1 mem

end Draw

structure Frame where
  rect : Rect
  bgc : Rgb
  frc : Rgb

structure Button where
  frame : Frame
  btc : Rgb

/-- The rectangle of a frame on the screen, in a context with the rectangle
    `contex`. -/
def realrect (contex : Rect) (frame : Frame) : Rect :=
  ⟨⟨contex.p.x + frame.rect.p.x, contex.p.y + frame.rect.p.y⟩, frame.rect.width,
    frame.rect.height⟩

def drawFrame (binfo : BootInfo) (contex : Rect) (frame : Frame) (fuel : Nat) (mem : Mem) :
    Option Mem := do
  let mem ← fillRect binfo frame.bgc fuel (realrect contex frame) mem
  drawRect binfo frame.frc (realrect contex frame) fuel mem

def drawButton (binfo : BootInfo) (contex : Rect) (button : Button) (fuel : Nat) (mem : Mem) :
    Option Mem := do
  let mem ← drawFrame binfo contex button.frame fuel mem
  let frect := button.frame.rect
  let x1 := contex.p.x + frect.p.x
  let y1 := contex.p.y + frect.p.y
  let x2 := x1 + frect.width - 1
  let y2 := y1 + frect.height - 1
  let mem ← drawLine binfo button.btc fuel ⟨x1, y1⟩ ⟨x2, y2⟩ mem
  drawLine binfo button.btc fuel ⟨x1, y2⟩ ⟨x2, y1⟩ mem

/-! ## The calls -/

/-- `draw_line` reaches its loop, at once or in a call of itself. -/
inductive ReachesLoop : Point → Point → Prop
  | loop {p1 p2 : Point} (h : ¬ Exchanged p1 p2) : ReachesLoop p1 p2
  | call {p1 p2 : Point} (h : Exchanged p1 p2) (hnext : ReachesLoop p2 p1) : ReachesLoop p1 p2

/-- From one of the points to the other no coordinate falls. -/
def Comparable (p1 p2 : Point) : Prop :=
  (p1.x.toInt ≤ p2.x.toInt ∧ p1.y.toInt ≤ p2.y.toInt) ∨
    (p2.x.toInt ≤ p1.x.toInt ∧ p2.y.toInt ≤ p1.y.toInt)

/-- **WHICH LINES ARE BEGUN**: those whose points are comparable. -/
theorem reachesLoop_iff (p1 p2 : Point) : ReachesLoop p1 p2 ↔ Comparable p1 p2 := by
  constructor
  · intro h
    induction h with
    | loop h =>
        unfold Exchanged at h
        exact .inl (by omega)
    | call _ _ ih => exact ih.symm
  · intro h
    by_cases h1 : Exchanged p1 p2
    · refine .call h1 (.loop fun h2 => ?_)
      unfold Comparable at h
      omega
    · exact .loop h1

section Line

variable {binfo : BootInfo} {c : Rgb} {p1 p2 : Point}

/-- Where the loop is not reached the calls have no end. -/
theorem drawLine_hangs (h : ¬ Comparable p1 p2) (mem : Mem) :
    Hangs (fun fuel => drawLine binfo c fuel p1 p2) mem := by
  intro fuel
  show drawLine binfo c fuel p1 p2 mem = none
  -- exchanged, the points are still not comparable
  induction fuel generalizing p1 p2 with
  | zero => rfl
  | succ fuel ih =>
      have hexchanged : Exchanged p1 p2 := by
        unfold Comparable at h
        omega
      rw [drawLine, if_pos hexchanged]
      exact ih fun hcomp => h hcomp.symm

/-- Where it is, the calls lead to it. -/
theorem ReachesLoop.drawLine_eq (h : ReachesLoop p1 p2) : ∃ n q1 q2, ∀ fuel mem,
    drawLine binfo c (fuel + n) p1 p2 mem = drawLoop binfo c q1 q2 fuel mem := by
  induction h with
  | @loop p1 p2 h => exact ⟨1, p1, p2, fun fuel mem => if_neg h⟩
  | call h _ ih =>
      obtain ⟨n, q1, q2, hn⟩ := ih
      exact ⟨n + 1, q1, q2, fun fuel mem => (if_pos h).trans (hn fuel mem)⟩

/-- Points in order go to the loop. -/
theorem drawLine_ordered (h : ¬ Exchanged p1 p2) {P : Prop}
    (hloop : Decided (drawLoop binfo c p1 p2) P) :
    Decided (fun fuel => drawLine binfo c fuel p1 p2) P :=
  hloop.of_round (fun _ => rfl) fun fuel mem => by rw [drawLine, if_neg h]

/-- Others take another call. -/
theorem drawLine_exchanged (h : Exchanged p1 p2) {P : Prop}
    (hline : Decided (fun fuel => drawLine binfo c fuel p2 p1) P) :
    Decided (fun fuel => drawLine binfo c fuel p1 p2) P :=
  hline.of_round (fun _ => rfl) fun fuel mem => by rw [drawLine, if_pos h]

end Line

/-! ## The loops -/

section Loop

variable {plot : Word → Float32.Model → Mem → Mem} {d t : Float32.Model} {bound last i : Word}

/-- The largest `int`. -/
def INT_MAX : Int := 2 ^ 31 - 1

/-- The counter does not wrap below `INT_MAX`. -/
theorem toInt_succ {i last : Word} (hle : i.toInt ≤ last.toInt) (hlast : last.toInt ≠ INT_MAX) :
    (i + 1).toInt = i.toInt + 1 := by
  have h1 := BitVec.toInt_lt (x := last)
  have h2 := BitVec.le_toInt i
  have hone : (1 : Word).toInt = 1 := by decide
  rw [INT_MAX] at hlast
  rw [BitVec.toInt_add, hone, Int.bmod_def]
  omega

/-- A loop that does not count up to `INT_MAX` ends. -/
theorem lineLoop_ends (hlast : last.toInt ≠ INT_MAX) (mem : Mem) :
    Ends (fun fuel => lineLoop plot d bound last fuel t i) mem := by
  obtain ⟨k, hk⟩ : ∃ k : Nat, last.toInt < i.toInt + k :=
    ⟨(last.toInt + 1 - i.toInt).toNat, by omega⟩
  induction k generalizing t i mem with
  | zero =>
      exact .done fun _ => if_neg fun htest => by omega
  | succ k ih =>
      by_cases htest : leInt t bound.toInt ∧ i.toInt ≤ last.toInt
      · have hnext := toInt_succ htest.2 hlast
        exact (ih (t := t + d) (i := i + 1) (plot i t mem) (by omega)).of_round
          fun fuel => if_pos htest
      · exact .done fun _ => if_neg htest

/-- One that does has no end, as long as the other test holds. -/
theorem lineLoop_hangs (hlast : last.toInt = INT_MAX) {I : Float32.Model → Prop}
    (hI : ∀ t, I t → leInt t bound.toInt ∧ I (t + d)) (ht : I t) (mem : Mem) :
    Hangs (fun fuel => lineLoop plot d bound last fuel t i) mem := by
  -- the counter wraps, and both tests hold again
  have hhang : Hangs (fun fuel (s : Float32.Model × Word × Mem) =>
      lineLoop plot d bound last fuel s.1 s.2.1 s.2.2) (t, i, mem) := by
    refine hangs_of_invariant (I := fun s => I s.1) (fun _ => rfl) ?_ ht
    rintro ⟨t, i, mem⟩ fuel ht
    have hi := BitVec.toInt_lt (x := i)
    refine .inr ⟨(t + d, i + 1, plot i t mem), (hI t ht).2, if_pos ⟨(hI t ht).1, ?_⟩⟩
    rw [hlast]
    exact Int.le_of_lt_add_one hi
  exact hhang

/-- Where the test on the float holds for ever, the loop ends by its counter or not
    at all. -/
theorem lineLoop_decided {I : Float32.Model → Prop}
    (hI : ∀ t, I t → leInt t bound.toInt ∧ I (t + d))
    (ht : I t) : Decided (fun fuel => lineLoop plot d bound last fuel t i) (last.toInt ≠ INT_MAX) :=
  ⟨fun hlast => lineLoop_ends hlast, fun hlast =>
    lineLoop_hangs (Decidable.not_not.mp hlast) hI ht⟩

/-- A loop that is left before its first round. -/
theorem lineLoop_none (ht : ¬ leInt t bound.toInt) (i : Word) (mem : Mem) :
    Ends (fun fuel => lineLoop plot d bound last fuel t i) mem :=
  .done fun _ => if_neg fun htest => ht htest.1

/-- A loop that is left when `t` has grown once. -/
theorem lineLoop_once (hd : ∀ t, ¬ leInt (t + d) bound.toInt) (mem : Mem) :
    Ends (fun fuel => lineLoop plot d bound last fuel t i) mem := by
  by_cases htest : leInt t bound.toInt ∧ i.toInt ≤ last.toInt
  · exact (lineLoop_none (hd t) (i + 1) (plot i t mem)).of_round fun fuel => if_pos htest
  · exact .done fun _ => if_neg htest

/-- An `int` is in the range of the roundings. -/
theorem natAbs_toInt_lt (a : Word) : a.toInt.natAbs < 2 ^ 32 := by
  have h1 := BitVec.toInt_lt (x := a)
  have h2 := BitVec.le_toInt a
  omega

/-- As a `float`, `a` is a larger number. -/
def RoundsUp (a : Word) : Prop := a.toInt < nearest a.toInt

instance (a : Word) : Decidable (RoundsUp a) :=
  inferInstanceAs (Decidable (a.toInt < nearest a.toInt))

theorem leInt_toFloat (a b : Word) : leInt (toFloat a) b.toInt ↔ nearest a.toInt ≤ b.toInt :=
  SharixFloat.leInt_ofInt (natAbs_toInt_lt a) b.toInt

/-- Along an axis nothing is added to the other coordinate, which may be too
    large from the start. -/
theorem lineLoop_flat {k : Int} (hk : 0 < k) (a : Word) :
    Decided (fun fuel => lineLoop plot (divInt 0 k) a last fuel (toFloat a) i)
      (last.toInt ≠ INT_MAX ∨ RoundsUp a) := by
  rw [SharixFloat.divInt_zero hk]
  by_cases hup : RoundsUp a
  · refine ⟨fun _ => lineLoop_none (fun hle => ?_) i, fun h => absurd (.inr hup) h⟩
    exact Int.not_le.mpr hup ((leInt_toFloat a a).mp hle)
  · refine Decided.congr ?_ (or_iff_left hup).symm
    refine lineLoop_decided (I := fun t => t = toFloat a) ?_ rfl
    rintro t rfl
    exact ⟨(leInt_toFloat a a).mpr (Int.not_lt.mp hup),
      SharixFloat.ofInt_add_zero (natAbs_toInt_lt a)⟩

/-- Where the difference of the coordinates is no `int`, minus infinity is
    added. -/
theorem lineLoop_steep {k : Int} {a b : Word} (hk : k < 0) (ha : a.toInt < 0) (hb : 0 ≤ b.toInt) :
    Decided (fun fuel => lineLoop plot (divInt k 0) b last fuel (toFloat a) i)
      (last.toInt ≠ INT_MAX) := by
  rw [SharixFloat.divInt_by_zero hk]
  refine lineLoop_decided (I := fun t => t = toFloat a ∨ t = SharixFloat.negInf) ?_ (.inl rfl)
  -- `t` is `a` in the first round and minus infinity from then on
  rintro t (rfl | rfl)
  · refine ⟨(leInt_toFloat a b).mpr (Int.le_trans (SharixFloat.nearest_nonpos ha) hb), .inr ?_⟩
    exact SharixFloat.ofInt_add_negInf (natAbs_toInt_lt a)
  · exact ⟨SharixFloat.leInt_negInf _, .inr SharixFloat.negInf_add_negInf⟩

end Loop

/-! ## Lines along an axis -/

/-- A side from `u` to `v` in row or column `a` ends: it is a single pixel; or
    neither of its ends is `INT_MAX`, or its row or column is rounded up, so that
    nothing is drawn; or, if the ends are too far apart for their difference to be
    an `int`, its row or column is not `INT_MAX`. -/
def SideEnds (a u v : Word) : Prop :=
  u = v ∨ if u.toInt - v.toInt ≤ INT_MAX ∧ v.toInt - u.toInt ≤ INT_MAX then
    (u.toInt ≠ INT_MAX ∧ v.toInt ≠ INT_MAX) ∨ RoundsUp a else a.toInt ≠ INT_MAX

example : RoundsUp 16777219 ∧ ¬ RoundsUp 16777217 ∧ ¬ RoundsUp 16777218 := by
  decide +kernel

/-- The condition on a side does not depend on which end comes first. -/
theorem SideEnds.symm {a u v : Word} (h : SideEnds a u v) : SideEnds a v u := by
  refine h.imp Eq.symm fun h => ?_
  split_ifs at h ⊢ <;> first | omega | exact h.imp_left And.symm

/-- The difference of two coordinates, as an `int`. -/
theorem toInt_diff {u v : Word} (hlt : u.toInt < v.toInt) :
    (v - u).toInt = if v.toInt - u.toInt ≤ INT_MAX then v.toInt - u.toInt
      else v.toInt - u.toInt - 2 ^ 32 := by
  have h1 := BitVec.toInt_lt (x := v)
  have h2 := BitVec.le_toInt u
  rw [BitVec.toInt_sub, Int.bmod_def, INT_MAX]
  split_ifs <;> omega

/-- Only where the first one is negative and the second one is not, the
    difference can overflow. -/
theorem diff_overflow {u v : Word} (hlt : u.toInt < v.toInt) (hd : ¬ 0 < (v - u).toInt) :
    (v - u).toInt < 0 ∧ u.toInt < 0 ∧ 0 ≤ v.toInt := by
  have h1 := BitVec.toInt_lt (x := v)
  have h2 := BitVec.le_toInt u
  rw [toInt_diff hlt, INT_MAX] at hd ⊢
  split_ifs at hd ⊢ <;> omega

/-- In order, the second end decides. -/
theorem sideEnds_iff {a u v : Word} (hlt : u.toInt < v.toInt) :
    SideEnds a u v ↔
      if 0 < (v - u).toInt then v.toInt ≠ INT_MAX ∨ RoundsUp a else a.toInt ≠ INT_MAX := by
  have h1 := BitVec.toInt_lt (x := v)
  have h2 := BitVec.le_toInt u
  have hne : u ≠ v := fun heq => by
    rw [heq] at hlt
    exact Int.lt_irrefl _ hlt
  have hends : u.toInt ≠ INT_MAX ∧ v.toInt ≠ INT_MAX ↔ v.toInt ≠ INT_MAX := by
    rw [INT_MAX]
    omega
  rw [SideEnds, or_iff_right hne, toInt_diff hlt, hends]
  rw [INT_MAX]
  by_cases hfar : v.toInt - u.toInt ≤ 2 ^ 31 - 1
  · rw [if_pos ⟨by omega, hfar⟩, if_pos hfar, if_pos (by omega)]
  · rw [if_neg fun h => hfar h.2, if_neg hfar, if_neg (by omega)]

section Axis

variable {binfo : BootInfo} {c : Rgb} {a u v : Word}

/-- The loop over the columns. -/
theorem drawLoop_columns {x1 y1 x2 y2 : Word} (h : (y2 - y1).toInt < (x2 - x1).toInt) :
    drawLoop binfo c ⟨x1, y1⟩ ⟨x2, y2⟩ = fun fuel =>
      lineLoop (fun xt1 yt1 => setPixel binfo c xt1 (ofFloat yt1))
        (divInt (y2 - y1).toInt (x2 - x1).toInt) y2 x2 fuel (toFloat y1) x1 := by
  funext fuel mem
  exact if_pos h

/-- The loop over the rows. -/
theorem drawLoop_rows {x1 y1 x2 y2 : Word} (h : ¬ (y2 - y1).toInt < (x2 - x1).toInt) :
    drawLoop binfo c ⟨x1, y1⟩ ⟨x2, y2⟩ = fun fuel =>
      lineLoop (fun yt2 xt2 => setPixel binfo c (ofFloat xt2) yt2)
        (divInt (x2 - x1).toInt (y2 - y1).toInt) x2 y2 fuel (toFloat x1) y1 := by
  funext fuel mem
  exact if_neg h

theorem drawLoop_point (p : Point) (mem : Mem) : Ends (drawLoop binfo c p p) mem := by
  unfold drawLoop
  rw [BitVec.sub_self, BitVec.sub_self]
  exact lineLoop_once (fun t => Bool.eq_false_iff.mp (SharixFloat.not_add_nan_le t _)) mem

/-- A column, by the sign of the difference of its ends in 32 bits. -/
theorem drawLoop_vertical (h : u.toInt ≤ v.toInt) :
    Decided (drawLoop binfo c ⟨a, u⟩ ⟨a, v⟩) (SideEnds a u v) := by
  rcases Int.lt_or_eq_of_le h with hlt | heq
  · refine Decided.congr ?_ (sideEnds_iff hlt).symm
    have hzero : (a - a).toInt = 0 := by rw [BitVec.sub_self]; rfl
    by_cases hd : 0 < (v - u).toInt
    · rw [if_pos hd, drawLoop_rows (by omega), hzero]
      exact lineLoop_flat hd a
    · -- the difference is negative, so that the loop is over the columns
      obtain ⟨hneg, hu, hv⟩ := diff_overflow hlt hd
      rw [if_neg hd, drawLoop_columns (by omega), hzero]
      exact lineLoop_steep hneg hu hv
  · obtain rfl := BitVec.eq_of_toInt_eq heq
    exact ⟨fun _ => drawLoop_point _, fun h => absurd (.inl rfl) h⟩

/-- A row, in the same three cases. -/
theorem drawLoop_horizontal (h : u.toInt ≤ v.toInt) :
    Decided (drawLoop binfo c ⟨u, a⟩ ⟨v, a⟩) (SideEnds a u v) := by
  rcases Int.lt_or_eq_of_le h with hlt | heq
  · refine Decided.congr ?_ (sideEnds_iff hlt).symm
    have hzero : (a - a).toInt = 0 := by rw [BitVec.sub_self]; rfl
    by_cases hd : 0 < (v - u).toInt
    · rw [if_pos hd, drawLoop_columns (by omega), hzero]
      exact lineLoop_flat hd a
    · obtain ⟨hneg, hu, hv⟩ := diff_overflow hlt hd
      rw [if_neg hd, drawLoop_rows (by omega), hzero]
      exact lineLoop_steep hneg hu hv
  · obtain rfl := BitVec.eq_of_toInt_eq heq
    exact ⟨fun _ => drawLoop_point _, fun h => absurd (.inl rfl) h⟩

theorem drawLine_vertical (a u v : Word) :
    Decided (fun fuel => drawLine binfo c fuel ⟨a, u⟩ ⟨a, v⟩) (SideEnds a u v) := by
  rcases Int.lt_or_le v.toInt u.toInt with hlt | hle
  · refine drawLine_exchanged (.inr hlt) (drawLine_ordered ?_ ?_)
    · exact fun h => h.elim (Int.lt_irrefl _) (Int.lt_asymm hlt)
    · exact (drawLoop_vertical (Int.le_of_lt hlt)).congr ⟨SideEnds.symm, SideEnds.symm⟩
  · refine drawLine_ordered ?_ (drawLoop_vertical hle)
    exact fun h => h.elim (Int.lt_irrefl _) (Int.not_lt.mpr hle)

theorem drawLine_horizontal (a u v : Word) :
    Decided (fun fuel => drawLine binfo c fuel ⟨u, a⟩ ⟨v, a⟩) (SideEnds a u v) := by
  rcases Int.lt_or_le v.toInt u.toInt with hlt | hle
  · refine drawLine_exchanged (.inl hlt) (drawLine_ordered ?_ ?_)
    · exact fun h => h.elim (Int.lt_asymm hlt) (Int.lt_irrefl _)
    · exact (drawLoop_horizontal (Int.le_of_lt hlt)).congr ⟨SideEnds.symm, SideEnds.symm⟩
  · refine drawLine_ordered ?_ (drawLoop_horizontal hle)
    exact fun h => h.elim (Int.not_lt.mpr hle) (Int.lt_irrefl _)

end Axis

/-! ## Rectangles -/

/-- The last column and the last row. -/
def Rect.lastX (rect : Rect) : Word := rect.p.x + rect.width - 1

def Rect.lastY (rect : Rect) : Word := rect.p.y + rect.height - 1

/-- The four sides end. -/
structure RectEnds (rect : Rect) : Prop where
  left : SideEnds rect.p.x rect.p.y rect.lastY
  bottom : SideEnds rect.lastY rect.p.x rect.lastX
  right : SideEnds rect.lastX rect.p.y rect.lastY
  top : SideEnds rect.p.y rect.p.x rect.lastX

/-- Four sides, one after another. -/
theorem drawRect_decided (binfo : BootInfo) (c : Rgb) (rect : Rect) :
    Decided (drawRect binfo c rect) (RectEnds rect) := by
  have hsides := (@drawLine_vertical binfo c rect.p.x rect.p.y rect.lastY).seq
    fun _ => (@drawLine_horizontal binfo c rect.lastY rect.p.x rect.lastX).seq
    fun _ => (@drawLine_vertical binfo c rect.lastX rect.lastY rect.p.y).seq
    fun _ => @drawLine_horizontal binfo c rect.p.y rect.lastX rect.p.x
  refine Decided.congr (f := drawRect binfo c rect) hsides ⟨?_, ?_⟩
  · rintro ⟨hleft, hbottom, hright, htop⟩
    exact ⟨hleft, hbottom, hright.symm, htop.symm⟩
  · rintro ⟨hleft, hbottom, hright, htop⟩
    exact ⟨hleft, hbottom, hright.symm, htop.symm⟩

/-! ## Filled rectangles -/

section Fill

variable {binfo : BootInfo} {c : Rgb} {left right bottom : Word}

/-- Behind the last column there is another one, unless it is the largest word. -/
theorem toNat_succ {j last : Word} (hle : j ≤ last) (hlast : last ≠ BitVec.allOnes 32) :
    (j + 1).toNat = j.toNat + 1 := by
  have hne := mt BitVec.eq_of_toNat_eq hlast
  rw [BitVec.toNat_allOnes] at hne
  rw [BitVec.le_def] at hle
  have hlt := last.isLt
  rw [BitVec.toNat_add]
  show (j.toNat + 1) % 2 ^ 32 = j.toNat + 1
  omega

theorem le_allOnes (j : Word) : j ≤ BitVec.allOnes 32 := by
  rw [BitVec.le_def, BitVec.toNat_allOnes]
  exact Nat.le_pred_of_lt j.isLt

theorem fillRow_ends (i : Word) (hright : right ≠ BitVec.allOnes 32) (j : Word) (mem : Mem) :
    Ends (fun fuel => fillRow binfo c i right fuel j) mem := by
  obtain ⟨k, hk⟩ : ∃ k, right.toNat < j.toNat + k := ⟨right.toNat + 1, by omega⟩
  induction k generalizing j mem with
  | zero =>
      exact .done fun _ => if_neg (BitVec.not_le.mpr hk)
  | succ k ih =>
      by_cases hle : j ≤ right
      · have hnext := toNat_succ hle hright
        exact (ih (j + 1) (fillPixel binfo c i j mem) (by omega)).of_round fun fuel => if_pos hle
      · exact .done fun _ => if_neg hle

/-- With its last column at the largest word the inner loop has no end. -/
theorem fillRow_hangs (i j : Word) (mem : Mem) :
    Hangs (fun fuel => fillRow binfo c i (BitVec.allOnes 32) fuel j) mem := by
  intro fuel
  induction fuel generalizing j mem with
  | zero => rfl
  | succ fuel ih => exact (if_pos (le_allOnes j)).trans (ih (j + 1) (fillPixel binfo c i j mem))

theorem fillRows_ends (hright : right ≠ BitVec.allOnes 32) (hbottom : bottom ≠ BitVec.allOnes 32)
    (i : Word) (mem : Mem) : Ends (fun fuel => fillRows binfo c left right bottom fuel i) mem := by
  obtain ⟨k, hk⟩ : ∃ k, bottom.toNat < i.toNat + k := ⟨bottom.toNat + 1, by omega⟩
  induction k generalizing i mem with
  | zero =>
      exact .done fun _ => if_neg (BitVec.not_le.mpr hk)
  | succ k ih =>
      by_cases hle : i ≤ bottom
      · have hnext := toNat_succ hle hbottom
        exact ((fillRow_ends i hright left mem).seq fun mem =>
          ih (i + 1) mem (by omega)).of_round fun fuel => if_pos hle
      · exact .done fun _ => if_neg hle

/-- A last row that is the largest word is followed by the first one. -/
theorem fillRows_hangs (i : Word) (mem : Mem) :
    Hangs (fun fuel => fillRows binfo c left right (BitVec.allOnes 32) fuel i) mem := by
  intro fuel
  induction fuel generalizing i mem with
  | zero => rfl
  | succ fuel ih =>
      refine (if_pos (le_allOnes i)).trans ?_
      -- the row may have an end or not, the rows have none
      cases fillRow binfo c i right fuel left mem with
      | none => rfl
      | some mem => exact ih (i + 1) mem

theorem fillRows_decided {top : Word} (hrows : top ≤ bottom) :
    Decided (fun fuel => fillRows binfo c left right bottom fuel top)
      (right ≠ BitVec.allOnes 32 ∧ bottom ≠ BitVec.allOnes 32) := by
  refine ⟨fun h => fillRows_ends h.1 h.2 top, fun h mem => ?_⟩
  by_cases hbottom : bottom = BitVec.allOnes 32
  · rw [hbottom]
    exact fillRows_hangs top mem
  · obtain rfl : right = BitVec.allOnes 32 := Decidable.not_not.mp fun hright => h ⟨hright, hbottom⟩
    exact ((fillRow_hangs top left mem).seq_left _).of_round rfl fun fuel => if_pos hrows

end Fill

/-- Along an axis, of `scrn` columns or rows: the last one is not the one before
    the screen, to which it is also cut off if the screen has none. -/
def AxisEnds (scrn : Nat) (last : Word) : Prop :=
  last.toInt ≠ -1 ∧ (scrn = 0 → last.toInt < 0)

/-- The rectangle is turned away, or both loops end. -/
def FillEnds (binfo : BootInfo) (rect : Rect) : Prop :=
  (rect.p.x.toInt > rect.lastX.toInt ∨ rect.p.y.toInt > rect.lastY.toInt ∨
      rect.p.x.toInt > (binfo.scrnx.toNat : Int) - 1 ∨
      rect.p.y.toInt > (binfo.scrny.toNat : Int) - 1) ∨
    (AxisEnds binfo.scrnx.toNat rect.lastX ∧ AxisEnds binfo.scrny.toNat rect.lastY)

/-- The last column and row, in terms of the rectangle. -/
theorem axisEnds_iff {scrn : Nat} (hscrn : scrn < 2 ^ 16) (x w : Word) :
    AxisEnds scrn (x + w - 1) ↔ BitVec.ofInt 32 (clipLast scrn x w) ≠ BitVec.allOnes 32 := by
  have h1 := BitVec.toInt_lt (x := x + w - 1)
  have h2 := BitVec.le_toInt (x + w - 1)
  have hones : ∀ a : Word, a ≠ BitVec.allOnes 32 ↔ a.toInt ≠ -1 :=
    fun a => not_congr BitVec.toInt_inj.symm
  rw [AxisEnds, hones, clipLast, BitVec.toInt_ofInt, Int.bmod_def]
  split_ifs <;> omega

theorem fillRect_decided (binfo : BootInfo) (c : Rgb) (rect : Rect) :
    Decided (fun fuel => fillRect binfo c fuel rect) (FillEnds binfo rect) := by
  by_cases htest : rect.p.x.toInt > rect.lastX.toInt ∨ rect.p.y.toInt > rect.lastY.toInt ∨
      rect.p.x.toInt > (binfo.scrnx.toNat : Int) - 1 ∨
      rect.p.y.toInt > (binfo.scrny.toNat : Int) - 1
  · exact ⟨fun _ mem => ⟨0, mem, fun fuel _ => if_pos htest⟩, fun h => absurd (.inl htest) h⟩
  · have hrows := @clip_le _ binfo.scrny.isLt rect.p.y rect.height fun h =>
      htest (h.elim (fun h => .inr (.inl h)) fun h => .inr (.inr (.inr h)))
    have hloops : (fun fuel => fillRect binfo c fuel rect) = fun fuel =>
        fillRows binfo c (BitVec.ofInt 32 (clipFirst rect.p.x))
          (BitVec.ofInt 32 (clipLast binfo.scrnx.toNat rect.p.x rect.width))
          (BitVec.ofInt 32 (clipLast binfo.scrny.toNat rect.p.y rect.height)) fuel
          (BitVec.ofInt 32 (clipFirst rect.p.y)) := by
      funext fuel mem
      exact if_neg htest
    rw [hloops]
    refine (fillRows_decided hrows).congr ?_
    rw [FillEnds, or_iff_right htest]
    exact and_congr (axisEnds_iff binfo.scrnx.isLt rect.p.x rect.width).symm
      (axisEnds_iff binfo.scrny.isLt rect.p.y rect.height).symm

/-! ## Buttons -/

theorem drawFrame_decided (binfo : BootInfo) (contex : Rect) (frame : Frame) :
    Decided (drawFrame binfo contex frame)
      (FillEnds binfo (realrect contex frame) ∧ RectEnds (realrect contex frame)) :=
  (fillRect_decided binfo frame.bgc (realrect contex frame)).seq fun _ =>
    drawRect_decided binfo frame.frc (realrect contex frame)

/-- A single column or a single row. -/
def Thin (rect : Rect) : Prop := rect.p.x = rect.lastX ∨ rect.p.y = rect.lastY

/-- The ends of both diagonals are comparable only if the rectangle is thin. -/
theorem not_comparable {x1 y1 x2 y2 : Word} (h : ¬ (x1 = x2 ∨ y1 = y2)) :
    ¬ Comparable ⟨x1, y1⟩ ⟨x2, y2⟩ ∨ ¬ Comparable ⟨x1, y2⟩ ⟨x2, y1⟩ := by
  rw [← BitVec.toInt_inj, ← BitVec.toInt_inj] at h
  show ¬ (x1.toInt ≤ x2.toInt ∧ y1.toInt ≤ y2.toInt ∨ x2.toInt ≤ x1.toInt ∧ y2.toInt ≤ y1.toInt) ∨
    ¬ (x1.toInt ≤ x2.toInt ∧ y2.toInt ≤ y1.toInt ∨ x2.toInt ≤ x1.toInt ∧ y1.toInt ≤ y2.toInt)
  omega

/-- The two diagonals of a rectangle whose sides end. -/
theorem diagonals_decided (binfo : BootInfo) (c : Rgb) {rect : Rect} (h : RectEnds rect) :
    Decided (fun fuel mem => (drawLine binfo c fuel rect.p ⟨rect.lastX, rect.lastY⟩ mem).bind
        (drawLine binfo c fuel ⟨rect.p.x, rect.lastY⟩ ⟨rect.lastX, rect.p.y⟩)) (Thin rect) := by
  constructor
  · rintro (hx | hy) mem
    · have hdown : Ends (fun fuel => drawLine binfo c fuel rect.p ⟨rect.p.x, rect.lastY⟩) mem :=
        (drawLine_vertical _ _ _).1 h.left mem
      rw [← hx]
      exact hdown.seq ((drawLine_vertical _ _ _).1 h.left.symm)
    · have hacross : Ends (fun fuel => drawLine binfo c fuel rect.p ⟨rect.lastX, rect.p.y⟩) mem :=
        (drawLine_horizontal _ _ _).1 h.top mem
      rw [← hy]
      exact hacross.seq ((drawLine_horizontal _ _ _).1 h.top)
  · intro hthin mem
    -- one of the two calls itself without end
    rcases not_comparable hthin with hcomp | hcomp
    · exact (drawLine_hangs hcomp mem).seq_left _
    · exact Hangs.seq_right (drawLine_hangs hcomp) _ mem

/-- The filling, the sides and the two diagonals. -/
theorem drawButton_decided (binfo : BootInfo) (contex : Rect) (button : Button) :
    Decided (drawButton binfo contex button)
      ((FillEnds binfo (realrect contex button.frame) ∧ RectEnds (realrect contex button.frame)) ∧
        Thin (realrect contex button.frame)) :=
  (drawFrame_decided binfo contex button.frame).seq fun h =>
    diagonals_decided binfo button.btc h.2

instance : Nonempty Mem := ⟨fun _ => 0⟩

/-- **WHICH DRAWING ENDS**: the loop of a line is reached if no coordinate falls
    from one of its points to the other; a rectangle is drawn to the end if its
    sides are; a button, if moreover its inside is filled to the end and it is
    thin. -/
theorem draw_ends_iff (binfo : BootInfo) (p1 p2 : Point) (c : Rgb) (rect contex : Rect)
    (button : Button) :
    (ReachesLoop p1 p2 ↔ Comparable p1 p2) ∧
    ((∀ mem, Ends (drawRect binfo c rect) mem) ↔ RectEnds rect) ∧
    ((∀ mem, Ends (drawButton binfo contex button) mem) ↔
      (FillEnds binfo (realrect contex button.frame) ∧
        RectEnds (realrect contex button.frame)) ∧ Thin (realrect contex button.frame)) :=
  ⟨reachesLoop_iff p1 p2, (drawRect_decided binfo c rect).ends_iff,
    (drawButton_decided binfo contex button).ends_iff⟩

/-- Two columns and two rows. -/
def smallButton : Button := ⟨⟨⟨⟨0, 0⟩, 2, 2⟩, ⟨0, 0, 0⟩, ⟨0, 0, 0⟩⟩, ⟨0, 0, 0⟩⟩

/-- From the lower left to the upper right corner of a button the calls have no
    end. -/
theorem not_draw_ends : ¬ ReachesLoop ⟨0, 1⟩ ⟨1, 0⟩ ∧
    ¬ ∀ mem, Ends (drawButton vbeScreen ⟨⟨0, 0⟩, 1024, 768⟩ smallButton) mem := by
  constructor
  · rw [reachesLoop_iff]
    unfold Comparable
    decide
  · rw [(drawButton_decided vbeScreen _ smallButton).ends_iff]
    rintro ⟨-, hthin⟩
    unfold Thin at hthin
    exact absurd hthin (by decide)

end SharixGraphic
