import Sharix.FillRectProofs

/-! # The cursor of an editbox — `component/editbox.c`

    A printed character moves the cursor one place on, along the rows and from
    the last place back to the first.  A newline moves it to the next row, from
    the last row back to the first.  The end of an input line is to do the same
    two rows earlier, but takes the height of the box instead of the row
    (`editReadline`), so the box is lost there: `editbox_run_iff` says when.

    The keys are the characters that `keybuf_pop` returns in turn, 0 where the
    buffer is empty. -/

namespace SharixEditbox

open SharixGraphic

/-! ## The model -/

def ASC16_WIDTH : Int := 8
def ASC16_HEIGHT : Int := 16

/-- `editbox_t`, without the background colour, which is not used here. -/
structure Editbox where
  point : Point
  chX : Int
  chY : Int
  textC : Rgb
  curX : Int
  curY : Int
  ch : Nat → Int
  chSize : Nat

/-- The box, the glyphs drawn so far, and the keys that are still to come. -/
structure State where
  eb : Editbox
  drawn : List (Int × Point × Rgb)
  keys : List Int

/-- `if(peb->cur_y >= peb->ch_y) peb->cur_y = 0;`. -/
def wrapRow (eb : Editbox) : Editbox :=
  { eb with curY := if eb.curY ≥ eb.chY then 0 else eb.curY }

/-- `peb->cur_x ++`, and to the next row from the last column. -/
def nextColumn (eb : Editbox) : Editbox :=
  { eb with
    curX := if eb.curX + 1 ≥ eb.chX then 0 else eb.curX + 1
    curY := if eb.curX + 1 ≥ eb.chX then eb.curY + 1 else eb.curY }

def editPutchar (ch : Int) (s : State) : State :=
  if ch = 10 ∨ ch = 9 then
    { s with eb := wrapRow { s.eb with curY := s.eb.curY + 1, curX := 0 } }
  else
    let x := s.eb.point.x + BitVec.ofInt 32 (s.eb.curX * ASC16_WIDTH)
    let y := s.eb.point.y + BitVec.ofInt 32 (s.eb.curY * ASC16_HEIGHT)
    { s with
      eb := wrapRow (nextColumn s.eb)
      drawn := s.drawn ++ [(ch, ⟨x, y⟩, s.eb.textC)] }

/-- `strlen(str)` characters are printed: those before the first 0. -/
def editPutstr (str : List Int) (s : State) : State :=
  (str.takeWhile (· ≠ 0)).foldl (fun s ch => editPutchar ch s) s

/-- The end of an input line.  Where the next row is the last one or beyond, the
    height is set to 0 instead of the row. -/
def endLine (eb : Editbox) : Editbox :=
  { eb with
    curX := 0
    curY := eb.curY + 1
    chY := if eb.curY + 1 ≥ eb.chY - 1 then 0 else eb.chY }

/-- The loop of `edit_readline`, at `keys` and with `i` characters stored.  It
    has no result where the keys run out: the call waits. -/
def readLoop : List Int → Nat → State → Option State
  | [], _, _ => none
  | c :: keys, i, s =>
      if c = 0 then readLoop keys i s
      else if c < 0 then some { s with keys := keys }
      else if c ≥ 32 ∧ i < 800 - 1 then
        let eb := { s.eb with ch := Function.update s.eb.ch i c }
        readLoop keys (i + 1) (editPutchar c { s with eb := eb })
      else if c = 8 ∧ i > 0 then readLoop keys (i - 1) s
      else if c = 10 ∨ c = 13 then
        let eb := endLine { s.eb with ch := Function.update s.eb.ch i 0 }
        some { s with eb := eb, keys := keys }
      else readLoop keys i s

def editReadline (s : State) : Option State :=
  let eb := { s.eb with ch := fun i => if i < s.eb.chSize then 0 else s.eb.ch i }
  readLoop s.keys 0 { s with eb := eb }

/-- One call. -/
inductive Call where
  | putchar (ch : Int)
  | putstr (str : List Int)
  | readline
deriving DecidableEq

def step : Call → State → Option State
  | .putchar ch, s => some (editPutchar ch s)
  | .putstr str, s => some (editPutstr str s)
  | .readline, s => editReadline s

/-! ## The cursor -/

/-- The cursor is inside the box. -/
structure Inside (eb : Editbox) : Prop where
  x : 0 ≤ eb.curX ∧ eb.curX < eb.chX
  y : 0 ≤ eb.curY ∧ eb.curY < eb.chY

/-- The same dimensions. -/
def SameBox (eb eb' : Editbox) : Prop := eb'.chX = eb.chX ∧ eb'.chY = eb.chY

/-- The place of the cursor, counted along the rows. -/
def place (eb : Editbox) : Int := eb.curY * eb.chX + eb.curX

theorem wrapRow_inside {eb : Editbox} (hx : 0 ≤ eb.curX ∧ eb.curX < eb.chX)
    (hy : 0 ≤ eb.curY ∧ eb.curY ≤ eb.chY) (hpos : 0 < eb.chY) : Inside (wrapRow eb) := by
  refine ⟨hx, ?_⟩
  show 0 ≤ (if eb.curY ≥ eb.chY then 0 else eb.curY)
    ∧ (if eb.curY ≥ eb.chY then 0 else eb.curY) < eb.chY
  split <;> omega

theorem nextColumn_cursor {eb : Editbox} (h : Inside eb) :
    (0 ≤ (nextColumn eb).curX ∧ (nextColumn eb).curX < eb.chX) ∧
      0 ≤ (nextColumn eb).curY ∧ (nextColumn eb).curY ≤ eb.chY := by
  obtain ⟨⟨hx, hx'⟩, hy, hy'⟩ := h
  show (0 ≤ (if eb.curX + 1 ≥ eb.chX then 0 else eb.curX + 1)
      ∧ (if eb.curX + 1 ≥ eb.chX then 0 else eb.curX + 1) < eb.chX) ∧
    0 ≤ (if eb.curX + 1 ≥ eb.chX then eb.curY + 1 else eb.curY)
      ∧ (if eb.curX + 1 ≥ eb.chX then eb.curY + 1 else eb.curY) ≤ eb.chY
  split <;> omega

theorem editPutchar_inside (ch : Int) {s : State} (h : Inside s.eb) :
    Inside (editPutchar ch s).eb ∧ SameBox s.eb (editPutchar ch s).eb := by
  have hpos : 0 < s.eb.chY := Int.lt_of_le_of_lt h.y.1 h.y.2
  unfold editPutchar
  split
  · refine ⟨wrapRow_inside ⟨Int.le_refl 0, ?_⟩ ⟨?_, ?_⟩ hpos, rfl, rfl⟩
    · exact Int.lt_of_le_of_lt h.x.1 h.x.2
    · show 0 ≤ s.eb.curY + 1
      have := h.y.1
      omega
    · exact h.y.2
  · have hnext := nextColumn_cursor h
    exact ⟨wrapRow_inside hnext.1 hnext.2 hpos, rfl, rfl⟩

/-! ## Where a line ends -/

/-- The first key that ends a call of `edit_readline` ends a line, and is no
    negative character. -/
def endsLine : List Int → Bool
  | [] => false
  | c :: keys =>
      if c < 0 then false
      else if c = 10 ∨ c = 13 then true
      else endsLine keys

theorem endsLine_of_neg {c : Int} (keys : List Int) (h : c < 0) :
    endsLine (c :: keys) = false := if_pos h

theorem endsLine_of_line {c : Int} (keys : List Int) (h : c = 10 ∨ c = 13) :
    endsLine (c :: keys) = true := by
  rw [endsLine, if_neg (by omega), if_pos h]

theorem endsLine_next {c : Int} (keys : List Int) (h : ¬ c < 0)
    (h' : ¬ (c = 10 ∨ c = 13)) : endsLine (c :: keys) = endsLine keys := by
  rw [endsLine, if_neg h, if_neg h']

/-- How many keys are echoed up to the key that ends the call, when `i`
    characters are stored: those from the blank on, while the line has room. -/
def echoes : Nat → List Int → Nat
  | _, [] => 0
  | i, c :: keys =>
      if c < 0 ∨ c = 10 ∨ c = 13 then 0
      else if c ≥ 32 ∧ i < 800 - 1 then echoes (i + 1) keys + 1
      else if c = 8 ∧ i > 0 then echoes (i - 1) keys
      else echoes i keys

/-- One place on, and back to the first from the last. -/
theorem place_next {eb : Editbox} (h : Inside eb) :
    place (wrapRow (nextColumn eb)) = (place eb + 1) % (eb.chX * eb.chY) := by
  obtain ⟨⟨hx, hx'⟩, hy, hy'⟩ := h
  have hrows : (eb.curY + 1) * eb.chX ≤ eb.chY * eb.chX :=
    Int.mul_le_mul_of_nonneg_right hy' (by omega)
  have hrow : (eb.curY + 1) * eb.chX = eb.curY * eb.chX + eb.chX := by
    rw [Int.add_mul, Int.one_mul]
  have hfirst : 0 ≤ eb.curY * eb.chX := Int.mul_nonneg hy (by omega)
  rw [Int.mul_comm eb.chX]
  by_cases hcol : eb.curX + 1 ≥ eb.chX
  · have hwrap : (wrapRow (nextColumn eb)).curX = 0 ∧ (wrapRow (nextColumn eb)).curY
        = if eb.curY + 1 ≥ eb.chY then 0 else eb.curY + 1 := by
      simp [wrapRow, nextColumn, hcol]
    have hplace : place eb + 1 = (eb.curY + 1) * eb.chX := by
      rw [place]
      omega
    rw [place, hwrap.1, hwrap.2, hplace]
    show (if _ then _ else _) * eb.chX + 0 = _
    split
    · next hlast =>
        rw [show eb.curY + 1 = eb.chY by omega, Int.emod_self]
        omega
    · next hless =>
        have hroom : (eb.curY + 2) * eb.chX ≤ eb.chY * eb.chX :=
          Int.mul_le_mul_of_nonneg_right (by omega) (by omega)
        have htwo : (eb.curY + 2) * eb.chX = (eb.curY + 1) * eb.chX + eb.chX := by
          rw [Int.add_mul, Int.add_mul]
          omega
        rw [Int.emod_eq_of_lt (by omega) (by omega), Int.add_zero]
  · have hstay : (wrapRow (nextColumn eb)).curX = eb.curX + 1 ∧
        (wrapRow (nextColumn eb)).curY = eb.curY := by
      simp [wrapRow, nextColumn, hcol]
      omega
    rw [place, hstay.1, hstay.2, place]
    show eb.curY * eb.chX + (eb.curX + 1) = _
    rw [Int.emod_eq_of_lt (by omega) (by omega)]
    omega

theorem place_lt {eb : Editbox} (h : Inside eb) :
    0 ≤ place eb ∧ place eb < eb.chX * eb.chY := by
  obtain ⟨⟨hx, hx'⟩, hy, hy'⟩ := h
  have hrows : (eb.curY + 1) * eb.chX ≤ eb.chY * eb.chX :=
    Int.mul_le_mul_of_nonneg_right hy' (by omega)
  rw [Int.add_mul, Int.one_mul, Int.mul_comm eb.chY] at hrows
  have hfirst : 0 ≤ eb.curY * eb.chX := Int.mul_nonneg hy (by omega)
  rw [place]
  omega

/-- The row of a place. -/
theorem place_row {eb : Editbox} (h : Inside eb) : place eb / eb.chX = eb.curY := by
  have hpos : 0 < eb.chX := Int.lt_of_le_of_lt h.x.1 h.x.2
  rw [place, Int.add_comm, Int.add_mul_ediv_right _ _ (Int.ne_of_gt hpos),
    Int.ediv_eq_zero_of_lt h.x.1 h.x.2, Int.zero_add]

/-- The loop of `edit_readline` echoes, and then ends a line or not: by induction
    on the keys. -/
theorem readLoop_eq {keys : List Int} {i : Nat} {s s' : State} (h : Inside s.eb)
    (hrun : readLoop keys i s = some s') :
    ∃ eb, Inside eb ∧ SameBox s.eb eb ∧
      place eb = (place s.eb + echoes i keys) % (s.eb.chX * s.eb.chY) ∧
      s'.eb = if endsLine keys then endLine eb else eb := by
  induction keys generalizing i s with
  | nil => exact nomatch hrun
  | cons c keys ih =>
      have hplace := place_lt h
      have hnow : place s.eb = (place s.eb + (0 : Nat)) % (s.eb.chX * s.eb.chY) := by
        rw [Int.natCast_zero, Int.add_zero, Int.emod_eq_of_lt hplace.1 hplace.2]
      rw [readLoop] at hrun
      split at hrun
      · next h0 =>
          obtain ⟨eb, hin, hsame, hat, hend⟩ := ih h hrun
          refine ⟨eb, hin, hsame, ?_, ?_⟩
          · rw [hat, echoes, if_neg (by omega), if_neg (by omega), if_neg (by omega)]
          · rw [hend, endsLine_next keys (by omega) (by omega)]
      split at hrun
      · next h0 hneg =>
          refine ⟨s.eb, h, ⟨rfl, rfl⟩, ?_, ?_⟩
          · rw [echoes, if_pos (Or.inl hneg)]
            exact hnow
          · rw [endsLine_of_neg keys hneg]
            exact (congrArg State.eb (Option.some.inj hrun)).symm
      split at hrun
      · next h0 hneg hecho =>
          -- the echo is no newline and no tab, so the cursor is one place on
          obtain ⟨hin', hsame'⟩ := editPutchar_inside c
            (s := { s with eb := { s.eb with ch := Function.update s.eb.ch i c } })
            ⟨h.x, h.y⟩
          obtain ⟨eb, hin, hsame, hat, hend⟩ := ih hin' hrun
          have hnext : place (editPutchar c
              { s with eb := { s.eb with ch := Function.update s.eb.ch i c } }).eb
              = (place s.eb + 1) % (s.eb.chX * s.eb.chY) := by
            rw [editPutchar, if_neg (by omega)]
            exact @place_next { s.eb with ch := Function.update s.eb.ch i c } ⟨h.x, h.y⟩
          refine ⟨eb, hin, ⟨hsame.1.trans hsame'.1, hsame.2.trans hsame'.2⟩, ?_, ?_⟩
          · rw [hat, hnext, hsame'.1, hsame'.2, echoes, if_neg (by omega), if_pos hecho]
            show ((place s.eb + 1) % (s.eb.chX * s.eb.chY) + _) % (s.eb.chX * s.eb.chY) = _
            rw [Int.emod_add_emod, Int.add_assoc, Int.add_comm 1]
            rfl
          · rw [hend, endsLine_next keys (by omega) (by omega)]
      split at hrun
      · next h0 hneg hecho hback =>
          obtain ⟨eb, hin, hsame, hat, hend⟩ := ih h hrun
          refine ⟨eb, hin, hsame, ?_, ?_⟩
          · rw [hat, echoes, if_neg (by omega), if_neg hecho, if_pos hback]
          · rw [hend, endsLine_next keys hneg (by omega)]
      split at hrun
      · next h0 hneg hecho hback hline =>
          refine ⟨{ s.eb with ch := Function.update s.eb.ch i 0 }, ⟨h.x, h.y⟩,
            ⟨rfl, rfl⟩, ?_, ?_⟩
          · rw [echoes, if_pos (Or.inr hline)]
            exact hnow
          · rw [endsLine_of_line keys hline]
            exact (congrArg State.eb (Option.some.inj hrun)).symm
      · next h0 hneg hecho hback hline =>
          obtain ⟨eb, hin, hsame, hat, hend⟩ := ih h hrun
          refine ⟨eb, hin, hsame, ?_, ?_⟩
          · rw [hat, echoes, if_neg (by omega), if_neg hecho, if_neg hback]
          · rw [hend, endsLine_next keys hneg hline]

/-! ## Runs -/

/-- The row of the cursor behind the echo of an input line. -/
def lastRow (s : State) : Int :=
  (place s.eb + echoes 0 s.keys) % (s.eb.chX * s.eb.chY) / s.eb.chX

/-- A call of `edit_readline` that ends a line does so above the last two rows. -/
def LineFits : Call → State → Prop
  | .readline, s => endsLine s.keys = true → lastRow s + 1 < s.eb.chY - 1
  | _, _ => True

/-- After every call of the run that returns. -/
def AfterEach (P : State → Prop) : List Call → State → Prop
  | [], _ => True
  | call :: calls, s => ∀ s', step call s = some s' → P s' ∧ AfterEach P calls s'

/-- Before every call of the run that returns. -/
def BeforeEach (Q : Call → State → Prop) : List Call → State → Prop
  | [], _ => True
  | call :: calls, s => ∀ s', step call s = some s' → Q call s ∧ BeforeEach Q calls s'

theorem SameBox.trans {eb eb' eb'' : Editbox} (h : SameBox eb eb') (h' : SameBox eb' eb'') :
    SameBox eb eb'' := ⟨h'.1.trans h.1, h'.2.trans h.2⟩

theorem editPutstr_inside (str : List Int) {s : State} (h : Inside s.eb) :
    Inside (editPutstr str s).eb ∧ SameBox s.eb (editPutstr str s).eb := by
  unfold editPutstr
  induction str.takeWhile (· ≠ 0) generalizing s with
  | nil => exact ⟨h, rfl, rfl⟩
  | cons ch str ih =>
      obtain ⟨hin, hsame⟩ := editPutchar_inside ch h
      obtain ⟨hin', hsame'⟩ := ih hin
      exact ⟨hin', hsame.trans hsame'⟩

/-- One input line keeps cursor and box if and only if it ends above the last
    two rows, or is given up. -/
theorem editReadline_inside {s s' : State} (h : Inside s.eb)
    (hrun : editReadline s = some s') :
    (Inside s'.eb ∧ SameBox s.eb s'.eb) ↔ LineFits .readline s := by
  obtain ⟨eb, hin, hsame, hat, hend⟩ := readLoop_eq (s := { s with
    eb := { s.eb with ch := fun i => if i < s.eb.chSize then 0 else s.eb.ch i } })
    ⟨h.x, h.y⟩ hrun
  have hsame' : SameBox s.eb eb := hsame
  have hrow : eb.curY = lastRow s := by
    rw [← place_row hin, hat, hsame'.1]
    rfl
  rw [hend, LineFits]
  cases endsLine s.keys with
  | false => exact iff_of_true ⟨hin, hsame'⟩ (fun h => nomatch h)
  | true =>
      rw [if_pos rfl, ← hrow, ← hsame'.2]
      have hheight : (endLine eb).chY = if eb.curY + 1 ≥ eb.chY - 1 then 0 else eb.chY := rfl
      have hpos : 0 < eb.chY := Int.lt_of_le_of_lt hin.y.1 hin.y.2
      constructor
      · rintro ⟨-, -, hbox⟩ -
        rw [hheight, ← hsame'.2] at hbox
        split at hbox <;> omega
      · intro hfits
        have hfits' := hfits rfl
        rw [if_neg (by omega)] at hheight
        refine ⟨⟨⟨Int.le_refl 0, ?_⟩, ?_⟩, hsame'.1, hheight.trans hsame'.2⟩
        · exact Int.lt_of_le_of_lt hin.x.1 hin.x.2
        · rw [hheight]
          show 0 ≤ eb.curY + 1 ∧ eb.curY + 1 < eb.chY
          have := hin.y.1
          omega

/-- One call. -/
theorem step_inside {call : Call} {s s' : State} (h : Inside s.eb)
    (hrun : step call s = some s') :
    (Inside s'.eb ∧ SameBox s.eb s'.eb) ↔ LineFits call s := by
  cases call with
  | putchar ch =>
      obtain rfl := Option.some.inj hrun
      exact iff_of_true (editPutchar_inside ch h) trivial
  | putstr str =>
      obtain rfl := Option.some.inj hrun
      exact iff_of_true (editPutstr_inside str h) trivial
  | readline => exact editReadline_inside h hrun

/-- **WHEN THE BOX IS KEPT**: after every call of a run the cursor is inside the
    box, and the box is as it was, if and only if every input line ends above the
    last two rows. -/
theorem editbox_run_iff {s : State} (h : Inside s.eb) (calls : List Call) :
    AfterEach (fun s' => Inside s'.eb ∧ SameBox s.eb s'.eb) calls s
      ↔ BeforeEach LineFits calls s := by
  -- the box before the run, and the state before the next call
  have key : ∀ (calls : List Call) (t : State), Inside t.eb → SameBox s.eb t.eb →
      (AfterEach (fun s' => Inside s'.eb ∧ SameBox s.eb s'.eb) calls t
        ↔ BeforeEach LineFits calls t) := by
    intro calls
    induction calls with
    | nil => exact fun _ _ _ => Iff.rfl
    | cons call calls ih =>
        intro t hin hsame
        refine forall_congr' fun t' => forall_congr' fun hrun => ?_
        have hone := step_inside hin hrun
        constructor
        · rintro ⟨⟨hin', hsame'⟩, hrest⟩
          refine ⟨hone.mp ⟨hin', ?_, ?_⟩, (ih t' hin' hsame').mp hrest⟩
          · exact hsame'.1.trans hsame.1.symm
          · exact hsame'.2.trans hsame.2.symm
        · rintro ⟨hfits, hrest⟩
          obtain ⟨hin', hsame'⟩ := hone.mpr hfits
          exact ⟨⟨hin', hsame.trans hsame'⟩, (ih t' hin' (hsame.trans hsame')).mpr hrest⟩
  exact key calls s h ⟨rfl, rfl⟩

/-- A box of 40 columns and 10 rows, the cursor at the start of a row, and keys
    to come. -/
def boxAt (curY : Int) (keys : List Int) : State :=
  ⟨⟨⟨0, 0⟩, 40, 10, ⟨0, 0, 0⟩, 0, curY, fun _ => 0, 800⟩, [], keys⟩

/-- A text of two rows from the second row on, then a line of two keys. -/
theorem editbox_run_iff_readline :
    AfterEach (fun s' => Inside s'.eb ∧ SameBox (boxAt 1 [97, 98, 13]).eb s'.eb)
      [.putstr [97, 10, 98], .readline] (boxAt 1 [97, 98, 13]) := by
  refine (editbox_run_iff (s := boxAt 1 [97, 98, 13]) ⟨by decide, by decide⟩ _).mpr ?_
  intro t ht
  obtain rfl := Option.some.inj ht
  refine ⟨trivial, fun t' ht' => ⟨fun _ => ?_, trivial⟩⟩
  -- the line ends in the third row
  decide

/-- The cursor in the last row but one, and the return key. -/
def lowBox : State := boxAt 8 [13]

/-- The return key in the last row but one takes the height away. -/
theorem editReadline_loses_height :
    ¬ ∀ s : State, 2 ≤ s.eb.chX → 2 ≤ s.eb.chY → Inside s.eb → ∀ calls,
      AfterEach (fun s' => Inside s'.eb ∧ SameBox s.eb s'.eb) calls s := by
  intro hall
  have hend := hall lowBox (by decide) (by decide) ⟨by decide, by decide⟩ [.readline]
  obtain ⟨⟨-, -, hheight⟩, -⟩ := hend _ rfl
  exact absurd hheight (by decide)

end SharixEditbox
