import Sharix.PrintfmtRunProofs
import Sharix.PrintfmtDecimalProofs

/-! # Strings in a field — `printfmt.c`

    `case 's'` pads on the left as far as `strnlen` says, prints the characters
    that the precision allows, and pads on the right with the width that is then
    left.  The two counts agree.  What goes wrong is the reading: a precision of
    0 is a flag to `reswitch`, so it neither cuts the string nor leaves the
    padding alone. -/

namespace SharixPrintfmt

/-! ## The conversion -/

/-- The number of characters that the precision lets through. -/
def printed (precision : Int) (len : Nat) : Nat :=
  if precision < 0 then len else min precision.toNat len

theorem printed_le (precision : Int) (len : Nat) : printed precision len ≤ len := by
  unfold printed
  split <;> omega

theorem strnlen_eq : ∀ (p : List Byte) (n : Nat), strnlen p n = min n p.length
  | [], n => by simp [strnlen]
  | _ :: _, 0 => by simp [strnlen]
  | c :: p, n + 1 => by
      rw [strnlen, strnlen_eq p n, List.length_cons]
      omega

/-- `strnlen` takes the precision as a `size_t`. -/
theorem strnlen_precision {p : List Byte} (hp : p.length < 2 ^ 30) {precision : Int}
    (h1 : -2 ^ 31 ≤ precision) (h2 : precision < 2 ^ 31) :
    strnlen p (precision % 2 ^ 32).toNat = printed precision p.length := by
  rw [strnlen_eq, printed]
  split <;> omega

theorem putChars_eq (altflag : Bool) : ∀ (p : List Byte) (width precision : Int)
    (s : List Int), wrapInt width = width →
    putChars record altflag p width precision s
      = (wrapInt (width - printed precision p.length),
          s ++ (p.take (printed precision p.length)).map (shown altflag)) := by
  intro p
  induction p with
  | nil =>
      intro width precision s hwidth
      have hnone : printed precision 0 = 0 := Nat.le_zero.mp (printed_le precision 0)
      simp [putChars, hnone, hwidth]
  | cons c p ih =>
      intro width precision s hwidth
      have hstep : ∀ k : Nat, wrapInt (wrapInt (width - 1) - k)
          = wrapInt (width - ((k + 1 : Nat) : Int)) := fun k => by
        rw [wrapInt_sub]
        congr 1
        omega
      rw [putChars]
      by_cases hneg : precision < 0
      · have hk : printed precision (p.length + 1) = printed precision p.length + 1 := by
          simp [printed, hneg]
        rw [if_pos hneg, ih _ _ _ (wrapInt_wrapInt _), hstep, List.length_cons, hk]
        simp [record]
      · by_cases hpos : 0 ≤ precision - 1
        · have hk : printed precision (p.length + 1)
              = printed (precision - 1) p.length + 1 := by
            simp only [printed, if_neg hneg, if_neg (Int.not_lt.mpr hpos)]
            omega
          rw [if_neg hneg, if_pos hpos, ih _ _ _ (wrapInt_wrapInt _), hstep, List.length_cons, hk]
          simp [record]
        · have hk : printed precision (p.length + 1) = 0 := by
            simp only [printed, if_neg hneg]
            omega
          rw [if_neg hneg, if_neg hpos, List.length_cons, hk]
          simp [hwidth]

/-- The padding on the left, the characters, and the padding on the right. -/
theorem stringOut_eq {padc width precision : Int} {altflag : Bool} {p : List Byte}
    (hp : p.length < 2 ^ 30) (hwidth : wrapInt width = width)
    (hprec : wrapInt precision = precision) :
    stringOut ⟨padc, width, precision, 0, altflag⟩ p
      = if 0 < width ∧ padc ≠ 45 then
          List.replicate (width - printed precision p.length).toNat padc
            ++ (p.take (printed precision p.length)).map (shown altflag)
        else (p.take (printed precision p.length)).map (shown altflag)
          ++ List.replicate (wrapInt (width - printed precision p.length)).toNat 32 := by
  have hw := wrapInt_range width
  have hn := wrapInt_range precision
  rw [hwidth] at hw
  rw [hprec] at hn
  have hk := printed_le precision p.length
  unfold stringOut putString
  simp only [strnlen_precision hp hn.1 hn.2]
  by_cases hpad : 0 < width ∧ padc ≠ 45
  · have hsub : wrapInt (width - printed precision p.length)
        = width - printed precision p.length :=
      wrapInt_of_range (by omega) (by omega)
    have hleft : wrapInt (min (width - printed precision p.length) 0)
        = min (width - printed precision p.length) 0 :=
      wrapInt_of_range (by omega) (by omega)
    -- nothing is left of the width for the spaces at the end
    have hend : (wrapInt (min (width - printed precision p.length) 0
        - printed precision p.length)).toNat = 0 := by
      rw [wrapInt_of_range (by omega) (by omega)]
      omega
    simp only [if_pos hpad, hsub, putChars_eq _ _ _ _ _ hleft, hend, putTimes_eq,
      putAll_record]
    simp
  · simp only [if_neg hpad, putChars_eq _ _ _ _ _ hwidth, putTimes_eq, putAll_record]
    simp

/-! ## Formats -/

/-- What `padc` is behind the flag `-`, or behind none. -/
def padcOf (left : Bool) : Int := if left then 45 else 32

/-- The precision, where there is one. -/
def precisionChars : Option Nat → List Byte
  | none => []
  | some n => chr '.' :: decimal n

/-- `%`, the flag, the width, the precision and `s`. -/
def stringFormat (left : Bool) (w : Nat) (n : Option Nat) : List Byte :=
  chr '%' :: ((if left then [chr '-'] else []) ++ (decimal w ++ precisionChars n)
    ++ [chr 's'])

/-- The variables behind the precision: `.0` sets a flag. -/
def precisionSpec (padc width : Int) : Option Nat → Spec
  | none => ⟨padc, width, -1, 0, false⟩
  | some 0 => ⟨48, max width 0, -1, 0, false⟩
  | some (n + 1) => ⟨padc, max width 0, wrapInt (n + 1 : Nat), 0, false⟩

theorem reads_precision (padc width : Int) (n : Option Nat) (ap : List Arg) :
    Reads (precisionChars n) ⟨padc, width, -1, 0, false⟩ ap
      (precisionSpec padc width n) ap := by
  have hdot : (if width < 0 then (⟨padc, 0, -1, 0, false⟩ : Spec)
      else ⟨padc, width, -1, 0, false⟩) = ⟨padc, max width 0, -1, 0, false⟩ := by
    split
    · rw [max_eq_right (by omega)]
    · rw [max_eq_left (by omega)]
  match n with
  | none => exact .nil _ ap
  | some 0 =>
      refine .dot (by decide) ?_
      rw [hdot]
      exact .zero (by decide) (.nil _ ap)
  | some (n + 1) =>
      refine .dot (by decide) ?_
      rw [hdot, ← List.append_nil (decimal (n + 1))]
      refine .number (Nat.succ_pos n) (by simp) ?_
      rw [Spec.process_precision (le_max_right ..)]
      exact .nil _ ap

theorem reads_string (left : Bool) {w : Nat} (hw : 1 ≤ w) (n : Option Nat)
    (ap : List Arg) :
    Reads ((if left then [chr '-'] else []) ++ (decimal w ++ precisionChars n)) Spec.init
      ap (precisionSpec (padcOf left) (wrapInt w) n) ap := by
  have hhead : ∀ y, (precisionChars n).head? = some y → ¬ IsDigit y := by
    have hdot : ¬ IsDigit (chr '.') := by decide
    cases n with
    | none => exact fun y hy => absurd hy (by simp [precisionChars])
    | some n => exact fun y hy => Option.some.inj hy ▸ hdot
  have hrest : ∀ padc, Reads (decimal w ++ precisionChars n) ⟨padc, -1, -1, 0, false⟩ ap
      (precisionSpec padc (wrapInt w) n) ap := fun padc =>
    .width hw hhead (reads_precision padc (wrapInt w) n ap)
  cases left with
  | false => exact hrest 32
  | true => exact .minus (by decide) (hrest 45)

/-! ## What is printed -/

/-- The characters of a string, as `char`s. -/
def charsOf (p : List Byte) : List Int := p.map BitVec.toInt

/-- The first `k` characters in a field of the width `w`. -/
def field (left : Bool) (w k : Nat) (t : List Int) : List Int :=
  if left then t.take k ++ List.replicate (w - k) 32
  else List.replicate (w - k) 32 ++ t.take k

theorem field_length (left : Bool) {w k : Nat} {t : List Int} (hk : k ≤ t.length) :
    (field left w k t).length = max w k := by
  unfold field
  split <;> simp only [List.length_append, List.length_take, List.length_replicate] <;>
    omega

theorem take_shown (p : List Byte) (k : Nat) :
    (p.take k).map (shown false) = (charsOf p).take k := by
  have hshown : shown false = BitVec.toInt := by
    funext c
    simp [shown]
  rw [hshown, charsOf, List.map_take]

theorem take_charsOf (p : List Byte) : (charsOf p).take p.length = charsOf p :=
  List.take_of_length_le (by simp [charsOf])

theorem printed_none (len : Nat) : printed (-1) len = len := if_pos (by decide)

theorem wrapInt_none : wrapInt (-1) = -1 := by decide

/-- The precision that is read, against the one that is written. -/
theorem printed_wrapInt {len : Nat} (hlen : len < 2 ^ 30) (n : Nat) :
    printed (wrapInt n) len = min (n % 2 ^ 32) len := by
  have hmod : wrapInt n = (n : Int) % 2 ^ 32 ∨ wrapInt n = (n : Int) % 2 ^ 32 - 2 ^ 32 := by
    unfold wrapInt
    rw [Int.bmod_def]
    split
    · exact .inl rfl
    · exact .inr rfl
  have hrange := wrapInt_range n
  unfold printed
  split <;> omega

section Output

variable (left : Bool) {w : Nat} {p : List Byte} (hp : p.length < 2 ^ 30)
include hp

/-- With a precision, and a width that is not negative. -/
theorem stringOut_field {width precision : Int} (h1 : 0 ≤ width) (h2 : width < 2 ^ 31)
    (hprec : wrapInt precision = precision) :
    stringOut ⟨padcOf left, width, precision, 0, false⟩ p
      = field left width.toNat (printed precision p.length) (charsOf p) := by
  have hk := printed_le precision p.length
  have hwidth : wrapInt width = width := wrapInt_of_range (by omega) (by omega)
  have hsub : wrapInt (width - printed precision p.length)
      = width - printed precision p.length := wrapInt_of_range (by omega) (by omega)
  have hpad : (width - printed precision p.length).toNat
      = width.toNat - printed precision p.length := by omega
  rw [stringOut_eq hp hwidth hprec]
  simp only [take_shown, hsub, hpad, field]
  cases left with
  | true => exact if_neg fun h => h.2 rfl
  | false =>
      by_cases hpos : 0 < width
      · rw [if_pos ⟨hpos, by decide⟩]
        rfl
      · have hzero : width.toNat - printed precision p.length = 0 := by omega
        simp [hpos, hzero]

/-- With `.0` the padding is made of zeros, and the string is not cut. -/
theorem stringOut_zero {width : Int} (h1 : 0 ≤ width) (h2 : width < 2 ^ 31) :
    stringOut ⟨48, width, -1, 0, false⟩ p
      = List.replicate (width.toNat - p.length) 48 ++ charsOf p := by
  have hwidth : wrapInt width = width := wrapInt_of_range (by omega) (by omega)
  have hsub : wrapInt (width - p.length) = width - p.length :=
    wrapInt_of_range (by omega) (by omega)
  have hpad : (width - p.length).toNat = width.toNat - p.length := by omega
  rw [stringOut_eq hp hwidth wrapInt_none]
  simp only [take_shown, printed_none, take_charsOf, hsub, hpad]
  by_cases hpos : 0 < width
  · rw [if_pos ⟨hpos, by decide⟩]
  · have hzero : width.toNat - p.length = 0 := by omega
    simp [hpos, hzero]

/-- A negative width is used up before the characters are; where the count wraps,
    the rest is padding. -/
theorem stringOut_negative {padc width : Int} (h1 : width < 0)
    (hwidth : wrapInt width = width) :
    stringOut ⟨padc, width, -1, 0, false⟩ p
      = charsOf p ++ List.replicate (wrapInt (width - p.length)).toNat 32 := by
  rw [stringOut_eq hp hwidth wrapInt_none]
  simp only [take_shown, printed_none, take_charsOf]
  rw [if_neg fun h => Int.lt_asymm h.1 h1]

end Output

/-! ## When the field is right -/

/-- A list that begins with spaces and goes on like itself is all spaces. -/
theorem spaces_of_prefix {d : Nat} (hd : 0 < d) {l : List Int}
    (h : l <+: List.replicate d 32 ++ l) : ∀ x ∈ l, x = 32 := by
  have hget : ∀ i, ∀ hi : i < l.length, l[i] = 32 := by
    intro i
    induction i using Nat.strong_induction_on with
    | _ i ih =>
        intro hi
        rw [h.getElem hi]
        by_cases hid : i < d
        · rw [List.getElem_append_left (by simpa using hid), List.getElem_replicate]
        · rw [List.getElem_append_right (by simpa using hid)]
          exact ih _ (by simp; omega) _
  intro x hx
  obtain ⟨i, hi, rfl⟩ := List.getElem_of_mem hx
  exact hget i hi

theorem eq_spaces {l : List Int} (h : ∀ x ∈ l, x = 32) :
    l = List.replicate l.length 32 :=
  List.eq_replicate_iff.mpr ⟨rfl, h⟩

/-- A field with fewer characters is the same where the others are spaces. -/
theorem field_eq_iff (left : Bool) {w j : Nat} {t : List Int} (hj : j < t.length) :
    field left w j t = field left w t.length t ↔
      t.length ≤ w ∧ ∀ x ∈ (if left then t.drop j else t), x = 32 := by
  have hsplit : t.take j ++ t.drop j = t := List.take_append_drop j t
  constructor
  · intro h
    have hle : t.length ≤ w := by
      have hlength := congrArg List.length h
      rw [field_length left hj.le, field_length left le_rfl] at hlength
      omega
    have hpad : w - j = (w - t.length) + (t.length - j) := by omega
    refine ⟨hle, ?_⟩
    unfold field at h
    rw [List.take_length, hpad] at h
    cases left with
    | true =>
        have hdrop : List.replicate (w - t.length + (t.length - j)) 32
            = t.drop j ++ List.replicate (w - t.length) 32 := by
          have hcut : t.take j ++ List.replicate (w - t.length + (t.length - j)) 32
              = t.take j ++ (t.drop j ++ List.replicate (w - t.length) 32) := by
            rw [← List.append_assoc, hsplit]
            exact h
          exact List.append_cancel_left hcut
        intro x hx
        refine List.eq_of_mem_replicate (n := w - t.length + (t.length - j)) ?_
        rw [hdrop]
        exact List.mem_append_left _ hx
    | false =>
        have hcut : List.replicate (t.length - j) 32 ++ t.take j = t := by
          rw [← List.replicate_append_replicate] at h
          exact List.append_cancel_left ((List.append_assoc ..).symm.trans h)
        refine spaces_of_prefix (d := t.length - j) (by omega) ?_
        calc t = List.replicate (t.length - j) 32 ++ t.take j := hcut.symm
          _ <+: List.replicate (t.length - j) 32 ++ t :=
            (List.prefix_append_right_inj _).mpr (List.take_prefix j t)
  · rintro ⟨hle, hall⟩
    unfold field
    rw [List.take_length]
    cases left with
    | true =>
        have hdrop : t.drop j = List.replicate (t.length - j) 32 := by
          rw [← List.length_drop]
          exact eq_spaces hall
        calc t.take j ++ List.replicate (w - j) 32
            = t.take j ++ (t.drop j ++ List.replicate (w - t.length) 32) := by
              rw [hdrop, List.replicate_append_replicate]
              congr 2
              omega
          _ = t ++ List.replicate (w - t.length) 32 := by
              rw [← List.append_assoc, hsplit]
    | false =>
        obtain ⟨len, rfl⟩ : ∃ len, t = List.replicate len 32 := ⟨_, eq_spaces hall⟩
        rw [List.length_replicate] at hj hle
        have hcount : w - j + min j len = w - len + len := by omega
        simp [List.take_replicate, List.replicate_append_replicate, hcount]

/-- When the field of a string with the characters `t` is right.  The condition is
    on the literals and the string alone. -/
def StringFits (left : Bool) (w : Nat) (n : Option Nat) (t : List Int) : Prop :=
  match n with
  | none => w < 2 ^ 31 ∨ (w < 2 ^ 31 + t.length ∧ (left ∨ ∀ x ∈ t, x = 32))
  | some 0 => t = List.replicate w 32
  | some n =>
      w < 2 ^ 31 ∧ (min n t.length ≤ n % 2 ^ 32 ∨
        (t.length ≤ w ∧ ∀ x ∈ (if left then t.drop (n % 2 ^ 32) else t), x = 32))

/-- The number of characters that the precision asks for. -/
def asked (n : Option Nat) (len : Nat) : Nat :=
  match n with
  | none => len
  | some n => min n len

theorem charsOf_length (p : List Byte) : (charsOf p).length = p.length := List.length_map ..

section Fits

variable (left : Bool) {w : Nat} {p : List Byte} (hp : p.length < 2 ^ 30)
include hp

/-- Just above `int` the width is negative, and all padding is on the right. -/
theorem string_wrapped_iff (h1 : 2 ^ 31 ≤ w) (h2 : w < 2 ^ 31 + p.length) :
    stringOut (precisionSpec (padcOf left) (wrapInt w) none) p
      = field left w p.length (charsOf p) ↔ left ∨ ∀ x ∈ charsOf p, x = 32 := by
  have hneg : wrapInt w < 0 := by
    have := wrapInt_range w
    have hmod : (w : Int) % 2 ^ 32 = w := by omega
    unfold wrapInt at *
    rw [Int.bmod_def, if_neg (by omega)]
    omega
  have hout : stringOut (precisionSpec (padcOf left) (wrapInt w) none) p
      = charsOf p ++ List.replicate (w - p.length) 32 := by
    refine (stringOut_negative hp hneg (wrapInt_wrapInt _)).trans ?_
    rw [wrapInt_sub, wrapInt_of_range (by omega) (by omega)]
    congr 2
    omega
  rw [hout, field, take_charsOf]
  cases left with
  | true => simp
  | false =>
      simp only [Bool.false_eq_true, if_false, false_or]
      constructor
      · intro h
        refine spaces_of_prefix (d := w - p.length) (by omega) ?_
        rw [← h]
        exact List.prefix_append ..
      · intro hall
        rw [eq_spaces hall, List.replicate_append_replicate, List.replicate_append_replicate,
          Nat.add_comm]

theorem string_none_iff (hw : 1 ≤ w) :
    stringOut (precisionSpec (padcOf left) (wrapInt w) none) p
      = field left w p.length (charsOf p) ↔ StringFits left w none (charsOf p) := by
  unfold StringFits
  rw [charsOf_length]
  have hrange := wrapInt_range w
  by_cases h1 : w < 2 ^ 31
  · have hwidth : wrapInt w = w := wrapInt_of_range (by omega) (by omega)
    refine iff_of_true ?_ (.inl h1)
    rw [hwidth]
    refine (stringOut_field left hp (by omega) (by omega) wrapInt_none).trans ?_
    rw [printed_none, Int.toNat_natCast]
  · by_cases h2 : w < 2 ^ 31 + p.length
    · rw [string_wrapped_iff left hp (Nat.not_lt.mp h1) h2, or_iff_right h1,
        and_iff_right h2]
    · -- the field has at least 2^31 characters more than the string
      refine iff_of_false (fun h => ?_) fun h => h.elim h1 fun h => h2 h.1
      have hlength := congrArg List.length h
      rw [field_length left (charsOf_length p).ge] at hlength
      by_cases hneg : wrapInt w < 0
      · have hpad := wrapInt_range (wrapInt w - p.length)
        have hout : stringOut (precisionSpec (padcOf left) (wrapInt w) none) p
            = charsOf p ++ List.replicate (wrapInt (wrapInt w - p.length)).toNat 32 :=
          stringOut_negative hp hneg (wrapInt_wrapInt _)
        rw [hout, List.length_append, List.length_replicate, charsOf_length] at hlength
        omega
      · have hout : stringOut (precisionSpec (padcOf left) (wrapInt w) none) p
            = field left (wrapInt w).toNat (printed (-1) p.length) (charsOf p) :=
          stringOut_field left hp (Int.not_lt.mp hneg) hrange.2 wrapInt_none
        rw [hout, printed_none, field_length left (charsOf_length p).ge] at hlength
        omega

theorem string_zero_iff (hw : 1 ≤ w) :
    stringOut (precisionSpec (padcOf left) (wrapInt w) (some 0)) p
      = field left w 0 (charsOf p) ↔ StringFits left w (some 0) (charsOf p) := by
  have hrange := wrapInt_range w
  have hout := stringOut_zero hp (le_max_right (wrapInt w) 0) (by omega)
  have hfield : field left w 0 (charsOf p) = List.replicate w 32 := by
    cases left <;> simp [field]
  rw [show stringOut (precisionSpec (padcOf left) (wrapInt w) (some 0)) p = _ from hout,
    hfield]
  constructor
  · intro h
    have hpad : (max (wrapInt w) 0).toNat - p.length = 0 := by
      by_contra hpos
      have hmem : (48 : Int) ∈ List.replicate w 32 := by
        rw [← h]
        exact List.mem_append_left _ (List.mem_replicate.mpr ⟨hpos, rfl⟩)
      exact absurd (List.eq_of_mem_replicate hmem) (by decide)
    rw [hpad] at h
    exact h
  · intro h
    have hlen : p.length = w := by
      rw [← charsOf_length, show charsOf p = _ from h, List.length_replicate]
    have hwidth : wrapInt w = w := wrapInt_of_range (by omega) (by omega)
    have hpad : (max (wrapInt w) 0).toNat - p.length = 0 := by omega
    rw [hpad]
    exact h

theorem string_succ_iff (n : Nat) :
    stringOut (precisionSpec (padcOf left) (wrapInt w) (some (n + 1))) p
      = field left w (min (n + 1) p.length) (charsOf p) ↔
        StringFits left w (some (n + 1)) (charsOf p) := by
  have hrange := wrapInt_range w
  have hout := stringOut_field left hp (le_max_right (wrapInt w) 0) (by omega)
    (wrapInt_wrapInt ((n + 1 : Nat) : Int))
  have hlen := charsOf_length p
  rw [printed_wrapInt hp] at hout
  rw [show stringOut (precisionSpec (padcOf left) (wrapInt w) (some (n + 1))) p = _ from hout]
  simp only [StringFits, hlen]
  by_cases h1 : w < 2 ^ 31
  · have hwidth : wrapInt w = w := wrapInt_of_range (by omega) (by omega)
    have hmax : (max (wrapInt w) 0).toNat = w := by omega
    rw [hmax, and_iff_right h1]
    by_cases hk : min (n + 1) p.length ≤ (n + 1) % 2 ^ 32
    · have hsame : min ((n + 1) % 2 ^ 32) p.length = min (n + 1) p.length := by omega
      rw [hsame]
      exact iff_of_true rfl (.inl hk)
    · -- a precision that has wrapped cuts the string
      have hcut : min ((n + 1) % 2 ^ 32) p.length = (n + 1) % 2 ^ 32 := by omega
      have hall : min (n + 1) p.length = (charsOf p).length := by omega
      rw [hcut, hall, field_eq_iff left (by omega), or_iff_right (by omega), hlen]
  · refine iff_of_false (fun h => ?_) fun h => h1 h.1
    have hlength := congrArg List.length h
    have hwidth : (max (wrapInt w) 0).toNat < 2 ^ 31 := by omega
    have hcut := Nat.min_le_right ((n + 1) % 2 ^ 32) p.length
    generalize min ((n + 1) % 2 ^ 32) p.length = j at hlength hcut
    rw [field_length left (by omega), field_length left (by omega)] at hlength
    omega

end Fits

theorem prints_string (left : Bool) {w : Nat} (hw : 1 ≤ w) (n : Option Nat) (s : CString)
    (ap : List Arg) :
    Prints (stringFormat left w n) (.str (some s) :: ap)
      (stringOut (precisionSpec (padcOf left) (wrapInt w) n) s.chars) :=
  prints_conv (l := []) (by simp) (reads_string left hw n _) (by decide)
    (converts_string (by decide) _ _ ap)

/-- **STRINGS IN A FIELD**: the field is right for every width and precision that
    is an `int`, except for the precision 0. -/
theorem vprintfmt_string_iff (left : Bool) {w : Nat} (hw : 1 ≤ w) (n : Option Nat)
    (s : CString) (ap : List Arg) :
    (∃ out, Prints (stringFormat left w n) (.str (some s) :: ap) out ∧
      out.length = max w (asked n s.chars.length) ∧
      out = field left w (asked n s.chars.length) (charsOf s.chars)) ↔
      StringFits left w n (charsOf s.chars) := by
  have hprints := prints_string left hw n s ap
  have hasked : asked n s.chars.length ≤ (charsOf s.chars).length := by
    rw [charsOf_length]
    cases n with
    | none => exact le_rfl
    | some n => exact Nat.min_le_right ..
  have hiff : stringOut (precisionSpec (padcOf left) (wrapInt w) n) s.chars
      = field left w (asked n s.chars.length) (charsOf s.chars) ↔
        StringFits left w n (charsOf s.chars) := by
    match n with
    | none => exact string_none_iff left s.short hw
    | some 0 =>
        rw [asked, Nat.zero_min]
        exact string_zero_iff left s.short hw
    | some (n + 1) => exact string_succ_iff left s.short n
  rw [← hiff]
  constructor
  · rintro ⟨out, hout, -, rfl⟩
    exact hprints.unique hout
  · intro heq
    rw [heq] at hprints
    exact ⟨_, hprints, field_length left hasked, rfl⟩

def abc : CString := ⟨bytes "abc", by decide, by decide⟩

/-- `"%-5.2s"` with `"abc"`. -/
theorem vprintfmt_string_iff_abc :
    (∃ out, Prints (stringFormat true 5 (some 2)) [.str (some abc)] out ∧
      out.length = max 5 (asked (some 2) abc.chars.length) ∧
      out = field true 5 (asked (some 2) abc.chars.length) (charsOf abc.chars)) ↔
      StringFits true 5 (some 2) (charsOf abc.chars) :=
  vprintfmt_string_iff true (by decide) (some 2) abc []

/-- `"%5.0s"` with `"abc"`: `00abc`. -/
theorem not_vprintfmt_string :
    ¬ ∀ (left : Bool) (w : Nat) (n : Option Nat) (s : CString) (ap : List Arg), 1 ≤ w →
      ∃ out, Prints (stringFormat left w n) (.str (some s) :: ap) out ∧
        out.length = max w (asked n s.chars.length) ∧
        out = field left w (asked n s.chars.length) (charsOf s.chars) := by
  intro h
  obtain ⟨out, hout, -, hfield⟩ := h false 5 (some 0) abc [] (by decide)
  have hw : 1 ≤ 5 := by decide
  have hprints := prints_string false hw (some 0) abc []
  have heq := (hprints.unique hout).trans hfield
  have hspaces : charsOf abc.chars = List.replicate 5 32 :=
    (string_zero_iff false abc.short hw).mp heq
  exact absurd hspaces (by decide)

end SharixPrintfmt
