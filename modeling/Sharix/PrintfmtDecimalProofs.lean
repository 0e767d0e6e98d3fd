import Sharix.PrintfmtReadProofs

/-! # Decimal literals in a format

    A width is written without leading zeros, and its first digit sends
    `reswitch` into the loop that reads the others.  The loop accumulates in an
    `int`, so what it leaves is the number modulo 2^32. -/

namespace SharixPrintfmt

/-- The decimal literal of `w`. -/
def decimal (w : Nat) : List Byte := (Nat.toDigits 10 w).map chr

theorem decimal_of_lt {w : Nat} (h : w < 10) : decimal w = [chr w.digitChar] := by
  rw [decimal, Nat.toDigits_of_lt_base h]
  rfl

theorem decimal_of_le {w : Nat} (h : 10 ≤ w) :
    decimal w = decimal (w / 10) ++ [chr (w % 10).digitChar] := by
  rw [decimal, Nat.toDigits_of_base_le (by decide) h, List.map_append]
  rfl

/-- The character of a digit. -/
theorem digitChar_toInt {d : Nat} (h : d < 10) :
    (chr d.digitChar).toInt = 48 + d ∧ (chr d.digitChar).toNat = 48 + d := by
  have hall : ∀ d : Fin 10, (chr d.val.digitChar).toInt = 48 + d.val ∧
      (chr d.val.digitChar).toNat = 48 + d.val := by
    decide
  exact hall ⟨d, h⟩

theorem digitChar_isDigit {d : Nat} (h : d < 10) : IsDigit (chr d.digitChar) := by
  unfold IsDigit
  rw [(digitChar_toInt h).1]
  omega

/-- A digit that is not 0 starts a literal. -/
theorem digitChar_label {d : Nat} (h : d < 10) (hpos : 0 < d) :
    label (chr d.digitChar) = .digit := by
  refine ((isDigit_iff _).mp (digitChar_isDigit h)).resolve_left fun hzero => ?_
  have hall : ∀ d : Fin 10, label (chr d.val.digitChar) = .zero → d.val = 0 := by
    decide
  exact absurd (hall ⟨d, h⟩ hzero) (Nat.ne_of_gt hpos)

/-- A literal begins with a digit that is not 0. -/
theorem decimal_cons {w : Nat} (hw : 1 ≤ w) :
    ∃ x ds, decimal w = x :: ds ∧ label x = .digit ∧ ∀ d ∈ ds, IsDigit d := by
  induction w using Nat.strong_induction_on with
  | _ w ih =>
      by_cases hlt : w < 10
      · exact ⟨_, [], decimal_of_lt hlt, digitChar_label hlt hw, by simp⟩
      · obtain ⟨x, ds, hx, hlab, hds⟩ := ih (w / 10) (by omega) (by omega)
        refine ⟨x, ds ++ [chr (w % 10).digitChar], ?_, hlab, fun d hd => ?_⟩
        · rw [decimal_of_le (Nat.not_lt.mp hlt), hx, List.cons_append]
        · rcases List.mem_append.mp hd with hd | hd
          · exact hds d hd
          · rw [List.mem_singleton.mp hd]
            exact digitChar_isDigit (Nat.mod_lt _ (by decide))

/-- One more digit, where the digits before it have wrapped. -/
theorem wrapInt_digit (v d : Int) : wrapInt (wrapInt v * 10 + d) = wrapInt (v * 10 + d) := by
  unfold wrapInt
  rw [← Int.bmod_add_bmod, Int.bmod_mul_bmod, Int.bmod_add_bmod]

theorem literal_concat (v : Int) (ds : List Byte) (d : Byte) :
    literal v (ds ++ [d]) = wrapInt (literal v ds * 10 + d.toInt - 48) := by
  simp [literal]

/-- The digits of a number have its value, as an `int`. -/
theorem literal_decimal (w : Nat) : literal 0 (decimal w) = wrapInt w := by
  induction w using Nat.strong_induction_on with
  | _ w ih =>
      by_cases hlt : w < 10
      · rw [decimal_of_lt hlt]
        have hstep : (0 : Int) * 10 + (chr w.digitChar).toInt - 48 = w := by
          rw [(digitChar_toInt hlt).1]
          omega
        exact congrArg wrapInt hstep
      · have hmod : w % 10 < 10 := Nat.mod_lt _ (by decide)
        have hsplit : ((w / 10 : Nat) : Int) * 10 + ((w % 10 : Nat) : Int) = w := by
          omega
        have hih : literal 0 (decimal (w / 10)) = wrapInt ((w / 10 : Nat) : Int) :=
          ih (w / 10) (by omega)
        calc literal 0 (decimal w)
            = wrapInt (literal 0 (decimal (w / 10)) * 10
                + (chr (w % 10).digitChar).toInt - 48) := by
              rw [decimal_of_le (Nat.not_lt.mp hlt), literal_concat]
          _ = wrapInt (wrapInt ((w / 10 : Nat) : Int) * 10 + ((w % 10 : Nat) : Int)) := by
              rw [hih, (digitChar_toInt hmod).1, add_sub_assoc, add_sub_cancel_left]
          _ = wrapInt w := by rw [wrapInt_digit, hsplit]

/-- A literal is read as the number it stands for. -/
theorem Reads.number {w : Nat} {flags : List Byte} {spec spec' : Spec}
    {ap ap' : List Arg} (hw : 1 ≤ w) (hflags : ∀ y, flags.head? = some y → ¬ IsDigit y)
    (h : Reads flags (Spec.process { spec with precision := wrapInt w }) ap spec' ap') :
    Reads (decimal w ++ flags) spec ap spec' ap' := by
  obtain ⟨x, ds, hdec, hx, hds⟩ := decimal_cons hw
  have hfirst : (x.toNat : Int) = x.toInt := by
    have hdigit := (isDigit_iff x).mpr (.inr hx)
    unfold IsDigit at hdigit
    rw [BitVec.toInt_eq_toNat_cond] at hdigit ⊢
    have := x.isLt
    split at hdigit <;> split <;> omega
  have hvalue : literal (wrapInt (x.toNat - 48)) ds = wrapInt w := by
    rw [← literal_decimal w, hdec, hfirst]
    simp [literal]
  rw [hdec, List.cons_append]
  exact .digit hx hds hflags (by rw [hvalue]; exact h)

/-- The first literal of a sequence is the width. -/
theorem Reads.width {w : Nat} {flags : List Byte} {padc : Int} {spec' : Spec}
    {ap ap' : List Arg} (hw : 1 ≤ w) (hflags : ∀ y, flags.head? = some y → ¬ IsDigit y)
    (h : Reads flags ⟨padc, wrapInt w, -1, 0, false⟩ ap spec' ap') :
    Reads (decimal w ++ flags) ⟨padc, -1, -1, 0, false⟩ ap spec' ap' := by
  refine .number hw hflags ?_
  rw [Spec.process_width]
  exact h

end SharixPrintfmt
