import Sharix.PrintfmtRunProofs
import Sharix.PrintfmtDecimalProofs

/-! # Numbers in a field — `printfmt.c`

    `vprintfmt` prints the sign and leaves the width to `printnum`, which counts
    the digits alone and pads with whatever `padc` is.  So a sign makes the field
    one too wide where there is padding at all, spaces go between the sign and
    the digits, and the flag `-` pads on the left, with `-`. -/

namespace SharixPrintfmt

/-! ## Formats -/

/-- The flag of a conversion. -/
inductive Flag where
  | none
  | zero
  | minus
deriving DecidableEq

def Flag.chars : Flag → List Byte
  | .none => []
  | .zero => [chr '0']
  | .minus => [chr '-']

/-- What `padc` is behind the flag. -/
def Flag.padc : Flag → Int
  | .none => 32
  | .zero => 48
  | .minus => 45

/-- A flag is read into the padding character. -/
theorem Flag.reads (flag : Flag) {flags : List Byte} {ap ap' : List Arg} {spec : Spec}
    (h : Reads flags { Spec.init with padc := flag.padc } ap spec ap') :
    Reads (flag.chars ++ flags) Spec.init ap spec ap' := by
  cases flag with
  | none => exact h
  | zero => exact .zero (by decide) h
  | minus => exact .minus (by decide) h

/-- The width: a literal, or an argument for the star. -/
inductive Width where
  | literal (w : Nat)
  | star (v : BitVec 32)

namespace Width

def chars : Width → List Byte
  | .literal w => decimal w
  | .star _ => [chr '*']

def args : Width → List Arg
  | .literal _ => []
  | .star v => [.word v]

def value : Width → Nat
  | .literal w => w
  | .star v => v.toInt.toNat

/-- A width is read, in digits or from an argument. -/
theorem reads (width : Width) (hw : 1 ≤ width.value) {flags : List Byte} {padc : Int}
    {spec' : Spec} {ap ap' : List Arg}
    (hflags : ∀ y, flags.head? = some y → ¬ IsDigit y)
    (h : Reads flags ⟨padc, wrapInt width.value, -1, 0, false⟩ ap spec' ap') :
    Reads (width.chars ++ flags) ⟨padc, -1, -1, 0, false⟩ (width.args ++ ap) spec' ap' := by
  cases width with
  | literal w => exact .width hw hflags h
  | star v =>
      have hv : wrapInt (v.toInt.toNat : Int) = v.toInt := by
        have hpos : 1 ≤ v.toInt.toNat := hw
        have := BitVec.toInt_lt (x := v)
        rw [Int.toNat_of_nonneg (by omega)]
        exact wrapInt_of_range (by omega) (by omega)
      refine .star (by decide) ?_
      rw [Spec.process_width, ← hv]
      exact h

end Width

/-- An integer argument, signed or not. -/
inductive IntArg where
  | int (v : BitVec 32)
  | long (v : BitVec 32)
  | longLong (v : BitVec 64)

namespace IntArg

/-- The length modifier that fetches it. -/
def mods : IntArg → List Byte
  | .int _ => []
  | .long _ => bytes "l"
  | .longLong _ => bytes "ll"

def arg : IntArg → Arg
  | .int v | .long v => .word v
  | .longLong v => .dword v

/-- Its value, where it is signed. -/
def toInt : IntArg → Int
  | .int v | .long v => v.toInt
  | .longLong v => v.toInt

/-- Its value, where it is unsigned. -/
def toNat : IntArg → Nat
  | .int v | .long v => v.toNat
  | .longLong v => v.toNat

/-- The modifier makes `getint` and `getuint` fetch the argument. -/
theorem reads (a : IntArg) (padc width : Int) (ap : List Arg) :
    ∃ lflag, Reads a.mods ⟨padc, width, -1, 0, false⟩ ap ⟨padc, width, -1, lflag, false⟩ ap ∧
      (∃ num : BitVec 64, num.toInt = a.toInt ∧
        ∀ ap, getint (a.arg :: ap) lflag = some (num, ap)) ∧
      ∃ num : BitVec 64, num.toNat = a.toNat ∧
        ∀ ap, getuint (a.arg :: ap) lflag = some (num, ap) := by
  have hsigned : ∀ v : BitVec 32, (v.signExtend 64).toInt = v.toInt := fun v =>
    BitVec.toInt_signExtend_of_le (by decide)
  have hunsigned : ∀ v : BitVec 32, (v.setWidth 64).toNat = v.toNat := fun v => by
    rw [BitVec.toNat_setWidth]
    exact Nat.mod_eq_of_lt (Nat.lt_trans v.isLt (by decide))
  cases a with
  | int v =>
      exact ⟨0, .nil _ ap, ⟨_, hsigned v, fun ap => rfl⟩, _, hunsigned v, fun ap => rfl⟩
  | long v =>
      exact ⟨1, .long (by decide) (.nil _ ap), ⟨_, hsigned v, fun ap => rfl⟩, _,
        hunsigned v, fun ap => rfl⟩
  | longLong v =>
      exact ⟨2, .long (by decide) (.long (by decide) (.nil _ ap)),
        ⟨v, rfl, fun ap => rfl⟩, v, rfl, fun ap => rfl⟩

/-- No modifier begins with a digit. -/
theorem mods_head (a : IntArg) : ∀ y, a.mods.head? = some y → ¬ IsDigit y := by
  have hl : ¬ IsDigit (chr 'l') := by decide
  cases a with
  | int v => exact fun y hy => absurd hy (by simp [mods])
  | long v => exact fun y hy => Option.some.inj hy ▸ hl
  | longLong v => exact fun y hy => Option.some.inj hy ▸ hl

end IntArg

/-- The conversion of a number. -/
inductive IntConv where
  | d
  | u
  | o
  | x
deriving DecidableEq

namespace IntConv

def char : IntConv → Byte
  | .d => chr 'd'
  | .u => chr 'u'
  | .o => chr 'o'
  | .x => chr 'x'

def base : IntConv → Nat
  | .d | .u => 10
  | .o => 8
  | .x => 16

theorem label_base (conv : IntConv) (hd : conv ≠ .d) :
    (label conv.char).base = some (BitVec.ofNat 32 conv.base) := by
  revert hd
  cases conv <;> decide

theorem base_toNat (conv : IntConv) : (BitVec.ofNat 32 conv.base).toNat = conv.base := by
  cases conv <;> rfl

/-- A minus is printed. -/
def negative (conv : IntConv) (a : IntArg) : Prop := conv = .d ∧ a.toInt < 0

instance (conv : IntConv) (a : IntArg) : Decidable (conv.negative a) :=
  inferInstanceAs (Decidable (_ ∧ _))

def sign (conv : IntConv) (a : IntArg) : List Int := if conv.negative a then [45] else []

/-- The value, without the sign. -/
def magnitude (conv : IntConv) (a : IntArg) : Nat :=
  if conv = .d then a.toInt.natAbs else a.toNat

def digits (conv : IntConv) (a : IntArg) : List Int :=
  numeral conv.base (conv.magnitude a)

end IntConv

/-- `%`, the flag, the width, the modifier and the conversion. -/
def numberFormat (flag : Flag) (width : Width) (a : IntArg) (conv : IntConv) : List Byte :=
  chr '%' :: (flag.chars ++ (width.chars ++ a.mods) ++ [conv.char])

/-- A number brought to the width `w`: spaces on the left, zeros behind the
    sign, or spaces on the right. -/
def padded (flag : Flag) (w : Nat) (sign digits : List Int) : List Int :=
  let pad := w - (sign.length + digits.length)
  match flag with
  | .none => List.replicate pad 32 ++ (sign ++ digits)
  | .zero => sign ++ (List.replicate pad 48 ++ digits)
  | .minus => sign ++ (digits ++ List.replicate pad 32)

/-- Padding fills up to the width and cuts nothing off. -/
theorem padded_length (flag : Flag) (w : Nat) (sign digits : List Int) :
    (padded flag w sign digits).length = max w (sign.length + digits.length) := by
  cases flag <;> simp only [padded, List.length_append, List.length_replicate] <;> omega

/-! ## What is printed -/

/-- The sign, and the padding between it and the digits. -/
def numberShown (flag : Flag) (w : Nat) (sign digits : List Int) : List Int :=
  sign ++ (List.replicate (wrapInt (w - digits.length)).toNat flag.padc ++ digits)

/-- A conversion prints sign and digits of its argument. -/
theorem IntConv.converts (conv : IntConv) (a : IntArg) {spec : Spec} {ap : List Arg}
    (hsigned : ∃ num : BitVec 64, num.toInt = a.toInt ∧
      getint (a.arg :: ap) spec.lflag = some (num, ap))
    (hunsigned : ∃ num : BitVec 64, num.toNat = a.toNat ∧
      getuint (a.arg :: ap) spec.lflag = some (num, ap)) :
    Converts conv.char spec (a.arg :: ap)
      (conv.sign a ++ numberOut spec conv.base (conv.magnitude a)) ap := by
  obtain ⟨num, hnum, hint⟩ := hsigned
  obtain ⟨num', hnum', huint⟩ := hunsigned
  simp only [sign, negative, magnitude, ← hnum, ← hnum']
  by_cases hd : conv = .d
  · subst hd
    simpa [base, char] using converts_signed (c := chr 'd') (by decide) hint
  · have h := converts_unsigned (conv.label_base hd) huint
    rw [conv.base_toNat] at h
    simpa [hd] using h

/-- From the `%` to the end of the conversion. -/
theorem prints_number (flag : Flag) (width : Width) (hw : 1 ≤ width.value) (a : IntArg)
    (conv : IntConv) (ap : List Arg) :
    Prints (numberFormat flag width a conv) (width.args ++ a.arg :: ap)
      (numberShown flag width.value (conv.sign a) (conv.digits a)) := by
  have hflag : ¬ isFlag conv.char := by cases conv <;> decide
  have hspec : ∀ v, v = wrapInt width.value →
      ∃ spec, Reads (flag.chars ++ (width.chars ++ a.mods)) Spec.init
          (width.args ++ a.arg :: ap) spec (a.arg :: ap) ∧
        Converts conv.char spec (a.arg :: ap)
          (conv.sign a ++ (List.replicate (wrapInt (v - (conv.digits a).length)).toNat
            flag.padc ++ conv.digits a)) ap := by
    intro v hv
    obtain ⟨lflag, hmods, ⟨num, hnum, hint⟩, num', hnum', huint⟩ :=
      a.reads flag.padc v (a.arg :: ap)
    refine ⟨⟨flag.padc, v, -1, lflag, false⟩, ?_,
      conv.converts a ⟨num, hnum, hint ap⟩ ⟨num', hnum', huint ap⟩⟩
    rw [hv] at hmods ⊢
    exact flag.reads (width.reads hw a.mods_head hmods)
  obtain ⟨spec, hread, hconv⟩ := hspec _ rfl
  rw [wrapInt_sub] at hconv
  exact prints_conv (l := []) (by simp) hread hflag hconv

-- the flag `-` pads on the left
example : vprintfmt record 70 (Cursor.start (bytes "%-5d")) [.word 42] []
    = some (codes (bytes "---42")) := by decide +kernel

/-! ## When the field is right -/

/-- The padding, against the one that counts a sign of `s` characters. -/
theorem pad_eq_iff {w n s : Nat} (hn : n ≤ 2 ^ 31) (hs : s ≤ 1) :
    (wrapInt (w - n)).toNat = w - (s + n) ↔ w < 2 ^ 31 + n ∧ (w ≤ n ∨ s = 0) := by
  by_cases hlt : w < 2 ^ 31 + n
  · rw [wrapInt_of_range (by omega) (by omega)]
    omega
  · -- at 2^31 the number wraps to a negative one, and nothing is padded
    have hrange := wrapInt_range (w - n)
    refine iff_of_false (fun heq => ?_) fun h => hlt h.1
    have hedge : (w : Int) - n = 2 ^ 31 := by omega
    have hwrap : wrapInt (2 ^ 31) = -2 ^ 31 := by decide
    rw [hedge, hwrap] at heq
    omega

theorem digitChar_ne_minus {d : Nat} (h : d < 16) : (d.digitChar.toNat : Int) ≠ 45 := by
  have hall : ∀ d : Fin 16, (d.val.digitChar.toNat : Int) ≠ 45 := by decide
  exact hall ⟨d, h⟩

/-- No digit is a minus. -/
theorem minus_notMem_numeral {base : Nat} (hb : 1 < base) (hb' : base ≤ 16) (n : Nat) :
    45 ∉ numeral base n := by
  induction n using Nat.strong_induction_on with
  | _ n ih =>
      by_cases hlt : n < base
      · rw [numeral_of_lt hlt, List.mem_singleton]
        exact (digitChar_ne_minus (by omega)).symm
      · rw [numeral_of_le hb (Nat.not_lt.mp hlt), List.mem_append, List.mem_singleton,
          not_or]
        have hmod : n % base < base := Nat.mod_lt _ (by omega)
        exact ⟨ih _ (Nat.div_lt_self (by omega) hb),
          (digitChar_ne_minus (by omega)).symm⟩

/-- 64 bits have at most 64 digits. -/
theorem numeral_length_le {base n : Nat} (hb : 1 < base) (hn : n < 2 ^ 64) :
    (numeral base n).length ≤ 64 := by
  rw [numeral, List.length_map, Nat.length_toDigits_le_iff hb (by decide)]
  exact Nat.lt_of_lt_of_le hn (Nat.pow_le_pow_left hb 64)

/-- A magnitude fits in sixty-four bits. -/
theorem IntConv.magnitude_lt (conv : IntConv) (a : IntArg) :
    conv.magnitude a < 2 ^ 64 := by
  unfold magnitude
  cases a with
  | int v | long v =>
      simp only [IntArg.toInt, IntArg.toNat]
      have h1 := BitVec.toInt_lt (x := v)
      have h2 := BitVec.le_toInt v
      have h3 := v.isLt
      split <;> omega
  | longLong v =>
      simp only [IntArg.toInt, IntArg.toNat]
      have h1 := BitVec.toInt_lt (x := v)
      have h2 := BitVec.le_toInt v
      have h3 := v.isLt
      split <;> omega

theorem IntConv.base_range (conv : IntConv) : 1 < conv.base ∧ conv.base ≤ 16 := by
  cases conv <;> decide

theorem IntConv.digits_length_le (conv : IntConv) (a : IntArg) :
    (conv.digits a).length ≤ 64 :=
  numeral_length_le conv.base_range.1 (conv.magnitude_lt a)

theorem IntConv.minus_notMem_digits (conv : IntConv) (a : IntArg) : 45 ∉ conv.digits a :=
  minus_notMem_numeral conv.base_range.1 conv.base_range.2 _

theorem IntConv.sign_length (conv : IntConv) (a : IntArg) : (conv.sign a).length ≤ 1 := by
  unfold sign
  split <;> simp

theorem IntConv.sign_eq_nil (conv : IntConv) (a : IntArg) :
    conv.sign a = [] ↔ ¬ conv.negative a := by
  unfold sign
  split <;> simp [*]

/-- When the sign before the padding makes no difference. -/
theorem shown_eq_padded_iff {flag : Flag} {w : Nat} {sign digits : List Int}
    (hsign : sign.length ≤ 1) (hlen : digits.length ≤ 64) (hminus : 45 ∉ digits) :
    numberShown flag w sign digits = padded flag w sign digits ↔
      w ≤ digits.length ∨
        (sign = [] ∧ flag ≠ .minus ∧ w < 2 ^ 31 + digits.length) := by
  have hpad := pad_eq_iff (w := w) (n := digits.length) (s := sign.length) (by omega) hsign
  rw [List.length_eq_zero_iff] at hpad
  unfold numberShown
  constructor
  · intro h
    have hk : (wrapInt (w - digits.length)).toNat = w - (sign.length + digits.length) := by
      have hlength := congrArg List.length h
      rw [padded_length] at hlength
      simp only [List.length_append, List.length_replicate] at hlength
      omega
    obtain ⟨hlt, hle | hnil⟩ := hpad.mp hk
    · exact .inl hle
    · refine Classical.or_iff_not_imp_left.mpr fun hgt => ⟨hnil, ?_, hlt⟩
      rintro rfl
      subst hnil
      -- the padding is there, and it is made of minuses
      have hpos : w - (0 + digits.length) ≠ 0 := by omega
      rw [hk] at h
      have hlists : List.replicate (w - (0 + digits.length)) (45 : Int) ++ digits
          = digits ++ List.replicate (w - (0 + digits.length)) 32 := h
      have hmem : 45 ∈ digits ++ List.replicate (w - (0 + digits.length)) 32 := by
        rw [← hlists]
        exact List.mem_append_left _ (List.mem_replicate.mpr ⟨hpos, rfl⟩)
      rcases List.mem_append.mp hmem with hmem | hmem
      · exact hminus hmem
      · exact absurd (List.eq_of_mem_replicate hmem) (by decide)
  · rintro (hle | ⟨rfl, hflag, hlt⟩)
    · rw [hpad.mpr ⟨by omega, .inl hle⟩]
      have hzero : w - (sign.length + digits.length) = 0 := by omega
      cases flag <;> simp [padded, hzero]
    · rw [hpad.mpr ⟨hlt, .inr rfl⟩]
      cases flag with
      | none | zero => rfl
      | minus => exact absurd rfl hflag

/-- **NUMBERS IN A FIELD**: the field is right where the digits alone fill it, or
    where neither a sign nor the flag `-` is in play and the width is an `int`. -/
theorem vprintfmt_number_iff (flag : Flag) (width : Width) (hw : 1 ≤ width.value)
    (a : IntArg) (conv : IntConv) (ap : List Arg) :
    (∃ out, Prints (numberFormat flag width a conv) (width.args ++ a.arg :: ap) out ∧
      out.length = max width.value ((conv.sign a).length + (conv.digits a).length) ∧
      out = padded flag width.value (conv.sign a) (conv.digits a)) ↔
      width.value ≤ (conv.digits a).length ∨
        (¬ conv.negative a ∧ flag ≠ .minus ∧
          width.value < 2 ^ 31 + (conv.digits a).length) := by
  have hprints := prints_number flag width hw a conv ap
  rw [← conv.sign_eq_nil a, ← shown_eq_padded_iff (conv.sign_length a)
    (conv.digits_length_le a) (conv.minus_notMem_digits a)]
  constructor
  · rintro ⟨out, hout, -, rfl⟩
    exact hprints.unique hout
  · intro heq
    rw [heq] at hprints
    exact ⟨_, hprints, padded_length .., rfl⟩

/-- `"%5d"` with 42. -/
theorem vprintfmt_number_iff_five :
    (∃ out, Prints (numberFormat .none (.literal 5) (.int 42) .d) [.word 42] out ∧
      out.length = max 5 ((IntConv.d.sign (.int 42)).length +
        (IntConv.d.digits (.int 42)).length) ∧
      out = padded .none 5 (IntConv.d.sign (.int 42)) (IntConv.d.digits (.int 42))) ↔
      5 ≤ (IntConv.d.digits (.int 42)).length ∨
        (¬ IntConv.d.negative (.int 42) ∧ Flag.none ≠ .minus ∧
          5 < 2 ^ 31 + (IntConv.d.digits (.int 42)).length) :=
  vprintfmt_number_iff .none (.literal 5) (by decide) (.int 42) .d []

/-- `"%5d"` with -42: `-   42`. -/
theorem not_vprintfmt_number :
    ¬ ∀ (flag : Flag) (width : Width) (a : IntArg) (conv : IntConv) (ap : List Arg),
      1 ≤ width.value →
      ∃ out, Prints (numberFormat flag width a conv) (width.args ++ a.arg :: ap) out ∧
        out.length = max width.value ((conv.sign a).length + (conv.digits a).length) ∧
        out = padded flag width.value (conv.sign a) (conv.digits a) := by
  intro h
  obtain ⟨out, hout, -, hpadded⟩ :=
    h .none (.literal 5) (.int (-42)) .d [] (by decide)
  have hprints := prints_number .none (.literal 5) (by decide) (.int (-42)) .d []
  have heq := (hprints.unique hout).trans hpadded
  exact absurd heq (by decide)

end SharixPrintfmt
