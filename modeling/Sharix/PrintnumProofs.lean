import Mathlib.Data.Nat.Notation
import Mathlib.Tactic.Ring

/-! # `do_div` and `printnum` — `x86.h`, `printfmt.c`

    `do_div` divides a 64-bit number in two 32-bit steps: the high word first,
    then what is left of it together with the low word.  `printnum` calls itself
    with the quotient before it prints its own digit, so the digits come out
    from the highest on, behind the padding printed by the innermost call.

    Signed arithmetic wraps, as in the unoptimised build of the kernel. -/

namespace SharixPrintfmt

/-! ## Numbers and sinks -/

/-- The value of an `int` expression whose exact value is `x`. -/
def wrapInt (x : Int) : Int := x.bmod (2 ^ 32)

theorem wrapInt_of_range {x : Int} (h1 : -2 ^ 31 ≤ x) (h2 : x < 2 ^ 31) :
    wrapInt x = x :=
  Int.bmod_eq_of_le (by omega) (by omega)

/-- Wrapping once, at the end, is enough. -/
@[simp] theorem wrapInt_sub (x y : Int) : wrapInt (wrapInt x - y) = wrapInt (x - y) :=
  Int.bmod_sub_bmod ..

theorem wrapInt_wrapInt (x : Int) : wrapInt (wrapInt x) = wrapInt x := Int.bmod_bmod ..

/-- A wrapped number is an `int`. -/
theorem wrapInt_range (x : Int) : -2 ^ 31 ≤ wrapInt x ∧ wrapInt x < 2 ^ 31 := by
  have h1 := Int.le_bmod (x := x) (m := 2 ^ 32) (by decide)
  have h2 := Int.bmod_lt (x := x) (m := 2 ^ 32) (by decide)
  unfold wrapInt
  omega

section Sink

variable {σ : Type} (putch : Int → σ → σ)

/-- The calls of `putch` for the characters `l`, in order. -/
def putAll (l : List Int) (s : σ) : σ := l.foldl (fun s c => putch c s) s

@[simp] theorem putAll_nil (s : σ) : putAll putch [] s = s := rfl

@[simp] theorem putAll_cons (c : Int) (l : List Int) (s : σ) :
    putAll putch (c :: l) s = putAll putch l (putch c s) := rfl

/-- One output behind another. -/
@[simp] theorem putAll_append (l l' : List Int) (s : σ) :
    putAll putch (l ++ l') s = putAll putch l' (putAll putch l s) :=
  List.foldl_append

/-- `for (; n > 0; n --) putch(c, putdat);` -/
def putTimes (c : Int) : Nat → σ → σ
  | 0, s => s
  | n + 1, s => putTimes c n (putch c s)

/-- A loop of one character. -/
theorem putTimes_eq (c : Int) : ∀ (n : Nat) (s : σ),
    putTimes putch c n s = putAll putch (List.replicate n c) s
  | 0, _ => rfl
  | n + 1, s => putTimes_eq c n (putch c s)

/-! ## The model -/

/-- `divl`: `upper` and `low` divided by `base`; it faults where the quotient
    does not fit. -/
def divl (upper low base : BitVec 32) : Option (BitVec 32 × BitVec 32) :=
  let n := upper.toNat * 2 ^ 32 + low.toNat
  if base = 0 ∨ 2 ^ 32 ≤ n / base.toNat then none
  else some (BitVec.ofNat 32 (n / base.toNat), BitVec.ofNat 32 (n % base.toNat))

/-- `do_div(n, base)`: the new `n`, and the value of the expression. -/
def doDiv (n : BitVec 64) (base : BitVec 32) : Option (BitVec 64 × BitVec 32) := do
  let low := n.setWidth 32
  let high := (n >>> 32).setWidth 32
  let (upper, high) := if high ≠ 0 then (high % base, high / base) else (high, high)
  let (low, mod) ← divl upper low base
  return (high ++ low, mod)

/-- `"0123456789abcdef"`, without the `NUL`. -/
def hexDigits : List Int := "0123456789abcdef".toList.map fun c => (c.toNat : Int)

/-- `while (-- width > 0) putch(padc, putdat);` at the bottom. -/
def printnum (fuel : Nat) (num : BitVec 64) (base : BitVec 32) (width padc : Int)
    (s : σ) : Option σ :=
  match fuel with
  | 0 => none
  | fuel + 1 => do
      let (result, mod) ← doDiv num base
      let s ←
        if base.toNat ≤ num.toNat then
          printnum fuel result base (wrapInt (width - 1)) padc s
        else some (putTimes putch padc (wrapInt (width - 1)).toNat s)
      let digit ← hexDigits[mod.toNat]?
      return putch digit s

end Sink

/-! ## `do_div` -/

/-- Quotient and remainder of a number given by its high and low part. -/
theorem div_two_words (high low base m : Nat) (hb : 0 < base) :
    (high * m + low) / base = high / base * m + (high % base * m + low) / base ∧
      (high * m + low) % base = (high % base * m + low) % base := by
  have hsplit : high * m + low
      = base * (high / base * m) + (high % base * m + low) := by
    conv_lhs => rw [← Nat.div_add_mod high base]
    ring
  rw [hsplit]
  exact ⟨Nat.mul_add_div hb .., Nat.mul_add_mod ..⟩

/-- The step for the high word is the same without the test for 0. -/
theorem high_step (high base : BitVec 32) :
    (if high ≠ 0 then (high % base, high / base) else (high, high))
      = (high % base, high / base) := by
  by_cases h : high = 0
  · simp [h]
  · rw [if_pos h]

/-- `do_div` is division with remainder, and its `divl` never faults. -/
theorem doDiv_eq (n : BitVec 64) {base : BitVec 32} (hb : base ≠ 0) :
    doDiv n base = some (BitVec.ofNat 64 (n.toNat / base.toNat),
      BitVec.ofNat 32 (n.toNat % base.toNat)) := by
  have hpos : 0 < base.toNat := by
    rw [Nat.pos_iff_ne_zero]
    exact fun h => hb (BitVec.eq_of_toNat_eq h)
  have hn := n.isLt
  have hbase := base.isLt
  have hhigh : ((n >>> 32).setWidth 32).toNat = n.toNat / 2 ^ 32 := by
    rw [BitVec.toNat_setWidth, BitVec.toNat_ushiftRight, Nat.shiftRight_eq_div_pow]
    exact Nat.mod_eq_of_lt (by omega)
  have hlow : (n.setWidth 32).toNat = n.toNat % 2 ^ 32 := BitVec.toNat_setWidth ..
  obtain ⟨hquot, hmod⟩ :=
    div_two_words (n.toNat / 2 ^ 32) (n.toNat % 2 ^ 32) base.toNat (2 ^ 32) hpos
  rw [Nat.div_add_mod'] at hquot hmod
  -- what is left of the high word is below the base, so the quotient fits
  have hfits : (n.toNat / 2 ^ 32 % base.toNat * 2 ^ 32 + n.toNat % 2 ^ 32) / base.toNat
      < 2 ^ 32 := by
    have := Nat.mod_lt (n.toNat / 2 ^ 32) hpos
    rw [Nat.div_lt_iff_lt_mul hpos]
    calc n.toNat / 2 ^ 32 % base.toNat * 2 ^ 32 + n.toNat % 2 ^ 32
        < n.toNat / 2 ^ 32 % base.toNat * 2 ^ 32 + 2 ^ 32 :=
          Nat.add_lt_add_left (Nat.mod_lt _ (by decide)) _
      _ = (n.toNat / 2 ^ 32 % base.toNat + 1) * 2 ^ 32 := by ring
      _ ≤ base.toNat * 2 ^ 32 := Nat.mul_le_mul_right _ this
      _ = 2 ^ 32 * base.toNat := Nat.mul_comm ..
  have hdivl : divl ((n >>> 32).setWidth 32 % base) (n.setWidth 32) base
      = some (BitVec.ofNat 32
          ((n.toNat / 2 ^ 32 % base.toNat * 2 ^ 32 + n.toNat % 2 ^ 32) / base.toNat),
        BitVec.ofNat 32 (n.toNat % base.toNat)) := by
    simp only [divl, BitVec.toNat_umod, hhigh, hlow]
    rw [if_neg (by simp only [hb, false_or]; omega), hmod]
  rw [doDiv]
  simp only [high_step, hdivl, Option.bind_eq_bind, Option.bind_some]
  refine congrArg some (Prod.ext (BitVec.eq_of_toNat_eq ?_) rfl)
  rw [BitVec.toNat_append, BitVec.toNat_udiv, hhigh, BitVec.toNat_ofNat,
    Nat.mod_eq_of_lt hfits, ← Nat.shiftLeft_add_eq_or_of_lt hfits, Nat.shiftLeft_eq,
    ← hquot, BitVec.toNat_ofNat]
  refine (Nat.mod_eq_of_lt ?_).symm
  exact Nat.lt_of_le_of_lt (Nat.div_le_self ..) hn

/-! ## `printnum` -/

/-- The numeral of `n`, as characters. -/
def numeral (base n : Nat) : List Int :=
  (Nat.toDigits base n).map fun c => (c.toNat : Int)

theorem numeral_of_lt {base n : Nat} (h : n < base) :
    numeral base n = [(n.digitChar.toNat : Int)] := by
  rw [numeral, Nat.toDigits_of_lt_base h]
  rfl

/-- A numeral is the one of the quotient and a last digit. -/
theorem numeral_of_le {base n : Nat} (hb : 1 < base) (h : base ≤ n) :
    numeral base n
      = numeral base (n / base) ++ [((n % base).digitChar.toNat : Int)] := by
  rw [numeral, Nat.toDigits_of_base_le hb h, List.map_append]
  rfl

/-- The digit at `mod` is the digit of the numeral. -/
theorem hexDigits_get {mod : Nat} (h : mod < 16) :
    hexDigits[mod]? = some (mod.digitChar.toNat : Int) := by
  have hall : ∀ i : Fin 16, hexDigits[i.val]? = some (i.val.digitChar.toNat : Int) := by
    decide
  exact hall ⟨mod, h⟩

section Sink

variable {σ : Type} (putch : Int → σ → σ)

/-- `printnum` prints the numeral behind the characters that bring it to the
    width. -/
theorem printnum_eq {base : BitVec 32} (hb : 1 < base.toNat) (hb' : base.toNat ≤ 16)
    (padc : Int) : ∀ {fuel : Nat} {num : BitVec 64} (width : Int) (s : σ),
      num.toNat < 2 ^ fuel → 0 < fuel →
      printnum putch fuel num base width padc s
        = some (putAll putch (List.replicate
            (wrapInt (width - (numeral base.toNat num.toNat).length)).toNat padc
          ++ numeral base.toNat num.toNat) s) := by
  intro fuel
  induction fuel with
  | zero => exact fun _ _ _ h => absurd h (Nat.lt_irrefl 0)
  | succ fuel ih =>
      intro num width s hnum _
      have hbase : base ≠ 0 := by
        rintro rfl
        exact absurd hb (by decide)
      have hmod : num.toNat % base.toNat < 16 :=
        Nat.lt_of_lt_of_le (Nat.mod_lt _ (by omega)) hb'
      have hdigit : hexDigits[(BitVec.ofNat 32 (num.toNat % base.toNat)).toNat]?
          = some ((num.toNat % base.toNat).digitChar.toNat : Int) := by
        rw [BitVec.toNat_ofNat, Nat.mod_eq_of_lt (by omega), hexDigits_get hmod]
      rw [printnum, doDiv_eq num hbase]
      simp only [Option.bind_eq_bind, Option.bind_some]
      by_cases hle : base.toNat ≤ num.toNat
      · have hquot : (BitVec.ofNat 64 (num.toNat / base.toNat)).toNat
            = num.toNat / base.toNat := by
          rw [BitVec.toNat_ofNat]
          have := Nat.div_le_self num.toNat base.toNat
          exact Nat.mod_eq_of_lt (Nat.lt_of_le_of_lt this num.isLt)
        have hlt : num.toNat / base.toNat < 2 ^ fuel := by
          have : num.toNat < 2 ^ fuel * 2 := hnum
          rw [Nat.div_lt_iff_lt_mul (by omega)]
          exact Nat.lt_of_lt_of_le this (Nat.mul_le_mul_left _ hb)
        have hfuel : 0 < fuel := by
          refine Nat.pos_of_ne_zero ?_
          rintro rfl
          omega
        have hrec := @ih (BitVec.ofNat 64 (num.toNat / base.toNat))
          (wrapInt (width - 1)) s (by rw [hquot]; exact hlt) hfuel
        rw [hquot] at hrec
        have hlen : width - 1 - ((numeral base.toNat (num.toNat / base.toNat)).length : Int)
            = width - (numeral base.toNat num.toNat).length := by
          rw [numeral_of_le hb hle, List.length_append, List.length_singleton]
          push_cast
          ring
        have hlast : ∀ pad, putAll putch (pad ++ numeral base.toNat num.toNat) s
            = putch (num.toNat % base.toNat).digitChar.toNat
                (putAll putch (pad ++ numeral base.toNat (num.toNat / base.toNat)) s) := by
          intro pad
          rw [numeral_of_le hb hle, ← List.append_assoc, putAll_append]
          rfl
        rw [if_pos hle, hrec, wrapInt_sub, hlen, hlast]
        simp only [Option.bind_some, hdigit]
        rfl
      · rw [if_neg hle, Nat.mod_eq_of_lt (Nat.not_le.mp hle)] at *
        simp only [Option.bind_some, hdigit, putTimes_eq]
        rw [numeral_of_lt (Nat.not_le.mp hle), putAll_append]
        rfl

end Sink

end SharixPrintfmt
