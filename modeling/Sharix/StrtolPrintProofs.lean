import Sharix.StrtolProofs
import Sharix.PrintfmtNumberProofs

/-! # What `printnum` prints, `strtol` reads

    `printnum` prints the digits from the highest on, and `strtol` appends them
    one by one to what it has read.  Spaces in front of them are skipped, and
    zeros are digits like the others: no base that is printed is one in which a
    zero can begin a prefix without an `x` behind it. -/

namespace SharixStrtol

open SharixPrintfmt (Arg Byte Prints Reads bytes chr converts_signed numeral numeral_length_le
  numeral_of_le numeral_of_lt printnum printnum_eq prints_conv putAll_record record wrapInt
  wrapInt_of_range)

/-- The characters in memory. -/
def stored (l : List Int) : List Byte := l.map (BitVec.ofInt 8)

@[simp] theorem stored_append (l l' : List Int) : stored (l ++ l') = stored l ++ stored l' :=
  List.map_append

/-! ## The digits of a numeral -/

theorem digitChar_value {d : Nat} (h : d < 16) :
    digitValue (BitVec.ofInt 8 (d.digitChar.toNat : Int)) = some d := by
  have hall : ∀ d : Fin 16,
      digitValue (BitVec.ofInt 8 (d.val.digitChar.toNat : Int)) = some d.val := by
    decide
  exact hall ⟨d, h⟩

section Base

variable {base : Nat} (hb : 1 < base) (hb' : base ≤ 16)
include hb hb'

theorem numeral_isDigit (n : Nat) : ∀ c ∈ stored (numeral base n), IsDigit base c := by
  induction n using Nat.strong_induction_on with
  | _ n ih =>
      have hlast : IsDigit base (BitVec.ofInt 8 ((n % base).digitChar.toNat : Int)) := by
        have hlt : n % base < base := Nat.mod_lt _ (by omega)
        exact ⟨n % base, digitChar_value (by omega), hlt⟩
      intro c hc
      by_cases hlt : n < base
      · rw [numeral_of_lt hlt] at hc
        rw [Nat.mod_eq_of_lt hlt] at hlast
        rw [List.mem_singleton.mp hc]
        exact hlast
      · rw [numeral_of_le hb (Nat.not_lt.mp hlt), stored_append, List.mem_append] at hc
        rcases hc with hc | hc
        · exact ih _ (Nat.div_lt_self (by omega) hb) c hc
        · rw [List.mem_singleton.mp hc]
          exact hlast

/-- The digits of `n`, appended one by one, make up `n`. -/
theorem append_numeral (n : Nat) : append base 0 (stored (numeral base n)) = n := by
  induction n using Nat.strong_induction_on with
  | _ n ih =>
      have hdigit : ∀ v d, d < 16 →
          append base v (stored [(d.digitChar.toNat : Int)]) = v * base + d := by
        intro v d hd
        show v * base + (digitValue (BitVec.ofInt 8 _)).getD 0 = _
        rw [digitChar_value hd]
        rfl
      by_cases hlt : n < base
      · rw [numeral_of_lt hlt, hdigit 0 n (by omega), Nat.zero_mul, Nat.zero_add]
      · have hmod : n % base < base := Nat.mod_lt _ (by omega)
        rw [numeral_of_le hb (Nat.not_lt.mp hlt), stored_append, append_append,
          ih _ (Nat.div_lt_self (by omega) hb), hdigit _ _ (by omega)]
        exact Nat.div_add_mod' n base

end Base

theorem append_zeros (base k : Nat) (l : List Byte) :
    append base 0 (List.replicate k (chr '0') ++ l) = append base 0 l := by
  induction k with
  | zero => rfl
  | succ k ih =>
      rw [List.replicate_succ, List.cons_append, append_cons, Nat.zero_mul]
      exact ih

/-! ## The number that is printed -/

/-- The digits behind `k` zeros. -/
def digitsOf (base k n : Nat) : List Byte :=
  List.replicate k (chr '0') ++ stored (numeral base n)

theorem digitsOf_isDigit {base : Nat} (hb : 1 < base) (hb' : base ≤ 16) (k n : Nat) :
    ∀ c ∈ digitsOf base k n, IsDigit base c := by
  intro c hc
  rcases List.mem_append.mp hc with hc | hc
  · have hzero : IsDigit 1 (chr '0') := by decide
    rw [List.eq_of_mem_replicate hc]
    exact hzero.mono (Nat.le_of_lt hb)
  · exact numeral_isDigit hb hb' n c hc

theorem digitsOf_ne_nil (base k n : Nat) : digitsOf base k n ≠ [] := by
  intro hnil
  obtain ⟨-, hnil⟩ := List.append_eq_nil_iff.mp hnil
  have hlen := congrArg List.length hnil
  simp only [stored, numeral, List.length_map, List.length_nil] at hlen
  exact absurd hlen (Nat.ne_of_gt Nat.length_toDigits_pos)

theorem radix_none {base : Nat} (hb : 1 < base) : Prefix.none.radix base = base :=
  if_neg (by omega)

theorem not_isDigit_nul (base : Nat) : ¬ IsDigit base 0 := by
  rintro ⟨d, hd, -⟩
  have hnone : digitValue 0 = none := by decide
  exact nomatch hnone.symm.trans hd

/-- No letter that is not a digit stands behind a zero. -/
theorem digitsOf_notMem {base : Nat} (hb : 1 < base) (hb' : base ≤ 16) (k n : Nat) (x : Byte)
    (hx : ¬ IsDigit 16 x) (hx0 : x ≠ 0) : x ∉ digitsOf base k n ++ [0] := by
  intro hmem
  rcases List.mem_append.mp hmem with hmem | hmem
  · exact hx ((digitsOf_isDigit hb hb' k n x hmem).mono hb')
  · exact hx0 (List.mem_singleton.mp hmem)

theorem digitsOf_bare {base : Nat} (hb : 1 < base) (hb' : base ≤ 16) (k n : Nat) :
    ∀ p ∈ [Prefix.octal, .hex, .upperHex], ¬ p.Begins base (digitsOf base k n ++ [0]) := by
  rintro p hp ⟨hallowed, hbegins, -⟩
  cases p with
  | none => exact absurd hp (by decide)
  | octal =>
      have hbase : base = 0 := hallowed
      omega
  | hex =>
      exact digitsOf_notMem hb hb' k n (chr 'x') (by decide) (by decide)
        (hbegins.subset (by decide))
  | upperHex =>
      exact digitsOf_notMem hb hb' k n (chr 'X') (by decide) (by decide)
        (hbegins.subset (by decide))

/-- The number `n` behind blanks, a sign and zeros, up to the `NUL`. -/
def printed {b : Nat} (hb : 1 < b) (hb' : b ≤ 16) (pad : Nat) (sign : Sign)
    (zeros n : Nat) : Numeral b where
  blanks := List.replicate pad (chr ' ')
  sign := sign
  pre := .none
  digits := digitsOf b zeros n
  stop := 0
  rest := []
  blank := fun _ hc => .inl (List.eq_of_mem_replicate hc)
  allowed := trivial
  nonempty := digitsOf_ne_nil b zeros n
  isDigit := (radix_none hb).symm ▸ digitsOf_isDigit hb hb' zeros n
  ends := not_isDigit_nul _
  bare := fun _ => digitsOf_bare hb hb' zeros n

/-- It is read: there is no prefix to be mistaken. -/
theorem printed_read {b : Nat} (hb : 1 < b) (hb' : b ≤ 16) (pad : Nat) (sign : Sign)
    (zeros : Nat) {n : Nat} (hn : n < 2 ^ 31) :
    strtol (printed hb hb' pad sign zeros n).text b
      = some (if sign = .minus then -(n : Int) else n, [0]) := by
  have hmag : (printed hb hb' pad sign zeros n).magnitude = n := by
    show append (Prefix.none.radix b) 0 (digitsOf b zeros n) = n
    rw [radix_none hb, digitsOf, append_zeros, append_numeral hb hb']
  have hvalue : (printed hb hb' pad sign zeros n).value
      = if sign = .minus then -(n : Int) else n := by
    rw [Numeral.value_eq, hmag]
    rfl
  have hfits : (printed hb hb' pad sign zeros n).Fits := by
    unfold Numeral.Fits
    rw [hvalue]
    split <;> omega
  have hread : (printed hb hb' pad sign zeros n).Read := by
    refine Numeral.read_of_plain _ hfits ⟨by rintro ⟨⟩, ?_, ?_⟩
    · rintro ⟨-, -, -, hx⟩
      exact absurd hx (show (0 : Byte) ≠ chr 'x' by decide)
    · rintro ⟨-, hbase, -, -⟩
      omega
  rw [← hvalue]
  exact hread

/-! ## `printnum` and `%d` -/

/-- What `printnum` prints is such a number. -/
theorem printnum_printed {base : BitVec 32} (hb : 1 < base.toNat) (hb' : base.toNat ≤ 16)
    {padc : Int} (hpadc : padc = 32 ∨ padc = 48) (num : BitVec 64) (width : Int) {fuel : Nat}
    (hf : 64 ≤ fuel) :
    ∃ out pad zeros, printnum record fuel num base width padc [] = some out ∧
      stored out ++ [0] = (printed hb hb' pad .none zeros num.toNat).text := by
  have hlt : num.toNat < 2 ^ fuel :=
    Nat.lt_of_lt_of_le num.isLt (Nat.pow_le_pow_right (by decide) hf)
  have hout := printnum_eq record hb hb' padc width [] hlt (by omega)
  rw [putAll_record, List.nil_append] at hout
  generalize (wrapInt (width - (numeral base.toNat num.toNat).length)).toNat = pad at hout
  rcases hpadc with rfl | rfl
  · refine ⟨_, pad, 0, hout, ?_⟩
    show stored (_ ++ _) ++ [0] = List.replicate pad (chr ' ') ++ ((stored _) ++ [0])
    rw [stored_append, List.append_assoc, stored, List.map_replicate]
    rfl
  · refine ⟨_, 0, pad, hout, ?_⟩
    show stored (_ ++ _) ++ [0] = (List.replicate pad (chr '0') ++ stored _) ++ [0]
    rw [stored_append, stored, List.map_replicate]
    rfl

/-- `"%d"` prints a minus and the magnitude. -/
theorem prints_signed (v : BitVec 32) : ∃ out, Prints (bytes "%d") [.word v] out ∧
    stored out ++ [0] = (printed (b := 10) (by decide) (by decide) 0
      (if v.toInt < 0 then .minus else .none) 0 v.toInt.natAbs).text := by
  have hint : (v.signExtend 64).toInt = v.toInt := BitVec.toInt_signExtend_of_le (by decide)
  have hconv := @converts_signed (chr 'd') .init [.word v] [] (v.signExtend 64) (by decide) rfl
  refine ⟨_, prints_conv (l := []) (by simp) (.nil _ _) (by decide) hconv, ?_⟩
  have hlt := BitVec.toInt_lt (x := v)
  have hge := BitVec.le_toInt v
  have hpad : (wrapInt (-1 - (numeral 10 v.toInt.natAbs).length)).toNat = 0 := by
    have hlen : (numeral 10 v.toInt.natAbs).length ≤ 64 :=
      numeral_length_le (by decide) (by omega)
    rw [wrapInt_of_range (by omega) (by omega)]
    omega
  rw [hint]
  show stored (_ ++ (List.replicate (wrapInt (-1 - _)).toNat 32 ++ _)) ++ [0] = _
  rw [hpad]
  split <;> rfl

/-- **WHAT IS PRINTED IS READ BACK**: a number below 2^31 in any base that can
    be printed, with any width and either padding, and an `int` other than
    `INT_MIN` printed with `%d`. -/
theorem strtol_printed :
    (∀ base : BitVec 32, 2 ≤ base.toNat → base.toNat ≤ 16 → ∀ num : BitVec 64,
      num.toNat < 2 ^ 31 → ∀ width padc : Int, padc = 32 ∨ padc = 48 →
      ∀ fuel, 64 ≤ fuel → ∃ out, printnum record fuel num base width padc [] = some out ∧
        strtol (stored out ++ [0]) base.toNat = some ((num.toNat : Int), [0])) ∧
    ∀ v : BitVec 32, -(2 ^ 31 - 1) ≤ v.toInt → ∃ out,
      Prints (bytes "%d") [.word v] out ∧
      strtol (stored out ++ [0]) 10 = some (v.toInt, [0]) := by
  constructor
  · intro base hb hb' num hnum width padc hpadc fuel hf
    obtain ⟨out, pad, zeros, hout, htext⟩ := printnum_printed hb hb' hpadc num width hf
    exact ⟨out, hout, htext ▸ printed_read hb hb' pad .none zeros hnum⟩
  · intro v hv
    have hlt := BitVec.toInt_lt (x := v)
    obtain ⟨out, hout, htext⟩ := prints_signed v
    refine ⟨out, hout, ?_⟩
    have hread := printed_read (b := 10) (by decide) (by decide) 0
      (if v.toInt < 0 then .minus else .none) 0 (n := v.toInt.natAbs) (by omega)
    rw [← htext] at hread
    refine hread.trans (congrArg (fun x => some (x, [0])) ?_)
    by_cases hneg : v.toInt < 0
    · rw [if_pos hneg, if_pos rfl]
      omega
    · rw [if_neg hneg, if_neg (by simp)]
      omega

/-- 255 in base 16 in a field of eight, with zeros. -/
theorem strtol_printed_hex : ∃ out,
    printnum record 64 (BitVec.ofNat 64 255) 16 8 48 [] = some out ∧
      strtol (stored out ++ [0]) 16 = some (255, [0]) :=
  strtol_printed.1 16 (by decide) (by decide) 255 (by decide) 8 48 (by decide) 64 (by decide)

end SharixStrtol
