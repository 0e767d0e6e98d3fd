import Sharix.PrintfmtProofs

/-! # `strtol` — `string.c`

    Blanks, a sign, a prefix and the digits are taken off the front of the
    string, one after the other; the digits go on as long as they are digits of
    the base.

    The prefix is tested for a lower-case `x` only, and without a look at what
    follows it.  So of the numbers the comment describes, those behind `0X` are
    read as a 0, a lone `0` before an `x` loses the `x` as well, and in base 0 a
    decimal number is cut short at a leading zero.  All others are read
    (`strtol_reads_iff`). -/

namespace SharixStrtol

open SharixPrintfmt

/-! ## The model -/

/-- `dig`, or nothing where the character is no digit in any base.  `*s` is a
    plain `char` and signed. -/
def digit (c : Byte) : Option Int :=
  if 48 ≤ c.toInt ∧ c.toInt ≤ 57 then some (c.toInt - 48)
  else if 97 ≤ c.toInt ∧ c.toInt ≤ 122 then some (c.toInt - 97 + 10)
  else if 65 ≤ c.toInt ∧ c.toInt ≤ 90 then some (c.toInt - 65 + 10)
  else none

/-- `while (*s == ' ' || *s == '\t') s ++;` -/
def gobble : List Byte → List Byte
  | [] => []
  | c :: s => if c = chr ' ' ∨ c = chr '\t' then gobble s else c :: s

/-- The sign: what follows it, and `neg`. -/
def readSign (s : List Byte) : List Byte × Bool :=
  if s[0]? = some (chr '+') then (s.drop 1, false)
  else if s[0]? = some (chr '-') then (s.drop 1, true)
  else (s, false)

/-- The prefix: what follows it, and the base from then on. -/
def readPrefix (s : List Byte) (base : Int) : List Byte × Int :=
  if (base = 0 ∨ base = 16) ∧ s[0]? = some (chr '0') ∧ s[1]? = some (chr 'x') then
    (s.drop 2, 16)
  else if base = 0 ∧ s[0]? = some (chr '0') then (s.drop 1, 8)
  else if base = 0 then (s, 10)
  else (s, base)

/-- The loop over the digits: `val`, and `s`.  A read behind the string has no
    result. -/
def readDigits (base : Int) : List Byte → Int → Option (Int × List Byte)
  | [], _ => none
  | c :: s, val =>
      match digit c with
      | none => some (val, c :: s)
      | some dig =>
          if base ≤ dig then some (val, c :: s)
          else readDigits base s (wrapInt (val * base + dig))

/-- The value, and `*endptr`. -/
def strtol (s : List Byte) (base : Int) : Option (Int × List Byte) := do
  let (s, neg) := readSign (gobble s)
  let (s, base) := readPrefix s base
  let (val, s) ← readDigits base s 0
  return (if neg then wrapInt (-val) else val, s)

/-! ## Numbers in a base -/

/-- The digits, in either letter case. -/
def digitChars : List (List Byte) :=
  [bytes "0123456789abcdefghijklmnopqrstuvwxyz",
    bytes "0123456789ABCDEFGHIJKLMNOPQRSTUVWXYZ"]

/-- The value of a digit. -/
def digitValue (c : Byte) : Option Nat := digitChars.findSome? (List.idxOf? c)

/-- A digit of the base. -/
def IsDigit (base : Nat) (c : Byte) : Prop := ∃ d ∈ digitValue c, d < base

instance (base : Nat) (c : Byte) : Decidable (IsDigit base c) :=
  match h : digitValue c with
  | none => isFalse (by simp [IsDigit, h])
  | some d => decidable_of_iff (d < base) (by simp [IsDigit, h])

theorem IsDigit.mono {b b' : Nat} (h : b ≤ b') {c : Byte} (hc : IsDigit b c) :
    IsDigit b' c := by
  obtain ⟨d, hval, hd⟩ := hc
  exact ⟨d, hval, Nat.lt_of_lt_of_le hd h⟩

theorem IsDigit.ne_x {b : Nat} (h : b ≤ 16) {c : Byte} (hc : IsDigit b c) : c ≠ chr 'x' := by
  rintro rfl
  exact absurd (hc.mono h) (by decide)

/-- The number that `v` becomes when the digits `ds` are appended to it. -/
def append (base v : Nat) (ds : List Byte) : Nat :=
  ds.foldl (fun v c => v * base + (digitValue c).getD 0) v

@[simp] theorem append_nil (base v : Nat) : append base v [] = v := rfl

theorem append_cons (base v : Nat) (c : Byte) (ds : List Byte) :
    append base v (c :: ds) = append base (v * base + (digitValue c).getD 0) ds := rfl

theorem append_append (base v : Nat) (ds ds' : List Byte) :
    append base v (ds ++ ds') = append base (append base v ds) ds' :=
  List.foldl_append

/-- Characters one after the other. -/
def charRange (a n : Nat) : List Byte := (List.range' a n).map (BitVec.ofNat 8)

theorem idxOf?_charRange (c : Byte) (n : Nat) : ∀ a, a + n ≤ 256 →
    (charRange a n).idxOf? c
      = if a ≤ c.toNat ∧ c.toNat < a + n then some (c.toNat - a) else none := by
  induction n with
  | zero =>
      intro a _
      rw [if_neg (by omega)]
      rfl
  | succ n ih =>
      intro a ha
      have hcons : charRange a (n + 1) = BitVec.ofNat 8 a :: charRange (a + 1) n := rfl
      have hfirst : BitVec.ofNat 8 a = c ↔ c.toNat = a := by
        rw [← BitVec.toNat_inj, BitVec.toNat_ofNat, Nat.mod_eq_of_lt (by omega)]
        exact eq_comm
      rw [hcons, List.idxOf?_cons, ih (a + 1) (by omega)]
      by_cases hc : c.toNat = a
      · rw [if_pos (beq_iff_eq.mpr (hfirst.mpr hc)), if_pos (by omega), hc, Nat.sub_self]
      · rw [if_neg (mt beq_iff_eq.mp (mt hfirst.mp hc))]
        by_cases hin : a + 1 ≤ c.toNat ∧ c.toNat < a + 1 + n
        · rw [if_pos hin, if_pos (by omega)]
          show some (c.toNat - (a + 1) + 1) = _
          exact congrArg some (by omega)
        · rw [if_neg hin, if_neg (by omega)]
          rfl

theorem digitChars_eq : digitChars =
    [charRange 48 10 ++ charRange 97 26, charRange 48 10 ++ charRange 65 26] := by
  decide +kernel

/-- The value of a digit, by the code of the character. -/
theorem digitValue_eq (c : Byte) : digitValue c =
    if 48 ≤ c.toNat ∧ c.toNat < 58 then some (c.toNat - 48)
    else if 97 ≤ c.toNat ∧ c.toNat < 123 then some (c.toNat - 97 + 10)
    else if 65 ≤ c.toNat ∧ c.toNat < 91 then some (c.toNat - 65 + 10)
    else none := by
  have happend : ∀ a n, a + n ≤ 256 → (charRange 48 10 ++ charRange a n).idxOf? c
      = if 48 ≤ c.toNat ∧ c.toNat < 58 then some (c.toNat - 48)
        else if a ≤ c.toNat ∧ c.toNat < a + n then some (c.toNat - a + 10) else none := by
    intro a n ha
    have hor : (charRange 48 10 ++ charRange a n).idxOf? c
        = ((charRange 48 10).idxOf? c).or
            (((charRange a n).idxOf? c).map (· + (charRange 48 10).length)) :=
      List.findIdx?_append
    rw [hor, idxOf?_charRange c 10 48 (by decide), idxOf?_charRange c n a ha]
    split_ifs <;> rfl
  rw [digitValue, digitChars_eq, List.findSome?_cons, List.findSome?_cons, List.findSome?_nil,
    happend 97 26 (by decide), happend 65 26 (by decide)]
  split_ifs <;> rfl

/-- `dig` is the place of the character among the digits. -/
theorem digit_eq (c : Byte) : digit c = (digitValue c).map Int.ofNat := by
  have hc := c.isLt
  rw [digitValue_eq, digit, BitVec.toInt_eq_toNat_cond]
  split_ifs <;> simp only [Option.map_some, Option.map_none, Option.some.injEq,
    Int.ofNat_eq_natCast, reduceCtorEq] <;> omega

/-- The loop takes all digits of the base, up to the first other character. -/
theorem readDigits_eq {base : Nat} {c : Byte} (hc : ¬ IsDigit base c) (rest : List Byte)
    {ds : List Byte} : ∀ {v : Nat}, (∀ d ∈ ds, IsDigit base d) →
    readDigits base (ds ++ c :: rest) (wrapInt v)
      = some (wrapInt (append base v ds), c :: rest) := by
  induction ds with
  | nil =>
      intro v _
      rw [List.nil_append, readDigits, digit_eq]
      cases hval : digitValue c with
      | none => rfl
      | some d =>
          have hle : ¬ d < base := fun hd => hc ⟨d, hval, hd⟩
          show (if (base : Int) ≤ (d : Int) then _ else _) = _
          rw [if_pos (Int.ofNat_le.mpr (Nat.not_lt.mp hle))]
          rfl
  | cons x ds ih =>
      intro v hds
      obtain ⟨d, hval, hd⟩ := hds x (List.mem_cons_self ..)
      rw [List.cons_append, readDigits, digit_eq, hval, append_cons, hval]
      show (if (base : Int) ≤ (d : Int) then _ else _) = _
      rw [if_neg (by omega)]
      have hstep : wrapInt (wrapInt v * base + Int.ofNat d)
          = wrapInt ((v * base + d : Nat) : Int) := by
        rw [Nat.cast_add, Nat.cast_mul]
        show ((Int.bmod v (2 ^ 32) * base + d).bmod (2 ^ 32)) = _
        rw [← Int.bmod_add_bmod, Int.bmod_mul_bmod, Int.bmod_add_bmod]
        rfl
      rw [hstep]
      exact ih fun d hd => hds d (List.mem_cons_of_mem _ hd)

theorem readDigits_zero {b : Nat} {c : Byte} (hc : ¬ IsDigit b c) (rest : List Byte)
    {l : List Byte} (hl : ∀ d ∈ l, IsDigit b d) :
    readDigits b (l ++ c :: rest) 0 = some (wrapInt (append b 0 l), c :: rest) := by
  have h := readDigits_eq (v := 0) hc rest hl
  rwa [wrapInt_of_range (by decide) (by decide)] at h

/-! ## The numbers of the comment -/

/-- An optional sign. -/
inductive Sign where
  | none
  | plus
  | minus
deriving DecidableEq

def Sign.chars : Sign → List Byte
  | .none => []
  | .plus => [chr '+']
  | .minus => [chr '-']

/-- An optional prefix. -/
inductive Prefix where
  | none
  | octal
  | hex
  | upperHex
deriving DecidableEq

namespace Prefix

def chars : Prefix → List Byte
  | .none => []
  | .octal => bytes "0"
  | .hex => bytes "0x"
  | .upperHex => bytes "0X"

/-- The bases the prefix may be used with. -/
def Allowed (base : Nat) : Prefix → Prop
  | .none => True
  | .octal => base = 0
  | .hex | .upperHex => base = 16 ∨ base = 0

instance (base : Nat) : ∀ p : Prefix, Decidable (p.Allowed base)
  | .none => inferInstanceAs (Decidable True)
  | .octal => inferInstanceAs (Decidable (_ = _))
  | .hex | .upperHex => inferInstanceAs (Decidable (_ ∨ _))

/-- The base of the digits behind the prefix. -/
def radix (base : Nat) : Prefix → Nat
  | .none => if base = 0 then 10 else base
  | .octal => 8
  | .hex | .upperHex => 16

/-- The string begins with the prefix and a digit. -/
def Begins (base : Nat) (s : List Byte) (p : Prefix) : Prop :=
  p.Allowed base ∧ p.chars <+: s ∧ ∃ c ∈ s[p.chars.length]?, IsDigit (p.radix base) c

instance (base : Nat) (s : List Byte) (p : Prefix) : Decidable (p.Begins base s) :=
  inferInstanceAs (Decidable (_ ∧ _ ∧ _))

end Prefix

/-- A string that begins with a number of the base.  Where a prefix can be read
    it is read, and as many digits as possible. -/
structure Numeral (base : Nat) where
  blanks : List Byte
  sign : Sign
  pre : Prefix
  digits : List Byte
  stop : Byte
  rest : List Byte
  blank : ∀ c ∈ blanks, c = chr ' ' ∨ c = chr '\t'
  allowed : pre.Allowed base
  nonempty : digits ≠ []
  isDigit : ∀ d ∈ digits, IsDigit (pre.radix base) d
  ends : ¬ IsDigit (pre.radix base) stop
  bare : pre = .none → ∀ p ∈ [Prefix.octal, .hex, .upperHex],
    ¬ p.Begins base (digits ++ stop :: rest)

namespace Numeral

variable {base : Nat} (t : Numeral base)

/-- What follows the sign. -/
def body : List Byte := t.pre.chars ++ (t.digits ++ t.stop :: t.rest)

def text : List Byte := t.blanks ++ (t.sign.chars ++ t.body)

def magnitude : Nat := append (t.pre.radix base) 0 t.digits

def value : Int :=
  match t.sign with
  | .minus => -t.magnitude
  | _ => t.magnitude

theorem value_eq :
    t.value = if t.sign = .minus then -(t.magnitude : Int) else t.magnitude := by
  unfold value
  cases t.sign <;> rfl

/-- The value fits in a `long`. -/
def Fits : Prop := -2 ^ 31 ≤ t.value ∧ t.value < 2 ^ 31

instance : Decidable t.Fits := inferInstanceAs (Decidable (_ ∧ _))

/-- `strtol` returns the value and stops behind the last digit. -/
def Read : Prop := strtol t.text base = some (t.value, t.stop :: t.rest)

/-- The numbers that the test for the prefix does not spoil. -/
structure Plain : Prop where
  lower : t.pre ≠ .upperHex
  zero : ¬ (t.pre = .none ∧ (base = 0 ∨ base = 16) ∧ t.digits = bytes "0" ∧ t.stop = chr 'x')
  leading : ¬ (t.pre = .none ∧ base = 0 ∧ t.digits[0]? = some (chr '0') ∧ 2 ≤ t.digits.length)

/-! ## Up to the digits -/

theorem digits_cons : ∃ d ds, t.digits = d :: ds ∧ IsDigit (t.pre.radix base) d := by
  obtain ⟨d, ds, hds⟩ := List.exists_cons_of_ne_nil t.nonempty
  exact ⟨d, ds, hds, t.isDigit d (hds ▸ List.mem_cons_self ..)⟩

/-- Behind the sign stands a digit. -/
theorem body_cons : ∃ c s, t.body = c :: s ∧ ∃ base, IsDigit base c := by
  have hzero : ∃ base, IsDigit base (chr '0') := ⟨8, by decide⟩
  unfold body
  cases hpre : t.pre with
  | none =>
      obtain ⟨d, ds, hds, hd⟩ := t.digits_cons
      exact ⟨d, ds ++ t.stop :: t.rest, by rw [hds]; rfl, _, hd⟩
  | octal => exact ⟨chr '0', _, rfl, hzero⟩
  | hex => exact ⟨chr '0', _, rfl, hzero⟩
  | upperHex => exact ⟨chr '0', _, rfl, hzero⟩

/-- A digit is neither blank nor a sign. -/
theorem digit_ne {c : Byte} (hc : ∃ base, IsDigit base c) :
    c ≠ chr ' ' ∧ c ≠ chr '\t' ∧ c ≠ chr '+' ∧ c ≠ chr '-' := by
  obtain ⟨base, d, hd, -⟩ := hc
  have hne : ∀ x, digitValue x = none → c ≠ x := by
    rintro x hx rfl
    exact absurd (hx ▸ hd) (by simp)
  exact ⟨hne _ (by decide), hne _ (by decide), hne _ (by decide), hne _ (by decide)⟩

theorem gobble_blanks {l s : List Byte} (hl : ∀ c ∈ l, c = chr ' ' ∨ c = chr '\t') :
    gobble (l ++ s) = gobble s := by
  induction l with
  | nil => rfl
  | cons c l ih =>
      rw [List.cons_append, gobble, if_pos (hl c (List.mem_cons_self ..))]
      exact ih fun c hc => hl c (List.mem_cons_of_mem _ hc)

theorem gobble_cons {c : Byte} (hc : ¬ (c = chr ' ' ∨ c = chr '\t')) (s : List Byte) :
    gobble (c :: s) = c :: s := by
  rw [gobble, if_neg hc]

/-- Blanks and sign are taken off. -/
theorem readSign_text : readSign (gobble t.text) = (t.body, decide (t.sign = .minus)) := by
  obtain ⟨c, s, hbody, hc⟩ := t.body_cons
  obtain ⟨hspace, htab, hplus, hminus⟩ := digit_ne hc
  rw [text, gobble_blanks t.blank, hbody]
  cases t.sign with
  | none =>
      show readSign (gobble (c :: s)) = _
      rw [gobble_cons (not_or.mpr ⟨hspace, htab⟩), readSign]
      simp [hplus, hminus]
  | plus =>
      show readSign (gobble (chr '+' :: (c :: s))) = _
      rw [gobble_cons (by decide)]
      rfl
  | minus =>
      show readSign (gobble (chr '-' :: (c :: s))) = _
      rw [gobble_cons (by decide)]
      rfl

/-- What is left to read, once the sign is known. -/
theorem strtol_text : strtol t.text base
    = (readDigits (readPrefix t.body base).2 (readPrefix t.body base).1 0).map
        fun r => (if t.sign = .minus then wrapInt (-r.1) else r.1, r.2) := by
  rw [strtol, t.readSign_text]
  simp only [decide_eq_true_eq]
  cases readDigits (readPrefix t.body base).2 (readPrefix t.body base).1 0 <;> rfl

/-- The sign is put in front of what the loop leaves. -/
theorem read_of_digits (hfits : t.Fits)
    (h : readDigits (readPrefix t.body base).2 (readPrefix t.body base).1 0
      = some (wrapInt t.magnitude, t.stop :: t.rest)) :
    t.Read := by
  have hneg : wrapInt (-wrapInt t.magnitude) = wrapInt (-t.magnitude) := by
    rw [← zero_sub, ← zero_sub]
    exact Int.sub_bmod_bmod
  rw [Read, strtol_text, h, Option.map_some]
  obtain ⟨h1, h2⟩ := hfits
  rw [value_eq] at h1 h2 ⊢
  by_cases hsign : t.sign = .minus
  · rw [if_pos hsign] at h1 h2
    simp only [if_pos hsign, hneg, wrapInt_of_range h1 h2]
  · rw [if_neg hsign] at h1 h2
    simp only [if_neg hsign, wrapInt_of_range h1 h2]

/-- The value is that of the digits, if these are read in their base. -/
theorem read_of_prefix (hfits : t.Fits)
    (h : readPrefix t.body base = (t.digits ++ t.stop :: t.rest, (t.pre.radix base : Int))) :
    t.Read := by
  refine t.read_of_digits hfits ?_
  rw [h]
  exact readDigits_zero t.ends t.rest t.isDigit

theorem not_read {s : List Byte} {b : Nat} (h : readPrefix t.body base = (s, (b : Int)))
    (hend : ∀ r, readDigits b s 0 = some r → r.2 ≠ t.stop :: t.rest) : ¬ t.Read := by
  intro hread
  rw [Read, strtol_text, h] at hread
  obtain ⟨r, hr, heq⟩ := Option.map_eq_some_iff.mp hread
  exact hend r hr (congrArg Prod.snd heq)

/-! ## The prefix -/

/-- The prefix `0x`. -/
theorem readPrefix_hex (hpre : t.pre = .hex) :
    readPrefix t.body base = (t.digits ++ t.stop :: t.rest, (t.pre.radix base : Int)) := by
  have hbase : base = 16 ∨ base = 0 := by simpa [hpre, Prefix.Allowed] using t.allowed
  have hbody : t.body = chr '0' :: chr 'x' :: (t.digits ++ t.stop :: t.rest) := by
    rw [body, hpre]
    rfl
  rw [hbody, readPrefix, if_pos ⟨by omega, rfl, rfl⟩, hpre]
  rfl

/-- The prefix `0`: an octal digit follows, and no `x`. -/
theorem readPrefix_octal (hpre : t.pre = .octal) :
    readPrefix t.body base = (t.digits ++ t.stop :: t.rest, (t.pre.radix base : Int)) := by
  have hbase : base = 0 := by simpa [hpre, Prefix.Allowed] using t.allowed
  obtain ⟨d, ds, hds, hd⟩ := t.digits_cons
  rw [hpre] at hd
  have hbody : t.body = chr '0' :: d :: (ds ++ t.stop :: t.rest) := by
    rw [body, hpre, hds]
    rfl
  rw [hbody, readPrefix, if_neg, if_pos ⟨by omega, rfl⟩, hpre, hds]
  · rfl
  · rintro ⟨-, -, hx⟩
    exact IsDigit.ne_x (show 8 ≤ 16 by decide) hd (Option.some.inj hx)

section Bare

variable (hpre : t.pre = .none)
include hpre

theorem body_bare : t.body = t.digits ++ t.stop :: t.rest := by
  rw [body, hpre]
  rfl

/-- A prefix `0x` is seen where a lone 0 stands before an `x`. -/
theorem body_zero_x (hbase : base = 0 ∨ base = 16) :
    t.body[0]? = some (chr '0') ∧ t.body[1]? = some (chr 'x')
      ↔ t.digits = bytes "0" ∧ t.stop = chr 'x' := by
  obtain ⟨d, ds, hds, -⟩ := t.digits_cons
  have hradix : t.pre.radix base ≤ 16 := by
    rw [hpre]
    rcases hbase with rfl | rfl <;> decide
  rw [t.body_bare hpre, hds]
  cases ds with
  | nil =>
      show some d = some (chr '0') ∧ some t.stop = some (chr 'x') ↔ [d] = [chr '0'] ∧ _
      simp
  | cons e ds =>
      have he : e ≠ chr 'x' := IsDigit.ne_x hradix (t.isDigit e (by simp [hds]))
      show some d = some (chr '0') ∧ some e = some (chr 'x') ↔ d :: e :: ds = [chr '0'] ∧ _
      simp [he]

theorem body_head : t.body[0]? = t.digits[0]? := by
  obtain ⟨d, ds, hds, -⟩ := t.digits_cons
  rw [t.body_bare hpre, hds]
  rfl

/-- No prefix, and none is seen. -/
theorem readPrefix_bare
    (hzero : ¬ ((base = 0 ∨ base = 16) ∧ t.digits = bytes "0" ∧ t.stop = chr 'x'))
    (hoctal : ¬ (base = 0 ∧ t.digits[0]? = some (chr '0'))) :
    readPrefix t.body base = (t.digits ++ t.stop :: t.rest, (t.pre.radix base : Int)) := by
  have hx : ¬ (((base : Int) = 0 ∨ (base : Int) = 16) ∧ t.body[0]? = some (chr '0') ∧
      t.body[1]? = some (chr 'x')) := by
    rintro ⟨hbase, hchars⟩
    have hbase : base = 0 ∨ base = 16 := by omega
    exact hzero ⟨hbase, (t.body_zero_x hpre hbase).mp hchars⟩
  have ho : ¬ ((base : Int) = 0 ∧ t.body[0]? = some (chr '0')) := by
    rintro ⟨hbase, hchar⟩
    exact hoctal ⟨by omega, t.body_head hpre ▸ hchar⟩
  rw [readPrefix, if_neg hx, if_neg ho, hpre, ← t.body_bare hpre]
  by_cases hbase : base = 0
  · subst hbase
    rfl
  · rw [if_neg (by omega), Prefix.radix, if_neg hbase]

/-- In base 0 a leading zero is taken for the octal prefix. -/
theorem readPrefix_leading (hbase : base = 0) {ds : List Byte}
    (hds : t.digits = chr '0' :: ds)
    (hzero : ¬ (t.digits = bytes "0" ∧ t.stop = chr 'x')) :
    readPrefix t.body base = (ds ++ t.stop :: t.rest, ((8 : Nat) : Int)) := by
  have hx := mt (t.body_zero_x hpre (.inl hbase)).mp hzero
  rw [t.body_bare hpre, hds] at hx ⊢
  rw [readPrefix, if_neg fun h => hx h.2, if_pos ⟨by omega, rfl⟩]
  rfl

end Bare

/-! ## What is read -/

theorem read_of_plain (hfits : t.Fits) (h : t.Plain) : t.Read := by
  cases hpre : t.pre with
  | upperHex => exact absurd hpre h.lower
  | hex => exact t.read_of_prefix hfits (t.readPrefix_hex hpre)
  | octal => exact t.read_of_prefix hfits (t.readPrefix_octal hpre)
  | none =>
      have hzero : ¬ ((base = 0 ∨ base = 16) ∧ t.digits = bytes "0" ∧ t.stop = chr 'x') :=
        fun hx => h.zero ⟨hpre, hx⟩
      by_cases hoctal : base = 0 ∧ t.digits[0]? = some (chr '0')
      · obtain ⟨hbase, hhead⟩ := hoctal
        -- the zero stands alone, so the prefix that is seen is the whole number
        have hdigits : t.digits = [chr '0'] := by
          obtain ⟨d, ds, hds, -⟩ := t.digits_cons
          have hd : d = chr '0' := by simpa [hds] using hhead
          cases ds with
          | nil => rw [hds, hd]
          | cons e ds => exact absurd ⟨hpre, hbase, hhead, by simp [hds]⟩ h.leading
        have hlead := t.readPrefix_leading hpre hbase hdigits
          fun hx => hzero ⟨.inl hbase, hx⟩
        have hstop : ¬ IsDigit 8 t.stop := fun hstop => t.ends (hstop.mono (by
          rw [hpre, hbase]
          decide))
        have hmag : t.magnitude = 0 := by
          rw [magnitude, hdigits, append_cons, Nat.zero_mul]
          show 0 + (digitValue (chr '0')).getD 0 = 0
          decide
        have hend := readDigits_zero hstop t.rest (l := []) (by simp)
        refine t.read_of_digits hfits ?_
        rw [hlead, hmag]
        exact hend
      · exact t.read_of_prefix hfits (t.readPrefix_bare hpre hzero hoctal)

/-- Behind `0X` only the zero is read, as a digit or as a prefix. -/
theorem not_read_upper (hpre : t.pre = .upperHex) : ¬ t.Read := by
  have hbase : base = 16 ∨ base = 0 := by simpa [hpre, Prefix.Allowed] using t.allowed
  have hbody : t.body = chr '0' :: chr 'X' :: (t.digits ++ t.stop :: t.rest) := by
    rw [body, hpre]
    rfl
  have hlong : chr 'X' :: (t.digits ++ t.stop :: t.rest) ≠ t.stop :: t.rest := by
    intro heq
    have := congrArg List.length heq
    simp at this
    omega
  rcases hbase with rfl | rfl
  · -- no prefix is seen, and the X is no digit
    refine t.not_read (b := 16) (s := t.body) ?_ fun r hr => ?_
    · rw [hbody]
      rfl
    · rw [hbody] at hr
      have hdigits := readDigits_zero (b := 16) (c := chr 'X') (by decide)
        (t.digits ++ t.stop :: t.rest) (l := [chr '0']) (by decide)
      rw [← Option.some.inj (hdigits.symm.trans hr)]
      exact hlong
  · -- the zero is taken for the octal prefix
    refine t.not_read (b := 8) (s := chr 'X' :: (t.digits ++ t.stop :: t.rest)) ?_
      fun r hr => ?_
    · rw [hbody]
      rfl
    · have hdigits := readDigits_zero (b := 8) (c := chr 'X') (by decide)
        (t.digits ++ t.stop :: t.rest) (l := []) (by simp)
      rw [← Option.some.inj (hdigits.symm.trans hr)]
      exact hlong

/-- A lone zero before an `x` is taken for the prefix `0x`, and no digit of
    base 16 follows. -/
theorem not_read_zero (hpre : t.pre = .none) (hbase : base = 0 ∨ base = 16)
    (hdigits : t.digits = bytes "0") (hstop : t.stop = chr 'x') : ¬ t.Read := by
  have hbody : t.body = chr '0' :: chr 'x' :: t.rest := by
    rw [t.body_bare hpre, hdigits, hstop]
    rfl
  have hrest : ∀ c ∈ t.rest[0]?, ¬ IsDigit 16 c := by
    intro c hc hdigit
    refine t.bare hpre .hex (by decide) ⟨hbase.symm, ?_, c, ?_, hdigit⟩
    · rw [hdigits, hstop]
      exact ⟨t.rest, rfl⟩
    · rw [hdigits, hstop]
      exact hc
  refine t.not_read (b := 16) (s := t.rest) ?_ fun r hr => ?_
  · rw [hbody, readPrefix, if_pos ⟨by omega, rfl, rfl⟩]
    rfl
  · cases hc : t.rest with
    | nil =>
        rw [hc] at hr
        exact nomatch hr
    | cons c s =>
        rw [hc] at hr hrest
        have hend := readDigits_zero (hrest c rfl) s (l := []) (by simp)
        rw [← Option.some.inj (hend.symm.trans hr)]
        intro heq
        have := congrArg List.length heq
        simp at this

/-- A decimal number with a leading zero ends at its second digit. -/
theorem not_read_leading (hpre : t.pre = .none) (hbase : base = 0)
    (hhead : t.digits[0]? = some (chr '0')) (hlen : 2 ≤ t.digits.length) : ¬ t.Read := by
  obtain ⟨d, e, ds, hds⟩ : ∃ d e ds, t.digits = d :: e :: ds := by
    match hds : t.digits, hlen with
    | d :: e :: ds, _ => exact ⟨d, e, ds, rfl⟩
  have hd : d = chr '0' := by simpa [hds] using hhead
  subst hd
  have he : ¬ IsDigit 8 e := by
    intro hdigit
    refine t.bare hpre .octal (by decide) ⟨hbase, ?_, e, ?_, hdigit⟩
    · rw [hds]
      exact ⟨_, rfl⟩
    · rw [hds]
      rfl
  refine t.not_read (t.readPrefix_leading hpre hbase hds ?_) fun r hr => ?_
  · rintro ⟨heq, -⟩
    rw [heq] at hlen
    exact absurd hlen (by decide)
  · have hend := readDigits_zero he (ds ++ t.stop :: t.rest) (l := []) (by simp)
    rw [← Option.some.inj (hend.symm.trans hr)]
    intro heq
    have := congrArg List.length heq
    simp at this
    omega

/-- **EVERY NUMBER BUT THOSE BEHIND A WRONG PREFIX**: a number whose value fits
    in a `long` is read, to its end, exactly if it has no prefix `0X`, is no
    lone zero before an `x` in base 0 or 16, and in base 0 does not begin with a
    zero that is no prefix. -/
theorem strtol_reads_iff (hfits : t.Fits) : t.Read ↔ t.Plain := by
  constructor
  · intro hread
    constructor
    · exact fun hpre => t.not_read_upper hpre hread
    · rintro ⟨hpre, hbase, hdigits, hstop⟩
      exact t.not_read_zero hpre hbase hdigits hstop hread
    · rintro ⟨hpre, hbase, hhead, hlen⟩
      exact t.not_read_leading hpre hbase hhead hlen hread
  · exact t.read_of_plain hfits

end Numeral

/-- `" -0x1F"` in base 0. -/
def minusThirtyOne : Numeral 0 where
  blanks := bytes " "
  sign := .minus
  pre := .hex
  digits := bytes "1F"
  stop := 0
  rest := []
  blank := by decide
  allowed := by decide
  nonempty := by decide
  isDigit := by decide
  ends := by decide
  bare := by decide

theorem strtol_reads_minusThirtyOne :
    minusThirtyOne.Fits ∧ (minusThirtyOne.Read ↔ minusThirtyOne.Plain) :=
  ⟨by decide, minusThirtyOne.strtol_reads_iff (by decide)⟩

/-- `"0X1F"` in base 16. -/
def upperThirtyOne : Numeral 16 where
  blanks := []
  sign := .none
  pre := .upperHex
  digits := bytes "1F"
  stop := 0
  rest := []
  blank := by decide
  allowed := by decide
  nonempty := by decide
  isDigit := by decide
  ends := by decide
  bare := by decide

/-- Not every number is read: `"0X1F"` is taken for a zero. -/
theorem not_strtol_reads : ¬ ∀ (base : Nat), base = 0 ∨ 2 ≤ base ∧ base ≤ 36 →
    ∀ t : Numeral base, t.Fits → t.Read := by
  intro h
  have hread := h 16 (by decide) upperThirtyOne (by decide)
  exact upperThirtyOne.not_read_upper rfl hread

end SharixStrtol
