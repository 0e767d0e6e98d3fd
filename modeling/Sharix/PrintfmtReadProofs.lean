import Sharix.PrintfmtPiecesProofs

/-! # What is read between the `%` and the conversion, and what that prints

    `Reads` says that a run of flags takes the variables of `vprintfmt` from one
    setting to another, wherever it stands in the format; there is one rule for
    each label.  `Converts` says what a conversion then prints.  Both leave out
    how much fuel that takes. -/

namespace SharixPrintfmt

/-! ## Reading the flags -/

/-- A decimal digit, as a `char`. -/
def IsDigit (c : Byte) : Prop := 48 ≤ c.toInt ∧ c.toInt ≤ 57

instance (c : Byte) : Decidable (IsDigit c) := inferInstanceAs (Decidable (_ ∧ _))

/-- Digits have the two labels of the `switch` that are for digits. -/
theorem isDigit_iff (c : Byte) : IsDigit c ↔ label c = .zero ∨ label c = .digit := by
  revert c
  decide +kernel

/-- The value of a literal that goes on with the digits `ds`. -/
def literal (v : Int) (ds : List Byte) : Int :=
  ds.foldl (fun v d => wrapInt (v * 10 + d.toInt - 48)) v

/-- The loop takes all digits, up to the first other character. -/
theorem digits_eq {ds : List Byte} {x : Byte} (hx : ¬ IsDigit x) :
    ∀ {fuel : Nat} {before rest : List Byte} (precision ch : Int),
      (∀ d ∈ ds, IsDigit d) → ds.length < fuel →
      digits fuel ⟨before, ds ++ x :: rest⟩ precision ch
        = some (literal (wrapInt (precision * 10 + ch - 48)) ds,
            ⟨ds.reverse ++ before, x :: rest⟩) := by
  induction ds with
  | nil =>
      intro fuel before rest precision ch _ hf
      obtain ⟨fuel, rfl⟩ := Nat.exists_eq_succ_of_ne_zero (Nat.ne_of_gt hf)
      have hx' : x.toInt < 48 ∨ 57 < x.toInt := by
        unfold IsDigit at hx
        omega
      simp only [digits, List.nil_append, Cursor.next, Option.bind_eq_bind,
        Option.bind_some, if_pos hx']
      rfl
  | cons d ds ih =>
      intro fuel before rest precision ch hds hf
      obtain ⟨fuel, rfl⟩ := Nat.exists_eq_succ_of_ne_zero (Nat.ne_of_gt
        (Nat.lt_of_le_of_lt (Nat.zero_le _) hf))
      have hd : ¬ (d.toInt < 48 ∨ 57 < d.toInt) := by
        have := hds d (List.mem_cons_self ..)
        unfold IsDigit at this
        omega
      simp only [digits, List.cons_append, Cursor.next, Option.bind_eq_bind,
        Option.bind_some, if_neg hd]
      rw [ih _ _ (fun c hc => hds c (List.mem_cons_of_mem _ hc))
        (Nat.lt_of_succ_lt_succ hf), List.reverse_cons, List.append_assoc]
      rfl

/-- Each `*` takes an argument, an `int`. -/
theorem starKinds_cons_star {x : Byte} (hx : label x = .star) (flags : List Byte) :
    starKinds (x :: flags) = .word :: starKinds flags := by
  simp [starKinds, hx, List.replicate_succ]

theorem starKinds_cons_other {x : Byte} (hx : label x ≠ .star) (flags : List Byte) :
    starKinds (x :: flags) = starKinds flags := by
  simp [starKinds, hx]

/-- Each `l` counts. -/
theorem longs_cons (x : Byte) (flags : List Byte) :
    longs (x :: flags) = longs flags + if label x = .long then 1 else 0 := by
  simp [longs, List.countP_cons]

/-- Digits take no argument and are no `l`. -/
theorem digits_kinds {ds flags : List Byte} (hds : ∀ d ∈ ds, IsDigit d) :
    starKinds (ds ++ flags) = starKinds flags ∧ longs (ds ++ flags) = longs flags := by
  induction ds with
  | nil => exact ⟨rfl, rfl⟩
  | cons d ds ih =>
      obtain ⟨h1, h2⟩ := ih fun c hc => hds c (List.mem_cons_of_mem _ hc)
      have hd := (isDigit_iff d).mp (hds d (List.mem_cons_self ..))
      constructor
      · rw [List.cons_append, starKinds_cons_other, h1]
        rcases hd with hd | hd <;> simp [hd]
      · rw [List.cons_append, longs_cons, h2]
        rcases hd with hd | hd <;> simp [hd]

/-- A character that is no flag ends the reading. -/
theorem reswitch_stop {c : Byte} (hc : ¬ isFlag c) (fuel : Nat) (before rest : List Byte)
    (spec : Spec) (ap : List Arg) :
    reswitch (fuel + 1) ⟨before, c :: rest⟩ spec ap
      = some (c, ⟨c :: before, rest⟩, spec, ap) := by
  unfold isFlag at hc
  rw [reswitch]
  simp only [Cursor.next, Option.bind_eq_bind, Option.bind_some]
  cases hl : label c <;> simp only [hl, Label.isFlag, not_true] at hc <;> rfl

/-- From the variables `spec` and the arguments `ap` on, `reswitch` reads the
    flags, whatever precedes and follows them, and leaves `spec'` and `ap'`. -/
def Reads (flags : List Byte) (spec : Spec) (ap : List Arg) (spec' : Spec)
    (ap' : List Arg) : Prop :=
  ∃ n, ∀ fuel, n < fuel → ∀ before c rest, ¬ isFlag c →
    reswitch fuel ⟨before, flags ++ c :: rest⟩ spec ap
      = some (c, ⟨c :: (flags.reverse ++ before), rest⟩, spec', ap')

namespace Reads

variable {flags : List Byte} {spec spec₁ spec' : Spec} {ap ap₁ ap' : List Arg} {x : Byte}

/-- No flags: the specification stays. -/
theorem nil (spec : Spec) (ap : List Arg) : Reads [] spec ap spec ap := by
  refine ⟨0, fun fuel hf before c rest hc => ?_⟩
  obtain ⟨fuel, rfl⟩ := Nat.exists_eq_succ_of_ne_zero (Nat.ne_of_gt hf)
  exact reswitch_stop hc fuel before rest spec ap

/-- One round, which may take in the characters `ds` behind its own. -/
theorem round (ds : List Byte) (h : Reads flags spec₁ ap₁ spec' ap')
    (hstep : ∀ fuel, ds.length < fuel → ∀ before c rest, ¬ isFlag c →
      reswitch (fuel + 1) ⟨before, x :: (ds ++ (flags ++ c :: rest))⟩ spec ap
        = reswitch fuel ⟨ds.reverse ++ x :: before, flags ++ c :: rest⟩ spec₁ ap₁) :
    Reads (x :: (ds ++ flags)) spec ap spec' ap' := by
  obtain ⟨n, hrun⟩ := h
  refine ⟨n + ds.length + 1, fun fuel hf before c rest hc => ?_⟩
  obtain ⟨fuel, rfl⟩ := Nat.exists_eq_succ_of_ne_zero (Nat.ne_of_gt
    (Nat.lt_of_le_of_lt (Nat.zero_le _) hf))
  rw [List.cons_append, List.append_assoc, hstep fuel (by omega) before c rest hc,
    hrun fuel (by omega) _ c rest hc]
  simp

theorem minus (hx : label x = .minus)
    (h : Reads flags { spec with padc := 45 } ap spec' ap') :
    Reads (x :: flags) spec ap spec' ap' := by
  refine h.round [] fun fuel _ before c rest _ => ?_
  simp [reswitch, Cursor.next, hx]

theorem zero (hx : label x = .zero)
    (h : Reads flags { spec with padc := 48 } ap spec' ap') :
    Reads (x :: flags) spec ap spec' ap' := by
  refine h.round [] fun fuel _ before c rest _ => ?_
  simp [reswitch, Cursor.next, hx]

/-- A `*` reads the next argument as the width or the precision. -/
theorem star {v : BitVec 32} (hx : label x = .star)
    (h : Reads flags (Spec.process { spec with precision := v.toInt }) ap spec' ap') :
    Reads (x :: flags) spec (.word v :: ap) spec' ap' := by
  refine h.round [] fun fuel _ before c rest _ => ?_
  simp [reswitch, Cursor.next, hx, vaWord]

theorem dot (hx : label x = .dot)
    (h : Reads flags (if spec.width < 0 then { spec with width := 0 } else spec) ap
      spec' ap') :
    Reads (x :: flags) spec ap spec' ap' := by
  refine h.round [] fun fuel _ before c rest _ => ?_
  simp [reswitch, Cursor.next, hx]

theorem sharp (hx : label x = .sharp)
    (h : Reads flags { spec with altflag := true } ap spec' ap') :
    Reads (x :: flags) spec ap spec' ap' := by
  refine h.round [] fun fuel _ before c rest _ => ?_
  simp [reswitch, Cursor.next, hx]

theorem long (hx : label x = .long)
    (h : Reads flags { spec with lflag := spec.lflag + 1 } ap spec' ap') :
    Reads (x :: flags) spec ap spec' ap' := by
  refine h.round [] fun fuel _ before c rest _ => ?_
  simp [reswitch, Cursor.next, hx]

/-- A literal is read to its last digit; the flags behind it begin with none. -/
theorem digit {ds : List Byte} (hx : label x = .digit) (hds : ∀ d ∈ ds, IsDigit d)
    (hflags : ∀ y, flags.head? = some y → ¬ IsDigit y)
    (h : Reads flags
      (Spec.process { spec with precision := literal (wrapInt (x.toNat - 48)) ds }) ap
      spec' ap') :
    Reads (x :: (ds ++ flags)) spec ap spec' ap' := by
  refine h.round ds fun fuel hf before c rest hc => ?_
  obtain ⟨y, rest', hy, hdigit⟩ : ∃ y rest', flags ++ c :: rest = y :: rest' ∧
      ¬ IsDigit y := by
    cases flags with
    | nil =>
        refine ⟨c, rest, rfl, fun hd => hc ?_⟩
        unfold isFlag
        rcases (isDigit_iff c).mp hd with h | h <;> rw [h] <;> rfl
    | cons y flags => exact ⟨y, flags ++ c :: rest, rfl, hflags y rfl⟩
  rw [hy, reswitch]
  simp only [Cursor.next, Option.bind_eq_bind, Option.bind_some, hx,
    digits_eq hdigit 0 (x.toNat : Int) hds hf, zero_mul, zero_add]

end Reads

/-- The first number is the width. -/
theorem Spec.process_width (padc p : Int) (lflag : Nat) (altflag : Bool) :
    Spec.process ⟨padc, -1, p, lflag, altflag⟩ = ⟨padc, p, -1, lflag, altflag⟩ := by
  simp [Spec.process]

/-- The next one is the precision. -/
theorem Spec.process_precision {spec : Spec} (h : 0 ≤ spec.width) :
    Spec.process spec = spec :=
  if_neg (Int.not_lt.mpr h)

/-- The `l`s already read stay counted. -/
theorem Spec.process_lflag (spec : Spec) : (Spec.process spec).lflag = spec.lflag := by
  unfold Spec.process
  split <;> rfl

/-- All flags are read; a star takes one argument. -/
theorem reads_flags : ∀ {flags : List Byte} (spec : Spec) (ap : List Arg),
    (∀ x ∈ flags, isFlag x) → Fits (starKinds flags) ap →
    ∃ spec', spec'.lflag = spec.lflag + longs flags ∧
      Reads flags spec ap spec' (ap.drop (starKinds flags).length) := by
  intro flags
  induction hn : flags.length using Nat.strong_induction_on generalizing flags with
  | _ n ih =>
      subst hn
      intro spec ap hflags hfits
      cases flags with
      | nil => exact ⟨spec, rfl, .nil spec ap⟩
      | cons x flags =>
          have hrest := fun y hy => hflags y (List.mem_cons_of_mem _ hy)
          -- a flag that takes no argument and nothing behind it
          have hplain : ∀ spec₁ : Spec, label x ≠ .star →
              spec₁.lflag = spec.lflag + (if label x = .long then 1 else 0) →
              ∃ spec', spec'.lflag = spec.lflag + longs (x :: flags) ∧
                Reads flags spec₁ ap spec' (ap.drop (starKinds (x :: flags)).length) := by
            intro spec₁ hx hl
            rw [starKinds_cons_other hx] at hfits ⊢
            obtain ⟨spec', hl', h⟩ := ih flags.length (by simp) rfl spec₁ ap hrest hfits
            refine ⟨spec', ?_, h⟩
            rw [hl', hl, longs_cons]
            omega
          have hx := hflags x (List.mem_cons_self ..)
          unfold isFlag at hx
          cases hl : label x with
          | minus =>
              obtain ⟨spec', h1, h2⟩ := hplain { spec with padc := 45 } (by simp [hl])
                (by simp [hl])
              exact ⟨spec', h1, .minus hl h2⟩
          | zero =>
              obtain ⟨spec', h1, h2⟩ := hplain { spec with padc := 48 } (by simp [hl])
                (by simp [hl])
              exact ⟨spec', h1, .zero hl h2⟩
          | dot =>
              obtain ⟨spec', h1, h2⟩ := hplain
                (if spec.width < 0 then { spec with width := 0 } else spec) (by simp [hl])
                (by split <;> simp [hl])
              exact ⟨spec', h1, .dot hl h2⟩
          | sharp =>
              obtain ⟨spec', h1, h2⟩ := hplain { spec with altflag := true } (by simp [hl])
                (by simp [hl])
              exact ⟨spec', h1, .sharp hl h2⟩
          | long =>
              obtain ⟨spec', h1, h2⟩ := hplain { spec with lflag := spec.lflag + 1 }
                (by simp [hl]) (by simp [hl])
              exact ⟨spec', h1, .long hl h2⟩
          | star =>
              rw [starKinds_cons_star hl] at hfits ⊢
              cases hfits with
              | @word _ ap v hfits =>
                  obtain ⟨spec', h1, h2⟩ := ih flags.length (by simp) rfl
                    (Spec.process { spec with precision := v.toInt }) ap hrest hfits
                  refine ⟨spec', ?_, .star hl h2⟩
                  rw [h1, Spec.process_lflag, longs_cons, hl]
                  simp
          | digit =>
              have hsplit := List.takeWhile_append_dropWhile
                (p := fun c => decide (IsDigit c)) (l := flags)
              generalize hds : flags.takeWhile (fun c => decide (IsDigit c)) = ds at hsplit
              generalize hfl : flags.dropWhile (fun c => decide (IsDigit c)) = flags'
                at hsplit
              have hall : ∀ d ∈ ds, IsDigit d := fun d hd => by
                have := List.mem_takeWhile_imp (hds ▸ hd)
                simpa using this
              have hhead : ∀ y, flags'.head? = some y → ¬ IsDigit y := by
                intro y hy
                have := List.head?_dropWhile_not (fun c => decide (IsDigit c)) flags
                rw [hfl, hy] at this
                simpa using this
              subst hsplit
              obtain ⟨hstars, hlongs⟩ : starKinds (ds ++ flags') = starKinds flags' ∧
                longs (ds ++ flags') = longs flags' := digits_kinds hall
              rw [starKinds_cons_other (by simp [hl]), hstars] at hfits ⊢
              have hshort : flags'.length < (x :: (ds ++ flags')).length := by
                rw [List.length_cons, List.length_append]
                omega
              obtain ⟨spec', h1, h2⟩ := ih flags'.length hshort rfl
                (Spec.process { spec with precision := literal (wrapInt (x.toNat - 48)) ds })
                ap (fun y hy => hrest y (List.mem_append_right _ hy)) hfits
              refine ⟨spec', ?_, .digit hl hall hhead h2⟩
              rw [h1, Spec.process_lflag, longs_cons, hlongs, hl]
              simp
          | char | error | string | signed | unsigned | octal | pointer | hex | percent
          | other => simp [hl, Label.isFlag] at hx

/-! ## What a conversion prints -/

/-- With enough fuel the conversion `c` prints `o`, leaves the arguments `ap'`
    and goes on where it stands. -/
def Converts (c : Byte) (spec : Spec) (ap : List Arg) (o : List Int)
    (ap' : List Arg) : Prop :=
  ∃ n, ∀ fuel, n < fuel → ∀ fmt s,
    convert record (fun fmt ap s => vprintfmt record fuel (Cursor.start fmt) ap s)
      fuel c fmt spec ap s = some (fmt, ap', s ++ o)

/-- The padding and the numeral. -/
def numberOut (spec : Spec) (base n : Nat) : List Int :=
  List.replicate (wrapInt (spec.width - (numeral base n).length)).toNat spec.padc
    ++ numeral base n

/-- What `printnum` prints, as a list. -/
theorem printnum_record {base : BitVec 32} (hb : 1 < base.toNat) (hb' : base.toNat ≤ 16)
    (spec : Spec) (num : BitVec 64) {fuel : Nat} (hf : 64 ≤ fuel) (s : List Int) :
    printnum record fuel num base spec.width spec.padc s
      = some (s ++ numberOut spec base.toNat num.toNat) := by
  have hlt : num.toNat < 2 ^ fuel :=
    Nat.lt_of_lt_of_le num.isLt (Nat.pow_le_pow_right (by decide) hf)
  rw [printnum_eq record hb hb' spec.padc spec.width s hlt (by omega), putAll_record]
  rfl

variable {c : Byte} {spec : Spec} {ap ap' : List Arg}

/-- `%c`, one character of the argument. -/
theorem converts_char (hc : label c = .char) (spec : Spec) (v : BitVec 32)
    (ap : List Arg) : Converts c spec (.word v :: ap) [v.toInt] ap := by
  refine ⟨0, fun fuel _ fmt s => ?_⟩
  simp only [convert, hc]
  rfl

theorem converts_percent (hc : label c = .percent) (spec : Spec) (ap : List Arg) :
    Converts c spec ap [c.toNat] ap := by
  refine ⟨0, fun fuel _ fmt s => ?_⟩
  simp only [convert, hc]
  rfl

/-- The characters `case 's'` prints. -/
def stringOut (spec : Spec) (p : List Byte) : List Int := putString record spec p []

theorem putString_record (spec : Spec) (p : List Byte) (s : List Int) :
    putString record spec p s = s ++ stringOut spec p := by
  have hput : ∀ c out, s ++ record c out = record c (s ++ out) := fun c out =>
    (List.append_assoc s out [c]).symm
  have h := putString_hom (h := fun out => s ++ out) hput spec p []
  simpa [stringOut] using h

/-- The string that is printed for the argument `p`. -/
def textOf : Option CString → List Byte
  | none => bytes "(null)"
  | some p => p.chars

/-- `%s`, with `(null)` for a null pointer. -/
theorem converts_string (hc : label c = .string) (spec : Spec) (p : Option CString)
    (ap : List Arg) :
    Converts c spec (.str p :: ap) (stringOut spec (textOf p)) ap := by
  refine ⟨0, fun fuel _ fmt s => ?_⟩
  simp only [convert, hc, vaStr, Option.bind_eq_bind, Option.bind_some, putString_record]
  cases p <;> rfl

/-- `%d`: a minus sign, then the digits of the magnitude. -/
theorem converts_signed {num : BitVec 64} (hc : label c = .signed)
    (hap : getint ap spec.lflag = some (num, ap')) :
    Converts c spec ap
      ((if num.toInt < 0 then [45] else []) ++ numberOut spec 10 num.toInt.natAbs)
      ap' := by
  refine ⟨64, fun fuel hf fmt s => ?_⟩
  simp only [convert, hc, hap, Option.bind_eq_bind, Option.bind_some]
  by_cases hneg : num.toInt < 0
  · have habs : (-num).toNat = num.toInt.natAbs := by
      rw [BitVec.toInt_eq_toNat_cond] at hneg ⊢
      rw [BitVec.toNat_neg]
      have := num.isLt
      split at hneg <;> split <;> omega
    simp only [if_pos hneg,
      @printnum_record 10 (by decide) (by decide) spec (-num) _ (Nat.le_of_lt hf)]
    rw [habs]
    simp [record]
  · have habs : num.toNat = num.toInt.natAbs := by
      rw [BitVec.toInt_eq_toNat_cond] at hneg ⊢
      split at hneg <;> split <;> omega
    simp only [if_neg hneg,
      @printnum_record 10 (by decide) (by decide) spec num _ (Nat.le_of_lt hf)]
    rw [← habs]
    rfl

/-- The base of an unsigned conversion. -/
def Label.base : Label → Option (BitVec 32)
  | .unsigned => some 10
  | .octal => some 8
  | .hex => some 16
  | _ => none

/-- `%u`, `%o` and `%x`. -/
theorem converts_unsigned {num : BitVec 64} {base : BitVec 32}
    (hc : (label c).base = some base) (hap : getuint ap spec.lflag = some (num, ap')) :
    Converts c spec ap (numberOut spec base.toNat num.toNat) ap' := by
  refine ⟨64, fun fuel hf fmt s => ?_⟩
  have hnum : ∀ base : BitVec 32, 1 < base.toNat → base.toNat ≤ 16 →
      printnum record fuel num base spec.width spec.padc s
        = some (s ++ numberOut spec base.toNat num.toNat) :=
    fun base h1 h2 => printnum_record h1 h2 spec num (Nat.le_of_lt hf) s
  cases hl : label c <;> simp only [hl, Label.base, Option.some.injEq, reduceCtorEq] at hc
  all_goals
    subst hc
    simp only [convert, hl, hap, Option.bind_eq_bind, Option.bind_some]
    rw [hnum _ (by decide) (by decide)]
    rfl

theorem converts_pointer (hc : label c = .pointer) (spec : Spec) (v : BitVec 32)
    (ap : List Arg) :
    Converts c spec (.word v :: ap) ([48, 120] ++ numberOut spec 16 v.toNat) ap := by
  refine ⟨64, fun fuel hf fmt s => ?_⟩
  have hv : (v.setWidth 64).toNat = v.toNat := by
    rw [BitVec.toNat_setWidth]
    exact Nat.mod_eq_of_lt (Nat.lt_trans v.isLt (by decide))
  simp only [convert, hc, vaWord, Option.bind_eq_bind, Option.bind_some,
    @printnum_record 16 (by decide) (by decide) spec (v.setWidth 64) _
      (Nat.le_of_lt hf)]
  rw [hv]
  simp [record]

end SharixPrintfmt
