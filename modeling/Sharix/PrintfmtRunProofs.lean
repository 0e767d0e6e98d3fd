import Sharix.PrintfmtReadProofs

/-! # A run of `vprintfmt` over a format

    The run goes over the format piece by piece.  A conversion leaves the
    pointer behind its sequence.  An unrecognised character, or the `NUL`,
    prints the `%` and sends the pointer back to the character behind it; no
    other `%` lies on the way, and none on the way forward, where the rest of
    the sequence is printed as plain text. -/

namespace SharixPrintfmt

/-! ## Steps of the run -/

section Steps

variable {σ : Type} (putch : Int → σ → σ)

theorem vprintfmt_nul (fuel : Nat) (before rest : List Byte) (ap : List Arg) (s : σ) :
    vprintfmt putch (fuel + 1) ⟨before, 0 :: rest⟩ ap s = some s := by
  have h : ¬ (0 : Byte) = chr '%' := by decide
  rw [vprintfmt]
  simp only [Cursor.next, Option.bind_eq_bind, Option.bind_some, if_neg h, if_pos]

/-- Plain text is printed as it stands. -/
theorem vprintfmt_text {l : List Byte} : ∀ (fuel : Nat) (before rest : List Byte)
    (ap : List Arg) (s : σ), (∀ c ∈ l, c ≠ chr '%' ∧ c ≠ 0) →
    vprintfmt putch (fuel + l.length) ⟨before, l ++ rest⟩ ap s
      = vprintfmt putch fuel ⟨l.reverse ++ before, rest⟩ ap
          (putAll putch (codes l) s) := by
  induction l with
  | nil => exact fun _ _ _ _ _ _ => rfl
  | cons c l ih =>
      intro fuel before rest ap s hl
      obtain ⟨h1, h2⟩ := hl c (List.mem_cons_self ..)
      rw [List.length_cons, ← Nat.add_assoc, vprintfmt]
      simp only [List.cons_append, Cursor.next, Option.bind_eq_bind, Option.bind_some,
        if_neg h1, if_neg h2]
      rw [ih fuel _ rest ap _ fun x hx => hl x (List.mem_cons_of_mem _ hx)]
      simp [codes]

end Steps

/-- A flag is neither a `%` nor the `NUL`. -/
theorem flag_ne {c : Byte} (hc : isFlag c) : c ≠ chr '%' ∧ c ≠ 0 := by
  constructor
  · rintro rfl
    exact absurd hc (by decide)
  · rintro rfl
    exact absurd hc (by decide)

/-- The way back ends at the nearest `%`. -/
theorem rewind_eq {l : List Byte} (hl : ∀ c ∈ l, c ≠ chr '%') :
    ∀ (before after : List Byte), rewind (l ++ chr '%' :: before) after
      = some ⟨chr '%' :: before, l.reverse ++ after⟩ := by
  induction l with
  | nil =>
      intro before after
      rw [List.nil_append, rewind, if_pos rfl]
      rfl
  | cons c l ih =>
      intro before after
      rw [List.cons_append, rewind, if_neg (hl c (List.mem_cons_self ..)),
        ih fun x hx => hl x (List.mem_cons_of_mem _ hx)]
      simp

/-- A `%`-sequence that is read, and what follows with any sink. -/
theorem vprintfmt_sequence {σ : Type} (putch : Int → σ → σ) {flags : List Byte} {c : Byte}
    {spec : Spec} {ap ap' : List Arg} (h : Reads flags Spec.init ap spec ap')
    (hc : ¬ isFlag c) :
    ∃ n, ∀ fuel, n < fuel → ∀ before rest s,
      vprintfmt putch (fuel + 1) ⟨before, chr '%' :: (flags ++ c :: rest)⟩ ap s
        = (convert putch (fun fmt ap s => vprintfmt putch fuel (Cursor.start fmt) ap s)
            fuel c ⟨c :: (flags.reverse ++ chr '%' :: before), rest⟩ spec ap' s).bind
          fun r => vprintfmt putch fuel r.1 r.2.1 r.2.2 := by
  obtain ⟨n, hread⟩ := h
  refine ⟨n, fun fuel hf before rest s => ?_⟩
  rw [vprintfmt]
  simp only [Cursor.next, Option.bind_eq_bind, Option.bind_some, if_pos,
    hread fuel hf _ c rest hc]

section Sequences

variable {flags : List Byte} {c : Byte} {spec : Spec} {ap ap' ap'' : List Arg}
  {o : List Int}

/-- A recognised sequence prints its conversion and is left behind. -/
theorem run_conv (h : Reads flags Spec.init ap spec ap') (hc : ¬ isFlag c)
    (hconv : Converts c spec ap' o ap'') :
    ∃ n, ∀ fuel, n < fuel → ∀ before rest s,
      vprintfmt record (fuel + 1) ⟨before, chr '%' :: (flags ++ c :: rest)⟩ ap s
        = vprintfmt record fuel ⟨c :: (flags.reverse ++ chr '%' :: before), rest⟩ ap''
            (s ++ o) := by
  obtain ⟨n, hseq⟩ := vprintfmt_sequence record h hc
  obtain ⟨n', hconv⟩ := hconv
  refine ⟨max n n', fun fuel hf before rest s => ?_⟩
  rw [hseq fuel (by omega), hconv fuel (by omega)]
  rfl

/-- An unrecognised sequence prints the `%` and is read again as text. -/
theorem run_bad (h : Reads flags Spec.init ap spec ap') (hflags : ∀ x ∈ flags, isFlag x)
    (hc : label c = .other) :
    ∃ n, ∀ fuel, n < fuel → ∀ before rest s,
      vprintfmt record (fuel + 1) ⟨before, chr '%' :: (flags ++ c :: rest)⟩ ap s
        = vprintfmt record fuel ⟨chr '%' :: before, flags ++ c :: rest⟩ ap'
            (s ++ [37]) := by
  have hflag : ¬ isFlag c := by simp [isFlag, hc, Label.isFlag]
  obtain ⟨n, hseq⟩ := vprintfmt_sequence record h hflag
  refine ⟨n, fun fuel hf before rest s => ?_⟩
  have hback : rewind (flags.reverse ++ chr '%' :: before) (c :: rest)
      = some ⟨chr '%' :: before, flags ++ c :: rest⟩ := by
    rw [rewind_eq fun x hx => (flag_ne (hflags x (List.mem_reverse.mp hx))).1,
      List.reverse_reverse]
  rw [hseq fuel hf]
  simp only [convert, hc, Cursor.back, Option.bind_eq_bind, Option.bind_some, hback]
  rfl

end Sequences

/-! ## Formats that are printed alone -/

/-- With enough fuel the format `fmt` prints `o`. -/
def Prints (fmt : List Byte) (ap : List Arg) (o : List Int) : Prop :=
  ∃ n, ∀ fuel, n < fuel → ∀ s,
    vprintfmt record fuel (Cursor.start fmt) ap s = some (s ++ o)

theorem Prints.unique {fmt : List Byte} {ap : List Arg} {o o' : List Int}
    (h : Prints fmt ap o) (h' : Prints fmt ap o') : o = o' := by
  obtain ⟨n, h⟩ := h
  obtain ⟨n', h'⟩ := h'
  have heq := (h (n + n' + 1) (by omega) []).symm.trans (h' (n + n' + 1) (by omega) [])
  exact Option.some.inj heq

/-- A sequence behind plain text. -/
theorem prints_conv {l flags : List Byte} {c : Byte} {spec : Spec}
    {ap ap' ap'' : List Arg} {o : List Int} (hl : ∀ c ∈ l, c ≠ chr '%' ∧ c ≠ 0)
    (h : Reads flags Spec.init ap spec ap') (hc : ¬ isFlag c)
    (hconv : Converts c spec ap' o ap'') :
    Prints (l ++ chr '%' :: (flags ++ [c])) ap (codes l ++ o) := by
  obtain ⟨n, hrun⟩ := run_conv h hc hconv
  refine ⟨n + l.length + 2, fun fuel hf s => ?_⟩
  obtain ⟨m, rfl⟩ : ∃ m, fuel = m + 1 + 1 + l.length :=
    ⟨fuel - l.length - 2, by omega⟩
  have hstart : Cursor.start (l ++ chr '%' :: (flags ++ [c]))
      = ⟨[], l ++ (chr '%' :: (flags ++ c :: [0]))⟩ := by
    simp [Cursor.start]
  rw [hstart, vprintfmt_text record _ _ _ _ _ hl, hrun _ (by omega), vprintfmt_nul,
    putAll_record, List.append_assoc]

/-- An error code prints its text, or its number. -/
theorem converts_error {c : Byte} (hc : label c = .error) (spec : Spec) {v : BitVec 32}
    (hv : v.toInt ≠ -2 ^ 31) (ap : List Arg) :
    ∃ o, Converts c spec (.word v :: ap) o ap := by
  have hrange := BitVec.toInt_lt (x := v)
  have hrange' := BitVec.le_toInt v
  have herr : ∃ p, errorText (if v.toInt < 0 then wrapInt (-v.toInt) else v.toInt)
      = some p := by
    have hpos : 0 ≤ if v.toInt < 0 then wrapInt (-v.toInt) else v.toInt := by
      split
      · rw [wrapInt_of_range (by omega) (by omega)]
        omega
      · omega
    generalize (if v.toInt < 0 then wrapInt (-v.toInt) else v.toInt) = err at hpos
    unfold errorText
    by_cases hmax : maxError < err
    · exact ⟨none, if_pos hmax⟩
    · have hlt : err.toNat < errorString.length := by
        unfold maxError at hmax
        simp only [errorString, List.length_cons, List.length_nil]
        omega
      rw [if_neg hmax, if_neg (by omega), List.getElem?_eq_getElem hlt]
      exact ⟨_, rfl⟩
  obtain ⟨p, hp⟩ := herr
  cases p with
  | none =>
      have hfmt : bytes "error %d" = bytes "error " ++ chr '%' :: ([] ++ [chr 'd']) := rfl
      have htext : ∀ c ∈ bytes "error ", c ≠ chr '%' ∧ c ≠ 0 := by decide
      obtain ⟨o, n, hprint⟩ : ∃ o, Prints (bytes "error %d")
          [.word (BitVec.ofInt 32 (if v.toInt < 0 then wrapInt (-v.toInt) else v.toInt))]
          o := by
        rw [hfmt]
        exact ⟨_, prints_conv htext (.nil _ _) (by decide)
          (converts_signed (by decide) rfl)⟩
      refine ⟨o, n, fun fuel hf fmt s => ?_⟩
      simp only [convert, hc, vaWord, Option.bind_eq_bind, Option.bind_some, hp,
        hprint fuel hf]
      rfl
  | some p =>
      have hfmt : bytes "%s" = [] ++ chr '%' :: ([] ++ [chr 's']) := rfl
      obtain ⟨o, n, hprint⟩ : ∃ o, Prints (bytes "%s") [.str (some p)] o := by
        rw [hfmt]
        exact ⟨_, prints_conv (by simp) (.nil _ _) (by decide)
          (converts_string (by decide) _ _ _)⟩
      refine ⟨o, n, fun fuel hf fmt s => ?_⟩
      simp only [convert, hc, vaWord, Option.bind_eq_bind, Option.bind_some, hp,
        hprint fuel hf]
      rfl

/-! ## Every format -/

theorem Fits.append {ks ks' : List Kind} : ∀ {ap : List Arg}, Fits (ks ++ ks') ap →
    Fits ks ap ∧ Fits ks' (ap.drop ks.length) := by
  induction ks with
  | nil => exact fun h => ⟨.nil _, h⟩
  | cons k ks ih =>
      intro ap h
      cases h with
      | word v h => exact ⟨.word v (ih h).1, (ih h).2⟩
      | dword v h => exact ⟨.dword v (ih h).1, (ih h).2⟩
      | str p h => exact ⟨.str p (ih h).1, (ih h).2⟩
      | error hv h => exact ⟨.error hv (ih h).1, (ih h).2⟩

/-- A conversion prints something if its argument has the kind it asks for. -/
theorem converts_of_fits {flags : List Byte} {c : Byte} {spec : Spec} {ap : List Arg}
    (hl : spec.lflag = longs flags) (hc : ¬ isFlag c) (hother : label c ≠ .other)
    (hfits : Fits (convKinds flags c) ap) :
    ∃ o, Converts c spec ap o (ap.drop (convKinds flags c).length) := by
  have hnum : ∀ {ks : List Kind}, ks = (if 2 ≤ longs flags then [.dword] else [.word]) →
      Fits ks ap → (∃ num, getint ap spec.lflag = some (num, ap.drop ks.length)) ∧
        ∃ num, getuint ap spec.lflag = some (num, ap.drop ks.length) := by
    rintro ks rfl hfits
    unfold getint getuint
    rw [hl]
    by_cases h2 : 2 ≤ longs flags
    · rw [if_pos h2] at hfits ⊢
      simp only [if_pos h2]
      cases hfits with
      | dword v _ => exact ⟨⟨_, rfl⟩, _, rfl⟩
    · rw [if_neg h2] at hfits ⊢
      simp only [if_neg h2]
      cases hfits with
      | word v _ => exact ⟨⟨_, rfl⟩, _, rfl⟩
  unfold convKinds at hfits ⊢
  unfold isFlag at hc
  cases hlab : label c with
  | minus | zero | digit | star | dot | sharp | long => simp [hlab, Label.isFlag] at hc
  | other => exact absurd hlab hother
  | percent => exact ⟨_, converts_percent hlab spec ap⟩
  | char =>
      rw [hlab] at hfits
      cases hfits with
      | word v _ => exact ⟨_, converts_char hlab spec v _⟩
  | pointer =>
      rw [hlab] at hfits
      cases hfits with
      | word v _ => exact ⟨_, converts_pointer hlab spec v _⟩
  | error =>
      rw [hlab] at hfits
      cases hfits with
      | error hv _ => exact converts_error hlab spec hv _
  | string =>
      rw [hlab] at hfits
      cases hfits with
      | str p _ => exact ⟨_, converts_string hlab spec p _⟩
  | signed =>
      rw [hlab] at hfits
      obtain ⟨⟨num, h⟩, -⟩ := hnum rfl hfits
      exact ⟨_, converts_signed hlab h⟩
  | unsigned =>
      rw [hlab] at hfits
      obtain ⟨-, num, h⟩ := hnum rfl hfits
      exact ⟨_, converts_unsigned (show (label c).base = some 10 by rw [hlab]; rfl) h⟩
  | octal =>
      rw [hlab] at hfits
      obtain ⟨-, num, h⟩ := hnum rfl hfits
      exact ⟨_, converts_unsigned (show (label c).base = some 8 by rw [hlab]; rfl) h⟩
  | hex =>
      rw [hlab] at hfits
      obtain ⟨-, num, h⟩ := hnum rfl hfits
      exact ⟨_, converts_unsigned (show (label c).base = some 16 by rw [hlab]; rfl) h⟩

/-- From this place in a format on the pieces are printed. -/
def PrintsFrom (f : List Byte) (ap : List Arg) : Prop :=
  ∃ n out, Rendered (pieces f) ap out ∧ ∀ fuel, n < fuel → ∀ before s,
    vprintfmt record fuel ⟨before, f ++ [0]⟩ ap s = some (s ++ out)

theorem PrintsFrom.nil (ap : List Arg) : PrintsFrom [] ap := by
  refine ⟨0, [], by rw [pieces]; exact .nil ap, fun fuel hf before s => ?_⟩
  obtain ⟨fuel, rfl⟩ := Nat.exists_eq_succ_of_ne_zero (Nat.ne_of_gt hf)
  rw [List.nil_append, vprintfmt_nul, List.append_nil]

/-- Plain text: one character. -/
theorem PrintsFrom.text {c : Byte} {f : List Byte} {ap : List Arg} (hc : c ≠ chr '%')
    (hc0 : c ≠ 0) (h : PrintsFrom f ap) : PrintsFrom (c :: f) ap := by
  obtain ⟨n, out, hren, hrun⟩ := h
  rw [PrintsFrom, pieces_text hc]
  refine ⟨n + 1, c.toNat :: out, .text hren, fun fuel hf before s => ?_⟩
  obtain ⟨fuel, rfl⟩ : ∃ m, fuel = m + [c].length := ⟨fuel - 1, by simp; omega⟩
  have hstep := vprintfmt_text record (l := [c]) fuel before (f ++ [0]) ap s
    (by simpa using ⟨hc, hc0⟩)
  rw [List.cons_append, show c :: (f ++ [0]) = [c] ++ (f ++ [0]) from rfl, hstep,
    hrun fuel (by simp at hf; omega), putAll_record, List.append_assoc]
  rfl

/-- The `NUL` cuts a sequence short. -/
theorem PrintsFrom.cut {flags : List Byte} {ap : List Arg} (hflags : ∀ x ∈ flags, isFlag x)
    (hfits : Fits (starKinds flags) ap) : PrintsFrom (chr '%' :: flags) ap := by
  obtain ⟨spec, -, hread⟩ := reads_flags Spec.init ap hflags hfits
  obtain ⟨n, hbad⟩ := run_bad hread hflags (c := 0) (by decide)
  rw [PrintsFrom, pieces_cut hflags]
  refine ⟨n + flags.length + 2, _, .cut ap, fun fuel hf before s => ?_⟩
  obtain ⟨fuel, rfl⟩ : ∃ m, fuel = m + 1 + flags.length + 1 :=
    ⟨fuel - flags.length - 2, by omega⟩
  rw [List.cons_append, hbad _ (by omega),
    vprintfmt_text record _ _ _ _ _ fun x hx => flag_ne (hflags x hx),
    vprintfmt_nul, putAll_record, List.append_assoc]
  rfl

/-- An unrecognised sequence is printed as text. -/
theorem PrintsFrom.bad {flags f : List Byte} {c : Byte} {ap : List Arg}
    (hflags : ∀ x ∈ flags, isFlag x) (hc : ¬ isFlag c) (hother : label c = .other) (hc0 : c ≠ 0)
    (hfits : Fits (starKinds flags) ap)
    (h : PrintsFrom f (ap.drop (starKinds flags).length)) :
    PrintsFrom (chr '%' :: (flags ++ c :: f)) ap := by
  obtain ⟨spec, -, hread⟩ := reads_flags Spec.init ap hflags hfits
  obtain ⟨n, hbad⟩ := run_bad hread hflags hother
  obtain ⟨n', out, hren, hrun⟩ := h
  rw [PrintsFrom, pieces_sequence hflags hc, if_pos hother]
  refine ⟨n + n' + (flags ++ [c]).length + 1, _, .bad hren, fun fuel hf before s => ?_⟩
  obtain ⟨fuel, rfl⟩ : ∃ m, fuel = m + (flags ++ [c]).length + 1 :=
    ⟨fuel - (flags ++ [c]).length - 1, by omega⟩
  have hc' : c ≠ chr '%' := by
    rintro rfl
    exact absurd hother (by decide)
  have htext : ∀ x ∈ flags ++ [c], x ≠ chr '%' ∧ x ≠ 0 := by
    intro x hx
    rcases List.mem_append.mp hx with hx | hx
    · exact flag_ne (hflags x hx)
    · rw [List.mem_singleton.mp hx]
      exact ⟨hc', hc0⟩
  rw [List.cons_append, List.append_assoc, List.cons_append, hbad _ (by omega),
    show flags ++ c :: (f ++ [0]) = (flags ++ [c]) ++ (f ++ [0]) by simp,
    vprintfmt_text record _ _ _ _ _ htext, hrun _ (by omega), putAll_record]
  simp [Piece.bytes, codes]

/-- A conversion takes its arguments and prints them. -/
theorem PrintsFrom.conv {flags f : List Byte} {c : Byte} {ap : List Arg}
    (hflags : ∀ x ∈ flags, isFlag x) (hc : ¬ isFlag c) (hother : label c ≠ .other)
    (hfits : Fits (Piece.conv flags c).kinds ap)
    (h : PrintsFrom f (ap.drop (Piece.conv flags c).kinds.length)) :
    PrintsFrom (chr '%' :: (flags ++ c :: f)) ap := by
  obtain ⟨hstars, hconv⟩ := hfits.append
  obtain ⟨spec, hl, hread⟩ := reads_flags Spec.init ap hflags hstars
  obtain ⟨o, hconv⟩ := converts_of_fits (hl.trans (Nat.zero_add _)) hc hother hconv
  obtain ⟨n, hrun₁⟩ := run_conv hread hc hconv
  obtain ⟨n', out, hren, hrun⟩ := h
  have halone : Prints (Piece.conv flags c).bytes ap o := by
    have h := prints_conv (l := []) (by simp) hread hc hconv
    simpa [codes, Piece.bytes] using h
  obtain ⟨n'', halone⟩ := halone
  rw [PrintsFrom, pieces_sequence hflags hc, if_neg hother]
  refine ⟨n + n' + 1, o ++ out, .conv ⟨n'', fun fuel hf => ?_⟩ hren, fun fuel hf before s => ?_⟩
  · rw [halone fuel hf]
    rfl
  · obtain ⟨fuel, rfl⟩ : ∃ m, fuel = m + 1 := ⟨fuel - 1, by omega⟩
    rw [List.cons_append, List.append_assoc, List.cons_append, hrun₁ fuel (by omega)]
    have hdrop : (ap.drop (starKinds flags).length).drop (convKinds flags c).length
        = ap.drop (Piece.conv flags c).kinds.length := by
      rw [List.drop_drop, Piece.kinds, List.length_append]
    rw [hdrop, hrun fuel (by omega), List.append_assoc]

/-- The run from any place in a format on: by induction on its length. -/
theorem run_pieces : ∀ (f : List Byte) (ap : List Arg), 0 ∉ f →
    Fits ((pieces f).flatMap Piece.kinds) ap → PrintsFrom f ap := by
  intro f
  induction hn : f.length using Nat.strong_induction_on generalizing f with
  | _ n ih =>
      subst hn
      intro ap hnul hfits
      rcases format_cases f with rfl | ⟨c, f', rfl, hc⟩ | ⟨flags, rfl, hflags⟩ |
        ⟨flags, c, f', rfl, hflags, hc⟩
      · exact .nil ap
      · rw [pieces_text hc] at hfits
        rw [List.mem_cons, not_or] at hnul
        exact .text hc (Ne.symm hnul.1) (ih f'.length (by simp) f' rfl ap hnul.2 hfits)
      · rw [pieces_cut hflags] at hfits
        exact .cut hflags (by simpa [Piece.kinds] using hfits)
      · rw [pieces_sequence hflags hc] at hfits
        have hmem : ∀ x ∈ c :: f', x ∈ chr '%' :: (flags ++ c :: f') := fun x hx =>
          List.mem_cons_of_mem _ (List.mem_append_right _ hx)
        have hnul' : 0 ∉ f' := fun h => hnul (hmem 0 (List.mem_cons_of_mem _ h))
        have hc0 : c ≠ 0 := fun h => hnul (hmem 0 (h ▸ List.mem_cons_self ..))
        have hlen : f'.length < (chr '%' :: (flags ++ c :: f')).length := by
          simp
          omega
        by_cases hother : label c = .other
        · rw [if_pos hother, List.flatMap_cons] at hfits
          obtain ⟨hfits₁, hfits₂⟩ := hfits.append
          exact .bad hflags hc hother hc0 hfits₁ (ih _ hlen f' rfl _ hnul' hfits₂)
        · rw [if_neg hother, List.flatMap_cons] at hfits
          obtain ⟨hfits₁, hfits₂⟩ := hfits.append
          exact .conv hflags hc hother hfits₁ (ih _ hlen f' rfl _ hnul' hfits₂)

/-- **EVERY FORMAT IS PRINTED TO ITS END**: with matching arguments the run ends,
    reads the format within its bounds, and prints its pieces in order — an
    unrecognised or cut sequence once, as it stands. -/
theorem vprintfmt_pieces (fmt : CString) (ap : List Arg)
    (hap : Fits ((pieces fmt.chars).flatMap Piece.kinds) ap) :
    ∃ n out, (∀ fuel, n < fuel →
        vprintfmt record fuel (Cursor.start fmt.chars) ap [] = some out) ∧
      Rendered (pieces fmt.chars) ap out := by
  obtain ⟨n, out, hren, hrun⟩ := run_pieces fmt.chars ap fmt.nonzero hap
  exact ⟨n, out, fun fuel hf => hrun fuel hf [] [], hren⟩

/-- `"%z%d"` with one number. -/
theorem vprintfmt_pieces_unknown : ∃ n out,
    (∀ fuel, n < fuel → vprintfmt record fuel (Cursor.start (bytes "%z%d")) [.word 7] []
      = some out) ∧ Rendered (pieces (bytes "%z%d")) [.word 7] out := by
  have hpieces : pieces (bytes "%z%d") = [.bad [] (chr 'z'), .conv [] (chr 'd')] := by
    have h1 : pieces (chr '%' :: ([] ++ chr 'z' :: bytes "%d")) = _ :=
      pieces_sequence (by simp) (by decide)
    have h2 : pieces (chr '%' :: ([] ++ chr 'd' :: [])) = _ :=
      pieces_sequence (by simp) (by decide)
    rw [if_pos (by decide)] at h1
    rw [if_neg (by decide), pieces] at h2
    exact h1.trans (congrArg _ h2)
  refine vprintfmt_pieces ⟨bytes "%z%d", by decide, by decide⟩ [.word 7] ?_
  change Fits ((pieces (bytes "%z%d")).flatMap Piece.kinds) _
  rw [hpieces]
  exact .word 7 (.nil [])

end SharixPrintfmt
