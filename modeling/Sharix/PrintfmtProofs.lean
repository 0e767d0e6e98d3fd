import Sharix.PrintnumProofs

/-! # `vprintfmt` — `printfmt.c`

    The format is read through a pointer that moves both ways: an unrecognised
    sequence sends it back to the `%`, and its characters are then printed like
    any others.  Every character goes through `putch`, which the function knows
    nothing about, so what is printed does not depend on the sink: a run with
    any `putch` is the recording run followed by the calls it recorded
    (`vprintfmt_record`).

    A read before the format or behind its `NUL`, an argument of another kind
    than the one that is fetched, and an index outside `error_string` have no
    result. -/

namespace SharixPrintfmt

/-! ## Strings and arguments -/

abbrev Byte := BitVec 8

/-- A character constant. -/
abbrev chr (c : Char) : Byte := BitVec.ofNat 8 c.toNat

/-- A string literal, without the `NUL`. -/
def bytes (s : String) : List Byte := s.toList.map chr

/-- A `NUL`-terminated string in the kernel's part of the address space, which
    begins at `0xC0000000`. -/
structure CString where
  chars : List Byte
  nonzero : 0 ∉ chars
  short : chars.length < 2 ^ 30

/-- An argument as it was passed: four bytes, eight bytes, or a `char *`. -/
inductive Arg where
  | word (v : BitVec 32)
  | dword (v : BitVec 64)
  | str (p : Option CString)

/-- `va_arg(ap, int)`, and the other types of four bytes. -/
def vaWord : List Arg → Option (BitVec 32 × List Arg)
  | .word v :: ap => some (v, ap)
  | _ => none

/-- `va_arg(ap, long long)`. -/
def vaDword : List Arg → Option (BitVec 64 × List Arg)
  | .dword v :: ap => some (v, ap)
  | _ => none

/-- `va_arg(ap, char *)`. -/
def vaStr : List Arg → Option (Option CString × List Arg)
  | .str p :: ap => some (p, ap)
  | _ => none

def getuint (ap : List Arg) (lflag : Nat) : Option (BitVec 64 × List Arg) :=
  if 2 ≤ lflag then vaDword ap
  else (vaWord ap).map fun (v, ap) => (v.setWidth 64, ap)

def getint (ap : List Arg) (lflag : Nat) : Option (BitVec 64 × List Arg) :=
  if 2 ≤ lflag then vaDword ap
  else (vaWord ap).map fun (v, ap) => (v.signExtend 64, ap)

/-! ## The format pointer -/

/-- `fmt`: the bytes before it, the nearest first, and those from it on up to
    the `NUL`. -/
structure Cursor where
  before : List Byte
  after : List Byte

/-- The pointer to the start of a format. -/
def Cursor.start (fmt : List Byte) : Cursor := ⟨[], fmt ++ [0]⟩

/-- `*fmt ++`. -/
def Cursor.next : Cursor → Option (Byte × Cursor)
  | ⟨_, []⟩ => none
  | ⟨before, c :: after⟩ => some (c, ⟨c :: before, after⟩)

/-- `fmt --`. -/
def Cursor.back : Cursor → Option Cursor
  | ⟨[], _⟩ => none
  | ⟨c :: before, after⟩ => some ⟨before, c :: after⟩

/-- `for (; fmt[-1] != '%'; fmt --);` -/
def rewind : List Byte → List Byte → Option Cursor
  | [], _ => none
  | c :: before, after =>
      if c = chr '%' then some ⟨c :: before, after⟩ else rewind before (c :: after)

/-! ## Flags, width and precision -/

/-- The labels of the `switch`. -/
inductive Label where
  | minus
  | zero
  | digit
  | star
  | dot
  | sharp
  | long
  | char
  | error
  | string
  | signed
  | unsigned
  | octal
  | pointer
  | hex
  | percent
  | other
deriving DecidableEq, Repr

/-- The label `ch` is sent to. -/
def label (ch : Byte) : Label :=
  if ch = chr '-' then .minus
  else if ch = chr '0' then .zero
  else if chr '1' ≤ ch ∧ ch ≤ chr '9' then .digit
  else if ch = chr '*' then .star
  else if ch = chr '.' then .dot
  else if ch = chr '#' then .sharp
  else if ch = chr 'l' then .long
  else if ch = chr 'c' then .char
  else if ch = chr 'e' then .error
  else if ch = chr 's' then .string
  else if ch = chr 'd' then .signed
  else if ch = chr 'u' then .unsigned
  else if ch = chr 'o' then .octal
  else if ch = chr 'p' then .pointer
  else if ch = chr 'x' then .hex
  else if ch = chr '%' then .percent
  else .other

/-- The variables set between the `%` and the conversion. -/
structure Spec where
  padc : Int
  width : Int
  precision : Int
  lflag : Nat
  altflag : Bool
deriving DecidableEq, Repr

def Spec.init : Spec := ⟨32, -1, -1, 0, false⟩

/-- `process_precision`. -/
def Spec.process (spec : Spec) : Spec :=
  if spec.width < 0 then { spec with width := spec.precision, precision := -1 }
  else spec

/-- `for (precision = 0; ; ++ fmt)`, once `ch` is a digit.  `*fmt` is a plain
    `char` and signed. -/
def digits : Nat → Cursor → Int → Int → Option (Int × Cursor)
  | 0, _, _, _ => none
  | fuel + 1, fmt, precision, ch => do
      let precision := wrapInt (precision * 10 + ch - 48)
      let (c, fmt') ← fmt.next
      let ch := c.toInt
      if ch < 48 ∨ 57 < ch then return (precision, fmt)
      else digits fuel fmt' precision ch

/-- From `reswitch` to the conversion: its character, and the variables. -/
def reswitch : Nat → Cursor → Spec → List Arg →
    Option (Byte × Cursor × Spec × List Arg)
  | 0, _, _, _ => none
  | fuel + 1, fmt, spec, ap => do
      let (ch, fmt) ← fmt.next
      match label ch with
      | .minus => reswitch fuel fmt { spec with padc := 45 } ap
      | .zero => reswitch fuel fmt { spec with padc := 48 } ap
      | .digit => do
          let (precision, fmt) ← digits fuel fmt 0 ch.toNat
          let spec := Spec.process { spec with precision := precision }
          reswitch fuel fmt spec ap
      | .star => do
          let (v, ap) ← vaWord ap
          let spec := Spec.process { spec with precision := v.toInt }
          reswitch fuel fmt spec ap
      | .dot =>
          let spec := if spec.width < 0 then { spec with width := 0 } else spec
          reswitch fuel fmt spec ap
      | .sharp => reswitch fuel fmt { spec with altflag := true } ap
      | .long => reswitch fuel fmt { spec with lflag := spec.lflag + 1 } ap
      | _ => return (ch, fmt, spec, ap)

/-! ## The conversions -/

/-- `MAXERROR`. -/
def maxError : Int := 6

def errorString : List (Option CString) :=
  [none,
    some ⟨bytes "unspecified error", by decide, by decide⟩,
    some ⟨bytes "bad process", by decide, by decide⟩,
    some ⟨bytes "invalid parameter", by decide, by decide⟩,
    some ⟨bytes "out of memory", by decide, by decide⟩,
    some ⟨bytes "out of processes", by decide, by decide⟩,
    some ⟨bytes "segmentation fault", by decide, by decide⟩]

/-- `(p = error_string[err])`, or `NULL` where `err` is too large. -/
def errorText (err : Int) : Option (Option CString) :=
  if maxError < err then some none
  else if err < 0 then none
  else errorString[err.toNat]?

def strnlen : List Byte → Nat → Nat
  | [], _ => 0
  | _ :: _, 0 => 0
  | _ :: s, len + 1 => strnlen s len + 1

section Sink

variable {σ : Type} (putch : Int → σ → σ)

/-- The character printed for `ch = *p`. -/
def shown (altflag : Bool) (c : Byte) : Int :=
  if altflag ∧ (c.toInt < 32 ∨ 126 < c.toInt) then 63 else c.toInt

/-- `for (; (ch = *p ++) != '\0' && (precision < 0 || -- precision >= 0); width --)`;
    returns the width that is left. -/
def putChars (altflag : Bool) : List Byte → Int → Int → σ → Int × σ
  | [], width, _, s => (width, s)
  | c :: p, width, precision, s =>
      if precision < 0 then
        putChars altflag p (wrapInt (width - 1)) precision (putch (shown altflag c) s)
      else if 0 ≤ precision - 1 then
        putChars altflag p (wrapInt (width - 1)) (precision - 1)
          (putch (shown altflag c) s)
      else (width, s)

/-- `case 's'`, after `p` has been fetched. -/
def putString (spec : Spec) (p : List Byte) (s : σ) : σ :=
  let (width, s) :=
    if 0 < spec.width ∧ spec.padc ≠ 45 then
      let width := wrapInt
        (spec.width - strnlen p (spec.precision % 2 ^ 32).toNat)
      -- the loop ends at 0 unless the width is not positive to begin with
      (min width 0, putTimes putch spec.padc width.toNat s)
    else (spec.width, s)
  let (width, s) := putChars putch spec.altflag p width spec.precision s
  putTimes putch 32 width.toNat s

/-- The `switch` from the conversions on: the pointer and the arguments to go
    on with, and the sink.  `printfmt` prints a format with its arguments. -/
def convert (printfmt : List Byte → List Arg → σ → Option σ) (fuel : Nat) (ch : Byte)
    (fmt : Cursor) (spec : Spec) (ap : List Arg) (s : σ) :
    Option (Cursor × List Arg × σ) :=
  match label ch with
  | .char => do
      let (v, ap) ← vaWord ap
      return (fmt, ap, putch v.toInt s)
  | .error => do
      let (v, ap) ← vaWord ap
      let err := if v.toInt < 0 then wrapInt (-v.toInt) else v.toInt
      let p ← errorText err
      let s ← match p with
        | none => printfmt (bytes "error %d") [.word (BitVec.ofInt 32 err)] s
        | some p => printfmt (bytes "%s") [.str (some p)] s
      return (fmt, ap, s)
  | .string => do
      let (p, ap) ← vaStr ap
      let p := match p with
        | none => bytes "(null)"
        | some p => p.chars
      return (fmt, ap, putString putch spec p s)
  | .signed => do
      let (num, ap) ← getint ap spec.lflag
      let (num, s) := if num.toInt < 0 then (-num, putch 45 s) else (num, s)
      let s ← printnum putch fuel num 10 spec.width spec.padc s
      return (fmt, ap, s)
  | .unsigned => do
      let (num, ap) ← getuint ap spec.lflag
      let s ← printnum putch fuel num 10 spec.width spec.padc s
      return (fmt, ap, s)
  | .octal => do
      let (num, ap) ← getuint ap spec.lflag
      let s ← printnum putch fuel num 8 spec.width spec.padc s
      return (fmt, ap, s)
  | .pointer => do
      let (v, ap) ← vaWord ap
      let s := putch 120 (putch 48 s)
      let s ← printnum putch fuel (v.setWidth 64) 16 spec.width spec.padc s
      return (fmt, ap, s)
  | .hex => do
      let (num, ap) ← getuint ap spec.lflag
      let s ← printnum putch fuel num 16 spec.width spec.padc s
      return (fmt, ap, s)
  | .percent => return (fmt, ap, putch ch.toNat s)
  | _ => do
      let s := putch 37 s
      let fmt ← fmt.back
      let fmt ← rewind fmt.before fmt.after
      return (fmt, ap, s)

def vprintfmt : Nat → Cursor → List Arg → σ → Option σ
  | 0, _, _, _ => none
  | fuel + 1, fmt, ap, s => do
      let (ch, fmt) ← fmt.next
      if ch = chr '%' then do
        let (ch, fmt, spec, ap) ← reswitch fuel fmt Spec.init ap
        let (fmt, ap, s) ← convert putch
          (fun fmt ap s => vprintfmt fuel (Cursor.start fmt) ap s) fuel ch fmt spec ap s
        vprintfmt fuel fmt ap s
      else if ch = 0 then some s
      else vprintfmt fuel fmt ap (putch ch.toNat s)

end Sink

/-! ## Any sink -/

section Hom

variable {σ τ : Type} {putch : Int → σ → σ} {putch' : Int → τ → τ} {h : σ → τ}
  (hh : ∀ c s, h (putch c s) = putch' c (h s))
include hh

theorem putTimes_hom (c : Int) : ∀ (n : Nat) (s : σ),
    putTimes putch' c n (h s) = h (putTimes putch c n s)
  | 0, _ => rfl
  | n + 1, s => by
      rw [putTimes, ← hh]
      exact putTimes_hom c n (putch c s)

theorem printnum_hom (base : BitVec 32) (padc : Int) {fuel : Nat} :
    ∀ (num : BitVec 64) (width : Int) (s : σ),
      printnum putch' fuel num base width padc (h s)
        = (printnum putch fuel num base width padc s).map h := by
  induction fuel with
  | zero => exact fun _ _ _ => rfl
  | succ fuel ih =>
      intro num width s
      rw [printnum, printnum]
      cases doDiv num base with
      | none => rfl
      | some r =>
          obtain ⟨result, mod⟩ := r
          simp only [Option.bind_eq_bind, Option.bind_some]
          have hrest : ∀ o : Option σ,
              ((o.map h).bind fun s => (hexDigits[mod.toNat]?).bind
                fun digit => some (putch' digit s))
                = (o.bind fun s => (hexDigits[mod.toNat]?).bind
                    fun digit => some (putch digit s)).map h := by
            intro o
            cases o with
            | none => rfl
            | some s =>
                cases hexDigits[mod.toNat]? with
                | none => rfl
                | some digit => exact congrArg some (hh digit s).symm
          split
          · rw [ih]
            exact hrest _
          · rw [putTimes_hom hh]
            exact hrest (some _)

theorem putChars_hom (altflag : Bool) : ∀ (p : List Byte) (width precision : Int) (s : σ),
    putChars putch' altflag p width precision (h s)
      = ((putChars putch altflag p width precision s).1,
          h (putChars putch altflag p width precision s).2) := by
  intro p
  induction p with
  | nil => exact fun _ _ _ => rfl
  | cons c p ih =>
      intro width precision s
      simp only [putChars]
      split
      · rw [← hh, ih]
      · split
        · rw [← hh, ih]
        · rfl

theorem putString_hom (spec : Spec) (p : List Byte) (s : σ) :
    putString putch' spec p (h s) = h (putString putch spec p s) := by
  unfold putString
  by_cases hpad : 0 < spec.width ∧ spec.padc ≠ 45
  · simp only [if_pos hpad, putTimes_hom hh, putChars_hom hh]
  · simp only [if_neg hpad, putTimes_hom hh, putChars_hom hh]

/-- The pointer and the arguments to go on with do not depend on the sink. -/
theorem convert_hom {printfmt : List Byte → List Arg → σ → Option σ}
    {printfmt' : List Byte → List Arg → τ → Option τ}
    (hpf : ∀ fmt ap s, printfmt' fmt ap (h s) = (printfmt fmt ap s).map h)
    (fuel : Nat) (ch : Byte) (fmt : Cursor) (spec : Spec) (ap : List Arg) (s : σ) :
    convert putch' printfmt' fuel ch fmt spec ap (h s)
      = (convert putch printfmt fuel ch fmt spec ap s).map
          fun (fmt, ap, s) => (fmt, ap, h s) := by
  have hnumber : ∀ (num : BitVec 64) (base : BitVec 32) (s : σ) (ap : List Arg),
      ((printnum putch' fuel num base spec.width spec.padc (h s)).bind
        fun s => some (fmt, ap, s))
        = ((printnum putch fuel num base spec.width spec.padc s).bind
            fun s => some (fmt, ap, s)).map fun (fmt, ap, s) => (fmt, ap, h s) := by
    intro num base s ap
    rw [printnum_hom hh]
    cases printnum putch fuel num base spec.width spec.padc s <;> rfl
  unfold convert
  split
  case h_1 => cases vaWord ap <;> simp [hh]
  case h_2 =>
    cases vaWord ap with
    | none => rfl
    | some r =>
        obtain ⟨v, ap⟩ := r
        simp only [Option.bind_eq_bind, Option.bind_some]
        generalize (if v.toInt < 0 then wrapInt (-v.toInt) else v.toInt) = err
        cases errorText err with
        | none => rfl
        | some p =>
            cases p with
            | none =>
                simp only [Option.bind_some, hpf]
                cases printfmt (bytes "error %d") [.word (BitVec.ofInt 32 err)] s <;> rfl
            | some p =>
                simp only [Option.bind_some, hpf]
                cases printfmt (bytes "%s") [.str (some p)] s <;> rfl
  case h_3 => cases vaStr ap <;> simp [putString_hom hh]
  case h_4 =>
    cases getint ap spec.lflag with
    | none => rfl
    | some r =>
        simp only [Option.bind_eq_bind, Option.bind_some]
        split
        · rw [← hh]
          exact hnumber ..
        · exact hnumber ..
  case h_5 =>
    cases getuint ap spec.lflag with
    | none => rfl
    | some r => exact hnumber ..
  case h_6 =>
    cases getuint ap spec.lflag with
    | none => rfl
    | some r => exact hnumber ..
  case h_7 =>
    cases vaWord ap with
    | none => rfl
    | some r =>
        simp only [Option.bind_eq_bind, Option.bind_some, ← hh]
        exact hnumber ..
  case h_8 =>
    cases getuint ap spec.lflag with
    | none => rfl
    | some r => exact hnumber ..
  case h_9 => simp [hh]
  case h_10 =>
    simp only [Option.bind_eq_bind, ← hh]
    cases fmt.back with
    | none => rfl
    | some fmt =>
        simp only [Option.bind_some]
        cases rewind fmt.before fmt.after <;> rfl

theorem vprintfmt_hom {fuel : Nat} : ∀ (fmt : Cursor) (ap : List Arg) (s : σ),
    vprintfmt putch' fuel fmt ap (h s) = (vprintfmt putch fuel fmt ap s).map h := by
  induction fuel with
  | zero => exact fun _ _ _ => rfl
  | succ fuel ih =>
      intro fmt ap s
      rw [vprintfmt, vprintfmt]
      cases fmt.next with
      | none => rfl
      | some r =>
          obtain ⟨ch, fmt⟩ := r
          simp only [Option.bind_eq_bind, Option.bind_some]
          split
          · cases reswitch fuel fmt Spec.init ap with
            | none => rfl
            | some r =>
                obtain ⟨ch, fmt, spec, ap⟩ := r
                simp only [Option.bind_some]
                rw [convert_hom hh fun fmt ap s => ih (Cursor.start fmt) ap s]
                cases convert putch _ fuel ch fmt spec ap s with
                | none => rfl
                | some r => exact ih r.1 r.2.1 r.2.2
          · split
            · rfl
            · rw [← hh]
              exact ih fmt ap (putch ch.toNat s)

end Hom

/-- The sink that keeps the characters it is called with. -/
def record (c : Int) (out : List Int) : List Int := out ++ [c]

theorem putAll_record (l out : List Int) : putAll record l out = out ++ l := by
  induction l generalizing out with
  | nil => exact (List.append_nil out).symm
  | cons c l ih =>
      rw [putAll_cons, ih, record, List.append_assoc]
      rfl

/-- **THE CALLS DO NOT DEPEND ON THE SINK**: with any `putch` the function
    makes the calls that the recording one has seen, in the same order. -/
theorem vprintfmt_record {σ : Type} (putch : Int → σ → σ) (fuel : Nat) (fmt : Cursor)
    (ap : List Arg) (s : σ) :
    vprintfmt putch fuel fmt ap s
      = (vprintfmt record fuel fmt ap []).map fun out => putAll putch out s := by
  refine vprintfmt_hom (h := fun out => putAll putch out s) ?_ fmt ap []
  intro c out
  show putAll putch (out ++ [c]) s = putch c (putAll putch out s)
  exact putAll_append putch out [c] s

end SharixPrintfmt
