import Sharix.PrintfmtProofs
import Mathlib.Data.List.TakeWhile

/-! # The pieces of a format

    A format is a sequence of plain characters and `%`-sequences.  A sequence is
    a `%`, the longest run of flag, width and precision characters, and one more
    character, which is a conversion or not; the `NUL` can cut it short.

    No character of that run is a `%`, and an unrecognised character is none
    either.  So the way back from it ends at the `%` of its own sequence, and
    what is read again from there on is printed as it stands: the run goes on
    behind the sequence, with the arguments that its stars have taken gone. -/

namespace SharixPrintfmt

/-! ## The grammar -/

/-- A character that `reswitch` takes in and goes on. -/
def Label.isFlag : Label → Bool
  | .minus | .zero | .digit | .star | .dot | .sharp | .long => true
  | _ => false

def isFlag (c : Byte) : Bool := (label c).isFlag

/-- A piece of a format. -/
inductive Piece where
  | text (c : Byte)
  | conv (flags : List Byte) (c : Byte)
  | bad (flags : List Byte) (c : Byte)
  | cut (flags : List Byte)

def Piece.bytes : Piece → List Byte
  | .text c => [c]
  | .conv flags c | .bad flags c => chr '%' :: flags ++ [c]
  | .cut flags => chr '%' :: flags

/-- The pieces of a format. -/
def pieces : List Byte → List Piece
  | [] => []
  | c :: f =>
      if c = chr '%' then
        match _h : f.dropWhile isFlag with
        | [] => [.cut (f.takeWhile isFlag)]
        | c :: f' =>
            (if label c = .other then .bad (f.takeWhile isFlag) c
              else .conv (f.takeWhile isFlag) c) :: pieces f'
      else .text c :: pieces f
termination_by f => f.length
decreasing_by
  · have h1 := (List.dropWhile_sublist (l := f) isFlag).length_le
    rw [_h] at h1
    simp only [List.length_cons] at h1 ⊢
    omega
  · simp

theorem pieces_text {c : Byte} (hc : c ≠ chr '%') (f : List Byte) :
    pieces (c :: f) = .text c :: pieces f := by
  rw [pieces, if_neg hc]

/-- A sequence with its run of flags. -/
theorem pieces_sequence {flags f : List Byte} {c : Byte}
    (hflags : ∀ x ∈ flags, isFlag x) (hc : ¬ isFlag c) :
    pieces (chr '%' :: (flags ++ c :: f))
      = (if label c = .other then .bad flags c else .conv flags c) :: pieces f := by
  have htake : (flags ++ c :: f).takeWhile isFlag = flags := by
    rw [List.takeWhile_append_of_pos hflags, List.takeWhile_cons_of_neg (by simpa using hc),
      List.append_nil]
  have hdrop : (flags ++ c :: f).dropWhile isFlag = c :: f := by
    rw [List.dropWhile_append_of_pos hflags, List.dropWhile_cons_of_neg (by simpa using hc)]
  rw [pieces, if_pos rfl]
  split
  · rename_i h
    rw [hdrop] at h
    cases h
  · rename_i h
    rw [hdrop] at h
    obtain ⟨rfl, rfl⟩ := List.cons.inj h
    rw [htake]

theorem pieces_cut {flags : List Byte} (hflags : ∀ x ∈ flags, isFlag x) :
    pieces (chr '%' :: flags) = [.cut flags] := by
  have htake : flags.takeWhile isFlag = flags := List.takeWhile_eq_self_iff.mpr hflags
  have hdrop : flags.dropWhile isFlag = [] := List.dropWhile_eq_nil_iff.mpr hflags
  rw [pieces, if_pos rfl]
  split
  · rw [htake]
  · rename_i h
    rw [hdrop] at h
    cases h

/-- A format is empty, or begins with a character or a sequence. -/
theorem format_cases (f : List Byte) :
    f = [] ∨ (∃ c f', f = c :: f' ∧ c ≠ chr '%') ∨
      (∃ flags, f = chr '%' :: flags ∧ ∀ x ∈ flags, isFlag x) ∨
      ∃ flags c f', f = chr '%' :: (flags ++ c :: f') ∧ (∀ x ∈ flags, isFlag x) ∧
        ¬ isFlag c := by
  cases f with
  | nil => exact .inl rfl
  | cons c f =>
      refine .inr ?_
      by_cases hc : c = chr '%'
      · subst hc
        have hsplit : f.takeWhile isFlag ++ f.dropWhile isFlag = f :=
          List.takeWhile_append_dropWhile
        have hall : ∀ x ∈ f.takeWhile isFlag, isFlag x := fun x hx =>
          List.mem_takeWhile_imp hx
        refine .inr ?_
        cases hd : f.dropWhile isFlag with
        | nil =>
            rw [hd, List.append_nil] at hsplit
            exact .inl ⟨f, rfl, hsplit ▸ hall⟩
        | cons c f' =>
            refine .inr ⟨f.takeWhile isFlag, c, f', by rw [← hd, hsplit], hall, ?_⟩
            have := List.head_dropWhile_not isFlag (l := f) (by simp [hd])
            simpa [hd] using this
      · exact .inl ⟨c, f, rfl, hc⟩

/-- The pieces are the format. -/
theorem pieces_bytes : ∀ f : List Byte, (pieces f).flatMap Piece.bytes = f := by
  intro f
  induction hn : f.length using Nat.strong_induction_on generalizing f with
  | _ n ih =>
      subst hn
      rcases format_cases f with rfl | ⟨c, f', rfl, hc⟩ | ⟨flags, rfl, hflags⟩ |
        ⟨flags, c, f', rfl, hflags, hc⟩
      · rw [pieces]
        rfl
      · rw [pieces_text hc, List.flatMap_cons, ih f'.length (by simp) f' rfl]
        rfl
      · rw [pieces_cut hflags]
        simp [Piece.bytes]
      · rw [pieces_sequence hflags hc, List.flatMap_cons,
          ih f'.length (by simp; omega) f' rfl]
        split <;> simp [Piece.bytes]

/-! ## The arguments a format asks for -/

/-- The kind of an argument; an error code is not `INT_MIN`. -/
inductive Kind where
  | word
  | dword
  | str
  | error
deriving DecidableEq

/-- One `int` for every star. -/
def starKinds (flags : List Byte) : List Kind :=
  List.replicate (flags.countP fun c => label c = .star) .word

def longs (flags : List Byte) : Nat := flags.countP fun c => label c = .long

/-- The argument of the conversion `c`. -/
def convKinds (flags : List Byte) (c : Byte) : List Kind :=
  match label c with
  | .char | .pointer => [.word]
  | .error => [.error]
  | .string => [.str]
  | .signed | .unsigned | .octal | .hex =>
      if 2 ≤ longs flags then [.dword] else [.word]
  | _ => []

def Piece.kinds : Piece → List Kind
  | .text _ => []
  | .bad flags _ | .cut flags => starKinds flags
  | .conv flags c => starKinds flags ++ convKinds flags c

/-- The arguments begin with these kinds. -/
inductive Fits : List Kind → List Arg → Prop where
  | nil (ap : List Arg) : Fits [] ap
  | word {ks : List Kind} {ap : List Arg} (v : BitVec 32) :
      Fits ks ap → Fits (.word :: ks) (.word v :: ap)
  | dword {ks : List Kind} {ap : List Arg} (v : BitVec 64) :
      Fits ks ap → Fits (.dword :: ks) (.dword v :: ap)
  | str {ks : List Kind} {ap : List Arg} (p : Option CString) :
      Fits ks ap → Fits (.str :: ks) (.str p :: ap)
  | error {ks : List Kind} {ap : List Arg} {v : BitVec 32} :
      v.toInt ≠ -2 ^ 31 → Fits ks ap → Fits (.error :: ks) (.word v :: ap)

/-- The characters, as `putch` gets them. -/
def codes (l : List Byte) : List Int := l.map fun c => (c.toNat : Int)

/-- What the pieces of a format print: characters and unrecognised or cut
    sequences as they stand, a conversion as it does alone. -/
inductive Rendered : List Piece → List Arg → List Int → Prop where
  | nil (ap : List Arg) : Rendered [] ap []
  | text {c : Byte} {ps : List Piece} {ap : List Arg} {out : List Int} :
      Rendered ps ap out → Rendered (.text c :: ps) ap (c.toNat :: out)
  | bad {flags : List Byte} {c : Byte} {ps : List Piece} {ap : List Arg}
      {out : List Int} :
      Rendered ps (ap.drop (starKinds flags).length) out →
      Rendered (.bad flags c :: ps) ap
        (codes (Piece.bad flags c).bytes ++ out)
  | cut {flags : List Byte} (ap : List Arg) :
      Rendered [.cut flags] ap (codes (Piece.cut flags).bytes)
  | conv {flags : List Byte} {c : Byte} {ps : List Piece} {ap : List Arg}
      {o out : List Int} :
      (∃ n, ∀ fuel, n < fuel → vprintfmt record fuel
        (Cursor.start (Piece.conv flags c).bytes) ap [] = some o) →
      Rendered ps (ap.drop (Piece.conv flags c).kinds.length) out →
      Rendered (.conv flags c :: ps) ap (o ++ out)

end SharixPrintfmt
