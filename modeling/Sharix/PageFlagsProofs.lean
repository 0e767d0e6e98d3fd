import Mathlib.Data.List.Induction

/-! # The flags of a page — `atomic.h`, `memlayout.h`

    `clear_bit` complements the bit, so a flag that is clear is set by clearing
    it.  `SetPageProperty` names the bit of another flag, so it never sets its
    own.  A run of the six macros does what their names say exactly if a flag is
    cleared only where it is set, and `SetPageProperty` is used only where there
    is nothing to do (`flags_right_iff`). -/

namespace SharixPageFlags

abbrev Word := BitVec 32

/-! ## The model -/

/-- `btsl`, which sets a bit. -/
def btsl (nr : Nat) (w : Word) : Word := w ||| BitVec.twoPow 32 nr

/-- `btcl`, which complements a bit. -/
def btcl (nr : Nat) (w : Word) : Word := w ^^^ BitVec.twoPow 32 nr

/-- `btl`, which reads a bit. -/
def btl (nr : Nat) (w : Word) : Bool := w.getLsbD nr

def setBit (nr : Nat) (w : Word) : Word := btsl nr w

def clearBit (nr : Nat) (w : Word) : Word := btcl nr w

def testBit (nr : Nat) (w : Word) : Bool := btl nr w

def PG_reserved : Nat := 0
def PG_property : Nat := 1
def PG_slab : Nat := 2

def SetPageReserved (flags : Word) : Word := setBit PG_reserved flags
def ClearPageReserved (flags : Word) : Word := clearBit PG_reserved flags
def PageReserved (flags : Word) : Bool := testBit PG_reserved flags

def SetPageSlab (flags : Word) : Word := setBit PG_slab flags
def ClearPageSlab (flags : Word) : Word := clearBit PG_slab flags
def PageSlab (flags : Word) : Bool := testBit PG_slab flags

def SetPageProperty (flags : Word) : Word := setBit PG_reserved flags
def ClearPageProperty (flags : Word) : Word := clearBit PG_property flags
def PageProperty (flags : Word) : Bool := testBit PG_property flags

inductive Flag where
  | reserved
  | property
  | slab
deriving DecidableEq

/-- `PageX`. -/
def page : Flag → Word → Bool
  | .reserved => PageReserved
  | .property => PageProperty
  | .slab => PageSlab

/-- `SetPageX` and `ClearPageX`. -/
inductive FlagOp where
  | set (X : Flag)
  | clear (X : Flag)

def FlagOp.flag : FlagOp → Flag
  | .set X | .clear X => X

/-- What the flag is to be afterwards. -/
def FlagOp.value : FlagOp → Bool
  | .set _ => true
  | .clear _ => false

def FlagOp.apply : FlagOp → Word → Word
  | .set .reserved => SetPageReserved
  | .set .property => SetPageProperty
  | .set .slab => SetPageSlab
  | .clear .reserved => ClearPageReserved
  | .clear .property => ClearPageProperty
  | .clear .slab => ClearPageSlab

/-- The flags of the page after some operations. -/
def flagRun (flags : Word) (ops : List FlagOp) : Word :=
  ops.foldl (fun flags op => op.apply flags) flags

/-! ## What the names say -/

/-- The last operation on the flag decides; without one it is as at first. -/
def expected (X : Flag) (initially : Bool) (ops : List FlagOp) : Bool :=
  ((ops.filter fun op => op.flag = X).getLast?.map FlagOp.value).getD initially

/-- After every operation each flag is as the last operation on it says, and the
    operation has changed no other flag. -/
def Right (flags : Word) (ops : List FlagOp) : Prop :=
  ∀ before op after, ops = before ++ op :: after →
    (∀ X, page X (flagRun flags (before ++ [op]))
      = expected X (page X flags) (before ++ [op])) ∧
    ∀ X, X ≠ op.flag →
      page X (flagRun flags (before ++ [op])) = page X (flagRun flags before)

/-- The operations that do on the flags what their names say. -/
def Fine (flags : Word) : FlagOp → Prop
  | .set .property => PageProperty flags ∧ PageReserved flags
  | .set _ => True
  | .clear X => page X flags

/-- All operations are fine, each on the flags it finds. -/
def FineRun (flags : Word) (ops : List FlagOp) : Prop :=
  ∀ before op after, ops = before ++ op :: after → Fine (flagRun flags before) op

/-! ## One operation -/

/-- `set_bit` sets its bit and no other. -/
theorem testBit_setBit {nr : Nat} (hnr : nr < 32) (i : Nat) (w : Word) :
    testBit i (setBit nr w) = (testBit i w || decide (nr = i)) := by
  show (w ||| BitVec.twoPow 32 nr).getLsbD i = _
  rw [BitVec.getLsbD_or, BitVec.getLsbD_twoPow, decide_eq_true hnr, Bool.true_and]
  rfl

/-- `clear_bit` turns its bit over, whatever it was. -/
theorem testBit_clearBit {nr : Nat} (hnr : nr < 32) (i : Nat) (w : Word) :
    testBit i (clearBit nr w) = (testBit i w ^^ decide (nr = i)) := by
  show (w ^^^ BitVec.twoPow 32 nr).getLsbD i = _
  rw [BitVec.getLsbD_xor, BitVec.getLsbD_twoPow, decide_eq_true hnr, Bool.true_and]
  rfl

/-- The bit of a flag, and the one that setting it sets. -/
def Flag.nr : Flag → Nat
  | .reserved => PG_reserved
  | .property => PG_property
  | .slab => PG_slab

def Flag.setNr : Flag → Nat
  | .reserved => PG_reserved
  | .property => PG_reserved
  | .slab => PG_slab

/-- The macros, by the bit they name. -/
theorem set_bits (X : Flag) (flags : Word) (i : Nat) :
    testBit i ((FlagOp.set X).apply flags) = (testBit i flags || decide (X.setNr = i)) := by
  cases X <;> exact testBit_setBit (by decide) i flags

theorem clear_bits (X : Flag) (flags : Word) (i : Nat) :
    testBit i ((FlagOp.clear X).apply flags) = (testBit i flags ^^ decide (X.nr = i)) := by
  cases X <;> exact testBit_clearBit (by decide) i flags

theorem page_eq (X : Flag) (flags : Word) : page X flags = testBit X.nr flags := by
  cases X <;> rfl

/-- The bits that are no flags are never changed. -/
theorem apply_frame (op : FlagOp) (flags : Word) {i : Nat} (hi : 3 ≤ i) :
    testBit i (op.apply flags) = testBit i flags := by
  cases op with
  | set X =>
      have hne : X.setNr ≠ i := by
        cases X <;> exact Nat.ne_of_lt (Nat.lt_of_lt_of_le (by decide) hi)
      rw [set_bits, decide_eq_false hne, Bool.or_false]
  | clear X =>
      have hne : X.nr ≠ i := by
        cases X <;> exact Nat.ne_of_lt (Nat.lt_of_lt_of_le (by decide) hi)
      rw [clear_bits, decide_eq_false hne, Bool.xor_false]

/-- The flags have bits of their own. -/
theorem Flag.nr_ne {X Y : Flag} (h : X ≠ Y) : X.nr ≠ Y.nr := by
  cases X <;> cases Y <;> first | exact absurd rfl h | decide

/-- An operation is fine exactly if it gives its flag the value of its name and
    leaves the others alone. -/
theorem fine_iff (flags : Word) (op : FlagOp) :
    Fine flags op ↔ page op.flag (op.apply flags) = op.value ∧
      ∀ X, X ≠ op.flag → page X (op.apply flags) = page X flags := by
  cases op with
  | clear X =>
      have hself : page X ((FlagOp.clear X).apply flags) = !page X flags := by
        rw [page_eq, clear_bits, page_eq, decide_eq_true rfl, Bool.xor_true]
      have hothers : ∀ Y, Y ≠ X → page Y ((FlagOp.clear X).apply flags) = page Y flags := by
        intro Y hY
        rw [page_eq, clear_bits, page_eq, decide_eq_false (Flag.nr_ne hY.symm), Bool.xor_false]
      constructor
      · intro hset
        have hset : page X flags = true := hset
        refine ⟨hself.trans ?_, hothers⟩
        rw [hset]
        rfl
      · rintro ⟨hclear, -⟩
        have hclear : (!page X flags) = false := hself.symm.trans hclear
        exact (Bool.not_eq_false' ..).mp hclear
  | set X =>
      by_cases hX : X = .property
      · -- the bit that is set is that of another flag
        subst hX
        have hself : page .property ((FlagOp.set .property).apply flags)
            = page .property flags := by
          rw [page_eq, set_bits, page_eq, decide_eq_false (by decide), Bool.or_false]
        have hreserved : page .reserved ((FlagOp.set .property).apply flags) = true := by
          rw [page_eq, set_bits]
          exact Bool.or_true _
        constructor
        · rintro ⟨hp, hr⟩
          refine ⟨hself.trans hp, fun Y hY => ?_⟩
          cases Y with
          | reserved => exact hreserved.trans hr.symm
          | property => exact absurd rfl hY
          | slab =>
              rw [page_eq, set_bits, page_eq, decide_eq_false (by decide), Bool.or_false]
        · rintro ⟨hp, hothers⟩
          exact ⟨hself.symm.trans hp, (hothers .reserved (by decide)).symm.trans hreserved⟩
      · have hnr : X.setNr = X.nr := by
          cases X <;> first | rfl | exact absurd rfl hX
        have hfine : Fine flags (.set X) := by
          cases X with
          | property => exact absurd rfl hX
          | reserved | slab => trivial
        refine iff_of_true hfine ⟨?_, fun Y hY => ?_⟩
        · show page X _ = true
          rw [page_eq, set_bits, hnr, decide_eq_true rfl, Bool.or_true]
        · have hY : Y ≠ X := hY
          rw [page_eq, set_bits, hnr, page_eq, decide_eq_false (Flag.nr_ne hY.symm),
            Bool.or_false]

/-! ## Runs -/

theorem flagRun_concat (flags : Word) (ops : List FlagOp) (op : FlagOp) :
    flagRun flags (ops ++ [op]) = op.apply (flagRun flags ops) :=
  List.foldl_append

theorem expected_concat (X : Flag) (initially : Bool) (ops : List FlagOp) (op : FlagOp) :
    expected X initially (ops ++ [op])
      = if op.flag = X then op.value else expected X initially ops := by
  rw [expected, List.filter_append]
  by_cases hX : op.flag = X
  · rw [if_pos hX, List.filter_cons_of_pos (by simpa using hX), List.filter_nil,
      List.getLast?_concat]
    rfl
  · rw [if_neg hX, List.filter_cons_of_neg (by simpa using hX), List.filter_nil, List.append_nil]
    rfl

/-- **WHAT THE NAMES SAY**: in a run of the macros every operation leaves all
    flags as the last operation on each says, and no other flag changed, exactly
    if every clear finds its flag set and every `SetPageProperty` finds its flag
    set, and the one whose bit it names. -/
theorem flags_right_iff (flags : Word) (ops : List FlagOp) :
    Right flags ops ↔ FineRun flags ops := by
  constructor
  · intro hright before op after heq
    obtain ⟨hvalues, hothers⟩ := hright before op after heq
    rw [flagRun_concat] at hvalues hothers
    refine (fine_iff _ op).mpr ⟨?_, hothers⟩
    rw [hvalues, expected_concat, if_pos rfl]
  · intro hfine
    have hvalues : ∀ before after, ops = before ++ after →
        ∀ X, page X (flagRun flags before) = expected X (page X flags) before := by
      intro before
      induction before using List.reverseRecOn with
      | nil => exact fun _ _ _ => rfl
      | append_singleton before op ih =>
          intro after heq X
          rw [List.append_assoc] at heq
          obtain ⟨hself, hothers⟩ := (fine_iff _ op).mp (hfine before op after heq)
          rw [flagRun_concat, expected_concat]
          by_cases hX : op.flag = X
          · rw [if_pos hX, ← hX, hself]
          · rw [if_neg hX, hothers X (Ne.symm hX)]
            exact ih _ heq X
    intro before op after heq
    refine ⟨hvalues (before ++ [op]) after (by rw [heq, List.append_assoc]; rfl), ?_⟩
    rw [flagRun_concat]
    exact ((fine_iff _ op).mp (hfine before op after heq)).2

/-- Not every run is right: the first clear sets the flag. -/
theorem not_flags_right : ¬ ∀ flags ops, Right flags ops := by
  intro h
  have hclear := (h 0 [.clear .slab] [] (.clear .slab) [] rfl).1 .slab
  exact absurd hclear (by decide)

end SharixPageFlags
