import Mathlib.Algebra.Group.Int.Defs
import Mathlib.Algebra.Group.Nat.Defs

/-! # Checked arithmetic — words that must not wrap around

    Every operation computes the word that the machine computes.  A strict one
    has no result where that word is not the exact value, so a strict
    computation with a result has met no wrap-around.  On the words of numbers
    that fit, strict or not, an operation is the one on the numbers. -/

namespace SharixChecked

variable {w : Nat}

/-- The word `a`, unless it has to be the number `x` and is not. -/
def exactly (strict : Bool) (x : Int) (a : BitVec w) : Option (BitVec w) :=
  if strict ∧ x ≠ a.toNat then none else some a

def add (strict : Bool) (a b : BitVec w) : Option (BitVec w) :=
  exactly strict (a.toNat + b.toNat) (a + b)

def sub (strict : Bool) (a b : BitVec w) : Option (BitVec w) :=
  exactly strict (a.toNat - b.toNat) (a - b)

def mul (strict : Bool) (a b : BitVec w) : Option (BitVec w) :=
  exactly strict (a.toNat * b.toNat) (a * b)

def shl (strict : Bool) (a b : BitVec w) : Option (BitVec w) :=
  exactly strict (a.toNat * 2 ^ b.toNat) (a <<< b)

/-- A division by zero faults. -/
def div (a b : BitVec w) : Option (BitVec w) := if b = 0 then none else some (a / b)

def mod (a b : BitVec w) : Option (BitVec w) := if b = 0 then none else some (a % b)

/-- The word of the right number passes, strict or not. -/
theorem exactly_eq (strict : Bool) {n : Nat} {a : BitVec w} (h : a.toNat = n) :
    exactly strict n a = some (BitVec.ofNat w n) := by
  rw [exactly, if_neg (by simp [h]), ← h, BitVec.ofNat_toNat, BitVec.setWidth_eq]

theorem toNat_ofNat_of_lt {n : Nat} (h : n < 2 ^ w) : (BitVec.ofNat w n).toNat = n := by
  rw [BitVec.toNat_ofNat, Nat.mod_eq_of_lt h]

section Words

variable (strict : Bool) {x y : Nat}

/-- A sum that fits. -/
theorem add_ofNat (h : x + y < 2 ^ w) :
    add strict (BitVec.ofNat w x) (BitVec.ofNat w y) = some (BitVec.ofNat w (x + y)) := by
  rw [add, toNat_ofNat_of_lt (by omega), toNat_ofNat_of_lt (by omega)]
  refine exactly_eq strict ?_
  rw [BitVec.toNat_add, toNat_ofNat_of_lt (by omega), toNat_ofNat_of_lt (by omega),
    Nat.mod_eq_of_lt h]

/-- A difference that is not negative. -/
theorem sub_ofNat (hx : x < 2 ^ w) (h : y ≤ x) :
    sub strict (BitVec.ofNat w x) (BitVec.ofNat w y) = some (BitVec.ofNat w (x - y)) := by
  rw [sub, toNat_ofNat_of_lt hx, toNat_ofNat_of_lt (Nat.lt_of_le_of_lt h hx),
    ← Int.ofNat_sub h]
  refine exactly_eq strict ?_
  rw [BitVec.toNat_sub_of_le, toNat_ofNat_of_lt hx,
    toNat_ofNat_of_lt (Nat.lt_of_le_of_lt h hx)]
  rw [BitVec.le_def, toNat_ofNat_of_lt hx, toNat_ofNat_of_lt (Nat.lt_of_le_of_lt h hx)]
  exact h

/-- A product that fits. -/
theorem mul_ofNat (hx : x < 2 ^ w) (hy : y < 2 ^ w) (h : x * y < 2 ^ w) :
    mul strict (BitVec.ofNat w x) (BitVec.ofNat w y) = some (BitVec.ofNat w (x * y)) := by
  rw [mul, toNat_ofNat_of_lt hx, toNat_ofNat_of_lt hy]
  refine exactly_eq strict ?_
  rw [BitVec.toNat_mul, toNat_ofNat_of_lt hx, toNat_ofNat_of_lt hy, Nat.mod_eq_of_lt h]

/-- A shift is a product with a power of two; no bit is pushed out where that
    fits. -/
theorem shl_ofNat (hx : x < 2 ^ w) (hy : y < 2 ^ w) (h : x * 2 ^ y < 2 ^ w) :
    shl strict (BitVec.ofNat w x) (BitVec.ofNat w y)
      = some (BitVec.ofNat w (x * 2 ^ y)) := by
  rw [shl, toNat_ofNat_of_lt hx, toNat_ofNat_of_lt hy]
  refine exactly_eq strict ?_
  rw [BitVec.shiftLeft_eq', BitVec.toNat_shiftLeft, toNat_ofNat_of_lt hx,
    toNat_ofNat_of_lt hy, Nat.shiftLeft_eq, Nat.mod_eq_of_lt h]

theorem ofNat_ne_zero (hy : y < 2 ^ w) (h : 0 < y) : BitVec.ofNat w y ≠ 0 := by
  intro h0
  have h1 := toNat_ofNat_of_lt hy
  rw [h0, BitVec.ofNat_eq_ofNat, BitVec.toNat_ofNat, Nat.zero_mod] at h1
  omega

/-- A quotient always fits; what is asked is a divisor. -/
theorem div_ofNat (hx : x < 2 ^ w) (hy : y < 2 ^ w) (h : 0 < y) :
    div (BitVec.ofNat w x) (BitVec.ofNat w y) = some (BitVec.ofNat w (x / y)) := by
  rw [div, if_neg (ofNat_ne_zero hy h)]
  refine congrArg some (BitVec.eq_of_toNat_eq ?_)
  rw [BitVec.toNat_udiv, toNat_ofNat_of_lt hx, toNat_ofNat_of_lt hy,
    toNat_ofNat_of_lt (Nat.lt_of_le_of_lt (Nat.div_le_self x y) hx)]

/-- And so does a remainder. -/
theorem mod_ofNat (hx : x < 2 ^ w) (hy : y < 2 ^ w) (h : 0 < y) :
    mod (BitVec.ofNat w x) (BitVec.ofNat w y) = some (BitVec.ofNat w (x % y)) := by
  rw [mod, if_neg (ofNat_ne_zero hy h)]
  refine congrArg some (BitVec.eq_of_toNat_eq ?_)
  rw [BitVec.toNat_umod, toNat_ofNat_of_lt hx, toNat_ofNat_of_lt hy,
    toNat_ofNat_of_lt (Nat.lt_of_le_of_lt (Nat.mod_le x y) hx)]

/-- Comparisons of words are those of the numbers. -/
theorem lt_ofNat (hx : x < 2 ^ w) (hy : y < 2 ^ w) :
    BitVec.ofNat w x < BitVec.ofNat w y ↔ x < y := by
  rw [BitVec.lt_def, toNat_ofNat_of_lt hx, toNat_ofNat_of_lt hy]

end Words

end SharixChecked
