import Mathlib.Algebra.Group.Int.Defs
import Mathlib.Algebra.Group.Nat.Defs
import Mathlib.Tactic.ByContra
import Mathlib.Tactic.SplitIfs

/-! # Numbers of single precision

    Lean's own model of the numbers of single precision keeps them packed in
    thirty-two bits; an operation unpacks them, computes and packs the result.
    An integer of thirty-two bits is rounded to a normal number, which is packed
    and unpacked again without change (`Normal.unpack_pack`), and which is the
    integer `nearest` says (`leInt_ofInt`).

    Where a number of single precision meets an integer in an x87 unit, the
    integer is not rounded: `leInt` is the comparison and `divInt` the quotient
    there. -/

namespace SharixFloat

open Float.Model
open Float.Model.UnpackedFloat

/-! ## Integers and numbers of single precision -/

/-- `n / 2 ^ k`, to the nearest, and half way to the even one. -/
def roundEven (n k : Nat) : Nat :=
  if 2 * (n % 2 ^ k) < 2 ^ k then n / 2 ^ k
  else if 2 ^ k < 2 * (n % 2 ^ k) then n / 2 ^ k + 1
  else n / 2 ^ k + n / 2 ^ k % 2

/-- The bits behind the twenty-fourth. -/
def extraBits (n : Int) : Nat := n.natAbs.log2 - 23

/-- The integer that `n` is rounded to. -/
def nearest (n : Int) : Int :=
  n.sign * (roundEven n.natAbs (extraBits n) * 2 ^ extraBits n : Nat)

/-- An integer as it is. -/
def exactInt (n : Int) : UnpackedFloat :=
  if h : n = 0 then .zero .positive
  else .finite (if n < 0 then .negative else .positive) n.natAbs 0 (Int.natAbs_pos.mpr h)

/-- `t ≤ n`, compared as they are. -/
def leInt (t : Float32.Model) (n : Int) : Bool :=
  match t.unpack with
  | .notANumber => false
  | .infinity .positive => false
  | .infinity .negative => true
  | .zero _ => 0 ≤ n
  | .finite .positive m e _ => (m * 2 ^ e.toNat : Nat) ≤ n * 2 ^ (-e).toNat
  | .finite .negative m e _ => -(m * 2 ^ e.toNat : Nat) ≤ n * 2 ^ (-e).toNat

/-- `n / k`, rounded as it is stored.  The unit has rounded it to sixty-four bits
    before, which changes nothing for integers of thirty-two. -/
def divInt (n k : Int) : Float32.Model := .pack (.div .binary32 (exactInt n) (exactInt k))

/-! ## Rounding -/

/-- The two bits behind the mantissa are those of the remainder. -/
structure Shifted (m k : Nat) (em : ExtendedMantissa) : Prop where
  mantissa : em.mantissa = m / 2 ^ k
  round : em.roundBit = true ↔ 2 ^ k ≤ 2 * (m % 2 ^ k)
  sticky : em.stickyBit = true ↔ 2 * (m % 2 ^ k) ≠ 0 ∧ 2 * (m % 2 ^ k) ≠ 2 ^ k

/-- By induction on the shift: each step takes the bit it drops for the next one,
    and gathers the last one. -/
theorem shifted (m k : Nat) : Shifted m k (ExtendedMantissa.mk m false false >>> k) := by
  induction k with
  | zero =>
      refine ⟨(Nat.div_one m).symm, ?_, ?_⟩
      · show false = true ↔ 2 ^ 0 ≤ 2 * (m % 2 ^ 0)
        simp [Nat.mod_one]
      · show false = true ↔ 2 * (m % 2 ^ 0) ≠ 0 ∧ _
        simp [Nat.mod_one]
  | succ k ih =>
      obtain ⟨hm, hround, hsticky⟩ := ih
      have hmod := Nat.mod_pow_succ (x := m) (b := 2) (k := k)
      have hlt := Nat.mod_lt m (Nat.two_pow_pos k)
      have hpow := Nat.pow_succ (n := 2) (m := k)
      refine ⟨?_, ?_, ?_⟩
      · show (ExtendedMantissa.mk m false false >>> k).mantissa / 2 = _
        rw [hm, Nat.div_div_eq_div_mul, ← hpow]
      · show ((ExtendedMantissa.mk m false false >>> k).mantissa % 2 != 0) = true ↔ _
        rw [hm, bne_iff_ne, hmod]
        rcases Nat.mod_two_eq_zero_or_one (m / 2 ^ k) with hbit | hbit
        · rw [hbit]
          omega
        · rw [hbit]
          omega
      · show ((ExtendedMantissa.mk m false false >>> k).roundBit ||
          (ExtendedMantissa.mk m false false >>> k).stickyBit) = true ↔ _
        rw [Bool.or_eq_true, hround, hsticky, hmod]
        rcases Nat.mod_two_eq_zero_or_one (m / 2 ^ k) with hbit | hbit
        · rw [hbit]
          omega
        · rw [hbit]
          omega

/-- The library rounds by the two bits; they tell below, above and half way apart. -/
theorem Shifted.rounded {m k : Nat} {em : ExtendedMantissa} (h : Shifted m k em) :
    em.roundedMantissa = roundEven m k := by
  obtain ⟨hm, hround, hsticky⟩ := h
  obtain ⟨q, round, sticky⟩ := em
  dsimp only at hm hround hsticky
  subst hm
  have hpos := Nat.two_pow_pos k
  rw [roundEven]
  cases round <;> cases sticky
  · have : 2 * (m % 2 ^ k) < 2 ^ k := by simpa using hround
    rw [if_pos this]
    rfl
  · have : 2 * (m % 2 ^ k) < 2 ^ k := by simpa using hround
    rw [if_pos this]
    rfl
  · have h1 : 2 ^ k ≤ 2 * (m % 2 ^ k) := hround.mp rfl
    have h2 : 2 * (m % 2 ^ k) = 2 ^ k := by
      by_contra hne
      exact Bool.false_ne_true (hsticky.mpr ⟨by omega, hne⟩)
    rw [if_neg (by omega), if_neg (by omega)]
    rfl
  · have h1 : 2 ^ k ≤ 2 * (m % 2 ^ k) := hround.mp rfl
    have h2 := (hsticky.mp rfl).2
    rw [if_neg (by omega), if_pos (by omega)]
    rfl

theorem roundEven_bounds (m k : Nat) :
    m / 2 ^ k ≤ roundEven m k ∧ roundEven m k ≤ m / 2 ^ k + 1 := by
  rw [roundEven]
  split_ifs <;> omega

theorem roundEven_zero (m : Nat) : roundEven m 0 = m := by
  rw [roundEven, Nat.pow_zero, Nat.mod_one, if_pos (by decide), Nat.div_one]

/-- In single precision: twenty-four bits, and the exponent of no special value;
    here for the integer `v`. -/
inductive Normal (s : Sign) (v : Nat) : UnpackedFloat → Prop
  | intro (m : Nat) (e : Int) (hpos : 0 < m) (hlow : 2 ^ 23 ≤ m) (hhigh : m < 2 ^ 24)
      (he : -149 ≤ e) (he' : e ≤ 104) (hv : m * 2 ^ e.toNat = v * 2 ^ (-e).toNat) :
      Normal s v (.finite s m e hpos)

/-- A number between two powers of two. -/
theorem log2_eq {m k : Nat} (hlow : 2 ^ k ≤ m) (hhigh : m < 2 ^ (k + 1)) : m.log2 = k := by
  have hpos : m ≠ 0 := Nat.ne_of_gt (Nat.lt_of_lt_of_le (Nat.two_pow_pos k) hlow)
  exact Nat.le_antisymm (Nat.le_of_lt_succ ((Nat.log2_lt hpos).mpr hhigh))
    ((Nat.le_log2 hpos).mpr hlow)

/-- The mantissa is cut down to twenty-four bits. -/
theorem shiftToTarget (m : Nat) (e : Int) {k : Nat} (hlow : 2 ^ (23 + k) ≤ m)
    (hhigh : m < 2 ^ (23 + k + 1)) (he : -149 ≤ e + k) :
    ∃ em, shiftToTargetExponent .binary32 m e .exact = (em, e + k) ∧ Shifted m k em := by
  have htarget : Format.binary32.targetExponent (totalExponent m e) = e + k := by
    show max ((m.log2 : Int) + 1 + e - 24) (-149) = e + k
    rw [log2_eq hlow hhigh]
    omega
  refine ⟨ExtendedMantissa.mk m false false >>> k, ?_, shifted m k⟩
  show (ExtendedMantissa.mk m false false >>>
      (Format.binary32.targetExponent (totalExponent m e) - e).toNat, _) = _
  rw [htarget, show (e + (k : Int) - e).toNat = k by omega]

theorem div_two_pow_bounds {m k : Nat} (hlow : 2 ^ (23 + k) ≤ m) (hhigh : m < 2 ^ (23 + k + 1)) :
    2 ^ 23 ≤ m / 2 ^ k ∧ m / 2 ^ k < 2 ^ 24 := by
  constructor
  · rw [Nat.le_div_iff_mul_le (Nat.two_pow_pos k), ← Nat.pow_add]
    exact hlow
  · rw [Nat.div_lt_iff_lt_mul (Nat.two_pow_pos k), ← Nat.pow_add]
    rwa [Nat.add_right_comm] at hhigh

/-- The two shifts of a rounding. -/
theorem roundWithAccuracy_eq {spec : Format} {s : Sign} {m : Nat} {e e₁ e₂ : Int}
    {acc : Accuracy} {em₁ em₂ : ExtendedMantissa}
    (h₁ : shiftToTargetExponent spec m e acc = (em₁, e₁))
    (h₂ : shiftToTargetExponent spec em₁.roundedMantissa e₁ .exact = (em₂, e₂))
    (hpos : 0 < em₂.mantissa) :
    roundWithAccuracy spec s m e acc = .finite s em₂.mantissa e₂ hpos := by
  unfold roundWithAccuracy
  rw [h₁]
  show (match shiftToTargetExponent spec em₁.roundedMantissa e₁ .exact with
    | (em, e) => if h : em.mantissa = 0 then UnpackedFloat.zero s
      else .finite s em.mantissa e (Nat.pos_of_ne_zero h)) = _
  rw [h₂]
  exact dif_neg (Nat.ne_of_gt hpos)

/-- Half the mantissa, and the next exponent. -/
theorem half_mantissa {c v : Nat} {e : Int} (h : c * 2 * 2 ^ e.toNat = v * 2 ^ (-e).toNat) :
    c * 2 ^ (e + 1).toNat = v * 2 ^ (-(e + 1)).toNat := by
  rcases Int.lt_or_le e 0 with hneg | hnonneg
  · have hexp : (-e).toNat = (-(e + 1)).toNat + 1 := by omega
    rw [show e.toNat = 0 by omega, hexp, Nat.pow_succ, ← Nat.mul_assoc] at h
    rw [show (e + 1).toNat = 0 by omega]
    omega
  · have hexp : (e + 1).toNat = e.toNat + 1 := by omega
    rw [show (-(e + 1)).toNat = 0 by omega, hexp, Nat.pow_succ, Nat.mul_comm (2 ^ e.toNat),
      ← Nat.mul_assoc, h, show (-e).toNat = 0 by omega]

/-- A rounding to twenty-four bits.  The library shifts twice, as the first one may
    carry over to twenty-five. -/
theorem roundWithAccuracy_normal (s : Sign) {m v : Nat} {e : Int} {k : Nat}
    (hlow : 2 ^ (23 + k) ≤ m) (hhigh : m < 2 ^ (23 + k + 1)) (he : -149 ≤ e + k)
    (he' : e + k ≤ 103)
    (hv : roundEven m k * 2 ^ (e + k).toNat = v * 2 ^ (-(e + k)).toNat) :
    Normal s v (roundWithAccuracy .binary32 s m e .exact) := by
  obtain ⟨em₁, hfirst, hem₁⟩ := shiftToTarget m e hlow hhigh he
  obtain ⟨hlow₁, hhigh₁⟩ := div_two_pow_bounds hlow hhigh
  obtain ⟨hle, hge⟩ := roundEven_bounds m k
  rw [← hem₁.rounded] at hle hge hv
  rcases Nat.lt_or_ge em₁.roundedMantissa (2 ^ 24) with hr | hr
  · obtain ⟨em₂, hsecond, hem₂⟩ := @shiftToTarget em₁.roundedMantissa (e + k) 0 (by omega)
      (by omega) (by omega)
    have hm₂ : em₂.mantissa = em₁.roundedMantissa := hem₂.mantissa.trans (Nat.div_one _)
    rw [roundWithAccuracy_eq hfirst hsecond (by omega)]
    refine .intro _ _ _ (by omega) (by omega) (by omega) (by omega) ?_
    rw [hm₂, Int.natCast_zero, Int.add_zero]
    exact hv
  · -- rounded up to the next power of two
    obtain ⟨em₂, hsecond, hem₂⟩ := @shiftToTarget em₁.roundedMantissa (e + k) 1 (by omega)
      (by omega) (by omega)
    have hm₁ : em₁.roundedMantissa = 2 ^ 23 * 2 := by omega
    have hm₂ : em₂.mantissa = 2 ^ 23 := by
      rw [hem₂.mantissa, hm₁]
      rfl
    rw [roundWithAccuracy_eq hfirst hsecond (by omega)]
    refine .intro _ _ _ (by omega) (by omega) (by omega) (by omega) ?_
    rw [hm₁] at hv
    rw [hm₂]
    exact half_mantissa hv

/-- A positive number of thirty-two bits is rounded to a normal one. -/
theorem round_normal (s : Sign) {n : Nat} (hpos : 0 < n) (hn : n < 2 ^ 32) :
    Normal s (roundEven n (n.log2 - 23) * 2 ^ (n.log2 - 23))
      (UnpackedFloat.round .binary32 s n 0) := by
  obtain ⟨k, hlow, hhigh⟩ : ∃ k, 2 ^ k ≤ n ∧ n < 2 ^ (k + 1) :=
    ⟨n.log2, Nat.log2_self_le (Nat.ne_of_gt hpos), Nat.lt_log2_self⟩
  have hk : k < 32 := (Nat.pow_lt_pow_iff_right (by decide)).mp (Nat.lt_of_le_of_lt hlow hn)
  have htarget : Format.binary32.targetExponent (totalExponent n 0) = (k : Int) - 23 := by
    show max ((n.log2 : Int) + 1 + 0 - 24) (-149) = (k : Int) - 23
    rw [log2_eq hlow hhigh]
    omega
  show Normal s _ (roundWithAccuracy .binary32 s
    (n <<< (0 - Format.binary32.targetExponent (totalExponent n 0)).toNat)
    (0 - (0 - Format.binary32.targetExponent (totalExponent n 0)).toNat : Int) .exact)
  rw [htarget, Nat.shiftLeft_eq, log2_eq hlow hhigh]
  -- up to twenty-four bits the mantissa is shifted left and exact
  rcases Nat.lt_or_ge k 23 with hsmall | hlarge
  · have hshift : (0 - ((k : Int) - 23)).toNat = 23 - k := by omega
    rw [hshift, show k - 23 = 0 by omega, roundEven_zero]
    have hexp : 23 + 0 = k + (23 - k) := by omega
    have hexp' : 23 + 0 + 1 = k + 1 + (23 - k) := by omega
    refine @roundWithAccuracy_normal s _ _ _ 0 ?_ ?_ (by omega) (by omega) ?_
    · rw [hexp, Nat.pow_add]
      exact Nat.mul_le_mul_right _ hlow
    · rw [hexp', Nat.pow_add]
      exact Nat.mul_lt_mul_of_pos_right hhigh (Nat.two_pow_pos _)
    · rw [roundEven_zero, show (0 - ((23 - k : Nat) : Int) + (0 : Nat)).toNat = 0 by omega,
        show (-(0 - ((23 - k : Nat) : Int) + (0 : Nat))).toNat = 23 - k by omega,
        Nat.pow_zero, Nat.mul_one, Nat.mul_one]
  · obtain ⟨j, rfl⟩ := Nat.exists_eq_add_of_le hlarge
    rw [show (0 - (((23 + j : Nat) : Int) - 23)).toNat = 0 by omega, Nat.pow_zero, Nat.mul_one,
      Nat.add_sub_cancel_left]
    refine roundWithAccuracy_normal s hlow hhigh (by omega) (by omega) ?_
    rw [show (0 - ((0 : Nat) : Int) + (j : Int)).toNat = j by omega,
      show (-(0 - ((0 : Nat) : Int) + (j : Int))).toNat = 0 by omega, Nat.pow_zero, Nat.mul_one]

/-! ## Packing -/

theorem ofBitVec_toBitVec (s : Sign) : Sign.ofBitVec s.toBitVec = s := by
  cases s
  · rfl
  · rfl

/-- The sign is the first of the thirty-two bits. -/
theorem unpackSign_packComponents {spec : Format} (s : Sign) (e : BitVec spec.exponentBits)
    (m : BitVec spec.mantissaBitsWithoutImplicit) :
    unpackSign (packComponents spec s e m) = s.toBitVec := by
  ext i hi
  obtain rfl : i = 0 := by omega
  delta unpackSign packComponents
  simp [BitVec.getLsbD_eq_getElem, BitVec.getLsbD_append, BitVec.getElem_append]

/-- What is unpacked if the exponent is that of no special value. -/
theorem unpack_eq {b : BitVec 32} {s : Sign} {m : Nat} {e : Int} (hpos : 0 < m)
    (hspecial : @unpackExponent .binary32 b ≠ -1#8) (hsubnormal : @unpackExponent .binary32 b ≠ 0#8)
    (hsign : Sign.ofBitVec (@unpackSign .binary32 b) = s)
    (hmantissa : (1#1 ++ @unpackMantissa .binary32 b).toNat = m)
    (hexponent : ((@unpackExponent .binary32 b).toNat : Int) - 150 = e) :
    UnpackedFloat.unpack .binary32 b = .finite s m e hpos := by
  subst hsign hmantissa hexponent
  unfold UnpackedFloat.unpack
  exact (if_neg hspecial).trans (if_neg hsubnormal)

/-- A normal number is stored as it is. -/
theorem Normal.unpack_pack {s : Sign} {v : Nat} {u : UnpackedFloat} (h : Normal s v u) :
    UnpackedFloat.unpack .binary32 (UnpackedFloat.pack .binary32 u) = u := by
  obtain ⟨m, e, hpos, hlow, hhigh, he, he', -⟩ := h
  obtain ⟨n, hn⟩ : ∃ n : Nat, e = n - 150 := ⟨(e + 150).toNat, by omega⟩
  subst hn
  have hbiased : ((n : Int) - 150 + 127 + 23).toNat = n := by omega
  have hpack : UnpackedFloat.pack .binary32 (.finite s m (n - 150) hpos)
      = packComponents .binary32 s (BitVec.ofNat 8 n) (BitVec.ofNat 23 m) := by
    unfold UnpackedFloat.pack
    show (if 2 ^ 8 ≤ ((n : Int) - 150 + 127 + 23).toNat + 1 then _ else if m.log2 + 1 = 24 then
      packComponents .binary32 s (BitVec.ofNat 8 ((n : Int) - 150 + 127 + 23).toNat) _ else _) = _
    rw [hbiased, if_neg (by omega), if_pos (by rw [log2_eq hlow hhigh])]
  have hexponent : (BitVec.ofNat 8 n).toNat = n := by
    rw [BitVec.toNat_ofNat]
    exact Nat.mod_eq_of_lt (by omega)
  have hmantissa : (1#1 ++ BitVec.ofNat 23 m).toNat = m := by
    rw [BitVec.toNat_append, ← Nat.shiftLeft_add_eq_or_of_lt (BitVec.isLt _), BitVec.toNat_ofNat]
    show 1 <<< 23 + m % 2 ^ 23 = m
    omega
  rw [hpack]
  refine unpack_eq hpos ?_ ?_ ?_ ?_ ?_
  · intro heq
    rw [unpackExponent_packComponents] at heq
    rw [heq] at hexponent
    have hall : (-1#8).toNat = 255 := rfl
    omega
  · intro heq
    rw [unpackExponent_packComponents] at heq
    rw [heq] at hexponent
    have hnone : (0#8).toNat = 0 := rfl
    omega
  · rw [unpackSign_packComponents, ofBitVec_toBitVec]
  · rw [unpackMantissa_packComponents, hmantissa]
  · rw [unpackExponent_packComponents, hexponent]

/-! ## Numbers of thirty-two bits -/

/-- What a number is rounded to. -/
inductive Rounded : Int → UnpackedFloat → Prop
  | zero : Rounded 0 (.zero .positive)
  | pos {n : Int} {v : Nat} {u : UnpackedFloat} (hn : 0 < n) (hv : nearest n = v)
      (h : Normal .positive v u) : Rounded n u
  | neg {n : Int} {v : Nat} {u : UnpackedFloat} (hn : n < 0) (hv : nearest n = -v)
      (h : Normal .negative v u) : Rounded n u

/-- What an integer is rounded to is stored as it is. -/
theorem Rounded.unpack_pack {n : Int} {u : UnpackedFloat} (h : Rounded n u) :
    UnpackedFloat.unpack .binary32 (UnpackedFloat.pack .binary32 u) = u := by
  cases h with
  | zero => rfl
  | pos _ _ h => exact h.unpack_pack
  | neg _ _ h => exact h.unpack_pack

/-- `Float32.Model.ofInt`, by the sign of the integer. -/
theorem rounded_ofInt {n : Int} (h : n.natAbs < 2 ^ 32) :
    Rounded n (UnpackedFloat.ofInt .binary32 n) := by
  unfold UnpackedFloat.ofInt UnpackedFloat.normalize
  rcases Int.lt_trichotomy n 0 with hn | rfl | hn
  · rw [Int.compare_eq_lt.mpr hn]
    have habs : (-n).toNat = n.natAbs := by omega
    refine .neg hn ?_ (round_normal _ (by omega) (by omega))
    rw [nearest, extraBits, Int.sign_eq_neg_one_of_neg hn, habs, Int.neg_one_mul]
  · exact .zero
  · rw [Int.compare_eq_gt.mpr hn]
    have habs : n.toNat = n.natAbs := by omega
    refine .pos hn ?_ (round_normal _ (by omega) (by omega))
    rw [nearest, extraBits, Int.sign_eq_one_of_pos hn, habs, Int.one_mul]

/-! ## Sums, quotients and the order -/

section Laws

variable {n k : Int}

theorem unpack_ofInt (h : n.natAbs < 2 ^ 32) :
    (Float32.Model.ofInt n).unpack = UnpackedFloat.ofInt .binary32 n :=
  (rounded_ofInt h).unpack_pack

/-- Minus infinity. -/
def negInf : Float32.Model := Float32.Model.pack (.infinity .negative)

/-- Where `m * 2 ^ e` is the integer `v`, they compare alike. -/
theorem scaled_le {m v : Nat} {e : Int} (hv : m * 2 ^ e.toNat = v * 2 ^ (-e).toNat) (k : Int) :
    ((m * 2 ^ e.toNat : Nat) ≤ k * 2 ^ (-e).toNat ↔ v ≤ k) ∧
      (-(m * 2 ^ e.toNat : Nat) ≤ k * 2 ^ (-e).toNat ↔ -(v : Int) ≤ k) := by
  have hpos : (0 : Int) < 2 ^ (-e).toNat := Int.pow_pos (by decide)
  have hcast : ((m * 2 ^ e.toNat : Nat) : Int) = v * 2 ^ (-e).toNat := by
    rw [hv]
    push_cast
    rfl
  rw [hcast, ← Int.neg_mul]
  exact ⟨Int.mul_le_mul_right hpos, Int.mul_le_mul_right hpos⟩

/-- **AN INTEGER THAT HAS BEEN ROUNDED** compares as `nearest` does. -/
theorem leInt_ofInt (h : n.natAbs < 2 ^ 32) (k : Int) :
    leInt (.ofInt n) k = true ↔ nearest n ≤ k := by
  rw [leInt, unpack_ofInt h]
  generalize UnpackedFloat.ofInt .binary32 n = u, rounded_ofInt h = hu
  cases hu with
  | zero => exact decide_eq_true_iff
  | pos _ hv h =>
      obtain ⟨m, e, hpos, -, -, -, -, hval⟩ := h
      rw [hv]
      exact decide_eq_true_iff.trans (scaled_le hval k).1
  | neg _ hv h =>
      obtain ⟨m, e, hpos, -, -, -, -, hval⟩ := h
      rw [hv]
      exact decide_eq_true_iff.trans (scaled_le hval k).2

/-- Rounding does not change the sign. -/
theorem nearest_nonpos (hn : n < 0) : nearest n ≤ 0 := by
  rw [nearest, Int.sign_eq_neg_one_of_neg hn, Int.neg_one_mul]
  omega

theorem leInt_negInf (k : Int) : leInt negInf k = true := rfl

/-- A slope of 0 changes no number. -/
theorem ofInt_add_zero (h : n.natAbs < 2 ^ 32) :
    Float32.Model.ofInt n + Float32.Model.ofInt 0 = Float32.Model.ofInt n := by
  show Float32.Model.pack (UnpackedFloat.add .binary32 (Float32.Model.ofInt n).unpack
    (.zero .positive)) = Float32.Model.pack (UnpackedFloat.ofInt .binary32 n)
  rw [unpack_ofInt h]
  generalize UnpackedFloat.ofInt .binary32 n = u, rounded_ofInt h = hu
  cases hu with
  | zero => rfl
  | pos _ _ h =>
      cases h
      rfl
  | neg _ _ h =>
      cases h
      rfl

/-- Minus infinity takes every sum with it. -/
theorem ofInt_add_negInf (h : n.natAbs < 2 ^ 32) : Float32.Model.ofInt n + negInf = negInf := by
  show Float32.Model.pack (UnpackedFloat.add .binary32 (Float32.Model.ofInt n).unpack
    (.infinity .negative)) = negInf
  rw [unpack_ofInt h]
  generalize UnpackedFloat.ofInt .binary32 n = u, rounded_ofInt h = hu
  cases hu with
  | zero => rfl
  | pos _ _ h =>
      cases h
      rfl
  | neg _ _ h =>
      cases h
      rfl

theorem negInf_add_negInf : negInf + negInf = negInf := rfl

theorem divInt_zero (hpos : 0 < k) : divInt 0 k = .ofInt 0 := by
  rw [divInt, exactInt, exactInt, dif_pos rfl, dif_neg (Int.ne_of_gt hpos),
    if_neg (Int.not_lt.mpr (Int.le_of_lt hpos))]
  rfl

/-- A negative number over 0. -/
theorem divInt_by_zero (hneg : k < 0) : divInt k 0 = negInf := by
  rw [divInt, exactInt, exactInt, dif_neg (Int.ne_of_lt hneg), dif_pos rfl, if_pos hneg]
  rfl

/-- Nothing compares with a sum that has `0 / 0` in it. -/
theorem not_add_nan_le (t : Float32.Model) (k : Int) : leInt (t + divInt 0 0) k = false := by
  have hnan : ∀ u, UnpackedFloat.add .binary32 u .notANumber = .notANumber := by
    intro u
    cases u <;> rfl
  have hsum : t + divInt 0 0 = Float32.Model.pack (UnpackedFloat.add .binary32 t.unpack
    .notANumber) := rfl
  rw [hsum, hnan]
  rfl

end Laws

end SharixFloat
