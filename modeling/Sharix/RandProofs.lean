import Sharix.PrintnumProofs

/-! # `rand` — `libs/rand.c`, and what rests on `do_div`

    `rand` steps a 48-bit generator and takes the state without its low 12 bits
    modulo `RAND_MAX + 1`.  As `printnum` does, it divides by `do_div`. -/

namespace SharixRand

open SharixPrintfmt

def RAND_MAX : BitVec 32 := 2147483647

/-- The value, and the state `next` that is left. -/
def rand (next : BitVec 64) : Option (Int × BitVec 64) := do
  let next := (next * 0x5DEECE66D + 0xB) &&& (((1 : BitVec 64) <<< 48) - 1)
  let result := next >>> 12
  let (_, mod) ← doDiv result (RAND_MAX + 1)
  return (mod.toInt, next)

/-- The mask leaves the low 48 bits. -/
theorem toNat_next (next : BitVec 64) :
    ((next * 0x5DEECE66D + 0xB) &&& (((1 : BitVec 64) <<< 48) - 1)).toNat
      = (next.toNat * 0x5DEECE66D + 0xB) % 2 ^ 48 := by
  have hmask : (((1 : BitVec 64) <<< 48) - 1).toNat = 2 ^ 48 - 1 := by decide
  rw [BitVec.toNat_and, hmask, Nat.and_two_pow_sub_one_eq_mod, BitVec.toNat_add,
    BitVec.toNat_mul]
  show ((next.toNat * 0x5DEECE66D % 2 ^ 64 + 0xB) % 2 ^ 64) % 2 ^ 48 = _
  omega

/-- The value is exact, so it stays in the range of `rand`. -/
theorem rand_eq (next : BitVec 64) :
    ∃ v next', rand next = some (v, next') ∧
      next'.toNat = (next.toNat * 0x5DEECE66D + 0xB) % 2 ^ 48 ∧
      v = ((next'.toNat / 2 ^ 12 % (RAND_MAX.toNat + 1) : Nat) : Int) ∧
      0 ≤ v ∧ v ≤ RAND_MAX.toNat := by
  obtain ⟨next', hnext'⟩ : ∃ next' : BitVec 64, next'
    = (next * 0x5DEECE66D + 0xB) &&& (((1 : BitVec 64) <<< 48) - 1) := ⟨_, rfl⟩
  have hvalue : ((next' >>> 12).toNat % (RAND_MAX + 1).toNat)
      = next'.toNat / 2 ^ 12 % (RAND_MAX.toNat + 1) := by
    rw [BitVec.toNat_ushiftRight, Nat.shiftRight_eq_div_pow]
    rfl
  have hlt : next'.toNat / 2 ^ 12 % (RAND_MAX.toNat + 1) ≤ RAND_MAX.toNat :=
    Nat.le_of_lt_succ (Nat.mod_lt _ (Nat.succ_pos _))
  have hmax : RAND_MAX.toNat = 2147483647 := rfl
  have hword : (BitVec.ofNat 32 (next'.toNat / 2 ^ 12 % (RAND_MAX.toNat + 1))).toInt
      = ((next'.toNat / 2 ^ 12 % (RAND_MAX.toNat + 1) : Nat) : Int) := by
    rw [BitVec.toInt_eq_toNat_of_lt, BitVec.toNat_ofNat, Nat.mod_eq_of_lt (by omega)]
    rw [BitVec.toNat_ofNat, Nat.mod_eq_of_lt (by omega)]
    omega
  have hrun : rand next
      = some (((next'.toNat / 2 ^ 12 % (RAND_MAX.toNat + 1) : Nat) : Int), next') := by
    have hdiv := doDiv_eq (next' >>> 12) (show RAND_MAX + 1 ≠ 0 by decide)
    rw [hvalue] at hdiv
    rw [rand, ← hnext']
    show (doDiv (next' >>> 12) (RAND_MAX + 1)).bind _ = _
    rw [hdiv, Option.bind_some]
    exact congrArg (fun v => some (v, next')) hword
  refine ⟨_, next', hrun, ?_, rfl, Int.natCast_nonneg _, Int.ofNat_le.mpr hlt⟩
  rw [hnext']
  exact toNat_next next

/-- `do_div` is exact for every number and base, without a fault of `divl`: so
    is every digit `printnum` prints, on each of its calls and, for the bases it
    has digits for, as a whole numeral; and so is `rand`. -/
theorem doDiv_exact (n : BitVec 64) {base : BitVec 32} (hb : base ≠ 0) :
    (∃ quot mod, doDiv n base = some (quot, mod) ∧
      quot.toNat = n.toNat / base.toNat ∧ mod.toNat = n.toNat % base.toNat) ∧
    (∀ {σ : Type} (putch : Int → σ → σ) (fuel : Nat) (width padc : Int) (s : σ),
      printnum putch (fuel + 1) n base width padc s
        = (if base.toNat ≤ n.toNat then
              printnum putch fuel (BitVec.ofNat 64 (n.toNat / base.toNat)) base
                (wrapInt (width - 1)) padc s
            else some (putTimes putch padc (wrapInt (width - 1)).toNat s)).bind
          fun s => (hexDigits[n.toNat % base.toNat]?).map fun digit => putch digit s) ∧
    (1 < base.toNat → base.toNat ≤ 16 →
      ∀ {σ : Type} (putch : Int → σ → σ) (fuel : Nat) (width padc : Int) (s : σ),
        64 ≤ fuel → printnum putch fuel n base width padc s
          = some (putAll putch (List.replicate
              (wrapInt (width - (numeral base.toNat n.toNat).length)).toNat padc
            ++ numeral base.toNat n.toNat) s)) ∧
    ∀ next : BitVec 64, ∃ v next', rand next = some (v, next') ∧
      next'.toNat = (next.toNat * 0x5DEECE66D + 0xB) % 2 ^ 48 ∧
      v = ((next'.toNat / 2 ^ 12 % (RAND_MAX.toNat + 1) : Nat) : Int) ∧
      0 ≤ v ∧ v ≤ RAND_MAX.toNat := by
  have hpos : 0 < base.toNat := by
    rw [Nat.pos_iff_ne_zero]
    exact fun h => hb (BitVec.eq_of_toNat_eq h)
  have hquot : (BitVec.ofNat 64 (n.toNat / base.toNat)).toNat = n.toNat / base.toNat := by
    rw [BitVec.toNat_ofNat]
    exact Nat.mod_eq_of_lt (Nat.lt_of_le_of_lt (Nat.div_le_self ..) n.isLt)
  have hmod : (BitVec.ofNat 32 (n.toNat % base.toNat)).toNat = n.toNat % base.toNat := by
    rw [BitVec.toNat_ofNat]
    exact Nat.mod_eq_of_lt (Nat.lt_trans (Nat.mod_lt _ hpos) base.isLt)
  refine ⟨⟨_, _, doDiv_eq n hb, hquot, hmod⟩, ?_, ?_, rand_eq⟩
  · intro σ putch fuel width padc s
    rw [printnum, doDiv_eq n hb]
    simp only [Option.bind_eq_bind, Option.bind_some, hmod]
    split <;> cases hexDigits[n.toNat % base.toNat]? <;> rfl
  · intro hlow hhigh σ putch fuel width padc s hfuel
    refine printnum_eq putch hlow hhigh padc width s ?_ (by omega)
    exact Nat.lt_of_lt_of_le n.isLt (Nat.pow_le_pow_right (by omega) hfuel)

/-- The largest number, divided by one and by the largest base. -/
theorem doDiv_exact_max :
    (∃ quot mod, doDiv (BitVec.allOnes 64) 1 = some (quot, mod) ∧
      quot.toNat = (BitVec.allOnes 64).toNat / (1 : BitVec 32).toNat ∧
      mod.toNat = (BitVec.allOnes 64).toNat % (1 : BitVec 32).toNat) ∧
    ∃ quot mod, doDiv (BitVec.allOnes 64) (BitVec.allOnes 32) = some (quot, mod) ∧
      quot.toNat = (BitVec.allOnes 64).toNat / (BitVec.allOnes 32).toNat ∧
      mod.toNat = (BitVec.allOnes 64).toNat % (BitVec.allOnes 32).toNat :=
  ⟨(doDiv_exact (BitVec.allOnes 64) (show (1 : BitVec 32) ≠ 0 by decide)).1,
    (doDiv_exact (BitVec.allOnes 64) (show BitVec.allOnes 32 ≠ 0 by decide)).1⟩

end SharixRand
