import Mathlib.Algebra.Group.Nat.Defs
import Mathlib.Logic.Basic
import Mathlib.Logic.Function.Basic

/-! # Blocks — one range of a memory replaced

    A copy into memory replaces a range of it.  `block m p lo hi f` is the
    memory `m` with the entries `lo, ..., hi - 1` from `p` on taken from `f`;
    offsets from `p` wrap as addresses do.

    * `block_get`, `block_frame`: what is read inside and outside the range;
    * `block_join`: a further piece that makes the range longer;
    * `block_source`: what is still to be copied reads as before. -/

namespace SharixBlock

variable {w : Nat} {B : Type}

def block (m : BitVec w → B) (p : BitVec w) (lo hi : Nat) (f : Nat → B) :
    BitVec w → B := fun a =>
  if lo ≤ (a - p).toNat ∧ (a - p).toNat < hi then f (a - p).toNat else m a

/-- An offset below the size of memory is read back. -/
theorem offset_eq (p : BitVec w) {k : Nat} (hk : k < 2 ^ w) :
    (p + BitVec.ofNat w k - p).toNat = k := by
  rw [BitVec.add_comm, BitVec.add_sub_cancel, BitVec.toNat_ofNat,
    Nat.mod_eq_of_lt hk]

theorem toNat_add_ofNat (p : BitVec w) {k : Nat} (hk : p.toNat + k < 2 ^ w) :
    (p + BitVec.ofNat w k).toNat = p.toNat + k := by
  rw [BitVec.toNat_add, BitVec.toNat_ofNat, Nat.mod_eq_of_lt (show k < 2 ^ w by omega),
    Nat.mod_eq_of_lt hk]

/-- Every address is at its offset. -/
theorem at_offset (p a : BitVec w) :
    a = p + BitVec.ofNat w (a - p).toNat := by
  rw [BitVec.ofNat_toNat, BitVec.setWidth_eq, BitVec.add_comm, BitVec.sub_add_cancel]

theorem block_empty (m : BitVec w → B) (p : BitVec w) (lo : Nat) (f : Nat → B) :
    block m p lo lo f = m := by
  funext a
  rw [block, if_neg (by omega)]

/-- One entry. -/
theorem block_one (m : BitVec w → B) (p : BitVec w) (f : Nat → B) :
    block m p 0 1 f = Function.update m p (f 0) := by
  funext a
  by_cases ha : a = p
  · subst ha
    simp [block]
  · have ho : (a - p).toNat ≠ 0 := by
      intro h0
      have h1 := at_offset p a
      rw [h0, BitVec.add_zero] at h1
      exact ha h1
    rw [Function.update_of_ne ha, block, if_neg (by omega)]

/-- Inside the range. -/
theorem block_get {m : BitVec w → B} {p : BitVec w} {lo hi k : Nat} {f : Nat → B}
    (hlo : lo ≤ k) (hhi : k < hi) (hk : k < 2 ^ w) :
    block m p lo hi f (p + BitVec.ofNat w k) = f k := by
  rw [block, offset_eq p hk, if_pos ⟨hlo, hhi⟩]

/-- Outside the range. -/
theorem block_frame {m : BitVec w → B} {p a : BitVec w} {lo hi : Nat} {f : Nat → B}
    (ha : ∀ k, lo ≤ k → k < hi → a ≠ p + BitVec.ofNat w k) :
    block m p lo hi f a = m a := by
  rw [block, if_neg]
  intro hin
  exact ha _ hin.1 hin.2 (at_offset p a)

/-- Only the entries of the range count. -/
theorem block_congr {m : BitVec w → B} {p : BitVec w} {lo hi : Nat} {f g : Nat → B}
    (hfg : ∀ k, lo ≤ k → k < hi → f k = g k) :
    block m p lo hi f = block m p lo hi g := by
  funext a
  rw [block, block]
  split
  · next hin => exact hfg _ hin.1 hin.2
  · rfl

/-- The offset of `a` from an address further on. -/
theorem offset_shift (p a : BitVec w) {t : Nat} (ht : t < 2 ^ w) :
    (a - (p + BitVec.ofNat w t)).toNat
      = if t ≤ (a - p).toNat then (a - p).toNat - t
        else (a - p).toNat + 2 ^ w - t := by
  rw [← BitVec.sub_sub, BitVec.toNat_sub, BitVec.toNat_ofNat, Nat.mod_eq_of_lt ht]
  have ho := (a - p).isLt
  split
  · next hle =>
      rw [show 2 ^ w - t + (a - p).toNat = (a - p).toNat - t + 2 ^ w by omega,
        Nat.add_mod_right, Nat.mod_eq_of_lt (by omega)]
  · next hlt =>
      rw [Nat.mod_eq_of_lt (by omega)]
      omega

/-- A piece of `c` entries at the offset `t`, when range and piece together
    are the range from `lo'` to `hi'`. -/
theorem block_join (m : BitVec w → B) (p : BitVec w) (f : Nat → B)
    {lo hi lo' hi' t c : Nat} (ht : t < 2 ^ w) (htc : t + c ≤ 2 ^ w)
    (hjoin : ∀ i, (lo' ≤ i ∧ i < hi') ↔
      (lo ≤ i ∧ i < hi) ∨ (t ≤ i ∧ i < t + c)) :
    block (block m p lo hi f) (p + BitVec.ofNat w t) 0 c (fun j => f (t + j))
      = block m p lo' hi' f := by
  funext a
  have ho := (a - p).isLt
  have hj := hjoin (a - p).toNat
  simp only [block, offset_shift p a ht]
  by_cases hle : t ≤ (a - p).toNat
  · simp only [hle, if_true]
    by_cases hpiece : (a - p).toNat - t < c
    · rw [if_pos ⟨Nat.zero_le _, hpiece⟩, if_pos (hj.mpr (.inr ⟨hle, by omega⟩)),
        Nat.add_sub_cancel' hle]
    · rw [if_neg (fun h => hpiece h.2)]
      refine if_congr (hj.trans ?_).symm rfl rfl
      omega
  · simp only [hle, if_false]
    rw [if_neg (by omega)]
    refine if_congr (hj.trans ?_).symm rfl rfl
    omega

/-- The source of a copy reads as before at an address that the range does not
    reach. -/
theorem block_source {m : BitVec w → B} {dst src : BitVec w} {f : Nat → B}
    {lo hi k : Nat} (hk : src.toNat + k < 2 ^ w) (hhi : dst.toNat + hi ≤ 2 ^ w)
    (hno : ∀ j, lo ≤ j → j < hi → src.toNat + k ≠ dst.toNat + j) :
    block m dst lo hi f (src + BitVec.ofNat w k) = m (src + BitVec.ofNat w k) := by
  refine block_frame fun j hlo hj hsame => hno j hlo hj ?_
  have h1 := congrArg BitVec.toNat hsame
  rwa [toNat_add_ofNat src hk, toNat_add_ofNat dst (by omega)] at h1

end SharixBlock
