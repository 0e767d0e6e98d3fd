import Sharix.BlockProofs

/-! # Moving memory — `memmove` in `libs/string.c` and `libs/x86.h`

    The kernel compiles in the string instructions of `x86.h`; `string.c` also
    has a loop in C.  They choose the direction on different conditions, and
    upwards the instructions move four bytes at a time.

    * `rep_up`, `rep_down`: what `rep movs` makes of a copy in progress;
    * `copyUp_eq`, `copyDown_eq`: the loops of C are `rep movsb`;
    * `memmoveArch_mem`, `memmoveLoop_mem`: both leave the same block. -/

namespace SharixMemmove

open SharixBlock

abbrev Byte := BitVec 8
abbrev Word := BitVec 32
abbrev Mem := Word → Byte

/-! ## String instructions -/

/-- The registers of the string instructions, the direction flag and memory. -/
structure Cpu where
  ecx : Word
  esi : Word
  edi : Word
  df : Bool
  mem : Mem

/-- One `movs`: `size` bytes are loaded at `esi` and stored at `edi`, and both
    step by `size`, down when the direction flag is set. -/
def movs (size : Nat) (s : Cpu) : Cpu :=
  let step := BitVec.ofNat 32 size
  { s with
    mem := block s.mem s.edi 0 size fun j => s.mem (s.esi + BitVec.ofNat 32 j)
    esi := if s.df then s.esi - step else s.esi + step
    edi := if s.df then s.edi - step else s.edi + step }

theorem movs_mem (size : Nat) (s : Cpu) : (movs size s).mem
    = block s.mem s.edi 0 size fun j => s.mem (s.esi + BitVec.ofNat 32 j) := rfl

def movsb : Cpu → Cpu := movs 1

def movsl : Cpu → Cpu := movs 4

def repLoop (ins : Cpu → Cpu) : Nat → Cpu → Cpu
  | 0, s => s
  | k + 1, s =>
      let s := ins s
      repLoop ins k { s with ecx := s.ecx - 1 }

/-- `rep`: the instruction runs until `ecx` has been counted down. -/
def rep (ins : Cpu → Cpu) (s : Cpu) : Cpu := repLoop ins s.ecx.toNat s

/-! ## The functions -/

/-- `__memcpy`. -/
def memcpyArch (s : Cpu) (dst src n : Word) : Cpu × Word :=
  let s := { s with ecx := n / 4, edi := dst, esi := src }
  let s := rep movsl s
  let s := { s with ecx := n }
  let s := { s with ecx := s.ecx &&& 3 }
  -- `jz 1f` skips the tail when there is none
  let s := if s.ecx = 0 then s else rep movsb s
  (s, dst)

/-- `__memmove`. -/
def memmoveArch (s : Cpu) (dst src n : Word) : Cpu × Word :=
  if dst < src then
    memcpyArch s dst src n
  else
    let s := { s with df := true }
    let s := { s with ecx := n, esi := n - 1 + src, edi := n - 1 + dst }
    let s := rep movsb s
    ({ s with df := false }, dst)

/-- `while (n -- > 0) *d ++ = *s ++;`. -/
def copyUp : Nat → Mem → Word → Word → Mem
  | 0, m, _, _ => m
  | n + 1, m, d, s => copyUp n (Function.update m d (m s)) (d + 1) (s + 1)

/-- `while (n -- > 0) *-- d = *-- s;`. -/
def copyDown : Nat → Mem → Word → Word → Mem
  | 0, m, _, _ => m
  | n + 1, m, d, s =>
      let d := d - 1
      let s := s - 1
      copyDown n (Function.update m d (m s)) d s

/-- `memmove` without `__HAVE_ARCH_MEMMOVE`. -/
def memmoveLoop (m : Mem) (dst src n : Word) : Mem × Word :=
  let s := src
  let d := dst
  if s < d ∧ s + n > d then
    let s := s + n
    let d := d + n
    (copyDown n.toNat m d s, dst)
  else
    (copyUp n.toNat m d s, dst)

/-! ## A copy in progress -/

/-- The bytes `lo, ..., hi - 1` of the move have been made. -/
abbrev moved (m : Mem) (dst src : Word) (lo hi : Nat) : Mem :=
  block m dst lo hi fun j => m (src + BitVec.ofNat 32 j)

/-- A further piece of `c` bytes that reads as before. -/
theorem moved_join {m : Mem} {dst src : Word} {lo hi lo' hi' t c : Nat}
    (ht : t < 2 ^ 32) (htc : t + c ≤ 2 ^ 32)
    (hsrc : ∀ j, j < c → moved m dst src lo hi (src + BitVec.ofNat 32 (t + j))
      = m (src + BitVec.ofNat 32 (t + j)))
    (hjoin : ∀ i, (lo' ≤ i ∧ i < hi') ↔
      (lo ≤ i ∧ i < hi) ∨ (t ≤ i ∧ i < t + c)) :
    block (moved m dst src lo hi) (dst + BitVec.ofNat 32 t) 0 c
        (fun j => moved m dst src lo hi
          (src + BitVec.ofNat 32 t + BitVec.ofNat 32 j))
      = moved m dst src lo' hi' := by
  have h1 := block_join m dst (fun j => m (src + BitVec.ofNat 32 j)) ht htc hjoin
  refine Eq.trans (block_congr fun j _ hj => ?_) h1
  rw [BitVec.add_assoc, ← BitVec.ofNat_add, hsrc j hj]

/-- `t` bytes have been moved upwards. -/
structure Up (m : Mem) (dst src : Word) (t : Nat) (s : Cpu) : Prop where
  mem : s.mem = moved m dst src 0 t
  esi : s.esi = src + BitVec.ofNat 32 t
  edi : s.edi = dst + BitVec.ofNat 32 t
  df : s.df = false

/-- All but `t` bytes have been moved downwards. -/
structure Down (m : Mem) (dst src : Word) (n t : Nat) (s : Cpu) : Prop where
  mem : s.mem = moved m dst src t n
  esi : s.esi + 1 = src + BitVec.ofNat 32 t
  edi : s.edi + 1 = dst + BitVec.ofNat 32 t
  df : s.df = true

section Copies

variable {m : Mem} {dst src : Word} {n : Nat}

/-- Upwards, when the destination starts lower or behind the source. -/
theorem rep_up {size : Nat} (hsize : 0 < size)
    (hdir : dst.toNat ≤ src.toNat ∨ src.toNat + n ≤ dst.toNat)
    (hsrc : src.toNat + n ≤ 2 ^ 32) (hdst : dst.toNat + n ≤ 2 ^ 32) {k t : Nat}
    {s : Cpu} (hs : Up m dst src t s) (hk : t + size * k ≤ n) :
    Up m dst src (t + size * k) (repLoop (movs size) k s) := by
  induction k generalizing t s with
  | zero => exact hs
  | succ k ih =>
      have hmul : size * (k + 1) = size + size * k := by
        rw [Nat.mul_succ, Nat.add_comm]
      rw [hmul, ← Nat.add_assoc] at hk ⊢
      refine ih ⟨?_, ?_, ?_, hs.df⟩ hk
      · show (movs size s).mem = _
        rw [movs_mem, hs.mem, hs.esi, hs.edi]
        refine moved_join (by omega) (by omega) (fun j hj => ?_) (by omega)
        exact block_source (by omega) (by omega) (by omega)
      · simp [movs, hs.df, hs.esi, BitVec.add_assoc, BitVec.ofNat_add]
      · simp [movs, hs.df, hs.edi, BitVec.add_assoc, BitVec.ofNat_add]

/-- Downwards, when the destination starts higher. -/
theorem rep_down (hdir : src.toNat ≤ dst.toNat) (hsrc : src.toNat + n ≤ 2 ^ 32)
    (hdst : dst.toNat + n ≤ 2 ^ 32) {t : Nat} {s : Cpu}
    (hs : Down m dst src n t s) (ht : t ≤ n) :
    Down m dst src n 0 (repLoop movsb t s) := by
  induction t generalizing s with
  | zero => exact hs
  | succ t ih =>
      have hesi : s.esi = src + BitVec.ofNat 32 t := by
        have h1 := hs.esi
        rw [BitVec.ofNat_add, ← BitVec.add_assoc] at h1
        exact (BitVec.add_left_inj 1).mp h1
      have hedi : s.edi = dst + BitVec.ofNat 32 t := by
        have h1 := hs.edi
        rw [BitVec.ofNat_add, ← BitVec.add_assoc] at h1
        exact (BitVec.add_left_inj 1).mp h1
      refine ih ⟨?_, ?_, ?_, hs.df⟩ (by omega)
      · show (movs 1 s).mem = _
        rw [movs_mem, hs.mem, hesi, hedi]
        refine moved_join (by omega) (by omega) (fun j hj => ?_) (by omega)
        exact block_source (by omega) (by omega) (by omega)
      · show (if s.df then s.esi - 1 else s.esi + 1) + 1 = _
        rw [if_pos hs.df, BitVec.sub_add_cancel, hesi]
      · show (if s.df then s.edi - 1 else s.edi + 1) + 1 = _
        rw [if_pos hs.df, BitVec.sub_add_cancel, hedi]

end Copies

/-! ## The functions on every memory -/

/-- `__memcpy` to a lower place. -/
theorem memcpyArch_mem {s : Cpu} {dst src n : Word} (hdf : s.df = false)
    (hdir : dst.toNat ≤ src.toNat) (hsrc : src.toNat + n.toNat ≤ 2 ^ 32) :
    (memcpyArch s dst src n).1.mem = moved s.mem dst src 0 n.toNat := by
  have hstart : Up s.mem dst src 0 { s with ecx := n / 4, edi := dst, esi := src } :=
    ⟨(block_empty _ _ _ _).symm, by simp, by simp, hdf⟩
  have hquot : (n / 4).toNat = n.toNat / 4 := BitVec.toNat_udiv
  have hwords := rep_up (n := n.toNat) (by omega : 0 < 4) (Or.inl hdir) hsrc
    (by omega) hstart (k := n.toNat / 4) (by omega)
  rw [← hquot] at hwords
  have htail : (n &&& 3).toNat = n.toNat % 4 := by
    rw [BitVec.toNat_and]
    exact Nat.and_two_pow_sub_one_eq_mod n.toNat 2
  show (if n &&& 3 = 0 then _ else rep movsb _ : Cpu).mem = _
  split
  · next h0 =>
      have hall : 0 + 4 * (n / 4).toNat = n.toNat := by
        rw [h0] at htail
        have h1 : n.toNat % 4 = 0 := htail.symm
        omega
      rw [hall] at hwords
      exact hwords.mem
  · have hrest : Up s.mem dst src (0 + 4 * (n / 4).toNat)
        { rep movsl { s with ecx := n / 4, edi := dst, esi := src } with
          ecx := n &&& 3 } :=
      ⟨hwords.mem, hwords.esi, hwords.edi, hwords.df⟩
    have hbytes := rep_up (n := n.toNat) (by omega : 0 < 1) (Or.inl hdir) hsrc
      (by omega) hrest (k := (n &&& 3).toNat) (by omega)
    have hall : 0 + 4 * (n / 4).toNat + 1 * (n &&& 3).toNat = n.toNat := by omega
    rw [hall] at hbytes
    exact hbytes.mem

/-- The loop upwards is `rep movsb`. -/
theorem copyUp_eq (k : Nat) (m : Mem) (d s ecx : Word) :
    copyUp k m d s = (repLoop movsb k ⟨ecx, s, d, false, m⟩).mem := by
  induction k generalizing m d s ecx with
  | zero => rfl
  | succ k ih =>
      have hone : (movsb ⟨ecx, s, d, false, m⟩).mem = Function.update m d (m s) := by
        rw [movsb, movs_mem, block_one, BitVec.add_zero]
      rw [copyUp, ← hone]
      exact ih _ _ _ (ecx - 1)

/-- The loop downwards is `rep movsb` with the direction flag set. -/
theorem copyDown_eq (k : Nat) (m : Mem) (d s ecx : Word) :
    copyDown k m d s = (repLoop movsb k ⟨ecx, s - 1, d - 1, true, m⟩).mem := by
  induction k generalizing m d s ecx with
  | zero => rfl
  | succ k ih =>
      have hone : (movsb ⟨ecx, s - 1, d - 1, true, m⟩).mem
          = Function.update m (d - 1) (m (s - 1)) := by
        rw [movsb, movs_mem, block_one, BitVec.add_zero]
      rw [copyDown, ← hone]
      exact ih _ _ _ (ecx - 1)

/-- The string instructions. -/
theorem memmoveArch_mem {s : Cpu} {dst src n : Word} (hdf : s.df = false)
    (hsrc : src.toNat + n.toNat ≤ 2 ^ 32) (hdst : dst.toNat + n.toNat ≤ 2 ^ 32) :
    (memmoveArch s dst src n).1.mem = moved s.mem dst src 0 n.toNat := by
  unfold memmoveArch
  split
  · next hlt => exact memcpyArch_mem hdf (Nat.le_of_lt hlt) hsrc
  · next hge =>
      have hdir : src.toNat ≤ dst.toNat := Nat.le_of_not_lt hge
      have hstart : Down s.mem dst src n.toNat n.toNat
          { s with ecx := n, esi := n - 1 + src, edi := n - 1 + dst, df := true } := by
        have hlast : ∀ p : Word, n - 1 + p + 1 = p + BitVec.ofNat 32 n.toNat := by
          intro p
          rw [BitVec.ofNat_toNat, BitVec.setWidth_eq, BitVec.add_assoc,
            BitVec.add_comm p 1, ← BitVec.add_assoc, BitVec.sub_add_cancel,
            BitVec.add_comm]
        exact ⟨(block_empty _ _ _ _).symm, hlast src, hlast dst, rfl⟩
      exact (rep_down hdir hsrc hdst hstart (Nat.le_refl _)).mem

/-- The loops of C. -/
theorem memmoveLoop_mem {m : Mem} {dst src n : Word}
    (hsrc : src.toNat + n.toNat ≤ 2 ^ 32) (hdst : dst.toNat + n.toNat ≤ 2 ^ 32) :
    (memmoveLoop m dst src n).1 = moved m dst src 0 n.toNat := by
  have hbranch : (memmoveLoop m dst src n).1
      = if src < dst ∧ src + n > dst then copyDown n.toNat m (dst + n) (src + n)
        else copyUp n.toNat m dst src := apply_ite Prod.fst ..
  rw [hbranch]
  split
  · next hover =>
      have hdir : src.toNat ≤ dst.toNat := Nat.le_of_lt hover.1
      have hlast : ∀ p : Word, p + n - 1 + 1 = p + BitVec.ofNat 32 n.toNat := by
        intro p
        rw [BitVec.ofNat_toNat, BitVec.setWidth_eq, BitVec.sub_add_cancel]
      have hstart : Down m dst src n.toNat n.toNat
          ⟨0, src + n - 1, dst + n - 1, true, m⟩ :=
        ⟨(block_empty _ _ _ _).symm, hlast src, hlast dst, rfl⟩
      rw [copyDown_eq _ _ _ _ 0]
      exact (rep_down hdir hsrc hdst hstart (Nat.le_refl _)).mem
  · next hno =>
      -- a source below the destination ends before the end of memory
      have hdir : dst.toNat ≤ src.toNat ∨ src.toNat + n.toNat ≤ dst.toNat := by
        rcases Nat.lt_or_ge src.toNat dst.toNat with hlt | hge
        · have hend : (src + n).toNat = src.toNat + n.toNat := by
            rw [BitVec.toNat_add, Nat.mod_eq_of_lt (by omega)]
          refine Or.inr (Nat.le_of_not_lt fun h1 => hno ⟨hlt, ?_⟩)
          show dst.toNat < (src + n).toNat
          rw [hend]
          exact h1
        · exact Or.inl hge
      have hstart : Up m dst src 0 ⟨0, src, dst, false, m⟩ :=
        ⟨(block_empty _ _ _ _).symm, by simp, by simp, rfl⟩
      have hall := rep_up (by omega : 0 < 1) hdir hsrc hdst hstart
        (k := n.toNat) (by omega)
      rw [Nat.zero_add, Nat.one_mul] at hall
      rw [copyUp_eq _ _ _ _ 0]
      exact hall.mem

/-- The direction flag is clear again. -/
theorem memmoveArch_df {s : Cpu} (hdf : s.df = false) (dst src n : Word) :
    (memmoveArch s dst src n).1.df = false := by
  have hkeep : ∀ (size k : Nat) (s : Cpu), (repLoop (movs size) k s).df = s.df := by
    intro size k
    induction k with
    | zero => exact fun s => rfl
    | succ k ih => exact fun s => ih _
  unfold memmoveArch
  split
  · show (if n &&& 3 = 0 then _ else rep movsb _ : Cpu).df = false
    split
    · exact (hkeep 4 _ _).trans hdf
    · exact (hkeep 1 _ _).trans ((hkeep 4 _ _).trans hdf)
  · rfl

/-- `m'` is `m` with the bytes from `src` on moved to `dst`. -/
structure Moved (m m' : Mem) (dst src n : Word) : Prop where
  bytes : ∀ k, k < n.toNat →
    m' (dst + BitVec.ofNat 32 k) = m (src + BitVec.ofNat 32 k)
  frame : ∀ a, (∀ k, k < n.toNat → a ≠ dst + BitVec.ofNat 32 k) → m' a = m a

theorem moved_all (m : Mem) (dst src n : Word) :
    Moved m (moved m dst src 0 n.toNat) dst src n := by
  refine ⟨fun k hk => ?_, fun a ha => ?_⟩
  · exact block_get (Nat.zero_le k) hk (Nat.lt_trans hk n.isLt)
  · exact block_frame fun k _ hk => ha k hk

/-- On every memory and for every overlap, string instructions and loops move
    the bytes and nothing else, and agree. -/
theorem memmove_moves {s : Cpu} {dst src n : Word} (hdf : s.df = false)
    (hsrc : src.toNat + n.toNat ≤ 2 ^ 32) (hdst : dst.toNat + n.toNat ≤ 2 ^ 32) :
    Moved s.mem (memmoveArch s dst src n).1.mem dst src n ∧
      Moved s.mem (memmoveLoop s.mem dst src n).1 dst src n ∧
      ((memmoveArch s dst src n).1.mem, (memmoveArch s dst src n).2)
        = memmoveLoop s.mem dst src n := by
  have harch := memmoveArch_mem hdf hsrc hdst
  have hloop := memmoveLoop_mem (m := s.mem) hsrc hdst
  have hreturn : (memmoveArch s dst src n).2 = (memmoveLoop s.mem dst src n).2 := by
    have h1 : (memmoveArch s dst src n).2 = dst := by
      unfold memmoveArch
      split <;> rfl
    have h2 : (memmoveLoop s.mem dst src n).2 = dst :=
      (apply_ite Prod.snd ..).trans (ite_self dst)
    rw [h1, h2]
  refine ⟨?_, ?_, Prod.ext (harch.trans hloop.symm) hreturn⟩
  · rw [harch]
    exact moved_all s.mem dst src n
  · rw [hloop]
    exact moved_all s.mem dst src n

/-- Six bytes one place down, so that the two ranges share five. -/
theorem memmove_moves_six :
    Moved (fun a => a.setWidth 8)
      (memmoveArch ⟨0, 0, 0, false, fun a => a.setWidth 8⟩ 100 101 6).1.mem
      100 101 6 :=
  (memmove_moves (s := ⟨0, 0, 0, false, fun a => a.setWidth 8⟩) rfl
    (show (101 : Word).toNat + (6 : Word).toNat ≤ 2 ^ 32 by decide)
    (show (100 : Word).toNat + (6 : Word).toNat ≤ 2 ^ 32 by decide)).1

end SharixMemmove
