import Sharix.BlockProofs

/-! # `readseg` — `boot/setup/main.c`

    The boot loader reads a segment of the kernel sector by sector.  It rounds
    the start down, so that the first sector holds the first byte asked for, and
    leaves the end as it is.  After `i` rounds the memory is the block of the
    first `i` sectors, and nothing is read twice. -/

namespace SharixBoot

open SharixBlock

abbrev Byte := BitVec 8
abbrev Word := BitVec 32
abbrev Mem := Word → Byte

def SECTSIZE : Word := 512

/-- `readsect`: the sector `secno` is copied to `dst`. -/
def readsect (disk : Nat → Byte) (dst secno : Word) (mem : Mem) : Mem :=
  block mem dst 0 512 fun j => disk (512 * secno.toNat + j)

def readsegLoop (disk : Nat → Byte) (endVa : Word) :
    Nat → Word → Word → Mem → Option Mem
  | 0, _, _, _ => none
  | fuel + 1, va, secno, mem =>
      if va < endVa then
        readsegLoop disk endVa fuel (va + SECTSIZE) (secno + 1)
          (readsect disk va secno mem)
      else some mem

def readseg (disk : Nat → Byte) (fuel : Nat) (va count offset : Word) (mem : Mem) :
    Option Mem :=
  let endVa := va + count
  let va := va - offset % SECTSIZE
  let secno := offset / SECTSIZE + 1
  readsegLoop disk endVa fuel va secno mem

/-- The memory after `i` rounds from `va` and `secno`. -/
abbrev loaded (disk : Nat → Byte) (mem : Mem) (va secno : Word) (i : Nat) : Mem :=
  block mem va 0 (512 * i) fun j => disk (512 * secno.toNat + j)

/-- One round puts the next sector behind the ones before. -/
theorem readsect_loaded (disk : Nat → Byte) (mem : Mem) {va secno : Word} {i : Nat}
    (hva : 512 * (i + 1) ≤ 2 ^ 32) (hsec : secno.toNat + i < 2 ^ 32) :
    readsect disk (va + BitVec.ofNat 32 (512 * i)) (secno + BitVec.ofNat 32 i)
        (loaded disk mem va secno i)
      = loaded disk mem va secno (i + 1) := by
  show _ = block mem va 0 (512 * (i + 1)) _
  rw [← block_join mem va (fun j => disk (512 * secno.toNat + j))
    (show 512 * i < 2 ^ 32 by omega) (show 512 * i + 512 ≤ 2 ^ 32 by omega)
    (fun k => show (0 ≤ k ∧ k < 512 * (i + 1)) ↔ (0 ≤ k ∧ k < 512 * i) ∨ _ by omega)]
  refine block_congr fun j _ _ => ?_
  rw [toNat_add_ofNat secno hsec,
    show 512 * (secno.toNat + i) + j = 512 * secno.toNat + (512 * i + j) by omega]

/-- The loop from round `i` on, when `n` rounds reach the end: by induction on
    the rounds that are left. -/
theorem readsegLoop_loaded (disk : Nat → Byte) (mem : Mem) (va secno endVa : Word)
    {n : Nat} (hva : va.toNat + 512 * n < 2 ^ 32) (hsec : secno.toNat + n < 2 ^ 32)
    (hlast : ∀ i, i < n → va.toNat + 512 * i < endVa.toNat)
    (hend : endVa.toNat ≤ va.toNat + 512 * n) {i fuel : Nat} (hi : i ≤ n)
    (hfuel : n < i + fuel) :
    readsegLoop disk endVa fuel (va + BitVec.ofNat 32 (512 * i))
        (secno + BitVec.ofNat 32 i) (loaded disk mem va secno i)
      = some (loaded disk mem va secno n) := by
  induction fuel generalizing i with
  | zero => omega
  | succ fuel ih =>
      have haddr := toNat_add_ofNat va (k := 512 * i) (by omega)
      rw [readsegLoop]
      rcases Nat.lt_or_eq_of_le hi with hlt | rfl
      · have hround : va + BitVec.ofNat 32 (512 * i) < endVa := by
          rw [BitVec.lt_def, haddr]
          exact hlast i hlt
        have hva' : va + BitVec.ofNat 32 (512 * i) + SECTSIZE
            = va + BitVec.ofNat 32 (512 * (i + 1)) := by
          rw [BitVec.add_assoc, Nat.mul_succ, BitVec.ofNat_add]
          rfl
        have hsecno : secno + BitVec.ofNat 32 i + 1
            = secno + BitVec.ofNat 32 (i + 1) := by
          rw [BitVec.add_assoc, BitVec.ofNat_add]
          rfl
        rw [if_pos hround, readsect_loaded disk mem (by omega) (by omega), hva',
          hsecno]
        exact ih hlt (by omega)
      · have hstop : ¬ va + BitVec.ofNat 32 (512 * i) < endVa := by
          rw [BitVec.lt_def, haddr]
          omega
        rw [if_neg hstop]

/-- Every segment that ends a sector below the end of memory is read, with less
    than a sector more on either side. -/
theorem readseg_reads (disk : Nat → Byte) (mem : Mem) {va count offset : Word}
    (hva : offset.toNat % 512 ≤ va.toNat)
    (hend : va.toNat + count.toNat + 512 < 2 ^ 32) :
    ∃ n mem', (∀ fuel, n ≤ fuel → readseg disk fuel va count offset mem = some mem') ∧
      (∀ k, k < count.toNat →
        mem' (va + BitVec.ofNat 32 k) = disk (512 + offset.toNat + k)) ∧
      ∀ a, mem' a ≠ mem a →
        (∃ k, k < count.toNat ∧ a = va + BitVec.ofNat 32 k) ∨
        (a.toNat < va.toNat ∧ va.toNat - a.toNat < 512) ∨
        (va.toNat + count.toNat ≤ a.toNat ∧
          a.toNat - (va.toNat + count.toNat) < 512) := by
  have hrem : (offset % SECTSIZE).toNat = offset.toNat % 512 := BitVec.toNat_umod
  have hstart : (va - offset % SECTSIZE).toNat = va.toNat - offset.toNat % 512 := by
    rw [BitVec.toNat_sub_of_le (by rw [BitVec.le_def, hrem]; exact hva), hrem]
  have hendVa : (va + count).toNat = va.toNat + count.toNat := by
    rw [BitVec.toNat_add, Nat.mod_eq_of_lt (by omega)]
  have hsecno : (offset / SECTSIZE + 1).toNat = offset.toNat / 512 + 1 := by
    have hquot : (offset / SECTSIZE).toNat = offset.toNat / 512 := BitVec.toNat_udiv
    have hlt := offset.isLt
    rw [BitVec.toNat_add, hquot]
    exact Nat.mod_eq_of_lt (show offset.toNat / 512 + 1 < 2 ^ 32 by omega)
  -- the rounds are the sectors that begin before the end
  obtain ⟨n, hn⟩ : ∃ n, n = (offset.toNat % 512 + count.toNat + 511) / 512 := ⟨_, rfl⟩
  have hoff := offset.isLt
  have hrun : ∀ fuel, n + 1 ≤ fuel → readseg disk fuel va count offset mem
      = some (loaded disk mem (va - offset % SECTSIZE) (offset / SECTSIZE + 1) n) := by
    intro fuel hfuel
    have h1 := readsegLoop_loaded disk mem (va - offset % SECTSIZE)
      (offset / SECTSIZE + 1) (va + count) (n := n) (by omega) (by omega) (by omega)
      (by omega) (Nat.zero_le n) (show n < 0 + fuel by omega)
    rwa [loaded, Nat.mul_zero, block_empty, BitVec.add_zero, BitVec.add_zero] at h1
  refine ⟨n + 1, _, hrun, fun k hk => ?_, fun a ha => ?_⟩
  · have hback : va + BitVec.ofNat 32 k
        = va - offset % SECTSIZE + BitVec.ofNat 32 (offset.toNat % 512 + k) := by
      rw [BitVec.ofNat_add, ← hrem, BitVec.ofNat_toNat, BitVec.setWidth_eq,
        ← BitVec.add_assoc, BitVec.sub_add_cancel]
    rw [hback, loaded, block_get (by omega) (by omega) (by omega), hsecno,
      show 512 * (offset.toNat / 512 + 1) + (offset.toNat % 512 + k)
        = 512 + offset.toNat + k by omega]
  · have hin : ∃ k, k < 512 * n ∧
        a = va - offset % SECTSIZE + BitVec.ofNat 32 k := by
      refine Classical.byContradiction fun hno => ha (block_frame fun k _ hk hsame => ?_)
      exact hno ⟨k, hk, hsame⟩
    obtain ⟨k, hk, hsame⟩ := hin
    have haddr : a.toNat = va.toNat - offset.toNat % 512 + k := by
      rw [hsame, toNat_add_ofNat _ (by omega), hstart]
    rcases Nat.lt_or_ge a.toNat va.toNat with hlow | hge
    · exact Or.inr (Or.inl ⟨hlow, by omega⟩)
    rcases Nat.lt_or_ge a.toNat (va.toNat + count.toNat) with hmid | hhigh
    · refine Or.inl ⟨a.toNat - va.toNat, by omega, ?_⟩
      refine BitVec.eq_of_toNat_eq ?_
      rw [toNat_add_ofNat _ (by omega)]
      omega
    · exact Or.inr (Or.inr ⟨hhigh, by omega⟩)

/-- The first call of `bootmain`, on a disk that holds the offsets. -/
theorem readseg_reads_header :
    ∃ n mem', (∀ fuel, n ≤ fuel → readseg (BitVec.ofNat 8) fuel 0x10000 (512 * 8) (512 * 2)
        (fun _ => 0) = some mem') ∧
      ∀ k, k < 4096 →
        mem' (0x10000 + BitVec.ofNat 32 k) = BitVec.ofNat 8 (512 + 1024 + k) := by
  obtain ⟨n, mem', hrun, hbytes, -⟩ := readseg_reads (BitVec.ofNat 8) (fun _ => 0)
    (show (512 * 2 : Word).toNat % 512 ≤ (0x10000 : Word).toNat by decide)
    (show (0x10000 : Word).toNat + (512 * 8 : Word).toNat + 512 < 2 ^ 32 by decide)
  exact ⟨n, mem', hrun, hbytes⟩

end SharixBoot
