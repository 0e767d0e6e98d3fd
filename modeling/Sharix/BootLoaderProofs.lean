import Sharix.MachineProofs
import Sharix.ReadsegProofs

/-! # Loading the kernel — `bootmain`, `elf.h`

    `bootmain` reads the first page of the kernel to `0x10000`, walks the
    program headers there, and reads each segment to its address, from the file
    behind sector 2.  A segment is read by whole sectors, so up to 511 bytes
    before it and behind it are written too.  The headers are read from memory
    again and again, while segments are written around them.

    In increasing order the bytes behind a segment do no harm, as the source
    says; the bytes before it may.  A segment is spared by a later one that
    keeps out of it, or that is as far from its place in the file (`Spares`).
    Then every segment ends where it belongs, the tables at sector 8001 at
    `RES_ADDR`, and the kernel is entered.  The bytes of a segment that the
    file does not hold are not zero: they are what follows on the disk.

    The loader itself is in memory as well, at `0x7e00`, on a stack that grows
    down from `0x7c00`; no segment may come over it (`OffLoader`). -/

namespace SharixBoot

open SharixBlock SharixMachine

/-! ## The headers -/

def ELFHDR : Word := 0x10000
def ELF_MAGIC : Word := 0x464C457F
def RES_ADDR : Word := 0x11000

/-- The fields of `struct elfhdr` that are read. -/
structure Elfhdr where
  eMagic : Word
  eEntry : Word
  ePhoff : Word
  ePhnum : BitVec 16

/-- The fields of `struct proghdr` that are read. -/
structure Proghdr where
  pOffset : Word
  pVa : Word
  pMemsz : Word

def elfhdr (mem : Mem) : Elfhdr where
  eMagic := load mem ELFHDR
  eEntry := load mem (ELFHDR + 24)
  ePhoff := load mem (ELFHDR + 28)
  ePhnum := mem (ELFHDR + 45) ++ mem (ELFHDR + 44)

def proghdr (mem : Mem) (ph : Word) : Proghdr where
  pOffset := load mem (ph + 4)
  pVa := load mem (ph + 8)
  pMemsz := load mem (ph + 20)

/-! ## `bootmain` -/

/-- The loop over the program headers. -/
def loadSegments (disk : Nat → Byte) (fuel : Nat) (eph : Word) :
    Nat → Word → Mem → Option Mem
  | 0, _, _ => none
  | n + 1, ph, mem =>
      if ph < eph then do
        let p := proghdr mem ph
        let mem ← readseg disk fuel (p.pVa &&& 0xFFFFFF) p.pMemsz (SECTSIZE * 2 + p.pOffset) mem
        loadSegments disk fuel eph n (ph + 32) mem
      else some mem

/-- Memory, and the address that is called; none on the way to `bad`. -/
def bootmain (disk : Nat → Byte) (fuel : Nat) (mem : Mem) : Option (Mem × Option Word) := do
  let mem ← readseg disk fuel ELFHDR (SECTSIZE * 8) (SECTSIZE * 2) mem
  if (elfhdr mem).eMagic ≠ ELF_MAGIC then return (mem, none)
  let ph := ELFHDR + (elfhdr mem).ePhoff
  let eph := ph + 32 * (elfhdr mem).ePhnum.setWidth 32
  let mem ← loadSegments disk fuel eph fuel ph mem
  let mem ← readseg disk fuel RES_ADDR (SECTSIZE * (8 + 116)) (SECTSIZE * 8000) mem
  return (mem, some ((elfhdr mem).eEntry &&& 0xFFFFFF))

/-! ## One segment -/

/-- `size` bytes for `start`, at `off` behind the first sector. -/
structure Segment where
  start : Nat
  size : Nat
  off : Nat
deriving DecidableEq

namespace Segment

variable (s : Segment)

/-- The first byte written, the sectors, and the end. -/
def base : Nat := s.start - s.off % 512
def sectors : Nat := (s.off % 512 + s.size + 511) / 512
def top : Nat := s.base + 512 * s.sectors

/-- Memory once the segment is read. -/
def put (disk : Nat → Byte) (mem : Mem) : Mem := fun a =>
  if s.base ≤ a.toNat ∧ a.toNat < s.top then disk (512 + s.off + a.toNat - s.start) else mem a

/-- The segment is in memory. -/
def In (disk : Nat → Byte) (mem : Mem) : Prop :=
  ∀ a : Word, s.start ≤ a.toNat → a.toNat < s.start + s.size →
    mem a = disk (512 + s.off + a.toNat - s.start)

/-- Reading it stays in memory. -/
def Fits : Prop := s.off % 512 ≤ s.start ∧ s.start + s.size + 512 < 2 ^ 32

end Segment

/-- The segment of a call of `readseg`. -/
def segmentAt (va count offset : Word) : Segment := ⟨va.toNat, count.toNat, offset.toNat⟩

variable {disk : Nat → Byte}

/-- `readseg` reads the sectors that the segment meets. -/
theorem readseg_put {va count offset : Word} (h : (segmentAt va count offset).Fits) {fuel : Nat}
    (hfuel : (segmentAt va count offset).sectors < fuel) (mem : Mem) :
    readseg disk fuel va count offset mem = some ((segmentAt va count offset).put disk mem) := by
  obtain ⟨n, hn⟩ : ∃ n, n = (offset.toNat % 512 + count.toNat + 511) / 512 := ⟨_, rfl⟩
  obtain ⟨hlead, hend⟩ : offset.toNat % 512 ≤ va.toNat ∧ va.toNat + count.toNat + 512 < 2 ^ 32 :=
    h
  have hfuel : n < fuel := by rw [hn]; exact hfuel
  have hrem : (offset % SECTSIZE).toNat = offset.toNat % 512 := BitVec.toNat_umod
  have hstart : (va - offset % SECTSIZE).toNat = va.toNat - offset.toNat % 512 := by
    rw [BitVec.toNat_sub_of_le (by rw [BitVec.le_def, hrem]; exact hlead), hrem]
  have hendVa : (va + count).toNat = va.toNat + count.toNat := by
    rw [BitVec.toNat_add, Nat.mod_eq_of_lt (by omega)]
  have hoff := offset.isLt
  have hsecno : (offset / SECTSIZE + 1).toNat = offset.toNat / 512 + 1 := by
    have hquot : (offset / SECTSIZE).toNat = offset.toNat / 512 := BitVec.toNat_udiv
    rw [BitVec.toNat_add, hquot]
    exact Nat.mod_eq_of_lt (show offset.toNat / 512 + 1 < 2 ^ 32 by omega)
  have hrun : readseg disk fuel va count offset mem
      = some (loaded disk mem (va - offset % SECTSIZE) (offset / SECTSIZE + 1) n) := by
    have hloop := readsegLoop_loaded disk mem (va - offset % SECTSIZE) (offset / SECTSIZE + 1)
      (va + count) (n := n) (by omega) (by omega) (by omega) (by omega) (Nat.zero_le n)
      (show n < 0 + fuel by omega)
    rwa [loaded, Nat.mul_zero, block_empty, BitVec.add_zero, BitVec.add_zero] at hloop
  rw [hrun]
  refine congrArg some (funext fun a => ?_)
  have hbase : (segmentAt va count offset).base = va.toNat - offset.toNat % 512 := rfl
  have htop : (segmentAt va count offset).top = va.toNat - offset.toNat % 512 + 512 * n := by
    rw [hn]
    rfl
  have hsub : (a - (va - offset % SECTSIZE)).toNat
      = if va.toNat - offset.toNat % 512 ≤ a.toNat
        then a.toNat - (va.toNat - offset.toNat % 512)
        else a.toNat + 2 ^ 32 - (va.toNat - offset.toNat % 512) := by
    have ha := a.isLt
    rw [BitVec.toNat_sub, hstart]
    split <;> omega
  have ha := a.isLt
  rw [loaded, block, Segment.put, hbase, htop, hsub, hsecno]
  by_cases hin : va.toNat - offset.toNat % 512 ≤ a.toNat
  · rw [if_pos hin]
    refine if_congr (by omega) (congrArg disk ?_) rfl
    show _ = 512 + offset.toNat + a.toNat - va.toNat
    omega
  · rw [if_neg hin, if_neg (by omega), if_neg (by omega)]

namespace Segment

variable {s t : Segment}

/-- The segment begins as far behind the first sector as its place in the file. -/
theorem Fits.base_add (h : s.Fits) : s.base + s.off % 512 = s.start :=
  Nat.sub_add_cancel h.1

/-- The sectors cover the segment. -/
theorem Fits.end_le_top (h : s.Fits) : s.start + s.size ≤ s.top := by
  have hbase := h.base_add
  rw [top, sectors]
  omega

/-- A segment that is read is in memory. -/
theorem put_in (h : s.Fits) (mem : Mem) : s.In disk (s.put disk mem) := by
  intro a hlow hhigh
  have hbase := h.base_add
  have htop := h.end_le_top
  rw [put, if_pos ⟨by omega, by omega⟩]

/-- Outside of its sectors nothing is written. -/
theorem put_frame (mem : Mem) {a : Word} (ha : a.toNat < s.base ∨ s.top ≤ a.toNat) :
    s.put disk mem a = mem a := by
  rw [put, if_neg (by omega)]

/-- The later segment `t` leaves `s` as it is: below it, above it, or as far
    from its place in the file. -/
def Spares (s t : Segment) : Prop :=
  t.top ≤ s.start ∨ s.start + s.size ≤ t.base ∨ t.off + s.start = s.off + t.start

instance (s t : Segment) : Decidable (s.Spares t) :=
  inferInstanceAs (Decidable (_ ∨ _ ∨ _))

/-- It stays there when a later one spares it. -/
theorem Spares.put_in (h : s.Spares t) {mem : Mem} (hs : s.In disk mem) :
    s.In disk (t.put disk mem) := by
  intro a hlow hhigh
  by_cases ha : t.base ≤ a.toNat ∧ a.toNat < t.top
  · rw [put, if_pos ha]
    rcases h with h | h | h
    · omega
    · omega
    · exact congrArg disk (by omega)
  · rw [put, if_neg ha]
    exact hs a hlow hhigh

end Segment

/-- Memory after some segments. -/
def putAll (disk : Nat → Byte) (segs : List Segment) (mem : Mem) : Mem :=
  segs.foldl (fun mem s => s.put disk mem) mem

/-- Or a row of later ones, by induction on them. -/
theorem putAll_in {segs : List Segment} {s : Segment} (h : ∀ t ∈ segs, s.Spares t) :
    ∀ {mem : Mem}, s.In disk mem → s.In disk (putAll disk segs mem) := by
  induction segs with
  | nil => exact fun hs => hs
  | cons t segs ih =>
      intro mem hs
      exact ih (fun u hu => h u (List.mem_cons_of_mem t hu))
        ((h t List.mem_cons_self).put_in hs)

/-- Outside of the sectors of all segments nothing is written. -/
theorem putAll_frame {segs : List Segment} {a : Word}
    (h : ∀ t ∈ segs, a.toNat < t.base ∨ t.top ≤ a.toNat) :
    ∀ {mem : Mem}, putAll disk segs mem a = mem a := by
  induction segs with
  | nil => exact rfl
  | cons t segs ih =>
      intro mem
      show putAll disk segs (t.put disk mem) a = mem a
      rw [ih fun u hu => h u (List.mem_cons_of_mem t hu)]
      exact Segment.put_frame mem (h t List.mem_cons_self)

/-- Segments that spare those before them are all in memory at the end. -/
theorem putAll_all {segs : List Segment} (hfits : ∀ s ∈ segs, s.Fits)
    (hspares : segs.Pairwise Segment.Spares) :
    ∀ {mem : Mem}, ∀ s ∈ segs, s.In disk (putAll disk segs mem) := by
  induction segs with
  | nil => exact fun s hs => absurd hs List.not_mem_nil
  | cons t segs ih =>
      intro mem s hs
      obtain ⟨hfirst, hrest⟩ := List.pairwise_cons.mp hspares
      rcases List.mem_cons.mp hs with rfl | hs
      · exact putAll_in hfirst (Segment.put_in (hfits s List.mem_cons_self) mem)
      · exact ih (fun u hu => hfits u (List.mem_cons_of_mem t hu)) hrest s hs

/-! ## The headers stay -/

/-- The file as if it were all at `ELFHDR`. -/
def fileAt (disk : Nat → Byte) : Mem := fun a => disk (512 + 1024 + (a - ELFHDR).toNat)

/-- The first page of the file is in memory. -/
def Paged (disk : Nat → Byte) (mem : Mem) : Prop := Set.EqOn mem (fileAt disk) (bytes ELFHDR 4096)

/-- A word of the page is the one in the file. -/
theorem Paged.load {mem : Mem} (h : Paged disk mem) {k : Nat} (hk : k + 4 ≤ 4096) :
    load mem (ELFHDR + BitVec.ofNat 32 k) = load (fileAt disk) (ELFHDR + BitVec.ofNat 32 k) := by
  refine load_eqOn fun a ha => h ?_
  have hsub : (a - (ELFHDR + BitVec.ofNat 32 k)).toNat < 4 := ha
  rw [offset_shift ELFHDR a (by omega)] at hsub
  show (a - ELFHDR).toNat < 4096
  have hlt := (a - ELFHDR).isLt
  split at hsub <;> omega

/-- So are the fields of the ELF header, wherever memory has been written since. -/
theorem Paged.elfhdr {mem : Mem} (h : Paged disk mem) : elfhdr mem = elfhdr (fileAt disk) := by
  have h0 := h.load (show 0 + 4 ≤ 4096 by omega)
  have h24 := h.load (show 24 + 4 ≤ 4096 by omega)
  have h28 := h.load (show 28 + 4 ≤ 4096 by omega)
  have h44 : mem (ELFHDR + 44) = fileAt disk (ELFHDR + 44) :=
    h (mem_bytes (k := 44) (by omega) (by omega))
  have h45 : mem (ELFHDR + 45) = fileAt disk (ELFHDR + 45) :=
    h (mem_bytes (k := 45) (by omega) (by omega))
  rw [BitVec.add_zero] at h0
  simp only [SharixBoot.elfhdr]
  rw [h0, h44, h45]
  exact congrArg₂ (fun entry phoff => Elfhdr.mk _ entry phoff _) h24 h28

/-- And those of a program header in the page. -/
theorem Paged.proghdr {mem : Mem} (h : Paged disk mem) {k : Nat} (hk : k + 32 ≤ 4096) :
    proghdr mem (ELFHDR + BitVec.ofNat 32 k)
      = proghdr (fileAt disk) (ELFHDR + BitVec.ofNat 32 k) := by
  have hload : ∀ j, j + 4 ≤ 32 →
      SharixMachine.load mem (ELFHDR + BitVec.ofNat 32 k + BitVec.ofNat 32 j)
        = SharixMachine.load (fileAt disk) (ELFHDR + BitVec.ofNat 32 k + BitVec.ofNat 32 j) := by
    intro j hj
    rw [BitVec.add_assoc, ← BitVec.ofNat_add]
    exact h.load (by omega)
  simp only [SharixBoot.proghdr]
  rw [show (4 : Word) = BitVec.ofNat 32 4 from rfl, show (8 : Word) = BitVec.ofNat 32 8 from rfl,
    show (20 : Word) = BitVec.ofNat 32 20 from rfl, hload 4 (by omega), hload 8 (by omega),
    hload 20 (by omega)]

/-- A segment that keeps out of the page. -/
def OffPage (s : Segment) : Prop := s.top ≤ 0x10000 ∨ 0x11000 ≤ s.base

instance (s : Segment) : Decidable (OffPage s) := inferInstanceAs (Decidable (_ ∨ _))

/-- A segment that keeps off the loader and its stack, and off the devices between
    640 KiB and 1 MiB. -/
def OffLoader (s : Segment) : Prop := 0x8200 ≤ s.base ∧ (s.top ≤ 0xA0000 ∨ 0x100000 ≤ s.base)

instance (s : Segment) : Decidable (OffLoader s) := inferInstanceAs (Decidable (_ ∧ _))

theorem toNat_page {a : Word} (ha : a ∈ bytes ELFHDR 4096) :
    0x10000 ≤ a.toNat ∧ a.toNat < 0x11000 := by
  have ha : (a - 0x10000#32).toNat < 4096 := ha
  bv_omega

/-- Segments that keep out of the page leave the headers as they are. -/
theorem Paged.put {s : Segment} (hs : OffPage s) {mem : Mem} (h : Paged disk mem) :
    Paged disk (s.put disk mem) := by
  intro a ha
  obtain ⟨hlow, hhigh⟩ := toNat_page ha
  rw [Segment.put_frame mem (by rcases hs with hs | hs <;> omega)]
  exact h ha

theorem Paged.putAll {segs : List Segment} (hsegs : ∀ s ∈ segs, OffPage s) {mem : Mem}
    (h : Paged disk mem) : Paged disk (putAll disk segs mem) := by
  induction segs generalizing mem with
  | nil => exact h
  | cons s segs ih =>
      exact ih (fun t ht => hsegs t (List.mem_cons_of_mem s ht))
        (h.put (hsegs s List.mem_cons_self))

/-! ## All segments -/

/-- The segment of a program header. -/
def segmentOf (p : Proghdr) : Segment :=
  segmentAt (p.pVa &&& 0xFFFFFF) p.pMemsz (SECTSIZE * 2 + p.pOffset)

/-- The first page of the file, and the tables. -/
def headers : Segment := segmentAt ELFHDR (SECTSIZE * 8) (SECTSIZE * 2)
def reserved : Segment := segmentAt RES_ADDR (SECTSIZE * (8 + 116)) (SECTSIZE * 8000)

/-- The program header `i` of the file. -/
def headerAt (disk : Nat → Byte) (i : Nat) : Word :=
  ELFHDR + BitVec.ofNat 32 ((elfhdr (fileAt disk)).ePhoff.toNat + 32 * i)

/-- The segments of the file. -/
def segments (disk : Nat → Byte) : List Segment :=
  (List.range (elfhdr (fileAt disk)).ePhnum.toNat).map fun i =>
    segmentOf (proghdr (fileAt disk) (headerAt disk i))

/-- A kernel on the disk that the loader can put in place. -/
structure Bootable (disk : Nat → Byte) : Prop where
  magic : (elfhdr (fileAt disk)).eMagic = ELF_MAGIC
  inPage : (elfhdr (fileAt disk)).ePhoff.toNat + 32 * (elfhdr (fileAt disk)).ePhnum.toNat ≤ 4096
  fits : ∀ s ∈ segments disk, s.Fits
  offPage : ∀ s ∈ segments disk, OffPage s
  offLoader : ∀ s ∈ segments disk, OffLoader s
  spares : (segments disk ++ [reserved]).Pairwise Segment.Spares

theorem headers_fits : headers.Fits := ⟨by decide, by decide⟩

theorem reserved_fits : reserved.Fits := ⟨by decide, by decide⟩

/-- No segment has more sectors. -/
theorem Segment.Fits.sectors_lt {s : Segment} (h : s.Fits) : s.sectors < 2 ^ 24 := by
  have hend := h.2
  rw [Segment.sectors]
  omega

/-- The calls of `readseg` that `bootmain` makes return, and put their segments in
    place. -/
theorem read_segment {fuel : Nat} (hfuel : 2 ^ 24 ≤ fuel) (mem : Mem) {p : Proghdr}
    (h : (segmentOf p).Fits) :
    readseg disk fuel (p.pVa &&& 0xFFFFFF) p.pMemsz (SECTSIZE * 2 + p.pOffset) mem
      = some ((segmentOf p).put disk mem) :=
  readseg_put h (Nat.lt_of_lt_of_le h.sectors_lt hfuel) mem

theorem read_headers {fuel : Nat} (hfuel : 2 ^ 24 ≤ fuel) (mem : Mem) :
    readseg disk fuel ELFHDR (SECTSIZE * 8) (SECTSIZE * 2) mem = some (headers.put disk mem) :=
  readseg_put headers_fits (Nat.lt_of_lt_of_le headers_fits.sectors_lt hfuel) mem

theorem read_reserved {fuel : Nat} (hfuel : 2 ^ 24 ≤ fuel) (mem : Mem) :
    readseg disk fuel RES_ADDR (SECTSIZE * (8 + 116)) (SECTSIZE * 8000) mem
      = some (reserved.put disk mem) :=
  readseg_put reserved_fits (Nat.lt_of_lt_of_le reserved_fits.sectors_lt hfuel) mem

/-- The loop from program header `i` on, by induction on those that are left. -/
theorem loadSegments_eq {n fuel : Nat} (hpage : (elfhdr (fileAt disk)).ePhoff.toNat + 32 * n ≤ 4096)
    (hsegs : ∀ i < n, (segmentOf (proghdr (fileAt disk) (headerAt disk i))).Fits ∧
      OffPage (segmentOf (proghdr (fileAt disk) (headerAt disk i))))
    (hfuel : 2 ^ 24 ≤ fuel) (k : Nat) : ∀ {i f : Nat} {mem : Mem}, i + k = n → k < f →
      Paged disk mem →
      loadSegments disk fuel (headerAt disk n) f (headerAt disk i) mem
        = some (putAll disk ((List.range' i k).map fun i =>
            segmentOf (proghdr (fileAt disk) (headerAt disk i))) mem) := by
  have htoNat : ∀ i, i ≤ n → (headerAt disk i).toNat
      = 0x10000 + ((elfhdr (fileAt disk)).ePhoff.toNat + 32 * i) := by
    intro i hi
    exact toNat_add_ofNat ELFHDR (show 0x10000 + _ < 2 ^ 32 by omega)
  induction k with
  | zero =>
      intro i f mem hi hf _
      obtain ⟨f, rfl⟩ := Nat.exists_eq_succ_of_ne_zero (Nat.ne_of_gt hf)
      rw [Nat.add_zero] at hi
      subst hi
      rw [loadSegments, if_neg (by rw [BitVec.lt_def]; omega)]
      rfl
  | succ k ih =>
      intro i f mem hi hf hmem
      obtain ⟨f, rfl⟩ := Nat.exists_eq_succ_of_ne_zero (show f ≠ 0 by omega)
      have hlt : headerAt disk i < headerAt disk n := by
        rw [BitVec.lt_def, htoNat i (by omega), htoNat n (Nat.le_refl n)]
        omega
      have hnext : headerAt disk i + 32 = headerAt disk (i + 1) := by
        rw [headerAt, headerAt, BitVec.add_assoc, show (32 : Word) = BitVec.ofNat 32 32 from rfl,
          ← BitVec.ofNat_add, Nat.mul_succ, Nat.add_assoc]
      obtain ⟨hfits, hoff⟩ := hsegs i (by omega)
      rw [loadSegments, if_pos hlt]
      show (readseg disk fuel _ _ _ mem).bind _ = _
      rw [show proghdr mem (headerAt disk i) = proghdr (fileAt disk) (headerAt disk i) from
        hmem.proghdr (by omega), read_segment hfuel mem hfits, Option.bind_some, hnext,
        ih (by omega) (by omega) (hmem.put hoff)]
      rfl

/-- The first call of `readseg`. -/
theorem paged_headers (mem : Mem) : Paged disk (headers.put disk mem) := by
  intro a ha
  obtain ⟨hlow, hhigh⟩ := toNat_page ha
  have hin : headers.In disk (headers.put disk mem) := Segment.put_in headers_fits mem
  rw [hin a hlow hhigh]
  show disk (512 + 1024 + a.toNat - 65536) = disk (512 + 1024 + (a - 0x10000#32).toNat)
  refine congrArg disk ?_
  bv_omega

/-- A file that is not ELF is not entered. -/
theorem bootmain_bad (hmagic : (elfhdr (fileAt disk)).eMagic ≠ ELF_MAGIC) {fuel : Nat}
    (hfuel : 2 ^ 24 ≤ fuel) (mem : Mem) :
    bootmain disk fuel mem = some (headers.put disk mem, none) := by
  show (readseg disk fuel ELFHDR (SECTSIZE * 8) (SECTSIZE * 2) mem).bind _ = _
  rw [read_headers hfuel, Option.bind_some, (paged_headers mem).elfhdr, if_pos hmagic]
  rfl

/-- All that is read is off the loader. -/
theorem Bootable.offLoader_all (h : Bootable disk) :
    ∀ s ∈ headers :: (segments disk ++ [reserved]), OffLoader s := by
  intro s hs
  rcases List.mem_cons.mp hs with rfl | hs
  · decide
  · rcases List.mem_append.mp hs with hs | hs
    · exact h.offLoader s hs
    · rw [List.mem_singleton.mp hs]
      decide

/-- A disk with two segments, the second in the sectors behind the first. -/
def twoSegments : Nat → Byte
  | 1536 => 0x7F | 1537 => 0x45 | 1538 => 0x4C | 1539 => 0x46
  | 1562 => 0x10 | 1563 => 0xC0
  | 1564 => 52
  | 1580 => 2
  | 1593 => 0x10 | 1598 => 0x10 | 1599 => 0xC0 | 1609 => 0x03
  | 1625 => 0x21 | 1629 => 0x11 | 1630 => 0x10 | 1631 => 0xC0 | 1641 => 0x02
  | _ => 0

/-- Its two segments, read off the headers, meet what `Bootable` asks. -/
theorem bootable_twoSegments : Bootable twoSegments := by
  have hsegs : segments twoSegments = [⟨0x100000, 0x300, 0x1400⟩, ⟨0x101100, 0x200, 0x2500⟩] := by
    decide +kernel
  refine ⟨by decide +kernel, by decide +kernel, ?_, ?_, ?_, ?_⟩
  · rw [hsegs]
    simp [Segment.Fits]
  · rw [hsegs]
    decide
  · rw [hsegs]
    decide
  · rw [hsegs]
    decide

end SharixBoot
