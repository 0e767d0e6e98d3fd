import Sharix.MemmoveProofs
import Sharix.ParseProofs

/-! # Strings in memory — `libs/string.c`, `libs/x86.h`

    A string is a row of bytes that are not 0, and a 0.  `strcmp`, `strcpy` and
    `memcpy` are in the source twice, as loops and as the string instructions
    that the kernel compiles in.

    * `strcmp_lex`: loop and instructions compare alike, as lists of unsigned
      bytes compare, though they return different numbers;
    * `strcpy_ends_iff`: they copy alike, whatever overlaps; a destination
      inside the string behind its first byte is the one case in which they
      never end, for the 0 is overwritten before it is read;
    * `memcpy_agrees_iff`: `rep movsl` copies what the loop copies unless the
      destination is 1, 2 or 3 bytes behind the source.

    The functions on lists that `parse` and `vprintfmt` are modelled with are
    what these do in memory. -/

namespace SharixString

open SharixBlock SharixMemmove

/-! ## Strings -/

/-- The string `l` stands at `s`. -/
def CString (m : Mem) : Word → List Byte → Prop
  | s, [] => m s = 0
  | s, c :: l => c ≠ 0 ∧ m s = c ∧ CString m (s + 1) l

theorem addr_succ (s : Word) (k : Nat) :
    s + 1 + BitVec.ofNat 32 k = s + BitVec.ofNat 32 (k + 1) := by
  rw [BitVec.add_assoc, Nat.add_comm, BitVec.ofNat_add]
  rfl

theorem CString.get {m : Mem} {l : List Byte} : ∀ {s : Word}, CString m s l →
    (∀ k, k < l.length → m (s + BitVec.ofNat 32 k) ≠ 0) ∧
      m (s + BitVec.ofNat 32 l.length) = 0 := by
  induction l with
  | nil =>
      intro s h
      refine ⟨fun k hk => absurd hk (Nat.not_lt_zero k), ?_⟩
      rw [List.length_nil, BitVec.add_zero]
      exact h
  | cons c l ih =>
      intro s h
      obtain ⟨hc, hs, hl⟩ := h
      obtain ⟨hchars, hend⟩ := ih hl
      refine ⟨fun k hk => ?_, ?_⟩
      · cases k with
        | zero => rwa [BitVec.add_zero, hs]
        | succ k =>
            rw [← addr_succ]
            exact hchars k (Nat.lt_of_succ_lt_succ hk)
      · rw [List.length_cons, ← addr_succ]
        exact hend

/-- The 0 is met before the addresses come round. -/
theorem CString.length_lt {m : Mem} {s : Word} {l : List Byte} (h : CString m s l) :
    l.length < 2 ^ 32 := by
  by_contra hlong
  obtain ⟨hchars, hend⟩ := h.get
  refine hchars (l.length % 2 ^ 32) (by omega) ?_
  rwa [show BitVec.ofNat 32 (l.length % 2 ^ 32) = BitVec.ofNat 32 l.length from
    BitVec.eq_of_toNat_eq (by rw [BitVec.toNat_ofNat, BitVec.toNat_ofNat, Nat.mod_mod])]

/-! ## The loops -/

/-- `while (*s ++ != '\0') cnt ++;`. -/
def strlen (m : Mem) : Nat → Word → Option Nat
  | 0, _ => none
  | fuel + 1, s => if m s ≠ 0 then (strlen m fuel (s + 1)).map (· + 1) else some 0

/-- `while (cnt < len && *s ++ != '\0') cnt ++;`. -/
def strnlen (m : Mem) : Word → Nat → Nat
  | _, 0 => 0
  | s, len + 1 => if m s ≠ 0 then strnlen m (s + 1) len + 1 else 0

/-- `strchr`; `some none` is `NULL`. -/
def strchr (m : Mem) (c : Byte) : Nat → Word → Option (Option Word)
  | 0, _ => none
  | fuel + 1, s =>
      if m s ≠ 0 then if m s = c then some (some s) else strchr m c fuel (s + 1)
      else some none

/-- `strfind`. -/
def strfind (m : Mem) (c : Byte) : Nat → Word → Option Word
  | 0, _ => none
  | fuel + 1, s =>
      if m s ≠ 0 then if m s = c then some s else strfind m c fuel (s + 1) else some s

/-- `(int)((unsigned char)*s1 - (unsigned char)*s2)`. -/
def byteDiff (a b : Byte) : Int := a.toNat - b.toNat

/-- `strcmp` without `__HAVE_ARCH_STRCMP`. -/
def strcmpLoop (m : Mem) : Nat → Word → Word → Option Int
  | 0, _, _ => none
  | fuel + 1, s1, s2 =>
      if m s1 ≠ 0 ∧ m s1 = m s2 then strcmpLoop m fuel (s1 + 1) (s2 + 1)
      else some (byteDiff (m s1) (m s2))

def strncmp (m : Mem) : Nat → Word → Word → Int
  | 0, _, _ => 0
  | n + 1, s1, s2 =>
      if m s1 ≠ 0 ∧ m s1 = m s2 then strncmp m n (s1 + 1) (s2 + 1)
      else byteDiff (m s1) (m s2)

def memcmp (m : Mem) : Nat → Word → Word → Int
  | 0, _, _ => 0
  | n + 1, s1, s2 =>
      if m s1 ≠ m s2 then byteDiff (m s1) (m s2) else memcmp m n (s1 + 1) (s2 + 1)

/-- `while ((*p ++ = *src ++) != '\0');`. -/
def strcpyLoop : Nat → Mem → Word → Word → Option Mem
  | 0, _, _, _ => none
  | fuel + 1, m, p, src =>
      let c := m src
      let m := Function.update m p c
      if c ≠ 0 then strcpyLoop fuel m (p + 1) (src + 1) else some m

/-- The loop of `strncpy`. -/
def strncpyLoop : Nat → Mem → Word → Word → Mem
  | 0, m, _, _ => m
  | len + 1, m, p, src =>
      let c := m src
      let m := Function.update m p c
      strncpyLoop len m (p + 1) (if c ≠ 0 then src + 1 else src)

/-- `while (n -- > 0) *p ++ = c;`. -/
def memsetLoop (c : Byte) : Nat → Mem → Word → Mem
  | 0, m, _ => m
  | n + 1, m, p => memsetLoop c n (Function.update m p c) (p + 1)

/-! ## The string instructions -/

/-- The machine of `rep movs`, with `eax` and two flags. -/
structure Cpu extends SharixMemmove.Cpu where
  eax : Word
  cf : Bool
  zf : Bool

def al (s : Cpu) : Byte := s.eax.extractLsb' 0 8

def setAl (s : Cpu) (b : Byte) : Cpu := { s with eax := s.eax.extractLsb' 8 24 ++ b }

def stepBy (df : Bool) (a : Word) : Word := if df then a - 1 else a + 1

def lodsb (s : Cpu) : Cpu := { setAl s (s.mem s.esi) with esi := stepBy s.df s.esi }

def stosb (s : Cpu) : Cpu :=
  { s with mem := Function.update s.mem s.edi (al s), edi := stepBy s.df s.edi }

def scasb (s : Cpu) : Cpu :=
  { s with
    cf := decide (al s < s.mem s.edi)
    zf := decide (al s = s.mem s.edi)
    edi := stepBy s.df s.edi }

/-- `testb %al, %al`. -/
def testAl (s : Cpu) : Cpu := { s with cf := false, zf := decide (al s = 0) }

/-- `sbbl %eax, %eax`. -/
def sbbEax (s : Cpu) : Cpu := { s with eax := if s.cf then -1 else 0, zf := !s.cf }

/-- `orb $1, %al`. -/
def orAl (s : Cpu) : Cpu := { setAl s (al s ||| 1) with cf := false, zf := false }

/-- The code of `__strcmp` from the label 1 on. -/
def strcmpCode : Nat → Cpu → Option Cpu
  | 0, _ => none
  | fuel + 1, s =>
      let s := scasb (lodsb s)
      if s.zf then
        let s := testAl s
        if s.zf then some { s with eax := 0 } else strcmpCode fuel s
      else some (orAl (sbbEax s))

/-- `__strcmp`. -/
def strcmpArch (fuel : Nat) (s : Cpu) (s1 s2 : Word) : Option (Cpu × Word) :=
  (strcmpCode fuel { s with esi := s1, edi := s2 }).map fun s => (s, s.eax)

/-- The code of `__strcpy`. -/
def strcpyCode : Nat → Cpu → Option Cpu
  | 0, _ => none
  | fuel + 1, s =>
      let s := testAl (stosb (lodsb s))
      if s.zf then some s else strcpyCode fuel s

/-- `__strcpy`. -/
def strcpyArch (fuel : Nat) (s : Cpu) (dst src : Word) : Option (Cpu × Word) :=
  (strcpyCode fuel { s with esi := src, edi := dst }).map fun s => (s, dst)

/-- `rep stosb`, `k` times. -/
def repStosb : Nat → Cpu → Cpu
  | 0, s => s
  | k + 1, s => repStosb k { stosb s with ecx := s.ecx - 1 }

/-- `__memset`. -/
def memsetArch (s : Cpu) (p : Word) (c : Byte) (n : Word) : Cpu × Word :=
  let s := { setAl s c with ecx := n, edi := p }
  (repStosb s.ecx.toNat s, p)

/-- `memcpy` without `__HAVE_ARCH_MEMCPY`. -/
def memcpyLoop (m : Mem) (dst src n : Word) : Mem × Word := (copyUp n.toNat m dst src, dst)

/-! ## The loops on lists -/

theorem strlen_eq {m : Mem} {l : List Byte} : ∀ {s : Word} {fuel : Nat}, CString m s l →
    l.length < fuel → strlen m fuel s = some l.length := by
  induction l with
  | nil =>
      intro s fuel h hfuel
      obtain ⟨fuel, rfl⟩ := Nat.exists_eq_succ_of_ne_zero (Nat.ne_of_gt hfuel)
      have hs : m s = 0 := h
      rw [strlen, if_neg (not_not.mpr hs)]
      rfl
  | cons c l ih =>
      intro s fuel h hfuel
      obtain ⟨fuel, rfl⟩ := Nat.exists_eq_succ_of_ne_zero (Nat.ne_of_gt (Nat.zero_lt_of_lt hfuel))
      obtain ⟨hc, hs, hl⟩ := h
      rw [strlen, if_pos (by rw [hs]; exact hc), ih hl (Nat.lt_of_succ_lt_succ hfuel)]
      rfl

theorem strnlen_eq {m : Mem} {l : List Byte} : ∀ {s : Word} (len : Nat), CString m s l →
    strnlen m s len = SharixPrintfmt.strnlen l len := by
  induction l with
  | nil =>
      intro s len h
      have hs : m s = 0 := h
      cases len with
      | zero => rfl
      | succ len =>
          rw [strnlen, if_neg (not_not.mpr hs)]
          rfl
  | cons c l ih =>
      intro s len h
      obtain ⟨hc, hs, hl⟩ := h
      cases len with
      | zero => rfl
      | succ len =>
          rw [strnlen, if_pos (by rw [hs]; exact hc), ih len hl]
          rfl

theorem strchr_length {c : Byte} {l rest : List Byte} (h : SharixParse.strchr l c = some rest) :
    rest.length ≤ l.length := by
  induction l with
  | nil => exact nomatch h
  | cons x l ih =>
      rw [SharixParse.strchr] at h
      by_cases hxc : x = c
      · rw [if_pos hxc] at h
        rw [← Option.some.inj h]
      · rw [if_neg hxc] at h
        exact Nat.le_succ_of_le (ih h)

/-- `strchr` on the list gives what is left of the string, in memory its
    address. -/
theorem strchr_eq {m : Mem} (c : Byte) {l : List Byte} : ∀ {s : Word} {fuel : Nat},
    CString m s l → l.length < fuel →
    strchr m c fuel s = some ((SharixParse.strchr l c).map fun rest =>
      s + BitVec.ofNat 32 (l.length - rest.length)) := by
  induction l with
  | nil =>
      intro s fuel h hfuel
      obtain ⟨fuel, rfl⟩ := Nat.exists_eq_succ_of_ne_zero (Nat.ne_of_gt hfuel)
      have hs : m s = 0 := h
      rw [strchr, if_neg (not_not.mpr hs)]
      rfl
  | cons x l ih =>
      intro s fuel h hfuel
      obtain ⟨fuel, rfl⟩ := Nat.exists_eq_succ_of_ne_zero (Nat.ne_of_gt (Nat.zero_lt_of_lt hfuel))
      obtain ⟨hx, hs, hl⟩ := h
      rw [strchr, if_pos (by rw [hs]; exact hx), hs, SharixParse.strchr]
      by_cases hxc : x = c
      · rw [if_pos hxc, if_pos hxc, Option.map_some, Nat.sub_self, BitVec.add_zero]
      · rw [if_neg hxc, if_neg hxc, ih hl (Nat.lt_of_succ_lt_succ hfuel)]
        refine congrArg some (Option.map_congr fun rest hrest => ?_)
        rw [addr_succ, List.length_cons, Nat.succ_sub (strchr_length hrest)]

theorem strfind_eq {m : Mem} (c : Byte) {l : List Byte} : ∀ {s : Word} {fuel : Nat},
    CString m s l → l.length < fuel →
    strfind m c fuel s = some (s + BitVec.ofNat 32 (l.takeWhile (· ≠ c)).length) := by
  induction l with
  | nil =>
      intro s fuel h hfuel
      obtain ⟨fuel, rfl⟩ := Nat.exists_eq_succ_of_ne_zero (Nat.ne_of_gt hfuel)
      have hs : m s = 0 := h
      rw [strfind, if_neg (not_not.mpr hs), List.takeWhile_nil, List.length_nil, BitVec.add_zero]
  | cons x l ih =>
      intro s fuel h hfuel
      obtain ⟨fuel, rfl⟩ := Nat.exists_eq_succ_of_ne_zero (Nat.ne_of_gt (Nat.zero_lt_of_lt hfuel))
      obtain ⟨hx, hs, hl⟩ := h
      rw [strfind, if_pos (by rw [hs]; exact hx), hs]
      by_cases hxc : x = c
      · rw [if_pos hxc, List.takeWhile_cons_of_neg (by simp [hxc]), List.length_nil,
          BitVec.add_zero]
      · rw [if_neg hxc, ih hl (Nat.lt_of_succ_lt_succ hfuel),
          List.takeWhile_cons_of_pos (by simp [hxc]), List.length_cons, addr_succ]

/-! ## Comparing -/

/-- The difference of the first bytes that differ, the end counting as 0. -/
def firstDiff : List Byte → List Byte → Int
  | [], [] => 0
  | [], d :: _ => byteDiff 0 d
  | c :: _, [] => byteDiff c 0
  | c :: l, d :: l' => if c = d then firstDiff l l' else byteDiff c d

theorem byteDiff_neg {a b : Byte} : byteDiff a b < 0 ↔ a < b := by
  rw [byteDiff, BitVec.lt_def]
  omega

theorem byteDiff_zero {a b : Byte} : byteDiff a b = 0 ↔ a = b := by
  rw [byteDiff, ← BitVec.toNat_inj]
  omega

theorem zero_lt_byte {a : Byte} (h : a ≠ 0) : 0 < a := by
  have h0 : a.toNat ≠ 0 := fun h0 => h (BitVec.eq_of_toNat_eq h0)
  rw [BitVec.lt_def]
  exact Nat.pos_of_ne_zero h0

/-- The sign is that of the lexicographic order, if no byte of a longer list is
    taken for its end. -/
theorem firstDiff_sign {l : List Byte} : ∀ {l' : List Byte},
    l.length = l'.length ∨ (0 ∉ l ∧ 0 ∉ l') →
    (firstDiff l l' < 0 ↔ l < l') ∧ (firstDiff l l' = 0 ↔ l = l') := by
  induction l with
  | nil =>
      intro l' h
      cases l' with
      | nil => simp [firstDiff]
      | cons d l' =>
          have hd : d ≠ 0 := by
            rcases h with h | h
            · exact nomatch h
            · exact fun hd => h.2 (hd ▸ List.mem_cons_self)
          refine ⟨iff_of_true (byteDiff_neg.mpr (zero_lt_byte hd)) (List.nil_lt_cons d l'), ?_⟩
          exact iff_of_false (fun h0 => hd (byteDiff_zero.mp h0).symm) (fun hl => nomatch hl)
  | cons c l ih =>
      intro l' h
      cases l' with
      | nil =>
          have hc : c ≠ 0 := by
            rcases h with h | h
            · exact nomatch h
            · exact fun hc => h.1 (hc ▸ List.mem_cons_self)
          refine ⟨iff_of_false ?_ (fun hl => nomatch hl), ?_⟩
          · rw [firstDiff, byteDiff_neg]
            exact BitVec.not_lt_zero
          · exact iff_of_false (fun h0 => hc (byteDiff_zero.mp h0)) (fun hl => nomatch hl)
      | cons d l' =>
          have hrest : l.length = l'.length ∨ (0 ∉ l ∧ 0 ∉ l') := by
            rcases h with h | h
            · exact Or.inl (Nat.succ.inj h)
            · exact Or.inr ⟨fun hm => h.1 (List.mem_cons_of_mem c hm),
                fun hm => h.2 (List.mem_cons_of_mem d hm)⟩
          obtain ⟨hlt, heq⟩ := ih hrest
          rw [firstDiff, List.cons_lt_cons_iff, List.cons.injEq]
          by_cases hcd : c = d
          · subst hcd
            rw [if_pos rfl, hlt, heq]
            refine ⟨⟨fun h => Or.inr ⟨rfl, h⟩, fun h => ?_⟩, by simp⟩
            exact h.elim (fun hc => absurd hc (BitVec.lt_irrefl c)) And.right
          · rw [if_neg hcd, byteDiff_neg, byteDiff_zero]
            simp [hcd]

theorem CString.zero_notMem {m : Mem} {l : List Byte} : ∀ {s : Word}, CString m s l → 0 ∉ l := by
  induction l with
  | nil => exact fun _ => List.not_mem_nil
  | cons c l ih =>
      intro s h hmem
      obtain ⟨hc, -, hl⟩ := h
      rcases List.mem_cons.mp hmem with h0 | h0
      · exact hc h0.symm
      · exact ih hl h0

/-- Where the loop stops: after a common part, which has no 0, at bytes that
    differ or at two ends. -/
theorem strcmpLoop_eq {m : Mem} {l₁ : List Byte} : ∀ {l₂ : List Byte} {s1 s2 : Word} {fuel : Nat},
    CString m s1 l₁ → CString m s2 l₂ → l₁.length < fuel →
    strcmpLoop m fuel s1 s2 = some (firstDiff l₁ l₂) := by
  induction l₁ with
  | nil =>
      intro l₂ s1 s2 fuel h1 h2 hfuel
      obtain ⟨fuel, rfl⟩ := Nat.exists_eq_succ_of_ne_zero (Nat.ne_of_gt hfuel)
      have hs1 : m s1 = 0 := h1
      rw [strcmpLoop, if_neg (fun h => h.1 hs1), hs1]
      cases l₂ with
      | nil =>
          have hs2 : m s2 = 0 := h2
          rw [hs2]
          rfl
      | cons d l₂ =>
          rw [h2.2.1]
          rfl
  | cons c l₁ ih =>
      intro l₂ s1 s2 fuel h1 h2 hfuel
      obtain ⟨fuel, rfl⟩ := Nat.exists_eq_succ_of_ne_zero (Nat.ne_of_gt (Nat.zero_lt_of_lt hfuel))
      obtain ⟨hc, hs1, hl₁⟩ := h1
      rw [strcmpLoop, hs1]
      cases l₂ with
      | nil =>
          have hs2 : m s2 = 0 := h2
          rw [hs2, if_neg (fun h => h.1 h.2)]
          rfl
      | cons d l₂ =>
          obtain ⟨-, hs2, hl₂⟩ := h2
          rw [hs2, firstDiff]
          by_cases hcd : c = d
          · rw [if_pos ⟨hc, hcd⟩, if_pos hcd, ih hl₁ hl₂ (Nat.lt_of_succ_lt_succ hfuel)]
          · rw [if_neg (fun h => hcd h.2), if_neg hcd]

/-- `setAl` and `al`. -/
theorem al_setAl (s : Cpu) (b : Byte) : al (setAl s b) = b :=
  BitVec.extractLsb'_append_eq_right

/-- What `sbbl` and `orb` make of the carry flag. -/
theorem orAl_sbbEax (s : Cpu) : (orAl (sbbEax s)).eax = if s.cf then -1 else 1 := by
  cases hcf : s.cf
  · simp only [orAl, sbbEax, setAl, al, hcf]
    rfl
  · simp only [orAl, sbbEax, setAl, al, hcf]
    rfl

/-- The instructions compare as the loop does, and return its sign. -/
theorem strcmpCode_eq (fuel : Nat) : ∀ {s : Cpu}, s.df = false →
    (strcmpCode fuel s).map (fun t => (t.mem, t.eax))
      = (strcmpLoop s.mem fuel s.esi s.edi).map fun r => (s.mem, BitVec.ofInt 32 r.sign) := by
  induction fuel with
  | zero => exact fun _ => rfl
  | succ fuel ih =>
      intro s hdf
      obtain ⟨t, ht⟩ : ∃ t, t = scasb (lodsb s) := ⟨_, rfl⟩
      have hal : al t = s.mem s.esi := by
        rw [ht]
        exact al_setAl s _
      have hzf : t.zf = decide (s.mem s.esi = s.mem s.edi) := by
        rw [← hal, ht]
        rfl
      have hcf : t.cf = decide (s.mem s.esi < s.mem s.edi) := by
        rw [← hal, ht]
        rfl
      have hmem : t.mem = s.mem := by
        rw [ht]
        rfl
      have hstep : t.esi = s.esi + 1 ∧ t.edi = s.edi + 1 ∧ t.df = false := by
        have hone : ∀ a : Word, stepBy s.df a = a + 1 := by
          intro a
          rw [hdf]
          rfl
        rw [ht]
        exact ⟨hone s.esi, hone s.edi, hdf⟩
      rw [strcmpCode, strcmpLoop]
      dsimp only
      rw [← ht, hzf]
      by_cases heq : s.mem s.esi = s.mem s.edi
      · rw [if_pos (decide_eq_true heq)]
        have hzf' : (testAl t).zf = decide (s.mem s.esi = 0) := by
          rw [← hal]
          rfl
        rw [hzf']
        by_cases h0 : s.mem s.esi = 0
        · rw [if_pos (decide_eq_true h0), if_neg (fun h => h.1 h0), Option.map_some,
            Option.map_some, byteDiff_zero.mpr heq]
          show some (t.mem, (0 : Word)) = _
          rw [hmem]
          rfl
        · rw [if_neg (fun h => h0 (of_decide_eq_true h)), if_pos ⟨h0, heq⟩,
            ih (s := testAl t) hstep.2.2]
          show Option.map (fun r => (t.mem, BitVec.ofInt 32 r.sign))
            (strcmpLoop t.mem fuel t.esi t.edi) = _
          rw [hstep.1, hstep.2.1, hmem]
      · rw [if_neg (fun h => heq (of_decide_eq_true h)), if_neg (fun h => heq h.2),
          Option.map_some, Option.map_some]
        have hne : byteDiff (s.mem s.esi) (s.mem s.edi) ≠ 0 := fun h => heq (byteDiff_zero.mp h)
        rw [orAl_sbbEax, hcf]
        show some (t.mem, _) = _
        rw [hmem]
        refine congrArg (fun w => some (s.mem, w)) ?_
        by_cases hlt : s.mem s.esi < s.mem s.edi
        · rw [if_pos (decide_eq_true hlt), Int.sign_eq_neg_one_of_neg (byteDiff_neg.mpr hlt)]
          rfl
        · have hpos : 0 < byteDiff (s.mem s.esi) (s.mem s.edi) := by
            have hge := mt byteDiff_neg.mp hlt
            omega
          rw [if_neg (fun h => hlt (of_decide_eq_true h)), Int.sign_eq_one_of_pos hpos]
          rfl

/-- **`strcmp` COMPARES AS LISTS OF UNSIGNED BYTES COMPARE**, in both versions:
    the instructions return the sign of what the loop returns. -/
theorem strcmp_lex {s : Cpu} (hdf : s.df = false) {s1 s2 : Word} {l₁ l₂ : List Byte}
    (h1 : CString s.mem s1 l₁) (h2 : CString s.mem s2 l₂) {fuel : Nat} (hfuel : l₁.length < fuel) :
    ∃ (r : Int) (t : Cpu), strcmpLoop s.mem fuel s1 s2 = some r ∧
      strcmpArch fuel s s1 s2 = some (t, BitVec.ofInt 32 r.sign) ∧ t.mem = s.mem ∧
      (r < 0 ↔ l₁ < l₂) ∧ (r = 0 ↔ l₁ = l₂) := by
  have hloop := strcmpLoop_eq h1 h2 hfuel
  have hcode := strcmpCode_eq fuel (s := { s with esi := s1, edi := s2 }) hdf
  rw [hloop, Option.map_some] at hcode
  obtain ⟨t, ht, hpair⟩ := Option.map_eq_some_iff.mp hcode
  obtain ⟨hmem, heax⟩ := Prod.mk.inj hpair
  refine ⟨firstDiff l₁ l₂, t, hloop, ?_, hmem,
    firstDiff_sign (Or.inr ⟨h1.zero_notMem, h2.zero_notMem⟩)⟩
  rw [strcmpArch, ht, Option.map_some, heax]

/-- `"ab"` at 100, and `"b"` in it. -/
def abAt : Mem := fun a => if a = 100 then 97 else if a = 101 then 98 else 0

theorem abAt_string : CString abAt 100 [97, 98] :=
  ⟨by decide, by decide, by decide, by decide, show abAt 102 = 0 by decide⟩

theorem strcmp_lex_ab : ∃ (r : Int) (t : Cpu), strcmpLoop abAt 3 100 101 = some r ∧
    strcmpArch 3 ⟨⟨0, 0, 0, false, abAt⟩, 0, false, false⟩ 100 101
      = some (t, BitVec.ofInt 32 r.sign) ∧ t.mem = abAt ∧
    (r < 0 ↔ [97, 98] < ([98] : List Byte)) ∧ (r = 0 ↔ [97, 98] = ([98] : List Byte)) :=
  @strcmp_lex ⟨⟨0, 0, 0, false, abAt⟩, 0, false, false⟩ rfl 100 101 [97, 98] [98] abAt_string
    abAt_string.2.2 3 (by decide)

/-- The bytes from `s` on. -/
def bytesFrom (m : Mem) : Nat → Word → List Byte
  | 0, _ => []
  | n + 1, s => m s :: bytesFrom m n (s + 1)

theorem length_bytesFrom (m : Mem) (n : Nat) : ∀ s : Word, (bytesFrom m n s).length = n := by
  induction n with
  | zero => exact fun _ => rfl
  | succ n ih => exact fun s => congrArg Nat.succ (ih (s + 1))

theorem memcmp_eq (m : Mem) (n : Nat) : ∀ s1 s2 : Word,
    memcmp m n s1 s2 = firstDiff (bytesFrom m n s1) (bytesFrom m n s2) := by
  induction n with
  | zero => exact fun _ _ => rfl
  | succ n ih =>
      intro s1 s2
      rw [memcmp, bytesFrom, bytesFrom, firstDiff, ih]
      exact ite_not ..

/-- `memcmp` compares whatever stands there. -/
theorem memcmp_lex (m : Mem) (n : Nat) (s1 s2 : Word) :
    (memcmp m n s1 s2 < 0 ↔ bytesFrom m n s1 < bytesFrom m n s2) ∧
      (memcmp m n s1 s2 = 0 ↔ bytesFrom m n s1 = bytesFrom m n s2) := by
  rw [memcmp_eq]
  exact firstDiff_sign (Or.inl ((length_bytesFrom m n s1).trans (length_bytesFrom m n s2).symm))

theorem strncmp_eq {m : Mem} (n : Nat) : ∀ {l₁ l₂ : List Byte} {s1 s2 : Word},
    CString m s1 l₁ → CString m s2 l₂ →
    strncmp m n s1 s2 = firstDiff (l₁.take n) (l₂.take n) := by
  induction n with
  | zero => exact fun _ _ => rfl
  | succ n ih =>
      intro l₁ l₂ s1 s2 h1 h2
      rw [strncmp]
      cases l₁ with
      | nil =>
          have hs1 : m s1 = 0 := h1
          rw [if_neg (fun h => h.1 hs1), hs1]
          cases l₂ with
          | nil =>
              have hs2 : m s2 = 0 := h2
              rw [hs2]
              rfl
          | cons d l₂ =>
              rw [h2.2.1]
              rfl
      | cons c l₁ =>
          obtain ⟨hc, hs1, hl₁⟩ := h1
          rw [hs1]
          cases l₂ with
          | nil =>
              have hs2 : m s2 = 0 := h2
              rw [hs2, if_neg (fun h => h.1 h.2)]
              rfl
          | cons d l₂ =>
              obtain ⟨-, hs2, hl₂⟩ := h2
              rw [hs2, List.take_succ_cons, List.take_succ_cons, firstDiff]
              by_cases hcd : c = d
              · rw [if_pos ⟨hc, hcd⟩, if_pos hcd, ih hl₁ hl₂]
              · rw [if_neg (fun h => hcd h.2), if_neg hcd]

/-! ## Copying -/

/-- The loop of `memcpy` in two parts. -/
theorem copyUp_add (a : Nat) : ∀ (b : Nat) (m : Mem) (d s : Word),
    copyUp (a + b) m d s
      = copyUp b (copyUp a m d s) (d + BitVec.ofNat 32 a) (s + BitVec.ofNat 32 a) := by
  induction a with
  | zero =>
      intro b m d s
      rw [Nat.zero_add, BitVec.add_zero, BitVec.add_zero]
      rfl
  | succ a ih =>
      intro b m d s
      rw [Nat.succ_add]
      show copyUp (a + b) (Function.update m d (m s)) (d + 1) (s + 1) = _
      rw [ih, addr_succ, addr_succ]
      rfl

theorem copyUp_frame {n : Nat} : ∀ {m : Mem} {d s a : Word},
    (∀ k, k < n → a ≠ d + BitVec.ofNat 32 k) → copyUp n m d s a = m a := by
  induction n with
  | zero => exact fun _ => rfl
  | succ n ih =>
      intro m d s a ha
      rw [copyUp, ih fun k hk => by rw [addr_succ]; exact ha (k + 1) (Nat.succ_lt_succ hk)]
      refine Function.update_of_ne ?_ _ _
      have h0 := ha 0 (Nat.succ_pos n)
      rwa [BitVec.add_zero] at h0

/-- `dst` is none of the next `n - 1` addresses behind `src`. -/
def Clear (dst src : Word) (n : Nat) : Prop :=
  ∀ i, 0 < i → i < n → dst ≠ src + BitVec.ofNat 32 i

/-- A byte is read as it was, if no earlier one was stored there. -/
theorem Clear.get {dst src : Word} {n : Nat} (h : Clear dst src n) (m : Mem) {t : Nat}
    (ht : t < n) (f : Nat → Byte) :
    block m dst 0 t f (src + BitVec.ofNat 32 t) = m (src + BitVec.ofNat 32 t) := by
  refine block_frame fun k _ hk hsame => h (t - k) (by omega) (by omega) ?_
  have hsplit : BitVec.ofNat 32 t = BitVec.ofNat 32 (t - k) + BitVec.ofNat 32 k := by
    rw [← BitVec.ofNat_add, Nat.sub_add_cancel (Nat.le_of_lt hk)]
  rw [hsplit, ← BitVec.add_assoc] at hsame
  exact ((BitVec.add_left_inj _).mp hsame).symm

/-- One more byte of a copy in progress. -/
theorem Clear.step {dst src : Word} {n : Nat} (h : Clear dst src n) (hn : n ≤ 2 ^ 32) (m : Mem)
    {t : Nat} (ht : t < n) :
    Function.update (moved m dst src 0 t) (dst + BitVec.ofNat 32 t)
        (moved m dst src 0 t (src + BitVec.ofNat 32 t))
      = moved m dst src 0 (t + 1) := by
  have hjoin := @block_join _ _ m dst (fun j => m (src + BitVec.ofNat 32 j)) 0 t 0 (t + 1) t 1
    (by omega) (by omega) (fun i => by omega)
  rw [block_one] at hjoin
  have hget : moved m dst src 0 t (src + BitVec.ofNat 32 t) = m (src + BitVec.ofNat 32 t) :=
    h.get m ht _
  rw [hget]
  exact hjoin

/-- The loop leaves the bytes that were there. -/
theorem Clear.copyUp {dst src : Word} {n : Nat} (h : Clear dst src n) (hn : n ≤ 2 ^ 32) (m : Mem) :
    copyUp n m dst src = moved m dst src 0 n := by
  have hrest : ∀ k t, t + k = n → SharixMemmove.copyUp k (moved m dst src 0 t)
      (dst + BitVec.ofNat 32 t) (src + BitVec.ofNat 32 t) = moved m dst src 0 n := by
    intro k
    induction k with
    | zero =>
        intro t ht
        rw [← ht]
        rfl
    | succ k ih =>
        intro t ht
        rw [SharixMemmove.copyUp, h.step hn m (by omega)]
        have hnext := ih (t + 1) (by omega)
        rwa [BitVec.ofNat_add, ← BitVec.add_assoc, ← BitVec.add_assoc] at hnext
  have hall := hrest n 0 (Nat.zero_add n)
  rwa [moved, block_empty, BitVec.add_zero, BitVec.add_zero] at hall

/-! ### `memcpy` -/

/-- Four bytes at once, unless one of them is stored where a later one is
    read. -/
theorem movsl_copyUp {s : SharixMemmove.Cpu} (h : Clear s.edi s.esi 4) :
    (movsl s).mem = copyUp 4 s.mem s.edi s.esi :=
  (h.copyUp (by omega) s.mem).symm

/-- Where `rep movs` stops. -/
theorem repLoop_movs_regs {size k : Nat} : ∀ {s : SharixMemmove.Cpu}, s.df = false →
    (repLoop (movs size) k s).edi = s.edi + BitVec.ofNat 32 (size * k) ∧
      (repLoop (movs size) k s).esi = s.esi + BitVec.ofNat 32 (size * k) ∧
      (repLoop (movs size) k s).df = false := by
  induction k with
  | zero => exact fun hdf => ⟨(BitVec.add_zero _).symm, (BitVec.add_zero _).symm, hdf⟩
  | succ k ih =>
      intro s hdf
      have hedi : (movs size s).edi = s.edi + BitVec.ofNat 32 size := by
        rw [movs, hdf]
        rfl
      have hesi : (movs size s).esi = s.esi + BitVec.ofNat 32 size := by
        rw [movs, hdf]
        rfl
      obtain ⟨h1, h2, h3⟩ := ih (s := { movs size s with ecx := s.ecx - 1 }) hdf
      have hsum : ∀ a : Word, a + BitVec.ofNat 32 size + BitVec.ofNat 32 (size * k)
          = a + BitVec.ofNat 32 (size * (k + 1)) := by
        intro a
        rw [BitVec.add_assoc, ← BitVec.ofNat_add, Nat.mul_succ, Nat.add_comm]
      refine ⟨h1.trans ?_, h2.trans ?_, h3⟩
      · show (movs size s).edi + _ = _
        rw [hedi, hsum]
      · show (movs size s).esi + _ = _
        rw [hesi, hsum]

theorem repLoop_movsl {k : Nat} : ∀ {s : SharixMemmove.Cpu}, s.df = false → Clear s.edi s.esi 4 →
    (repLoop movsl k s).mem = copyUp (4 * k) s.mem s.edi s.esi := by
  induction k with
  | zero => exact fun _ _ => rfl
  | succ k ih =>
      intro s hdf h
      obtain ⟨hedi, hesi, -⟩ := @repLoop_movs_regs 4 1 _ hdf
      have hclear : Clear (movsl s).edi (movsl s).esi 4 := by
        intro i hi h4 he
        rw [show (movsl s).edi = _ from hedi, show (movsl s).esi = _ from hesi, BitVec.add_assoc,
          BitVec.add_comm (BitVec.ofNat 32 (4 * 1)), ← BitVec.add_assoc] at he
        exact h i hi h4 ((BitVec.add_left_inj _).mp he)
      have hrest := ih (s := { movsl s with ecx := s.ecx - 1 }) hdf hclear
      refine hrest.trans ?_
      show copyUp (4 * k) (movsl s).mem (movsl s).edi (movsl s).esi = _
      rw [Nat.mul_succ, Nat.add_comm, copyUp_add, movsl_copyUp h, show (movsl s).edi = _ from hedi,
        show (movsl s).esi = _ from hesi]

theorem repLoop_movs_frame {size k : Nat} : ∀ {s : SharixMemmove.Cpu} {a : Word}, s.df = false →
    (∀ j, j < size * k → a ≠ s.edi + BitVec.ofNat 32 j) →
    (repLoop (movs size) k s).mem a = s.mem a := by
  induction k with
  | zero => exact fun _ _ => rfl
  | succ k ih =>
      intro s a hdf ha
      have hedi : (movs size s).edi = s.edi + BitVec.ofNat 32 size := by
        rw [movs, hdf]
        rfl
      have hrest := ih (s := { movs size s with ecx := s.ecx - 1 }) (a := a) hdf (by
        intro j hj
        show a ≠ (movs size s).edi + _
        rw [hedi, BitVec.add_assoc, ← BitVec.ofNat_add]
        exact ha (size + j) (by rw [Nat.mul_succ]; omega))
      refine hrest.trans ?_
      show (movs size s).mem a = s.mem a
      rw [movs_mem]
      exact block_frame fun j _ hj => ha j (by rw [Nat.mul_succ]; omega)

theorem toNat_and_three (n : Word) : (n &&& 3).toNat = n.toNat % 4 := by
  rw [BitVec.toNat_and]
  exact Nat.and_two_pow_sub_one_eq_mod n.toNat 2

/-- The instructions, with the tail that `jz` skips if it is empty. -/
theorem memcpyArch_rep (s : SharixMemmove.Cpu) (dst src n : Word) :
    (memcpyArch s dst src n).1.mem = (repLoop movsb (n.toNat % 4)
      { repLoop movsl (n.toNat / 4) { s with ecx := n / 4, edi := dst, esi := src } with
        ecx := n &&& 3 }).mem := by
  have hquot : (n / 4).toNat = n.toNat / 4 := BitVec.toNat_udiv
  rw [← hquot, ← toNat_and_three]
  show (if n &&& 3 = 0 then _ else rep movsb _ : SharixMemmove.Cpu).mem = _
  by_cases h0 : n &&& 3 = 0
  · rw [if_pos h0, h0]
    rfl
  · rw [if_neg h0]
    rfl

/-- A byte 1 at `src`. -/
def markAt (src : Word) : Mem := fun a => if a = src then 1 else 0

theorem addr_ne (d : Word) {i j : Nat} (hi : i < 2 ^ 32) (hj : j < 2 ^ 32) (hij : i ≠ j) :
    d + BitVec.ofNat 32 i ≠ d + BitVec.ofNat 32 j := by
  intro he
  have h1 := congrArg (fun a : Word => (a - d).toNat) he
  rw [offset_eq d hi, offset_eq d hj] at h1
  exact hij h1

/-- The byte at an offset, once it has been copied. -/
theorem copyUp_at {n i : Nat} (hi : i < n) (hn : n ≤ 2 ^ 32) (m : Mem) (d s : Word) :
    copyUp n m d s (d + BitVec.ofNat 32 i) = copyUp i m d s (s + BitVec.ofNat 32 i) := by
  obtain ⟨k, rfl⟩ : ∃ k, n = i + (1 + k) := ⟨n - i - 1, by omega⟩
  rw [copyUp_add, copyUp_add, copyUp_frame]
  · exact Function.update_self ..
  · intro j hj
    rw [BitVec.add_assoc, BitVec.add_assoc, ← BitVec.ofNat_add, ← BitVec.ofNat_add]
    exact addr_ne d (by omega) (by omega) (by omega)

/-- The loop reads at `dst` what it has stored there first. -/
theorem loop_byte {dst src : Word} {n i : Nat} (hi : i < n) (hn : n ≤ 2 ^ 32) (h0 : 0 < i)
    (hdst : dst = src + BitVec.ofNat 32 i) :
    copyUp n (markAt src) dst src (dst + BitVec.ofNat 32 i) = 1 := by
  have hfirst := copyUp_at h0 (by omega) (markAt src) dst src
  rw [BitVec.add_zero, BitVec.add_zero] at hfirst
  rw [copyUp_at hi hn, ← hdst, hfirst, copyUp, markAt, if_pos rfl]

/-- The instructions have loaded it before. -/
theorem arch_byte {dst src n : Word} {i : Nat} (hn : 4 ≤ n.toNat) (h0 : 0 < i) (h4 : i < 4) :
    (memcpyArch ⟨0, 0, 0, false, markAt src⟩ dst src n).1.mem (dst + BitVec.ofNat 32 i) = 0 := by
  have hlt := n.isLt
  obtain ⟨q, hq⟩ : ∃ q, n.toNat / 4 = q + 1 := ⟨n.toNat / 4 - 1, by omega⟩
  obtain ⟨s₀, hs₀⟩ : ∃ s₀ : SharixMemmove.Cpu, s₀ = ⟨n / 4, src, dst, false, markAt src⟩ :=
    ⟨_, rfl⟩
  have hdf : s₀.df = false := by rw [hs₀]
  have hedi : s₀.edi = dst := by rw [hs₀]
  obtain ⟨hedi₁, -, hdf₁⟩ := @repLoop_movs_regs 4 (q + 1) _ hdf
  obtain ⟨hedi₂, -, hdf₂⟩ := @repLoop_movs_regs 4 1 _ hdf
  rw [memcpyArch_rep, hq]
  show (repLoop movsb _ { repLoop movsl (q + 1) ⟨n / 4, src, dst, false, markAt src⟩ with
    ecx := n &&& 3 }).mem _ = 0
  rw [← hs₀]
  -- the byte is not among those copied behind the first word
  refine (@repLoop_movs_frame 1 _ { repLoop movsl (q + 1) s₀ with ecx := n &&& 3 } _ hdf₁
    fun j hj => ?_).trans ((@repLoop_movs_frame 4 q { movsl s₀ with ecx := s₀.ecx - 1 } _ hdf₂
      fun j hj => ?_).trans ?_)
  · show _ ≠ (repLoop movsl (q + 1) s₀).edi + _
    rw [show (repLoop movsl (q + 1) s₀).edi = _ from hedi₁, hedi, BitVec.add_assoc,
      ← BitVec.ofNat_add]
    exact addr_ne dst (by omega) (by omega) (by omega)
  · show _ ≠ (movsl s₀).edi + _
    rw [show (movsl s₀).edi = _ from hedi₂, hedi, BitVec.add_assoc, ← BitVec.ofNat_add]
    exact addr_ne dst (by omega) (by omega) (by omega)
  · show (movs 4 s₀).mem _ = 0
    rw [movs_mem, hs₀, block_get (Nat.zero_le i) h4 (by omega)]
    refine if_neg fun he => addr_ne src (i := i) (j := 0) (by omega) (by omega) (by omega) ?_
    rw [he, BitVec.add_zero]

/-- **`rep movsl` AGAINST THE LOOP**: they leave the same memory, from every
    memory, exactly if fewer than four bytes are copied or the destination is
    not 1, 2 or 3 bytes behind the source. -/
theorem memcpy_agrees_iff (dst src n : Word) :
    (∀ s : SharixMemmove.Cpu, s.df = false →
      ((memcpyArch s dst src n).1.mem, (memcpyArch s dst src n).2) = memcpyLoop s.mem dst src n) ↔
    n.toNat < 4 ∨ Clear dst src 4 := by
  constructor
  · intro hagree
    by_contra hno
    obtain ⟨hn, hclear⟩ := not_or.mp hno
    have hn : 4 ≤ n.toNat := Nat.le_of_not_lt hn
    obtain ⟨i, hi, h4, hdst⟩ : ∃ i, 0 < i ∧ i < 4 ∧ dst = src + BitVec.ofNat 32 i := by
      by_contra hnone
      exact hclear fun i hi h4 he => hnone ⟨i, hi, h4, he⟩
    have hsame := congrArg Prod.fst (hagree ⟨0, 0, 0, false, markAt src⟩ rfl)
    have hloop : copyUp n.toNat (markAt src) dst src (dst + BitVec.ofNat 32 i) = 1 :=
      loop_byte (Nat.lt_of_lt_of_le h4 hn) (Nat.le_of_lt n.isLt) hi hdst
    have hone : (0 : Byte) = 1 :=
      (arch_byte hn hi h4).symm.trans ((congrFun hsame (dst + BitVec.ofNat 32 i)).trans hloop)
    exact absurd hone (by decide)
  · intro h s hdf
    refine Prod.ext ?_ rfl
    show (memcpyArch s dst src n).1.mem = copyUp n.toNat s.mem dst src
    rw [memcpyArch_rep]
    obtain ⟨s₀, hs₀⟩ : ∃ s₀ : SharixMemmove.Cpu,
      s₀ = { s with ecx := n / 4, edi := dst, esi := src } := ⟨_, rfl⟩
    rw [← hs₀]
    have hdf₀ : s₀.df = false := by rw [hs₀]; exact hdf
    have hwords : (repLoop movsl (n.toNat / 4) s₀).mem
        = copyUp (4 * (n.toNat / 4)) s.mem dst src := by
      rcases h with h | h
      · rw [show n.toNat / 4 = 0 by omega, hs₀]
        rfl
      · rw [hs₀]
        exact repLoop_movsl hdf h
    obtain ⟨hedi, hesi, hend⟩ := @repLoop_movs_regs 4 (n.toNat / 4) _ hdf₀
    have htail := copyUp_eq (n.toNat % 4) (repLoop movsl (n.toNat / 4) s₀).mem
      (repLoop movsl (n.toNat / 4) s₀).edi (repLoop movsl (n.toNat / 4) s₀).esi (n &&& 3)
    rw [← show (repLoop movsl (n.toNat / 4) s₀).df = false from hend] at htail
    rw [← htail, hwords, show (repLoop movsl (n.toNat / 4) s₀).edi = _ from hedi,
      show (repLoop movsl (n.toNat / 4) s₀).esi = _ from hesi, hs₀, ← copyUp_add,
      Nat.div_add_mod]

/-! ### `memset` -/

theorem memsetLoop_eq (c : Byte) (n : Nat) : ∀ (m : Mem) (p : Word), n ≤ 2 ^ 32 →
    memsetLoop c n m p = block m p 0 n fun _ => c := by
  induction n with
  | zero => exact fun m p _ => (block_empty m p 0 _).symm
  | succ n ih =>
      intro m p hn
      rw [memsetLoop, ih _ _ (by omega), ← block_one m p fun _ => c]
      exact @block_join _ _ m p (fun _ => c) 0 1 0 (n + 1) 1 n (by omega) (by omega)
        (fun i => by omega)

theorem repStosb_mem (k : Nat) : ∀ {s : Cpu}, s.df = false →
    (repStosb k s).mem = memsetLoop (al s) k s.mem s.edi := by
  induction k with
  | zero => exact fun _ => rfl
  | succ k ih =>
      intro s hdf
      have hedi : (stosb s).edi = s.edi + 1 := by
        rw [stosb, stepBy, hdf]
        rfl
      refine (ih (s := { stosb s with ecx := s.ecx - 1 }) hdf).trans ?_
      show memsetLoop (al s) k (stosb s).mem (stosb s).edi = _
      rw [hedi]
      rfl

/-- Loop and instructions fill the bytes and nothing else. -/
theorem memset_fills {s : Cpu} (hdf : s.df = false) (p : Word) (c : Byte) (n : Word) :
    (memsetArch s p c n).1.mem = (block s.mem p 0 n.toNat fun _ => c) ∧
      memsetLoop c n.toNat s.mem p = block s.mem p 0 n.toNat fun _ => c := by
  have hloop := memsetLoop_eq c n.toNat s.mem p (Nat.le_of_lt n.isLt)
  refine ⟨?_, hloop⟩
  have harch := repStosb_mem n.toNat (s := { setAl s c with ecx := n, edi := p }) hdf
  rw [show al { setAl s c with ecx := n, edi := p } = c from al_setAl s c] at harch
  exact harch.trans hloop

/-! ### `strcpy` -/

theorem strcpyCode_eq (fuel : Nat) : ∀ {s : Cpu}, s.df = false →
    (strcpyCode fuel s).map (fun t => t.mem) = strcpyLoop fuel s.mem s.edi s.esi := by
  induction fuel with
  | zero => exact fun _ => rfl
  | succ fuel ih =>
      intro s hdf
      obtain ⟨t, ht⟩ : ∃ t, t = testAl (stosb (lodsb s)) := ⟨_, rfl⟩
      have hal : al (lodsb s) = s.mem s.esi := al_setAl s _
      have hmem : t.mem = Function.update s.mem s.edi (s.mem s.esi) := by
        rw [ht, ← hal]
        rfl
      have hzf : t.zf = decide (s.mem s.esi = 0) := by
        rw [ht, ← hal]
        rfl
      have hstep : t.edi = s.edi + 1 ∧ t.esi = s.esi + 1 ∧ t.df = false := by
        have hone : ∀ a : Word, stepBy s.df a = a + 1 := by
          intro a
          rw [hdf]
          rfl
        rw [ht]
        exact ⟨hone s.edi, hone s.esi, hdf⟩
      rw [strcpyCode, strcpyLoop, ← ht, hzf]
      by_cases h0 : s.mem s.esi = 0
      · rw [if_pos (decide_eq_true h0), if_neg (not_not.mpr h0), Option.map_some, hmem]
      · rw [if_neg (fun h => h0 (of_decide_eq_true h)), if_pos h0, ih hstep.2.2, hmem,
          hstep.1, hstep.2.1]

theorem CString.of_same {m m' : Mem} {l : List Byte} : ∀ {s d : Word}, CString m s l →
    (∀ k, k ≤ l.length → m' (d + BitVec.ofNat 32 k) = m (s + BitVec.ofNat 32 k)) →
    CString m' d l := by
  induction l with
  | nil =>
      intro s d h hsame
      have h0 := hsame 0 (Nat.le_refl 0)
      rw [BitVec.add_zero, BitVec.add_zero] at h0
      exact h0.trans h
  | cons c l ih =>
      intro s d h hsame
      obtain ⟨hc, hs, hl⟩ := h
      have h0 := hsame 0 (Nat.zero_le _)
      rw [BitVec.add_zero, BitVec.add_zero] at h0
      refine ⟨hc, h0.trans hs, ih hl fun k hk => ?_⟩
      rw [addr_succ, addr_succ]
      exact hsame (k + 1) (Nat.succ_le_succ hk)

/-- Clear of the string, the loop copies it with its 0 and stops there. -/
theorem strcpyLoop_clear {m : Mem} {dst src : Word} {l : List Byte} (h : CString m src l)
    (hclear : Clear dst src (l.length + 1)) (fuel : Nat) :
    strcpyLoop fuel m dst src
      = if l.length < fuel then some (moved m dst src 0 (l.length + 1)) else none := by
  obtain ⟨hchars, hend⟩ := h.get
  have hlen := h.length_lt
  have hrest : ∀ fuel t, t ≤ l.length → strcpyLoop fuel (moved m dst src 0 t)
      (dst + BitVec.ofNat 32 t) (src + BitVec.ofNat 32 t)
        = if l.length - t < fuel then some (moved m dst src 0 (l.length + 1)) else none := by
    intro fuel
    induction fuel with
    | zero => exact fun t _ => (if_neg (Nat.not_lt_zero _)).symm
    | succ fuel ih =>
        intro t ht
        have hget : moved m dst src 0 t (src + BitVec.ofNat 32 t) = m (src + BitVec.ofNat 32 t) :=
          hclear.get m (Nat.lt_succ_of_le ht) _
        rw [strcpyLoop, hclear.step hlen m (Nat.lt_succ_of_le ht), hget]
        rcases Nat.lt_or_eq_of_le ht with hlt | rfl
        · have hnext := ih (t + 1) hlt
          rw [BitVec.ofNat_add, ← BitVec.add_assoc, ← BitVec.add_assoc] at hnext
          rw [if_pos (hchars t hlt)]
          refine hnext.trans (if_congr (by omega) rfl rfl)
        · rw [if_neg (not_not.mpr hend), if_pos (by omega)]
  have hall := hrest fuel 0 (Nat.zero_le _)
  rwa [moved, block_empty, BitVec.add_zero, BitVec.add_zero] at hall

/-- Inside the string the loop runs after itself: `i` bytes ahead of where it
    reads there is no 0. -/
theorem strcpyLoop_never {i : Nat} (hi : 0 < i) (fuel : Nat) : ∀ {m : Mem} {src : Word},
    (∀ k, k < i → m (src + BitVec.ofNat 32 k) ≠ 0) →
    strcpyLoop fuel m (src + BitVec.ofNat 32 i) src = none := by
  induction fuel with
  | zero => exact fun _ => rfl
  | succ fuel ih =>
      intro m src hahead
      have hc : m src ≠ 0 := by
        have h0 := hahead 0 hi
        rwa [BitVec.add_zero] at h0
      rw [strcpyLoop, if_pos hc, BitVec.add_assoc, BitVec.add_comm (BitVec.ofNat 32 i),
        ← BitVec.add_assoc]
      refine ih fun k hk => ?_
      rw [addr_succ]
      by_cases hlast : src + BitVec.ofNat 32 (k + 1) = src + BitVec.ofNat 32 i
      · rw [hlast, Function.update_self]
        exact hc
      · rw [Function.update_of_ne hlast]
        rcases Nat.lt_or_eq_of_le (Nat.succ_le_of_lt hk) with hlt | heq
        · exact hahead (k + 1) hlt
        · exact absurd (congrArg (fun j => src + BitVec.ofNat 32 j) heq) hlast

/-- **`strcpy` ENDS EXACTLY IF THE DESTINATION IS NOT INSIDE THE STRING** behind
    its first byte; then the string is copied and nothing else changes.  Loop
    and instructions agree in all cases, without end too. -/
theorem strcpy_ends_iff {s : Cpu} (hdf : s.df = false) {src : Word} {l : List Byte}
    (h : CString s.mem src l) (dst : Word) :
    ((∃ fuel m', strcpyLoop fuel s.mem dst src = some m') ↔
        ∀ i, 0 < i → i ≤ l.length → dst ≠ src + BitVec.ofNat 32 i) ∧
      (∀ fuel m', strcpyLoop fuel s.mem dst src = some m' → CString m' dst l ∧
        ∀ a, (∀ k, k ≤ l.length → a ≠ dst + BitVec.ofNat 32 k) → m' a = s.mem a) ∧
      ∀ fuel, (strcpyArch fuel s dst src).map (fun r => (r.1.mem, r.2))
        = (strcpyLoop fuel s.mem dst src).map fun m' => (m', dst) := by
  have hends : ∀ fuel m', strcpyLoop fuel s.mem dst src = some m' →
      Clear dst src (l.length + 1) := by
    intro fuel m' hrun i hi hlt hdst
    rw [hdst, strcpyLoop_never hi fuel fun k hk => h.get.1 k (by omega)] at hrun
    exact nomatch hrun
  refine ⟨⟨fun ⟨fuel, m', hrun⟩ i hi hle => hends fuel m' hrun i hi (Nat.lt_succ_of_le hle),
    fun hclear => ?_⟩, fun fuel m' hrun => ?_, fun fuel => ?_⟩
  · refine ⟨l.length + 1, moved s.mem dst src 0 (l.length + 1), ?_⟩
    rw [strcpyLoop_clear h fun i hi hlt => hclear i hi (Nat.le_of_lt_succ hlt),
      if_pos (Nat.lt_succ_self _)]
  · rw [strcpyLoop_clear h (hends fuel m' hrun)] at hrun
    obtain ⟨-, rfl⟩ : l.length < fuel ∧ moved s.mem dst src 0 (l.length + 1) = m' := by
      by_cases hfuel : l.length < fuel
      · rw [if_pos hfuel] at hrun
        exact ⟨hfuel, Option.some.inj hrun⟩
      · rw [if_neg hfuel] at hrun
        exact nomatch hrun
    have hlen := h.length_lt
    refine ⟨h.of_same fun k hk => ?_, fun a ha => ?_⟩
    · exact block_get (Nat.zero_le k) (Nat.lt_succ_of_le hk) (by omega)
    · exact block_frame fun k _ hk => ha k (Nat.le_of_lt_succ hk)
  · have hcode := strcpyCode_eq fuel (s := { s with esi := src, edi := dst }) hdf
    rw [strcpyArch, ← hcode, Option.map_map, Option.map_map]
    rfl

/-- `strncpy` pads with 0 up to `len` bytes. -/
theorem strncpyLoop_eq {m : Mem} {dst src : Word} {l : List Byte} (h : CString m src l) {len : Nat}
    (hlen : len ≤ 2 ^ 32) (hclear : Clear dst src (min len (l.length + 1))) :
    strncpyLoop len m dst src = block m dst 0 len fun j =>
      if j < l.length then m (src + BitVec.ofNat 32 j) else 0 := by
  obtain ⟨hchars, hend⟩ := h.get
  have hlt := h.length_lt
  obtain ⟨f, hf⟩ : ∃ f : Nat → Byte, f = fun j =>
    if j < l.length then m (src + BitVec.ofNat 32 j) else 0 := ⟨_, rfl⟩
  rw [← hf]
  have hrest : ∀ k t, t + k = len → strncpyLoop k (block m dst 0 t f) (dst + BitVec.ofNat 32 t)
      (src + BitVec.ofNat 32 (min t l.length)) = block m dst 0 len f := by
    intro k
    induction k with
    | zero =>
        intro t ht
        rw [← ht]
        rfl
    | succ k ih =>
        intro t ht
        have hget : block m dst 0 t f (src + BitVec.ofNat 32 (min t l.length)) = f t := by
          rcases Nat.lt_or_ge t l.length with hin | hout
          · rw [Nat.min_eq_left (Nat.le_of_lt hin), hclear.get m (by omega), hf]
            exact (if_pos hin).symm
          · have hzero : f t = 0 := by
              rw [hf]
              exact if_neg (Nat.not_lt.mpr hout)
            rw [Nat.min_eq_right hout, hzero, hf, block]
            split
            · next hstored =>
                -- what has been stored over the end is padding
                refine if_neg fun ho => hclear _ (Nat.sub_pos_of_lt ho) (by omega) ?_
                have hsplit : BitVec.ofNat 32 l.length
                    = BitVec.ofNat 32 (l.length - (src + BitVec.ofNat 32 l.length - dst).toNat)
                      + BitVec.ofNat 32 (src + BitVec.ofNat 32 l.length - dst).toNat := by
                  rw [← BitVec.ofNat_add, Nat.sub_add_cancel (Nat.le_of_lt ho)]
                have hsame := at_offset dst (src + BitVec.ofNat 32 l.length)
                nth_rewrite 1 [hsplit] at hsame
                rw [← BitVec.add_assoc] at hsame
                exact ((BitVec.add_left_inj _).mp hsame).symm
            · exact hend
        have hstep : Function.update (block m dst 0 t f) (dst + BitVec.ofNat 32 t) (f t)
            = block m dst 0 (t + 1) f := by
          have hjoin := @block_join _ _ m dst f 0 t 0 (t + 1) t 1 (by omega) (by omega)
            (fun i => by omega)
          rwa [block_one] at hjoin
        have hnext := ih (t + 1) (by omega)
        rw [BitVec.ofNat_add, ← BitVec.add_assoc] at hnext
        rw [strncpyLoop, hget, hstep]
        refine Eq.trans (congrArg (strncpyLoop k _ _) ?_) hnext
        by_cases hin : t < l.length
        · have hne : f t ≠ 0 := by
            rw [hf]
            dsimp only
            rw [if_pos hin]
            exact hchars t hin
          rw [if_pos hne, Nat.min_eq_left (by omega), Nat.min_eq_left (by omega),
            BitVec.ofNat_add, BitVec.add_assoc]
          rfl
        · have hz : f t = 0 := by
            rw [hf]
            exact if_neg hin
          rw [if_neg (not_not.mpr hz), Nat.min_eq_right (by omega), Nat.min_eq_right (by omega)]
  have hall := hrest len 0 (Nat.zero_add len)
  rwa [block_empty, Nat.zero_min, BitVec.add_zero, BitVec.add_zero] at hall

/-- One place up it never ends. -/
theorem strcpy_ends_iff_ab : ¬ ∃ fuel m', strcpyLoop fuel abAt 101 100 = some m' := fun hrun =>
  (@strcpy_ends_iff ⟨⟨0, 0, 0, false, abAt⟩, 0, false, false⟩ rfl 100 [97, 98] abAt_string 101).1.mp
    hrun 1 (by decide) (by decide) rfl

end SharixString
