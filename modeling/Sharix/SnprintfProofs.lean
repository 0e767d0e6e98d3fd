import Sharix.PrintfmtNumberProofs
import Mathlib.Logic.Function.Basic

/-! # `vsnprintf` — `printfmt.c`

    `sprintputch` is a sink of `vprintfmt` like the one of the console, so what
    it is called with is the text that the console would get.  It keeps counting
    when the buffer is full, and `ebuf` is the last byte of the buffer, which it
    never reaches: that byte is left for the `NUL`.

    The format and the strings are not in the buffer. -/

namespace SharixPrintfmt

/-! ## The model -/

abbrev Memory := BitVec 32 → Byte

structure SprintBuf where
  buf : BitVec 32
  ebuf : BitVec 32
  cnt : Int

/-- The buffer and the memory it is in. -/
def sprintputch (ch : Int) : SprintBuf × Memory → SprintBuf × Memory
  | (b, mem) =>
      let b := { b with cnt := wrapInt (b.cnt + 1) }
      if b.buf < b.ebuf then
        ({ b with buf := b.buf + 1 }, Function.update mem b.buf (BitVec.ofInt 8 ch))
      else (b, mem)

/-- `-E_INVAL`. -/
def eInval : Int := -3

def vsnprintf (fuel : Nat) (str size : BitVec 32) (fmt : List Byte) (ap : List Arg)
    (mem : Memory) : Option (Int × Memory) := do
  let b : SprintBuf := ⟨str, str + size - 1, 0⟩
  if str = 0 ∨ b.ebuf < b.buf then return (eInval, mem)
  let (b, mem) ← vprintfmt sprintputch fuel (Cursor.start fmt) ap (b, mem)
  return (b.cnt, Function.update mem b.buf 0)

/-- The counter, and what has been sent to the console. -/
def cputch (c : Int) : Int × List Int → Int × List Int
  | (cnt, console) => (wrapInt (cnt + 1), console ++ [c])

def vcprintf (fuel : Nat) (fmt : List Byte) (ap : List Arg) (console : List Int) :
    Option (Int × List Int) :=
  vprintfmt cputch fuel (Cursor.start fmt) ap (0, console)

/-! ## The console -/

theorem wrapInt_count (cnt : Int) (n : Nat) :
    wrapInt (wrapInt (cnt + 1) + n) = wrapInt (cnt + ((n + 1 : Nat) : Int)) := by
  unfold wrapInt
  rw [Int.bmod_add_bmod]
  congr 1
  omega

theorem putAll_cputch {l : List Int} : ∀ (cnt : Int) (console : List Int),
    wrapInt cnt = cnt →
    putAll cputch l (cnt, console) = (wrapInt (cnt + l.length), console ++ l) := by
  induction l with
  | nil =>
      intro cnt console hcnt
      simp [hcnt]
  | cons c l ih =>
      intro cnt console hcnt
      rw [putAll_cons, cputch, ih _ _ (wrapInt_wrapInt _), wrapInt_count,
        List.append_assoc]
      rfl

/-- The console gets the text. -/
theorem vcprintf_prints {fmt : List Byte} {ap : List Arg} {T : List Int}
    (hT : Prints fmt ap T) (console : List Int) :
    ∃ n, ∀ fuel, n < fuel →
      vcprintf fuel fmt ap console = some (wrapInt T.length, console ++ T) := by
  obtain ⟨n, hT⟩ := hT
  refine ⟨n, fun fuel hf => ?_⟩
  rw [vcprintf, vprintfmt_record, hT fuel hf, Option.map_some, List.nil_append,
    putAll_cputch _ _ (by decide), zero_add]

/-! ## The buffer -/

section Step

variable {buf ebuf : BitVec 32} (cnt ch : Int) (mem : Memory)

theorem sprintputch_room (h : buf < ebuf) :
    sprintputch ch (⟨buf, ebuf, cnt⟩, mem) = (⟨buf + 1, ebuf, wrapInt (cnt + 1)⟩,
      Function.update mem buf (BitVec.ofInt 8 ch)) :=
  if_pos h

theorem sprintputch_full (h : ¬ buf < ebuf) :
    sprintputch ch (⟨buf, ebuf, cnt⟩, mem) = (⟨buf, ebuf, wrapInt (cnt + 1)⟩, mem) :=
  if_neg h

end Step

/-- The characters `l` from the address `a` on. -/
def store (a : BitVec 32) : List Int → Memory → Memory
  | [], mem => mem
  | c :: l, mem => store (a + 1) l (Function.update mem a (BitVec.ofInt 8 c))

theorem toNat_succ {a : BitVec 32} (h : a.toNat + 1 < 2 ^ 32) :
    (a + 1).toNat = a.toNat + 1 :=
  BitVec.toNat_add_of_lt h

theorem address_succ (a : BitVec 32) (i : Nat) :
    a + BitVec.ofNat 32 (i + 1) = a + 1 + BitVec.ofNat 32 i := by
  rw [BitVec.ofNat_add, BitVec.add_comm (BitVec.ofNat 32 i), BitVec.add_assoc]
  rfl

theorem store_frame {l : List Int} : ∀ {a : BitVec 32} (mem : Memory) {x : BitVec 32},
    a.toNat + l.length < 2 ^ 32 → x.toNat < a.toNat ∨ a.toNat + l.length ≤ x.toNat →
    store a l mem x = mem x := by
  induction l with
  | nil => exact fun _ _ _ _ => rfl
  | cons c l ih =>
      intro a mem x ha hx
      rw [List.length_cons] at ha hx
      have hnext := toNat_succ (a := a) (by omega)
      have hne : x ≠ a := by
        rintro rfl
        omega
      rw [store, ih _ (by omega) (by omega), Function.update_of_ne hne]

theorem store_get {l : List Int} : ∀ {a : BitVec 32} (mem : Memory),
    a.toNat + l.length < 2 ^ 32 → ∀ i, ∀ hi : i < l.length,
      store a l mem (a + BitVec.ofNat 32 i) = BitVec.ofInt 8 l[i] := by
  induction l with
  | nil => exact fun _ _ i hi => absurd hi (Nat.not_lt_zero i)
  | cons c l ih =>
      intro a mem ha i hi
      rw [List.length_cons] at ha
      have hnext := toNat_succ (a := a) (by omega)
      cases i with
      | zero =>
          rw [BitVec.add_zero, store, store_frame _ (by omega) (.inl (by omega)),
            Function.update_self]
          rfl
      | succ i =>
          rw [address_succ, store]
          exact ih _ (by omega) i (Nat.lt_of_succ_lt_succ hi)

/-- All calls count; those with room store. -/
theorem putAll_sprintputch {l : List Int} : ∀ (b : SprintBuf) (mem : Memory) (k : Nat),
    b.buf ≤ b.ebuf → wrapInt b.cnt = b.cnt →
    k = min l.length (b.ebuf.toNat - b.buf.toNat) →
    putAll sprintputch l (b, mem)
      = (⟨b.buf + BitVec.ofNat 32 k, b.ebuf, wrapInt (b.cnt + l.length)⟩,
          store b.buf (l.take k) mem) := by
  induction l with
  | nil =>
      rintro b mem k - hcnt rfl
      simp [hcnt, store]
  | cons c l ih =>
      rintro ⟨buf, ebuf, cnt⟩ mem k hle hcnt hk
      simp only [List.length_cons] at hle hk ⊢
      have hebuf := ebuf.isLt
      rw [BitVec.le_def] at hle
      by_cases hroom : buf < ebuf
      · have hlt := BitVec.lt_def.mp hroom
        have hnext := toNat_succ (a := buf) (by omega)
        obtain ⟨k, rfl⟩ : ∃ m, k = m + 1 := ⟨k - 1, by omega⟩
        have hle' : buf + 1 ≤ ebuf := by
          rw [BitVec.le_def, hnext]
          omega
        have hk' : k = min l.length (ebuf.toNat - (buf + 1).toNat) := by
          rw [hnext]
          omega
        rw [putAll_cons, sprintputch_room _ _ _ hroom, ih ⟨buf + 1, ebuf, wrapInt (cnt + 1)⟩ _ k
          hle' (wrapInt_wrapInt _) hk', address_succ, wrapInt_count]
        rfl
      · have hlt := BitVec.lt_def.not.mp hroom
        obtain rfl : k = 0 := by omega
        have hk' : 0 = min l.length (ebuf.toNat - buf.toNat) := by omega
        rw [putAll_cons, sprintputch_full _ _ _ hroom, ih ⟨buf, ebuf, wrapInt (cnt + 1)⟩ _ 0
          (BitVec.le_def.mpr hle) (wrapInt_wrapInt _) hk', wrapInt_count]
        rfl

/-! ## The result -/

/-- With enough fuel the call returns. -/
def Returns (str size : BitVec 32) (fmt : List Byte) (ap : List Arg) (mem : Memory)
    (r : Int × Memory) : Prop :=
  ∃ n, ∀ fuel, n < fuel → vsnprintf fuel str size fmt ap mem = some r

theorem Returns.unique {str size : BitVec 32} {fmt : List Byte} {ap : List Arg}
    {mem : Memory} {r r' : Int × Memory} (h : Returns str size fmt ap mem r)
    (h' : Returns str size fmt ap mem r') : r = r' := by
  obtain ⟨n, h⟩ := h
  obtain ⟨n', h'⟩ := h'
  exact Option.some.inj ((h (n + n' + 1) (by omega)).symm.trans (h' _ (by omega)))

/-- The first `min(L, size - 1)` characters of the text and a `NUL` are in the
    buffer, and nothing outside it has changed. -/
def Stored (str size : BitVec 32) (T : List Int) (mem mem' : Memory) : Prop :=
  let k := min T.length (size.toNat - 1)
  (∀ i, ∀ hi : i < T.length, i < k →
    mem' (str + BitVec.ofNat 32 i) = BitVec.ofInt 8 T[i]) ∧
  mem' (str + BitVec.ofNat 32 k) = 0 ∧
  ∀ x : BitVec 32, x.toNat < str.toNat ∨ str.toNat + size.toNat ≤ x.toNat →
    mem' x = mem x

section Buffer

variable {str size : BitVec 32} (hstr : str ≠ 0) (hsize : size ≠ 0)
  (hbuf : str.toNat + size.toNat ≤ 2 ^ 32) (mem : Memory)
include hsize hbuf

/-- The text and the `NUL` stay in the buffer. -/
theorem stored_store (T : List Int) :
    Stored str size T mem (Function.update
      (store str (T.take (min T.length (size.toNat - 1))) mem)
      (str + BitVec.ofNat 32 (min T.length (size.toNat - 1))) 0) := by
  have hpos : 0 < size.toNat :=
    Nat.pos_of_ne_zero fun h => hsize (BitVec.eq_of_toNat_eq h)
  unfold Stored
  generalize hk : min T.length (size.toNat - 1) = k
  have hlen : (T.take k).length = k := by
    rw [List.length_take]
    omega
  have haddr : ∀ i, i ≤ k → (str + BitVec.ofNat 32 i).toNat = str.toNat + i := by
    intro i hi
    rw [BitVec.toNat_add, BitVec.toNat_ofNat]
    omega
  refine ⟨fun i hi hik => ?_, Function.update_self .., fun x hx => ?_⟩
  · have hne : str + BitVec.ofNat 32 i ≠ str + BitVec.ofNat 32 k := by
      intro heq
      have hnat := congrArg BitVec.toNat heq
      rw [haddr i (by omega), haddr k le_rfl] at hnat
      omega
    rw [Function.update_of_ne hne, store_get mem (by omega) i (by omega),
      List.getElem_take]
  · have hne : x ≠ str + BitVec.ofNat 32 k := by
      rintro rfl
      rw [haddr k le_rfl] at hx
      omega
    rw [Function.update_of_ne hne, store_frame mem (by omega) (by omega)]

include hstr

/-- What `vsnprintf` does with a buffer. -/
theorem vsnprintf_buffer {fmt : List Byte} {ap : List Arg} {T : List Int}
    (hT : Prints fmt ap T) :
    ∃ mem', Returns str size fmt ap mem (wrapInt T.length, mem') ∧
      Stored str size T mem mem' := by
  have hpos : 0 < size.toNat :=
    Nat.pos_of_ne_zero fun h => hsize (BitVec.eq_of_toNat_eq h)
  have hend : (str + size - 1).toNat = str.toNat + (size.toNat - 1) := by
    bv_omega
  have hle : str ≤ str + size - 1 := by
    rw [BitVec.le_def, hend]
    omega
  have hopen : ¬ (str = 0 ∨ str + size - 1 < str) := by
    rintro (h | h)
    · exact hstr h
    · rw [BitVec.lt_def] at h
      rw [BitVec.le_def] at hle
      omega
  have hroom : min T.length (size.toNat - 1)
      = min T.length ((str + size - 1).toNat - str.toNat) := by
    rw [hend, Nat.add_sub_cancel_left]
  have hcnt : wrapInt 0 = 0 := by decide
  obtain ⟨n, hT⟩ := hT
  refine ⟨_, ⟨n, fun fuel hf => ?_⟩, stored_store hsize hbuf mem T⟩
  rw [vsnprintf]
  simp only [if_neg hopen, vprintfmt_record sprintputch, hT fuel hf, Option.map_some,
    List.nil_append]
  rw [putAll_sprintputch ⟨str, str + size - 1, 0⟩ mem _ hle hcnt hroom]
  simp

end Buffer

/-- Without a buffer it returns at once. -/
theorem vsnprintf_refuses {str size : BitVec 32} (h : str = 0 ∨ size = 0)
    (fmt : List Byte) (ap : List Arg) (mem : Memory) :
    Returns str size fmt ap mem (eInval, mem) := by
  refine ⟨0, fun fuel _ => ?_⟩
  have hbad : str = 0 ∨ str + size - 1 < str := by
    by_cases hstr : str = 0
    · exact .inl hstr
    · have hsize : size = 0 := h.resolve_left hstr
      refine .inr ?_
      subst hsize
      bv_omega
  rw [vsnprintf]
  simp only [if_pos hbad]
  rfl

/-- **THE TEXT IN THE BUFFER**: the buffer always holds what the console would get,
    cut at its size; the returned count is right as long as it is an `int`. -/
theorem vsnprintf_iff {fmt : List Byte} {ap : List Arg} {T : List Int}
    (hT : Prints fmt ap T) (str size : BitVec 32)
    (hbuf : str.toNat + size.toNat ≤ 2 ^ 32) (mem : Memory) :
    ((str ≠ 0 ∧ size ≠ 0 → ∃ mem',
        Returns str size fmt ap mem ((T.length : Int), mem') ∧
        Stored str size T mem mem') ∧
      (str = 0 ∨ size = 0 → Returns str size fmt ap mem (eInval, mem))) ↔
      str = 0 ∨ size = 0 ∨ T.length < 2 ^ 31 := by
  have hrefuse : str = 0 ∨ size = 0 → Returns str size fmt ap mem (eInval, mem) :=
    fun h => vsnprintf_refuses h fmt ap mem
  rw [and_iff_left hrefuse]
  constructor
  · intro h
    by_contra hnot
    obtain ⟨hstr, hsize, hlong⟩ : str ≠ 0 ∧ size ≠ 0 ∧ ¬ T.length < 2 ^ 31 := by
      simpa only [not_or] using hnot
    obtain ⟨mem', hret, -⟩ := h ⟨hstr, hsize⟩
    obtain ⟨mem'', hret', -⟩ := vsnprintf_buffer hstr hsize hbuf mem hT
    have hcount := congrArg Prod.fst (hret.unique hret')
    have hrange := wrapInt_range T.length
    simp only at hcount
    omega
  · rintro h ⟨hstr, hsize⟩
    have hshort := (h.resolve_left hstr).resolve_left hsize
    obtain ⟨mem', hret, hstored⟩ := vsnprintf_buffer hstr hsize hbuf mem hT
    rw [wrapInt_of_range (by omega) (by omega)] at hret
    exact ⟨mem', hret, hstored⟩

/-- `"%5d"` with 42 in four bytes. -/
theorem vsnprintf_iff_five :
    (((0x1000 : BitVec 32) ≠ 0 ∧ (4 : BitVec 32) ≠ 0 → ∃ mem',
        Returns 0x1000 4 (bytes "%5d") [.word 42] (fun _ => 255) (5, mem') ∧
        Stored 0x1000 4 [32, 32, 32, 52, 50] (fun _ => 255) mem') ∧
      ((0x1000 : BitVec 32) = 0 ∨ (4 : BitVec 32) = 0 →
        Returns 0x1000 4 (bytes "%5d") [.word 42] (fun _ => 255)
          (eInval, fun _ => 255))) ↔
      (0x1000 : BitVec 32) = 0 ∨ (4 : BitVec 32) = 0 ∨
        [32, 32, 32, 52, 50].length < 2 ^ 31 := by
  have hfmt : numberFormat .none (.literal 5) (.int 42) .d = bytes "%5d" := by decide
  have hshown : numberShown .none 5 (IntConv.d.sign (.int 42)) (IntConv.d.digits (.int 42))
      = [32, 32, 32, 52, 50] := by decide
  have hT : Prints (bytes "%5d") [.word 42] [32, 32, 32, 52, 50] := by
    rw [← hfmt, ← hshown]
    exact prints_number .none (.literal 5) (by decide) (.int 42) .d []
  exact vsnprintf_iff hT 0x1000 4 (by decide) fun _ => 255

/-- `"%*d"` with the width `INT_MAX` and -7 prints 2^31 characters. -/
theorem prints_long : ∃ T, Prints (numberFormat .none (.star 0x7fffffff) (.int (-7)) .d)
    [.word 0x7fffffff, .word (-7)] T ∧ T.length = 2 ^ 31 := by
  refine ⟨_, prints_number .none (.star 0x7fffffff) (by decide) (.int (-7)) .d [], ?_⟩
  have hsign : (IntConv.d.sign (.int (-7))).length = 1 := by decide
  have hdigits : (IntConv.d.digits (.int (-7))).length = 1 := by decide
  have hwidth : (Width.star 0x7fffffff).value = 2 ^ 31 - 1 := by decide
  unfold numberShown
  rw [List.length_append, List.length_append, List.length_replicate, hsign, hdigits, hwidth,
    wrapInt_of_range (by omega) (by omega)]
  omega

theorem not_vsnprintf :
    ¬ ∀ (fmt : List Byte) (ap : List Arg) (T : List Int) (str size : BitVec 32)
      (mem : Memory), Prints fmt ap T → str.toNat + size.toNat ≤ 2 ^ 32 →
      (str ≠ 0 ∧ size ≠ 0 → ∃ mem',
        Returns str size fmt ap mem ((T.length : Int), mem') ∧
        Stored str size T mem mem') ∧
      (str = 0 ∨ size = 0 → Returns str size fmt ap mem (eInval, mem)) := by
  intro h
  obtain ⟨T, hT, hlen⟩ := prints_long
  have hstr : (0x1000 : BitVec 32) ≠ 0 := by decide
  have hsize : (4 : BitVec 32) ≠ 0 := by decide
  obtain ⟨mem', hret, -⟩ :=
    (h _ _ T 0x1000 4 (fun _ => 0) hT (by decide)).1 ⟨hstr, hsize⟩
  obtain ⟨mem'', hret', -⟩ :=
    vsnprintf_buffer hstr hsize (by decide) (fun _ => 0) hT
  have hcount := congrArg Prod.fst (hret.unique hret')
  have hrange := wrapInt_range T.length
  simp only at hcount
  omega

end SharixPrintfmt
