import Sharix.BlockProofs
import Mathlib.Data.List.Basic
import Mathlib.Data.Set.BooleanAlgebra
import Mathlib.Data.Set.Function
import Mathlib.Order.CompletePartialOrder

/-! # A 32-bit machine and its stack

    Bytes of memory make words in little-endian order.  The machine has the
    general registers, the segment registers, `eip`, the flags and memory.
    What this library names is what straight-line code that builds and takes
    down stack frames is made of.

    * `load_store`, `Same.load`: a word reads back, and other words stay;
    * `pushAll_spec`: what any number of pushes leaves on the stack;
    * `Holds.keep`: the words are there when they are popped;
    * `exec`: the instructions.  `eip` is followed where it can be seen, in the
      instructions that push it or load it. -/

namespace SharixMachine

open SharixBlock

abbrev Byte := BitVec 8
abbrev Word := BitVec 32
abbrev Mem := Word → Byte

/-! ## Words in memory -/

/-- The bytes of a word, the lowest first. -/
def byteOf (w : Word) (j : Nat) : Byte := w.extractLsb' (8 * j) 8

def load (m : Mem) (a : Word) : Word :=
  (m (a + BitVec.ofNat 32 3) ++ m (a + BitVec.ofNat 32 2))
    ++ (m (a + BitVec.ofNat 32 1) ++ m (a + BitVec.ofNat 32 0))

def store (m : Mem) (a w : Word) : Mem := block m a 0 4 (byteOf w)

/-- The `n` bytes from `p` on are the same in both memories. -/
def Same (n : Nat) (p : Word) (m m' : Mem) : Prop :=
  ∀ k, k < n → m' (p + BitVec.ofNat 32 k) = m (p + BitVec.ofNat 32 k)

theorem Same.refl (n : Nat) (p : Word) (m : Mem) : Same n p m m :=
  fun _ _ => rfl

theorem Same.trans {n : Nat} {p : Word} {m₁ m₂ m₃ : Mem} (h₁ : Same n p m₁ m₂)
    (h₂ : Same n p m₂ m₃) : Same n p m₁ m₃ :=
  fun k hk => (h₂ k hk).trans (h₁ k hk)

theorem Same.symm {n : Nat} {p : Word} {m m' : Mem} (h : Same n p m m') :
    Same n p m' m :=
  fun k hk => (h k hk).symm

/-- A range inside the range. -/
theorem Same.sub {n d l : Nat} {p : Word} {m m' : Mem} (h : Same n p m m')
    (hd : d + l ≤ n) : Same l (p + BitVec.ofNat 32 d) m m' := by
  intro k hk
  rw [BitVec.add_assoc, ← BitVec.ofNat_add]
  exact h (d + k) (by omega)

theorem Same.le {n l : Nat} {p : Word} {m m' : Mem} (h : Same n p m m')
    (hl : l ≤ n) : Same l p m m' :=
  fun k hk => h k (by omega)

/-- A word in the range. -/
theorem Same.load {p : Word} {m m' : Mem} (h : Same 4 p m m') :
    load m' p = load m p := by
  rw [SharixMachine.load, SharixMachine.load, h 0 (by omega), h 1 (by omega), h 2 (by omega),
    h 3 (by omega)]

/-- A word put together from its bytes. -/
theorem bytes_word (w : Word) :
    (byteOf w 3 ++ byteOf w 2) ++ (byteOf w 1 ++ byteOf w 0) = w := by
  have hlo : byteOf w 1 ++ byteOf w 0 = w.extractLsb' 0 16 :=
    BitVec.extractLsb'_append_extractLsb'_eq_extractLsb' (x := w) rfl
  have hhi : byteOf w 3 ++ byteOf w 2 = w.extractLsb' 16 16 :=
    BitVec.extractLsb'_append_extractLsb'_eq_extractLsb' (x := w) rfl
  rw [hlo, hhi]
  have hall : w.extractLsb' 16 16 ++ w.extractLsb' 0 16 = w.extractLsb' 0 32 :=
    BitVec.extractLsb'_append_extractLsb'_eq_extractLsb' (x := w) rfl
  rw [hall]
  exact BitVec.extractLsb'_eq_self

/-- A word reads back. -/
theorem load_store (m : Mem) (a w : Word) : load (store m a w) a = w := by
  have hget : ∀ k, k < 4 → store m a w (a + BitVec.ofNat 32 k) = byteOf w k :=
    fun k hk => block_get (Nat.zero_le k) hk (by omega)
  rw [load, hget 0 (by omega), hget 1 (by omega), hget 2 (by omega),
    hget 3 (by omega), bytes_word]

/-- The bytes of a word put together. -/
theorem word_bytes (b₃ b₂ b₁ b₀ : Byte) :
    let w : Word := (b₃ ++ b₂) ++ (b₁ ++ b₀)
    byteOf w 0 = b₀ ∧ byteOf w 1 = b₁ ∧ byteOf w 2 = b₂ ∧ byteOf w 3 = b₃ := by
  intro w
  refine ⟨?_, ?_, ?_, ?_⟩
  · exact (BitVec.extractLsb'_append_eq_of_add_le (by omega)).trans
      BitVec.extractLsb'_append_eq_right
  · exact (BitVec.extractLsb'_append_eq_of_add_le (by omega)).trans
      BitVec.extractLsb'_append_eq_left
  · exact (BitVec.extractLsb'_append_eq_of_le (by omega)).trans
      BitVec.extractLsb'_append_eq_right
  · exact (BitVec.extractLsb'_append_eq_of_le (by omega)).trans
      BitVec.extractLsb'_append_eq_left

/-- A word stored where it was loaded. -/
theorem store_load (m : Mem) (a : Word) : store m a (load m a) = m := by
  have hbyte : ∀ k, k < 4 → byteOf (load m a) k = m (a + BitVec.ofNat 32 k) := by
    intro k hk
    obtain ⟨h0, h1, h2, h3⟩ := word_bytes (m (a + BitVec.ofNat 32 3))
      (m (a + BitVec.ofNat 32 2)) (m (a + BitVec.ofNat 32 1)) (m (a + BitVec.ofNat 32 0))
    rcases (by omega : k = 0 ∨ k = 1 ∨ k = 2 ∨ k = 3) with rfl | rfl | rfl | rfl
    · exact h0
    · exact h1
    · exact h2
    · exact h3
  funext b
  rw [store, block]
  split
  · next hin =>
      rw [hbyte _ hin.2, ← at_offset]
  · rfl

/-- A store changes nothing in a range that it keeps out of. -/
theorem store_same (m : Mem) (a w : Word) {n : Nat} {p : Word}
    (hap : ∀ j k, j < 4 → k < n →
      p + BitVec.ofNat 32 k ≠ a + BitVec.ofNat 32 j) :
    Same n p m (store m a w) :=
  fun k hk => block_frame fun j _ hj => hap j k hj hk

/-- The word below a range. -/
theorem store_below (m : Mem) (p w : Word) {n : Nat} (hn : n + 4 ≤ 2 ^ 32) :
    Same n p m (store m (p - 4) w) := by
  refine store_same m _ w fun j k hj hk hsame => ?_
  have hp : p = p - 4 + BitVec.ofNat 32 4 := (BitVec.sub_add_cancel p 4).symm
  have hoff : p + BitVec.ofNat 32 k = p - 4 + BitVec.ofNat 32 (4 + k) := by
    rw [BitVec.ofNat_add, ← BitVec.add_assoc, ← hp]
  rw [hoff] at hsame
  have h1 := congrArg (fun a : Word => (a - (p - 4)).toNat) hsame
  rw [offset_eq _ (by omega), offset_eq _ (by omega)] at h1
  omega

/-! ## Sets of addresses -/

/-- The `n` addresses from `p` on. -/
def bytes (p : Word) (n : Nat) : Set Word := {a | (a - p).toNat < n}

/-- The addresses of a range, by their offsets. -/
theorem mem_bytes {p : Word} {n k : Nat} (hk : k < n) (hn : n ≤ 2 ^ 32) :
    p + BitVec.ofNat 32 k ∈ bytes p n := by
  show (p + BitVec.ofNat 32 k - p).toNat < n
  rwa [offset_eq p (by omega)]

/-- Ranges one below the other. -/
theorem bytes_disjoint {p q : Word} {n k : Nat} (hpq : p.toNat + n ≤ q.toNat)
    (hk : q.toNat + k ≤ 2 ^ 32) : Disjoint (bytes p n) (bytes q k) := by
  refine Set.disjoint_left.mpr fun a ha ha' => ?_
  have ha : (a - p).toNat < n := ha
  have ha' : (a - q).toNat < k := ha'
  bv_omega

/-- Ranges at offsets from one address. -/
theorem bytes_apart {p : Word} {d e n k : Nat} (h : d + n ≤ e ∨ e + k ≤ d)
    (hd : d + n ≤ 2 ^ 32) (he : e + k ≤ 2 ^ 32) :
    Disjoint (bytes (p + BitVec.ofNat 32 d) n) (bytes (p + BitVec.ofNat 32 e) k) := by
  refine Set.disjoint_left.mpr fun a ha ha' => ?_
  have hoff : ∀ {c l : Nat}, c + l ≤ 2 ^ 32 → a ∈ bytes (p + BitVec.ofNat 32 c) l →
      c ≤ (a - p).toNat ∧ (a - p).toNat < c + l := by
    intro c l hcl hmem
    have hmem : (a - (p + BitVec.ofNat 32 c)).toNat < l := hmem
    rw [offset_shift p a (by omega)] at hmem
    have hlt := (a - p).isLt
    split at hmem <;> omega
  have h1 := hoff hd ha
  have h2 := hoff he ha'
  omega

/-- The same, as a set of addresses. -/
theorem Same.eqOn {m m' : Mem} {p : Word} {n : Nat} (h : Same n p m m') :
    Set.EqOn m' m (bytes p n) := by
  intro a ha
  have h1 := h (a - p).toNat ha
  rwa [← at_offset] at h1

/-- A load sees no more than the four bytes of its word. -/
theorem load_eqOn {m m' : Mem} {p : Word} (h : Set.EqOn m' m (bytes p 4)) :
    load m' p = load m p :=
  Same.load fun _ hk => h (mem_bytes hk (by omega))

/-- A store keeps every set of addresses that its word is apart from. -/
theorem store_eqOn (m : Mem) (a w : Word) {S : Set Word} (h : Disjoint (bytes a 4) S) :
    Set.EqOn (store m a w) m S := by
  intro b hb
  rw [store, block, if_neg]
  intro hin
  exact Set.disjoint_left.mp h hin.2 hb

/-- The low half of a word. -/
def store16 (m : Mem) (a : Word) (h : BitVec 16) : Mem :=
  block m a 0 2 fun j => h.extractLsb' (8 * j) 8

theorem store16_eqOn (m : Mem) (a : Word) (h : BitVec 16) {S : Set Word}
    (hS : Disjoint (bytes a 2) S) : Set.EqOn (store16 m a h) m S := by
  intro b hb
  rw [store16, block, if_neg]
  intro hin
  exact Set.disjoint_left.mp hS hin.2 hb

/-- The low half reads back. -/
theorem load_store16 (m : Mem) (a : Word) (h : BitVec 16) :
    (load (store16 m a h) a).setWidth 16 = h := by
  have hget : ∀ k, k < 2 → store16 m a h (a + BitVec.ofNat 32 k) = h.extractLsb' (8 * k) 8 :=
    fun k hk => block_get (Nat.zero_le k) hk (by omega)
  have hlow : h.extractLsb' 8 8 ++ h.extractLsb' 0 8 = h := by
    have hall : h.extractLsb' 8 8 ++ h.extractLsb' 0 8 = h.extractLsb' 0 16 :=
      BitVec.extractLsb'_append_extractLsb'_eq_extractLsb' (x := h) rfl
    rw [hall]
    exact BitVec.extractLsb'_eq_self
  rw [load, hget 0 (by omega), hget 1 (by omega)]
  refine Eq.trans ?_ hlow
  rw [BitVec.setWidth_eq_extractLsb' (by omega)]
  exact BitVec.extractLsb'_append_eq_right

/-- Fields of one record. -/
theorem load_store_apart (m : Mem) (p w : Word) {d e : Nat} (h : d + 4 ≤ e ∨ e + 4 ≤ d)
    (hd : d + 4 ≤ 2 ^ 32) (he : e + 4 ≤ 2 ^ 32) :
    load (store m (p + BitVec.ofNat 32 d) w) (p + BitVec.ofNat 32 e)
      = load m (p + BitVec.ofNat 32 e) :=
  load_eqOn (store_eqOn _ _ _ (bytes_apart h hd he))

/-- A half word and a word of one record. -/
theorem load_store16_apart (m : Mem) (p : Word) (v : BitVec 16) {d e : Nat}
    (h : d + 2 ≤ e ∨ e + 4 ≤ d) (hd : d + 2 ≤ 2 ^ 32) (he : e + 4 ≤ 2 ^ 32) :
    load (store16 m (p + BitVec.ofNat 32 d) v) (p + BitVec.ofNat 32 e)
      = load m (p + BitVec.ofNat 32 e) :=
  load_eqOn (store16_eqOn _ _ _ (bytes_apart h hd he))

/-- Words of a record, stored from its address up. -/
def storeAll (m : Mem) (p : Word) : List Word → Mem
  | [] => m
  | w :: ws => storeAll (store m p w) (p + 4) ws

/-- A range behind the start of a longer one. -/
theorem bytes_tail {p : Word} {n d : Nat} (hn : d + n ≤ 2 ^ 32) :
    bytes (p + BitVec.ofNat 32 d) n ⊆ bytes p (d + n) := by
  intro a ha
  have ha : (a - (p + BitVec.ofNat 32 d)).toNat < n := ha
  have ho : a = p + BitVec.ofNat 32 (d + (a - (p + BitVec.ofNat 32 d)).toNat) := by
    rw [BitVec.ofNat_add, ← BitVec.add_assoc]
    exact at_offset _ _
  rw [ho]
  exact mem_bytes (by omega) hn

theorem bytes_head {p : Word} {n d : Nat} (hd : d ≤ n) : bytes p d ⊆ bytes p n :=
  fun _ ha => Nat.lt_of_lt_of_le ha hd

/-- Nothing outside the record changes; by induction on the words, each store is
    apart from the set. -/
theorem storeAll_eqOn {ws : List Word} (hlen : 4 * ws.length ≤ 2 ^ 32) (m : Mem) (p : Word)
    {S : Set Word} (h : Disjoint (bytes p (4 * ws.length)) S) :
    Set.EqOn (storeAll m p ws) m S := by
  induction ws generalizing m p with
  | nil => exact Set.eqOn_refl _ _
  | cons w ws ih =>
      rw [List.length_cons] at hlen h
      have htail : bytes (p + 4) (4 * ws.length) ⊆ bytes p (4 * (ws.length + 1)) := by
        have h1 := bytes_tail (p := p) (n := 4 * ws.length) (d := 4) (by omega)
        rwa [show 4 + 4 * ws.length = 4 * (ws.length + 1) by omega] at h1
      exact (ih (by omega) _ _ (h.mono_left htail)).trans
        (store_eqOn m p w (h.mono_left (bytes_head (by omega))))

/-! ## Words on a stack -/

/-- The words from `p` upwards. -/
def Holds (m : Mem) (p : Word) : List Word → Prop
  | [] => True
  | w :: ws => load m p = w ∧ Holds m (p + 4) ws

/-- Words stay as long as their bytes do. -/
theorem Holds.keep {m m' : Mem} {p : Word} {ws : List Word} (h : Holds m p ws)
    (hs : Same (4 * ws.length) p m m') : Holds m' p ws := by
  induction ws generalizing p with
  | nil => trivial
  | cons w ws ih =>
      rw [List.length_cons] at hs
      refine ⟨?_, ih h.2 (hs.sub (d := 4) (by omega))⟩
      rw [← h.1]
      exact (hs.le (by omega)).load

/-- The record is there once it is stored: no later word reaches back. -/
theorem storeAll_holds {ws : List Word} (hlen : 4 * ws.length ≤ 2 ^ 32) (m : Mem) (p : Word) :
    Holds (storeAll m p ws) p ws := by
  induction ws generalizing m p with
  | nil => trivial
  | cons w ws ih =>
      rw [List.length_cons] at hlen
      -- the words behind do not reach back to this one
      have hback : Disjoint (bytes (p + BitVec.ofNat 32 4) (4 * ws.length)) (bytes p 4) := by
        refine Set.disjoint_left.mpr fun a ha ha' => ?_
        have ha' : (a - p).toNat < 4 := ha'
        have ha : (a - (p + BitVec.ofNat 32 4)).toNat < 4 * ws.length := ha
        rw [offset_shift p a (by omega), if_neg (by omega)] at ha
        omega
      have hkeep : Set.EqOn (storeAll (store m p w) (p + 4) ws) (store m p w) (bytes p 4) :=
        storeAll_eqOn (by omega) _ _ hback
      refine ⟨?_, ih (by omega) _ _⟩
      exact (load_eqOn hkeep).trans (load_store m p w)

/-- The words behind the first ones. -/
theorem Holds.behind {m : Mem} {p : Word} {ws vs : List Word}
    (h : Holds m p (ws ++ vs)) : Holds m (p + BitVec.ofNat 32 (4 * ws.length)) vs := by
  induction ws generalizing p with
  | nil => simpa using h
  | cons w ws ih =>
      have h1 := ih h.2
      have hoff : p + 4 + BitVec.ofNat 32 (4 * ws.length)
          = p + BitVec.ofNat 32 (4 * (w :: ws).length) := by
        rw [List.length_cons, Nat.mul_succ, Nat.add_comm, BitVec.ofNat_add, BitVec.add_assoc]
        rfl
      rwa [hoff] at h1

/-! ## The machine -/

inductive Reg where
  | eax | ecx | edx | ebx | esp | ebp | esi | edi
deriving DecidableEq, Repr

inductive Seg where
  | cs | ds | es | ss
deriving DecidableEq, Repr

structure Cpu where
  reg : Reg → Word
  seg : Seg → BitVec 16
  eip : Word
  eflags : Word
  mem : Mem

def Cpu.setReg (s : Cpu) (r : Reg) (w : Word) : Cpu :=
  { s with reg := Function.update s.reg r w }

def Cpu.setSeg (s : Cpu) (g : Seg) (w : BitVec 16) : Cpu :=
  { s with seg := Function.update s.seg g w }

/-- A word goes on the stack. -/
def push (w : Word) (s : Cpu) : Cpu :=
  { s.setReg .esp (s.reg .esp - 4) with mem := store s.mem (s.reg .esp - 4) w }

/-- A push moves `esp` and writes the word below it; nothing else changes. -/
@[simp] theorem push_esp (w : Word) (s : Cpu) :
    (push w s).reg .esp = s.reg .esp - 4 := by
  simp [push, Cpu.setReg]

@[simp] theorem push_reg (w : Word) (s : Cpu) {r : Reg} (hr : r ≠ .esp) :
    (push w s).reg r = s.reg r := by
  simp [push, Cpu.setReg, hr]

@[simp] theorem push_mem (w : Word) (s : Cpu) :
    (push w s).mem = store s.mem (s.reg .esp - 4) w := rfl

@[simp] theorem push_seg (w : Word) (s : Cpu) : (push w s).seg = s.seg := rfl

@[simp] theorem setReg_reg (s : Cpu) (r : Reg) (w : Word) :
    (s.setReg r w).reg = Function.update s.reg r w := rfl

@[simp] theorem setReg_mem (s : Cpu) (r : Reg) (w : Word) : (s.setReg r w).mem = s.mem := rfl

@[simp] theorem setReg_seg (s : Cpu) (r : Reg) (w : Word) : (s.setReg r w).seg = s.seg := rfl

@[simp] theorem setSeg_reg (s : Cpu) (g : Seg) (w : BitVec 16) : (s.setSeg g w).reg = s.reg := rfl

@[simp] theorem setSeg_mem (s : Cpu) (g : Seg) (w : BitVec 16) : (s.setSeg g w).mem = s.mem := rfl

@[simp] theorem setSeg_seg (s : Cpu) (g : Seg) (w : BitVec 16) :
    (s.setSeg g w).seg = Function.update s.seg g w := rfl

/-- The word on top of the stack. -/
def top (s : Cpu) : Word := load s.mem (s.reg .esp)

/-- The top of the stack is given up. -/
def drop (s : Cpu) : Cpu := s.setReg .esp (s.reg .esp + 4)

/-- Pushes, the last word of the list first. -/
def pushAll : List Word → Cpu → Cpu
  | [], s => s
  | w :: ws, s => push w (pushAll ws s)

/-- What pushes leave: the words from `esp` on, over what was there. -/
structure Pushed (ws : List Word) (n : Nat) (s t : Cpu) : Prop where
  holds : Holds t.mem (t.reg .esp) ws
  esp : t.reg .esp = s.reg .esp - BitVec.ofNat 32 (4 * ws.length)
  above : Same n (s.reg .esp) s.mem t.mem
  reg : ∀ r, r ≠ .esp → t.reg r = s.reg r
  seg : t.seg = s.seg
  eip : t.eip = s.eip
  eflags : t.eflags = s.eflags

/-- What any row of pushes leaves, by induction on it: each one writes below the
    words that are there already. -/
theorem pushAll_spec (ws : List Word) (s : Cpu) {n : Nat}
    (hn : 4 * ws.length + n ≤ 2 ^ 32) : Pushed ws n s (pushAll ws s) := by
  induction ws with
  | nil =>
      exact ⟨trivial, (BitVec.sub_zero _).symm, Same.refl _ _ _, fun _ _ => rfl, rfl, rfl, rfl⟩
  | cons w ws ih =>
      rw [List.length_cons] at hn
      have h := ih (by omega)
      have hback : s.reg .esp = (pushAll ws s).reg .esp + BitVec.ofNat 32 (4 * ws.length) := by
        rw [h.esp, BitVec.sub_add_cancel]
      -- the new word lies below everything from the old `esp` to the range above
      have hkeep : Same (4 * ws.length + n) ((pushAll ws s).reg .esp)
          (pushAll ws s).mem (push w (pushAll ws s)).mem := store_below _ _ _ (by omega)
      refine ⟨⟨?_, ?_⟩, ?_, ?_, fun r hr => ?_, h.seg, h.eip, h.eflags⟩
      · show load _ ((push w (pushAll ws s)).reg .esp) = w
        rw [push_esp]
        exact load_store _ _ _
      · show Holds _ ((push w (pushAll ws s)).reg .esp + 4) ws
        rw [push_esp, BitVec.sub_add_cancel]
        exact h.holds.keep (hkeep.le (by omega))
      · show (push w (pushAll ws s)).reg .esp = _
        rw [push_esp, h.esp, BitVec.sub_sub, List.length_cons, Nat.mul_succ, BitVec.ofNat_add]
        rfl
      · refine h.above.trans ?_
        have h1 := hkeep.sub (d := 4 * ws.length) (l := n) (Nat.le_refl _)
        rwa [← hback] at h1
      · exact (push_reg w _ hr).trans (h.reg r hr)

/-! ## Instructions -/

/-- What is read: an immediate, a register, or a word of memory at `d(r)`. -/
inductive Src where
  | imm (w : Word)
  | reg (r : Reg)
  | seg (g : Seg)
  | mem (d : Word) (r : Reg)
deriving DecidableEq, Repr

/-- Where it is written. -/
inductive Dst where
  | reg (r : Reg)
  | seg (g : Seg)
  | mem (d : Word) (r : Reg)
deriving DecidableEq, Repr

def Src.get (s : Cpu) : Src → Word
  | .imm w => w
  | .reg r => s.reg r
  | .seg g => (s.seg g).setWidth 32
  | .mem d r => load s.mem (s.reg r + d)

/-- A segment register takes the low half. -/
def Dst.set (s : Cpu) (w : Word) : Dst → Cpu
  | .reg r => s.setReg r w
  | .seg g => s.setSeg g (w.setWidth 16)
  | .mem d r => { s with mem := store s.mem (s.reg r + d) w }

/-- The flags after `a + b`: carry, parity, adjust, zero, sign and overflow;
    the others stay. -/
def addFlags (f a b : Word) : Word :=
  let c := a + b
  let low := (List.range 8).countP fun i => c.getLsbD i
  let bit : Nat → Bool → Word := fun i b => if b then BitVec.twoPow 32 i else 0
  f &&& ~~~ 0x8D5#32
    ||| bit 0 (decide (c < a))
    ||| bit 2 (low % 2 == 0)
    ||| bit 4 (decide (15 < a.toNat % 16 + b.toNat % 16))
    ||| bit 6 (c == 0)
    ||| bit 7 c.msb
    ||| bit 11 (a.msb == b.msb && c.msb != a.msb)

/-- `NT`: the next `iret` returns to another task. -/
def nt (f : Word) : Bool := f.getLsbD 14

/-- `VM`: virtual-8086 mode. -/
def vm (f : Word) : Bool := f.getLsbD 17

/-- No addition sets or clears `NT`, which is not an arithmetic flag. -/
theorem addFlags_nt (f a b : Word) : nt (addFlags f a b) = nt f := by
  have hbit : ∀ (i : Nat) (c : Bool), i ≠ 14 →
      (if c then BitVec.twoPow 32 i else 0 : Word).getLsbD 14 = false := by
    intro i c hi
    cases c
    · exact BitVec.getLsbD_zero
    · show (BitVec.twoPow 32 i).getLsbD 14 = false
      rw [BitVec.getLsbD_twoPow, decide_eq_false hi, Bool.and_false]
  have hmask : (~~~ 0x8D5#32).getLsbD 14 = true := by decide
  rw [nt, nt, addFlags]
  simp only [BitVec.getLsbD_or, BitVec.getLsbD_and]
  rw [hbit 0 _ (by decide), hbit 2 _ (by decide), hbit 4 _ (by decide), hbit 6 _ (by decide),
    hbit 7 _ (by decide), hbit 11 _ (by decide), hmask]
  simp

inductive Instr where
  | pushl (x : Src)
  | popl (y : Dst)
  | movl (x : Src) (y : Dst)
  | addl (w : Word) (r : Reg)
  | pushal
  | popal
  /-- The target, and the address of the next instruction. -/
  | call (target : Src) (next : Word)
  | ret
  | iret
deriving DecidableEq, Repr

def popTo (r : Reg) (s : Cpu) : Cpu := (drop s).setReg r (top s)

def Instr.step (s : Cpu) : Instr → Cpu
  | .pushl x => push (x.get s) s
  | .popl y => y.set (drop s) (top s)
  | .movl x y => y.set s (x.get s)
  | .addl w r =>
      { s.setReg r (s.reg r + w) with eflags := addFlags s.eflags (s.reg r) w }
  | .pushal =>
      pushAll [s.reg .edi, s.reg .esi, s.reg .ebp, s.reg .esp, s.reg .ebx,
        s.reg .edx, s.reg .ecx, s.reg .eax] s
  | .popal =>
      let s := popTo .ebp (popTo .esi (popTo .edi s))
      -- the saved `esp` is skipped
      let s := drop s
      popTo .eax (popTo .ecx (popTo .edx (popTo .ebx s)))
  | .call target next => { push next s with eip := target.get s }
  | .ret => { drop s with eip := top s }
  | .iret =>
      let t := drop (drop s)
      let u :=
        { (drop t).setSeg .cs ((top (drop s)).setWidth 16) with
          eip := top s
          eflags := top t }
      -- there is no other task: the instruction faults
      if nt s.eflags then s
      -- the kernel's level is 0: the stack and the segments are popped too
      else if vm (top t) then
        let v := drop u
        (((u.setReg .esp (top u)).setSeg .ss ((top v).setWidth 16)).setSeg .es
          ((top (drop v)).setWidth 16)).setSeg .ds ((top (drop (drop v))).setWidth 16)
      else u

/-- Within the kernel. -/
theorem iret_step {s : Cpu} (hnt : nt s.eflags = false) (hvm : vm (top (drop (drop s))) = false) :
    Instr.iret.step s =
      { (drop (drop (drop s))).setSeg .cs ((top (drop s)).setWidth 16) with
        eip := top s
        eflags := top (drop (drop s)) } := by
  rw [Instr.step, hnt, hvm]
  rfl

/-- The flags are the popped ones in both modes. -/
theorem iret_eflags {s : Cpu} (hnt : nt s.eflags = false) :
    (Instr.iret.step s).eflags = top (drop (drop s)) := by
  rw [Instr.step, hnt]
  cases vm (top (drop (drop s))) <;> rfl

/-- Straight-line code. -/
def exec (code : List Instr) (s : Cpu) : Cpu := code.foldl Instr.step s

/-- Code in two parts. -/
theorem exec_append (c d : List Instr) (s : Cpu) :
    exec (c ++ d) s = exec d (exec c s) := List.foldl_append

theorem exec_cons (i : Instr) (c : List Instr) (s : Cpu) :
    exec (i :: c) s = exec c (i.step s) := rfl

end SharixMachine
