import Sharix.MachineProofs

/-! # Traps — `vectors.S`, `trapentry.S`, `trap.h`, `trap.c`

    The processor pushes `eflags`, `cs`, `eip` and, for some vectors, an error
    code.  `vectors.S` pushes a dummy for the others, then the vector;
    `__alltraps` pushes the rest of a `struct trapframe` and calls `trap`, and
    `__trapret` takes the frame down.

    While `trap` runs, exceptions can interrupt it in turn.  `resumes_iff` is
    about interrupts nested to any depth: the interrupted code goes on with all
    its registers, flags and stack exactly if the stub's choice is the
    processor's.  The stubs leave out the dummy for 9, for which the processor
    pushes no error code either. -/

namespace SharixTrap

open SharixMachine

/-! ## `SETGATE`, `idt_init` -/

/-- The `struct gatedesc` fields that a delivery reads, and the rest. -/
structure GateDesc where
  off_15_0 : BitVec 16
  ss : BitVec 16
  args : BitVec 5
  rsv1 : BitVec 3
  type : BitVec 4
  s : BitVec 1
  dpl : BitVec 2
  p : BitVec 1
  off_31_16 : BitVec 16
deriving DecidableEq, Repr

def STS_IG32 : BitVec 4 := 0xE
def STS_TG32 : BitVec 4 := 0xF

def setgate (istrap : Bool) (ss : BitVec 16) (off : Word) (dpl : BitVec 2) :
    GateDesc where
  off_15_0 := (off &&& 0xffff).setWidth 16
  ss := ss
  args := 0
  rsv1 := 0
  type := if istrap then STS_TG32 else STS_IG32
  s := 0
  dpl := dpl
  p := 1
  off_31_16 := (off >>> 16).setWidth 16

def GD_KTEXT : BitVec 16 := 1 <<< 3
def GD_KDATA : BitVec 16 := 2 <<< 3
def DPL_KERNEL : BitVec 2 := 0

/-- `idt_init`; `vectors i` is `__vectors[i]`. -/
def idt (vectors : Nat → Word) (i : Nat) : GateDesc :=
  setgate false GD_KTEXT (vectors i) DPL_KERNEL

/-- The entry point as the processor puts it together. -/
def GateDesc.offset (g : GateDesc) : Word := g.off_31_16 ++ g.off_15_0

/-! ## `struct trapframe` -/

/-- `struct pushregs`. -/
structure PushRegs where
  edi : Word
  esi : Word
  ebp : Word
  oesp : Word
  ebx : Word
  edx : Word
  ecx : Word
  eax : Word
deriving DecidableEq, Repr

/-- `struct trapframe` up to `tf_eflags`; a 16-bit field stands with its padding
    above it.  `tf_esp` and `tf_ss` are pushed only from user mode. -/
structure Trapframe where
  regs : PushRegs
  es : Word
  ds : Word
  trapno : Word
  err : Word
  eip : Word
  cs : Word
  eflags : Word
deriving DecidableEq, Repr

def PushRegs.words (r : PushRegs) : List Word :=
  [r.edi, r.esi, r.ebp, r.oesp, r.ebx, r.edx, r.ecx, r.eax]

/-- The fields in the order of their addresses. -/
def Trapframe.words (tf : Trapframe) : List Word :=
  tf.regs.words
    ++ [tf.es, tf.ds, tf.trapno, tf.err, tf.eip, tf.cs, tf.eflags]

/-! ## Entry and exit -/

/-- The processor enters a gate: an interrupt gate clears `IF`, both kinds
    clear `TF`, `NT`, `RF` and `VM`. -/
def deliver (g : GateDesc) (err : Option Word) (s : Cpu) : Cpu :=
  let t := pushAll [s.eip, (s.seg .cs).setWidth 32, s.eflags] s
  let t := match err with
    | none => t
    | some e => push e t
  let cleared := if g.type = STS_IG32 then 0x34300#32 else 0x34100#32
  { t.setSeg .cs g.ss with eip := g.offset, eflags := s.eflags &&& ~~~ cleared }

/-- The condition in `vector.c`. -/
def pushesDummy (i : Nat) : Bool := (i < 8 || i > 14) && i != 17

/-- `vectors.S` at `vector<i>`. -/
def vector (i : Nat) : List Instr :=
  (if pushesDummy i then [.pushl (.imm 0)] else [])
    ++ [.pushl (.imm (BitVec.ofNat 32 i))]

/-- `__alltraps` down to the call; `trap` is the entry point and `next` the
    address behind the call. -/
def alltraps (trap next : Word) : List Instr :=
  [.pushl (.seg .ds),
   .pushl (.seg .es),
   .pushal,
   .movl (.imm (GD_KDATA.setWidth 32)) (.reg .eax),
   .movl (.reg .eax) (.seg .ds),
   .movl (.reg .eax) (.seg .es),
   .pushl (.reg .esp),
   .call (.imm trap) next]

def trapret : List Instr :=
  [.popal,
   .popl (.seg .es),
   .popl (.seg .ds),
   .addl 0x8 .esp,
   .iret]

/-- `__trapret` down to the `iret`. -/
def trapretPops : List Instr := trapret.dropLast

/-- `__alltraps` behind the call. -/
def afterTrap : List Instr := .popl (.reg .esp) :: trapret

section Service

variable (vectors : Nat → Word) (trap next : Word)

/-- From the interrupt to the entry of `trap`. -/
def enter (i : Nat) (err : Option Word) (s : Cpu) : Cpu :=
  exec (vector i ++ alltraps trap next) (deliver (idt vectors i) err s)

/-- From the return of `trap` to the interrupted code. -/
def leave (s : Cpu) : Cpu := exec afterTrap s

/-- A trap frame from `tf_es` up: what is on the stack before `pushal`. -/
def frameTop (i : Nat) (err : Option Word) (s : Cpu) : List Word :=
  [(s.seg .es).setWidth 32, (s.seg .ds).setWidth 32, BitVec.ofNat 32 i]
    ++ (if pushesDummy i then [0] else []) ++ err.toList
    ++ [s.eip, (s.seg .cs).setWidth 32, s.eflags]

/-- The words of a trap frame; `tf_regs` comes first. -/
def frame (i : Nat) (err : Option Word) (s : Cpu) : List Word :=
  [s.reg .edi, s.reg .esi, s.reg .ebp, (pushAll (frameTop i err s) s).reg .esp,
    s.reg .ebx, s.reg .edx, s.reg .ecx, s.reg .eax] ++ frameTop i err s

/-- The entry code pushes the frame, its address and the return address. -/
theorem enter_pushes (i : Nat) (err : Option Word) (s : Cpu) :
    let t := pushAll (frame i err s) s
    let u := pushAll [next, t.reg .esp] t
    (enter vectors trap next i err s).mem = u.mem ∧
      (enter vectors trap next i err s).reg .esp = u.reg .esp ∧
      (enter vectors trap next i err s).seg .ss = u.seg .ss := by
  unfold enter vector frame frameTop
  cases pushesDummy i <;> cases err <;>
    simp [exec, alltraps, deliver, Instr.step, Src.get, Dst.set, pushAll, idt, setgate]

/-- A gate clears `NT` and `VM`. -/
theorem enter_flags (i : Nat) (err : Option Word) (s : Cpu) :
    nt (enter vectors trap next i err s).eflags = false ∧
      vm (enter vectors trap next i err s).eflags = false := by
  have hflags : (enter vectors trap next i err s).eflags
      = s.eflags &&& ~~~ (if (idt vectors i).type = STS_IG32 then 0x34300#32 else 0x34100#32) := by
    unfold enter vector
    cases pushesDummy i <;> cases err <;> rfl
  rw [hflags, nt, vm, BitVec.getLsbD_and, BitVec.getLsbD_and]
  split
  · exact ⟨Bool.and_false _, Bool.and_false _⟩
  · exact ⟨Bool.and_false _, Bool.and_false _⟩

end Service

/-! ## Taking a frame down -/

/-- What `__trapret` makes of a frame. -/
structure Restored (tf : Trapframe) (s t : Cpu) : Prop where
  edi : t.reg .edi = tf.regs.edi
  esi : t.reg .esi = tf.regs.esi
  ebp : t.reg .ebp = tf.regs.ebp
  ebx : t.reg .ebx = tf.regs.ebx
  edx : t.reg .edx = tf.regs.edx
  ecx : t.reg .ecx = tf.regs.ecx
  eax : t.reg .eax = tf.regs.eax
  esp : t.reg .esp = s.reg .esp + 60
  es : t.seg .es = tf.es.setWidth 16
  ds : t.seg .ds = tf.ds.setWidth 16
  cs : t.seg .cs = tf.cs.setWidth 16
  ss : t.seg .ss = s.seg .ss
  eip : t.eip = tf.eip
  eflags : t.eflags = tf.eflags
  mem : t.mem = s.mem

/-- All but the last instruction of `__trapret` are pops. -/
theorem trapret_iret (s : Cpu) : exec trapret s = Instr.iret.step (exec trapretPops s) := rfl

theorem pops_nt (s : Cpu) : nt (exec trapretPops s).eflags = nt s.eflags := addFlags_nt _ _ _

theorem pops_esp (s : Cpu) : (exec trapretPops s).reg .esp = s.reg .esp + 48 := by
  simp [exec, trapretPops, trapret, Instr.step, popTo, drop, Dst.set, BitVec.add_assoc]

theorem pops_mem (s : Cpu) : (exec trapretPops s).mem = s.mem := rfl

/-- Unless it leaves protected mode, `__trapret` gives up fifteen words. -/
theorem trapret_esp {s : Cpu} (hnt : nt s.eflags = false)
    (hvm : vm (exec trapret s).eflags = false) :
    (exec trapret s).reg .esp = s.reg .esp + 60 := by
  have hnt' := (pops_nt s).trans hnt
  rw [trapret_iret, iret_eflags hnt'] at hvm
  rw [trapret_iret, iret_step hnt' hvm]
  simp [drop, pops_esp, BitVec.add_assoc]

/-- From a frame on top of the stack, whose flags are the kernel's. -/
theorem trapret_restores {tf : Trapframe} {s : Cpu}
    (h : Holds s.mem (s.reg .esp) tf.words) (hnt : nt s.eflags = false)
    (hvm : vm tf.eflags = false) : Restored tf s (exec trapret s) := by
  simp only [Trapframe.words, PushRegs.words, List.cons_append, List.nil_append, Holds,
    BitVec.add_assoc, BitVec.ofNat_eq_ofNat, BitVec.reduceAdd, and_true] at h
  obtain ⟨h1, h2, h3, -, h5, h6, h7, h8, h9, h10, -, -, h13, h14, h15⟩ := h
  have hflags : top (drop (drop (exec trapretPops s))) = tf.eflags := by
    rw [← h15]
    simp [top, drop, pops_esp, pops_mem, BitVec.add_assoc]
  rw [trapret_iret, iret_step ((pops_nt s).trans hnt) (by rw [hflags]; exact hvm)]
  constructor <;>
    simp [exec, trapretPops, trapret, Instr.step, popTo, drop, top, Dst.set, BitVec.add_assoc, *]

/-! ## Interrupts in interrupts -/

/-- `trap` returns: to its return address, with the stack as at its entry. -/
structure Returned (s t : Cpu) : Prop where
  esp : t.reg .esp = s.reg .esp + 4
  eip : t.eip = load s.mem (s.reg .esp)

/-- C code whose caller owns the `n` bytes from `base` on.  Its own steps leave
    them alone, and the flags that no C code sets; `served` is an interrupt in
    between, of code that owns `n` and the bytes from `esp` up to `base`. -/
inductive Body (served : Nat → Cpu → Cpu → Prop) (base : Word) (n : Nat) :
    Cpu → Cpu → Prop where
  | done {s : Cpu} : Body served base n s s
  | own {s t u : Cpu} :
      Same n base s.mem t.mem → t.seg .ss = s.seg .ss →
      nt t.eflags = nt s.eflags → vm t.eflags = vm s.eflags →
      Body served base n t u → Body served base n s u
  | interrupted {s t u : Cpu} :
      (base - s.reg .esp).toNat + n + 72 ≤ 2 ^ 32 →
      served ((base - s.reg .esp).toNat + n) s t →
      Body served base n t u → Body served base n s u

/-- The stub pushes a dummy exactly if the processor pushed no error code. -/
def Matched (i : Nat) (err : Option Word) : Prop := pushesDummy i = !err.isSome

instance (i : Nat) (err : Option Word) : Decidable (Matched i err) :=
  inferInstanceAs (Decidable (_ = _))

section Nested

variable (vectors : Nat → Word) (trap next : Word)

/-- An interrupt `i` of code that owns `n` bytes of stack is served: entry, the
    body of `trap`, exit. -/
def ServedBy (served : Nat → Cpu → Cpu → Prop) (i : Nat) (err : Option Word) (n : Nat)
    (s t : Cpu) : Prop :=
  let s₁ := enter vectors trap next i err s
  ∃ s₂, Body served (s₁.reg .esp + 4) (4 * ((frame i err s).length + 1) + n) s₁ s₂ ∧
    Returned s₁ s₂ ∧ t = leave s₂

/-- The interrupts that may come while another one is served, `depth` deep. -/
def Nested : Nat → Nat → Cpu → Cpu → Prop
  | 0 => fun _ _ _ => False
  | depth + 1 => fun n s t =>
      ∃ i err, Matched i err ∧ ServedBy vectors trap next (Nested depth) i err n s t

/-- The interrupted code goes on where it was, with its part of the stack. -/
structure Resumed (n : Nat) (s t : Cpu) : Prop where
  reg : t.reg = s.reg
  seg : t.seg = s.seg
  eip : t.eip = s.eip
  eflags : t.eflags = s.eflags
  stack : Same n (s.reg .esp) s.mem t.mem

/-- What the body of `trap` leaves as it found it. -/
structure Kept (base : Word) (n : Nat) (s t : Cpu) : Prop where
  stack : Same n base s.mem t.mem
  ss : t.seg .ss = s.seg .ss
  nt : nt t.eflags = nt s.eflags
  vm : vm t.eflags = vm s.eflags

/-- One body after another. -/
theorem Kept.trans {base : Word} {n : Nat} {s t u : Cpu} (h : Kept base n s t)
    (h' : Kept base n t u) : Kept base n s u :=
  ⟨h.stack.trans h'.stack, h'.ss.trans h.ss, h'.nt.trans h.nt, h'.vm.trans h.vm⟩

/-- A body keeps what it must if the interrupts in it do; by induction on its
    stretches. -/
theorem body_keeps {served : Nat → Cpu → Cpu → Prop}
    (hserved : ∀ n s t, n + 72 ≤ 2 ^ 32 → vm s.eflags = false → served n s t → Resumed n s t)
    {base : Word} {n : Nat} {s t : Cpu} (h : Body served base n s t)
    (hvm : vm s.eflags = false) : Kept base n s t := by
  induction h with
  | done => exact ⟨Same.refl _ _ _, rfl, rfl, rfl⟩
  | @own s t u hmem hss hnt hv _ ih => exact .trans ⟨hmem, hss, hnt, hv⟩ (ih (hv.trans hvm))
  | @interrupted s t u hroom hs _ ih =>
      have hr := hserved _ s t hroom hvm hs
      have h1 := hr.stack.sub (d := (base - s.reg .esp).toNat) (l := n) (Nat.le_refl _)
      rw [← SharixBlock.at_offset] at h1
      have hkept : Kept base n s t :=
        ⟨h1, congrFun hr.seg .ss, congrArg nt hr.eflags, congrArg vm hr.eflags⟩
      exact hkept.trans (ih (hkept.vm.trans hvm))

theorem frame_length (i : Nat) (err : Option Word) (s : Cpu) :
    (frame i err s).length = 15 ↔ Matched i err := by
  unfold frame frameTop Matched
  cases pushesDummy i <;> cases err <;> simp

theorem frame_length_le (i : Nat) (err : Option Word) (s : Cpu) :
    14 ≤ (frame i err s).length ∧ (frame i err s).length ≤ 16 := by
  unfold frame frameTop
  cases pushesDummy i <;> cases err <;> simp

/-- What is on the stack when `trap` is entered. -/
theorem enter_stack (i : Nat) (err : Option Word) (s : Cpu) {n : Nat} (hn : n + 72 ≤ 2 ^ 32) :
    let t := pushAll (frame i err s) s
    let s₁ := enter vectors trap next i err s
    s₁.reg .esp = t.reg .esp - 8 ∧ load s₁.mem (s₁.reg .esp + 4) = t.reg .esp ∧
      Holds s₁.mem (t.reg .esp) (frame i err s) ∧ Same n (s.reg .esp) s.mem s₁.mem ∧
      s₁.seg .ss = s.seg .ss := by
  intro t s₁
  have hlen := frame_length_le i err s
  obtain ⟨hmem, hesp, hss⟩ := enter_pushes vectors trap next i err s
  have ht := pushAll_spec (frame i err s) s (n := n) (by omega)
  have hu := pushAll_spec [next, t.reg .esp] t (n := 4 * (frame i err s).length + n)
    (by simp only [List.length_cons, List.length_nil]; omega)
  refine ⟨hesp.trans hu.esp, ?_, ?_, ?_, ?_⟩
  · rw [hmem, hesp]
    exact hu.holds.2.1
  · rw [hmem]
    exact ht.holds.keep (hu.above.le (by omega))
  · rw [hmem]
    refine ht.above.trans ?_
    have h1 := hu.above.sub (d := 4 * (frame i err s).length) (l := n) (Nat.le_refl _)
    rwa [show t.reg .esp + BitVec.ofNat 32 (4 * (frame i err s).length) = s.reg .esp by
      rw [show t.reg .esp = _ from ht.esp, BitVec.sub_add_cancel]] at h1
  · rw [hss, hu.seg, ht.seg]

/-- The `struct trapframe` that `trap` is to find. -/
def trapframe (i : Nat) (err : Option Word) (s : Cpu) : Trapframe where
  regs :=
    { edi := s.reg .edi, esi := s.reg .esi, ebp := s.reg .ebp
      oesp := (pushAll (frameTop i err s) s).reg .esp
      ebx := s.reg .ebx, edx := s.reg .edx, ecx := s.reg .ecx, eax := s.reg .eax }
  es := (s.seg .es).setWidth 32
  ds := (s.seg .ds).setWidth 32
  trapno := BitVec.ofNat 32 i
  err := err.getD 0
  eip := s.eip
  cs := (s.seg .cs).setWidth 32
  eflags := s.eflags

/-- The frame, word by word, for a vector whose stub matches the processor. -/
theorem frame_words {i : Nat} {err : Option Word} (hm : Matched i err) (s : Cpu) :
    frame i err s = (trapframe i err s).words := by
  cases err with
  | none =>
      have hd : pushesDummy i = true := hm
      simp [frame, frameTop, hd, Trapframe.words, PushRegs.words, trapframe]
  | some e =>
      have hd : pushesDummy i = false := hm
      simp [frame, frameTop, hd, Trapframe.words, PushRegs.words, trapframe]

/-- The halves that `SETGATE` makes are the address. -/
theorem setgate_offset (istrap : Bool) (ss : BitVec 16) (off : Word) (dpl : BitVec 2) :
    (setgate istrap ss off dpl).offset = off := by
  have hlo : (off &&& 0xffff).setWidth 16 = off.extractLsb' 0 16 := by
    rw [BitVec.setWidth_and]
    show off.setWidth 16 &&& BitVec.allOnes 16 = _
    rw [BitVec.and_allOnes]
    ext k hk
    simp
  have hhi : (off >>> 16).setWidth 16 = off.extractLsb' 16 16 := by
    ext k hk
    simp
  show (off >>> 16).setWidth 16 ++ (off &&& 0xffff).setWidth 16 = off
  rw [hlo, hhi]
  have hall : off.extractLsb' 16 16 ++ off.extractLsb' 0 16 = off.extractLsb' 0 32 :=
    BitVec.extractLsb'_append_extractLsb'_eq_extractLsb' (x := off) rfl
  rw [hall]
  exact BitVec.extractLsb'_eq_self

/-- **`trap` FINDS A TRAP FRAME**: through the gate of `idt_init` the stub of a
    matched vector is reached, and its pointer is to a `struct trapframe` with
    the interrupted registers, the vector and the error code. -/
theorem trap_finds_frame {i n : Nat} {err : Option Word} (hm : Matched i err) (s : Cpu)
    (hn : n + 72 ≤ 2 ^ 32) :
    let s₁ := enter vectors trap next i err s
    let tf := load s₁.mem (s₁.reg .esp + 4)
    (deliver (idt vectors i) err s).eip = vectors i ∧ tf = s.reg .esp - 60 ∧
      Holds s₁.mem tf (trapframe i err s).words ∧ Same n (s.reg .esp) s.mem s₁.mem := by
  intro s₁ tf
  obtain ⟨-, hptr, hframe, habove, -⟩ := enter_stack vectors trap next i err s hn
  have hlen := frame_length_le i err s
  have htf := (pushAll_spec (frame i err s) s (n := n) (by omega)).esp
  rw [(frame_length i err s).mpr hm] at htf
  refine ⟨setgate_offset _ _ _ _, hptr.trans htf, ?_, habove⟩
  show Holds s₁.mem (load s₁.mem (s₁.reg .esp + 4)) _
  rw [hptr, ← frame_words hm]
  exact hframe

/-- The frame taken down is the interrupted state. -/
theorem restored_resumes {i n : Nat} {err : Option Word} {s u t : Cpu}
    (h : Restored (trapframe i err s) u t) (hesp : u.reg .esp + 60 = s.reg .esp)
    (hss : u.seg .ss = s.seg .ss) (hstack : Same n (s.reg .esp) s.mem u.mem) :
    Resumed n s t := by
  have hseg : ∀ g : BitVec 16, (g.setWidth 32).setWidth 16 = g := by
    intro g
    rw [BitVec.setWidth_setWidth_of_le g (by omega), BitVec.setWidth_eq]
  refine ⟨?_, ?_, h.eip, h.eflags, by rw [h.mem]; exact hstack⟩
  · funext r
    cases r with
    | eax => exact h.eax
    | ecx => exact h.ecx
    | edx => exact h.edx
    | ebx => exact h.ebx
    | esp => exact h.esp.trans hesp
    | ebp => exact h.ebp
    | esi => exact h.esi
    | edi => exact h.edi
  · funext g
    cases g with
    | cs => exact h.cs.trans (hseg _)
    | ds => exact h.ds.trans (hseg _)
    | es => exact h.es.trans (hseg _)
    | ss => exact h.ss.trans hss

/-- One interrupt, when those in between resume what they interrupt. -/
theorem servedBy_resumes_iff {served : Nat → Cpu → Cpu → Prop}
    (hserved : ∀ n s t, n + 72 ≤ 2 ^ 32 → vm s.eflags = false → served n s t → Resumed n s t)
    {i n : Nat} {err : Option Word} {s t : Cpu} (hn : n + 72 ≤ 2 ^ 32)
    (hvm : vm s.eflags = false) (h : ServedBy vectors trap next served i err n s t) :
    Resumed n s t ↔ Matched i err := by
  obtain ⟨s₂, hbody, hret, rfl⟩ := h
  obtain ⟨hnt₁, hvm₁⟩ := enter_flags vectors trap next i err s
  obtain ⟨hkeep, hss, hnt₂, -⟩ := body_keeps hserved hbody hvm₁
  have hnt : nt s₂.eflags = false := hnt₂.trans hnt₁
  have hlen := frame_length_le i err s
  have htf := (pushAll_spec (frame i err s) s (n := n) (by omega)).esp
  obtain ⟨hesp, hptr, hframe, habove, hss₁⟩ := enter_stack vectors trap next i err s hn
  generalize enter vectors trap next i err s = s₁ at *
  generalize (pushAll (frame i err s) s).reg .esp = tf at *
  -- `popl %esp` finds the pointer that was pushed for `trap`
  have htop : top s₂ = tf := by
    rw [top, hret.esp, ← hptr]
    exact (hkeep.le (by omega)).load
  have hpop : leave s₂ = exec trapret (s₂.setReg .esp tf) := by
    rw [leave, afterTrap, exec_cons, ← htop]
    congr 1
    simp [Instr.step, Dst.set, drop, Cpu.setReg]
  have hfour : s₁.reg .esp + 4 + BitVec.ofNat 32 4 = tf := by
    rw [hesp, BitVec.add_assoc]
    exact BitVec.sub_add_cancel tf 8
  have hstack : Same (4 * (frame i err s).length + n) tf s₁.mem s₂.mem := by
    have h1 := hkeep.sub (d := 4) (l := 4 * (frame i err s).length + n) (by omega)
    rwa [hfour] at h1
  constructor
  · intro hr
    have hflat : vm (exec trapret (s₂.setReg .esp tf)).eflags = false := by
      rw [← hpop, hr.eflags]
      exact hvm
    have h60 : tf + 60 = s.reg .esp := by
      rw [← hr.reg, hpop, trapret_esp (s := s₂.setReg .esp tf) hnt hflat]
      simp
    rw [htf] at h60
    refine (frame_length i err s).mp ?_
    have hn4 : (BitVec.ofNat 32 (4 * (frame i err s).length)).toNat
        = 4 * (frame i err s).length := by
      rw [BitVec.toNat_ofNat, Nat.mod_eq_of_lt (by omega)]
    have h1 : BitVec.ofNat 32 (4 * (frame i err s).length) = 60 := by bv_omega
    rw [h1] at hn4
    have h2 : (60 : Word).toNat = 60 := rfl
    omega
  · intro hm
    have h15 := (frame_length i err s).mpr hm
    rw [h15] at htf hstack
    have h60 : tf + 60 = s.reg .esp := by
      rw [htf]
      exact BitVec.sub_add_cancel _ _
    have hwords : Holds s₂.mem tf (trapframe i err s).words := by
      rw [← frame_words hm]
      exact hframe.keep (by rw [h15]; exact hstack.le (by omega))
    have hmem : Same n (s.reg .esp) s.mem s₂.mem := by
      refine habove.trans ?_
      have h1 := hstack.sub (d := 60) (l := n) (by omega)
      rwa [show tf + BitVec.ofNat 32 60 = s.reg .esp from h60] at h1
    have hesp₂ : (s₂.setReg .esp tf).reg .esp = tf := by simp
    have hrest : Restored (trapframe i err s) (s₂.setReg .esp tf)
        (exec trapret (s₂.setReg .esp tf)) := by
      refine trapret_restores ?_ hnt hvm
      rw [hesp₂]
      exact hwords
    rw [hpop]
    exact restored_resumes hrest (by rw [hesp₂]; exact h60) (hss.trans hss₁) hmem

/-- Interrupts nested to any depth resume what they interrupt. -/
theorem nested_resumes (depth : Nat) : ∀ n s t, n + 72 ≤ 2 ^ 32 → vm s.eflags = false →
    Nested vectors trap next depth n s t → Resumed n s t := by
  induction depth with
  | zero => exact fun _ _ _ _ _ h => h.elim
  | succ depth ih =>
      intro n s t hn hvm ⟨i, err, hm, h⟩
      exact (servedBy_resumes_iff vectors trap next ih hn hvm h).mpr hm

/-- **INTERRUPTED CODE GOES ON EXACTLY WHEN THE STUB MATCHES**: code of the kernel,
    whatever `trap` does that returns, leaves its argument and the trap frame as
    they are and the stack above too, and with interrupts of matched vectors in
    it nested to any depth. -/
theorem resumes_iff {depth i n : Nat} {err : Option Word} {s t : Cpu}
    (hn : n + 72 ≤ 2 ^ 32) (hvm : vm s.eflags = false)
    (h : ServedBy vectors trap next (Nested vectors trap next depth) i err n s t) :
    Resumed n s t ↔ Matched i err :=
  servedBy_resumes_iff vectors trap next (nested_resumes vectors trap next depth) hn hvm h

/-- `trap` returns at once. -/
def serveAtOnce (i : Nat) (err : Option Word) (s : Cpu) : Cpu :=
  leave (Instr.ret.step (enter vectors trap next i err s))

theorem servedBy_ret (served : Nat → Cpu → Cpu → Prop) (i : Nat) (err : Option Word)
    (n : Nat) (s : Cpu) :
    ServedBy vectors trap next served i err n s (serveAtOnce vectors trap next i err s) := by
  unfold ServedBy serveAtOnce
  dsimp only
  generalize enter vectors trap next i err s = s₁
  refine ⟨Instr.ret.step s₁, .own (t := Instr.ret.step s₁) (Same.refl _ _ _) rfl rfl rfl .done,
    ⟨?_, rfl⟩, rfl⟩
  simp [Instr.step, drop]

end Nested

/-- A kernel at rest. -/
def restCpu : Cpu where
  reg := fun r => if r = .esp then 0x1000 else 0
  seg := fun _ => 8
  eip := 0x100000
  eflags := 0x202
  mem := fun _ => 0

/-- A page fault at rest. -/
theorem trap_finds_frame_fault :
    let s₁ := enter (fun _ => 0) 0 0 14 (some 2) restCpu
    let tf := load s₁.mem (s₁.reg .esp + 4)
    tf = restCpu.reg .esp - 60 ∧ Holds s₁.mem tf (trapframe 14 (some 2) restCpu).words := by
  have h := @trap_finds_frame (fun _ => 0) 0 0 14 0 (some 2) (by rfl) restCpu (by omega)
  exact ⟨h.2.1, h.2.2.1⟩

/-- A page fault as the timer's handler is entered. -/
def faultInTimer : Cpu :=
  serveAtOnce (fun _ => 0) 0 0 14 (some 2) (enter (fun _ => 0) 0 0 32 none restCpu)

theorem resumes_iff_timer :
    Resumed 0 restCpu (leave (Instr.ret.step faultInTimer)) ↔ Matched 32 none := by
  refine @resumes_iff (fun _ => 0) 0 0 1 32 0 none _ _ (by omega) (by decide) ?_
  unfold ServedBy faultInTimer
  dsimp only
  have hvm := (enter_flags (fun _ => 0) 0 0 32 none restCpu).2
  generalize enter (fun _ => 0) 0 0 32 none restCpu = s₁ at *
  have hfour : (s₁.reg .esp + 4 - s₁.reg .esp).toNat = 4 := by
    rw [BitVec.add_comm, BitVec.add_sub_cancel]
    rfl
  have hfault : Nested (fun _ => 0) 0 0 1 68 s₁
      (serveAtOnce (fun _ => 0) 0 0 14 (some 2) s₁) :=
    ⟨14, some 2, rfl, servedBy_ret (fun _ => 0) 0 0 _ 14 (some 2) 68 s₁⟩
  generalize serveAtOnce (fun _ => 0) 0 0 14 (some 2) s₁ = u at *
  have hback := nested_resumes (fun _ => 0) 0 0 1 68 s₁ u (by omega) hvm hfault
  refine ⟨Instr.ret.step u, .interrupted (t := u) ?_ ?_
    (.own (t := Instr.ret.step u) (Same.refl _ _ _) rfl rfl rfl .done), ⟨?_, ?_⟩, rfl⟩
  · rw [hfour]
    decide
  · rw [hfour]
    exact hfault
  · rw [← hback.reg]
    simp [Instr.step, drop]
  · show top u = _
    rw [top, hback.reg]
    exact (hback.stack.le (by omega)).load

end SharixTrap
