import Sharix.TrapProofs
import Sharix.SwitchProofs

/-! # How a thread starts — `thread_create`, `run_entry`, `run_entrys`,
    `thread_entry`

    `thread_create` makes a trap frame on a new stack and a context that names
    `run_entry` and the frame.  The first switch to the thread enters
    `run_entry`; `run_entrys` makes the frame the stack and leaves through
    `__trapret`, as from an interrupt, into `thread_entry`, which calls the
    thread's function.

    `thread_starts`: whatever the other threads do before the first switch, the
    function is called with its argument, on the thread's own stack.  The frame
    comes from `kmalloc` and `tf_eflags` is never set: the flags are what the
    memory held.  If `VM` is set there, `iret` leaves for virtual-8086 mode, and
    the thread does not start. -/

namespace SharixThreadStart

open SharixMachine SharixTrap SharixSwitch

/-! ## The code -/

def KERNEL_CS : BitVec 16 := GD_KTEXT
def KERNEL_DS : BitVec 16 := GD_KDATA
def KSTACKSIZE : Nat := 2 * 4096

/-- `sizeof(struct trapframe)`, with `tf_esp` and `tf_ss`. -/
def sizeofTrapframe : Nat := 68

/-- `(struct trapframe *)(thread->kstack + KSTACKSIZE) - 1`. -/
def frameOf (kstack : Word) : Word :=
  kstack + BitVec.ofNat 32 (KSTACKSIZE - sizeofTrapframe)

/-- The stores of `thread_create` to the new stack and the new context. -/
def threadCreate (m : Mem) (kstack context fn arg threadEntry runEntry : Word) : Mem :=
  let tf := frameOf kstack
  let m := store16 m (tf + 52) KERNEL_CS
  let m := store16 m (tf + 64) KERNEL_DS
  let m := store16 m (tf + 32) KERNEL_DS
  let m := store16 m (tf + 36) KERNEL_DS
  let m := store m (tf + 16) fn
  let m := store m (tf + 20) arg
  let m := store m (tf + 48) threadEntry
  let m := store m (context + 4) tf
  store m context runEntry

/-- `run_entrys(tf)`. -/
def runEntrys : List Instr := .movl (.mem 4 .esp) (.reg .esp) :: trapret

/-- `thread_entry` down to the call of the function; `next` is behind it. -/
def threadEntryCode (next : Word) : List Instr :=
  [.pushl (.reg .edx), .call (.reg .ebx) next]

/-! ## What `thread_create` leaves -/

/-- The trap frame in memory. -/
def trapframeAt (m : Mem) (p : Word) : Trapframe where
  regs :=
    { edi := load m p, esi := load m (p + 4), ebp := load m (p + 8)
      oesp := load m (p + 12), ebx := load m (p + 16), edx := load m (p + 20)
      ecx := load m (p + 24), eax := load m (p + 28) }
  es := load m (p + 32)
  ds := load m (p + 36)
  trapno := load m (p + 40)
  err := load m (p + 44)
  eip := load m (p + 48)
  cs := load m (p + 52)
  eflags := load m (p + 56)

/-- A frame is read off the words it consists of. -/
theorem trapframeAt_holds (m : Mem) (p : Word) : Holds m p (trapframeAt m p).words := by
  simp [Trapframe.words, PushRegs.words, trapframeAt, Holds, BitVec.add_assoc]

/-- The frame is the same while its sixty bytes are. -/
theorem trapframeAt_eqOn {m m' : Mem} {p : Word} (h : Set.EqOn m' m (bytes p 60)) :
    trapframeAt m' p = trapframeAt m p := by
  have hword : ∀ d, d + 4 ≤ 60 →
      load m' (p + BitVec.ofNat 32 d) = load m (p + BitVec.ofNat 32 d) := by
    intro d hd
    refine load_eqOn (h.mono (Set.Subset.trans (bytes_tail (by omega)) ?_))
    exact bytes_head hd
  have h0 : load m' p = load m p := load_eqOn (h.mono (bytes_head (by omega)))
  simp [trapframeAt, h0, hword 4, hword 8, hword 12, hword 16, hword 20, hword 24, hword 28,
    hword 32, hword 36, hword 40, hword 44, hword 48, hword 52, hword 56]

/-- A new thread in memory: its frame, its context, and the flags as `kmalloc`
    left them. -/
structure Created (m : Mem) (tf context fn arg threadEntry runEntry eflags : Word) :
    Prop where
  ebx : (trapframeAt m tf).regs.ebx = fn
  edx : (trapframeAt m tf).regs.edx = arg
  es : (trapframeAt m tf).es.setWidth 16 = KERNEL_DS
  ds : (trapframeAt m tf).ds.setWidth 16 = KERNEL_DS
  cs : (trapframeAt m tf).cs.setWidth 16 = KERNEL_CS
  eip : (trapframeAt m tf).eip = threadEntry
  eflags : (trapframeAt m tf).eflags = eflags
  contextEip : load m context = runEntry
  contextEsp : load m (context + 4) = tf

/-- `thread_create` leaves the context and the frame that the thread starts on. -/
theorem threadCreate_creates (m : Mem) {kstack context : Word}
    (hap : Disjoint (bytes (frameOf kstack) 68) (bytes context 32))
    (fn arg threadEntry runEntry : Word) :
    Created (threadCreate m kstack context fn arg threadEntry runEntry) (frameOf kstack)
      context fn arg threadEntry runEntry (load m (frameOf kstack + 56)) := by
  unfold threadCreate
  generalize frameOf kstack = tf at *
  -- the stores to the context leave the frame alone
  have hframe : ∀ (m : Mem) (c w : Word), bytes c 4 ⊆ bytes context 32 → ∀ e, e + 4 ≤ 68 →
      load (store m c w) (tf + BitVec.ofNat 32 e) = load m (tf + BitVec.ofNat 32 e) := by
    intro m c w hc e he
    refine load_eqOn (store_eqOn _ _ _ ((hap.mono_right hc).symm.mono_right ?_))
    exact Set.Subset.trans (bytes_tail (by omega)) (bytes_head he)
  have hctx0 : bytes context 4 ⊆ bytes context 32 := bytes_head (by omega)
  have hctx4 : bytes (context + 4#32) 4 ⊆ bytes context 32 :=
    Set.Subset.trans (bytes_tail (d := 4) (by omega)) (bytes_head (by omega))
  have hback : ∀ m w, load (store m context w) (context + 4#32) = load m (context + 4#32) := by
    intro m w
    have h := load_store_apart m context w (d := 0) (e := 4) (by omega) (by omega) (by omega)
    rwa [show context + BitVec.ofNat 32 0 = context from BitVec.add_zero context] at h
  constructor <;>
    simp (disch := omega) [trapframeAt, hframe _ _ _ hctx0, hframe _ _ _ hctx4, hback,
      load_store_apart, load_store16_apart, load_store, load_store16]

/-! ## Until the first switch -/

section Threads

variable {ι : Type} [DecidableEq ι] {ptr : ι → Word} {stk : ι → Set Word}

/-- `j` has not run yet. -/
def Fresh (w : World ι) (j : ι) : Prop := j ≠ w.running ∧ w.out j = none

/-- A thread that has not run after a step had not run before, and its stack and
    context are as they were. -/
theorem step_fresh (hl : Layout ptr stk) {w w' : World ι} {j : ι}
    (h : Step ptr stk w w') (hw : Suspended ptr stk w) (hj : Fresh w' j) :
    Fresh w j ∧ Set.EqOn w'.cpu.mem w.cpu.mem (stk j) ∧
      Set.EqOn w'.cpu.mem w.cpu.mem (bytes (ptr j) 32) := by
  cases h with
  | own t hctx hstk => exact ⟨hj, hstk j hj.1, hctx j⟩
  | switch k hc hfresh =>
      obtain ⟨hjk, hout⟩ := hj
      have hjk : j ≠ k := hjk
      have hrun : j ≠ w.running := by
        rintro rfl
        have h1 : Function.update w.out w.running (some w.cpu) w.running = none := hout
        rw [Function.update_self] at h1
        cases h1
      have hnone : w.out j = none := by
        have h1 : Function.update w.out w.running (some w.cpu) j = none := hout
        rwa [Function.update_of_ne hrun] at h1
      have hsaved := (savedMem_spec hc).2
      refine ⟨⟨hrun, hnone⟩, ?_⟩
      cases hk : Function.update w.out w.running (some w.cpu) k with
      | some s₀ =>
          have h1 := (switch_to_suspended hl hc (saved_suspended hl hw hc k s₀ hk)).2
          show Set.EqOn (exec switchToCode w.cpu).mem _ _ ∧
            Set.EqOn (exec switchToCode w.cpu).mem _ _
          rw [h1]
          exact ⟨hsaved _ (hl.apart _ j), hsaved _ (hl.contextApart _ j (Ne.symm hrun))⟩
      | none =>
          have hne : k ≠ w.running := by
            rintro rfl
            rw [Function.update_self] at hk
            cases hk
          rw [Function.update_of_ne hne] at hk
          have hroom := hfresh hne hk
          exact ⟨(switch_to_fresh hl hc hroom (hl.stackApart k j (Ne.symm hjk))).trans
              (hsaved _ (hl.apart _ j)),
            (switch_to_fresh hl hc hroom (hl.apart j k).symm).trans
              (hsaved _ (hl.contextApart _ j (Ne.symm hrun)))⟩

/-- A thread that has not run is still as it was created after any run of the
    others. -/
theorem run_fresh (hl : Layout ptr stk) {w₀ w : World ι} (hstart : ∀ u, w₀.out u = none)
    (hrun : Relation.ReflTransGen (Step ptr stk) w₀ w) {j : ι} (hj : Fresh w j) :
    Set.EqOn w.cpu.mem w₀.cpu.mem (stk j) ∧
      Set.EqOn w.cpu.mem w₀.cpu.mem (bytes (ptr j) 32) := by
  induction hrun with
  | refl => exact ⟨Set.eqOn_refl _ _, Set.eqOn_refl _ _⟩
  | tail hrun hstep ih =>
      obtain ⟨hjv, h1, h2⟩ := step_fresh hl hstep (run_suspended hl hstart hrun) hj
      obtain ⟨h3, h4⟩ := ih hjv
      exact ⟨h1.trans h3, h2.trans h4⟩

/-! ## The first switch -/

/-- `fn` is entered with its argument; it returns into `thread_entry`. -/
structure Starts (tf fn arg next eflags : Word) (t : Cpu) : Prop where
  eip : t.eip = fn
  ret : load t.mem (t.reg .esp) = next
  arg : load t.mem (t.reg .esp + 4) = arg
  esp : t.reg .esp = tf + 52
  cs : t.seg .cs = KERNEL_CS
  ds : t.seg .ds = KERNEL_DS
  es : t.seg .es = KERNEL_DS
  eflags : t.eflags = eflags

/-- `run_entrys` on a frame that `thread_create` made. -/
theorem runEntrys_starts {u : Cpu} {m : Mem} {tf context fn arg threadEntry runEntry eflags : Word}
    (hm : Created m tf context fn arg threadEntry runEntry eflags)
    (hptr : load u.mem (u.reg .esp + 4) = tf) (hframe : Set.EqOn u.mem m (bytes tf 60))
    (hnt : nt u.eflags = false) (hvm : vm eflags = false) (next : Word) :
    (exec runEntrys u).eip = threadEntry ∧
      Starts tf fn arg next eflags (exec (threadEntryCode next) (exec runEntrys u)) := by
  have hesp : (u.setReg .esp tf).reg .esp = tf := by simp
  have hstep : exec runEntrys u = exec trapret (u.setReg .esp tf) := by
    rw [runEntrys, exec_cons, ← hptr]
    rfl
  have hrest : Restored (trapframeAt m tf) (u.setReg .esp tf)
      (exec trapret (u.setReg .esp tf)) := by
    refine trapret_restores ?_ hnt (by rw [hm.eflags]; exact hvm)
    rw [hesp, ← trapframeAt_eqOn hframe]
    exact trapframeAt_holds _ _
  rw [hstep]
  generalize exec trapret (u.setReg .esp tf) = t at *
  have hold : t.reg .esp = tf + 60 := by rw [hrest.esp, hesp]
  have hpush := pushAll_spec [next, t.reg .edx] t (n := 0) (by simp)
  have hcall : exec (threadEntryCode next) t
      = { pushAll [next, t.reg .edx] t with eip := t.reg .ebx } := by
    simp [exec, threadEntryCode, Instr.step, Src.get, pushAll]
  rw [hcall]
  refine ⟨hrest.eip.trans hm.eip, hrest.ebx.trans hm.ebx, hpush.holds.1, ?_, ?_, ?_, ?_, ?_, ?_⟩
  · exact hpush.holds.2.1.trans (hrest.edx.trans hm.edx)
  · refine hpush.esp.trans ?_
    rw [hold]
    show tf + 60 - 8 = tf + 52
    bv_omega
  · exact (congrFun hpush.seg .cs).trans (hrest.cs.trans hm.cs)
  · exact (congrFun hpush.seg .ds).trans (hrest.ds.trans hm.ds)
  · exact (congrFun hpush.seg .es).trans (hrest.es.trans hm.es)
  · exact hpush.eflags.trans (hrest.eflags.trans hm.eflags)

/-- `run_entry` calls `run_entrys(currentthread->tf)`. -/
structure RunsEntry (tf : Word) (t u : Cpu) : Prop where
  arg : load u.mem (u.reg .esp + 4) = tf
  frame : Set.EqOn u.mem t.mem (bytes tf 60)

/-- **A THREAD STARTS IN ITS FUNCTION**: a thread that `thread_create` made
    before a run of switches, each from the caller's own context, and that has
    not run yet, is entered by the next switch to it in `run_entry`; and if
    `NT` is clear, and `VM` in the word that the frame has for the flags, it
    calls its function with its argument through `run_entrys`. -/
theorem thread_starts (hl : Layout ptr stk) {w₀ w : World ι} {j : ι}
    (hstart : ∀ u, w₀.out u = none)
    (hrun : Relation.ReflTransGen (Step ptr stk) w₀ w) (hj : Fresh w j) {m : Mem}
    {kstack fn arg threadEntry runEntry : Word}
    (hcreate : w₀.cpu.mem = threadCreate m kstack (ptr j) fn arg threadEntry runEntry)
    (hstk : bytes kstack KSTACKSIZE ⊆ stk j) (hc : Calls ptr stk w.running j w.cpu)
    {u : Cpu} (hu : RunsEntry (frameOf kstack) (exec switchToCode w.cpu) u)
    (hnt : nt u.eflags = false) (hvm : vm (load m (frameOf kstack + 56)) = false)
    (next : Word) :
    (exec switchToCode w.cpu).eip = runEntry ∧
      (exec switchToCode w.cpu).reg .esp = frameOf kstack ∧
      (exec runEntrys u).eip = threadEntry ∧
      Starts (frameOf kstack) fn arg next (load m (frameOf kstack + 56))
        (exec (threadEntryCode next) (exec runEntrys u)) := by
  have hin : bytes (frameOf kstack) 68 ⊆ stk j := by
    refine Set.Subset.trans (bytes_tail ?_) hstk
    rw [KSTACKSIZE, sizeofTrapframe]
    omega
  have hm := threadCreate_creates m ((hl.apart j j).symm.mono_left hin) fn arg threadEntry runEntry
  rw [← hcreate] at hm
  obtain ⟨hs, hx⟩ := run_fresh hl hstart hrun hj
  have hsaved := (savedMem_spec hc).2
  have hctx := (hsaved _ (hl.contextApart _ j (Ne.symm hj.1))).trans hx
  have hold := (hsaved _ (hl.apart _ j)).trans hs
  obtain ⟨hloads, hmem⟩ := switchToCode_spec w.cpu
  rw [target_saved hl hc] at hloads hmem
  have hesp : load (savedMem w.cpu) (ptr j + 4) = frameOf kstack := by
    refine Eq.trans (load_eqOn (hctx.mono ?_)) hm.contextEsp
    exact Set.Subset.trans (bytes_tail (d := 4) (by omega)) (bytes_head (by omega))
  rw [hesp] at hmem
  -- the return address goes below the frame
  have hbelow : Set.EqOn (exec switchToCode w.cpu).mem (savedMem w.cpu)
      (bytes (frameOf kstack) 60) := by
    rw [hmem]
    refine store_eqOn _ _ _ ?_
    have h := bytes_apart (p := frameOf kstack - 4) (d := 0) (e := 4) (n := 4) (k := 60)
      (by omega) (by omega) (by omega)
    have h4 : frameOf kstack - 4 + BitVec.ofNat 32 4 = frameOf kstack :=
      BitVec.sub_add_cancel _ 4
    have h0 : frameOf kstack - 4 + BitVec.ofNat 32 0 = frameOf kstack - 4 := BitVec.add_zero _
    rwa [h4, h0] at h
  have hframe : Set.EqOn u.mem w₀.cpu.mem (bytes (frameOf kstack) 60) :=
    hu.frame.trans (hbelow.trans
      (hold.mono (Set.Subset.trans (bytes_head (by omega)) hin)))
  refine ⟨hloads.eip.trans ?_, hloads.esp.trans hesp,
    runEntrys_starts hm hu.arg hframe hnt hvm next⟩
  exact (load_eqOn (hctx.mono (bytes_head (by omega)))).trans hm.contextEip

end Threads

/-! ## A new thread -/

def startStk (b : Bool) : Set Word := if b then bytes 0x4000 KSTACKSIZE else bytes 0x2000 0x100

theorem start_layout : Layout twoPtr startStk := by
  refine ⟨two_layout.contextApart, ?_, ?_⟩
  · intro i j hij
    cases i <;> cases j
    · exact absurd rfl hij
    · exact bytes_disjoint (by decide) (by decide)
    · exact (bytes_disjoint (by decide) (by decide)).symm
    · exact absurd rfl hij
  · intro i j
    cases i <;> cases j <;> exact bytes_disjoint (by decide) (by decide)

/-- `false` has made the thread `true` and is about to switch to it. -/
def startCpu : Cpu where
  reg := fun r => if r = .esp then 0x2080 else 0
  seg := fun _ => 8
  eip := 0
  eflags := 0
  mem := threadCreate (storeAll (fun _ => 0) 0x2080 [0x500, 0x1000, 0x1100]) 0x4000 0x1100
    0x700 42 0x600 0x800

/-- `run_entry` pushes the pointer and calls. -/
def startEntry : Cpu :=
  let t := exec switchToCode startCpu
  pushAll [0x810, t.reg .esp] t

theorem thread_starts_two :
    Starts (frameOf 0x4000) 0x700 42 0x610 0
      (exec (threadEntryCode 0x610) (exec runEntrys startEntry)) := by
  have hc : Calls twoPtr startStk false true startCpu := by
    refine ⟨by decide, by decide, ?_⟩
    exact (bytes_tail (p := 0x2000) (n := 12) (d := 0x80) (by omega)).trans
      (bytes_head (by omega))
  have hesp : (exec switchToCode startCpu).reg .esp = frameOf 0x4000 := by decide
  have hpush := pushAll_spec [0x810, (exec switchToCode startCpu).reg .esp]
    (exec switchToCode startCpu) (n := 60) (by simp)
  have hu : RunsEntry (frameOf 0x4000) (exec switchToCode startCpu) startEntry := by
    refine ⟨hpush.holds.2.1.trans hesp, ?_⟩
    rw [← hesp]
    exact hpush.above.eqOn
  have hfresh : Fresh (⟨startCpu, false, fun _ => none⟩ : World Bool) true :=
    ⟨by decide, rfl⟩
  exact (thread_starts start_layout (fun _ => rfl) .refl hfresh rfl (Set.Subset.refl _) hc hu
    (by decide) (by decide) 0x610).2.2.2

end SharixThreadStart
