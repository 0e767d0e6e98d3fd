import Sharix.MachineProofs
import Sharix.ThreadProofs
import Mathlib.Data.BitVec
import Mathlib.Logic.Relation

/-! # The switch in assembly — `switch_to` in `asm_tool.S`

    `switch_to` pops its return address into the context it saves, stores the
    registers there, and loads the other context.  `switchTo_refines`: it is
    the switch of the thread model.

    Each thread runs on a stack of its own.  `switch_resumes` follows threads
    that hand over to each other in any order, each with its own context as
    `from`: each goes on behind its own call, with the registers and the stack it
    left.  `thread_run` passes the context of the main thread, so that this is
    about the calls of it that the main thread makes. -/

namespace SharixSwitch

open SharixMachine SharixThread

/-! ## The code -/

/-- Save from's registers. -/
def saveCode : List Instr :=
  [.movl (.mem 4 .esp) (.reg .eax),
   .popl (.mem 0 .eax),
   .movl (.reg .esp) (.mem 4 .eax),
   .movl (.reg .ebx) (.mem 8 .eax),
   .movl (.reg .ecx) (.mem 12 .eax),
   .movl (.reg .edx) (.mem 16 .eax),
   .movl (.reg .esi) (.mem 20 .eax),
   .movl (.reg .edi) (.mem 24 .eax),
   .movl (.reg .ebp) (.mem 28 .eax)]

/-- Restore to's registers; the return address is off the stack already. -/
def restoreCode : List Instr :=
  [.movl (.mem 4 .esp) (.reg .eax),
   .movl (.mem 28 .eax) (.reg .ebp),
   .movl (.mem 24 .eax) (.reg .edi),
   .movl (.mem 20 .eax) (.reg .esi),
   .movl (.mem 16 .eax) (.reg .edx),
   .movl (.mem 12 .eax) (.reg .ecx),
   .movl (.mem 8 .eax) (.reg .ebx),
   .movl (.mem 4 .eax) (.reg .esp),
   .pushl (.mem 0 .eax),
   .ret]

def switchToCode : List Instr := saveCode ++ restoreCode

/-- What is saved at the call: the return address, and the registers behind the
    return. -/
def savedWords (s : Cpu) : List Word :=
  [top s, s.reg .esp + 4, s.reg .ebx, s.reg .ecx, s.reg .edx, s.reg .esi,
    s.reg .edi, s.reg .ebp]

/-- The memory with the registers saved in `*from`. -/
def savedMem (s : Cpu) : Mem :=
  storeAll s.mem (load s.mem (s.reg .esp + 4)) (savedWords s)

/-- The registers that a context holds. -/
structure Loads (m : Mem) (p : Word) (t : Cpu) : Prop where
  eip : t.eip = load m p
  esp : t.reg .esp = load m (p + 4)
  ebx : t.reg .ebx = load m (p + 8)
  ecx : t.reg .ecx = load m (p + 12)
  edx : t.reg .edx = load m (p + 16)
  esi : t.reg .esi = load m (p + 20)
  edi : t.reg .edi = load m (p + 24)
  ebp : t.reg .ebp = load m (p + 28)

theorem saveCode_spec (s : Cpu) :
    (exec saveCode s).mem = savedMem s ∧ (exec saveCode s).reg .esp = s.reg .esp + 4 := by
  constructor <;>
    simp [exec, saveCode, Instr.step, Src.get, Dst.set, drop, top, savedMem, savedWords,
      storeAll, BitVec.add_assoc]

theorem restoreCode_spec (s : Cpu) :
    let p := load s.mem (s.reg .esp + 4)
    Loads s.mem p (exec restoreCode s) ∧
      (exec restoreCode s).mem = store s.mem (load s.mem (p + 4) - 4) (load s.mem p) := by
  refine ⟨?_, ?_⟩
  · constructor <;>
      simp [exec, restoreCode, Instr.step, Src.get, Dst.set, drop, top, load_store]
  · simp [exec, restoreCode, Instr.step, Src.get, Dst.set, drop]

/-- What `switch_to` does: the return address of `*to` is pushed on its stack
    and popped again. -/
theorem switchToCode_spec (s : Cpu) :
    let m := savedMem s
    let p := load m (s.reg .esp + 8)
    Loads m p (exec switchToCode s) ∧
      (exec switchToCode s).mem = store m (load m (p + 4) - 4) (load m p) := by
  obtain ⟨hmem, hesp⟩ := saveCode_spec s
  have h := restoreCode_spec (exec saveCode s)
  rw [hmem, hesp, BitVec.add_assoc] at h
  rw [switchToCode, exec_append]
  exact h

/-! ## Contexts and stacks apart -/

section Threads

variable {ι : Type} (ptr : ι → Word) (stk : ι → Set Word)

/-- The contexts at `ptr` and the stacks are apart from each other. -/
structure Layout : Prop where
  contextApart : ∀ i j, i ≠ j → Disjoint (bytes (ptr i) 32) (bytes (ptr j) 32)
  stackApart : ∀ i j, i ≠ j → Disjoint (stk i) (stk j)
  apart : ∀ i j, Disjoint (bytes (ptr i) 32) (stk j)

/-- `i` calls `switch_to` with its own context and that of `j`. -/
structure Calls (i j : ι) (s : Cpu) : Prop where
  source : load s.mem (s.reg .esp + 4) = ptr i
  target : load s.mem (s.reg .esp + 8) = ptr j
  onStack : bytes (s.reg .esp) 12 ⊆ stk i

variable {ptr stk}

/-- Saving writes the context of the caller and nothing else. -/
theorem savedMem_spec {i j : ι} {s : Cpu} (hc : Calls ptr stk i j s) :
    Holds (savedMem s) (ptr i) (savedWords s) ∧
      ∀ S, Disjoint (bytes (ptr i) 32) S → Set.EqOn (savedMem s) s.mem S := by
  rw [savedMem, hc.source]
  have hlen : (savedWords s).length = 8 := rfl
  refine ⟨storeAll_holds (by omega) _ _, fun S hS => ?_⟩
  exact storeAll_eqOn (by omega) _ _ (by rw [hlen]; exact hS)

/-- The context of `j` is found where the caller put its address. -/
theorem target_saved (hl : Layout ptr stk) {i j : ι} {s : Cpu} (hc : Calls ptr stk i j s) :
    load (savedMem s) (s.reg .esp + 8) = ptr j := by
  rw [← hc.target]
  refine load_eqOn ((savedMem_spec hc).2 _ ?_)
  refine (hl.apart i i).mono_right (Set.Subset.trans ?_ hc.onStack)
  exact bytes_tail (p := s.reg .esp) (n := 4) (d := 8) (by omega)

theorem Holds.keepOn {m m' : Mem} {p : Word} {ws : List Word} (h : Holds m p ws)
    (hlen : 4 * ws.length ≤ 2 ^ 32) (hs : Set.EqOn m' m (bytes p (4 * ws.length))) :
    Holds m' p ws :=
  h.keep fun _ hk => hs (mem_bytes hk hlen)

/-- What a suspended thread leaves in memory: its registers in its context, and
    its stack. -/
structure SuspendedAt (ptr : ι → Word) (stk : ι → Set Word) (m : Mem) (u : ι)
    (s₀ : Cpu) : Prop where
  context : Holds m (ptr u) (savedWords s₀)
  stack : Set.EqOn m s₀.mem (stk u)
  onStack : bytes (s₀.reg .esp) 12 ⊆ stk u

theorem SuspendedAt.keep {m m' : Mem} {u : ι} {s₀ : Cpu}
    (h : SuspendedAt ptr stk m u s₀) (hctx : Set.EqOn m' m (bytes (ptr u) 32))
    (hstk : Set.EqOn m' m (stk u)) : SuspendedAt ptr stk m' u s₀ :=
  ⟨Holds.keepOn h.context (show 4 * 8 ≤ 2 ^ 32 by omega) hctx, hstk.trans h.stack, h.onStack⟩

/-- The caller is suspended once its registers are saved. -/
theorem saved_suspends (hl : Layout ptr stk) {i j : ι} {s : Cpu}
    (hc : Calls ptr stk i j s) : SuspendedAt ptr stk (savedMem s) i s :=
  ⟨(savedMem_spec hc).1, (savedMem_spec hc).2 _ (hl.apart i i), hc.onStack⟩

/-- The others stay suspended. -/
theorem saved_keeps (hl : Layout ptr stk) {i j u : ι} (hu : u ≠ i) {s s₀ : Cpu}
    (hc : Calls ptr stk i j s) (h : SuspendedAt ptr stk s.mem u s₀) :
    SuspendedAt ptr stk (savedMem s) u s₀ :=
  h.keep ((savedMem_spec hc).2 _ (hl.contextApart i u (Ne.symm hu)))
    ((savedMem_spec hc).2 _ (hl.apart i u))

/-- A thread goes on behind its call, with its registers and its stack. -/
structure Resumes (S : Set Word) (s₀ t : Cpu) : Prop where
  eip : t.eip = top s₀
  esp : t.reg .esp = s₀.reg .esp + 4
  ebx : t.reg .ebx = s₀.reg .ebx
  ecx : t.reg .ecx = s₀.reg .ecx
  edx : t.reg .edx = s₀.reg .edx
  esi : t.reg .esi = s₀.reg .esi
  edi : t.reg .edi = s₀.reg .edi
  ebp : t.reg .ebp = s₀.reg .ebp
  stack : Set.EqOn t.mem s₀.mem S

/-- A switch to a suspended thread changes no more than the caller's context,
    since the return address it pushes is there already. -/
theorem switch_to_suspended (hl : Layout ptr stk) {i j : ι} {s s₀ : Cpu}
    (hc : Calls ptr stk i j s) (h : SuspendedAt ptr stk (savedMem s) j s₀) :
    Resumes (stk j) s₀ (exec switchToCode s) ∧ (exec switchToCode s).mem = savedMem s := by
  obtain ⟨hloads, hmem⟩ := switchToCode_spec s
  rw [target_saved hl hc] at hloads hmem
  have hctx := h.context
  simp only [savedWords, Holds, BitVec.add_assoc, BitVec.ofNat_eq_ofNat, BitVec.reduceAdd,
    and_true] at hctx
  obtain ⟨heip, hesp, hebx, hecx, hedx, hesi, hedi, hebp⟩ := hctx
  have htop : top s₀ = load (savedMem s) (s₀.reg .esp) := by
    refine (load_eqOn (h.stack.mono (Set.Subset.trans ?_ h.onStack))).symm
    exact bytes_head (by omega)
  have hsame : (exec switchToCode s).mem = savedMem s := by
    rw [hmem, heip, show load (savedMem s) (ptr j + 4) = _ from hesp, htop]
    show store _ (s₀.reg .esp + 4 - 4) _ = _
    rw [BitVec.add_sub_cancel]
    exact store_load _ _
  refine ⟨⟨hloads.eip.trans heip, hloads.esp.trans hesp, hloads.ebx.trans hebx,
    hloads.ecx.trans hecx, hloads.edx.trans hedx, hloads.esi.trans hesi,
    hloads.edi.trans hedi, hloads.ebp.trans hebp, ?_⟩, hsame⟩
  rw [hsame]
  exact h.stack

/-- A switch to a thread that has never run writes below its `esp` as well. -/
theorem switch_to_fresh (hl : Layout ptr stk) {i j : ι} {s : Cpu}
    (hc : Calls ptr stk i j s)
    (hroom : bytes (load (savedMem s) (ptr j + 4) - 4) 4 ⊆ stk j) {S : Set Word}
    (hS : Disjoint (stk j) S) :
    Set.EqOn (exec switchToCode s).mem (savedMem s) S := by
  have hmem := (switchToCode_spec s).2
  rw [target_saved hl hc] at hmem
  rw [hmem]
  exact store_eqOn _ _ _ (hS.mono_left hroom)

/-! ## The switch of the thread model -/

/-- The `reg_context_t` at `p`. -/
def contextAt (m : Mem) (p : Word) : RegContext where
  eip := (load m p).toNat
  esp := (load m (p + 4)).toNat
  ebx := (load m (p + 8)).toNat
  ecx := (load m (p + 12)).toNat
  edx := (load m (p + 16)).toNat
  esi := (load m (p + 20)).toNat
  edi := (load m (p + 24)).toNat
  ebp := (load m (p + 28)).toNat

/-- The registers behind the return of a call. -/
def calledRegs (s : Cpu) : RegContext where
  eip := (top s).toNat
  esp := (s.reg .esp + 4).toNat
  ebx := (s.reg .ebx).toNat
  ecx := (s.reg .ecx).toNat
  edx := (s.reg .edx).toNat
  esi := (s.reg .esi).toNat
  edi := (s.reg .edi).toNat
  ebp := (s.reg .ebp).toNat

def liveRegs (s : Cpu) : RegContext where
  eip := s.eip.toNat
  esp := (s.reg .esp).toNat
  ebx := (s.reg .ebx).toNat
  ecx := (s.reg .ecx).toNat
  edx := (s.reg .edx).toNat
  esi := (s.reg .esi).toNat
  edi := (s.reg .edi).toNat
  ebp := (s.reg .ebp).toNat

theorem contextAt_saved {m : Mem} {p : Word} {s : Cpu} (h : Holds m p (savedWords s)) :
    contextAt m p = calledRegs s := by
  simp only [savedWords, Holds, BitVec.add_assoc, BitVec.ofNat_eq_ofNat, BitVec.reduceAdd,
    and_true] at h
  obtain ⟨h0, h1, h2, h3, h4, h5, h6, h7⟩ := h
  simp [contextAt, calledRegs, h0, h1, h2, h3, h4, h5, h6, h7]

theorem contextAt_eqOn {m m' : Mem} {p : Word} (h : Set.EqOn m' m (bytes p 32)) :
    contextAt m' p = contextAt m p := by
  have hword : ∀ d, d + 4 ≤ 32 →
      load m' (p + BitVec.ofNat 32 d) = load m (p + BitVec.ofNat 32 d) := by
    intro d hd
    refine load_eqOn (h.mono (Set.Subset.trans (bytes_tail (by omega)) ?_))
    exact bytes_head hd
  have h0 : load m' p = load m p := load_eqOn (h.mono (bytes_head (by omega)))
  simp [contextAt, h0, hword 4, hword 8, hword 12, hword 16, hword 20, hword 24, hword 28]

/-- **`switch_to` IS THE SWITCH OF THE THREAD MODEL**: contexts in memory that
    are the model's stay the model's, and so do the registers.  `num` numbers
    the threads. -/
theorem switchTo_refines (hl : Layout ptr stk) {i j : ι} {s : Cpu}
    (hc : Calls ptr stk i j s)
    (hroom : bytes (load (savedMem s) (ptr j + 4) - 4) 4 ⊆ stk j) {num : ι → Nat}
    (hnum : Function.Injective num) {a : State}
    (hctx : ∀ u, a.context (num u) = contextAt s.mem (ptr u)) (hregs : a.regs = calledRegs s) :
    let t := exec switchToCode s
    (∀ u, (switchTo (num i) (num j) a).context (num u) = contextAt t.mem (ptr u)) ∧
      (switchTo (num i) (num j) a).regs = liveRegs t := by
  intro t
  obtain ⟨hsaved, hframe⟩ := savedMem_spec hc
  have hcontext : ∀ u, (switchTo (num i) (num j) a).context (num u)
      = contextAt (savedMem s) (ptr u) := by
    intro u
    show Function.update a.context (num i) a.regs (num u) = _
    by_cases hu : u = i
    · subst hu
      rw [Function.update_self, hregs, contextAt_saved hsaved]
    · rw [Function.update_of_ne (fun h => hu (hnum h)), hctx u]
      exact (contextAt_eqOn (hframe _ (hl.contextApart i u (Ne.symm hu)))).symm
  refine ⟨fun u => (hcontext u).trans ?_, ?_⟩
  · exact (contextAt_eqOn (switch_to_fresh hl hc hroom (hl.apart u j).symm)).symm
  · have hloads := (switchToCode_spec s).1
    rw [target_saved hl hc] at hloads
    show (switchTo (num i) (num j) a).context (num j) = _
    rw [hcontext j]
    simp [t, liveRegs, contextAt, hloads.eip, hloads.esp, hloads.ebx, hloads.ecx,
      hloads.edx, hloads.esi, hloads.edi, hloads.ebp]

/-! ## Runs of switches -/

/-- The machine, the thread whose stack it runs on, and the machine at each
    thread's last call of `switch_to`. -/
structure World (ι : Type) where
  cpu : Cpu
  running : ι
  out : ι → Option Cpu

variable (ptr stk) in
/-- The running thread computes on its own stack and outside the contexts, or
    it calls `switch_to`. -/
inductive Step [DecidableEq ι] : World ι → World ι → Prop where
  | own {w : World ι} (t : Cpu) :
      (∀ j, Set.EqOn t.mem w.cpu.mem (bytes (ptr j) 32)) →
      (∀ j, j ≠ w.running → Set.EqOn t.mem w.cpu.mem (stk j)) →
      Step w ⟨t, w.running, w.out⟩
  | switch {w : World ι} (j : ι) :
      Calls ptr stk w.running j w.cpu →
      (j ≠ w.running → w.out j = none →
        bytes (load (savedMem w.cpu) (ptr j + 4) - 4) 4 ⊆ stk j) →
      Step w ⟨exec switchToCode w.cpu, j, Function.update w.out w.running (some w.cpu)⟩

variable (ptr stk) in
/-- Every thread that is switched out is suspended. -/
def Suspended (w : World ι) : Prop :=
  ∀ u s₀, u ≠ w.running → w.out u = some s₀ → SuspendedAt ptr stk w.cpu.mem u s₀

/-- When the caller is saved, all threads that were switched out are
    suspended. -/
theorem saved_suspended [DecidableEq ι] (hl : Layout ptr stk) {w : World ι} {j : ι}
    (hw : Suspended ptr stk w) (hc : Calls ptr stk w.running j w.cpu) :
    ∀ u s₀, Function.update w.out w.running (some w.cpu) u = some s₀ →
      SuspendedAt ptr stk (savedMem w.cpu) u s₀ := by
  intro u s₀ hout
  by_cases hu : u = w.running
  · subst hu
    rw [Function.update_self] at hout
    cases hout
    exact saved_suspends hl hc
  · rw [Function.update_of_ne hu] at hout
    exact saved_keeps hl hu hc (hw u s₀ hu hout)

theorem step_suspended [DecidableEq ι] (hl : Layout ptr stk) {w w' : World ι}
    (hw : Suspended ptr stk w) (h : Step ptr stk w w') : Suspended ptr stk w' := by
  cases h with
  | own t hctx hstk =>
      intro u s₀ hu hout
      exact (hw u s₀ hu hout).keep (hctx u) (hstk u hu)
  | switch j hc hfresh =>
      intro u s₀ hu hout
      have hu : u ≠ j := hu
      have hsaved := saved_suspended hl hw hc
      refine (hsaved u s₀ hout).keep ?_ ?_ <;>
        cases hj : Function.update w.out w.running (some w.cpu) j with
        | some s₁ =>
            have h1 := (switch_to_suspended hl hc (hsaved j s₁ hj)).2
            show Set.EqOn (exec switchToCode w.cpu).mem _ _
            rw [h1]
            exact Set.eqOn_refl _ _
        | none =>
            have hne : j ≠ w.running := by
              rintro rfl
              rw [Function.update_self] at hj
              cases hj
            rw [Function.update_of_ne hne] at hj
            refine switch_to_fresh hl hc (hfresh hne hj) ?_
            first
            | exact (hl.apart u j).symm
            | exact hl.stackApart j u (Ne.symm hu)

theorem run_suspended [DecidableEq ι] (hl : Layout ptr stk) {w₀ w : World ι}
    (hstart : ∀ u, w₀.out u = none)
    (hrun : Relation.ReflTransGen (Step ptr stk) w₀ w) : Suspended ptr stk w := by
  induction hrun with
  | refl =>
      intro u s₀ _ hout
      rw [hstart u] at hout
      cases hout
  | tail _ hstep ih => exact step_suspended hl ih hstep

/-- **A THREAD RESUMES BEHIND ITS OWN CALL**: after any run of switches, each
    from the caller's own context, the next one to a thread that has called
    `switch_to` resumes it with the registers and the stack it had then. -/
theorem switch_resumes [DecidableEq ι] (hl : Layout ptr stk) {w₀ w w' : World ι}
    (hstart : ∀ u, w₀.out u = none)
    (hrun : Relation.ReflTransGen (Step ptr stk) w₀ w) {j : ι} {s₀ : Cpu}
    (hc : Calls ptr stk w.running j w.cpu)
    (hw' : w' = ⟨exec switchToCode w.cpu, j,
      Function.update w.out w.running (some w.cpu)⟩)
    (hout : w'.out j = some s₀) : Resumes (stk j) s₀ w'.cpu := by
  subst hw'
  have hw := run_suspended hl hstart hrun
  exact (switch_to_suspended hl hc (saved_suspended hl hw hc j s₀ hout)).1

end Threads

/-! ## Two threads -/

def twoPtr (b : Bool) : Word := if b then 0x1100 else 0x1000

def twoStk (b : Bool) : Set Word := bytes (if b then 0x3000 else 0x2000) 0x100

theorem two_layout : Layout twoPtr twoStk := by
  refine ⟨?_, ?_, ?_⟩
  · intro i j hij
    cases i <;> cases j
    · exact absurd rfl hij
    · exact bytes_disjoint (by decide) (by decide)
    · exact (bytes_disjoint (by decide) (by decide)).symm
    · exact absurd rfl hij
  · intro i j hij
    cases i <;> cases j
    · exact absurd rfl hij
    · exact bytes_disjoint (by decide) (by decide)
    · exact (bytes_disjoint (by decide) (by decide)).symm
    · exact absurd rfl hij
  · intro i j
    cases i <;> cases j <;> exact bytes_disjoint (by decide) (by decide)

/-- `false` is about to call; `true` will start at `0x600` and find the
    arguments of its own call on its stack. -/
def twoMem : Mem :=
  storeAll (storeAll (storeAll (fun _ => 0) 0x2080 [0x500, 0x1000, 0x1100])
    0x3080 [0x700, 0x1100, 0x1000]) 0x1100 [0x600, 0x3040]

def twoCpu : Cpu where
  reg := fun r => if r = .esp then 0x2080 else 0
  seg := fun _ => 8
  eip := 0
  eflags := 0
  mem := twoMem

/-- `true` at its call. -/
def twoBack : Cpu :=
  (exec switchToCode twoCpu).setReg .esp 0x3080

theorem two_calls : Calls twoPtr twoStk false true twoCpu := by
  refine ⟨by decide, by decide, ?_⟩
  exact (bytes_tail (p := 0x2000) (n := 12) (d := 0x80) (by omega)).trans (bytes_head (by omega))

theorem two_fresh :
    bytes (load (savedMem twoCpu) (twoPtr true + 4) - 4) 4 ⊆ twoStk true := by
  have hesp : load (savedMem twoCpu) (twoPtr true + 4) - 4 = 0x303c := by decide
  rw [hesp]
  exact (bytes_tail (p := 0x3000) (n := 4) (d := 0x3c) (by omega)).trans (bytes_head (by omega))

theorem two_calls_back : Calls twoPtr twoStk true false twoBack := by
  refine ⟨by decide, by decide, ?_⟩
  exact (bytes_tail (p := 0x3000) (n := 12) (d := 0x80) (by omega)).trans (bytes_head (by omega))

/-- `false` hands over to `true`, which hands back. -/
theorem switch_resumes_two : Resumes (twoStk false) twoCpu (exec switchToCode twoBack) := by
  have hrun : Relation.ReflTransGen (Step twoPtr twoStk) ⟨twoCpu, false, fun _ => none⟩
      ⟨twoBack, true, Function.update (fun _ => none) false (some twoCpu)⟩ := by
    refine .tail (.single (.switch true two_calls fun _ _ => two_fresh)) ?_
    exact .own twoBack (fun _ => Set.eqOn_refl _ _) fun _ _ => Set.eqOn_refl _ _
  exact switch_resumes two_layout (fun _ => rfl) hrun two_calls_back rfl rfl

theorem switchTo_refines_two :
    let num : Bool → Nat := fun b => if b then 1 else 0
    let a : State := { bootState with
      context := fun u => contextAt twoMem (twoPtr (u == 1)), regs := calledRegs twoCpu }
    let t := exec switchToCode twoCpu
    (∀ u, (switchTo (num false) (num true) a).context (num u) = contextAt t.mem (twoPtr u)) ∧
      (switchTo (num false) (num true) a).regs = liveRegs t := by
  have hnum : Function.Injective fun b : Bool => if b then 1 else 0 := by
    intro b c hbc
    cases b <;> cases c <;> first | rfl | cases hbc
  refine switchTo_refines two_layout two_calls two_fresh hnum ?_ rfl
  intro u
  cases u <;> rfl

end SharixSwitch
