import Mathlib.Data.List.Basic

/-! # The interrupt controllers — `picirq.c`

    Two 8259A in a row.  Each takes a row of initialisation words, the first of
    which clears its mask, and then masks.  `pic_enable` can come before
    `pic_init`, as `kbd_init` does in the boot, or after it, as `clock_init`
    does: `irq_mask` remembers the first and `did_init` tells them apart.

    `pic_run_delivers`: in whatever order and however often, once `pic_init` has
    run, the lines that have been enabled deliver their vectors and no others
    do.  `pic_init` would leave all lines open if `irq_mask` were 0xFFFF; the
    line of the slave is what keeps it from that. -/

namespace SharixPic

abbrev Byte := BitVec 8

/-! ## The 8259A -/

/-- Which initialisation word comes next at the odd port. -/
inductive Phase where
  | icw2 | icw3 | icw4 | ready
deriving DecidableEq, Repr

structure Pic where
  phase : Phase
  /-- Of ICW1: no other chip; an ICW4 follows. -/
  single : Bool
  needIcw4 : Bool
  icw2 : Byte
  icw3 : Byte
  icw4 : Byte
  imr : Byte
  specialMask : Bool
  readIsr : Bool
deriving DecidableEq, Repr

/-- ICW1 starts the row anew and clears the mask. -/
def Pic.start (p : Pic) (b : Byte) : Pic :=
  { p with
    phase := .icw2
    single := b.getLsbD 1
    needIcw4 := b.getLsbD 0
    icw4 := if b.getLsbD 0 then p.icw4 else 0
    imr := 0
    specialMask := false
    readIsr := false }

/-- OCW3. -/
def Pic.ocw3 (p : Pic) (b : Byte) : Pic :=
  { p with
    specialMask := if b.getLsbD 6 then b.getLsbD 5 else p.specialMask
    readIsr := if b.getLsbD 1 then b.getLsbD 0 else p.readIsr }

/-- A byte at the even port; what is neither ICW1 nor OCW3 is an EOI. -/
def Pic.writeEven (p : Pic) (b : Byte) : Pic :=
  if b.getLsbD 4 then p.start b else if b.getLsbD 3 then p.ocw3 b else p

/-- A byte at the odd port. -/
def Pic.writeOdd (p : Pic) (b : Byte) : Pic :=
  let last : Phase := if p.needIcw4 then .icw4 else .ready
  match p.phase with
  | .icw2 => { p with icw2 := b, phase := if p.single then last else .icw3 }
  | .icw3 => { p with icw3 := b, phase := last }
  | .icw4 => { p with icw4 := b, phase := .ready }
  | .ready => { p with imr := b }

/-- The vector of a line: the high five bits of ICW2, then the line. -/
def Pic.vector (p : Pic) (line : Nat) : Option Byte :=
  if p.phase = .ready ∧ p.imr.getLsbD line = false then
    some ((p.icw2 &&& 0xF8) ||| BitVec.ofNat 8 line)
  else none

/-! ## The driver -/

def IRQ_OFFSET : Nat := 32
def IRQ_SLAVE : Nat := 2

/-- `did_init`, `irq_mask` and the chips. -/
structure State where
  didInit : Bool
  irqMask : BitVec 16
  master : Pic
  slave : Pic

/-- The ports `IO_PIC1`, `IO_PIC1 + 1`, `IO_PIC2` and `IO_PIC2 + 1`. -/
inductive Port where
  | pic1 | pic1Data | pic2 | pic2Data

def outb (port : Port) (b : Byte) (s : State) : State :=
  match port with
  | .pic1 => { s with master := s.master.writeEven b }
  | .pic1Data => { s with master := s.master.writeOdd b }
  | .pic2 => { s with slave := s.slave.writeEven b }
  | .pic2Data => { s with slave := s.slave.writeOdd b }

def picSetmask (mask : BitVec 16) (s : State) : State :=
  let s := { s with irqMask := mask }
  if s.didInit then
    outb .pic2Data ((mask >>> 8).setWidth 8) (outb .pic1Data (mask.setWidth 8) s)
  else s

/-- The bytes that `pic_init` writes before the mask. -/
def initBytes : List (Port × Byte) :=
  -- mask all
  [(.pic1Data, 0xFF), (.pic2Data, 0xFF),
    -- ICW1 to ICW4 of the master
    (.pic1, 0x11), (.pic1Data, BitVec.ofNat 8 IRQ_OFFSET), (.pic1Data, 1 <<< IRQ_SLAVE),
    (.pic1Data, 0x3),
    -- and of the slave
    (.pic2, 0x11), (.pic2Data, BitVec.ofNat 8 (IRQ_OFFSET + 8)),
    (.pic2Data, BitVec.ofNat 8 IRQ_SLAVE), (.pic2Data, 0x3),
    -- OCW3
    (.pic1, 0x68), (.pic1, 0x0a), (.pic2, 0x68), (.pic2, 0x0a)]

def picInit (s : State) : State :=
  let s := { s with didInit := true }
  let s := initBytes.foldl (fun s w => outb w.1 w.2 s) s
  if s.irqMask ≠ 0xFFFF then picSetmask s.irqMask s else s

/-- `1<<irq` is an `int`, so the call has no meaning from 31 on. -/
def picEnable (irq : Nat) (s : State) : Option State :=
  if irq < 31 then some (picSetmask (s.irqMask &&& ~~~ (1#16 <<< irq)) s) else none

/-- Before the first call; the chips are as the firmware left them. -/
def boot (master slave : Pic) : State where
  didInit := false
  irqMask := 0xFFFF &&& ~~~ (1#16 <<< IRQ_SLAVE)
  master := master
  slave := slave

inductive Call where
  | init
  | enable (irq : Nat)
deriving DecidableEq, Repr

def step (s : State) : Call → Option State
  | .init => some (picInit s)
  | .enable irq => picEnable irq s

def run : List Call → State → Option State
  | [], s => some s
  | c :: cs, s => do
      let s ← step s c
      run cs s

/-- What reaches the processor from a line: those from 8 on go through the slave
    and the line `IRQ_SLAVE` of the master, if each knows of the other. -/
def State.deliver (s : State) (irq : Nat) : Option Byte :=
  if irq < 8 then s.master.vector irq
  else if (s.master.vector IRQ_SLAVE).isSome ∧ s.master.icw3.getLsbD IRQ_SLAVE = true ∧
      s.slave.icw3 = BitVec.ofNat 8 IRQ_SLAVE then
    s.slave.vector (irq - 8)
  else none

/-! ## The chips after `pic_init` -/

/-- Ready, with the vectors from `base` on, in automatic end of interrupt. -/
def initialised (base icw3 imr : Byte) : Pic where
  phase := .ready
  single := false
  needIcw4 := true
  icw2 := base
  icw3 := icw3
  icw4 := 0x3
  imr := imr
  -- 0x68 sets the special mask mode, though the source says it clears it
  specialMask := true
  readIsr := false

/-- Whatever state the chips were in. -/
theorem initBytes_spec (s : State) :
    initBytes.foldl (fun s w => outb w.1 w.2 s) s
      = { s with master := initialised 0x20 0x4 0, slave := initialised 0x28 0x2 0 } := by
  obtain ⟨d, mask, ⟨phase, _, _, _, _, _, _, _, _⟩, ⟨phase', _, _, _, _, _, _, _, _⟩⟩ := s
  cases phase <;> cases phase' <;> rfl

/-- What is kept in step: the chips and the driver. -/
def Synced (s : State) : Prop :=
  s.master = initialised 0x20 0x4 (s.irqMask.setWidth 8) ∧
    s.slave = initialised 0x28 0x2 ((s.irqMask >>> 8).setWidth 8)

theorem picSetmask_synced {s : State} (hd : s.didInit = true) (mask : BitVec 16)
    {m m' : Byte} (hm : s.master = initialised 0x20 0x4 m)
    (hs : s.slave = initialised 0x28 0x2 m') : Synced (picSetmask mask s) := by
  have hset : picSetmask mask s = { s with
      irqMask := mask
      master := initialised 0x20 0x4 (mask.setWidth 8)
      slave := initialised 0x28 0x2 ((mask >>> 8).setWidth 8) } := by
    obtain ⟨d, i, p, q⟩ := s
    obtain rfl : d = true := hd
    obtain rfl : p = _ := hm
    obtain rfl : q = _ := hs
    rfl
  rw [hset]
  exact ⟨rfl, rfl⟩

@[simp] theorem picSetmask_irqMask (mask : BitVec 16) (s : State) :
    (picSetmask mask s).irqMask = mask := by
  rw [picSetmask]
  dsimp only
  split <;> rfl

@[simp] theorem picSetmask_didInit (mask : BitVec 16) (s : State) :
    (picSetmask mask s).didInit = s.didInit := by
  rw [picSetmask]
  dsimp only
  split <;> rfl

/-! ## Runs -/

/-- The lines that `cs` has left open. -/
def Open (cs : List Call) (irq : Nat) : Prop := irq = IRQ_SLAVE ∨ Call.enable irq ∈ cs

instance (cs : List Call) (irq : Nat) : Decidable (Open cs irq) :=
  inferInstanceAs (Decidable (_ ∨ _))

/-- The state after the calls `cs`. -/
structure Inv (master slave : Pic) (cs : List Call) (s : State) : Prop where
  mask : ∀ irq, irq < 16 → (s.irqMask.getLsbD irq = false ↔ Open cs irq)
  init : s.didInit = true ↔ Call.init ∈ cs
  before : s.didInit = false → s.master = master ∧ s.slave = slave
  synced : s.didInit = true → Synced s

theorem boot_inv (master slave : Pic) : Inv master slave [] (boot master slave) := by
  refine ⟨fun irq hirq => ?_, by simp [boot], fun _ => ⟨rfl, rfl⟩, fun h => nomatch h⟩
  have hbit : (boot master slave).irqMask.getLsbD irq = !decide (irq = IRQ_SLAVE) := by
    show (0xFFFF &&& ~~~ (1#16 <<< IRQ_SLAVE)).getLsbD irq = _
    revert irq
    decide
  rw [hbit, Open]
  simp

/-- The slave's line is open, so the mask is not the one that is left out. -/
theorem Inv.mask_ne {master slave : Pic} {cs : List Call} {s : State}
    (h : Inv master slave cs s) : s.irqMask ≠ 0xFFFF := by
  intro hmask
  have hopen := (h.mask IRQ_SLAVE (by decide)).mpr (.inl rfl)
  rw [hmask] at hopen
  exact absurd hopen (by decide)

theorem Inv.step {master slave : Pic} {cs : List Call} {s t : State} {c : Call}
    (h : Inv master slave cs s) (hstep : step s c = some t) :
    Inv master slave (cs ++ [c]) t := by
  cases c with
  | init =>
      obtain rfl : picInit s = t := Option.some.inj hstep
      obtain ⟨u, hu⟩ : ∃ u : State, u = { s with
        didInit := true, master := initialised 0x20 0x4 0, slave := initialised 0x28 0x2 0 } :=
        ⟨_, rfl⟩
      have hinit : picInit s = picSetmask s.irqMask u := by
        rw [picInit, initBytes_spec, if_pos h.mask_ne, hu]
      have hdid : (picInit s).didInit = true := by
        rw [hinit, picSetmask_didInit, hu]
      have hsync : Synced (picInit s) := by
        rw [hinit]
        exact picSetmask_synced (by rw [hu]) _ (by rw [hu]) (by rw [hu])
      refine ⟨fun irq hirq => ?_, by simp [hdid], fun hd => ?_, fun _ => hsync⟩
      · rw [hinit, picSetmask_irqMask, h.mask irq hirq]
        simp [Open]
      · exact absurd (hdid.symm.trans hd) Bool.noConfusion
  | enable irq₀ =>
      rw [SharixPic.step, picEnable] at hstep
      split at hstep
      swap
      · exact nomatch hstep
      obtain rfl := Option.some.inj hstep
      refine ⟨fun irq hirq => ?_, by simp [h.init], fun hd => ?_, fun hd => ?_⟩
      · have hbit : (s.irqMask &&& ~~~ (1#16 <<< irq₀)).getLsbD irq = false ↔
            s.irqMask.getLsbD irq = false ∨ irq = irq₀ := by
          rw [BitVec.getLsbD_and, BitVec.getLsbD_not, BitVec.getLsbD_shiftLeft, BitVec.getLsbD_one]
          by_cases heq : irq = irq₀
          · simp [heq]
          · have hbits : (decide (irq < 16) && !decide (irq < irq₀) &&
                (decide (0 < 16) && decide (irq - irq₀ = 0))) = false := by
              simp only [Bool.and_eq_false_iff, decide_eq_false_iff_not, Bool.not_eq_false',
                decide_eq_true_eq]
              omega
            rw [hbits]
            simp [hirq, heq]
        rw [picSetmask_irqMask, hbit, h.mask irq hirq]
        simp [Open, or_assoc]
      · rw [picSetmask_didInit] at hd
        rw [picSetmask]
        dsimp only
        rw [hd]
        exact h.before hd
      · rw [picSetmask_didInit] at hd
        obtain ⟨hm, hs⟩ := h.synced hd
        exact picSetmask_synced hd _ hm hs

theorem Inv.run {master slave : Pic} (cs : List Call) : ∀ {pre : List Call} {s t : State},
    Inv master slave pre s → SharixPic.run cs s = some t → Inv master slave (pre ++ cs) t := by
  induction cs with
  | nil =>
      intro pre s t h hrun
      obtain rfl : s = t := Option.some.inj hrun
      rwa [List.append_nil]
  | cons c cs ih =>
      intro pre s t h hrun
      obtain ⟨u, hstep, hrun⟩ := Option.bind_eq_some_iff.mp hrun
      have hall := ih (h.step hstep) hrun
      rwa [List.append_assoc] at hall

/-- A line of a ready chip. -/
theorem initialised_vector (base icw3 imr : Byte) (line : Nat) :
    (initialised base icw3 imr).vector line
      = if imr.getLsbD line = false then some ((base &&& 0xF8) ||| BitVec.ofNat 8 line)
        else none := by
  simp [Pic.vector, initialised]

theorem vector_eq (line : Nat) (h : line < 8) :
    (0x20 &&& 0xF8 : Byte) ||| BitVec.ofNat 8 line = BitVec.ofNat 8 (IRQ_OFFSET + line) ∧
      (0x28 &&& 0xF8 : Byte) ||| BitVec.ofNat 8 line
        = BitVec.ofNat 8 (IRQ_OFFSET + (8 + line)) := by
  revert line
  decide

/-- **THE ENABLED LINES DELIVER AND NO OTHERS**: for every row of calls, whatever
    the chips held before.  Until `pic_init` nothing is written to them; once it
    has run, before or after the lines were enabled, each line but the slave's
    delivers its vector if it has been enabled, and is masked if not. -/
theorem pic_run_delivers (master slave : Pic) {cs : List Call} {s : State}
    (hrun : run cs (boot master slave) = some s) :
    (Call.init ∉ cs → s.master = master ∧ s.slave = slave) ∧
      (Call.init ∈ cs → ∀ irq, irq < 16 → irq ≠ IRQ_SLAVE →
        s.deliver irq = if Call.enable irq ∈ cs then some (BitVec.ofNat 8 (IRQ_OFFSET + irq))
          else none) := by
  have h : Inv master slave cs s := (boot_inv master slave).run cs hrun
  refine ⟨fun hno => h.before ?_, fun hinit irq hirq hne => ?_⟩
  · exact Bool.eq_false_iff.mpr fun hd => hno (h.init.mp hd)
  obtain ⟨hmaster, hslave⟩ := h.synced (h.init.mpr hinit)
  have hopen := h.mask irq hirq
  rw [Open, or_iff_right hne] at hopen
  rw [State.deliver, hmaster, hslave]
  by_cases hlow : irq < 8
  · have hbit : (s.irqMask.setWidth 8).getLsbD irq = s.irqMask.getLsbD irq := by
      simp [hlow]
    rw [if_pos hlow, initialised_vector, hbit, (vector_eq irq hlow).1]
    simp only [hopen]
  · obtain ⟨line, rfl⟩ : ∃ line, irq = 8 + line := ⟨irq - 8, by omega⟩
    have hline : line < 8 := by omega
    -- the slave's line of the master is never masked
    have hthrough : ((initialised 0x20 0x4 (s.irqMask.setWidth 8)).vector IRQ_SLAVE).isSome := by
      have hbit : (s.irqMask.setWidth 8).getLsbD IRQ_SLAVE = false :=
        (BitVec.getLsbD_setWidth ..).trans
          (by rw [(h.mask IRQ_SLAVE (by decide)).mpr (.inl rfl), Bool.and_false])
      rw [initialised_vector, if_pos hbit]
      rfl
    have hbit : ((s.irqMask >>> 8).setWidth 8).getLsbD line = s.irqMask.getLsbD (8 + line) := by
      simp [hline]
    have hknows : (0x4 : Byte).getLsbD IRQ_SLAVE = true := by decide
    rw [if_neg hlow, if_pos ⟨hthrough, hknows, rfl⟩, Nat.add_sub_cancel_left,
      initialised_vector, hbit, (vector_eq line hline).2]
    simp only [hopen]

/-- A chip in the middle of a row of initialisation words. -/
def halfway : Pic := ⟨.icw3, false, true, 8, 0, 0, 0xFF, false, true⟩

/-- The calls of the boot: `kbd_init`, `pic_init` and `clock_init`. -/
theorem pic_run_delivers_boot :
    ∃ s, run [.enable 1, .init, .enable 0] (boot halfway halfway) = some s ∧
      s.deliver 1 = some 33 ∧ s.deliver 4 = none := by
  obtain ⟨s, hs⟩ : ∃ s, run [.enable 1, .init, .enable 0] (boot halfway halfway) = some s :=
    ⟨_, rfl⟩
  have h := (pic_run_delivers halfway halfway hs).2 (by decide)
  exact ⟨s, hs, h 1 (by decide) (by decide), h 4 (by decide) (by decide)⟩

end SharixPic
