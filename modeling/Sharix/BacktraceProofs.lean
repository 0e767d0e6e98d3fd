import Sharix.MachineProofs
import Sharix.DebuginfoProofs
import Sharix.RunProofs

/-! # The backtrace — `print_stackframe` of `kdebug.c`

    A function pushes `ebp` and points `ebp` at it, so each frame holds the `ebp`
    of the caller and, above it, the address to return to.  `entry.S` calls
    `kern_init` with `ebp` 0.  The calls that are under way are a ghost list,
    which a call makes longer and a return shorter.

    * `run_live`: over any run of calls, returns and work between them, the chain
      of `ebp` in memory is this list, the frames one above the other;
    * `print_stackframe_traces`: so the trace printed is the calls under way, the
      innermost first, as many as are shown, and it ends, with the debug
      information that is there. -/

namespace SharixBacktrace

open SharixMachine SharixDebuginfo

def STACKFRAME_DEPTH : Nat := 20

/-! ## The model -/

/-- What `print_debuginfo` prints. -/
inductive Printed where
  | unknown (eip : Word)
  | known (file : Word) (line : Int) (fnname : List Byte) (offset : Word)
deriving DecidableEq, Repr

/-- `char fnname[256]`: the bytes copied to it, before the 0 that is put behind;
    no store behind its end. -/
def copyName (m : Mem) (name : Word) (namelen : Int) : Option (List Byte) :=
  if namelen < 256 then
    some ((List.range namelen.toNat).map fun j => m (name + BitVec.ofNat 32 j))
  else none

def printDebuginfo (fuel : Nat) (k : Tables) (m : Mem) (eip : Word) : Option Printed := do
  let p ← debuginfoEip fuel k m eip
  if p.1 ≠ 0 then return .unknown eip
  else do
    let fnname ← copyName m p.2.eipFnName p.2.eipFnNamelen
    return .known p.2.eipFile p.2.eipLine fnname (eip - p.2.eipFnAddr)

/-- What is printed of a frame. -/
structure Line where
  ebp : Word
  eip : Word
  args : List Word
  debug : Printed

/-- `args[j]`. -/
def stackArgs (m : Mem) (ebp : Word) : List Word :=
  (List.range 4).map fun j => load m (ebp + 8 + BitVec.ofNat 32 (4 * j))

/-- The loop, with `i` rounds left. -/
def frames (fuel : Nat) (k : Tables) (m : Mem) : Nat → Word → Word → Option (List Line)
  | 0, _, _ => some []
  | i + 1, ebp, eip =>
      if ebp ≠ 0 then do
        let debug ← printDebuginfo fuel k m (eip - 1)
        let lines ← frames fuel k m i (load m ebp) (load m (ebp + 4))
        return ⟨ebp, eip, stackArgs m ebp, debug⟩ :: lines
      else some []

/-- The prologue of a function. -/
def prologue : List Instr := [.pushl (.reg .ebp), .movl (.reg .esp) (.reg .ebp)]

/-- `leave; ret`. -/
def epilogue : List Instr := [.movl (.reg .ebp) (.reg .esp), .popl (.reg .ebp), .ret]

/-- A call of `read_eip`, from before `next`. -/
def readEipCode (target next : Word) : List Instr :=
  .call (.imm target) next :: prologue ++ .movl (.mem 4 .ebp) (.reg .eax) :: epilogue

/-- What is printed, and the machine that is left; what the calls of `cprintf` do
    on the way is a `Step.work` of it. -/
def printStackframe (fuel : Nat) (k : Tables) (target next : Word) (s : Cpu) :
    Option (List Line × Cpu) := do
  let ebp := s.reg .ebp
  let s := exec (readEipCode target next) s
  let eip := s.reg .eax
  let lines ← frames fuel k s.mem STACKFRAME_DEPTH ebp eip
  return (lines, s)

/-! ## The chain -/

/-- A call under way: where its frame lies, and where it returns to. -/
structure Frame where
  base : Word
  ret : Word
deriving DecidableEq, Repr

/-- The frames, from `ebp` up. -/
def Chain (m : Mem) : Word → List Frame → Prop
  | ebp, [] => ebp = 0
  | ebp, f :: fs =>
      ebp = f.base ∧ f.base ≠ 0 ∧ load m (f.base + 4) = f.ret ∧ Chain m (load m f.base) fs

/-- The saved `ebp` and the return address. -/
def Frame.link (f : Frame) : Set Word := bytes f.base 8

theorem Frame.link_base {m m' : Mem} {f : Frame} (h : Set.EqOn m' m f.link) :
    load m' f.base = load m f.base :=
  load_eqOn (h.mono (bytes_head (by omega)))

theorem Frame.link_ret {m m' : Mem} {f : Frame} (h : Set.EqOn m' m f.link) :
    load m' (f.base + 4) = load m (f.base + 4) :=
  load_eqOn (h.mono (bytes_tail (p := f.base) (n := 4) (d := 4) (by omega)))

/-- A chain stays while the words of its frames do; by induction on the frames. -/
theorem Chain.keep {m m' : Mem} {fs : List Frame} : ∀ {ebp : Word}, Chain m ebp fs →
    (∀ f ∈ fs, Set.EqOn m' m f.link) → Chain m' ebp fs := by
  induction fs with
  | nil => exact fun h _ => h
  | cons f fs ih =>
      intro ebp h hm
      obtain ⟨hebp, hne, hret, hrest⟩ := h
      have hf := hm f List.mem_cons_self
      refine ⟨hebp, hne, (Frame.link_ret hf).trans hret, ?_⟩
      rw [Frame.link_base hf]
      exact ih hrest fun g hg => hm g (List.mem_cons_of_mem f hg)

/-- Where the frames end below. -/
def bottom (top : Nat) : List Frame → Nat
  | [] => top
  | f :: _ => f.base.toNat

/-- Each frame lies below the one that called it. -/
def Stacked (top : Nat) : List Frame → Prop
  | [] => True
  | f :: fs => 0 < f.base.toNat ∧ f.base.toNat + 8 ≤ bottom top fs ∧ Stacked top fs

theorem Stacked.bottom_le {top : Nat} {fs : List Frame} (h : Stacked top fs) :
    bottom top fs ≤ top := by
  induction fs with
  | nil => exact Nat.le_refl top
  | cons f fs ih =>
      obtain ⟨-, hle, hrest⟩ := h
      have := ih hrest
      show f.base.toNat ≤ top
      omega

/-- Every frame lies between the lowest one and the top. -/
theorem Stacked.mem {top : Nat} {fs : List Frame} (h : Stacked top fs) :
    ∀ f ∈ fs, bottom top fs ≤ f.base.toNat ∧ f.base.toNat + 8 ≤ top := by
  induction fs with
  | nil => exact fun f hf => absurd hf List.not_mem_nil
  | cons g fs ih =>
      obtain ⟨-, hle, hrest⟩ := h
      intro f hf
      show g.base.toNat ≤ f.base.toNat ∧ _
      have hbottom := hrest.bottom_le
      rcases List.mem_cons.mp hf with rfl | hf
      · exact ⟨Nat.le_refl _, by omega⟩
      · have := ih hrest f hf
        omega

/-- The calls under way, as they lie in memory below `top`. -/
structure Live (top : Nat) (s : Cpu) (fs : List Frame) : Prop where
  chain : Chain s.mem (s.reg .ebp) fs
  stacked : Stacked top fs
  esp : (s.reg .esp).toNat ≤ bottom top fs

/-! ## A run -/

/-- What a thread does, as far as its frames go. -/
inductive Step (top : Nat) : Cpu × List Frame → Cpu × List Frame → Prop where
  /-- A call, up to behind the prologue; the stack has room for it. -/
  | call {s : Cpu} {fs : List Frame} (target : Src) (next : Word) : 8 < (s.reg .esp).toNat →
      Step top (s, fs)
        (exec (.call target next :: prologue) s, ⟨s.reg .esp - 8, next⟩ :: fs)
  /-- Work of the innermost function, or of what it calls and returns from: `ebp`
      is as before, and the links are not written to. -/
  | work {s t : Cpu} {fs : List Frame} : t.reg .ebp = s.reg .ebp →
      (∀ f ∈ fs, Set.EqOn t.mem s.mem f.link) → (t.reg .esp).toNat ≤ bottom top fs →
      Step top (s, fs) (t, fs)
  /-- A return. -/
  | ret {s : Cpu} {f : Frame} {fs : List Frame} :
      Step top (s, f :: fs) (exec epilogue s, fs)

/-- A call and a prologue push the return address and the old `ebp`, and write
    nothing else. -/
theorem call_spec (s : Cpu) (target : Src) (next : Word) :
    let t := exec (.call target next :: prologue) s
    t.reg .ebp = s.reg .esp - 8 ∧ t.reg .esp = s.reg .esp - 8 ∧
      t.mem = store (store s.mem (s.reg .esp - 4) next) (s.reg .esp - 8) (s.reg .ebp) := by
  simp [exec, prologue, Instr.step, Src.get, Dst.set, BitVec.sub_sub]

/-- An epilogue takes both off again. -/
theorem epilogue_spec (s : Cpu) :
    let t := exec epilogue s
    t.reg .ebp = load s.mem (s.reg .ebp) ∧ t.reg .esp = s.reg .ebp + 8 ∧ t.mem = s.mem ∧
      t.eip = load s.mem (s.reg .ebp + 4) := by
  simp [exec, epilogue, Instr.step, Src.get, Dst.set, drop, SharixMachine.top, BitVec.add_assoc]

/-- The two words that a call leaves below `esp`. -/
def called (s : Cpu) (next : Word) : Mem :=
  store (store s.mem (s.reg .esp - 4) next) (s.reg .esp - 8) (s.reg .ebp)

theorem called_base (s : Cpu) (next : Word) :
    load (called s next) (s.reg .esp - 8) = s.reg .ebp := load_store _ _ _

theorem called_ret (s : Cpu) (next : Word) :
    load (called s next) (s.reg .esp - 8 + 4) = next := by
  have hapart := @load_store_apart (store s.mem (s.reg .esp - 4) next) (s.reg .esp - 8)
    (s.reg .ebp) 0 4 (by omega) (by omega) (by omega)
  rw [BitVec.add_zero] at hapart
  refine hapart.trans ?_
  have hat : s.reg .esp - 8 + BitVec.ofNat 32 4 = s.reg .esp - 4 := by bv_omega
  rw [hat]
  exact load_store _ _ _

/-- Below `esp` no link is reached. -/
theorem Live.called {top : Nat} (htop : top ≤ 2 ^ 32) {s : Cpu} {fs : List Frame}
    (h : Live top s fs) (hroom : 8 < (s.reg .esp).toNat) (next : Word) :
    ∀ f ∈ fs, Set.EqOn (called s next) s.mem f.link := by
  intro f hf
  obtain ⟨hlow, hhigh⟩ := h.stacked.mem f hf
  have hesp := h.esp
  have hsub : ∀ d : Word, d.toNat ≤ 8 → (s.reg .esp - d).toNat = (s.reg .esp).toNat - d.toNat := by
    intro d hd
    bv_omega
  have h4 := hsub 4 (by decide)
  have h8 := hsub 8 (by decide)
  have e4 : (4 : Word).toNat = 4 := rfl
  have e8 : (8 : Word).toNat = 8 := rfl
  have hdisj : ∀ p : Word, p.toNat + 4 ≤ f.base.toNat → Disjoint (bytes p 4) f.link :=
    fun p hp => bytes_disjoint hp (by omega)
  exact (store_eqOn _ _ _ (hdisj _ (by omega))).trans (store_eqOn _ _ _ (hdisj _ (by omega)))

/-- What one step keeps. -/
theorem Step.live {top : Nat} (htop : top ≤ 2 ^ 32) {a b : Cpu × List Frame}
    (h : Step top a b) (hs : Live top a.1 a.2) : Live top b.1 b.2 := by
  cases h with
  | @call s fs target next hroom =>
      obtain ⟨hebp, hesp, hmem⟩ := call_spec s target next
      have hbase : (s.reg .esp - 8).toNat = (s.reg .esp).toNat - 8 := by bv_omega
      have hlow := hs.esp
      dsimp only at hs hlow ⊢
      refine ⟨?_, ⟨?_, ?_, hs.stacked⟩, ?_⟩
      · rw [hmem]
        refine ⟨hebp, ?_, called_ret s next, ?_⟩
        · intro h0
          have h0 : (s.reg .esp - 8).toNat = 0 := congrArg BitVec.toNat h0
          omega
        · show Chain (called s next) (load (called s next) (s.reg .esp - 8)) fs
          rw [called_base]
          exact hs.chain.keep (hs.called htop hroom next)
      · show 0 < (s.reg .esp - 8).toNat
        omega
      · show (s.reg .esp - 8).toNat + 8 ≤ _
        omega
      · rw [hesp]
        exact Nat.le_refl _
  | @work s t fs hebp hlinks hesp =>
      refine ⟨?_, hs.stacked, hesp⟩
      dsimp only at hs ⊢
      rw [hebp]
      exact hs.chain.keep hlinks
  | @ret s f fs =>
      obtain ⟨hebp, hesp, hmem, -⟩ := epilogue_spec s
      obtain ⟨hat, -, -, hrest⟩ := hs.chain
      obtain ⟨-, hle, hstacked⟩ := hs.stacked
      have hbottom := hstacked.bottom_le
      dsimp only at hat hrest ⊢
      refine ⟨?_, hstacked, ?_⟩
      · rw [hebp, hmem, hat]
        exact hrest
      · rw [hesp, hat]
        have e8 : (8 : Word).toNat = 8 := rfl
        rw [BitVec.toNat_add, e8]
        exact Nat.le_trans (Nat.mod_le _ _) hle

/-- **THE CHAIN IS THE CALLS**: over any run the chain of `ebp` is the list of
    the calls under way, and a return goes to where its call came from. -/
theorem run_live {top : Nat} (htop : top ≤ 2 ^ 32) {a b : Cpu × List Frame}
    (ha : Live top a.1 a.2) (hrun : Relation.ReflTransGen (Step top) a b) :
    Live top b.1 b.2 := by
  have hstep : ∀ a b : Cpu × List Frame, Live top a.1 a.2 → Step top a b → Live top b.1 b.2 :=
    fun _ _ hs h => h.live htop hs
  exact SharixRun.run_invariant hstep hrun ha

/-- Where the innermost call returns to. -/
theorem Live.returns {top : Nat} {s : Cpu} {f : Frame} {fs : List Frame}
    (h : Live top s (f :: fs)) : (exec epilogue s).eip = f.ret := by
  obtain ⟨-, -, -, heip⟩ := epilogue_spec s
  obtain ⟨hat, -, hret, -⟩ := h.chain
  rw [heip, hat, hret]

/-! ## The trace -/

/-- No function name fills `fnname`. -/
def Short (k : Tables) (m : Mem) : Prop :=
  ∀ p l, k.Place p → SharixString.CString m p l → (l.takeWhile (· ≠ 58)).length < 256

/-- A line is printed for every address. -/
theorem printDebuginfo_yields {k : Tables} {m : Mem} (hk : k.Good m) (hshort : Short k m)
    (eip : Word) : ∃ d, Yields (fun fuel => printDebuginfo fuel k m eip) d := by
  obtain ⟨r, info, -, hrep, hall⟩ := debuginfo_eip_in_tables hk eip
  have hinfo := hall m (Set.eqOn_refl _ _)
  by_cases hr : r = 0
  · obtain ⟨l, hl, hlen⟩ := hrep.name
    have hfits : info.eipFnNamelen < 256 := by
      rw [hlen]
      exact_mod_cast hshort _ l hrep.place hl.string
    refine ⟨.known info.eipFile info.eipLine ((List.range info.eipFnNamelen.toNat).map fun j =>
      m (info.eipFnName + BitVec.ofNat 32 j)) (eip - info.eipFnAddr),
      hinfo.bind (Yields.const fun fuel => ?_)⟩
    rw [if_neg (not_not.mpr hr), copyName, if_pos hfits]
    rfl
  · exact ⟨.unknown eip, hinfo.bind (Yields.const fun fuel => if_pos hr)⟩

/-- The addresses in a trace that starts at `eip`: each call is shown with the
    place that the next inner one was made from. -/
def trace (eip : Word) (fs : List Frame) : List (Word × Word) :=
  (fs.map Frame.base).zip (eip :: fs.map Frame.ret)

/-- The loop walks the chain. -/
theorem frames_yields {k : Tables} {m : Mem}
    (hdebug : ∀ eip, ∃ d, Yields (fun fuel => printDebuginfo fuel k m eip) d) (n : Nat) :
    ∀ {ebp : Word} (eip : Word) {fs : List Frame}, Chain m ebp fs →
      ∃ lines, Yields (fun fuel => frames fuel k m n ebp eip) lines ∧
        lines.map (fun l => (l.ebp, l.eip)) = (trace eip fs).take n ∧
        ∀ l ∈ lines, Yields (fun fuel => printDebuginfo fuel k m (l.eip - 1)) l.debug := by
  induction n with
  | zero =>
      exact fun eip fs _ => ⟨[], Yields.const fun _ => rfl, rfl,
        fun l hl => absurd hl List.not_mem_nil⟩
  | succ n ih =>
      intro ebp eip fs h
      cases fs with
      | nil =>
          have h0 : ebp = 0 := h
          refine ⟨[], Yields.const fun fuel => ?_, rfl, fun l hl => absurd hl List.not_mem_nil⟩
          rw [frames, if_neg (not_not.mpr h0)]
      | cons f fs =>
          obtain ⟨rfl, hne, hret, hrest⟩ := h
          obtain ⟨d, hd⟩ := hdebug (eip - 1)
          obtain ⟨lines, hlines, hmap, hall⟩ := ih (load m (f.base + 4)) hrest
          refine ⟨⟨f.base, eip, stackArgs m f.base, d⟩ :: lines, ?_, ?_, ?_⟩
          · have hround := Yields.bind (g := fun fuel d =>
                (frames fuel k m n (load m f.base) (load m (f.base + 4))).bind fun lines =>
                  some (⟨f.base, eip, stackArgs m f.base, d⟩ :: lines)) hd
              (Yields.bind (g := fun _ lines =>
                some (⟨f.base, eip, stackArgs m f.base, d⟩ :: lines)) hlines
                (Yields.const fun _ => rfl))
            exact hround.of_eq fun fuel => if_pos hne
          · rw [List.map_cons, hmap, hret]
            rfl
          · intro l hl
            rcases List.mem_cons.mp hl with rfl | hl
            · exact hd
            · exact hall l hl

/-- `leave` and `ret` do not touch what is returned. -/
theorem epilogue_eax (s : Cpu) : (exec epilogue s).reg .eax = s.reg .eax := by
  simp [exec, epilogue, Instr.step, Src.get, Dst.set, drop]

/-- What a call of `read_eip` leaves: the address behind it, and the stack as it
    was. -/
structure ReadEip (next : Word) (s t : Cpu) : Prop where
  eax : t.reg .eax = next
  ebp : t.reg .ebp = s.reg .ebp
  esp : t.reg .esp = s.reg .esp
  mem : t.mem = called s next

/-- `read_eip` returns the address behind its own call, and gives the stack back. -/
theorem readEip_spec (target next : Word) (s : Cpu) :
    ReadEip next s (exec (readEipCode target next) s) := by
  obtain ⟨u, hu⟩ : ∃ u, u = exec (.call (.imm target) next :: prologue) s := ⟨_, rfl⟩
  obtain ⟨hebp, hesp, hmem⟩ := call_spec s (.imm target) next
  rw [← hu] at hebp hesp hmem
  obtain ⟨v, hv⟩ : ∃ v, v = u.setReg .eax (load u.mem (u.reg .ebp + 4)) := ⟨_, rfl⟩
  have ht : exec (readEipCode target next) s = exec epilogue v := by
    show exec ((.call (.imm target) next :: prologue) ++ (.movl (.mem 4 .ebp) (.reg .eax) ::
      epilogue)) s = _
    rw [exec_append, ← hu, exec_cons, hv]
    rfl
  obtain ⟨hvebp, hvesp, hvmem, -⟩ := epilogue_spec v
  have hveax : v.reg .eax = next := by
    rw [hv, setReg_reg, Function.update_self, hmem, hebp]
    exact called_ret s next
  have hbase : v.reg .ebp = s.reg .esp - 8 := by
    rw [hv, setReg_reg, Function.update_of_ne (by decide), hebp]
  have hcalled : v.mem = called s next := by
    rw [hv, setReg_mem, hmem]
    rfl
  rw [ht]
  refine ⟨(epilogue_eax v).trans hveax, hvebp.trans ?_, hvesp.trans ?_, hvmem.trans hcalled⟩
  · rw [hcalled, hbase]
    exact called_base s next
  · rw [hbase]
    exact BitVec.sub_add_cancel _ _

/-- The calls under way are those before the call of `read_eip`. -/
theorem Live.readEip {top : Nat} (htop : top ≤ 2 ^ 32) {s t : Cpu} {fs : List Frame}
    (h : Live top s fs) (hroom : 8 < (s.reg .esp).toNat) {next : Word}
    (ht : ReadEip next s t) : Live top t fs := by
  refine ⟨?_, h.stacked, ?_⟩
  · rw [ht.mem, ht.ebp]
    exact h.chain.keep (h.called htop hroom next)
  · rw [ht.esp]
    exact h.esp

/-- **THE TRACE IS THE CALLS UNDER WAY**: after any run from a start with `ebp` 0,
    `print_stackframe` ends, and shows the frames of the calls that have not
    returned, the innermost first, up to 20, each with the address its callee
    returns to, and with what `print_debuginfo` says of the call before it.  And
    whatever calls and returns the printing took, it returns behind its own call.
    The tables are those of a linker, and no function name fills `fnname`. -/
theorem print_stackframe_traces {top : Nat} (htop : top ≤ 2 ^ 32) {s₀ s : Cpu}
    {fs : List Frame} (hboot : s₀.reg .ebp = 0) (hesp : (s₀.reg .esp).toNat ≤ top)
    (hrun : Relation.ReflTransGen (Step top) (s₀, []) (s, fs))
    (hroom : 8 < (s.reg .esp).toNat) {k : Tables} (target next : Word)
    (hk : k.Good (called s next)) (hshort : Short k (called s next)) :
    ∃ lines t, Yields (fun fuel => printStackframe fuel k target next s) (lines, t) ∧
      lines.map (fun l => (l.ebp, l.eip)) = (trace next fs).take STACKFRAME_DEPTH ∧
      (∀ l ∈ lines, Yields (fun fuel => printDebuginfo fuel k (called s next) (l.eip - 1))
        l.debug) ∧
      ∀ f gs u, fs = f :: gs → Relation.ReflTransGen (Step top) (t, fs) (u, fs) →
        (exec epilogue u).eip = f.ret := by
  have hlive : Live top s fs := run_live (a := (s₀, [])) (b := (s, fs)) htop
    ⟨hboot, trivial, hesp⟩ hrun
  have hread := readEip_spec target next s
  generalize ht : exec (readEipCode target next) s = t at hread
  have hlive' := hlive.readEip htop hroom hread
  obtain ⟨lines, hlines, hmap, hall⟩ := frames_yields (printDebuginfo_yields hk hshort)
    STACKFRAME_DEPTH next (hlive.chain.keep (hlive.called htop hroom next))
  refine ⟨lines, t, ?_, hmap, hall, fun f gs u hfs hafter => ?_⟩
  · have hall := Yields.bind (g := fun _ lines => some (lines, t)) hlines
      (Yields.const fun _ => rfl)
    refine hall.of_eq fun fuel => ?_
    show (frames fuel k (exec (readEipCode target next) s).mem STACKFRAME_DEPTH (s.reg .ebp)
      ((exec (readEipCode target next) s).reg .eax)).bind (fun lines =>
        some (lines, exec (readEipCode target next) s)) = _
    rw [ht, hread.eax, hread.mem]
  · have hu : Live top u fs := run_live (a := (t, fs)) (b := (u, fs)) htop hlive' hafter
    exact (hfs ▸ hu).returns

/-! ## Two calls -/

theorem cString_unique {m : Mem} {l : List Byte} : ∀ {l' : List Byte} {p : Word},
    SharixString.CString m p l → SharixString.CString m p l' → l = l' := by
  induction l with
  | nil =>
      intro l' p h h'
      cases l' with
      | nil => rfl
      | cons c l' => exact absurd (h'.2.1.symm.trans h) h'.1
  | cons c l ih =>
      intro l' p h h'
      cases l' with
      | nil => exact absurd (h.2.1.symm.trans h') h.1
      | cons c' l' =>
          obtain rfl := h.2.1.symm.trans h'.2.1
          rw [ih h.2.2 h'.2.2]

/-- In a small table no name is long. -/
theorem short_of_size {k : Tables} {m : Mem} (hk : k.Good m) (hc : k.Checked m)
    (hsize : k.size.toNat ≤ 256) : Short k m := by
  intro p l hp hl
  obtain ⟨l', hl', hlen⟩ := hp.reads hk hc
  obtain rfl := cString_unique hl hl'.string
  have hle := List.IsPrefix.length_le (List.takeWhile_prefix (l := l) (· ≠ 58))
  omega

/-- The machine when `kern_init` is called, with the tables of `oneFile`. -/
def bootCpu : Cpu where
  reg r := if r = .esp then 0x1000 else 0
  seg _ := 0
  eip := 0
  eflags := 0
  mem := oneFileMem

/-- `kern_init`, called before 0xC0100000, has called another function before
    0xC0100007. -/
def calledTwice : Cpu :=
  exec (.call (.imm 0xC0100004) 0xC0100007 :: prologue)
    (exec (.call (.imm 0xC0100000) 0xC0100000 :: prologue) bootCpu)

theorem calledTwice_run : Relation.ReflTransGen (Step 0x1000) (bootCpu, [])
    (calledTwice, [⟨0xff0, 0xC0100007⟩, ⟨0xff8, 0xC0100000⟩]) := by
  refine .tail (.single (.call (.imm 0xC0100000) 0xC0100000 (by decide))) ?_
  have hstep := @Step.call 0x1000 (exec (.call (.imm 0xC0100000) 0xC0100000 :: prologue) bootCpu)
    [⟨0xff8, 0xC0100000⟩] (.imm 0xC0100004) 0xC0100007
    (by rw [(call_spec _ _ _).2.1]; decide)
  rw [(call_spec _ _ _).2.1] at hstep
  exact hstep

/-- A store on the stack leaves the strings. -/
theorem oneFile_stack (m : Mem) (a w : Word) (hlow : 0x300 ≤ a.toNat) (hhigh : a.toNat ≤ 0x1000) :
    Set.EqOn (store m a w) m oneFile.strings := by
  refine store_eqOn m a w (Set.disjoint_left.mpr fun b hb hs => ?_)
  have hb : (b - a).toNat < 4 := hb
  have hs : (b - 0x200).toNat < 10 ∨ (b - 0x100).toNat < 10 := hs
  bv_omega

theorem calledTwice_strings (next : Word) :
    Set.EqOn (called calledTwice next) oneFileMem oneFile.strings := by
  have hcall : ∀ (s : Cpu) (next : Word), 0x308 ≤ (s.reg .esp).toNat →
      (s.reg .esp).toNat ≤ 0x1000 → Set.EqOn (called s next) s.mem oneFile.strings := by
    intro s next hlow hhigh
    refine (oneFile_stack _ _ _ ?_ ?_).trans (oneFile_stack _ _ _ ?_ ?_) <;> bv_omega
  have h1 := hcall bootCpu 0xC0100000 (by decide) (by decide)
  have h2 := hcall (exec (.call (.imm 0xC0100000) 0xC0100000 :: prologue) bootCpu) 0xC0100007
    (by decide) (by decide)
  have h3 := hcall calledTwice next (by decide) (by decide)
  exact h3.trans (h2.trans h1)

theorem print_stackframe_traces_two :
    ∃ lines t, Yields (fun fuel => printStackframe fuel oneFile 0xC0100000 0xC0100005 calledTwice)
        (lines, t) ∧
      lines.map (fun l => (l.ebp, l.eip))
        = [((0xff0 : Word), (0xC0100005 : Word)), (0xff8, 0xC0100007)] := by
  have hgood := oneFile_good.eqOn (calledTwice_strings 0xC0100005)
  have hshort := short_of_size hgood
    ((checked_iff (calledTwice_strings 0xC0100005)).mpr (by decide)) (by decide)
  obtain ⟨lines, t, hlines, hmap, -⟩ := print_stackframe_traces (by decide) rfl (by decide)
    calledTwice_run (by decide) 0xC0100000 0xC0100005 hgood hshort
  exact ⟨lines, t, hlines, hmap⟩

end SharixBacktrace
