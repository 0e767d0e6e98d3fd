import Sharix.KeyboardProofs

/-! # What `shift` keeps of the keys — `console.c`

    A key is pressed and released with the same prefix, and `kbd_proc_data`
    looks both codes up at the same place of `shiftcode`.  So the last release
    of a modifier clears what its presses have set, whatever else is held, and
    every code that comes behind an escape takes the escape back
    (`shift_released`). -/

namespace SharixKeyboard

/-! ## Keys -/

/-- A key, by its make code. -/
structure Key where
  prefixed : Bool
  code : Byte
  make : code < 0x80

/-- Its place in the tables. -/
def Key.index (k : Key) : Byte := if k.prefixed then k.code ||| 0x80 else k.code

/-- `0xE0`, where the key has the prefix. -/
def Key.escape (k : Key) : List Byte := if k.prefixed then [0xE0] else []

/-- The break code of a released key is not that of the escape. -/
inductive KeyEvent where
  | press (k : Key)
  | release (k : Key) (h : k.code ≠ 0x60)

/-- What the keyboard sends. -/
def KeyEvent.bytes : KeyEvent → List Byte
  | .press k => k.escape ++ [k.code]
  | .release k _ => k.escape ++ [k.code ||| 0x80]

/-- `shift`, once `kbd_proc_data` has read the bytes. -/
def shiftAfter (shift : BitVec 32) (data : List Byte) : BitVec 32 :=
  data.foldl (fun shift d => (kbdProcData shift d).2) shift

def shiftRun (shift : BitVec 32) (es : List KeyEvent) : BitVec 32 :=
  shiftAfter shift (es.flatMap KeyEvent.bytes)

/-- Every key that was pressed is released after that. -/
def Released (es : List KeyEvent) : Prop :=
  ∀ before k after, es = before ++ .press k :: after → ∃ h, .release k h ∈ after

/-- How often the key without a prefix was pressed. -/
def presses (code : Byte) (es : List KeyEvent) : Nat :=
  es.countP fun
    | .press k => k.prefixed = false ∧ k.code = code
    | .release _ _ => false

/-- `shift` is that of the loop in `cons_intr`. -/
theorem consIntr_shift (data : List Byte) : ∀ (shift : BitVec 32) (cons : Cons),
    (consIntr data shift cons).1 = shiftAfter shift data := by
  induction data with
  | nil => exact fun _ _ => rfl
  | cons d rest ih => exact fun shift cons => ih _ _

/-! ## One key -/

theorem key_index_facts : ∀ c : Byte, c < 0x80 →
    c ≠ 0xE0 ∧ c &&& 0x80 = 0 ∧ (c ||| 0x80) &&& 0x80 ≠ 0 ∧ (c ||| 0x80) &&& 0x7F = c ∧
      (c ≠ 0x60 → c ||| 0x80 ≠ 0xE0) := by
  decide +kernel

/-- A mask of one bit. -/
theorem and_bit_eq_zero (shift : BitVec 32) {i : Nat} (hi : i < 32) :
    shift &&& BitVec.twoPow 32 i = 0 ↔ shift.getLsbD i = false := by
  have hne : BitVec.twoPow 32 i ≠ 0 := by
    intro h
    have hbit := congrArg (BitVec.getLsbD · i) h
    simp [hi] at hbit
  rw [BitVec.and_twoPow]
  cases shift.getLsbD i with
  | true => simpa using hne
  | false => simp

theorem and_E0ESC (shift : BitVec 32) :
    shift &&& E0ESC = 0 ↔ shift.getLsbD 6 = false :=
  and_bit_eq_zero shift (i := 6) (by decide)

theorem or_E0ESC (shift : BitVec 32) : (shift ||| E0ESC) &&& E0ESC ≠ 0 := by
  intro h
  have hbit := (and_E0ESC _).mp h
  rw [BitVec.getLsbD_or, Bool.or_eq_false_iff] at hbit
  exact absurd hbit.2 (by decide)

/-- The escape is taken back. -/
theorem or_E0ESC_and {shift : BitVec 32} (h : shift &&& E0ESC = 0) :
    (shift ||| E0ESC) &&& ~~~E0ESC = shift := by
  ext i hi
  have hbit : (shift &&& E0ESC)[i] = false := by
    rw [h]
    exact BitVec.getElem_zero hi
  rw [BitVec.getElem_and, Bool.and_eq_false_iff] at hbit
  rw [BitVec.getElem_and, BitVec.getElem_or, BitVec.getElem_not]
  rcases hbit with hbit | hbit
  · simp [hbit]
  · simp [hbit]

/-- A make code, with or without an escape before it. -/
theorem kbdProcData_make {shift : BitVec 32} {c d : Byte} (hc : c < 0x80)
    (hd : d = if shift &&& E0ESC ≠ 0 then c ||| 0x80 else c) {shift' : BitVec 32}
    (hs : shift' = if shift &&& E0ESC ≠ 0 then shift &&& ~~~E0ESC else shift) :
    (kbdProcData shift c).2 = (shift' ||| shiftcode d) ^^^ togglecode d := by
  obtain ⟨hne, hup, -, -, -⟩ := key_index_facts c hc
  rw [kbdProcData, if_neg hne, if_neg (not_not_intro hup), hd, hs]
  dsimp only
  split_ifs <;> rfl

/-- A break code, with or without an escape before it. -/
theorem kbdProcData_break {shift : BitVec 32} {c d : Byte} (hc : c < 0x80) (h60 : c ≠ 0x60)
    (hd : d = if shift &&& E0ESC ≠ 0 then c ||| 0x80 else c) :
    (kbdProcData shift (c ||| 0x80)).2 = shift &&& ~~~(shiftcode d ||| E0ESC) := by
  obtain ⟨-, -, hup, hlow, hne⟩ := key_index_facts c hc
  rw [kbdProcData, if_neg (hne h60), if_pos hup, hlow, hd]

theorem shiftAfter_press {shift : BitVec 32} (h : shift &&& E0ESC = 0) (k : Key) :
    shiftAfter shift (KeyEvent.press k).bytes
      = (shift ||| shiftcode k.index) ^^^ togglecode k.index := by
  obtain ⟨prefixed, code, make⟩ := k
  cases prefixed with
  | false =>
      show (kbdProcData shift code).2 = (shift ||| shiftcode code) ^^^ togglecode code
      refine kbdProcData_make make ?_ ?_
      · rw [if_neg (not_not_intro h)]
      · rw [if_neg (not_not_intro h)]
  | true =>
      -- the escape sets the bit, the code behind it takes it back
      show (kbdProcData (shift ||| E0ESC) code).2
        = (shift ||| shiftcode (code ||| 0x80)) ^^^ togglecode (code ||| 0x80)
      refine kbdProcData_make make ?_ ?_
      · rw [if_pos (or_E0ESC shift)]
      · rw [if_pos (or_E0ESC shift), or_E0ESC_and h]

theorem shiftAfter_release {shift : BitVec 32} (h : shift &&& E0ESC = 0) (k : Key)
    (h60 : k.code ≠ 0x60) :
    shiftAfter shift (KeyEvent.release k h60).bytes
      = shift &&& ~~~(shiftcode k.index ||| E0ESC) := by
  obtain ⟨prefixed, code, make⟩ := k
  cases prefixed with
  | false =>
      show (kbdProcData shift (code ||| 0x80)).2 = shift &&& ~~~(shiftcode code ||| E0ESC)
      refine kbdProcData_break make h60 ?_
      rw [if_neg (not_not_intro h)]
  | true =>
      show (kbdProcData (shift ||| E0ESC) (code ||| 0x80)).2
        = shift &&& ~~~(shiftcode (code ||| 0x80) ||| E0ESC)
      refine (kbdProcData_break make h60 (if_pos (or_E0ESC shift)).symm).trans ?_
      ext i hi
      simp only [BitVec.getElem_and, BitVec.getElem_or, BitVec.getElem_not]
      cases E0ESC[i] <;> simp

/-! ## Runs -/

/-- The bits of `shiftcode` are the lowest three, those of `togglecode` the next
    three. -/
theorem code_bits : ∀ d : Byte, ∀ i < 7,
    ((shiftcode d).getLsbD i → i < 3) ∧ ((togglecode d).getLsbD i → 3 ≤ i ∧ i < 6) := by
  decide +kernel

theorem shiftRun_cons (shift : BitVec 32) (e : KeyEvent) (es : List KeyEvent) :
    shiftRun shift (e :: es) = shiftRun (shiftAfter shift e.bytes) es := by
  rw [shiftRun, List.flatMap_cons, shiftAfter, List.foldl_append]
  rfl

/-- The event ends with no escape pending. -/
theorem shiftAfter_clear {shift : BitVec 32} (h : shift &&& E0ESC = 0) (e : KeyEvent) :
    shiftAfter shift e.bytes &&& E0ESC = 0 := by
  rw [and_E0ESC] at h ⊢
  cases e with
  | press k =>
      obtain ⟨h1, h2⟩ := code_bits k.index 6 (by decide)
      have hs : (shiftcode k.index).getLsbD 6 = false := by
        rw [Bool.eq_false_iff]
        exact fun hbit => absurd (h1 hbit) (by decide)
      have ht : (togglecode k.index).getLsbD 6 = false := by
        rw [Bool.eq_false_iff]
        exact fun hbit => absurd (h2 hbit).2 (by decide)
      rw [shiftAfter_press ((and_E0ESC _).mpr h), BitVec.getLsbD_xor, BitVec.getLsbD_or, h, hs, ht]
      rfl
  | release k h60 =>
      rw [shiftAfter_release ((and_E0ESC _).mpr h), BitVec.getLsbD_and, h]
      rfl

/-- The release of a key with the bit clears it. -/
def KeyEvent.Clears (i : Nat) : KeyEvent → Prop
  | .press _ => False
  | .release k _ => (shiftcode k.index).getLsbD i

/-- A modifier that is set is held: its bit comes from a press that no release
    has followed. -/
theorem shiftRun_held {i : Nat} (hi : i < 3) {es : List KeyEvent} : ∀ {shift : BitVec 32},
    shift &&& E0ESC = 0 → (shiftRun shift es).getLsbD i →
    (shift.getLsbD i ∧ ∀ e ∈ es, ¬ e.Clears i) ∨
      ∃ before k after, es = before ++ .press k :: after ∧
        (shiftcode k.index).getLsbD i ∧ ∀ e ∈ after, ¬ e.Clears i := by
  induction es with
  | nil => exact fun _ h => .inl ⟨h, by simp⟩
  | cons e es ih =>
      intro shift hclear h
      rw [shiftRun_cons] at h
      rcases ih (shiftAfter_clear hclear e) h with
        ⟨hbit, hes⟩ | ⟨before, k, after, rfl, hk, hafter⟩
      · -- the bit is set behind the first event, and stays
        cases e with
        | press k =>
            have ht : (togglecode k.index).getLsbD i = false := by
              -- no modifier is a toggle
              rw [Bool.eq_false_iff]
              intro hbit
              have := ((code_bits k.index i (by omega)).2 hbit).1
              omega
            rw [shiftAfter_press hclear, BitVec.getLsbD_xor, BitVec.getLsbD_or, ht,
              Bool.xor_false, Bool.or_eq_true] at hbit
            rcases hbit with hbit | hbit
            · exact .inl ⟨hbit, List.forall_mem_cons.mpr ⟨id, hes⟩⟩
            · exact .inr ⟨[], k, es, rfl, hbit, hes⟩
        | release k h60 =>
            rw [shiftAfter_release hclear, BitVec.getLsbD_and, BitVec.getLsbD_not,
              BitVec.getLsbD_or] at hbit
            simp only [Bool.and_eq_true, Bool.not_eq_true', Bool.or_eq_false_iff] at hbit
            refine .inl ⟨hbit.1, List.forall_mem_cons.mpr ⟨?_, hes⟩⟩
            intro hclears
            have hset : (shiftcode k.index).getLsbD i = true := hclears
            rw [hbit.2.2.1] at hset
            cases hset
      · exact .inr ⟨e :: before, k, after, rfl, hk, hafter⟩

theorem Key.index_eq_iff (k : Key) {code : Byte} (hcode : code < 0x80) :
    k.index = code ↔ k.prefixed = false ∧ k.code = code := by
  have hhigh : ∀ c : Byte, ¬ c ||| 0x80 < 0x80 := by decide +kernel
  unfold Key.index
  cases k.prefixed with
  | false => simp
  | true =>
      constructor
      · intro h
        have heq : k.code ||| 0x80 = code := h
        exact absurd (heq ▸ hcode) (hhigh k.code)
      · rintro ⟨⟨⟩, -⟩

theorem presses_press (code : Byte) (k : Key) (es : List KeyEvent) :
    presses code (.press k :: es)
      = presses code es + if k.prefixed = false ∧ k.code = code then 1 else 0 := by
  rw [presses, List.countP_cons]
  simp [presses]

theorem presses_release (code : Byte) (k : Key) (h60 : k.code ≠ 0x60) (es : List KeyEvent) :
    presses code (.release k h60 :: es) = presses code es := by
  rw [presses, List.countP_cons]
  simp [presses]

/-- A toggle counts the presses of its key. -/
theorem shiftRun_toggle {i : Nat} (hi : 3 ≤ i ∧ i < 6) {code : Byte} (hcode : code < 0x80)
    (honly : ∀ d, (togglecode d).getLsbD i = decide (d = code)) {es : List KeyEvent} :
    ∀ {shift : BitVec 32}, shift &&& E0ESC = 0 →
    (shiftRun shift es).getLsbD i = (shift.getLsbD i ^^ decide (presses code es % 2 = 1)) := by
  have hs : ∀ d, (shiftcode d).getLsbD i = false := by
    intro d
    rw [Bool.eq_false_iff]
    intro hbit
    have := (code_bits d i (by omega)).1 hbit
    omega
  have hescape : E0ESC.getLsbD i = false := by
    have hall : ∀ i < 6, E0ESC.getLsbD i = false := by decide
    exact hall i hi.2
  induction es with
  | nil =>
      intro shift _
      show shift.getLsbD i = _
      simp [presses]
  | cons e es ih =>
      intro shift hclear
      rw [shiftRun_cons, ih (shiftAfter_clear hclear e)]
      cases e with
      | press k =>
          rw [shiftAfter_press hclear, BitVec.getLsbD_xor, BitVec.getLsbD_or, hs, Bool.or_false,
            honly, presses_press, Bool.xor_assoc]
          congr 1
          -- a press with an escape before it is of another key
          by_cases hk : k.prefixed = false ∧ k.code = code
          · rw [if_pos hk, decide_eq_true ((k.index_eq_iff hcode).mpr hk), Bool.true_xor,
              ← decide_not]
            congr 1
            rw [eq_iff_iff]
            omega
          · rw [if_neg hk, decide_eq_false fun h => hk ((k.index_eq_iff hcode).mp h),
              Bool.false_xor, Nat.add_zero]
      | release k h60 =>
          rw [shiftAfter_release hclear, BitVec.getLsbD_and, BitVec.getLsbD_not, BitVec.getLsbD_or,
            hs, hescape, presses_release]
          simp
          omega

/-! ## All keys released -/

theorem zero_and_E0ESC : (0 : BitVec 32) &&& E0ESC = 0 := by decide

/-- No modifier is held once all keys are released. -/
theorem shiftRun_released {i : Nat} (hi : i < 3) {es : List KeyEvent} (h : Released es) :
    (shiftRun 0 es).getLsbD i = false := by
  rw [Bool.eq_false_iff]
  intro hbit
  rcases shiftRun_held hi zero_and_E0ESC hbit with
    ⟨hzero, -⟩ | ⟨before, k, after, heq, hk, hafter⟩
  · exact absurd hzero (by simp)
  · obtain ⟨h60, hmem⟩ := h before k after heq
    exact hafter _ hmem hk

/-- **ALL KEYS RELEASED**: whatever keys were pressed and released, in whatever
    order, once none is held no modifier and no escape is left, and the locks
    have changed with every press of their keys. -/
theorem shift_released (es : List KeyEvent) (h : Released es) :
    shiftRun 0 es &&& SHIFT = 0 ∧ shiftRun 0 es &&& CTL = 0 ∧ shiftRun 0 es &&& ALT = 0 ∧
      shiftRun 0 es &&& E0ESC = 0 ∧
      (shiftRun 0 es &&& CAPSLOCK ≠ 0 ↔ presses 0x3A es % 2 = 1) ∧
      (shiftRun 0 es &&& NUMLOCK ≠ 0 ↔ presses 0x45 es % 2 = 1) ∧
      (shiftRun 0 es &&& SCROLLLOCK ≠ 0 ↔ presses 0x46 es % 2 = 1) := by
  have hclear : ∀ {es : List KeyEvent} {shift : BitVec 32}, shift &&& E0ESC = 0 →
      shiftRun shift es &&& E0ESC = 0 := by
    intro es
    induction es with
    | nil => exact fun h => h
    | cons e es ih =>
        intro shift h
        rw [shiftRun_cons]
        exact ih (shiftAfter_clear h e)
  have hmod : ∀ i, i < 3 → shiftRun 0 es &&& BitVec.twoPow 32 i = 0 := fun i hi =>
    (and_bit_eq_zero _ (by omega)).mpr (shiftRun_released hi h)
  have htoggle : ∀ i code, 3 ≤ i ∧ i < 6 → code < 0x80 →
      (∀ d, (togglecode d).getLsbD i = decide (d = code)) →
      (shiftRun 0 es &&& BitVec.twoPow 32 i ≠ 0 ↔ presses code es % 2 = 1) := by
    intro i code hi hcode honly
    rw [ne_eq, and_bit_eq_zero _ (by omega), shiftRun_toggle hi hcode honly zero_and_E0ESC]
    simp
  exact ⟨hmod 0 (by decide), hmod 1 (by decide), hmod 2 (by decide), hclear zero_and_E0ESC,
    htoggle 3 0x3A (by decide) (by decide) (by decide +kernel),
    htoggle 4 0x45 (by decide) (by decide) (by decide +kernel),
    htoggle 5 0x46 (by decide) (by decide) (by decide +kernel)⟩

theorem Released.press {k : Key} {es : List KeyEvent} (h60 : k.code ≠ 0x60)
    (hmem : .release k h60 ∈ es) (h : Released es) : Released (.press k :: es) := by
  intro before k' after heq
  cases before with
  | nil =>
      obtain ⟨⟨rfl⟩, rfl⟩ := List.cons.inj heq
      exact ⟨h60, hmem⟩
  | cons e before => exact h before k' after (List.cons.inj heq).2

theorem Released.release {k : Key} {es : List KeyEvent} (h60 : k.code ≠ 0x60)
    (h : Released es) : Released (.release k h60 :: es) := by
  intro before k' after heq
  cases before with
  | nil => exact nomatch (List.cons.inj heq).1
  | cons e before => exact h before k' after (List.cons.inj heq).2

theorem Released.nil : Released [] := fun before _ _ heq =>
  absurd heq.symm (List.append_ne_nil_of_right_ne_nil before (List.cons_ne_nil _ _))

/-- The right control key, held while caps lock is pressed. -/
def rightControl : Key := ⟨true, 0x1D, by decide⟩

def capsLock : Key := ⟨false, 0x3A, by decide⟩

def controlCaps : List KeyEvent :=
  [.press rightControl, .press capsLock, .release capsLock (by decide),
    .release rightControl (by decide)]

theorem shift_released_controlCaps :
    shiftRun 0 controlCaps &&& SHIFT = 0 ∧ shiftRun 0 controlCaps &&& CTL = 0 ∧
      shiftRun 0 controlCaps &&& ALT = 0 ∧ shiftRun 0 controlCaps &&& E0ESC = 0 ∧
      (shiftRun 0 controlCaps &&& CAPSLOCK ≠ 0 ↔ presses 0x3A controlCaps % 2 = 1) ∧
      (shiftRun 0 controlCaps &&& NUMLOCK ≠ 0 ↔ presses 0x45 controlCaps % 2 = 1) ∧
      (shiftRun 0 controlCaps &&& SCROLLLOCK ≠ 0 ↔ presses 0x46 controlCaps % 2 = 1) :=
  shift_released controlCaps (.press (by decide) (by simp) (.press (by decide) (by simp)
    (.release _ (.release _ .nil))))

end SharixKeyboard
