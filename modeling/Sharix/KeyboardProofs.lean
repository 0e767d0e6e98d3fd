import Mathlib.Data.List.Basic
import Sharix.RingBufferProofs

/-! # The keyboard — `console.c`, `stringbuffer.c`, `trap.c`

    An interrupt drains the keyboard into the console ring, takes one
    character from the ring and pushes it to `kb`.  `cons_getc` answers 0 if
    none waits, and `trap_dispatch` pushes the 0 as well: then `keybuf_pop`
    answers 0 although characters wait behind it, and the zeros take up the
    room.

    What the keyboard delivers during an interrupt is a list of bytes, which
    may be empty.  Which runs bring every character through is decided here:
    those whose interrupts find one, and do not fill the ring. -/

namespace SharixKeyboard

open SharixRing

abbrev Byte := BitVec 8

/-! ## `kbd_proc_data` -/

def KEY_HOME : Nat := 0xE0
def KEY_END : Nat := 0xE1
def KEY_UP : Nat := 0xE2
def KEY_DN : Nat := 0xE3
def KEY_LF : Nat := 0xE4
def KEY_RT : Nat := 0xE5
def KEY_PGUP : Nat := 0xE6
def KEY_PGDN : Nat := 0xE7
def KEY_INS : Nat := 0xE8
def KEY_DEL : Nat := 0xE9

def SHIFT : BitVec 32 := 0x01
def CTL : BitVec 32 := 0x02
def ALT : BitVec 32 := 0x04
def CAPSLOCK : BitVec 32 := 0x08
def NUMLOCK : BitVec 32 := 0x10
def SCROLLLOCK : BitVec 32 := 0x20
def E0ESC : BitVec 32 := 0x40

def shiftcode (data : Byte) : BitVec 32 :=
  if data = 0x1D then CTL
  else if data = 0x2A then SHIFT
  else if data = 0x36 then SHIFT
  else if data = 0x38 then ALT
  else if data = 0x9D then CTL
  else if data = 0xB8 then ALT
  else 0

def togglecode (data : Byte) : BitVec 32 :=
  if data = 0x3A then CAPSLOCK
  else if data = 0x45 then NUMLOCK
  else if data = 0x46 then SCROLLLOCK
  else 0

/-- An array of 256 characters: the first ones, some others, and zeros. -/
def charmap (first : List Nat) (others : List (Nat × Nat)) (data : Byte) :
    Nat :=
  (others.lookup data.toNat).getD (first.getD data.toNat 0)

def NO : Char := '\x00'

/-- The keys behind an escape that `normalmap` and `shiftmap` share. -/
def keypad : List (Nat × Nat) :=
  [(0xC7, KEY_HOME), (0x9C, 0x0A), (0xB5, 0x2F), (0xC8, KEY_UP),
   (0xC9, KEY_PGUP), (0xCB, KEY_LF), (0xCD, KEY_RT), (0xCF, KEY_END),
   (0xD0, KEY_DN), (0xD1, KEY_PGDN), (0xD2, KEY_INS), (0xD3, KEY_DEL)]

def normalmap : Byte → Nat :=
  charmap (List.map Char.toNat
    [NO, '\x1b', '1', '2', '3', '4', '5', '6',
     '7', '8', '9', '0', '-', '=', '\x08', '\t',
     'q', 'w', 'e', 'r', 't', 'y', 'u', 'i',
     'o', 'p', '[', ']', '\n', NO, 'a', 's',
     'd', 'f', 'g', 'h', 'j', 'k', 'l', ';',
     '\x27', '\x60', NO, '\x5c', 'z', 'x', 'c', 'v',
     'b', 'n', 'm', ',', '.', '/', NO, '*',
     NO, ' ', NO, NO, NO, NO, NO, NO,
     NO, NO, NO, NO, NO, NO, NO, '7',
     '8', '9', '-', '4', '5', '6', '+', '1',
     '2', '3', '0', '.', NO, NO, NO, NO]) keypad

def shiftmap : Byte → Nat :=
  charmap (List.map Char.toNat
    [NO, '\x1b', '!', '@', '#', '$', '%', '^',
     '&', '*', '(', ')', '_', '+', '\x08', '\t',
     'Q', 'W', 'E', 'R', 'T', 'Y', 'U', 'I',
     'O', 'P', '\x7b', '\x7d', '\n', NO, 'A', 'S',
     'D', 'F', 'G', 'H', 'J', 'K', 'L', ':',
     '\x22', '~', NO, '|', 'Z', 'X', 'C', 'V',
     'B', 'N', 'M', '<', '>', '?', NO, '*',
     NO, ' ', NO, NO, NO, NO, NO, NO,
     NO, NO, NO, NO, NO, NO, NO, '7',
     '8', '9', '-', '4', '5', '6', '+', '1',
     '2', '3', '0', '.', NO, NO, NO, NO]) keypad

/-- `C(x)`, as the `uint8_t` it is stored in. -/
def control (x : Char) : Nat := (x.toNat + 256 - '@'.toNat) % 256

def ctlmap : Byte → Nat :=
  charmap
    (List.replicate 16 0 ++
      List.map control ['Q', 'W', 'E', 'R', 'T', 'Y', 'U', 'I', 'O', 'P'] ++
      [0, 0, '\r'.toNat, 0] ++
      List.map control ['A', 'S', 'D', 'F', 'G', 'H', 'J', 'K', 'L'] ++
      [0, 0, 0, 0] ++
      List.map control ['\x5c', 'Z', 'X', 'C', 'V', 'B', 'N', 'M'] ++
      [0, 0, control '/', 0, 0])
    [(0x97, KEY_HOME), (0xB5, control '/'), (0xC8, KEY_UP), (0xC9, KEY_PGUP),
     (0xCB, KEY_LF), (0xCD, KEY_RT), (0xCF, KEY_END), (0xD0, KEY_DN),
     (0xD1, KEY_PGDN), (0xD2, KEY_INS), (0xD3, KEY_DEL)]

/-- `charcode[shift & (CTL | SHIFT)][data]`. -/
def charcode (shift : BitVec 32) : Byte → Nat :=
  if shift &&& (CTL ||| SHIFT) = 0 then normalmap
  else if shift &&& (CTL ||| SHIFT) = SHIFT then shiftmap
  else ctlmap

/-- `kbd_proc_data` once it has read a byte: the character, or 0, and the new
    `shift`.  The restart on Ctrl-Alt-Del does not change them. -/
def kbdProcData (shift : BitVec 32) (data : Byte) : Nat × BitVec 32 :=
  if data = 0xE0 then (0, shift ||| E0ESC)
  else if data &&& 0x80 ≠ 0 then
    let data := if shift &&& E0ESC ≠ 0 then data else data &&& 0x7F
    (0, shift &&& ~~~(shiftcode data ||| E0ESC))
  else
    let escaped := shift &&& E0ESC ≠ 0
    let data := if escaped then data ||| 0x80 else data
    let shift := if escaped then shift &&& ~~~E0ESC else shift
    let shift := shift ||| shiftcode data
    let shift := shift ^^^ togglecode data
    let c := charcode shift data
    if shift &&& CAPSLOCK ≠ 0 then
      if 'a'.toNat ≤ c ∧ c ≤ 'z'.toNat then
        (c + 'A'.toNat - 'a'.toNat, shift)
      else if 'A'.toNat ≤ c ∧ c ≤ 'Z'.toNat then
        (c + 'a'.toNat - 'A'.toNat, shift)
      else (c, shift)
    else (c, shift)

/-! ## `cons` and `kb` -/

def CONSBUFSIZE : Nat := 512

/-- The slots of `keybuf_t`. -/
def KEYBUFSIZE : Nat := 32

structure Cons where
  buf : Nat → Nat
  rpos : Nat
  wpos : Nat

structure Keybuf where
  data : Nat → Nat
  front : Nat
  rear : Nat

/-- The body of the loop in `cons_intr` for a character. -/
def Cons.put (cons : Cons) (c : Nat) : Cons :=
  { cons with
    buf := Function.update cons.buf cons.wpos (c % 256)
    wpos := next CONSBUFSIZE cons.wpos }

/-- `cons_intr(kbd_proc_data)` on what the keyboard delivers. -/
def consIntr : List Byte → BitVec 32 → Cons → BitVec 32 × Cons
  | [], shift, cons => (shift, cons)
  | data :: rest, shift, cons =>
      let r := kbdProcData shift data
      consIntr rest r.2 (if r.1 ≠ 0 then cons.put r.1 else cons)

/-- `cons_getc`, the character and what it leaves. -/
def consGetc (data : List Byte) (shift : BitVec 32) (cons : Cons) :
    Nat × BitVec 32 × Cons :=
  let r := consIntr data shift cons
  if r.2.rpos ≠ r.2.wpos then
    (r.2.buf r.2.rpos, r.1, { r.2 with rpos := next CONSBUFSIZE r.2.rpos })
  else (0, r.1, r.2)

def keybufInit : Keybuf := ⟨fun _ => 0, 0, 0⟩

def keybufPush (pkb : Keybuf) (ch : Nat) : Keybuf :=
  if (pkb.front : Int) - pkb.rear = 1 then pkb
  else if pkb.front = 0 ∧ pkb.rear = 31 then pkb
  else { pkb with
    data := Function.update pkb.data pkb.rear (ch % 256)
    rear := next KEYBUFSIZE pkb.rear }

def keybufPop (pkb : Keybuf) : Nat × Keybuf :=
  if pkb.front = pkb.rear then (0, pkb)
  else (pkb.data pkb.front, { pkb with front := next KEYBUFSIZE pkb.front })

/-! ## Runs -/

/-- The static data, and as ghosts all characters decoded and all that
    `keybuf_pop` answered. -/
structure World where
  shift : BitVec 32
  cons : Cons
  kb : Keybuf
  decoded : List Nat
  popped : List Nat

/-- The characters that `kbd_proc_data` decodes from some bytes. -/
def decode : BitVec 32 → List Byte → List Nat
  | _, [] => []
  | shift, data :: rest =>
      let r := kbdProcData shift data
      if r.1 ≠ 0 then r.1 :: decode r.2 rest else decode r.2 rest

/-- A keyboard interrupt, with the bytes it drains, or a `keybuf_pop`. -/
inductive Event where
  | kbd (data : List Byte)
  | pop

/-- `trap_dispatch` for `IRQ_KBD`, or `keybuf_pop`. -/
def step (w : World) : Event → World
  | .kbd data =>
      let r := consGetc data w.shift w.cons
      { w with
        shift := r.2.1
        cons := r.2.2
        kb := keybufPush w.kb r.1
        decoded := w.decoded ++ decode w.shift data }
  | .pop =>
      let r := keybufPop w.kb
      { w with
        kb := r.2
        popped := if r.1 ≠ 0 then w.popped ++ [r.1] else w.popped }

/-- After `keybuf_init`, and `cons_init` with the bytes that it drains. -/
def start (data : List Byte) : World :=
  let r := consIntr data 0 ⟨fun _ => 0, 0, 0⟩
  ⟨r.1, r.2, keybufInit, decode 0 data, []⟩

/-- What waits in the ring, and in `kb`. -/
def Cons.chars (cons : Cons) : List Nat :=
  contents CONSBUFSIZE cons.buf cons.rpos cons.wpos

def Keybuf.chars (kb : Keybuf) : List Nat :=
  contents KEYBUFSIZE kb.data kb.front kb.rear

/-- The characters popped and those on their way. -/
def World.through (w : World) : List Nat :=
  w.popped ++ w.kb.chars.filter (· ≠ 0) ++ w.cons.chars

/-- No empty slot waits in `kb`, and what was popped was decoded, in order. -/
def Orderly (w : World) : Prop :=
  (∀ c ∈ w.kb.chars, c ≠ 0) ∧ w.popped.Sublist w.decoded

/-- A step loses nothing while fewer than 31 characters wait in `kb`. -/
def NoDrop (w w' : World) : Prop :=
  (w.kb.chars.filter (· ≠ 0)).length < 31 →
    ∀ new, w'.decoded = w.decoded ++ new → w'.through = w.through ++ new

/-- Every state of the run is in order, and no step drops what there is room for. -/
def Delivers : World → List Event → Prop
  | w, [] => Orderly w
  | w, e :: es => Orderly w ∧ NoDrop w (step w e) ∧ Delivers (step w e) es

/-- From what waits at the start, every character of a run arrives once and in
    order. -/
def Keeps (data : List Byte) (es : List Event) : Prop :=
  (start data).through = (start data).decoded ∧ Delivers (start data) es

/-! ## Characters -/

theorem charmap_lt {first : List Nat} {others : List (Nat × Nat)}
    (hfirst : ∀ c ∈ first, c < 256) (hothers : ∀ e ∈ others, e.2 < 256)
    (data : Byte) : charmap first others data < 256 := by
  rw [charmap]
  cases hlook : others.lookup data.toNat with
  | some c =>
      obtain ⟨l₁, l₂, hsplit, -⟩ := List.lookup_eq_some_iff.mp hlook
      exact hothers (data.toNat, c) (by
        rw [hsplit]
        exact List.mem_append_right _ List.mem_cons_self)
  | none =>
      rw [Option.getD_none, List.getD_eq_getElem?_getD]
      cases hget : first[data.toNat]? with
      | none => exact Nat.zero_lt_of_lt (by decide : 0 < 256)
      | some c => exact hfirst c (List.mem_of_getElem? hget)

theorem charcode_lt (shift : BitVec 32) (data : Byte) :
    charcode shift data < 256 := by
  rw [charcode]
  split
  · exact charmap_lt (by decide) (by decide) data
  · split
    · exact charmap_lt (by decide) (by decide) data
    · exact charmap_lt (by decide) (by decide) data

/-- Caps lock maps letters to letters. -/
theorem capsLock_lt {c : Nat} (hc : c < 256) (shift : BitVec 32) :
    (if shift &&& CAPSLOCK ≠ 0 then
      if 'a'.toNat ≤ c ∧ c ≤ 'z'.toNat then
        (c + 'A'.toNat - 'a'.toNat, shift)
      else if 'A'.toNat ≤ c ∧ c ≤ 'Z'.toNat then
        (c + 'a'.toNat - 'A'.toNat, shift)
      else (c, shift)
    else (c, shift)).1 < 256 := by
  have hA : 'A'.toNat = 65 := rfl
  have hZ : 'Z'.toNat = 90 := rfl
  have ha : 'a'.toNat = 97 := rfl
  have hz : 'z'.toNat = 122 := rfl
  split_ifs <;> omega

theorem kbdProcData_lt (shift : BitVec 32) (data : Byte) :
    (kbdProcData shift data).1 < 256 := by
  rw [kbdProcData]
  by_cases hescape : data = 0xE0
  · rw [if_pos hescape]
    exact Nat.succ_pos 255
  · rw [if_neg hescape]
    by_cases hup : data &&& 0x80 ≠ 0
    · rw [if_pos hup]
      exact Nat.succ_pos 255
    · rw [if_neg hup]
      exact capsLock_lt (charcode_lt _ _) _

theorem decode_mem {shift : BitVec 32} {data : List Byte} {c : Nat}
    (hc : c ∈ decode shift data) : c ≠ 0 ∧ c < 256 := by
  induction data generalizing shift with
  | nil => cases hc
  | cons d rest ih =>
      rw [decode] at hc
      split at hc
      · rename_i hne
        rcases List.mem_cons.mp hc with rfl | hc
        · exact ⟨hne, kbdProcData_lt shift d⟩
        · exact ih hc
      · exact ih hc

/-! ## The console ring -/

structure Cons.Ok (cons : Cons) : Prop where
  rpos : cons.rpos < CONSBUFSIZE
  wpos : cons.wpos < CONSBUFSIZE

/-- The loop of `cons_intr` puts what is decoded. -/
theorem consIntr_cons (data : List Byte) : ∀ (shift : BitVec 32) (cons : Cons),
    (consIntr data shift cons).2 = (decode shift data).foldl Cons.put cons := by
  induction data with
  | nil => exact fun _ _ => rfl
  | cons d rest ih =>
      intro shift cons
      rw [consIntr, ih, decode]
      by_cases hne : (kbdProcData shift d).1 ≠ 0
      · rw [if_pos hne, if_pos hne, List.foldl_cons]
      · rw [if_neg hne, if_neg hne]

theorem Cons.put_ok {cons : Cons} (h : cons.Ok) (c : Nat) : (cons.put c).Ok :=
  ⟨h.rpos, next_lt h.wpos⟩

theorem Cons.put_chars {cons : Cons} (h : cons.Ok) {c : Nat} (hc : c < 256) :
    (cons.put c).chars
      = if cons.chars.length + 1 = CONSBUFSIZE then [] else cons.chars ++ [c]
    := by
  rw [Cons.chars, Cons.chars, Cons.put, Nat.mod_eq_of_lt hc, length_contents]
  have hlt := waiting_lt h.rpos h.wpos
  split_ifs with hfull
  · exact contents_overrun h.rpos h.wpos _ hfull
  · exact contents_push h.rpos h.wpos _ _ (by omega)

/-- What a row of characters does to the ring: they come through if there is
    room; if not, most are gone. -/
theorem puts_chars {cs : List Nat} (hcs : ∀ c ∈ cs, c < 256) :
    ∀ {cons : Cons}, cons.Ok → (cs.foldl Cons.put cons).Ok ∧
      (cs.foldl Cons.put cons).chars.length
        = (cons.chars.length + cs.length) % CONSBUFSIZE ∧
      (cs.foldl Cons.put cons).chars.Sublist (cons.chars ++ cs) ∧
      (cons.chars.length + cs.length < CONSBUFSIZE →
        (cs.foldl Cons.put cons).chars = cons.chars ++ cs) := by
  have hsize : CONSBUFSIZE = 512 := rfl
  induction cs with
  | nil =>
      intro cons h
      have hlt : cons.chars.length < CONSBUFSIZE := by
        rw [Cons.chars, length_contents]
        exact waiting_lt h.rpos h.wpos
      rw [List.foldl_nil, List.append_nil, List.length_nil, Nat.add_zero,
        Nat.mod_eq_of_lt hlt]
      exact ⟨h, rfl, List.Sublist.refl _, fun _ => rfl⟩
  | cons c cs ih =>
      intro cons h
      have hc := hcs c List.mem_cons_self
      obtain ⟨hok, hlen, hsub, hall⟩ :=
        ih (fun x hx => hcs x (List.mem_cons_of_mem _ hx)) (cons.put_ok h c)
      have hput := Cons.put_chars h hc
      rw [List.foldl_cons, List.length_cons]
      by_cases hfull : cons.chars.length + 1 = CONSBUFSIZE
      · -- the write position meets `rpos`: the ring looks empty
        rw [if_pos hfull] at hput
        rw [hput, List.nil_append] at hsub
        refine ⟨hok, ?_, ?_, fun hroom => ?_⟩
        · rw [hlen, hput, List.length_nil, ← Nat.add_assoc, Nat.add_right_comm,
            hfull, Nat.add_mod_left, Nat.zero_add]
        · exact (hsub.cons c).trans (List.sublist_append_right _ _)
        · omega
      · rw [if_neg hfull] at hput
        rw [hput, List.append_assoc, List.singleton_append] at hsub hall
        refine ⟨hok, ?_, hsub, fun hroom => hall ?_⟩
        · rw [hlen, hput, List.length_append, List.length_singleton]
          congr 1
          omega
        · rw [List.length_append, List.length_singleton]
          omega

/-! ## `cons_getc`, `keybuf_push`, `keybuf_pop` -/

/-- The first character of the ring, or 0. -/
theorem consGetc_chars {data : List Byte} {shift : BitVec 32} {cons : Cons}
    (h : (consIntr data shift cons).2.Ok) :
    (consGetc data shift cons).1
        = (consIntr data shift cons).2.chars.headD 0 ∧
      (consGetc data shift cons).2.2.Ok ∧
      (consGetc data shift cons).2.2.chars
        = (consIntr data shift cons).2.chars.tail := by
  rw [consGetc]
  by_cases heq : (consIntr data shift cons).2.rpos
      = (consIntr data shift cons).2.wpos
  · have hnil : (consIntr data shift cons).2.chars = [] := by
      rw [Cons.chars, heq]
      exact contents_self _ _ _
    rw [if_neg (not_not_intro heq), hnil]
    exact ⟨rfl, h, rfl⟩
  · have hcons : (consIntr data shift cons).2.chars = _ :=
      contents_pop h.rpos h.wpos _ heq
    rw [if_pos heq, hcons]
    exact ⟨rfl, ⟨next_lt h.rpos, h.wpos⟩, rfl⟩

structure Keybuf.Ok (kb : Keybuf) : Prop where
  front : kb.front < KEYBUFSIZE
  rear : kb.rear < KEYBUFSIZE

theorem Keybuf.Ok.length_lt {kb : Keybuf} (h : kb.Ok) :
    kb.chars.length < KEYBUFSIZE := by
  rw [Keybuf.chars, length_contents]
  exact waiting_lt h.front h.rear

/-- The two comparisons find the full buffer. -/
theorem keybufPush_eq {kb : Keybuf} (h : kb.Ok) (ch : Nat) :
    keybufPush kb ch = if kb.chars.length = 31 then kb else { kb with
      data := Function.update kb.data kb.rear (ch % 256)
      rear := next KEYBUFSIZE kb.rear } := by
  have hsize : KEYBUFSIZE = 32 := rfl
  have hf := h.front
  have hr := h.rear
  rw [Keybuf.chars, length_contents, waiting, keybufPush]
  split_ifs <;> first | rfl | omega

theorem keybufPush_chars {kb : Keybuf} (h : kb.Ok) (ch : Nat) :
    (keybufPush kb ch).Ok ∧ (keybufPush kb ch).chars
      = if kb.chars.length = 31 then kb.chars
        else kb.chars ++ [ch % 256] := by
  rw [keybufPush_eq h]
  by_cases hfull : kb.chars.length = 31
  · rw [if_pos hfull, if_pos hfull]
    exact ⟨h, rfl⟩
  · have hroom : waiting KEYBUFSIZE kb.front kb.rear + 1 < KEYBUFSIZE := by
      have hsize : KEYBUFSIZE = 32 := rfl
      have hlt := h.length_lt
      rw [Keybuf.chars, length_contents] at hfull hlt
      omega
    rw [if_neg hfull, if_neg hfull]
    exact ⟨⟨h.front, next_lt h.rear⟩,
      contents_push h.front h.rear _ _ hroom⟩

theorem keybufPop_chars {kb : Keybuf} (h : kb.Ok) :
    (kb.chars = [] ∧ keybufPop kb = (0, kb)) ∨
    ∃ c rest, kb.chars = c :: rest ∧ (keybufPop kb).1 = c ∧
      (keybufPop kb).2.Ok ∧ (keybufPop kb).2.chars = rest := by
  rw [keybufPop]
  by_cases hne : kb.front = kb.rear
  · left
    rw [if_pos hne, Keybuf.chars, hne]
    exact ⟨contents_self _ _ _, rfl⟩
  · right
    rw [if_neg hne]
    exact ⟨_, _, contents_pop h.front h.rear _ hne, rfl,
      ⟨next_lt h.front, h.rear⟩, rfl⟩

/-! ## Steps -/

/-- The invariant of a run that keeps its characters. -/
structure Inv (w : World) : Prop where
  cons : w.cons.Ok
  kb : w.kb.Ok
  kbChars : ∀ c ∈ w.kb.chars, c ≠ 0
  consChars : ∀ c ∈ w.cons.chars, c ≠ 0 ∧ c < 256
  order : w.through.Sublist w.decoded

theorem filter_chars {l : List Nat} (h : ∀ c ∈ l, c ≠ 0) : l.filter (· ≠ 0) = l :=
  List.filter_eq_self.mpr fun c hc => decide_eq_true (h c hc)

theorem Inv.through_eq {w : World} (h : Inv w) :
    w.through = w.popped ++ w.kb.chars ++ w.cons.chars := by
  rw [World.through, filter_chars h.kbChars]

theorem Inv.orderly {w : World} (h : Inv w) : Orderly w := by
  refine ⟨h.kbChars, List.Sublist.trans ?_ h.order⟩
  rw [World.through, List.append_assoc]
  exact List.sublist_append_left _ _

/-- How many characters wait in the ring when the interrupt has drained the
    keyboard, or would without wrapping. -/
def pending (w : World) (data : List Byte) : Nat :=
  w.cons.chars.length + (decode w.shift data).length

/-- The interrupt finds a character and has not filled the ring; or `kb` is
    full anyway. -/
def Fine (w : World) : Event → Prop
  | .kbd data => w.kb.chars.length = 31 ∨
      (0 < pending w data ∧ pending w data < CONSBUFSIZE)
  | .pop => True

/-- The ring after the interrupt has drained the keyboard. -/
def drained (w : World) (data : List Byte) : List Nat :=
  (consIntr data w.shift w.cons).2.chars

theorem Inv.drained_spec {w : World} (h : Inv w) (data : List Byte) :
    (consIntr data w.shift w.cons).2.Ok ∧
      (drained w data).length = pending w data % CONSBUFSIZE ∧
      (drained w data).Sublist (w.cons.chars ++ decode w.shift data) ∧
      (pending w data < CONSBUFSIZE →
        drained w data = w.cons.chars ++ decode w.shift data) := by
  rw [drained, consIntr_cons]
  exact puts_chars (fun c hc => (decode_mem hc).2) h.cons

/-- A character that the ring has is not 0. -/
theorem Inv.drained_mem {w : World} (h : Inv w) {data : List Byte} {c : Nat}
    (hc : c ∈ drained w data) : c ≠ 0 ∧ c < 256 := by
  rcases List.mem_append.mp ((h.drained_spec data).2.2.1.subset hc) with hc | hc
  · exact h.consChars c hc
  · exact decode_mem hc

/-- An interrupt moves the first character of the ring, or a 0, to `kb` unless
    that is full. -/
theorem Inv.step_kbd {w : World} (h : Inv w) (data : List Byte) :
    (step w (.kbd data)).cons.Ok ∧ (step w (.kbd data)).kb.Ok ∧
      (step w (.kbd data)).cons.chars = (drained w data).tail ∧
      (step w (.kbd data)).kb.chars = if w.kb.chars.length = 31
        then w.kb.chars else w.kb.chars ++ [(drained w data).headD 0] := by
  obtain ⟨hc, hok, htail⟩ := consGetc_chars (h.drained_spec data).1
  obtain ⟨hkb, hpush⟩ := keybufPush_chars h.kb
    (consGetc data w.shift w.cons).1
  refine ⟨hok, hkb, htail, hpush.trans ?_⟩
  have hbyte : (drained w data).headD 0 < 256 := by
    cases hd : drained w data with
    | nil => exact Nat.zero_lt_of_lt (by decide : 0 < 256)
    | cons c rest =>
        exact (h.drained_mem (by rw [hd]; exact List.mem_cons_self)).2
  rw [hc]
  change (if _ then _ else w.kb.chars ++ [(drained w data).headD 0 % 256]) = _
  rw [Nat.mod_eq_of_lt hbyte]

/-- A fine interrupt keeps the invariant and drops nothing. -/
theorem inv_kbd {w : World} (h : Inv w) {data : List Byte}
    (hfine : Fine w (.kbd data)) :
    Inv (step w (.kbd data)) ∧ NoDrop w (step w (.kbd data)) := by
  obtain ⟨hcons, hkb, htail, hchars⟩ := h.step_kbd data
  obtain ⟨-, hlen, hsub, hroom⟩ := h.drained_spec data
  have hconsChars : ∀ c ∈ (step w (.kbd data)).cons.chars, c ≠ 0 ∧ c < 256 := by
    intro c hc
    rw [htail] at hc
    exact h.drained_mem (List.mem_of_mem_tail hc)
  have hdecoded : (step w (.kbd data)).decoded
      = w.decoded ++ decode w.shift data := rfl
  have hpopped : (step w (.kbd data)).popped = w.popped := rfl
  have horder := h.order
  rw [h.through_eq] at horder
  by_cases hfull : w.kb.chars.length = 31
  · -- the character taken from the ring is lost, but not out of order
    rw [if_pos hfull] at hchars
    refine ⟨⟨hcons, hkb, by rw [hchars]; exact h.kbChars, hconsChars, ?_⟩, ?_⟩
    · rw [World.through, hchars, filter_chars h.kbChars, hpopped, htail, hdecoded]
      refine List.Sublist.trans ?_ (horder.append_right _)
      rw [List.append_assoc (w.popped ++ w.kb.chars)]
      exact ((List.tail_sublist _).trans hsub).append_left _
    · intro hlt
      rw [filter_chars h.kbChars, hfull] at hlt
      exact absurd hlt (Nat.lt_irrefl _)
  · -- it moves from the head of the ring to the end of `kb`
    rw [if_neg hfull] at hchars
    obtain ⟨hpos, hlt⟩ := hfine.resolve_left hfull
    rw [Nat.mod_eq_of_lt hlt] at hlen
    obtain ⟨c, rest, hd⟩ := List.exists_cons_of_length_pos (hlen ▸ hpos)
    rw [hd, List.headD_cons] at hchars
    rw [hd, List.tail_cons] at htail
    have hnonzero : ∀ x ∈ w.kb.chars ++ [c], x ≠ 0 := by
      intro x hx
      rcases List.mem_append.mp hx with hx | hx
      · exact h.kbChars x hx
      · rw [List.mem_singleton.mp hx]
        exact (h.drained_mem (by rw [hd]; exact List.mem_cons_self)).1
    have hthrough : (step w (.kbd data)).through
        = w.through ++ decode w.shift data := by
      rw [World.through, hchars, filter_chars hnonzero, hpopped, htail,
        h.through_eq, List.append_assoc, List.append_assoc, List.append_assoc,
        List.singleton_append, ← hd, hroom hlt, List.append_assoc]
    refine ⟨⟨hcons, hkb, by rw [hchars]; exact hnonzero, hconsChars, ?_⟩, ?_⟩
    · rw [hthrough, hdecoded]
      exact h.order.append_right _
    · intro _ new hnew
      rw [hdecoded] at hnew
      rw [hthrough, List.append_cancel_left hnew]

/-- Any other interrupt puts a 0 into `kb` or loses characters. -/
theorem not_fine_kbd {w : World} (h : Inv w) {data : List Byte}
    (hfine : ¬ Fine w (.kbd data)) (horderly : Orderly (step w (.kbd data)))
    (hdrop : NoDrop w (step w (.kbd data))) : False := by
  obtain ⟨-, -, htail, hchars⟩ := h.step_kbd data
  obtain ⟨-, hlen, -⟩ := h.drained_spec data
  obtain ⟨hfull, hpending⟩ := not_or.mp hfine
  rw [if_neg hfull] at hchars
  have hsize : CONSBUFSIZE = 512 := rfl
  cases hd : drained w data with
  | nil =>
      -- the 0 that `cons_getc` answers is pushed
      rw [hd] at hchars
      refine horderly.1 0 ?_ rfl
      rw [hchars]
      exact List.mem_append_right _ List.mem_cons_self
  | cons c rest =>
      -- the ring was overrun: it has fewer characters than came in
      rw [hd, List.headD_cons] at hchars
      rw [hd, List.tail_cons] at htail
      rw [hd, List.length_cons] at hlen
      have hover : CONSBUFSIZE ≤ pending w data := by
        by_contra hlt
        rw [Nat.mod_eq_of_lt (Nat.lt_of_not_le hlt)] at hlen
        exact hpending ⟨by omega, Nat.lt_of_not_le hlt⟩
      have hwait : (w.kb.chars.filter (· ≠ 0)).length < 31 := by
        have hle := List.length_filter_le (fun c => decide (c ≠ 0)) w.kb.chars
        have hlt := h.kb.length_lt
        have hsize : KEYBUFSIZE = 32 := rfl
        omega
      have heq := congrArg List.length (hdrop hwait _ rfl)
      have hle := List.length_filter_le (fun c => decide (c ≠ 0))
        (step w (.kbd data)).kb.chars
      have hmod := Nat.mod_lt (pending w data) (by decide : 0 < CONSBUFSIZE)
      have hpopped : (step w (.kbd data)).popped = w.popped := rfl
      rw [h.through_eq] at heq
      rw [World.through, hpopped, htail] at heq
      rw [hchars] at heq hle
      simp only [List.length_append, List.length_singleton] at heq hle
      rw [pending] at hover hlen hmod
      omega

/-- `keybuf_pop` takes the first character of `kb`. -/
theorem inv_pop {w : World} (h : Inv w) :
    Inv (step w .pop) ∧ NoDrop w (step w .pop) := by
  have hthrough : ∀ {w' : World}, w'.decoded = w.decoded →
      w'.through = w.through → NoDrop w w' := by
    intro w' hdecoded heq _ new hnew
    rw [hdecoded] at hnew
    rw [heq, List.self_eq_append_right.mp hnew, List.append_nil]
  rcases keybufPop_chars h.kb with ⟨hnil, hpop⟩ |
    ⟨c, rest, hchars, hc, hok, hrest⟩
  · have hstep : step w .pop = w := by
      simp only [step, hpop]
      rfl
    rw [hstep]
    exact ⟨h, hthrough rfl rfl⟩
  · have hne : c ≠ 0 := h.kbChars c (by
      rw [hchars]
      exact List.mem_cons_self)
    have hpopped : (step w .pop).popped = w.popped ++ [c] := by
      simp only [step, hc, if_pos hne]
    have hkb : (step w .pop).kb.chars = rest := hrest
    have hsame : (step w .pop).through = w.through := by
      have hcons : (step w .pop).cons = w.cons := rfl
      have hfilter : (c :: rest).filter (· ≠ 0) = c :: rest.filter (· ≠ 0) :=
        List.filter_cons_of_pos (by simpa using hne)
      rw [World.through, World.through, hpopped, hkb, hcons, hchars, hfilter,
        List.append_assoc w.popped, List.singleton_append]
    refine ⟨⟨h.cons, hok, fun x hx => ?_, h.consChars, ?_⟩,
      hthrough rfl hsame⟩
    · rw [hkb] at hx
      refine h.kbChars x ?_
      rw [hchars]
      exact List.mem_cons_of_mem _ hx
    · rw [hsame]
      exact h.order

/-! ## Runs -/

/-- All interrupts are fine, each in its state. -/
def FineRun : World → List Event → Prop
  | _, [] => True
  | w, e :: es => Fine w e ∧ FineRun (step w e) es

theorem delivers_iff {es : List Event} :
    ∀ {w : World}, Inv w → (Delivers w es ↔ FineRun w es) := by
  induction es with
  | nil => exact fun h => ⟨fun _ => trivial, fun _ => h.orderly⟩
  | cons e es ih =>
      intro w h
      rw [Delivers, FineRun]
      have hnext : Fine w e → Inv (step w e) ∧ NoDrop w (step w e) := by
        intro hfine
        cases e with
        | kbd data => exact inv_kbd h hfine
        | pop => exact inv_pop h
      constructor
      · rintro ⟨-, hdrop, hrest⟩
        have hfine : Fine w e := by
          by_contra hnot
          cases e with
          | kbd data =>
              -- the run says of the next state that it is orderly
              refine not_fine_kbd h hnot ?_ hdrop
              cases es with
              | nil => exact hrest
              | cons e es => exact hrest.1
          | pop => exact hnot trivial
        exact ⟨hfine, (ih (hnext hfine).1).mp hrest⟩
      · rintro ⟨hfine, hrest⟩
        obtain ⟨h', hdrop⟩ := hnext hfine
        exact ⟨h.orderly, hdrop, (ih h').mpr hrest⟩

/-- The ring after `cons_init`. -/
theorem start_chars (data : List Byte) :
    (start data).cons.Ok ∧
      (start data).cons.chars.length
        = (decode 0 data).length % CONSBUFSIZE ∧
      ((decode 0 data).length < CONSBUFSIZE →
        (start data).cons.chars = decode 0 data) := by
  have hzero : (⟨fun _ => 0, 0, 0⟩ : Cons).Ok := ⟨by decide, by decide⟩
  have hnil : (⟨fun _ => 0, 0, 0⟩ : Cons).chars = [] := contents_self _ _ _
  have hlt : ∀ c ∈ decode 0 data, c < 256 := fun c hc => (decode_mem hc).2
  obtain ⟨hok, hlen, -, hroom⟩ := puts_chars hlt hzero
  rw [hnil, List.length_nil, Nat.zero_add] at hlen hroom
  rw [← consIntr_cons] at hok hlen hroom
  exact ⟨hok, hlen, hroom⟩

theorem start_through (data : List Byte) :
    (start data).through = (start data).cons.chars := by
  have hnil : keybufInit.chars = [] := contents_self _ _ _
  change ([] ++ keybufInit.chars.filter (· ≠ 0)) ++ _ = _
  rw [hnil]
  rfl

/-- **WHEN EVERY CHARACTER COMES THROUGH**: `kb` holds only characters, they
    are popped in order and none is dropped while fewer than 31 wait, exactly
    in the runs where `cons_init` does not fill the ring and every interrupt
    finds a character and does not fill the ring, or finds `kb` full. -/
theorem keeps_iff (data : List Byte) (es : List Event) :
    Keeps data es ↔
      (decode 0 data).length < CONSBUFSIZE ∧ FineRun (start data) es := by
  obtain ⟨hok, hlen, hroom⟩ := start_chars data
  have hdecoded : (start data).decoded = decode 0 data := rfl
  have hstart : (start data).through = (start data).decoded ↔
      (decode 0 data).length < CONSBUFSIZE := by
    rw [start_through, hdecoded]
    constructor
    · intro heq
      rw [heq] at hlen
      rw [hlen]
      exact Nat.mod_lt _ (by decide)
    · exact hroom
  rw [Keeps, hstart]
  refine and_congr_right fun hlt => delivers_iff ?_
  have hnil : (start data).kb.chars = [] := contents_self _ _ _
  have hkb : keybufInit.Ok := ⟨by decide, by decide⟩
  refine ⟨hok, hkb, ?_, ?_, ?_⟩
  · rw [hnil]
    exact fun c hc => absurd hc List.not_mem_nil
  · rw [hroom hlt]
    exact fun c hc => decode_mem hc
  · rw [hstart.mpr hlt]

/-- A key is pressed and released, nothing is popped: the interrupt for the
    release puts a 0 into `kb`. -/
theorem not_keeps : ¬ ∀ data es, Keeps data es := by
  intro h
  have hkeeps := h [] [.kbd [0x1E], .kbd [0x9E]]
  have horderly : Orderly (step (step (start []) (.kbd [0x1E]))
    (.kbd [0x9E])) := hkeeps.2.2.2.2.2
  have hzero : 0 ∈ (step (step (start []) (.kbd [0x1E])) (.kbd [0x9E])).kb.chars
    := by decide +kernel
  exact horderly.1 0 hzero rfl

end SharixKeyboard
