import Sharix.KeyboardProofs
import Sharix.RunProofs

/-! # `keybuf_t` is a queue — `stringbuffer.c`

    One of the 32 slots stays free, so that a full buffer is not taken for an
    empty one.  Two tests find it: `rear` is one place before `front`, or at the
    last slot with `front` at the first.  Whatever was pushed and popped before,
    the buffer answers like a queue for 31 characters (`keybuf_queue`). -/

/-! ## Bounded queues -/

namespace SharixQueue

variable {α : Type}

/-- Append, if fewer than `cap` elements wait; whether it was done. -/
def push (cap : Nat) (q : List α) (c : α) : Bool × List α :=
  if q.length < cap then (true, q ++ [c]) else (false, q)

/-- Take the first element. -/
def pop : List α → Option α × List α
  | [] => (none, [])
  | c :: q => (some c, q)

end SharixQueue

namespace SharixKeyboard

open SharixRing SharixQueue SharixRun

/-! ## The model -/

/-- `keybuf_push`, with what it returns. -/
def keybufPushed (pkb : Keybuf) (ch : Byte) : Bool × Keybuf :=
  if (pkb.front : Int) - pkb.rear = 1 then (false, pkb)
  else if pkb.front = 0 ∧ pkb.rear = 31 then (false, pkb)
  else (true, { pkb with
    data := Function.update pkb.data pkb.rear ch.toNat
    rear := next KEYBUFSIZE pkb.rear })

/-- What it leaves is what `trap_dispatch` goes on with. -/
theorem keybufPushed_snd (pkb : Keybuf) (ch : Byte) :
    (keybufPushed pkb ch).2 = keybufPush pkb ch.toNat := by
  rw [keybufPushed, keybufPush, Nat.mod_eq_of_lt ch.isLt]
  split_ifs <;> rfl

/-- A call of `keybuf_push` or `keybuf_pop`. -/
inductive KeybufCall where
  | push (ch : Byte)
  | pop

/-- What it returns. -/
inductive KeybufAnswer where
  | pushed (done : Bool)
  | popped (ch : Nat)
deriving DecidableEq

def keybufStep (pkb : Keybuf) : KeybufCall → KeybufAnswer × Keybuf
  | .push ch => (.pushed (keybufPushed pkb ch).1, (keybufPushed pkb ch).2)
  | .pop => (.popped (keybufPop pkb).1, (keybufPop pkb).2)

/-- The queue for 31 characters; a pop of nothing returns 0. -/
def queueStep (q : List Nat) : KeybufCall → KeybufAnswer × List Nat
  | .push ch => (.pushed (push 31 q ch.toNat).1, (push 31 q ch.toNat).2)
  | .pop => (.popped ((SharixQueue.pop q).1.getD 0), (SharixQueue.pop q).2)

/-! ## Refinement -/

/-- The buffer holds the queue. -/
structure Holds (pkb : Keybuf) (q : List Nat) : Prop where
  ok : pkb.Ok
  chars : pkb.chars = q

theorem Holds.init : Holds keybufInit [] := ⟨⟨by decide, by decide⟩, contents_self _ _ _⟩

theorem keybufPushed_eq {pkb : Keybuf} (h : pkb.Ok) (ch : Byte) :
    keybufPushed pkb ch = if pkb.chars.length = 31 then (false, pkb) else (true, { pkb with
      data := Function.update pkb.data pkb.rear ch.toNat
      rear := next KEYBUFSIZE pkb.rear }) := by
  have hsize : KEYBUFSIZE = 32 := rfl
  have hf := h.front
  have hr := h.rear
  rw [Keybuf.chars, length_contents, waiting, keybufPushed]
  split_ifs <;> first | rfl | omega

theorem Holds.push {pkb : Keybuf} {q : List Nat} (h : Holds pkb q) (ch : Byte) :
    (keybufPushed pkb ch).1 = (SharixQueue.push 31 q ch.toNat).1 ∧
      Holds (keybufPushed pkb ch).2 (SharixQueue.push 31 q ch.toNat).2 := by
  have hlt := h.ok.length_lt
  have hsize : KEYBUFSIZE = 32 := rfl
  obtain ⟨hok, hchars⟩ := keybufPush_chars h.ok ch.toNat
  rw [← keybufPushed_snd] at hok hchars
  rw [Nat.mod_eq_of_lt ch.isLt] at hchars
  rw [h.chars] at hlt hchars
  rw [SharixQueue.push]
  have hdone : (keybufPushed pkb ch).1 = if q.length = 31 then false else true := by
    rw [keybufPushed_eq h.ok, h.chars]
    split_ifs <;> rfl
  by_cases hfull : q.length = 31
  · rw [if_pos hfull] at hdone hchars
    rw [if_neg (by omega)]
    exact ⟨hdone, hok, hchars⟩
  · rw [if_neg hfull] at hdone hchars
    rw [if_pos (by omega)]
    exact ⟨hdone, hok, hchars⟩

theorem Holds.pop {pkb : Keybuf} {q : List Nat} (h : Holds pkb q) :
    (keybufPop pkb).1 = (SharixQueue.pop q).1.getD 0 ∧
      Holds (keybufPop pkb).2 (SharixQueue.pop q).2 := by
  rcases keybufPop_chars h.ok with ⟨hnil, hpop⟩ | ⟨c, rest, hchars, hc, hok, hrest⟩
  · rw [h.chars] at hnil
    subst hnil
    rw [hpop]
    exact ⟨rfl, h⟩
  · rw [h.chars] at hchars
    subst hchars
    exact ⟨hc, hok, hrest⟩

/-- One call. -/
theorem Holds.step (pkb : Keybuf) (q : List Nat) (call : KeybufCall) (h : Holds pkb q) :
    (keybufStep pkb call).1 = (queueStep q call).1 ∧
      Holds (keybufStep pkb call).2 (queueStep q call).2 := by
  cases call with
  | push ch =>
      obtain ⟨hdone, hnext⟩ := h.push ch
      exact ⟨congrArg KeybufAnswer.pushed hdone, hnext⟩
  | pop =>
      obtain ⟨hc, hnext⟩ := h.pop
      exact ⟨congrArg KeybufAnswer.popped hc, hnext⟩

/-- **A QUEUE FOR 31 CHARACTERS**: after any calls both indexes are below 32,
    the calls have been answered as a queue answers them, and the characters of
    the queue are what waits; a push on a full queue and a pop on an empty one
    change nothing. -/
theorem keybuf_queue (calls : List KeybufCall) :
    let pkb := (answers keybufStep keybufInit calls).2
    let q := (answers queueStep [] calls).2
    pkb.front < 32 ∧ pkb.rear < 32 ∧
      (answers keybufStep keybufInit calls).1 = (answers queueStep [] calls).1 ∧
      pkb.chars = q ∧ q.length ≤ 31 ∧
      (q.length = 31 → ∀ ch, keybufPushed pkb ch = (false, pkb)) ∧
      (q = [] → keybufPop pkb = (0, pkb)) := by
  obtain ⟨hanswers, hholds⟩ := answers_refine Holds.step calls Holds.init
  have hlt := hholds.ok.length_lt
  rw [hholds.chars] at hlt
  refine ⟨hholds.ok.front, hholds.ok.rear, hanswers, hholds.chars, Nat.le_of_lt_succ hlt,
    fun hfull ch => ?_, fun hnil => ?_⟩
  · rw [keybufPushed_eq hholds.ok, hholds.chars, if_pos hfull]
  · rcases keybufPop_chars hholds.ok with ⟨-, hpop⟩ | ⟨c, rest, hchars, -⟩
    · exact hpop
    · rw [hholds.chars, hnil] at hchars
      exact nomatch hchars

/-- A character is pushed, and popped twice. -/
theorem keybuf_queue_one : (answers keybufStep keybufInit [.push 97, .pop, .pop]).1
    = [.pushed true, .popped 97, .popped 0] :=
  (keybuf_queue [.push 97, .pop, .pop]).2.2.1.trans (by decide)

end SharixKeyboard
