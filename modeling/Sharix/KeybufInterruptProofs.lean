import Sharix.KeybufQueueProofs
import Sharix.LinearProofs

/-! # Keyboard interrupts inside `keybuf_pop` — `stringbuffer.c`, `trap.c`

    `edit_readline` takes characters out of `kb` with interrupts enabled, and
    `trap_dispatch` puts them in: a push may come between any two accesses that
    `keybuf_pop` makes.  The handler itself is not interrupted, since its gate
    clears the interrupt flag.

    `front` is written by the reader only and `rear` by the handler only, so
    what the reader has loaded stays true.  In one place the buffer is not well
    formed in memory: `++pkb->front` may store 32, and a push that comes before
    the 0 is stored sees it.  The first test of `keybuf_push` then finds the
    full buffer in place of the second.

    A pop takes effect when it finds the buffer empty or when it stores the new
    `front`.  In the order in which they take effect, the calls of any run are
    answered as by a queue for 31 characters, and the states are those of calls
    made one after the other. -/

namespace SharixKeyboard

open SharixRing SharixQueue SharixRun SharixLinear

/-! ## `keybuf_pop` access by access -/

/-- What `keybuf_pop` does next, with what it has loaded. -/
inductive Pc where
  | call
  | testRear (front : Nat)
  | index
  | fetch (i : Nat)
  | incr (c : Nat)
  | store (c front : Nat)
  | wrap (c : Nat)
  | ret (c : Nat)
deriving DecidableEq

/-- One access to `*pkb`, or the return. -/
def popStep (kb : Keybuf) : Pc → Keybuf × Pc
  | .call => (kb, .testRear kb.front)
  | .testRear front => (kb, if front = kb.rear then .ret 0 else .index)
  | .index => (kb, .fetch kb.front)
  | .fetch i => (kb, .incr (kb.data i))
  | .incr c => (kb, .store c kb.front)
  | .store c front =>
      ({ kb with front := front + 1 }, if front + 1 = KEYBUFSIZE then .wrap c else .ret c)
  | .wrap c => ({ kb with front := 0 }, .ret c)
  | .ret _ => (kb, .call)

/-- The character that the next access takes out, 0 if it finds none. -/
def takes (kb : Keybuf) : Pc → Option Nat
  | .testRear front => if front = kb.rear then some 0 else none
  | .store c _ => some c
  | _ => none

/-- The character that is returned next. -/
def gives : Pc → Option Nat
  | .ret c => some c
  | _ => none

/-- The character taken out and not yet returned. -/
def unreturned : Pc → List Nat
  | .wrap c | .ret c => [c]
  | _ => []

/-- The buffer with `front` gone round. -/
def settled (kb : Keybuf) : Keybuf := if kb.front = KEYBUFSIZE then { kb with front := 0 } else kb

theorem unreturned_popStep (kb : Keybuf) (pc : Pc) :
    unreturned pc ++ (takes kb pc).toList = (gives pc).toList ++ unreturned (popStep kb pc).2 := by
  cases pc with
  | testRear front =>
      show [] ++ (if front = kb.rear then some 0 else none).toList
        = [] ++ unreturned (if front = kb.rear then Pc.ret 0 else .index)
      split <;> rfl
  | store c front =>
      show [] ++ [c] = [] ++ unreturned (if front + 1 = KEYBUFSIZE then Pc.wrap c else .ret c)
      split <;> rfl
  | _ => rfl

/-! ## What has been loaded stays true -/

/-- Between its accesses the reader has loaded what is in memory. -/
def Loaded (kb : Keybuf) : Pc → Prop
  | .call | .ret _ => kb.Ok
  | .testRear front => kb.Ok ∧ front = kb.front
  | .index => kb.Ok ∧ kb.front ≠ kb.rear
  | .fetch i => kb.Ok ∧ kb.front ≠ kb.rear ∧ i = kb.front
  | .incr c => kb.Ok ∧ kb.front ≠ kb.rear ∧ c = kb.data kb.front
  | .store c front => kb.Ok ∧ kb.front ≠ kb.rear ∧ c = kb.data kb.front ∧ front = kb.front
  | .wrap _ => kb.front = KEYBUFSIZE ∧ kb.rear < KEYBUFSIZE

theorem settled_of_ok {kb : Keybuf} (h : kb.Ok) : settled kb = kb :=
  if_neg (Nat.ne_of_lt h.front)

theorem Loaded.ok_or {kb : Keybuf} {pc : Pc} (h : Loaded kb pc) :
    kb.Ok ∨ kb.front = KEYBUFSIZE ∧ kb.rear < KEYBUFSIZE := by
  cases pc with
  | call | ret => exact .inl h
  | wrap => exact .inr h
  | _ => exact .inl h.1

/-- What `trap_dispatch` pushes is one byte. -/
theorem keybufPush_byte (kb : Keybuf) (c : Nat) :
    keybufPush kb c = (keybufPushed kb (BitVec.ofNat 8 c)).2 := by
  rw [keybufPushed_snd, BitVec.toNat_ofNat, keybufPush, keybufPush, Nat.mod_mod]

/-- A push leaves `front` and the character there. -/
theorem keybufPushed_front {kb : Keybuf} (h : kb.Ok) (ch : Byte) :
    (keybufPushed kb ch).2.Ok ∧ (keybufPushed kb ch).2.front = kb.front ∧
      (kb.front ≠ kb.rear → kb.front ≠ (keybufPushed kb ch).2.rear ∧
        (keybufPushed kb ch).2.data kb.front = kb.data kb.front) := by
  have hsize : KEYBUFSIZE = 32 := rfl
  have hf := h.front
  have hr := h.rear
  rw [keybufPushed]
  by_cases h1 : (kb.front : Int) - kb.rear = 1
  · rw [if_pos h1]
    exact ⟨h, rfl, fun hne => ⟨hne, rfl⟩⟩
  · rw [if_neg h1]
    by_cases h2 : kb.front = 0 ∧ kb.rear = 31
    · rw [if_pos h2]
      exact ⟨h, rfl, fun hne => ⟨hne, rfl⟩⟩
    · rw [if_neg h2]
      refine ⟨⟨h.front, next_lt h.rear⟩, rfl, fun hne => ⟨?_, Function.update_of_ne hne _ _⟩⟩
      show kb.front ≠ next KEYBUFSIZE kb.rear
      rw [next]
      split <;> omega

theorem Loaded.push {kb : Keybuf} {pc : Pc} (h : Loaded kb pc) (ch : Byte) :
    Loaded (keybufPushed kb ch).2 pc := by
  rcases h.ok_or with hok | ⟨h32, hr⟩
  · obtain ⟨hok', hfront, hkeep⟩ := keybufPushed_front hok ch
    cases pc with
    | call | ret => exact hok'
    | testRear front => exact ⟨hok', h.2.trans hfront.symm⟩
    | index => exact ⟨hok', by rw [hfront]; exact (hkeep h.2).1⟩
    | fetch i =>
        refine ⟨hok', ?_, h.2.2.trans hfront.symm⟩
        rw [hfront]
        exact (hkeep h.2.1).1
    | incr c =>
        obtain ⟨hrear, hdata⟩ := hkeep h.2.1
        refine ⟨hok', ?_, ?_⟩
        · rw [hfront]
          exact hrear
        · rw [hfront, hdata]
          exact h.2.2
    | store c front =>
        obtain ⟨hrear, hdata⟩ := hkeep h.2.1
        refine ⟨hok', ?_, ?_, h.2.2.2.trans hfront.symm⟩
        · rw [hfront]
          exact hrear
        · rw [hfront, hdata]
          exact h.2.2.1
    | wrap c => exact absurd h.1 (Nat.ne_of_lt hok.front)
  · -- only at `wrap` is 32 stored
    have hpc : ∃ c, pc = .wrap c := by
      cases pc with
      | wrap c => exact ⟨c, rfl⟩
      | call | ret => exact absurd h32 (Nat.ne_of_lt h.front)
      | _ => exact absurd h32 (Nat.ne_of_lt h.1.front)
    obtain ⟨c, rfl⟩ := hpc
    rw [keybufPushed]
    split_ifs
    · exact ⟨h32, hr⟩
    · exact ⟨h32, hr⟩
    · exact ⟨h32, next_lt hr⟩

/-- A push does the same before and after `front` has gone round. -/
theorem Loaded.push_settled {kb : Keybuf} {pc : Pc} (h : Loaded kb pc) (ch : Byte) :
    keybufPushed (settled kb) ch
      = ((keybufPushed kb ch).1, settled (keybufPushed kb ch).2) := by
  have hsize : KEYBUFSIZE = 32 := rfl
  rcases h.ok_or with hok | ⟨h32, hr⟩
  · rw [settled_of_ok hok, settled_of_ok (keybufPushed_front hok ch).1]
  · have hset : settled kb = { kb with front := 0 } := if_pos h32
    rw [hset, keybufPushed, keybufPushed]
    by_cases hfull : kb.rear = 31
    · rw [if_neg (by show ¬ ((0 : Nat) : Int) - kb.rear = 1; omega), if_pos ⟨rfl, hfull⟩,
        if_pos (by omega), hset]
    · rw [if_neg (by show ¬ ((0 : Nat) : Int) - kb.rear = 1; omega),
        if_neg (fun h => hfull h.2), if_neg (by omega), if_neg (by omega)]
      exact congrArg (Prod.mk true) (if_pos h32).symm

/-- An access that is not the taking one. -/
theorem no_takes {kb : Keybuf} {pc : Pc} {P : Nat → Prop} (h : takes kb pc = none) :
    ∀ c, takes kb pc = some c → P c := by
  intro c hc
  exact absurd (h.symm.trans hc).symm (Option.some_ne_none c)

/-- One access of the reader: it takes effect at once as the whole of
    `keybuf_pop`, or not at all. -/
theorem Loaded.pop {kb : Keybuf} {pc : Pc} (h : Loaded kb pc) :
    Loaded (popStep kb pc).1 (popStep kb pc).2 ∧
      (takes kb pc = none → settled (popStep kb pc).1 = settled kb) ∧
      ∀ c, takes kb pc = some c → keybufPop (settled kb) = (c, settled (popStep kb pc).1) := by
  cases pc with
  | call => exact ⟨⟨h, rfl⟩, fun _ => rfl, no_takes rfl⟩
  | testRear front =>
      obtain ⟨hok, rfl⟩ := h
      by_cases hempty : kb.front = kb.rear
      · have hstep : popStep kb (.testRear kb.front) = (kb, .ret 0) := by
          rw [popStep, if_pos hempty]
        have htakes : takes kb (.testRear kb.front) = some 0 := by rw [takes, if_pos hempty]
        rw [hstep, htakes, settled_of_ok hok]
        refine ⟨hok, by simp, fun c hc => ?_⟩
        rw [← Option.some.inj hc, keybufPop, if_pos hempty]
      · have hstep : popStep kb (.testRear kb.front) = (kb, .index) := by
          rw [popStep, if_neg hempty]
        have htakes : takes kb (.testRear kb.front) = none := by rw [takes, if_neg hempty]
        rw [hstep]
        exact ⟨⟨hok, hempty⟩, fun _ => rfl, no_takes htakes⟩
  | index => exact ⟨⟨h.1, h.2, rfl⟩, fun _ => rfl, no_takes rfl⟩
  | fetch i =>
      obtain ⟨hok, hne, rfl⟩ := h
      exact ⟨⟨hok, hne, rfl⟩, fun _ => rfl, no_takes rfl⟩
  | incr c => exact ⟨⟨h.1, h.2.1, h.2.2, rfl⟩, fun _ => rfl, no_takes rfl⟩
  | store c front =>
      obtain ⟨hok, hne, rfl, rfl⟩ := h
      have hpop : keybufPop (settled kb)
          = (kb.data kb.front, { kb with front := next KEYBUFSIZE kb.front }) := by
        rw [settled_of_ok hok, keybufPop, if_neg hne]
      refine ⟨?_, fun hnone => absurd hnone (Option.some_ne_none _), fun c hc => ?_⟩
      · show Loaded { kb with front := kb.front + 1 }
          (if kb.front + 1 = KEYBUFSIZE then Pc.wrap (kb.data kb.front)
            else .ret (kb.data kb.front))
        by_cases hlast : kb.front + 1 = KEYBUFSIZE
        · rw [if_pos hlast]
          exact ⟨hlast, hok.rear⟩
        · rw [if_neg hlast]
          exact ⟨Nat.lt_of_le_of_ne hok.front hlast, hok.rear⟩
      · rw [hpop, ← Option.some.inj hc]
        show _ = (_, settled { kb with front := kb.front + 1 })
        rw [settled, next]
        by_cases hlast : kb.front + 1 = KEYBUFSIZE
        · rw [if_pos hlast, if_pos hlast]
        · rw [if_neg hlast, if_neg hlast]
  | wrap c =>
      refine ⟨⟨(by decide : 0 < KEYBUFSIZE), h.2⟩, fun _ => ?_, no_takes rfl⟩
      rw [settled, settled, if_pos h.1]
      exact if_neg (show ¬ 0 = KEYBUFSIZE by decide)
  | ret c => exact ⟨h, fun _ => rfl, no_takes rfl⟩

/-! ## Pushes between the accesses -/

/-- The reader goes on, or an interrupt pushes a character. -/
inductive Tick where
  | read
  | intr (ch : Byte)

/-- The buffer, the reader, and as a ghost all that it has been returned. -/
structure Reader where
  kb : Keybuf
  pc : Pc
  returned : List Nat

def readerStart : Reader := ⟨keybufInit, .call, []⟩

def readerStep (s : Reader) : Tick → Reader
  | .read => ⟨(popStep s.kb s.pc).1, (popStep s.kb s.pc).2, s.returned ++ (gives s.pc).toList⟩
  | .intr ch => { s with kb := (keybufPushed s.kb ch).2 }

/-- The call that takes effect, with its answer. -/
def readerCommit (s : Reader) : Tick → Option (KeybufCall × KeybufAnswer)
  | .read => (takes s.kb s.pc).map fun c => (.pop, .popped c)
  | .intr ch => some (.push ch, .pushed (keybufPushed s.kb ch).1)

/-- The buffer of the calls that have taken effect. -/
def Reads (s : Reader) (kb : Keybuf) : Prop := Loaded s.kb s.pc ∧ kb = settled s.kb

theorem Reads.stay (s : Reader) (kb : Keybuf) (e : Tick) (h : Reads s kb)
    (hc : readerCommit s e = none) : Reads (readerStep s e) kb := by
  cases e with
  | read =>
      obtain ⟨hloaded, hstay, -⟩ := h.1.pop
      exact ⟨hloaded, h.2.trans (hstay (Option.map_eq_none_iff.mp hc)).symm⟩
  | intr ch => exact nomatch hc

theorem Reads.commit (s : Reader) (kb : Keybuf) (e : Tick) (r : KeybufCall × KeybufAnswer)
    (h : Reads s kb) (hc : readerCommit s e = some r) :
    (keybufStep kb r.1).1 = r.2 ∧ Reads (readerStep s e) (keybufStep kb r.1).2 := by
  obtain ⟨hloaded, rfl⟩ := h
  cases e with
  | read =>
      obtain ⟨c, htakes, rfl⟩ := Option.map_eq_some_iff.mp hc
      obtain ⟨hnext, -, htake⟩ := hloaded.pop
      have hpop := htake c htakes
      refine ⟨?_, hnext, congrArg Prod.snd hpop⟩
      show KeybufAnswer.popped (keybufPop (settled s.kb)).1 = _
      rw [hpop]
  | intr ch =>
      obtain rfl := Option.some.inj hc
      have hpush := hloaded.push_settled ch
      refine ⟨?_, hloaded.push ch, congrArg Prod.snd hpush⟩
      show KeybufAnswer.pushed (keybufPushed (settled s.kb) ch).1 = _
      rw [hpush]

/-- The characters that pops answer. -/
def popsIn : KeybufCall × KeybufAnswer → List Nat
  | (_, .popped c) => [c]
  | _ => []

/-- The characters that interrupts push. -/
def pushesIn : KeybufCall × KeybufAnswer → List Byte
  | (.push ch, _) => [ch]
  | _ => []

def Tick.pushes : Tick → List Byte
  | .intr ch => [ch]
  | .read => []

theorem readerStep_pops (s : Reader) (e : Tick) :
    (s.returned ++ unreturned s.pc) ++ (readerCommit s e).toList.flatMap popsIn
      = (readerStep s e).returned ++ unreturned (readerStep s e).pc := by
  cases e with
  | read =>
      have hpops : (readerCommit s .read).toList.flatMap popsIn = (takes s.kb s.pc).toList := by
        rw [readerCommit]
        cases takes s.kb s.pc <;> rfl
      rw [hpops, List.append_assoc, unreturned_popStep, ← List.append_assoc]
      rfl
  | intr ch => exact List.append_nil _

theorem trace_pushes (es : List Tick) : ∀ s : Reader,
    (trace readerStep readerCommit s es).flatMap pushesIn = es.flatMap Tick.pushes := by
  induction es with
  | nil => exact fun _ => rfl
  | cons e es ih =>
      intro s
      have hone : (readerCommit s e).toList.flatMap pushesIn = e.pushes := by
        cases e with
        | read =>
            rw [readerCommit]
            cases takes s.kb s.pc <;> rfl
        | intr ch => rfl
      rw [trace, List.flatMap_append, ih, List.flatMap_cons, hone]

/-- **`keybuf_pop` MAY BE INTERRUPTED ANYWHERE**: whatever is pushed between its
    accesses, the calls in the order in which they take effect are answered as
    by a queue for 31 characters, and its characters are what waits.  The
    reader is returned these answers, and the pushes are the interrupts. -/
theorem keybuf_pop_interrupted (es : List Tick) :
    let s := es.foldl readerStep readerStart
    let t := trace readerStep readerCommit readerStart es
    (answers queueStep [] (t.map Prod.fst)).1 = t.map Prod.snd ∧
      (answers queueStep [] (t.map Prod.fst)).2 = (settled s.kb).chars ∧
      t.flatMap popsIn = s.returned ++ unreturned s.pc ∧
      t.flatMap pushesIn = es.flatMap Tick.pushes := by
  intro s t
  have hstart : Reads readerStart keybufInit :=
    ⟨(⟨by decide, by decide⟩ : keybufInit.Ok), rfl⟩
  obtain ⟨hanswers, -, hkb⟩ := trace_refine Reads.stay Reads.commit es hstart
  obtain ⟨hqueue, hholds⟩ := answers_refine Holds.step (t.map Prod.fst) Holds.init
  refine ⟨hqueue.symm.trans hanswers, ?_, ?_, trace_pushes es readerStart⟩
  · rw [← hkb]
    exact hholds.chars.symm
  · have hlog := trace_log readerStep_pops es readerStart
    exact hlog

/-! ## The whole way of a character -/

/-- The reader goes on, or the keyboard interrupts with the bytes it has. -/
inductive KbdTick where
  | read
  | kbd (data : List Byte)

/-- A step of the reader or the whole of `trap_dispatch`. -/
def kbdStep (s : World × Pc) : KbdTick → World × Pc
  | .read =>
      ({ s.1 with
        kb := (popStep s.1.kb s.2).1
        popped := s.1.popped ++ (gives s.2).toList.filter (· ≠ 0) }, (popStep s.1.kb s.2).2)
  | .kbd data => (step s.1 (.kbd data), s.2)

/-- The event that takes effect. -/
def kbdCommit (s : World × Pc) : KbdTick → Option (Event × Unit)
  | .read => (takes s.1.kb s.2).map fun _ => (.pop, ())
  | .kbd data => some (.kbd data, ())

/-- The world of the events that have taken effect. -/
def settledWorld (s : World × Pc) : World :=
  { s.1 with
    kb := settled s.1.kb
    popped := s.1.popped ++ (unreturned s.2).filter (· ≠ 0) }

/-- The bytes of the interrupts. -/
def interruptsIn : Event → List (List Byte)
  | .kbd data => [data]
  | .pop => []

def KbdTick.kbds : KbdTick → List (List Byte)
  | .kbd data => [data]
  | .read => []

def KbdReads (s : World × Pc) (w : World) : Prop := Loaded s.1.kb s.2 ∧ w = settledWorld s

/-- The machine of whole events, which answers nothing. -/
def eventStep (w : World) (e : Event) : Unit × World := ((), step w e)

theorem answers_eventStep (events : List Event) : ∀ w : World,
    (answers eventStep w events).2 = events.foldl step w := by
  induction events with
  | nil => exact fun _ => rfl
  | cons e events ih => exact fun w => ih (step w e)

theorem popped_step (kb : Keybuf) (pc : Pc) (popped : List Nat) :
    popped ++ (unreturned pc).filter (· ≠ 0) ++ (takes kb pc).toList.filter (· ≠ 0)
      = popped ++ (gives pc).toList.filter (· ≠ 0)
        ++ (unreturned (popStep kb pc).2).filter (· ≠ 0) := by
  rw [List.append_assoc, List.append_assoc, ← List.filter_append, ← List.filter_append,
    unreturned_popStep]

theorem KbdReads.stay (s : World × Pc) (w : World) (e : KbdTick) (h : KbdReads s w)
    (hc : kbdCommit s e = none) : KbdReads (kbdStep s e) w := by
  cases e with
  | read =>
      obtain ⟨hloaded, hstay, -⟩ := h.1.pop
      have hnone : takes s.1.kb s.2 = none := Option.map_eq_none_iff.mp hc
      have hpopped := popped_step s.1.kb s.2 s.1.popped
      rw [hnone, Option.toList_none, List.filter_nil, List.append_nil] at hpopped
      refine ⟨hloaded, h.2.trans ?_⟩
      rw [settledWorld, hpopped, ← hstay hnone]
      rfl
  | kbd data => exact nomatch hc

theorem KbdReads.commit (s : World × Pc) (w : World) (e : KbdTick) (r : Event × Unit)
    (h : KbdReads s w) (hc : kbdCommit s e = some r) :
    (eventStep w r.1).1 = r.2 ∧ KbdReads (kbdStep s e) (eventStep w r.1).2 := by
  obtain ⟨hloaded, rfl⟩ := h
  cases e with
  | read =>
      obtain ⟨c, htakes, rfl⟩ := Option.map_eq_some_iff.mp hc
      obtain ⟨hnext, -, htake⟩ := hloaded.pop
      have hpop := htake c htakes
      have hpopped := popped_step s.1.kb s.2 s.1.popped
      rw [htakes, Option.toList_some] at hpopped
      refine ⟨rfl, hnext, ?_⟩
      show ({ settledWorld s with
        kb := (keybufPop (settled s.1.kb)).2
        popped := if (keybufPop (settled s.1.kb)).1 ≠ 0
          then (settledWorld s).popped ++ [(keybufPop (settled s.1.kb)).1]
          else (settledWorld s).popped } : World) = settledWorld (kbdStep s .read)
      rw [hpop]
      have hsingle : (if c ≠ 0 then (settledWorld s).popped ++ [c] else (settledWorld s).popped)
          = (settledWorld s).popped ++ [c].filter (· ≠ 0) := by
        by_cases h0 : c = 0
        · subst h0
          exact (List.append_nil _).symm
        · rw [if_pos h0]
          simp [h0]
      have hall : (settledWorld s).popped ++ [c].filter (· ≠ 0)
          = (settledWorld (kbdStep s .read)).popped := hpopped
      simp only [hsingle, hall]
      rfl
  | kbd data =>
      obtain rfl := Option.some.inj hc
      obtain ⟨ch, hch⟩ : ∃ ch, ch = BitVec.ofNat 8 (consGetc data s.1.shift s.1.cons).1 :=
        ⟨_, rfl⟩
      have hkb : (kbdStep s (.kbd data)).1.kb = (keybufPushed s.1.kb ch).2 := by
        rw [hch]
        exact keybufPush_byte _ _
      have hsettled : (step (settledWorld s) (.kbd data)).kb
          = settled (kbdStep s (.kbd data)).1.kb := by
        rw [hkb, hch]
        exact (keybufPush_byte _ _).trans (congrArg Prod.snd (hloaded.push_settled _))
      refine ⟨rfl, ?_, ?_⟩
      · show Loaded (kbdStep s (.kbd data)).1.kb s.2
        rw [hkb]
        exact hloaded.push ch
      · show step (settledWorld s) (.kbd data) = settledWorld (kbdStep s (.kbd data))
        rw [show settledWorld (kbdStep s (.kbd data))
          = { settledWorld (kbdStep s (.kbd data)) with
              kb := settled (kbdStep s (.kbd data)).1.kb } from rfl, ← hsettled]
        rfl

theorem trace_events (es : List KbdTick) : ∀ s : World × Pc,
    (trace kbdStep kbdCommit s es).flatMap (fun r => interruptsIn r.1)
      = es.flatMap KbdTick.kbds := by
  induction es with
  | nil => exact fun _ => rfl
  | cons e es ih =>
      intro s
      have hone : (kbdCommit s e).toList.flatMap (fun r => interruptsIn r.1) = e.kbds := by
        cases e with
        | read =>
            rw [kbdCommit]
            cases takes s.1.kb s.2 <;> rfl
        | kbd data => rfl
      rw [trace, List.flatMap_append, ih, List.flatMap_cons, hone]

/-- A reader between two calls has nothing outstanding. -/
theorem settledWorld_call {w : World} (h : w.kb.Ok) : settledWorld (w, .call) = w := by
  rw [settledWorld, settled_of_ok h]
  exact congrArg (fun l => { w with popped := l }) (List.append_nil _)

/-- **INTERRUPTS AND POPS MIGHT AS WELL TAKE TURNS**: every run in which the
    keyboard interrupts `keybuf_pop` anywhere ends in the state of a run of
    whole events with the same interrupts, up to the pop that has not returned,
    if the reader is in one. -/
theorem interrupted_run_orderly (data : List Byte) (es : List KbdTick) :
    ∃ events : List Event,
      settledWorld (es.foldl kbdStep (start data, .call)) = events.foldl step (start data) ∧
        ((es.foldl kbdStep (start data, .call)).2 = .call →
          (es.foldl kbdStep (start data, .call)).1 = events.foldl step (start data)) ∧
        events.flatMap interruptsIn = es.flatMap KbdTick.kbds := by
  have hstart : KbdReads (start data, .call) (start data) := by
    have hok : (start data).kb.Ok := (⟨by decide, by decide⟩ : keybufInit.Ok)
    exact ⟨hok, (settledWorld_call hok).symm⟩
  obtain ⟨-, hloaded, hworld⟩ := trace_refine KbdReads.stay KbdReads.commit es hstart
  rw [answers_eventStep] at hworld
  refine ⟨(trace kbdStep kbdCommit (start data, .call) es).map Prod.fst, hworld.symm,
    fun hcall => ?_, ?_⟩
  · rw [hworld]
    generalize es.foldl kbdStep (start data, .call) = s at hloaded hcall
    obtain ⟨w, pc⟩ := s
    obtain rfl : pc = .call := hcall
    exact (settledWorld_call hloaded).symm
  · rw [List.flatMap_map]
    exact trace_events es _

end SharixKeyboard
