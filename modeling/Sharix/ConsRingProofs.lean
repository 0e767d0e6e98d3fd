import Sharix.KeyboardProofs

/-! # The console ring over a run — `console.c`

    `cons_intr` puts in whatever the device answers until it answers -1, and
    never looks at `rpos`.  A write that meets `rpos` makes the ring look empty:
    the characters in it are gone, but those that come later are still read in
    order.  With no more than 511 characters fed and not yet read there is no
    such write (`consRun_keeps`). -/

namespace SharixKeyboard

open SharixRing

/-! ## The model -/

/-- `cons_intr`, on what the device answers before it answers -1. -/
def consFeed (cs : List Byte) (cons : Cons) : Cons :=
  cs.foldl (fun cons c => if c ≠ 0 then cons.put c.toNat else cons) cons

/-- `cons_getc`, on what its `kbd_intr` is answered. -/
def consRead (cs : List Byte) (cons : Cons) : Nat × Cons :=
  let cons := consFeed cs cons
  if cons.rpos ≠ cons.wpos then
    (cons.buf cons.rpos, { cons with rpos := next CONSBUFSIZE cons.rpos })
  else (0, cons)

/-- What `kbd_proc_data` answers to some bytes. -/
def kbdAnswers : BitVec 32 → List Byte → List Byte
  | _, [] => []
  | shift, data :: rest =>
      let r := kbdProcData shift data
      BitVec.ofNat 8 r.1 :: kbdAnswers r.2 rest

theorem toNat_answer (shift : BitVec 32) (d : Byte) :
    (BitVec.ofNat 8 (kbdProcData shift d).1).toNat = (kbdProcData shift d).1 := by
  rw [BitVec.toNat_ofNat]
  exact Nat.mod_eq_of_lt (kbdProcData_lt shift d)

/-- The keyboard is a device. -/
theorem consIntr_feed (data : List Byte) : ∀ (shift : BitVec 32) (cons : Cons),
    (consIntr data shift cons).2 = consFeed (kbdAnswers shift data) cons := by
  induction data with
  | nil => exact fun _ _ => rfl
  | cons d rest ih =>
      intro shift cons
      rw [consIntr, ih, kbdAnswers, consFeed, consFeed, List.foldl_cons, toNat_answer]
      congr 1
      have hzero : BitVec.ofNat 8 (kbdProcData shift d).1 ≠ 0 ↔ (kbdProcData shift d).1 ≠ 0 := by
        rw [← toNat_answer shift d]
        simp [BitVec.toNat_eq]
      by_cases hne : (kbdProcData shift d).1 ≠ 0
      · rw [if_pos hne, if_pos (hzero.mpr hne)]
      · rw [if_neg hne, if_neg (mt hzero.mp hne)]

theorem consGetc_read (data : List Byte) (shift : BitVec 32) (cons : Cons) :
    (consGetc data shift cons).1 = (consRead (kbdAnswers shift data) cons).1 ∧
      (consGetc data shift cons).2.2 = (consRead (kbdAnswers shift data) cons).2 := by
  rw [consGetc, consRead, ← consIntr_feed]
  dsimp only
  split_ifs with hne
  · exact ⟨rfl, rfl⟩
  · exact ⟨rfl, rfl⟩

/-! ## Runs -/

/-- A call of `cons_intr` or `cons_getc`, with what the device answers. -/
inductive ConsEvent where
  | intr (cs : List Byte)
  | getc (cs : List Byte)

/-- The answers of the device. -/
def ConsEvent.answers : ConsEvent → List Byte
  | .intr cs | .getc cs => cs

/-- The ring, and as ghosts the characters fed and those that `cons_getc`
    returned. -/
structure ConsWorld where
  cons : Cons
  fed : List Nat
  got : List Nat

def ConsWorld.start : ConsWorld := ⟨⟨fun _ => 0, 0, 0⟩, [], []⟩

/-- The characters among the answers. -/
def charsIn (cs : List Byte) : List Nat := (cs.filter (· ≠ 0)).map BitVec.toNat

def consStep (w : ConsWorld) : ConsEvent → ConsWorld
  | .intr cs => { w with cons := consFeed cs w.cons, fed := w.fed ++ charsIn cs }
  | .getc cs =>
      let r := consRead cs w.cons
      { cons := r.2
        fed := w.fed ++ charsIn cs
        got := if r.1 ≠ 0 then w.got ++ [r.1] else w.got }

def consRun (w : ConsWorld) (es : List ConsEvent) : ConsWorld := es.foldl consStep w

/-- How many characters are fed and not read, at most, during the event. -/
def unread (w : ConsWorld) (e : ConsEvent) : Nat :=
  w.fed.length + (charsIn e.answers).length - w.got.length

/-- There is room throughout. -/
def Roomy : ConsWorld → List ConsEvent → Prop
  | _, [] => True
  | w, e :: es => unread w e ≤ CONSBUFSIZE - 1 ∧ Roomy (consStep w e) es

/-! ## Feeding -/

/-- What is read, lost and waiting: the ring holds the last characters fed, and
    what was read comes from those before. -/
structure ConsInv (w : ConsWorld) : Prop where
  ok : w.cons.Ok
  history : ∃ pre, w.fed = pre ++ w.cons.chars ∧ w.got.Sublist pre
  nonzero : ∀ c ∈ w.fed, c ≠ 0

theorem consFeed_eq (cs : List Byte) : ∀ (cons : Cons),
    consFeed cs cons = (charsIn cs).foldl Cons.put cons := by
  induction cs with
  | nil => exact fun _ => rfl
  | cons c cs ih =>
      intro cons
      rw [consFeed, List.foldl_cons]
      by_cases hc : c ≠ 0
      · rw [if_pos hc, charsIn, List.filter_cons_of_pos (by simpa using hc)]
        exact ih _
      · rw [if_neg hc, charsIn, List.filter_cons_of_neg (by simpa using hc)]
        exact ih _

theorem charsIn_mem {cs : List Byte} {c : Nat} (hc : c ∈ charsIn cs) : c ≠ 0 ∧ c < 256 := by
  obtain ⟨b, hb, rfl⟩ := List.mem_map.mp hc
  have hne : b ≠ 0 := by simpa using List.of_mem_filter hb
  exact ⟨fun h => hne (BitVec.eq_of_toNat_eq h), b.isLt⟩

/-- Characters move the past of the ring on, or stay in it. -/
theorem puts_history {cs : List Nat} (hcs : ∀ c ∈ cs, c < 256) :
    ∀ {cons : Cons} {fed pre : List Nat}, cons.Ok → fed = pre ++ cons.chars →
      ∃ lost, fed ++ cs = pre ++ lost ++ (cs.foldl Cons.put cons).chars := by
  induction cs with
  | nil => exact fun _ h => ⟨[], by simpa using h⟩
  | cons c cs ih =>
      intro cons fed pre hok hfed
      have hput := Cons.put_chars hok (hcs c (List.mem_cons_self ..))
      have hcs' : ∀ x ∈ cs, x < 256 := fun x hx => hcs x (List.mem_cons_of_mem _ hx)
      rw [List.append_cons, List.foldl_cons]
      by_cases hfull : cons.chars.length + 1 = CONSBUFSIZE
      · -- `wpos` meets `rpos`: the ring counts as empty, and all it held is past
        rw [if_pos hfull] at hput
        have hfed' : fed ++ [c] = (pre ++ cons.chars ++ [c]) ++ (cons.put c).chars := by
          rw [hput, hfed, List.append_nil]
        obtain ⟨lost, hlost⟩ := ih hcs' (cons.put_ok hok c) hfed'
        exact ⟨cons.chars ++ [c] ++ lost, by rw [hlost]; simp⟩
      · rw [if_neg hfull] at hput
        have hfed' : fed ++ [c] = pre ++ (cons.put c).chars := by
          rw [hput, hfed, List.append_assoc]
        obtain ⟨lost, hlost⟩ := ih hcs' (cons.put_ok hok c) hfed'
        exact ⟨lost, hlost⟩

theorem consFeed_ok (cs : List Byte) {cons : Cons} (h : cons.Ok) : (consFeed cs cons).Ok := by
  rw [consFeed_eq]
  exact (puts_chars (fun c hc => (charsIn_mem hc).2) h).1

/-- With room for them the characters fed come to wait behind the others. -/
theorem consFeed_chars {cs : List Byte} {cons : Cons} (h : cons.Ok)
    (hroom : cons.chars.length + (charsIn cs).length < CONSBUFSIZE) :
    (consFeed cs cons).chars = cons.chars ++ charsIn cs := by
  rw [consFeed_eq]
  exact (puts_chars (fun c hc => (charsIn_mem hc).2) h).2.2.2 hroom

/-- A read takes the first character that waits, if one does. -/
theorem consRead_chars (cs : List Byte) {cons : Cons} (h : cons.Ok) :
    (consRead cs cons).2.Ok ∧
      (((consFeed cs cons).chars = [] ∧ consRead cs cons = (0, consFeed cs cons)) ∨
        (consFeed cs cons).chars = (consRead cs cons).1 :: (consRead cs cons).2.chars) := by
  have hok := consFeed_ok cs h
  rw [consRead]
  by_cases hne : (consFeed cs cons).rpos = (consFeed cs cons).wpos
  · rw [if_neg (not_not_intro hne)]
    refine ⟨hok, .inl ⟨?_, rfl⟩⟩
    rw [Cons.chars, hne]
    exact contents_self _ _ _
  · rw [if_pos hne]
    exact ⟨⟨next_lt hok.rpos, hok.wpos⟩, .inr (contents_pop hok.rpos hok.wpos _ hne)⟩

/-! ## What every run keeps -/

theorem ConsInv.start : ConsInv ConsWorld.start where
  ok := ⟨by decide, by decide⟩
  history := ⟨[], (contents_self _ _ _).symm, List.Sublist.refl _⟩
  nonzero := by simp [ConsWorld.start]

/-- The ring after the device has been polled. -/
theorem ConsInv.feed {w : ConsWorld} (h : ConsInv w) (cs : List Byte) :
    ConsInv { w with cons := consFeed cs w.cons, fed := w.fed ++ charsIn cs } := by
  obtain ⟨pre, hfed, hgot⟩ := h.history
  refine ⟨consFeed_ok cs h.ok, ?_, fun c hc => ?_⟩
  · obtain ⟨lost, hlost⟩ := puts_history (fun c hc => (charsIn_mem hc).2) h.ok hfed
    refine ⟨pre ++ lost, ?_, hgot.trans (List.sublist_append_left ..)⟩
    rw [hlost, consFeed_eq]
  · rcases List.mem_append.mp hc with hc | hc
    · exact h.nonzero c hc
    · exact (charsIn_mem hc).1

/-- What waits first is a character that was fed. -/
theorem ConsInv.head_ne_zero {w : ConsWorld} (h : ConsInv w) {c : Nat} {rest : List Nat}
    (hc : w.cons.chars = c :: rest) : c ≠ 0 := by
  obtain ⟨pre, hfed, -⟩ := h.history
  refine h.nonzero c ?_
  rw [hfed, hc]
  exact List.mem_append_right _ (List.mem_cons_self ..)

theorem ConsInv.step {w : ConsWorld} (h : ConsInv w) (e : ConsEvent) :
    ConsInv (consStep w e) := by
  cases e with
  | intr cs => exact h.feed cs
  | getc cs =>
      obtain ⟨hok, hread⟩ := consRead_chars cs h.ok
      have hpoll := h.feed cs
      obtain ⟨pre, hfed, hgot⟩ := hpoll.history
      refine ⟨hok, ?_, hpoll.nonzero⟩
      rcases hread with ⟨hnil, hzero⟩ | hcons
      · refine ⟨pre, ?_, ?_⟩
        · show w.fed ++ charsIn cs = pre ++ (consRead cs w.cons).2.chars
          rw [hzero]
          exact hfed
        · show List.Sublist (if (consRead cs w.cons).1 ≠ 0 then _ else _) pre
          rw [hzero, if_neg (by simp)]
          exact hgot
      · have hfed' : w.fed ++ charsIn cs = pre ++ (consFeed cs w.cons).chars := hfed
        rw [hcons] at hfed'
        have hne : (consRead cs w.cons).1 ≠ 0 := hpoll.head_ne_zero hcons
        -- what is read leaves the ring and belongs to its past
        refine ⟨pre ++ [(consRead cs w.cons).1], ?_, ?_⟩
        · show w.fed ++ charsIn cs = _
          rw [hfed', List.append_assoc]
          rfl
        · show List.Sublist (if (consRead cs w.cons).1 ≠ 0 then w.got ++ [_] else _) _
          rw [if_pos hne]
          exact hgot.append (List.Sublist.refl _)

theorem ConsInv.run (es : List ConsEvent) : ∀ {w : ConsWorld}, ConsInv w →
    ConsInv (consRun w es) := by
  induction es with
  | nil => exact fun h => h
  | cons e es ih => exact fun h => ih (h.step e)

/-! ## Runs with room -/

/-- Nothing is lost: what was fed was read or waits. -/
def Complete (w : ConsWorld) : Prop := w.fed = w.got ++ w.cons.chars

/-- A step with room loses nothing, and a 0 means that everything fed has been
    read. -/
theorem Complete.step {w : ConsWorld} (hinv : ConsInv w) (h : Complete w) {e : ConsEvent}
    (hroom : unread w e ≤ CONSBUFSIZE - 1) :
    Complete (consStep w e) ∧ ∀ cs, e = .getc cs → (consRead cs w.cons).1 = 0 →
      w.got = w.fed ++ charsIn cs := by
  have hsize : CONSBUFSIZE = 512 := rfl
  have hlen : w.fed.length = w.got.length + w.cons.chars.length := by
    rw [h, List.length_append]
  have hfeed : ∀ cs, cs = e.answers →
      (consFeed cs w.cons).chars = w.cons.chars ++ charsIn cs := by
    rintro cs rfl
    refine consFeed_chars hinv.ok ?_
    unfold unread at hroom
    omega
  have hfed : ∀ cs, w.fed ++ charsIn cs = w.got ++ (w.cons.chars ++ charsIn cs) := by
    intro cs
    rw [h, List.append_assoc]
  cases e with
  | intr cs =>
      refine ⟨?_, fun _ h => nomatch h⟩
      show w.fed ++ charsIn cs = w.got ++ (consFeed cs w.cons).chars
      rw [hfeed cs rfl, hfed]
  | getc cs =>
      obtain ⟨hok, hread⟩ := consRead_chars cs hinv.ok
      rcases hread with ⟨hnil, hzero⟩ | hcons
      · have hall : w.fed ++ charsIn cs = w.got := by
          rw [hfed, ← hfeed cs rfl, hnil, List.append_nil]
        constructor
        · show w.fed ++ charsIn cs
            = (if (consRead cs w.cons).1 ≠ 0 then _ else _) ++ (consRead cs w.cons).2.chars
          rw [hzero, if_neg (by simp), hfeed cs rfl, hfed]
        · rintro _ ⟨⟩ -
          exact hall.symm
      · have hne : (consRead cs w.cons).1 ≠ 0 := (hinv.feed cs).head_ne_zero hcons
        rw [hfeed cs rfl] at hcons
        constructor
        · show w.fed ++ charsIn cs
            = (if (consRead cs w.cons).1 ≠ 0 then w.got ++ [_] else _) ++ _
          rw [if_pos hne, hfed, hcons, List.append_assoc]
          rfl
        · rintro _ ⟨⟩ hzero
          exact absurd hzero hne

theorem Roomy.append {es es' : List ConsEvent} : ∀ {w : ConsWorld}, Roomy w (es ++ es') →
    Roomy w es ∧ Roomy (consRun w es) es' := by
  induction es with
  | nil => exact fun h => ⟨trivial, h⟩
  | cons e es ih => exact fun h => ⟨⟨h.1, (ih h.2).1⟩, (ih h.2).2⟩

theorem Complete.run {es : List ConsEvent} : ∀ {w : ConsWorld}, ConsInv w → Complete w →
    Roomy w es → Complete (consRun w es) := by
  induction es with
  | nil => exact fun _ h _ => h
  | cons e es ih =>
      intro w hinv h hroom
      exact ih (hinv.step e) (h.step hinv hroom.1).1 hroom.2

/-- **THE CONSOLE RING**: in every run both places stay in the ring and what is
    read is, in order, a part of what was fed; where no more than 511 characters
    wait at any time nothing is lost, and a read returns 0 only if everything
    fed has been read. -/
theorem consRun_keeps (es : List ConsEvent) :
    let w := consRun .start es
    w.cons.rpos < CONSBUFSIZE ∧ w.cons.wpos < CONSBUFSIZE ∧ w.got.Sublist w.fed ∧
      (Roomy .start es → w.fed = w.got ++ w.cons.chars ∧
        ∀ before cs after, es = before ++ .getc cs :: after →
          (consRead cs (consRun .start before).cons).1 = 0 →
          (consRun .start before).got = (consRun .start before).fed ++ charsIn cs) := by
  have hinv := ConsInv.start.run es
  obtain ⟨pre, hfed, hgot⟩ := hinv.history
  have hstart : Complete .start := (contents_self _ _ _).symm
  refine ⟨hinv.ok.rpos, hinv.ok.wpos, ?_, fun hroom => ⟨?_, ?_⟩⟩
  · rw [hfed]
    exact hgot.trans (List.sublist_append_left ..)
  · exact hstart.run .start hroom
  · rintro before cs after rfl hzero
    obtain ⟨hbefore, hafter⟩ := hroom.append
    exact ((hstart.run .start hbefore).step (ConsInv.start.run before) hafter.1).2 cs rfl hzero

/-- A character is fed, with a 0, and two reads find one. -/
def oneFed : List ConsEvent := [.intr [97, 0], .getc [], .getc []]

theorem consRun_keeps_oneFed :
    (consRun .start oneFed).fed =
      (consRun .start oneFed).got ++ (consRun .start oneFed).cons.chars :=
  ((consRun_keeps oneFed).2.2.2 ⟨by decide, by decide, by decide, trivial⟩).1

end SharixKeyboard
