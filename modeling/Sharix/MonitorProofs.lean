import Sharix.StringOpsProofs

/-! # The kernel monitor — `debug/monitor.c`, `libs/readline.c`

    `readline` edits a line in a static buffer, `runcmd` cuts it up there and
    looks its first word up, and `monitor` does this for ever: the commands all
    return 0.

    * `wordsOf`: the words of a line, cut at the blanks;
    * `session`: what is done for a row of lines, without buffers or pointers;
    * `monitor_session`: what the monitor does, whatever the keys and whatever
      older lines have left in the buffer.  It comes to a bad end at a line of
      more than sixteen words, and at no other. -/

namespace SharixMonitor

open SharixPrintfmt (Byte bytes)
open SharixParse SharixMaximalRun SharixString

/-! ## The model -/

/-- The functions in the table.  What they print is not followed here. -/
inductive Func where
  | monHelp
  | monKerninfo
  | monBacktrace
  | monBootinfo
deriving DecidableEq, Repr

/-- They all return 0, whatever the arguments. -/
def Func.call : Func → Nat → List (List Byte) → Int
  | .monHelp, _, _ => 0
  | .monKerninfo, _, _ => 0
  | .monBacktrace, _, _ => 0
  | .monBootinfo, _, _ => 0

/-- `struct command`, without the text for `help`. -/
structure Command where
  name : List Byte
  func : Func

def commands : List Command :=
  [⟨bytes "help", .monHelp⟩, ⟨bytes "kerninfo", .monKerninfo⟩,
    ⟨bytes "backtrace", .monBacktrace⟩, ⟨bytes "bootinfo", .monBootinfo⟩]

/-- A function called with its arguments, or `Unknown command`. -/
inductive Event where
  | called (func : Func) (argv : List (List Byte))
  | unknown (word : List Byte)
deriving DecidableEq, Repr

/-- The loop of `runcmd` over the table; `strcmp` is by its result on strings. -/
def lookup (argv0 : List Byte) (argv : List (List Byte)) : List Command → Event × Int
  | [] => (.unknown argv0, 0)
  | c :: cs =>
      if firstDiff c.name argv0 = 0 then (.called c.func argv, c.func.call argv.length argv)
      else lookup argv0 argv cs

/-- The strings that `argv[i]` and the `n - 1` pointers behind it point to. -/
def argStrings (buf : List Byte) (args : Args) : Nat → Nat → Option (List (List Byte))
  | 0, _ => some []
  | n + 1, i =>
      (args.argv i).bind fun p => (argStrings buf args n (i + 1)).map (stringAt buf p :: ·)

/-- `runcmd`: what it does, what it returns, and the line as `parse` leaves it.
    There is no result where pointers were stored behind `argv`. -/
def runcmd (fuel : Nat) (text : List Byte) : Option (List Event × Int × List Byte) :=
  (parse fuel text).bind fun (buf, args) =>
    if ¬ ((∀ s ∈ args.stores, s.1 < maxArgs) ∧ args.argc ≤ maxArgs) then none
    else
      (argStrings buf args args.argc 0).map fun argv =>
        match argv with
        | [] => ([], 0, buf)
        | argv0 :: argv => ([(lookup argv0 argv commands).1], (lookup argv0 argv commands).2, buf)

/-- The static buffer of `readline`. -/
abbrev Buf := Nat → Byte

/-- The loop of `readline`, with `i` characters stored: whether it returns the
    buffer or `NULL`, what is left of the input, and the buffer.  Where the
    input runs out it waits. -/
def readlineFrom : List Int → Nat → Buf → Option (Bool × List Int × Buf)
  | [], _, _ => none
  | c :: input, i, buf =>
      if c < 0 then some (false, input, buf)
      else if 32 ≤ c ∧ i < bufSize - 1 then
        readlineFrom input (i + 1) (Function.update buf i (BitVec.ofInt 8 c))
      else if c = 8 ∧ 0 < i then readlineFrom input (i - 1) buf
      else if c = 10 ∨ c = 13 then some (true, input, Function.update buf i 0)
      else readlineFrom input i buf

/-- The string in the buffer. -/
def cString (buf : Buf) : List Byte := ((List.range bufSize).map buf).takeWhile (· ≠ 0)

/-- The buffer with a line written back. -/
def store (text : List Byte) (buf : Buf) : Buf := fun i => text[i]?.getD (buf i)

/-- How a session stands: waiting for a key, left, or with the stack of `runcmd`
    overwritten. -/
inductive End where
  | waiting
  | left
  | overrun
deriving DecidableEq, Repr

/-- A round of the loop of `monitor`; `toc` stays 0. -/
def monitorRound (again : List Int → Buf → Option (List Event × End)) (input : List Int)
    (buf : Buf) : Option (List Event × End) :=
  match readlineFrom input 0 buf with
  | none => some ([], .waiting)
  | some (false, input, buf) => again input buf
  | some (true, input, buf) =>
      match runcmd bufSize (cString buf) with
      | none => some ([], .overrun)
      | some (events, result, text) =>
          if result < 0 then some (events, .left)
          else (again input (store text buf)).map fun r => (events ++ r.1, r.2)

def monitor : Nat → List Int → Buf → Option (List Event × End)
  | 0, _, _ => none
  | fuel + 1, input, buf => monitorRound (monitor fuel) input buf

/-! ## What it is for -/

/-- The words of a line. -/
def wordsOf (line : List Byte) : List (List Byte) :=
  (line.splitOnP fun c => decide (IsSpace c)).filter fun w => decide (w ≠ [])

/-- The command of that name. -/
def command (name : List Byte) (args : List (List Byte)) : Event :=
  match commands.find? fun c => decide (c.name = name) with
  | some c => .called c.func args
  | none => .unknown name

def eventsOf (line : List Byte) : List Event :=
  match wordsOf line with
  | [] => []
  | name :: args => [command name args]

/-- What is done for the lines. -/
def session : List (List Byte) → List Event × End
  | [] => ([], .waiting)
  | line :: lines =>
      if (wordsOf line).length ≤ maxArgs then
        (eventsOf line ++ (session lines).1, (session lines).2)
      else ([], .overrun)

/-- The lines that the keys come to, from the text of an unfinished one on. -/
def lines : List Int → List Byte → List (List Byte)
  | [], _ => []
  | c :: input, text =>
      if c < 0 then lines input []
      else if 32 ≤ c ∧ text.length < bufSize - 1 then lines input (text ++ [BitVec.ofInt 8 c])
      else if c = 8 ∧ 0 < text.length then lines input text.dropLast
      else if c = 10 ∨ c = 13 then text :: lines input []
      else lines input text

/-! ## Words -/

theorem wordsOf_blank {c : Byte} (hc : IsSpace c) (t : List Byte) :
    wordsOf (c :: t) = wordsOf t := by
  rw [wordsOf, List.splitOnP_cons_eq_if_modifyHead, if_pos (decide_eq_true hc)]
  exact List.filter_cons_of_neg (by simp)

theorem wordsOf_blanks {l : List Byte} (hl : ∀ x ∈ l, IsSpace x) (t : List Byte) :
    wordsOf (l ++ t) = wordsOf t := by
  induction l with
  | nil => rfl
  | cons c l ih =>
      rw [List.cons_append, wordsOf_blank (hl c List.mem_cons_self),
        ih fun x hx => hl x (List.mem_cons_of_mem _ hx)]

/-- A word ends at a blank, or with the line. -/
theorem wordsOf_word {word rest : List Byte} (hne : word ≠ []) (hword : ∀ x ∈ word, ¬ IsSpace x)
    (hrest : ∀ x ∈ rest[0]?, IsSpace x) : wordsOf (word ++ rest) = word :: wordsOf rest := by
  have hplain : ∀ x ∈ word, decide (IsSpace x) = false := fun x hx => decide_eq_false (hword x hx)
  cases rest with
  | nil =>
      rw [List.append_nil, wordsOf, List.splitOnP_eq_singleton hplain, wordsOf, List.splitOnP_nil]
      simp [hne]
  | cons c rest =>
      have hc : IsSpace c := hrest c rfl
      rw [wordsOf_blank hc, wordsOf,
        List.splitOnP_append_cons_of_forall_mem hplain c (decide_eq_true hc)]
      exact List.filter_cons_of_pos (by simpa using hne)

/-- The maximal runs of a line are its words: by induction on what is left of
    it, a word at a time. -/
theorem runs_wordsOf {text : List Byte} {n : Nat} : ∀ {t pre : List Byte}, t.length ≤ n →
    text = pre ++ t → ∃ words, Runs (wordAt text) pre.length text.length words ∧
      words.map (charsOf text) = wordsOf t := by
  induction n using Nat.strong_induction_on with
  | _ n ih =>
      intro t pre hn htext
      rcases text_cases t with hall | ⟨blanks, c, word, rest, rfl, hblanks, hword, hrest⟩
      · refine ⟨[], .nil fun i h1 h2 => ?_, ?_⟩
        · obtain ⟨j, rfl⟩ := Nat.exists_eq_add_of_le h1
          rw [htext, List.length_append] at h2
          rw [htext, wordAt_append, ← List.append_nil t]
          exact wordAt_blanks hall _ (Nat.lt_of_add_lt_add_left h2)
        · have hnone := wordsOf_blanks hall []
          rw [List.append_nil] at hnone
          exact hnone.symm
      · have hsplit : pre ++ (blanks ++ (c :: word ++ rest))
            = (pre ++ (blanks ++ (c :: word))) ++ rest := by
          simp only [List.append_assoc]
        have hlen : rest.length < n := by
          simp only [List.length_append, List.length_cons] at hn
          omega
        obtain ⟨words, hruns, hwords⟩ := ih rest.length hlen (Nat.le_refl _) (htext.trans hsplit)
        have hfirst := firstRun_of_split pre hblanks (List.cons_ne_nil c word) hword hrest
        rw [← htext] at hfirst
        have hright : (pre ++ (blanks ++ (c :: word))).length
            = pre.length + blanks.length + (c :: word).length := by
          simp only [List.length_append]
          omega
        rw [hright] at hruns
        have hchars : charsOf text ⟨pre.length + blanks.length,
            pre.length + blanks.length + (c :: word).length, ()⟩ = c :: word := by
          rw [charsOf, htext, ← List.append_assoc, ← List.length_append, List.drop_left,
            Nat.add_sub_cancel_left, List.take_left]
        refine ⟨_, .cons hfirst hruns, ?_⟩
        rw [wordsOf_blanks hblanks, wordsOf_word (List.cons_ne_nil c word) hword hrest,
          List.map_cons, hwords, hchars]

theorem wordsOf_nonzero {line : List Byte} (hnul : 0 ∉ line) : ∀ w ∈ wordsOf line, 0 ∉ w := by
  obtain ⟨words, -, hwords⟩ := @runs_wordsOf line _ line [] (Nat.le_refl _) rfl
  intro w hw hzero
  rw [← hwords] at hw
  obtain ⟨r, -, rfl⟩ := List.mem_map.mp hw
  exact hnul (List.drop_subset _ _ (List.take_subset _ _ hzero))

/-! ## `runcmd` -/

theorem Func.call_zero (f : Func) (argc : Nat) (argv : List (List Byte)) :
    f.call argc argv = 0 := by
  cases f <;> rfl

theorem commands_nonzero : ∀ c ∈ commands, 0 ∉ c.name := by decide

/-- The first command of the name is called, and all of them return 0. -/
theorem lookup_eq {name : List Byte} (hname : 0 ∉ name) (args : List (List Byte)) :
    lookup name args commands = (command name args, 0) := by
  have hall : ∀ cs : List Command, (∀ c ∈ cs, 0 ∉ c.name) → lookup name args cs
      = (match cs.find? fun c => decide (c.name = name) with
          | some c => .called c.func args
          | none => .unknown name, 0) := by
    intro cs hcs
    induction cs with
    | nil => rfl
    | cons c cs ih =>
        have hcmp : firstDiff c.name name = 0 ↔ c.name = name :=
          (firstDiff_sign (.inr ⟨hcs c List.mem_cons_self, hname⟩)).2
        rw [lookup]
        by_cases heq : c.name = name
        · rw [if_pos (hcmp.mpr heq), List.find?_cons, decide_eq_true heq,
            Func.call_zero]
        · rw [if_neg fun h => heq (hcmp.mp h), List.find?_cons, decide_eq_false heq]
          exact ih fun c hc => hcs c (List.mem_cons_of_mem _ hc)
  exact hall commands commands_nonzero

/-- The strings are the words. -/
theorem argStrings_eq {line : List Byte} (hnul : 0 ∉ line) {words : List (Run Unit)}
    (hwords : Words line words) (n : Nat) : ∀ i, i + n = words.length →
      argStrings (cleared line ++ [0]) (Args.none.saveAll words) n i
        = some ((words.drop i).map (charsOf line)) := by
  induction n with
  | zero =>
      intro i hi
      rw [argStrings, List.drop_eq_nil_of_le (by omega)]
      rfl
  | succ n ih =>
      intro i hi
      have hlt : i < words.length := by omega
      have hget : words[i]? = some words[i] := List.getElem?_eq_getElem hlt
      rw [argStrings, saveAll_argv hget, Option.bind_some, ih (i + 1) (by omega),
        List.drop_eq_getElem_cons hlt,
        stringAt_word hnul (hwords.maximal _ (List.getElem_mem hlt))]
      rfl

/-- A line of at most sixteen words is done, a longer one overruns `argv`. -/
theorem runcmd_eq {line : List Byte} (hnul : 0 ∉ line) {fuel : Nat} (hfuel : line.length < fuel) :
    runcmd fuel line = if (wordsOf line).length ≤ maxArgs then
      some (eventsOf line, 0, cleared line ++ [0]) else none := by
  obtain ⟨words, hruns, hwords⟩ := @runs_wordsOf line _ line [] (Nat.le_refl _) rfl
  have hlen : (wordsOf line).length = words.length := by
    rw [← hwords, List.length_map]
  have hbounds : ((∀ s ∈ (Args.none.saveAll words).stores, s.1 < maxArgs) ∧
      (Args.none.saveAll words).argc ≤ maxArgs) ↔ (wordsOf line).length ≤ maxArgs := by
    rw [hlen]
    exact saveAll_inBounds words
  have hargc : (Args.none.saveAll words).argc = words.length := by
    rw [saveAll_argc]
    exact Nat.zero_add _
  rw [runcmd, parse_eq hnul hruns hfuel, Option.bind_some]
  dsimp only
  by_cases hroom : (wordsOf line).length ≤ maxArgs
  · have hargs := argStrings_eq hnul hruns words.length 0 (Nat.zero_add _)
    rw [List.drop_zero, hwords] at hargs
    rw [if_neg (not_not.mpr (hbounds.mpr hroom)), if_pos hroom, hargc, hargs, Option.map_some]
    have hnonzero := wordsOf_nonzero hnul
    rw [eventsOf]
    cases hw : wordsOf line with
    | nil => rfl
    | cons name args =>
        rw [hw] at hnonzero
        dsimp only
        rw [lookup_eq (hnonzero name List.mem_cons_self)]
  · rw [if_pos (fun h => hroom (hbounds.mp h)), if_neg hroom]

/-! ## `readline` -/

/-- The first `i` bytes of the buffer are the text. -/
structure Typed (buf : Buf) (i : Nat) (text : List Byte) : Prop where
  length : text.length = i
  room : i ≤ bufSize - 1
  chars : ∀ k c, text[k]? = some c → buf k = c
  nonzero : 0 ∉ text

theorem typed_nil (buf : Buf) : Typed buf 0 [] :=
  ⟨rfl, Nat.zero_le _, (fun _ _ h => nomatch h), List.not_mem_nil⟩

theorem Typed.add {buf : Buf} {i : Nat} {text : List Byte} (h : Typed buf i text) {c : Byte}
    (hc : c ≠ 0) (hi : i < bufSize - 1) :
    Typed (Function.update buf i c) (i + 1) (text ++ [c]) := by
  refine ⟨by rw [List.length_append, h.length]; rfl, hi, fun k d hk => ?_, ?_⟩
  · by_cases hlast : k = i
    · subst hlast
      rw [← h.length, List.getElem?_concat_length] at hk
      rw [Function.update_self]
      exact Option.some.inj hk
    · have hlt : k < text.length := by
        obtain ⟨hk', -⟩ := List.getElem?_eq_some_iff.mp hk
        rw [List.length_append, h.length, List.length_singleton] at hk'
        rw [h.length]
        omega
      rw [List.getElem?_append_left hlt] at hk
      rw [Function.update_of_ne hlast]
      exact h.chars k d hk
  · rw [List.mem_append, List.mem_singleton]
    rintro (hz | hz)
    · exact h.nonzero hz
    · exact hc hz.symm

theorem Typed.back {buf : Buf} {i : Nat} {text : List Byte} (h : Typed buf i text) :
    Typed buf (i - 1) text.dropLast := by
  have := h.room
  refine ⟨by rw [List.length_dropLast, h.length], by omega, fun k c hk => ?_,
    fun hz => h.nonzero (List.dropLast_subset _ hz)⟩
  rw [List.getElem?_dropLast] at hk
  split at hk
  · exact h.chars k c hk
  · cases hk

/-- The `NUL` behind the text ends the string, whatever is behind that. -/
theorem Typed.cString {buf : Buf} {i : Nat} {text : List Byte} (h : Typed buf i text) :
    cString (Function.update buf i 0) = text := by
  have htext : (List.range i).map (Function.update buf i 0) = text := by
    refine List.ext_getElem (by rw [List.length_map, List.length_range, h.length]) ?_
    intro k hk hk'
    rw [List.getElem_map, List.getElem_range, Function.update_of_ne (by have := h.length; omega)]
    exact h.chars k _ (List.getElem?_eq_getElem hk')
  have hsplit : (List.range bufSize).map (Function.update buf i 0) = text ++
      0 :: ((List.range bufSize).map (Function.update buf i 0)).drop (i + 1) := by
    have hi : i < bufSize := Nat.lt_of_le_of_lt h.room (by decide)
    rw [← htext]
    conv_lhs => rw [← List.take_append_drop i ((List.range bufSize).map _)]
    rw [← List.map_take, List.take_range, Nat.min_eq_left (Nat.le_of_lt hi),
      List.drop_eq_getElem_cons (by rw [List.length_map, List.length_range]; exact hi),
      List.getElem_map, List.getElem_range, Function.update_self]
  rw [SharixMonitor.cString, hsplit, List.takeWhile_append_of_pos, List.takeWhile_cons_of_neg,
    List.append_nil]
  · simp
  · intro c hc
    simpa using fun hz : c = 0 => h.nonzero (hz ▸ hc)

theorem ofInt_ne_zero {c : Int} (h : 32 ≤ c) (hc : c < 256) : BitVec.ofInt 8 c ≠ 0 := by
  intro hzero
  have hnat := congrArg BitVec.toNat hzero
  rw [BitVec.toNat_ofInt] at hnat
  simp at hnat
  omega

/-- Where `readline` waits there is no further line. -/
theorem readlineFrom_none {input : List Int} : ∀ {i : Nat} {buf : Buf} {text : List Byte},
    text.length = i → readlineFrom input i buf = none → lines input text = [] := by
  induction input with
  | nil => exact fun _ _ => rfl
  | cons c input ih =>
      rintro i buf text rfl hnone
      rw [readlineFrom] at hnone
      split at hnone
      · cases hnone
      split at hnone
      · next hneg hchar =>
          rw [lines, if_neg hneg, if_pos hchar]
          exact ih List.length_append hnone
      split at hnone
      · next hneg hchar hback =>
          rw [lines, if_neg hneg, if_neg hchar, if_pos hback]
          exact ih List.length_dropLast hnone
      split at hnone
      · cases hnone
      · next hneg hchar hback hline =>
          rw [lines, if_neg hneg, if_neg hchar, if_neg hback, if_neg hline]
          exact ih rfl hnone

/-- What `readline` returns, and what the rest of the keys come to. -/
structure Read (input : List Int) (text : List Byte) (returned : Bool) (rest : List Int)
    (buf : Buf) : Prop where
  lines : lines input text = (if returned then [cString buf] else []) ++ lines rest []
  fewer : rest.length < input.length
  bytes : ∀ c ∈ rest, c < 256
  line : returned = true → ∃ line : Line, line.chars = cString buf

theorem Read.later {c : Int} {input rest : List Int} {text text' : List Byte} {returned : Bool}
    {buf : Buf} (h : Read input text' returned rest buf)
    (hlines : SharixMonitor.lines (c :: input) text = SharixMonitor.lines input text') :
    Read (c :: input) text returned rest buf :=
  ⟨hlines.trans h.lines, Nat.lt_succ_of_lt h.fewer, h.bytes, h.line⟩

/-- `readline` returns the next line, or `NULL`: by induction on the keys, a case
    for each branch of the loop. -/
theorem readlineFrom_some {input rest : List Int} {returned : Bool} {buf' : Buf} :
    ∀ {i : Nat} {buf : Buf} {text : List Byte}, (∀ c ∈ input, c < 256) → Typed buf i text →
      readlineFrom input i buf = some (returned, rest, buf') →
      Read input text returned rest buf' := by
  induction input with
  | nil => exact fun _ _ h => nomatch h
  | cons c input ih =>
      intro i buf text hinput htyped hrun
      have hrest : ∀ c ∈ input, c < 256 := fun c hc => hinput c (List.mem_cons_of_mem _ hc)
      have hlength := htyped.length
      subst hlength
      rw [readlineFrom] at hrun
      split at hrun
      · next hneg =>
          obtain ⟨rfl, hpair⟩ := Prod.mk.inj (Option.some.inj hrun)
          obtain ⟨rfl, rfl⟩ := Prod.mk.inj hpair
          refine ⟨?_, Nat.lt_succ_self _, hrest, fun h => nomatch h⟩
          rw [lines, if_pos hneg]
          rfl
      split at hrun
      · next hneg hchar =>
          have hc := ofInt_ne_zero hchar.1 (hinput c List.mem_cons_self)
          refine (ih hrest (htyped.add hc hchar.2) hrun).later ?_
          rw [lines, if_neg hneg, if_pos hchar]
      split at hrun
      · next hneg hchar hback =>
          refine (ih hrest htyped.back hrun).later ?_
          rw [lines, if_neg hneg, if_neg hchar, if_pos hback]
      split at hrun
      · next hneg hchar hback hline =>
          obtain ⟨rfl, hpair⟩ := Prod.mk.inj (Option.some.inj hrun)
          obtain ⟨rfl, rfl⟩ := Prod.mk.inj hpair
          have hroom := htyped.room
          refine ⟨?_, Nat.lt_succ_self _, hrest, fun _ => ?_⟩
          · rw [lines, if_neg hneg, if_neg hchar, if_neg hback, if_pos hline, htyped.cString]
            rfl
          · exact ⟨⟨text, htyped.nonzero, hroom⟩, htyped.cString.symm⟩
      · next hneg hchar hback hline =>
          refine (ih hrest htyped hrun).later ?_
          rw [lines, if_neg hneg, if_neg hchar, if_neg hback, if_neg hline]

/-! ## `monitor` -/

theorem monitor_eq {fuel : Nat} : ∀ {input : List Int} (buf : Buf), (∀ c ∈ input, c < 256) →
    input.length < fuel → monitor fuel input buf = some (session (lines input [])) := by
  induction fuel with
  | zero =>
      intro input buf _ hfuel
      exact absurd hfuel (Nat.not_lt_zero _)
  | succ fuel ih =>
      intro input buf hinput hfuel
      rw [monitor, monitorRound]
      cases hread : readlineFrom input 0 buf with
      | none =>
          rw [readlineFrom_none rfl hread]
          rfl
      | some r =>
          obtain ⟨returned, rest, buf'⟩ := r
          obtain ⟨hlines, hfewer, hbytes, hline⟩ :=
            readlineFrom_some hinput (typed_nil buf) hread
          have hrest : ∀ buf, monitor fuel rest buf = some (session (lines rest [])) :=
            fun buf => ih buf hbytes (by omega)
          rw [hlines]
          cases returned with
          | false =>
              rw [if_neg Bool.false_ne_true, List.nil_append]
              exact hrest buf'
          | true =>
              obtain ⟨line, hline⟩ := hline rfl
              have hnul : 0 ∉ cString buf' := hline ▸ line.nonzero
              have hshort : (cString buf').length < bufSize :=
                hline ▸ Nat.lt_of_le_of_lt line.short (by decide)
              dsimp only
              rw [runcmd_eq hnul hshort, if_pos rfl, List.singleton_append, session]
              by_cases hroom : (wordsOf (cString buf')).length ≤ maxArgs
              · rw [if_pos hroom, if_pos hroom]
                dsimp only
                rw [if_neg (Int.lt_irrefl 0), hrest]
                rfl
              · rw [if_neg hroom, if_neg hroom]

/-- A line as it is typed. -/
def typed (line : List Byte) : List Int := line.map (fun c => (c.toNat : Int)) ++ [10]

/-- It has room in the buffer, and no control characters. -/
structure Plain (line : List Byte) : Prop where
  short : line.length ≤ bufSize - 1
  printed : ∀ c ∈ line, 32 ≤ c.toNat

theorem lines_typed {line : List Byte} (input : List Int) : ∀ {text : List Byte},
    (∀ c ∈ line, 32 ≤ c.toNat) → text.length + line.length ≤ bufSize - 1 →
    lines (typed line ++ input) text = (text ++ line) :: lines input [] := by
  induction line with
  | nil =>
      intro text _ _
      rw [List.append_nil, typed, List.map_nil, List.nil_append, List.singleton_append, lines,
        if_neg (by omega), if_neg (by omega), if_neg (by omega), if_pos (.inl rfl)]
  | cons c line ih =>
      intro text hprint hroom
      have hc := hprint c List.mem_cons_self
      rw [List.length_cons] at hroom
      have hword : BitVec.ofInt 8 (c.toNat : Int) = c := by
        rw [BitVec.ofInt_natCast, BitVec.ofNat_toNat, BitVec.setWidth_eq]
      have hstep : typed (c :: line) ++ input = (c.toNat : Int) :: (typed line ++ input) := rfl
      rw [hstep, lines, if_neg (by omega), if_pos ⟨by omega, by omega⟩, hword,
        ih (fun d hd => hprint d (List.mem_cons_of_mem _ hd))
          (by rw [List.length_append, List.length_singleton]; omega), List.append_assoc]
      rfl

theorem lines_typed_all {ls : List (List Byte)} (hls : ∀ l ∈ ls, Plain l) :
    lines (ls.flatMap typed) [] = ls := by
  induction ls with
  | nil => rfl
  | cons l ls ih =>
      have hl := hls l List.mem_cons_self
      rw [List.flatMap_cons, lines_typed _ hl.printed (by simpa using hl.short), List.nil_append,
        ih fun l hl => hls l (List.mem_cons_of_mem _ hl)]

theorem session_stays (ls : List (List Byte)) : (session ls).2 ≠ .left := by
  induction ls with
  | nil => exact fun h => nomatch h
  | cons l ls ih =>
      rw [session]
      split
      · exact ih
      · exact fun h => nomatch h

/-- **A SESSION**: whatever the keys are and whatever the buffer holds, the monitor
    does for the lines they come to what `session` does: it calls the command
    that has the first word for its name with the other words, or says that it
    does not know it, up to a line of more than sixteen words.  It never leaves;
    and lines that are typed as they are come out as they are. -/
theorem monitor_session {input : List Int} (hinput : ∀ c ∈ input, c < 256) (buf : Buf)
    {fuel : Nat} (hfuel : input.length < fuel) :
    monitor fuel input buf = some (session (lines input [])) ∧
      (session (lines input [])).2 ≠ .left ∧
      ∀ ls : List (List Byte), (∀ l ∈ ls, Plain l) → input = ls.flatMap typed →
        lines input [] = ls := by
  refine ⟨monitor_eq buf hinput hfuel, session_stays _, ?_⟩
  rintro ls hls rfl
  exact lines_typed_all hls

/-- `kerninfo` with an argument and with a slip corrected, and no command. -/
theorem monitor_session_demo :
    monitor 24 ((bytes " kerninfp").map (fun c => (c.toNat : Int)) ++ 8 ::
        typed (bytes "o -v") ++ typed (bytes "helpp")) (fun _ => 97)
      = some ([.called .monKerninfo [bytes "-v"], .unknown (bytes "helpp")], .waiting) := by
  refine (monitor_session (by decide) _ (by decide)).1.trans ?_
  decide

end SharixMonitor
