import Sharix.PrintfmtProofs
import Sharix.MaximalRunProofs

/-! # `parse` — `monitor.c`

    The blanks before a word are overwritten when the next word is looked for,
    so every word ends at a `NUL` once the function has returned, the last one
    at the `NUL` of the line (`parse_argv`).

    With fifteen words read the message about too many arguments is printed, but
    the loop goes on: the sixteenth is the last one `runcmd` has room for, and
    every further one is stored behind the array (`parse_inBounds_iff`). -/

namespace SharixParse

open SharixPrintfmt (Byte chr bytes Arg Cursor)
open SharixMaximalRun

/-! ## The model -/

/-- `MAXARGS`. -/
def maxArgs : Nat := 16

/-- `BUFSIZE`. -/
def bufSize : Nat := 1024

/-- `WHITESPACE`. -/
def whitespace : List Byte := bytes " \t\n\r"

/-- `strchr`, on a string without its `NUL`: the string from the first
    occurrence on. -/
def strchr : List Byte → Byte → Option (List Byte)
  | [], _ => none
  | x :: s, c => if x = c then some (x :: s) else strchr s c

/-- `while (*buf != '\0' && strchr(WHITESPACE, *buf) != NULL) *buf ++ = '\0';`
    A read behind the buffer has no result. -/
def skipBlanks : List Byte → List Byte → Option Cursor
  | _, [] => none
  | before, c :: after =>
      if c ≠ 0 ∧ strchr whitespace c ≠ none then skipBlanks (0 :: before) after
      else some ⟨before, c :: after⟩

/-- `while (*buf != '\0' && strchr(WHITESPACE, *buf) == NULL) buf ++;` -/
def scanWord : List Byte → List Byte → Option Cursor
  | _, [] => none
  | before, c :: after =>
      if c ≠ 0 ∧ strchr whitespace c = none then scanWord (c :: before) after
      else some ⟨before, c :: after⟩

/-- `argc`, the stores to `argv` in order, each with its index and the place in
    the buffer it makes it point to, and the calls of `cprintf`. -/
structure Args where
  argc : Nat
  stores : List (Nat × Nat)
  printed : List (List Byte × List Arg)

def Args.none : Args := ⟨0, [], []⟩

/-- `argv[argc ++] = buf;`, with the test before it. -/
def Args.save (args : Args) (buf : Nat) : Args where
  argc := args.argc + 1
  stores := args.stores ++ [(args.argc, buf)]
  printed :=
    if args.argc = maxArgs - 1 then
      args.printed ++ [(bytes "Too many arguments (max %d).\n", [.word (BitVec.ofNat 32 maxArgs)])]
    else args.printed

/-- The loop of `parse`. -/
def parseLoop : Nat → Cursor → Args → Option (Cursor × Args)
  | 0, _, _ => none
  | fuel + 1, buf, args => do
      let buf ← skipBlanks buf.before buf.after
      if buf.after[0]? = some 0 then return (buf, args)
      else do
        let args := args.save buf.before.length
        let buf ← scanWord buf.before buf.after
        parseLoop fuel buf args

/-- `parse`: the buffer it leaves, and the arguments. -/
def parse (fuel : Nat) (text : List Byte) : Option (List Byte × Args) := do
  let (buf, args) ← parseLoop fuel (Cursor.start text) Args.none
  return (buf.before.reverse ++ buf.after, args)

/-! ## Words -/

/-- A blank. -/
def IsSpace (c : Byte) : Prop := c ∈ whitespace

instance (c : Byte) : Decidable (IsSpace c) := inferInstanceAs (Decidable (_ ∈ _))

/-- The indices that words consist of. -/
def wordAt (text : List Byte) (i : Nat) : Option Unit :=
  match text[i]? with
  | none => .none
  | some c => if IsSpace c then .none else some ()

/-- The maximal runs of characters that are no blanks. -/
def Words (text : List Byte) (words : List (Run Unit)) : Prop :=
  Runs (wordAt text) 0 text.length words

/-- The buffer with its blanks overwritten. -/
def cleared (text : List Byte) : List Byte := text.map fun c => if IsSpace c then 0 else c

theorem strchr_iff (s : List Byte) (c : Byte) : strchr s c ≠ none ↔ c ∈ s := by
  induction s with
  | nil => simp [strchr]
  | cons x s ih =>
      rw [strchr]
      by_cases hx : x = c
      · rw [if_pos hx]
        simp [hx]
      · rw [if_neg hx, ih, List.mem_cons]
        exact ⟨.inr, fun h => h.resolve_left (Ne.symm hx)⟩

theorem space_ne_zero {c : Byte} (hc : IsSpace c) : c ≠ 0 := by
  rintro rfl
  exact absurd hc (by decide)

@[simp] theorem cleared_append (l l' : List Byte) : cleared (l ++ l') = cleared l ++ cleared l' :=
  List.map_append

/-! ## The two loops -/

/-- Blanks are overwritten up to the first other character. -/
theorem skipBlanks_eq {l : List Byte} {c : Byte} (hc : ¬ IsSpace c) (rest : List Byte) :
    ∀ (before : List Byte), (∀ x ∈ l, IsSpace x) →
    skipBlanks before (l ++ c :: rest) = some ⟨(cleared l).reverse ++ before, c :: rest⟩ := by
  induction l with
  | nil =>
      intro before _
      rw [List.nil_append, skipBlanks, if_neg fun h => hc ((strchr_iff _ _).mp h.2)]
      rfl
  | cons x l ih =>
      intro before hl
      have hx : IsSpace x := hl x (List.mem_cons_self ..)
      rw [List.cons_append, skipBlanks, if_pos ⟨space_ne_zero hx, (strchr_iff _ _).mpr hx⟩,
        ih _ fun y hy => hl y (List.mem_cons_of_mem _ hy)]
      simp [cleared, hx]

/-- A word is left as it is. -/
theorem scanWord_eq {l : List Byte} {c : Byte} (hc : c = 0 ∨ IsSpace c) (rest : List Byte) :
    ∀ (before : List Byte), (∀ x ∈ l, x ≠ 0 ∧ ¬ IsSpace x) →
    scanWord before (l ++ c :: rest) = some ⟨(cleared l).reverse ++ before, c :: rest⟩ := by
  induction l with
  | nil =>
      intro before _
      have hstop : ¬ (c ≠ 0 ∧ strchr whitespace c = none) := by
        rintro ⟨hzero, hnone⟩
        exact (strchr_iff _ _).mpr (hc.resolve_left hzero) hnone
      rw [List.nil_append, scanWord, if_neg hstop]
      rfl
  | cons x l ih =>
      intro before hl
      obtain ⟨hzero, hx⟩ := hl x (List.mem_cons_self ..)
      have hnone : strchr whitespace x = none :=
        Decidable.not_not.mp fun h => hx ((strchr_iff _ _).mp h)
      rw [List.cons_append, scanWord, if_pos ⟨hzero, hnone⟩,
        ih _ fun y hy => hl y (List.mem_cons_of_mem _ hy)]
      simp [cleared, hx]

/-- A list has a property throughout, or up to a first element without it. -/
theorem first_without (p : Byte → Prop) [DecidablePred p] (t : List Byte) :
    (∀ x ∈ t, p x) ∨ ∃ l c r, t = l ++ c :: r ∧ (∀ x ∈ l, p x) ∧ ¬ p c := by
  induction t with
  | nil => exact .inl (by simp)
  | cons c t ih =>
      by_cases hc : p c
      · rcases ih with hall | ⟨l, d, r, rfl, hl, hd⟩
        · exact .inl (List.forall_mem_cons.mpr ⟨hc, hall⟩)
        · exact .inr ⟨c :: l, d, r, rfl, List.forall_mem_cons.mpr ⟨hc, hl⟩, hd⟩
      · exact .inr ⟨[], c, t, rfl, by simp, hc⟩

/-- A text is blanks, or blanks, a word and what follows it. -/
theorem text_cases (t : List Byte) : (∀ x ∈ t, IsSpace x) ∨
    ∃ blanks c word rest, t = blanks ++ (c :: word ++ rest) ∧ (∀ x ∈ blanks, IsSpace x) ∧
      (∀ x ∈ c :: word, ¬ IsSpace x) ∧ ∀ x ∈ rest[0]?, IsSpace x := by
  rcases first_without IsSpace t with hall | ⟨blanks, c, r, rfl, hblanks, hc⟩
  · exact .inl hall
  · rcases first_without (fun x => ¬ IsSpace x) r with hall | ⟨word, d, rest, rfl, hword, hd⟩
    · refine .inr ⟨blanks, c, r, [], by simp, hblanks, ?_, by simp⟩
      exact List.forall_mem_cons.mpr ⟨hc, hall⟩
    · refine .inr ⟨blanks, c, word, d :: rest, rfl, hblanks, ?_, ?_⟩
      · exact List.forall_mem_cons.mpr ⟨hc, hword⟩
      · rintro x ⟨⟩
        exact Decidable.not_not.mp hd

/-! ## A run -/

/-- `argv` gets the words one after the other. -/
def Args.saveAll (args : Args) (words : List (Run Unit)) : Args :=
  words.foldl (fun args w => args.save w.left) args

theorem wordAt_append (pre t : List Byte) (i : Nat) :
    wordAt (pre ++ t) (pre.length + i) = wordAt t i := by
  rw [wordAt, wordAt, List.getElem?_append_right (by omega), Nat.add_sub_cancel_left]

/-- Blanks are no part of a word. -/
theorem wordAt_blanks {l : List Byte} (hl : ∀ x ∈ l, IsSpace x) (rest : List Byte) {i : Nat}
    (hi : i < l.length) : wordAt (l ++ rest) i = none := by
  rw [wordAt, List.getElem?_append_left hi, List.getElem?_eq_getElem hi]
  exact if_pos (hl _ (List.getElem_mem hi))

theorem wordAt_word {l : List Byte} (hl : ∀ x ∈ l, ¬ IsSpace x) (rest : List Byte) {i : Nat}
    (hi : i < l.length) : wordAt (l ++ rest) i = some () := by
  rw [wordAt, List.getElem?_append_left hi, List.getElem?_eq_getElem hi]
  exact if_neg (hl _ (List.getElem_mem hi))

/-- The first word of what is left of the line. -/
theorem firstRun_of_split (pre : List Byte) {blanks word rest : List Byte}
    (hblanks : ∀ x ∈ blanks, IsSpace x) (hne : word ≠ [])
    (hword : ∀ x ∈ word, ¬ IsSpace x) (hrest : ∀ x ∈ rest[0]?, IsSpace x) :
    FirstRun (wordAt (pre ++ (blanks ++ (word ++ rest)))) pre.length
      (pre ++ (blanks ++ (word ++ rest))).length
      ⟨pre.length + blanks.length, pre.length + blanks.length + word.length, ()⟩ := by
  have hshift : ∀ i, wordAt (pre ++ (blanks ++ (word ++ rest))) (pre.length + blanks.length + i)
      = wordAt (word ++ rest) i := by
    intro i
    rw [← List.append_assoc, ← List.length_append]
    exact wordAt_append ..
  constructor
  · exact Nat.lt_add_of_pos_right (List.length_pos_iff.mpr hne)
  · exact Nat.le_add_right ..
  · simp only [List.length_append]
    omega
  · intro i h1 h2
    obtain ⟨j, rfl⟩ := Nat.exists_eq_add_of_le h1
    rw [wordAt_append]
    exact wordAt_blanks hblanks _ (Nat.lt_of_add_lt_add_left h2)
  · intro i h1 h2
    obtain ⟨j, rfl⟩ := Nat.exists_eq_add_of_le h1
    rw [hshift]
    exact wordAt_word hword _ (Nat.lt_of_add_lt_add_left h2)
  · rw [hshift]
    cases rest with
    | nil =>
        refine .inl ?_
        simp only [List.length_append, List.length_nil]
        omega
    | cons c rest =>
        refine .inr ?_
        have hc : wordAt (word ++ c :: rest) word.length = none := by
          have h := wordAt_append word (c :: rest) 0
          rw [Nat.add_zero] at h
          rw [h]
          exact if_pos (hrest c rfl)
        rw [hc]
        simp

/-- The last round, over the blanks that are left. -/
theorem parseLoop_blanks {t : List Byte} (hall : ∀ x ∈ t, IsSpace x) (fuel : Nat)
    (before : List Byte) (args : Args) :
    parseLoop (fuel + 1) ⟨before, t ++ [0]⟩ args
      = some (⟨(cleared t).reverse ++ before, [0]⟩, args) := by
  have hzero : ¬ IsSpace 0 := by decide
  rw [parseLoop, skipBlanks_eq hzero [] before hall]
  rfl

/-- A round over blanks and a word. -/
theorem parseLoop_word {blanks word rest : List Byte} {c : Byte}
    (hblanks : ∀ x ∈ blanks, IsSpace x) (hword : ∀ x ∈ c :: word, x ≠ 0 ∧ ¬ IsSpace x)
    (hrest : ∀ x ∈ rest[0]?, IsSpace x) (fuel : Nat) (before : List Byte) (args : Args) :
    parseLoop (fuel + 1) ⟨before, blanks ++ (c :: word ++ rest) ++ [0]⟩ args
      = parseLoop fuel ⟨(cleared (blanks ++ (c :: word))).reverse ++ before, rest ++ [0]⟩
          (args.save (before.length + blanks.length)) := by
  obtain ⟨hzero, hspace⟩ := hword c (List.mem_cons_self ..)
  have hskip : skipBlanks before (blanks ++ (c :: word ++ rest) ++ [0])
      = some ⟨(cleared blanks).reverse ++ before, c :: word ++ (rest ++ [0])⟩ := by
    rw [List.append_assoc, List.append_assoc]
    exact skipBlanks_eq hspace _ before hblanks
  have hscan : ∀ before, scanWord before (c :: word ++ (rest ++ [0]))
      = some ⟨(cleared (c :: word)).reverse ++ before, rest ++ [0]⟩ := by
    intro before
    -- the word ends at a blank or at the `NUL` behind the line
    cases rest with
    | nil => exact scanWord_eq (.inl rfl) [] before hword
    | cons d rest => exact scanWord_eq (.inr (hrest d rfl)) _ before hword
  have hstart : ((cleared blanks).reverse ++ before).length = before.length + blanks.length := by
    simp [cleared, Nat.add_comm]
  have hhead : (c :: word ++ (rest ++ [0]))[0]? ≠ some 0 := fun h => hzero (Option.some.inj h)
  rw [parseLoop, hskip]
  simp only [Option.bind_eq_bind, Option.bind_some]
  rw [if_neg hhead, hscan, Option.bind_some, hstart]
  simp only [cleared_append, List.reverse_append, List.append_assoc]

/-- **A RUN OF THE LOOP**: what is left of the line is cleared of its blanks,
    and its words are stored in order. -/
theorem parseLoop_eq {text : List Byte} {n : Nat} : ∀ {t pre : List Byte}, t.length ≤ n →
    text = pre ++ t → 0 ∉ t → ∃ words, Runs (wordAt text) pre.length text.length words ∧
      ∀ fuel, n < fuel → ∀ (before : List Byte) (args : Args), before.length = pre.length →
        parseLoop fuel ⟨before, t ++ [0]⟩ args
          = some (⟨(cleared t).reverse ++ before, [0]⟩, args.saveAll words) := by
  -- on the length of what is left: a round takes a word off it
  induction n using Nat.strong_induction_on with
  | _ n ih =>
      intro t pre hn htext hnul
      rcases text_cases t with hall | ⟨blanks, c, word, rest, ht, hblanks, hword, hrest⟩
      · refine ⟨[], .nil fun i h1 h2 => ?_, fun fuel hf before args _ => ?_⟩
        · obtain ⟨j, rfl⟩ := Nat.exists_eq_add_of_le h1
          rw [htext, List.length_append] at h2
          rw [htext, wordAt_append, ← List.append_nil t]
          exact wordAt_blanks hall _ (Nat.lt_of_add_lt_add_left h2)
        · obtain ⟨fuel, rfl⟩ := Nat.exists_eq_succ_of_ne_zero (Nat.ne_of_gt
            (Nat.lt_of_le_of_lt (Nat.zero_le _) hf))
          exact parseLoop_blanks hall fuel before args
      · subst ht
        have hlen : rest.length < n := by
          simp only [List.length_append, List.length_cons] at hn
          omega
        have hsplit : pre ++ (blanks ++ (c :: word ++ rest))
            = (pre ++ (blanks ++ (c :: word))) ++ rest := by
          simp only [List.append_assoc]
        obtain ⟨words, hruns, hrun⟩ := ih rest.length hlen (Nat.le_refl _)
          (htext.trans hsplit) (fun h =>
            hnul (List.mem_append_right _ (List.mem_append_right _ h)))
        have hfirst := firstRun_of_split pre hblanks (List.cons_ne_nil c word) hword hrest
        rw [← htext] at hfirst
        have hright : (pre ++ (blanks ++ (c :: word))).length
            = pre.length + blanks.length + (c :: word).length := by
          simp only [List.length_append]
          omega
        rw [hright] at hruns hrun
        refine ⟨_, .cons hfirst hruns, fun fuel hf before args hbefore => ?_⟩
        obtain ⟨fuel, rfl⟩ := Nat.exists_eq_succ_of_ne_zero (Nat.ne_of_gt
          (Nat.lt_of_le_of_lt (Nat.zero_le _) hf))
        have hnonzero : ∀ x ∈ c :: word, x ≠ 0 ∧ ¬ IsSpace x := by
          refine fun x hx => ⟨?_, hword x hx⟩
          rintro rfl
          exact hnul (List.mem_append_right _ (List.mem_append_left _ hx))
        rw [parseLoop_word hblanks hnonzero hrest, hrun fuel (by omega), hbefore]
        · simp only [cleared_append, List.reverse_append, List.append_assoc]
          rfl
        · rw [List.length_append, hbefore]
          simp [cleared]
          omega

/-- Enough fuel is one step more than there are characters. -/
theorem parse_eq {text : List Byte} (hnul : 0 ∉ text) {words : List (Run Unit)}
    (hwords : Words text words) {fuel : Nat} (hf : text.length < fuel) :
    parse fuel text = some (cleared text ++ [0], Args.none.saveAll words) := by
  obtain ⟨words', hruns, hrun⟩ := @parseLoop_eq text _ text [] (Nat.le_refl _) rfl hnul
  obtain rfl := hwords.unique hruns
  rw [parse, Cursor.start, hrun fuel hf [] Args.none rfl]
  simp

/-! ## The arguments -/

theorem saveAll_argc (words : List (Run Unit)) : ∀ (args : Args),
    (args.saveAll words).argc = args.argc + words.length := by
  induction words with
  | nil => exact fun _ => rfl
  | cons w words ih =>
      intro args
      show ((args.save w.left).saveAll words).argc = _
      rw [ih, List.length_cons]
      show args.argc + 1 + words.length = _
      omega

theorem saveAll_stores (words : List (Run Unit)) : ∀ (args : Args),
    (args.saveAll words).stores
      = args.stores ++ words.mapIdx fun i w => (args.argc + i, w.left) := by
  induction words with
  | nil => exact fun _ => (List.append_nil _).symm
  | cons w words ih =>
      intro args
      show ((args.save w.left).saveAll words).stores = _
      rw [ih, List.mapIdx_cons]
      show args.stores ++ [(args.argc, w.left)]
        ++ words.mapIdx (fun i w => (args.argc + 1 + i, w.left)) = _
      simp [Nat.add_assoc, Nat.add_comm 1]

/-- Every store is within the array, and so is what `runcmd` reads of it. -/
def Args.InBounds (args : Args) : Prop :=
  (∀ s ∈ args.stores, s.1 < maxArgs) ∧ args.argc ≤ maxArgs

theorem saveAll_inBounds (words : List (Run Unit)) :
    (Args.none.saveAll words).InBounds ↔ words.length ≤ maxArgs := by
  unfold Args.InBounds
  rw [saveAll_argc, saveAll_stores]
  show (∀ s ∈ words.mapIdx fun i w => (0 + i, w.left), s.1 < maxArgs) ∧
    0 + words.length ≤ maxArgs ↔ _
  rw [Nat.zero_add]
  refine ⟨fun h => h.2, fun h => ⟨fun s hs => ?_, h⟩⟩
  obtain ⟨i, hi, rfl⟩ := List.mem_mapIdx.mp hs
  show 0 + i < maxArgs
  omega

/-! ## Lines -/

/-- A line as `readline` returns one: no `NUL`, and room for one behind it. -/
structure Line where
  chars : List Byte
  nonzero : 0 ∉ chars
  short : chars.length ≤ bufSize - 1

/-! ## How many words there is room for -/

/-- **SIXTEEN WORDS, AND NO MORE**: on any line the pointers are stored within
    `argv` and are no more than it holds exactly if there are at most sixteen
    words. -/
theorem parse_inBounds_iff (line : Line) {words : List (Run Unit)}
    (hwords : Words line.chars words) {fuel : Nat} (hf : line.chars.length < fuel) :
    ∃ buf args, parse fuel line.chars = some (buf, args) ∧
      (args.InBounds ↔ words.length ≤ maxArgs) :=
  ⟨_, _, parse_eq line.nonzero hwords hf, saveAll_inBounds words⟩

/-- `"ls -a"`. -/
def lsLine : Line := ⟨bytes "ls -a", by decide, by decide⟩

theorem lsLine_words : Words lsLine.chars [⟨0, 2, ()⟩, ⟨3, 5, ()⟩] := by
  have h1 := @firstRun_of_split [] [] (bytes "ls") (bytes " -a")
    (by decide) (by decide) (by decide) (by decide)
  have h2 := @firstRun_of_split (bytes "ls") (bytes " ") (bytes "-a") []
    (by decide) (by decide) (by decide) (by decide)
  exact .cons h1 (.cons h2 (.nil fun i h1 h2 => absurd h1 (Nat.not_le_of_lt h2)))

theorem parse_inBounds_iff_ls : ∃ buf args, parse 6 lsLine.chars = some (buf, args) ∧
    (args.InBounds ↔ 2 ≤ maxArgs) :=
  parse_inBounds_iff lsLine lsLine_words (by decide)

/-- Seventeen words, and no more than two characters for each. -/
def seventeen : Line :=
  ⟨(List.replicate 17 (bytes "a ")).flatten, by decide, by decide⟩

/-- The stores are not within `argv` on every line. -/
theorem not_parse_inBounds : ¬ ∀ (line : Line) (fuel : Nat), line.chars.length < fuel →
    ∃ buf args, parse fuel line.chars = some (buf, args) ∧ args.InBounds := by
  intro h
  obtain ⟨buf, args, hparse, -, hargc⟩ := h seventeen 64 (by decide)
  have hcount : (parse 64 seventeen.chars).map (fun r => r.2.argc) = some 17 := by
    decide +kernel
  rw [hparse] at hcount
  have h17 : args.argc = 17 := Option.some.inj hcount
  rw [h17] at hargc
  exact absurd hargc (by decide)

/-! ## What `argv` points to -/

/-- `argv[i]`: the last pointer stored there. -/
def Args.argv (args : Args) (i : Nat) : Option Nat :=
  ((args.stores.filter fun s => s.1 = i).getLast?).map fun s => s.2

/-- The `C` string at a place in the buffer. -/
def stringAt (buf : List Byte) (p : Nat) : List Byte := (buf.drop p).takeWhile (· ≠ 0)

/-- The characters of a run. -/
def charsOf (text : List Byte) (w : Run Unit) : List Byte :=
  (text.drop w.left).take (w.right - w.left)

/-- No index is stored to twice. -/
theorem filter_stores {words : List (Run Unit)} {w : Run Unit} : ∀ {i : Nat} (k : Nat),
    words[i]? = some w →
    (words.mapIdx fun j w => (k + j, w.left)).filter (fun s => s.1 = k + i)
      = [(k + i, w.left)] := by
  induction words with
  | nil => exact fun _ h => nomatch h
  | cons v words ih =>
      intro i k h
      have hshift : (v :: words).mapIdx (fun j w => (k + j, w.left))
          = (k, v.left) :: words.mapIdx fun j w => (k + 1 + j, w.left) := by
        rw [List.mapIdx_cons]
        simp [Nat.add_assoc, Nat.add_comm 1]
      rw [hshift]
      cases i with
      | zero =>
          obtain rfl : v = w := Option.some.inj h
          rw [List.filter_cons_of_pos (by simp), List.filter_eq_nil_iff.mpr]
          · rfl
          · intro s hs
            obtain ⟨j, -, rfl⟩ := List.mem_mapIdx.mp hs
            simp
            omega
      | succ i =>
          have heq : k + (i + 1) = k + 1 + i := by omega
          rw [List.filter_cons_of_neg (by simp), heq]
          exact ih (k + 1) h

theorem saveAll_argv {words : List (Run Unit)} {i : Nat} {w : Run Unit}
    (h : words[i]? = some w) : (Args.none.saveAll words).argv i = some w.left := by
  have hfilter := filter_stores 0 h
  rw [Nat.zero_add] at hfilter
  rw [Args.argv, saveAll_stores]
  show (((words.mapIdx fun j w => (0 + j, w.left)).filter fun s => s.1 = i).getLast?).map _ = _
  rw [hfilter]
  rfl

theorem wordAt_eq_some {text : List Byte} {i : Nat} {u : Unit} (h : wordAt text i = some u) :
    ∃ c, text[i]? = some c ∧ ¬ IsSpace c := by
  rw [wordAt] at h
  cases hc : text[i]? with
  | none => simp [hc] at h
  | some c =>
      refine ⟨c, rfl, fun hspace => ?_⟩
      simp [hc, hspace] at h

/-- A word ends where its run does, at a blank that was overwritten or at the
    end of the line. -/
theorem stringAt_word {text : List Byte} (hnul : 0 ∉ text) {w : Run Unit}
    (hw : Maximal (wordAt text) 0 text.length w) :
    stringAt (cleared text ++ [0]) w.left = charsOf text w := by
  have hle := Nat.le_of_lt hw.nonEmpty
  have hsplit : text.drop w.left = charsOf text w ++ text.drop w.right := by
    have h := List.take_append_drop (w.right - w.left) (text.drop w.left)
    rw [List.drop_drop, Nat.add_sub_cancel' hle] at h
    exact h.symm
  have hchars : ∀ c ∈ charsOf text w, c ≠ 0 ∧ ¬ IsSpace c := by
    intro c hc
    obtain ⟨j, hj, hget⟩ := List.getElem_of_mem hc
    have hj' : j < w.right - w.left := by
      rw [charsOf, List.length_take] at hj
      omega
    obtain ⟨d, hd, hspace⟩ := wordAt_eq_some (hw.same (w.left + j) (by omega) (by omega))
    have heq : text[w.left + j]? = some c := by
      rw [← hget, ← List.getElem?_eq_getElem hj, charsOf, List.getElem?_take_of_lt hj',
        List.getElem?_drop]
    obtain rfl := Option.some.inj (hd.symm.trans heq)
    exact ⟨fun hzero => hnul (hzero ▸ List.mem_of_getElem? heq), hspace⟩
  have hkept : cleared (charsOf text w) = charsOf text w :=
    (List.map_congr_left fun c hc => if_neg (hchars c hc).2).trans (List.map_id' _)
  have hend : ∃ s, cleared (text.drop w.right) ++ [0] = 0 :: s := by
    cases hdrop : text.drop w.right with
    | nil => exact ⟨[], rfl⟩
    | cons c s =>
        have hc : text[w.right]? = some c := by
          rw [← Nat.add_zero w.right, ← List.getElem?_drop, hdrop]
          rfl
        have hspace : IsSpace c := by
          refine Decidable.not_not.mp fun hspace => ?_
          rcases hw.atRight with hlast | hne
          · rw [hlast, List.drop_length] at hdrop
            exact nomatch hdrop
          · refine hne ?_
            rw [wordAt, hc]
            exact if_neg hspace
        refine ⟨cleared s ++ [0], ?_⟩
        show (if IsSpace c then 0 else c) :: (cleared s ++ [0]) = _
        rw [if_pos hspace]
  obtain ⟨s, hs⟩ := hend
  have hleft : w.left ≤ (cleared text).length := by
    have := hw.upper
    rw [cleared, List.length_map]
    omega
  have hdrop : (cleared text).drop w.left = charsOf text w ++ cleared (text.drop w.right) := by
    rw [cleared, ← List.map_drop, hsplit, List.map_append]
    exact congrArg (· ++ cleared (text.drop w.right)) hkept
  rw [stringAt, List.drop_append_of_le_length hleft, hdrop, List.append_assoc, hs,
    List.takeWhile_append_of_pos fun c hc => by simpa using (hchars c hc).1]
  show charsOf text w ++ [] = _
  exact List.append_nil _

/-- **THE WORDS OF A LINE**: with room for them and one more in `argv`, `parse`
    returns how many maximal runs of other characters than blanks there are, and
    leaves in `argv` the strings they are; in the buffer nothing but blanks has
    been overwritten, with `NUL`. -/
theorem parse_argv {text : List Byte} (hnul : 0 ∉ text) {words : List (Run Unit)}
    (hwords : Words text words) (hroom : words.length ≤ maxArgs - 1) {fuel : Nat}
    (hf : text.length < fuel) :
    ∃ (buf : List Byte) (args : Args), parse fuel text = some (buf, args) ∧
      args.argc = words.length ∧ args.InBounds ∧
      (∀ i w, words[i]? = some w →
        ∃ p, args.argv i = some p ∧ stringAt buf p = charsOf text w) ∧
      buf.length = text.length + 1 ∧
      ∀ (i : Nat) (c : Byte), (text ++ [0])[i]? = some c →
        buf[i]? = some c ∨ IsSpace c ∧ buf[i]? = some 0 := by
  refine ⟨_, _, parse_eq hnul hwords hf, ?_, ?_, fun i w hi => ?_, ?_, fun i c hi => ?_⟩
  · rw [saveAll_argc]
    exact Nat.zero_add _
  · rw [saveAll_inBounds]
    omega
  · exact ⟨_, saveAll_argv hi, stringAt_word hnul (hwords.maximal w (List.mem_of_getElem? hi))⟩
  · simp [cleared]
  · rcases Nat.lt_or_ge i text.length with hlt | hge
    · have hc : text[i]? = some c := by rwa [List.getElem?_append_left hlt] at hi
      have hbuf : (cleared text ++ [0])[i]? = some (if IsSpace c then 0 else c) := by
        rw [List.getElem?_append_left (by simpa [cleared] using hlt), cleared,
          List.getElem?_map, hc]
        rfl
      rw [hbuf]
      by_cases hspace : IsSpace c
      · rw [if_pos hspace]
        exact .inr ⟨hspace, rfl⟩
      · rw [if_neg hspace]
        exact .inl rfl
    · refine .inl ?_
      rw [List.getElem?_append_right hge] at hi
      rw [List.getElem?_append_right (by simpa [cleared] using hge), cleared, List.length_map]
      exact hi

/-- `"ls -a"` has two. -/
theorem parse_argv_ls : ∃ (buf : List Byte) (args : Args),
    parse 6 lsLine.chars = some (buf, args) ∧ args.argc = 2 ∧ args.InBounds ∧
      (∀ (i : Nat) (w : Run Unit), ([⟨0, 2, ()⟩, ⟨3, 5, ()⟩] : List (Run Unit))[i]? = some w →
        ∃ p, args.argv i = some p ∧ stringAt buf p = charsOf lsLine.chars w) ∧
      buf.length = 6 ∧
      ∀ (i : Nat) (c : Byte), (lsLine.chars ++ [0])[i]? = some c →
        buf[i]? = some c ∨ IsSpace c ∧ buf[i]? = some 0 :=
  parse_argv lsLine.nonzero lsLine_words (by decide) (by decide)

end SharixParse
