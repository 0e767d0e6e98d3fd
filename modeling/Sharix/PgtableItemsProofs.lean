import Sharix.MaximalRunProofs
import Sharix.SelfMapProofs

/-! # `print_pgdir` — the runs of the page tables

    `get_pgtable_items` answers the next run of present entries with the same
    rights, and 0 when there is none: the present bit is one of the rights, so
    a run is never 0.  `print_pgdir` walks the runs of the directory, and for
    each one those of the tables behind it.  A table is read through `vpt`,
    where a missing table is a page fault. -/

namespace SharixPaging

open SharixMaximalRun

def PTE_USER : Word := PTE_U ||| PTE_W ||| PTE_P

/-- The entries of a table, `none` where reading one faults. -/
abbrev Table := Nat → Option Word

/-! ## The model -/

/-- `while (start < right && p(table[start])) start ++`. -/
def scanWhile (p : Word → Bool) (table : Table) (right start : Nat) : Option Nat :=
  if start < right then
    (table start).bind fun pte =>
      if p pte then scanWhile p table right (start + 1) else some start
  else some start
termination_by right - start

/-- The value returned, and the variables that `left_store` and `right_store`
    point to, `none` for `NULL`.  `left` has no use. -/
def getPgtableItems (_left right start : Nat) (table : Table)
    (leftStore rightStore : Option Nat) :
    Option (Word × Option Nat × Option Nat) :=
  if start ≥ right then some (0#32, leftStore, rightStore)
  else
    (scanWhile (fun pte => pte &&& PTE_P = 0#32) table right start).bind fun start =>
      if start < right then
        (table start).bind fun pte =>
          let perm := pte &&& PTE_USER
          (scanWhile (fun pte => pte &&& PTE_USER = perm) table right
            (start + 1)).map fun stop =>
              (perm, leftStore.map fun _ => start, rightStore.map fun _ => stop)
      else some (0#32, leftStore, rightStore)

/-- `while ((perm = get_pgtable_items(left, right, r, table, &l, &r)) != 0)`,
    with what it finds in each pass. -/
def pgtableItems (left right : Nat) (table : Table) :
    Nat → Nat → Nat → Option (List (Run Word))
  | 0, _, _ => none
  | fuel + 1, l, r =>
      (getPgtableItems left right r table (some l) (some r)).bind fun res =>
        if res.1 = 0#32 then some []
        else
          res.2.1.bind fun l => res.2.2.bind fun r =>
            (pgtableItems left right table fuel l r).map (⟨l, r, res.1⟩ :: ·)

/-- What `print_pgdir` prints: each run of `vpd`, with those of `vpt` behind
    it.  `undef` is the value of `l` before it is set. -/
def pgdirItems (undef : Nat) (vpd vpt : Table) :
    Nat → Nat → Nat → Option (List (Run Word × List (Run Word)))
  | 0, _, _ => none
  | fuel + 1, left, right =>
      (getPgtableItems 0 1024 right vpd (some left) (some right)).bind fun res =>
        if res.1 = 0#32 then some []
        else
          res.2.1.bind fun left => res.2.2.bind fun right =>
            (pgtableItems (left * 1024) (right * 1024) vpt (1024 * 1024 + 1) undef
              (left * 1024)).bind fun items =>
                (pgdirItems undef vpd vpt fuel left right).map
                  ((⟨left, right, res.1⟩, items) :: ·)

/-- `left` is not set before the loop either. -/
def printPgdir (undef : Nat) (vpd vpt : Table) :
    Option (List (Run Word × List (Run Word))) :=
  pgdirItems undef vpd vpt 1025 undef 0

/-! ## Entries and their rights -/

/-- The rights of a present entry. -/
def userOf (table : Table) (i : Nat) : Option Word :=
  (table i).bind fun pte => if Present pte then some (pte &&& PTE_USER) else none

/-- Every entry from `lo` to before `hi` can be read. -/
def Readable (table : Table) (lo hi : Nat) : Prop :=
  ∀ i, lo ≤ i → i < hi → ∃ pte, table i = some pte

theorem user_and_present (pte : Word) : pte &&& PTE_USER &&& PTE_P = pte &&& PTE_P := by
  rw [BitVec.and_assoc]
  rfl

/-- The rights of a present entry are not 0. -/
theorem user_ne_zero {pte : Word} (h : Present pte) : pte &&& PTE_USER ≠ 0#32 := by
  intro he
  refine h ?_
  rw [← user_and_present, he]
  rfl

theorem userOf_of_present {table : Table} {i : Nat} {pte : Word}
    (h : table i = some pte) (hp : Present pte) :
    userOf table i = some (pte &&& PTE_USER) := by
  rw [userOf, h]
  exact if_pos hp

theorem userOf_of_absent {table : Table} {i : Nat} {pte : Word}
    (h : table i = some pte) (hp : ¬ Present pte) : userOf table i = none := by
  rw [userOf, h]
  exact if_neg hp

/-- An entry with the rights of a present one is present. -/
theorem present_of_user_eq {pte perm : Word} (h : pte &&& PTE_USER = perm)
    (hperm : Present perm) : Present pte := by
  rw [Present, ← user_and_present, h]
  exact hperm

/-! ## One call -/

/-- The scan stops at the first entry that fails the test, or at the end. -/
theorem scanWhile_spec (p : Word → Bool) {table : Table} {right : Nat} :
    ∀ {start : Nat}, start ≤ right → Readable table start right →
      ∃ stop, scanWhile p table right start = some stop ∧
        start ≤ stop ∧ stop ≤ right ∧
        (∀ i, start ≤ i → i < stop → ∃ pte, table i = some pte ∧ p pte = true) ∧
        (stop = right ∨ stop < right ∧ ∃ pte, table stop = some pte ∧ p pte = false) := by
  intro start
  induction hn : right - start generalizing start with
  | zero =>
      intro hle _
      have he : start = right := by omega
      refine ⟨start, ?_, Nat.le_refl _, hle, fun i h1 h2 => ?_, .inl he⟩
      · rw [scanWhile, if_neg (by omega)]
      · omega
  | succ n ih =>
      intro hle hread
      have hlt : start < right := by omega
      obtain ⟨pte, hpte⟩ := hread start (Nat.le_refl _) hlt
      cases hp : p pte with
      | true =>
          have hrest : right - (start + 1) = n := by omega
          obtain ⟨stop, hscan, h1, h2, hall, hend⟩ := ih hrest hlt (fun i hi => hread i (by omega))
          refine ⟨stop, ?_, by omega, h2, fun i hi hi' => ?_, hend⟩
          · rw [scanWhile, if_pos hlt, hpte, Option.bind_some, if_pos hp, hscan]
          · rcases Nat.eq_or_lt_of_le hi with rfl | hlt'
            · exact ⟨pte, hpte, hp⟩
            · exact hall i hlt' hi'
      | false =>
          refine ⟨start, ?_, Nat.le_refl _, hle, fun i hi hi' => ?_,
            .inr ⟨hlt, pte, hpte, hp⟩⟩
          · rw [scanWhile, if_pos hlt, hpte, Option.bind_some, if_neg]
            rw [hp]
            exact Bool.false_ne_true
          · omega

/-- A call answers 0 and stores nothing if no entry is present, and the first
    run otherwise. -/
theorem getPgtableItems_spec (left : Nat) {right start : Nat} {table : Table}
    (hread : Readable table start right) (leftStore rightStore : Option Nat) :
    (getPgtableItems left right start table leftStore rightStore
        = some (0#32, leftStore, rightStore) ∧
      ∀ i, start ≤ i → i < right → userOf table i = none) ∨
    ∃ x : Run Word, getPgtableItems left right start table leftStore rightStore
        = some (x.color, leftStore.map fun _ => x.left,
            rightStore.map fun _ => x.right) ∧
      x.color ≠ 0#32 ∧ FirstRun (userOf table) start right x := by
  by_cases hge : start ≥ right
  · refine .inl ⟨?_, fun i h1 h2 => ?_⟩
    · rw [getPgtableItems, if_pos hge]
    · omega
  · -- the first scan skips what is not present
    obtain ⟨l, hskip, h1, h2, habsent, hl⟩ := scanWhile_spec
      (fun pte => pte &&& PTE_P = 0#32) (Nat.le_of_not_le hge) hread
    have hnone : ∀ i, start ≤ i → i < l → userOf table i = none := by
      intro i hi hi'
      obtain ⟨pte, hpte, hp⟩ := habsent i hi hi'
      exact userOf_of_absent hpte (not_not.mpr (of_decide_eq_true hp))
    rw [getPgtableItems, if_neg hge, hskip, Option.bind_some]
    rcases hl with rfl | ⟨hlt, pte, hpte, hp⟩
    · exact .inl ⟨if_neg (Nat.lt_irrefl _), hnone⟩
    · have hpres : Present pte := of_decide_eq_false hp
      have huser : Present (pte &&& PTE_USER) := by
        rw [Present, user_and_present]
        exact hpres
      -- the second goes on while the rights are the same
      obtain ⟨r, hsame, h3, h4, hall, hr⟩ := scanWhile_spec
        (fun q => q &&& PTE_USER = pte &&& PTE_USER) hlt
        (fun i hi => hread i (by omega))
      refine .inr ⟨⟨l, r, pte &&& PTE_USER⟩, ?_, user_ne_zero hpres,
        ⟨h3, h1, h4, hnone, fun i hi hi' => ?_, ?_⟩⟩
      · rw [if_pos hlt, hpte, Option.bind_some]
        dsimp only
        rw [hsame]
        rfl
      · rcases Nat.eq_or_lt_of_le hi with rfl | hlt'
        · exact userOf_of_present hpte hpres
        · obtain ⟨q, hq, he⟩ := hall i hlt' hi'
          have heq : q &&& PTE_USER = pte &&& PTE_USER := of_decide_eq_true he
          rw [userOf_of_present hq (present_of_user_eq heq huser), heq]
      · rcases hr with he | ⟨-, q, hq, he⟩
        · exact .inl he
        · refine .inr ?_
          by_cases hp : Present q
          · rw [userOf_of_present hq hp]
            intro hsome
            exact of_decide_eq_false he (Option.some.inj hsome)
          · rw [userOf_of_absent hq hp]
            exact fun hsome => by cases hsome

/-! ## The two loops -/

/-- Calls from the end of one run to the next end, and answer the runs. -/
theorem pgtableItems_spec (left : Nat) {right : Nat} {table : Table} {fuel : Nat} :
    ∀ (l : Nat) {r : Nat}, right - r < fuel → Readable table r right →
      ∃ xs, pgtableItems left right table fuel l r = some xs ∧
        Runs (userOf table) r right xs := by
  induction fuel with
  | zero => exact fun l r h => absurd h (Nat.not_lt_zero _)
  | succ fuel ih =>
      intro l r hfuel hread
      rcases getPgtableItems_spec left hread (some l) (some r) with
        ⟨hcall, hnone⟩ | ⟨x, hcall, hne, hx⟩
      · refine ⟨[], ?_, Runs.nil hnone⟩
        rw [pgtableItems, hcall, Option.bind_some]
        exact if_pos rfl
      · have hmore : r < x.right := Nat.lt_of_le_of_lt hx.lower hx.nonEmpty
        have hend := hx.upper
        obtain ⟨xs, hrest, hruns⟩ := ih x.left (r := x.right) (by omega)
          (fun i hi => hread i (by omega))
        refine ⟨x :: xs, ?_, Runs.cons hx hruns⟩
        rw [pgtableItems, hcall, Option.bind_some]
        dsimp only
        rw [if_neg hne]
        simp only [Option.map_some, Option.bind_some]
        rw [hrest]
        rfl

/-- `vpt` can be read wherever `vpd` has a present entry. -/
def Mapped (vpd vpt : Table) : Prop :=
  ∀ i pde, i < 1024 → vpd i = some pde → Present pde →
    Readable vpt (i * 1024) ((i + 1) * 1024)

/-- Behind a run of the directory `vpt` can be read. -/
theorem readable_behind {vpd vpt : Table} {lo : Nat} {x : Run Word}
    (h : Mapped vpd vpt) (hx : Maximal (userOf vpd) lo 1024 x) :
    Readable vpt (x.left * 1024) (x.right * 1024) := by
  intro j h1 h2
  -- entry `j` of `vpt` belongs to entry `j / 1024` of `vpd`
  have hbelow : j < (j / 1024 + 1) * 1024 :=
    (Nat.div_lt_iff_lt_mul (Nat.succ_pos 1023)).mp (Nat.lt_succ_self _)
  have hj : j / 1024 < x.right := by omega
  have hsome : userOf vpd (j / 1024) = some x.color :=
    hx.same _ (by omega) hj
  obtain ⟨pde, hpde, hp⟩ := Option.bind_eq_some_iff.mp hsome
  split at hp
  · rename_i hpres
    exact h (j / 1024) pde (Nat.lt_of_lt_of_le hj hx.upper) hpde hpres j
      (Nat.div_mul_le_self j 1024) hbelow
  · cases hp

theorem pgdirItems_spec (undef : Nat) {vpd vpt : Table} (hmapped : Mapped vpd vpt)
    {fuel : Nat} : ∀ (left : Nat) {right : Nat}, 1024 - right < fuel →
      Readable vpd right 1024 →
      ∃ out, pgdirItems undef vpd vpt fuel left right = some out ∧
        Runs (userOf vpd) right 1024 (out.map fun x => x.1) ∧
        ∀ x ∈ out, Runs (userOf vpt) (x.1.left * 1024) (x.1.right * 1024) x.2 := by
  induction fuel with
  | zero => exact fun left right h => absurd h (Nat.not_lt_zero _)
  | succ fuel ih =>
      intro left right hfuel hread
      rcases getPgtableItems_spec 0 hread (some left) (some right) with
        ⟨hcall, hnone⟩ | ⟨x, hcall, hne, hx⟩
      · refine ⟨[], ?_, Runs.nil hnone, fun x hx => absurd hx List.not_mem_nil⟩
        rw [pgdirItems, hcall, Option.bind_some]
        exact if_pos rfl
      · -- each pass ends further right: the passes are at most 1024
        have hmore : right < x.right := Nat.lt_of_le_of_lt hx.lower hx.nonEmpty
        have hend := hx.upper
        have hinside : x.right * 1024 - x.left * 1024 < 1024 * 1024 + 1 := by omega
        have hleft : 1024 - x.right < fuel := by omega
        obtain ⟨items, hinner, hitems⟩ := pgtableItems_spec (x.left * 1024)
          undef hinside (readable_behind hmapped hx.maximal)
        obtain ⟨out, hrest, hruns, hout⟩ := ih x.left hleft
          (fun i hi => hread i (by omega))
        refine ⟨(x, items) :: out, ?_, Runs.cons hx hruns, fun y hy => ?_⟩
        · rw [pgdirItems, hcall, Option.bind_some]
          dsimp only
          rw [if_neg hne]
          simp only [Option.map_some, Option.bind_some]
          rw [hinner, Option.bind_some, hrest]
          rfl
        · rcases List.mem_cons.mp hy with rfl | hy
          · exact hitems
          · exact hout y hy

/-- The entry `&table[n]`, read through the walk. -/
def readTable (mem : Word → Word) (cr3 table : Word) : Table :=
  fun n => (translate mem cr3 (slot table (BitVec.ofNat 32 n))).map
    fun r => mem (VADDR r.1)

/-- With the directory in its slot, `vpd` reads the directory. -/
theorem readTable_vpd {pgdir : Word} {mem : Word → Word}
    (hself : SelfMapped pgdir mem (PDX VPT)) {i : Nat} (hi : i < 1024) :
    readTable mem (PADDR pgdir) vpd i = some (mem (slot pgdir (BitVec.ofNat 32 i))) := by
  have hvpt : PDX VPT = 1003#32 := by decide
  have hword : (BitVec.ofNat 32 i).toNat = i := by
    rw [BitVec.toNat_ofNat]
    omega
  have hn : (1024#32 * PDX VPT + BitVec.ofNat 32 i).toNat
      = 1024 * (PDX VPT).toNat + (BitVec.ofNat 32 i).toNat := by
    rw [hword, hvpt, BitVec.toNat_add, BitVec.toNat_mul, hword]
    simp only [BitVec.toNat_ofNat]
    omega
  rw [readTable, slot_vpd,
    translate_vpt hself hn (by decide) (by omega) hself.1, Option.map_some,
    VADDR_slot, hself.2, VADDR_PADDR]

/-- And `vpt` can be read behind the entries of the directory. -/
theorem mapped_vpt {pgdir : Word} {mem : Word → Word}
    (hself : SelfMapped pgdir mem (PDX VPT)) :
    Mapped (readTable mem (PADDR pgdir) vpd) (readTable mem (PADDR pgdir) vpt) := by
  intro i pde hi hpde hp j h1 h2
  rw [readTable_vpd hself hi] at hpde
  obtain rfl := Option.some.inj hpde
  have hj : j = 1024 * i + j % 1024 := by omega
  have hn : (BitVec.ofNat 32 j).toNat = 1024 * (BitVec.ofNat 32 i).toNat
      + (BitVec.ofNat 32 (j % 1024)).toNat := by
    rw [BitVec.toNat_ofNat, BitVec.toNat_ofNat, BitVec.toNat_ofNat]
    omega
  have hd : (BitVec.ofNat 32 i).toNat < 1024 := by
    rw [BitVec.toNat_ofNat]
    omega
  have ht : (BitVec.ofNat 32 (j % 1024)).toNat < 1024 := by
    rw [BitVec.toNat_ofNat]
    omega
  rw [readTable, translate_vpt hself hn hd ht hp]
  exact ⟨_, rfl⟩

/-- `print_pgdir` never faults on a directory in its slot, and its runs are
    those of the directory. -/
theorem printPgdir_returns (undef : Nat) {pgdir : Word} {mem : Word → Word}
    (hself : SelfMapped pgdir mem (PDX VPT)) :
    ∃ out, printPgdir undef (readTable mem (PADDR pgdir) vpd)
        (readTable mem (PADDR pgdir) vpt) = some out ∧
      Runs (userOf (readTable mem (PADDR pgdir) vpd)) 0 1024
        (out.map fun x => x.1) := by
  have hfuel : 1024 - 0 < 1025 := by decide
  obtain ⟨out, hrun, hruns, -⟩ := pgdirItems_spec undef (mapped_vpt hself) undef
    hfuel (fun i _ hi => ⟨_, readTable_vpd hself hi⟩)
  exact ⟨out, hrun, hruns⟩

/-- **THE CALLS FIND ALL RUNS**: called from where it stopped until it answers
    0, `get_pgtable_items` answers the maximal runs of present entries with
    the same rights, in order, and reads nothing outside of the range.
    `print_pgdir` does so on both levels, and reads `vpt` only behind present
    entries of the directory. -/
theorem get_pgtable_items_runs :
    (∀ (table : Table) (left right start l fuel : Nat),
      Readable table start right → right - start < fuel →
      ∃ xs, pgtableItems left right table fuel l start = some xs ∧
        Runs (userOf table) start right xs) ∧
    ∀ (vpd vpt : Table) (undef : Nat), Readable vpd 0 1024 → Mapped vpd vpt →
      ∃ out, printPgdir undef vpd vpt = some out ∧
        Runs (userOf vpd) 0 1024 (out.map fun x => x.1) ∧
        ∀ x ∈ out, Runs (userOf vpt) (x.1.left * 1024) (x.1.right * 1024) x.2 :=
  ⟨fun _ left _ _ l _ hread hfuel => pgtableItems_spec left l hfuel hread,
    fun _ _ undef hread hmapped =>
      pgdirItems_spec undef hmapped undef (by decide) hread⟩

/-- One present entry in the directory, and a full table behind it. -/
def demoVpd : Table := fun i => some (if i = 3 then 7#32 else 0#32)

def demoVpt : Table := fun j => if j / 1024 = 3 then some 5#32 else none

theorem get_pgtable_items_runs_demo :
    (∃ xs, pgtableItems 0 4096 demoVpt 1025 0 3072 = some xs ∧
      Runs (userOf demoVpt) 3072 4096 xs) ∧
    ∃ out, printPgdir 0 demoVpd demoVpt = some out ∧
      Runs (userOf demoVpd) 0 1024 (out.map fun x => x.1) := by
  have hread : Readable demoVpt 3072 4096 := by
    intro i h1 h2
    exact ⟨_, if_pos (by omega)⟩
  have hmapped : Mapped demoVpd demoVpt := by
    intro i pde hi hpde hp j h1 h2
    obtain rfl := Option.some.inj hpde
    by_cases he : i = 3
    · rw [he] at h1 h2
      exact hread j h1 h2
    · rw [if_neg he] at hp
      exact absurd hp not_present_zero
  obtain ⟨hitems, hprint⟩ := get_pgtable_items_runs
  obtain ⟨out, hout, hruns, -⟩ := hprint demoVpd demoVpt 0
    (fun i _ _ => ⟨_, rfl⟩) hmapped
  exact ⟨hitems demoVpt 0 4096 3072 0 1025 hread (by decide), out, hout, hruns⟩

end SharixPaging
