import Sharix.StabBracketProofs
import Sharix.StringOpsProofs

/-! # What an address belongs to — `debuginfo_eip` of `kdebug.c`

    Three searches in the stab table, each inside the range that the one before
    left: the file, the function, the line.  Then two scans without a search,
    and a name that ends at a colon.

    The searches do not always bracket.  `debuginfo_eip_in_tables` is what holds
    anyway: whatever is in the table, behind a first entry of another type, the
    function ends, reads the tables only, and leaves strings that are there.
    The turning point is `Outcome`: a search leaves its range by at most one
    entry, and only if its first entry has the type that it looks for.

    `debuginfo_eip_locates` is the case that the function is for. -/

namespace SharixDebuginfo

open SharixStab SharixString SharixMemmove

/-! ## The model -/

def N_FUN : Int := 0x24
def N_SLINE : Int := 0x44
def N_SO : Int := 0x64
def N_SOL : Int := 0x84
def N_PSYM : Int := 0xa0

/-- `struct stab`; nothing reads `n_other`. -/
structure DebugStab extends Stab where
  nStrx : BitVec 32
  nDesc : BitVec 16
deriving DecidableEq, Repr

/-- What the symbols of the linker enclose, and where `"<unknown>"` is. -/
structure Tables where
  stabs : List DebugStab
  stabstr : Word
  stabstrEnd : Word
  unknown : Word

/-- `stabs[i]`. -/
def Tables.stab (k : Tables) (i : Int) : Option DebugStab :=
  if 0 ≤ i then k.stabs[i.toNat]? else none

/-- What the searches see of it. -/
def Tables.table (k : Tables) : Table := fun i => (k.stab i).map DebugStab.toStab

/-- `stabstr_end - stabstr`. -/
def Tables.size (k : Tables) : Word := k.stabstrEnd - k.stabstr

structure EipDebuginfo where
  eipFile : Word
  eipLine : Int
  eipFnName : Word
  eipFnNamelen : Int
  eipFnAddr : Word
  eipFnNarg : Int
deriving DecidableEq, Repr

/-- What is known when the function has been searched for: the line is looked
    for between `lline` and `rline`, with `addr`. -/
structure Scope where
  info : EipDebuginfo
  addr : Word
  lline : Int
  rline : Int

/-- `if (lfun <= rfun) … else …`. -/
def enterFunction (k : Tables) (info : EipDebuginfo) (addr : Word)
    (lfile rfile lfun rfun : Int) : Option Scope :=
  if lfun ≤ rfun then do
    let st ← k.stab lfun
    let info := if st.nStrx < k.size then { info with eipFnName := k.stabstr + st.nStrx } else info
    return ⟨{ info with eipFnAddr := st.nValue }, addr - st.nValue, lfun, rfun⟩
  else
    -- maybe an assembly file: the whole file is searched for the line
    return ⟨{ info with eipFnAddr := addr }, addr, lfile, rfile⟩

/-- Where the scan for the file name stops. -/
def NamesFile (st : DebugStab) : Prop :=
  HasType N_SOL st.toStab ∨ (HasType N_SO st.toStab ∧ st.nValue ≠ 0)

instance (st : DebugStab) : Decidable (NamesFile st) :=
  inferInstanceAs (Decidable (_ ∨ _))

/-- `while (lline >= lfile && …) lline --;` -/
def scanFile (k : Tables) (lfile : Int) : Nat → Int → Option Int
  | 0, _ => none
  | fuel + 1, lline =>
      if lfile ≤ lline then do
        let st ← k.stab lline
        if NamesFile st then return lline else scanFile k lfile fuel (lline - 1)
      else some lline

/-- `if (lline >= lfile && stabs[lline].n_strx < …)`. -/
def enterFile (k : Tables) (info : EipDebuginfo) (lfile lline : Int) : Option EipDebuginfo :=
  if lfile ≤ lline then do
    let st ← k.stab lline
    return if st.nStrx < k.size then { info with eipFile := k.stabstr + st.nStrx } else info
  else some info

/-- `for (…; lline < rfun && stabs[lline].n_type == N_PSYM; lline ++) narg ++;` -/
def countArgs (k : Tables) (rfun : Int) : Nat → Int → Int → Option Int
  | 0, _, _ => none
  | fuel + 1, lline, narg =>
      if lline < rfun then do
        let st ← k.stab lline
        if HasType N_PSYM st.toStab then countArgs k rfun fuel (lline + 1) (narg + 1)
        else return narg
      else some narg

/-- `if (lfun < rfun) …`. -/
def enterArgs (fuel : Nat) (k : Tables) (lfun rfun : Int) (info : EipDebuginfo) :
    Option (Int × EipDebuginfo) :=
  if lfun < rfun then do
    let narg ← countArgs k rfun fuel (lfun + 1) info.eipFnNarg
    return (0, { info with eipFnNarg := narg })
  else some (0, info)

/-- When a line has been found. -/
def enterLine (fuel : Nat) (k : Tables) (lfile lfun rfun : Int) (info : EipDebuginfo)
    (lline rline : Int) : Option (Int × EipDebuginfo) := do
  let st ← k.stab rline
  let lline ← scanFile k lfile fuel lline
  let info ← enterFile k { info with eipLine := st.nDesc.toNat } lfile lline
  enterArgs fuel k lfun rfun info

/-- From the line search on. -/
def searchLine (fuel : Nat) (k : Tables) (lfile lfun rfun : Int) (s : Scope) :
    Option (Int × EipDebuginfo) := do
  let p ← stabBinsearch fuel k.table s.lline s.rline N_SLINE s.addr
  if p.1 ≤ p.2 then enterLine fuel k lfile lfun rfun s.info p.1 p.2 else return (-1, s.info)

/-- From the function search on. -/
def searchFunction (fuel : Nat) (k : Tables) (m : Mem) (info : EipDebuginfo)
    (addr : Word) (lfile rfile : Int) : Option (Int × EipDebuginfo) := do
  let p ← stabBinsearch fuel k.table lfile rfile N_FUN addr
  let s ← enterFunction k info addr lfile rfile p.1 p.2
  let colon ← strfind m 58 fuel s.info.eipFnName
  let info := { s.info with eipFnNamelen := (colon - s.info.eipFnName).toInt }
  searchLine fuel k lfile p.1 p.2 { s with info := info }

/-- What is filled in first. -/
def Tables.noInfo (k : Tables) (addr : Word) : EipDebuginfo :=
  ⟨k.unknown, 0, k.unknown, 9, addr, 0⟩

/-- The return value, and `*info`. -/
def debuginfoEip (fuel : Nat) (k : Tables) (m : Mem) (addr : Word) : Option (Int × EipDebuginfo) :=
  let info := k.noInfo addr
  if k.stabstrEnd ≤ k.stabstr ∨ m (k.stabstrEnd - 1) ≠ 0 then some (-1, info)
  else do
    let p ← stabBinsearch fuel k.table 0 (k.stabs.length - 1) N_SO addr
    if p.1 = 0 then return (-1, info)
    else searchFunction fuel k m info addr p.1 p.2

/-! ## Loops with fuel -/

/-- With enough fuel the result is `r`. -/
def Yields {R : Type} (f : Nat → Option R) (r : R) : Prop :=
  ∃ n, ∀ fuel, n < fuel → f fuel = some r

theorem Yields.const {R : Type} {f : Nat → Option R} {r : R} (h : ∀ fuel, f fuel = some r) :
    Yields f r :=
  ⟨0, fun fuel _ => h fuel⟩

/-- One loop after another: the larger amount of fuel is enough for both. -/
theorem Yields.bind {R T : Type} {f : Nat → Option T} {g : Nat → T → Option R} {t : T} {r : R}
    (hf : Yields f t) (hg : Yields (fun fuel => g fuel t) r) :
    Yields (fun fuel => (f fuel).bind (g fuel)) r := by
  obtain ⟨n, hn⟩ := hf
  obtain ⟨n', hn'⟩ := hg
  refine ⟨max n n', fun fuel hfuel => ?_⟩
  show (f fuel).bind (g fuel) = some r
  rw [hn fuel (by omega)]
  exact hn' fuel (by omega)

theorem Yields.of_eq {R : Type} {f g : Nat → Option R} {r : R} (h : Yields g r)
    (heq : ∀ fuel, f fuel = g fuel) : Yields f r := by
  obtain ⟨n, hn⟩ := h
  exact ⟨n, fun fuel hfuel => (heq fuel).trans (hn fuel hfuel)⟩

/-- There is one result, as any two amounts of fuel have a larger one. -/
theorem Yields.unique {R : Type} {f : Nat → Option R} {r r' : R} (h : Yields f r)
    (h' : Yields f r') : r = r' := by
  obtain ⟨n, hn⟩ := h
  obtain ⟨n', hn'⟩ := h'
  exact Option.some.inj ((hn (n + n' + 1) (by omega)).symm.trans (hn' (n + n' + 1) (by omega)))

/-- One round more. -/
theorem Yields.round {R : Type} {f g : Nat → Option R} {r : R} (h : Yields g r)
    (heq : ∀ fuel, f (fuel + 1) = g fuel) : Yields f r := by
  obtain ⟨n, hn⟩ := h
  refine ⟨n + 1, fun fuel hfuel => ?_⟩
  obtain ⟨fuel, rfl⟩ := Nat.exists_eq_succ_of_ne_zero (Nat.ne_of_gt (Nat.zero_lt_of_lt hfuel))
  exact (heq fuel).trans (hn fuel (Nat.lt_of_succ_lt_succ hfuel))

/-! ## A search stays where it is, almost -/

section Searches

variable {g : Region}

/-- What a search leaves, in a table of any order. -/
structure Outcome (g : Region) (res : Int × Int) : Prop where
  right : res.2 ≤ g.right
  missed : res.2 < res.1 → res = (g.left, g.left - 1)
  near : g.left - 1 ≤ res.1
  inside : (∀ v, ¬ g.Entry g.left v) → g.left ≤ res.1

/-- The ends never pass each other by more than one. -/
structure Adjacent (g : Region) (s : Search) : Prop where
  tracks : Tracks g s
  le : s.left ≤ s.right + 1
  right : (∀ v, ¬ g.Entry g.left v) → g.left ≤ s.right

/-- They begin on both sides of a range that is not empty. -/
theorem start_adjacent (g : Region) (addr : BitVec 32) : Adjacent g (start g addr) := by
  have hle : g.left ≤ g.right := g.le
  refine ⟨start_tracks g addr, ?_, fun _ => hle⟩
  show g.left ≤ g.right + 1
  omega

/-- A round keeps them so: it lowers `right` to just below an entry that is not
    below `left`. -/
theorem Step.adjacent {s t : Search} (hs : Adjacent g s) (h : Step g s t) : Adjacent g t := by
  have ht := Step.tracks hs.tracks h
  obtain ⟨hle, hp⟩ := h
  have hr := hs.tracks.right_eq
  obtain ⟨hlm, hmr⟩ := hs.tracks.inside.mid hle
  cases hp with
  | skip _ => exact ⟨ht, hs.le, hs.right⟩
  | below hat _ =>
      have hmid := hat.le
      exact ⟨ht, by simp only; omega, hs.right⟩
  | @above m v hat _ =>
      have hleft := hs.tracks.left_le
      have hl := hat.ge
      refine ⟨ht, by simp only; omega, fun hfirst => ?_⟩
      have hge := hat.entry.ge
      have hne : m ≠ g.left := fun hm => hfirst v (hm ▸ hat.entry)
      show g.left ≤ m - 1
      omega
  | hit hat =>
      have hmid := hat.le
      exact ⟨ht, by simp only; omega, hs.right⟩

/-- And all rounds, by induction on them. -/
theorem run_adjacent {s t : Search} (hs : Adjacent g s)
    (h : Relation.ReflTransGen (Step g) s t) : Adjacent g t := by
  have hstep : ∀ s t, Adjacent g s → Step g s t → Adjacent g t := fun _ _ => Step.adjacent
  exact SharixRun.run_invariant hstep h hs

/-- A scan goes below its bound by at most one. -/
theorem scanDown_ge {stabs : Table} {type l : Int} {fuel : Nat} : ∀ {m k : Int},
    scanDown stabs type l fuel m = some k → l - 1 ≤ m → l - 1 ≤ k := by
  induction fuel with
  | zero => exact fun h _ => nomatch h
  | succ fuel ih =>
      intro m k h hm
      rw [scanDown] at h
      split at h
      · obtain ⟨st, -, h⟩ := Option.bind_eq_some_iff.mp h
        split at h
        · exact Option.some.inj h ▸ hm
        · exact ih h (by omega)
      · exact Option.some.inj h ▸ hm

/-- A search ends as `Outcome` says: with no match the ends are crossed at the
    start, and with one the last scan goes down to an entry or to `left`. -/
theorem stabBinsearch_outcome (g : Region) (addr : BitVec 32) :
    ∃ res, Yields (fun fuel => stabBinsearch fuel g.stabs g.left g.right g.type addr) res ∧
      Outcome g res := by
  obtain ⟨s, hloop, hrun, -, hin⟩ := searchLoop_run (start_inside g addr) (Nat.le_refl _)
  obtain ⟨-, res, -, -, -, -, n, hres⟩ := stabBinsearch_run g addr
  have hs := run_adjacent (start_adjacent g addr) hrun
  have hright := hs.tracks.inside.right
  have hleft := hs.tracks.inside.left
  obtain ⟨k, hscan, hk⟩ := scanDown_ends (l := s.left + 1) (by omega) hright rfl
  refine ⟨res, ⟨n, hres⟩, ?_⟩
  -- the call, read with fuel that is enough for all three
  obtain ⟨fuel, hfuel⟩ : ∃ fuel, fuel = max n ((start g addr).measure g + 1)
    + (s.right + 1 - (s.left + 1)).toNat + 1 := ⟨_, rfl⟩
  have h := hres fuel (by omega)
  rw [stabBinsearch, show (⟨g.left, g.right, g.left, g.right, false, addr⟩ : Search)
    = start g addr from rfl, hloop fuel (by omega)] at h
  cases hany : s.anyMatches with
  | false =>
      obtain ⟨hsl, -, -⟩ := hs.tracks.unseen hany
      have heq : res = (s.left, s.left - 1) := by
        simpa only [hany, Option.bind_eq_bind, Option.bind_some, Option.some.injEq,
          Bool.false_eq_true, if_false, Option.pure_def, eq_comm] using h
      have hle := g.le
      rw [heq, hsl]
      exact ⟨by simp only; omega, fun _ => rfl, by simp only; omega, fun _ => by simp only; omega⟩
  | true =>
      simp only [hany, Option.bind_eq_bind, Option.bind_some, if_true,
        hscan fuel (by omega)] at h
      obtain rfl : (k, s.right) = res := Option.some.inj h
      have hle := hs.le
      -- the scan starts at `left`, behind it, or one before it
      have hge := scanDown_ge (hscan fuel (by omega))
      have hstay := hk.stay
      have hkr := hk.le
      refine ⟨hright, fun h => absurd h (Int.not_lt.mpr hkr), ?_, fun hfirst => ?_⟩
      · simp only
        omega
      · have := hs.right hfirst
        simp only
        omega

end Searches

/-! ## The tables -/

/-- An index inside the table has an entry. -/
theorem stab_some {k : Tables} {i : Int} (h0 : 0 ≤ i) (h : i < k.stabs.length) :
    ∃ st, k.stab i = some st := by
  have hlt : i.toNat < k.stabs.length := by omega
  refine ⟨k.stabs[i.toNat], ?_⟩
  rw [Tables.stab, if_pos h0, List.getElem?_eq_getElem hlt]

theorem table_some {k : Tables} {i : Int} {st : DebugStab} (h : k.stab i = some st) :
    k.table i = some st.toStab := by
  show (k.stab i).map _ = _
  rw [h]
  rfl

/-- A range in the table. -/
def Tables.region (k : Tables) (type left right : Int) (h0 : 0 ≤ left) (hle : left ≤ right)
    (hr : right < k.stabs.length) : Region where
  stabs := k.table
  type := type
  left := left
  right := right
  nonneg := h0
  le := hle
  readable i hi hi' := by
    obtain ⟨st, hst⟩ := stab_some (k := k) (Int.le_trans h0 hi) (Int.lt_of_le_of_lt hi' hr)
    exact ⟨st.toStab, table_some hst⟩

/-- What a search can find in a range, in terms of the table. -/
theorem region_entry {k : Tables} {type left right : Int} {h0 : 0 ≤ left} {hle : left ≤ right}
    {hr : right < k.stabs.length} {i : Int} {v : BitVec 32} :
    (k.region type left right h0 hle hr).Entry i v ↔
      left ≤ i ∧ i ≤ right ∧ ∃ st, k.stab i = some st ∧ HasType type st.toStab ∧ st.nValue = v := by
  constructor
  · rintro ⟨h1, h2, st, hst, ht, hv⟩
    obtain ⟨st', hst', rfl⟩ := Option.map_eq_some_iff.mp hst
    exact ⟨h1, h2, st', hst', ht, hv⟩
  · rintro ⟨h1, h2, st, hst, ht, hv⟩
    exact ⟨h1, h2, st.toStab, table_some hst, ht, hv⟩

/-- The first entry is of none of the types that are searched for: the header
    that the linker makes. -/
def Tables.Headed (k : Tables) : Prop :=
  ∀ st, k.stab 0 = some st → ¬ HasType N_SO st.toStab ∧ ¬ HasType N_FUN st.toStab ∧
    ¬ HasType N_SLINE st.toStab

/-- A search from `left` on stays in the table; if `left` is 0, the header is
    not of its type. -/
theorem search_yields {k : Tables} (type : Int) {left right : Int} (addr : Word) (h0 : 0 ≤ left)
    (hle : left ≤ right) (hr : right < k.stabs.length)
    (hfirst : left = 0 → ∀ st, k.stab 0 = some st → ¬ HasType type st.toStab) :
    ∃ res, Yields (fun fuel => stabBinsearch fuel k.table left right type addr) res ∧
      res.2 ≤ right ∧ 0 ≤ res.1 ∧ (res.2 < res.1 → res = (left, left - 1)) := by
  obtain ⟨res, hyields, hout⟩ := stabBinsearch_outcome (k.region type left right h0 hle hr) addr
  refine ⟨res, hyields, hout.right, ?_, hout.missed⟩
  rcases Int.lt_or_eq_of_le h0 with hpos | hzero
  · have hnear : left - 1 ≤ res.1 := hout.near
    omega
  · refine Int.le_trans h0 (hout.inside fun v hv => ?_)
    obtain ⟨-, -, st, hst, ht, -⟩ := region_entry.mp hv
    have hst0 : k.stab 0 = some st := by
      rw [hzero]
      exact hst
    exact hfirst hzero.symm st hst0 ht

/-! ## The scans -/

/-- Where the scan for the file name stops: at the last entry that names a file,
    or below `lfile`. -/
structure ScanStops (k : Tables) (lfile lline i : Int) : Prop where
  le : i ≤ lline
  free : ∀ j st, i < j → j ≤ lline → k.stab j = some st → ¬ NamesFile st
  stop : i < lfile ∨ ∃ st, k.stab i = some st ∧ NamesFile st

/-- The scan goes down entry by entry and ends at the latest below `lfile`; by
    induction on the entries that are left. -/
theorem scanFile_yields {k : Tables} {lfile : Int} (h0 : 0 ≤ lfile) :
    ∀ (n : Nat) (lline : Int), lline < k.stabs.length → (lline + 1 - lfile).toNat = n →
      ∃ i, Yields (fun fuel => scanFile k lfile fuel lline) i ∧ ScanStops k lfile lline i := by
  intro n
  induction n with
  | zero =>
      intro lline _ hn
      have hlt : ¬ lfile ≤ lline := by omega
      refine ⟨lline, (Yields.const fun _ => rfl).round fun fuel => if_neg hlt, Int.le_refl _, ?_,
        .inl (by omega)⟩
      intro j st h1 h2
      omega
  | succ n ih =>
      intro lline hlt hn
      have hle : lfile ≤ lline := by omega
      obtain ⟨st, hst⟩ := stab_some (Int.le_trans h0 hle) hlt
      have hround : ∀ fuel, scanFile k lfile (fuel + 1) lline
          = if NamesFile st then some lline else scanFile k lfile fuel (lline - 1) := by
        intro fuel
        rw [scanFile, if_pos hle, hst]
        rfl
      by_cases hnames : NamesFile st
      · refine ⟨lline, (Yields.const fun _ => rfl).round fun fuel => (hround fuel).trans
          (if_pos hnames), Int.le_refl _, ?_, .inr ⟨st, hst, hnames⟩⟩
        intro j st' h1 h2
        omega
      · obtain ⟨i, hyields, hstops⟩ := ih (lline - 1) (by omega) (by omega)
        refine ⟨i, hyields.round fun fuel => (hround fuel).trans (if_neg hnames), ?_, ?_,
          hstops.stop⟩
        · have := hstops.le
          omega
        · intro j st' h1 h2 hst'
          rcases Int.lt_or_eq_of_le h2 with h3 | rfl
          · exact hstops.free j st' h1 (by omega) hst'
          · exact Option.some.inj (hst.symm.trans hst') ▸ hnames

/-- `c` parameters from `lline` on, and no more before `rfun`. -/
structure Args (k : Tables) (rfun lline : Int) (c : Nat) : Prop where
  params : ∀ j st, lline ≤ j → j < lline + c → k.stab j = some st → HasType N_PSYM st.toStab
  stop : rfun ≤ lline + c ∨
    ∃ st, k.stab (lline + c) = some st ∧ ¬ HasType N_PSYM st.toStab

/-- The count goes up and ends at the latest at `rfun`. -/
theorem countArgs_yields {k : Tables} {rfun : Int} (hr : rfun ≤ k.stabs.length) :
    ∀ (n : Nat) (lline narg : Int), 0 ≤ lline → (rfun - lline).toNat = n →
      ∃ c : Nat, Yields (fun fuel => countArgs k rfun fuel lline narg) (narg + c) ∧
        Args k rfun lline c := by
  intro n
  induction n with
  | zero =>
      intro lline narg _ hn
      have hge : ¬ lline < rfun := by omega
      refine ⟨0, (Yields.const fun _ => rfl).round fun fuel => ?_, fun j st h1 h2 => ?_,
        .inl (by omega)⟩
      · rw [countArgs, if_neg hge, Nat.cast_zero, Int.add_zero]
      · omega
  | succ n ih =>
      intro lline narg h0 hn
      have hlt : lline < rfun := by omega
      obtain ⟨st, hst⟩ := stab_some h0 (Int.lt_of_lt_of_le hlt hr)
      have hround : ∀ fuel, countArgs k rfun (fuel + 1) lline narg
          = if HasType N_PSYM st.toStab then countArgs k rfun fuel (lline + 1) (narg + 1)
            else some narg := by
        intro fuel
        rw [countArgs, if_pos hlt, hst]
        rfl
      by_cases hparam : HasType N_PSYM st.toStab
      · obtain ⟨c, hyields, hargs⟩ := ih (lline + 1) (narg + 1) (by omega) (by omega)
        have hc : lline + 1 + (c : Int) = lline + (c + 1 : Nat) := by
          rw [Nat.cast_add, Nat.cast_one]
          omega
        refine ⟨c + 1, ?_, fun j st' h1 h2 hst' => ?_, ?_⟩
        · rw [show narg + 1 + (c : Int) = narg + (c + 1 : Nat) by
            rw [Nat.cast_add, Nat.cast_one]; omega] at hyields
          exact hyields.round fun fuel => (hround fuel).trans (if_pos hparam)
        · rcases Int.lt_or_eq_of_le h1 with h3 | rfl
          · exact hargs.params j st' (by omega) (by omega) hst'
          · exact Option.some.inj (hst.symm.trans hst') ▸ hparam
        · rw [← hc]
          exact hargs.stop
      · refine ⟨0, (Yields.const fun _ => rfl).round fun fuel => ?_, fun j st' h1 h2 => ?_, ?_⟩
        · rw [hround fuel, if_neg hparam, Nat.cast_zero, Int.add_zero]
        · omega
        · rw [Nat.cast_zero, Int.add_zero]
          exact .inr ⟨st, hst, hparam⟩

/-! ## The strings -/

/-- `"<unknown>"`. -/
def unknownText : List Byte := [60, 117, 110, 107, 110, 111, 119, 110, 62]

/-- The bytes of the string table and of the literal. -/
def Tables.strings (k : Tables) : Set Word :=
  {a | (a - k.stabstr).toNat < k.size.toNat ∨ (a - k.unknown).toNat < 10}

/-- The string `l` stands at `p`, in the table or as the literal. -/
structure ReadsAs (k : Tables) (m : Mem) (p : Word) (l : List Byte) : Prop where
  string : CString m p l
  inside : ∀ j, j ≤ l.length → p + BitVec.ofNat 32 j ∈ k.strings

/-- A string is the same in any memory with the same strings. -/
theorem ReadsAs.eqOn {k : Tables} {m m' : Mem} {p : Word} {l : List Byte} (h : ReadsAs k m p l)
    (hm : Set.EqOn m' m k.strings) : ReadsAs k m' p l :=
  ⟨h.string.of_same fun j hj => hm (h.inside j hj), h.inside⟩

/-- A table that ends with a 0 holds a string at every offset. -/
theorem table_string {k : Tables} {m : Mem} (hend : m (k.stabstrEnd - 1) = 0) :
    ∀ {n d : Nat}, d + n + 1 = k.size.toNat →
      ∃ l, ReadsAs k m (k.stabstr + BitVec.ofNat 32 d) l ∧ l.length ≤ n := by
  have hin : ∀ d, d < k.size.toNat → k.stabstr + BitVec.ofNat 32 d ∈ k.strings := by
    intro d hd
    have hlt := k.size.isLt
    refine Or.inl ?_
    rwa [SharixBlock.offset_eq _ (by omega)]
  have hempty : ∀ d, d < k.size.toNat → m (k.stabstr + BitVec.ofNat 32 d) = 0 →
      ReadsAs k m (k.stabstr + BitVec.ofNat 32 d) [] := by
    refine fun d hd h0 => ⟨h0, fun j hj => ?_⟩
    obtain rfl : j = 0 := Nat.le_zero.mp hj
    rw [BitVec.add_zero]
    exact hin d hd
  intro n
  induction n with
  | zero =>
      intro d hd
      refine ⟨[], hempty d (by omega) ?_, Nat.le_refl 0⟩
      have hlast : k.stabstr + BitVec.ofNat 32 d = k.stabstrEnd - 1 := by
        have hsize : BitVec.ofNat 32 (d + 1) = k.size := by
          rw [show d + 1 = k.size.toNat by omega, BitVec.ofNat_toNat, BitVec.setWidth_eq]
        have hone : BitVec.ofNat 32 d = k.size - 1 := by
          rw [← hsize, BitVec.ofNat_add]
          exact (BitVec.add_sub_cancel _ 1).symm
        rw [hone, Tables.size]
        bv_omega
      rwa [hlast]
  | succ n ih =>
      intro d hd
      by_cases h0 : m (k.stabstr + BitVec.ofNat 32 d) = 0
      · exact ⟨[], hempty d (by omega) h0, Nat.zero_le _⟩
      · obtain ⟨l, hl, hlen⟩ := ih (d := d + 1) (by omega)
        have hnext : k.stabstr + BitVec.ofNat 32 d + 1 = k.stabstr + BitVec.ofNat 32 (d + 1) := by
          rw [BitVec.ofNat_add, ← BitVec.add_assoc]
          rfl
        refine ⟨_ :: l, ⟨⟨h0, rfl, by rw [hnext]; exact hl.string⟩, fun j hj => ?_⟩,
          Nat.succ_le_succ hlen⟩
        cases j with
        | zero =>
            rw [BitVec.add_zero]
            exact hin d (by omega)
        | succ j =>
            rw [← addr_succ, hnext]
            exact hl.inside j (Nat.le_of_succ_le_succ hj)

/-- What `debuginfo_eip` can rely on: the header, the literal, and a string table
    whose length is an `int`. -/
structure Tables.Good (k : Tables) (m : Mem) : Prop where
  headed : k.Headed
  literal : ReadsAs k m k.unknown unknownText
  fits : k.size.toNat < 2 ^ 31

/-- The string table passes its check. -/
def Tables.Checked (k : Tables) (m : Mem) : Prop :=
  k.stabstr < k.stabstrEnd ∧ m (k.stabstrEnd - 1) = 0

instance (k : Tables) (m : Mem) : Decidable (k.Checked m) := inferInstanceAs (Decidable (_ ∧ _))

/-- The byte that is checked is one of the string table. -/
theorem checked_iff {k : Tables} {m m' : Mem} (hm : Set.EqOn m' m k.strings) :
    k.Checked m' ↔ k.Checked m := by
  have hlast : k.stabstr < k.stabstrEnd → m' (k.stabstrEnd - 1) = m (k.stabstrEnd - 1) := by
    intro hlt
    refine hm (Or.inl ?_)
    rw [Tables.size]
    bv_omega
  constructor
  · exact fun h => ⟨h.1, (hlast h.1).symm.trans h.2⟩
  · exact fun h => ⟨h.1, (hlast h.1).trans h.2⟩

theorem Tables.Good.eqOn {k : Tables} {m m' : Mem} (h : k.Good m)
    (hm : Set.EqOn m' m k.strings) : k.Good m' :=
  ⟨h.headed, h.literal.eqOn hm, h.fits⟩

/-- `stabstr + n_strx`, if that is in bounds. -/
def Tables.text (k : Tables) (st : DebugStab) : Word :=
  if st.nStrx < k.size then k.stabstr + st.nStrx else k.unknown

/-- A place for a string: the literal, or what an entry points to. -/
def Tables.Place (k : Tables) (p : Word) : Prop :=
  p = k.unknown ∨ ∃ st ∈ k.stabs, p = k.text st

theorem text_place {k : Tables} {i : Int} {st : DebugStab} (h : k.stab i = some st) :
    k.Place (k.text st) := by
  rw [Tables.stab] at h
  split at h
  · exact .inr ⟨st, List.mem_of_getElem? h, rfl⟩
  · exact nomatch h

/-- At every place that may be entered a string stands, the checked table ending
    with a 0. -/
theorem Tables.Place.reads {k : Tables} {m : Mem} {p : Word} (hk : k.Good m)
    (hc : k.Checked m) (hp : k.Place p) :
    ∃ l, ReadsAs k m p l ∧ l.length < max k.size.toNat 10 := by
  have hunknown : ∃ l, ReadsAs k m k.unknown l ∧ l.length < max k.size.toNat 10 :=
    ⟨unknownText, hk.literal, Nat.lt_of_lt_of_le (by decide) (Nat.le_max_right _ 10)⟩
  rcases hp with rfl | ⟨st, -, rfl⟩
  · exact hunknown
  rw [Tables.text]
  split
  · next hlt =>
      have hlt : st.nStrx.toNat < k.size.toNat := hlt
      obtain ⟨l, hl, hlen⟩ := table_string hc.2 (k := k) (n := k.size.toNat - st.nStrx.toNat - 1)
        (d := st.nStrx.toNat) (by omega)
      rw [BitVec.ofNat_toNat, BitVec.setWidth_eq] at hl
      exact ⟨l, hl, by omega⟩
  · exact hunknown

/-! ## It ends, and reads the tables only -/

/-- What is in `*info`, found or not. -/
structure Reported (k : Tables) (m : Mem) (info : EipDebuginfo) : Prop where
  place : k.Place info.eipFnName
  name : ∃ l, ReadsAs k m info.eipFnName l ∧
    info.eipFnNamelen = (l.takeWhile (· ≠ 58)).length
  file : ∃ l, ReadsAs k m info.eipFile l

/-- The file is the one of the entry at which the scan stopped; below `lfile` it
    stays the literal. -/
theorem enterFile_yields {k : Tables} {lfile lline : Int} (info : EipDebuginfo) (h0 : 0 ≤ lfile)
    (hr : lline < k.stabs.length) (hnew : info.eipFile = k.unknown) :
    ∃ p, enterFile k info lfile lline = some { info with eipFile := p } ∧ k.Place p ∧
      ∀ st, lfile ≤ lline → k.stab lline = some st → p = k.text st := by
  by_cases hle : lfile ≤ lline
  · obtain ⟨st, hst⟩ := stab_some (Int.le_trans h0 hle) hr
    refine ⟨k.text st, ?_, text_place hst, fun st' _ hst' => ?_⟩
    · rw [enterFile, if_pos hle, hst, Tables.text]
      by_cases hlt : st.nStrx < k.size
      · simp only [Option.bind_eq_bind, Option.bind_some, if_pos hlt]
        rfl
      · simp only [Option.bind_eq_bind, Option.bind_some, if_neg hlt, ← hnew]
        rfl
    · rw [Option.some.inj (hst.symm.trans hst')]
  · exact ⟨info.eipFile, if_neg hle, .inl hnew, fun st h => absurd h hle⟩

/-- The parameters are counted from behind the function on. -/
theorem enterArgs_yields {k : Tables} {lfun rfun : Int} (info : EipDebuginfo) (hfun : 0 ≤ lfun)
    (hr : rfun ≤ k.stabs.length) (hnew : info.eipFnNarg = 0) :
    ∃ narg, Yields (fun fuel => enterArgs fuel k lfun rfun info)
        (0, { info with eipFnNarg := narg }) ∧
      (lfun < rfun → ∃ c : Nat, Args k rfun (lfun + 1) c ∧ narg = c) := by
  by_cases hlt : lfun < rfun
  · obtain ⟨c, hc, hargs⟩ := countArgs_yields hr _ (lfun + 1) info.eipFnNarg (by omega) rfl
    refine ⟨info.eipFnNarg + c, ?_, fun _ => ⟨c, hargs, by omega⟩⟩
    have hall := Yields.bind (g := fun _ narg => some ((0 : Int), { info with eipFnNarg := narg }))
      hc (Yields.const fun _ => rfl)
    refine hall.of_eq fun fuel => ?_
    rw [enterArgs, if_pos hlt]
    rfl
  · exact ⟨info.eipFnNarg, Yields.const fun fuel => if_neg hlt, fun h => absurd h hlt⟩

/-- What the line at `lline` adds, in the file at `lfile`: `ln` is the last entry
    of its part. -/
structure LineReported (k : Tables) (lfile lfun rfun lline : Int) (ln : DebugStab)
    (info info' : EipDebuginfo) : Prop where
  name : info'.eipFnName = info.eipFnName
  namelen : info'.eipFnNamelen = info.eipFnNamelen
  addr : info'.eipFnAddr = info.eipFnAddr
  place : k.Place info'.eipFile
  line : info'.eipLine = ln.nDesc.toNat
  file : ∃ i, ScanStops k lfile lline i ∧
    ∀ st, lfile ≤ i → k.stab i = some st → info'.eipFile = k.text st
  args : lfun < rfun → ∃ c : Nat, Args k rfun (lfun + 1) c ∧ info'.eipFnNarg = c

/-- With a line found the call returns 0. -/
theorem enterLine_yields {k : Tables} {lfile lfun rfun lline rline : Int} {info : EipDebuginfo}
    {ln : DebugStab} (hln : k.stab rline = some ln) (hle : lline ≤ rline)
    (hr : rline < k.stabs.length) (hfile : 0 ≤ lfile) (hfun : 0 ≤ lfun)
    (hrfun : rfun ≤ k.stabs.length) (hnew : info.eipFile = k.unknown)
    (hnoargs : info.eipFnNarg = 0) :
    ∃ info', Yields (fun fuel => enterLine fuel k lfile lfun rfun info lline rline) (0, info') ∧
      LineReported k lfile lfun rfun lline ln info info' := by
  obtain ⟨i, hscan, hstops⟩ := scanFile_yields (k := k) hfile _ lline (by omega) rfl
  have hi := hstops.le
  obtain ⟨p, hp, hplace, hfrom⟩ := @enterFile_yields k lfile i
    { info with eipLine := ln.nDesc.toNat } hfile (by omega) hnew
  obtain ⟨narg, hargs, hcount⟩ := @enterArgs_yields k lfun rfun
    { info with eipLine := ln.nDesc.toNat, eipFile := p } hfun hrfun hnoargs
  refine ⟨{ info with eipLine := ln.nDesc.toNat, eipFile := p, eipFnNarg := narg }, ?_,
    rfl, rfl, rfl, hplace, rfl, ⟨i, hstops, hfrom⟩, hcount⟩
  exact (Yields.const fun _ => hln).bind (hscan.bind ((Yields.const fun _ => hp).bind hargs))

/-- What the line search leaves of the information it is given. -/
structure Extends (k : Tables) (info info' : EipDebuginfo) : Prop where
  name : info'.eipFnName = info.eipFnName
  namelen : info'.eipFnNamelen = info.eipFnNamelen
  place : k.Place info'.eipFile

/-- The line search reads inside the part it is given, and ends with 0 or -1. -/
theorem searchLine_yields {k : Tables} {lfile lfun rfun : Int} {s : Scope} (hk : k.Headed)
    (h0 : 0 ≤ s.lline) (hle : s.lline ≤ s.rline) (hr : s.rline < k.stabs.length)
    (hfile : 0 ≤ lfile) (hfun : 0 ≤ lfun) (hrfun : rfun ≤ k.stabs.length)
    (hnew : s.info.eipFile = k.unknown) (hnoargs : s.info.eipFnNarg = 0) :
    ∃ r info, Yields (fun fuel => searchLine fuel k lfile lfun rfun s) (r, info) ∧
      (r = 0 ∨ r = -1) ∧ Extends k s.info info := by
  obtain ⟨p, hp, hp2, hp1, -⟩ := search_yields N_SLINE s.addr h0 hle hr
    fun _ st hst => (hk st hst).2.2
  by_cases hfound : p.1 ≤ p.2
  · obtain ⟨ln, hln⟩ := stab_some (k := k) (Int.le_trans hp1 hfound) (by omega)
    obtain ⟨info, hinfo, hline⟩ :=
      enterLine_yields hln hfound (by omega) hfile hfun hrfun hnew hnoargs
    refine ⟨0, info, ?_, .inl rfl, hline.name, hline.namelen, hline.place⟩
    exact hp.bind (hinfo.of_eq fun fuel => if_pos hfound)
  · refine ⟨-1, s.info, ?_, .inr rfl, rfl, rfl, .inl hnew⟩
    exact hp.bind (Yields.const fun fuel => if_neg hfound)

/-- What the function search hands on. -/
structure Entered (k : Tables) (s : Scope) : Prop where
  nonneg : 0 ≤ s.lline
  le : s.lline ≤ s.rline
  inside : s.rline < k.stabs.length
  name : k.Place s.info.eipFnName
  file : s.info.eipFile = k.unknown
  args : s.info.eipFnNarg = 0

/-- A function has been found. -/
theorem enterFunction_found {k : Tables} {info : EipDebuginfo} {addr : Word}
    {lfile rfile lfun rfun : Int} {fn : DebugStab} (hfn : k.stab lfun = some fn)
    (hle : lfun ≤ rfun) (hnew : info.eipFnName = k.unknown) :
    enterFunction k info addr lfile rfile lfun rfun
      = some ⟨{ info with eipFnName := k.text fn, eipFnAddr := fn.nValue }, addr - fn.nValue,
          lfun, rfun⟩ := by
  rw [enterFunction, if_pos hle, hfn, Tables.text]
  by_cases hlt : fn.nStrx < k.size
  · simp only [Option.bind_eq_bind, Option.bind_some, if_pos hlt]
    rfl
  · simp only [Option.bind_eq_bind, Option.bind_some, if_neg hlt, ← hnew]
    rfl

/-- With or without a function, the line search is given a part of the table. -/
theorem enterFunction_yields {k : Tables} (addr : Word) {lfile rfile lfun rfun : Int}
    (hfile : 0 ≤ lfile) (hle : lfile ≤ rfile) (hr : rfile < k.stabs.length) (hfun : 0 ≤ lfun)
    (hrfun : rfun ≤ rfile) :
    ∃ s, enterFunction k (k.noInfo addr) addr lfile rfile lfun rfun = some s ∧ Entered k s := by
  by_cases hfound : lfun ≤ rfun
  · obtain ⟨fn, hfn⟩ := stab_some (k := k) hfun (by omega)
    exact ⟨_, enterFunction_found hfn hfound rfl, hfun, hfound, by simp only; omega,
      text_place hfn, rfl, rfl⟩
  · exact ⟨_, if_neg hfound, hfile, hle, hr, .inl rfl, rfl, rfl⟩

/-- The name that is entered ends at the colon. -/
theorem strfind_name {k : Tables} {m : Mem} {p : Word} {l : List Byte} (hk : k.Good m)
    (h : ReadsAs k m p l) (hlen : l.length < max k.size.toNat 10) :
    ∃ colon, (colon - p).toInt = (l.takeWhile (· ≠ 58)).length ∧
      ∀ m', Set.EqOn m' m k.strings → Yields (fun fuel => strfind m' 58 fuel p) colon := by
  obtain ⟨n, hn⟩ : ∃ n, n = (l.takeWhile (· ≠ 58)).length := ⟨_, rfl⟩
  have hfits := hk.fits
  have hle : n ≤ l.length := by
    rw [hn]
    exact List.IsPrefix.length_le (List.takeWhile_prefix _)
  refine ⟨p + BitVec.ofNat 32 n, ?_, fun m' hm' => ⟨l.length, fun fuel hfuel => ?_⟩⟩
  · have hsmall : (BitVec.ofNat 32 n).toNat = n := by
      rw [BitVec.toNat_ofNat]
      exact Nat.mod_eq_of_lt (by omega)
    rw [← hn, BitVec.add_comm, BitVec.add_sub_cancel, BitVec.toInt_eq_toNat_of_lt (by omega),
      hsmall]
  · rw [hn]
    exact strfind_eq 58 (h.eqOn hm').string hfuel

/-- The function search and all behind it: the strings are the only memory that is
    read. -/
theorem searchFunction_yields {k : Tables} {m : Mem} (hk : k.Good m) (hc : k.Checked m)
    (addr : Word) {lfile rfile : Int} (h0 : 0 < lfile) (hle : lfile ≤ rfile)
    (hr : rfile < k.stabs.length) :
    ∃ r info, (r = 0 ∨ r = -1) ∧ Reported k m info ∧ ∀ m', Set.EqOn m' m k.strings →
      Yields (fun fuel => searchFunction fuel k m' (k.noInfo addr) addr lfile rfile)
        (r, info) := by
  obtain ⟨p, hp, hp2, hp1, hmissed⟩ := search_yields N_FUN addr (Int.le_of_lt h0) hle
    hr fun h => absurd h (Int.ne_of_gt h0)
  obtain ⟨s, hs, hent⟩ := enterFunction_yields addr (Int.le_of_lt h0) hle hr hp1 hp2
  obtain ⟨l, hl, hlen⟩ := hent.name.reads hk hc
  obtain ⟨colon, hcolon, hfind⟩ := strfind_name hk hl hlen
  obtain ⟨s', hs'⟩ : ∃ s' : Scope, s' = { s with info :=
    { s.info with eipFnNamelen := (colon - s.info.eipFnName).toInt } } := ⟨_, rfl⟩
  have hent' : Entered k s' := by
    rw [hs']
    exact ⟨hent.nonneg, hent.le, hent.inside, hent.name, hent.file, hent.args⟩
  obtain ⟨r, info, hline, hres, hext⟩ := @searchLine_yields k lfile p.1 p.2 s' hk.headed
    hent'.nonneg hent'.le hent'.inside (Int.le_of_lt h0) hp1 (by omega) hent'.file hent'.args
  obtain ⟨lf, hlf, -⟩ := hext.place.reads hk hc
  rw [hs'] at hext
  refine ⟨r, info, hres, ⟨?_, ⟨l, ?_, ?_⟩, lf, hlf⟩, fun m' hm' => ?_⟩
  · rw [hext.name]
    exact hent.name
  · rw [hext.name]
    exact hl
  · rw [hext.namelen]
    exact hcolon
  · rw [hs'] at hline
    exact hp.bind ((Yields.const fun _ => hs).bind ((hfind m' hm').bind hline))

/-- What is filled in first is a report already. -/
theorem noInfo_reported {k : Tables} {m : Mem} (hk : k.Good m) (addr : Word) :
    Reported k m (k.noInfo addr) :=
  ⟨.inl rfl, ⟨unknownText, hk.literal, rfl⟩, unknownText, hk.literal⟩

/-- A search in an empty range. -/
theorem stabBinsearch_empty (t : Table) {left right type : Int} (addr : Word)
    (h : right < left) :
    Yields (fun fuel => stabBinsearch fuel t left right type addr) (left, left - 1) := by
  refine (Yields.const fun _ => rfl).round fun fuel => ?_
  rw [stabBinsearch, searchLoop, if_neg (Int.not_le.mpr h)]
  rfl

/-- Behind the check of the string table. -/
theorem debuginfoEip_checked {k : Tables} {m : Mem} (hc : k.Checked m) (addr : Word)
    (fuel : Nat) : debuginfoEip fuel k m addr
      = (stabBinsearch fuel k.table 0 (k.stabs.length - 1) N_SO addr).bind fun p =>
          if p.1 = 0 then some (-1, k.noInfo addr)
          else searchFunction fuel k m (k.noInfo addr) addr p.1 p.2 := by
  rw [debuginfoEip, if_neg]
  · rfl
  · rw [not_or]
    exact ⟨BitVec.not_le.mpr hc.1, not_not.mpr hc.2⟩

/-- **NOTHING BUT THE TABLES IS READ**: whatever the entries behind the header say
    and however they are ordered, `debuginfo_eip` ends for every address; it reads
    entries of the table only, and of memory no more than the strings; and what it
    leaves, found or not, names strings that are there. -/
theorem debuginfo_eip_in_tables {k : Tables} {m : Mem} (hk : k.Good m) (addr : Word) :
    ∃ r info, (r = 0 ∨ r = -1) ∧ Reported k m info ∧ ∀ m', Set.EqOn m' m k.strings →
      Yields (fun fuel => debuginfoEip fuel k m' addr) (r, info) := by
  have hunfound : ∃ r info, (r = 0 ∨ r = -1) ∧ Reported k m info ∧
      (r, info) = ((-1 : Int), k.noInfo addr) :=
    ⟨-1, k.noInfo addr, .inr rfl, noInfo_reported hk addr, rfl⟩
  by_cases hc : k.Checked m
  swap
  · obtain ⟨r, info, hr, hrep, heq⟩ := hunfound
    refine ⟨r, info, hr, hrep, fun m' hm' => Yields.const fun fuel => ?_⟩
    rw [heq, debuginfoEip, if_pos]
    by_cases hlt : k.stabstr < k.stabstrEnd
    · exact .inr fun h0 => hc ((checked_iff hm').mp ⟨hlt, h0⟩)
    · exact .inl (BitVec.not_lt.mp hlt)
  have hpass : ∀ m', Set.EqOn m' m k.strings → k.Checked m' :=
    fun m' hm' => (checked_iff hm').mpr hc
  have hzero : ∀ p : Int × Int, p.1 = 0 →
      Yields (fun fuel => stabBinsearch fuel k.table 0 (k.stabs.length - 1) N_SO addr) p →
      ∃ r info, (r = 0 ∨ r = -1) ∧ Reported k m info ∧ ∀ m', Set.EqOn m' m k.strings →
        Yields (fun fuel => debuginfoEip fuel k m' addr) (r, info) := by
    intro p hp1 hp
    refine ⟨-1, k.noInfo addr, .inr rfl, noInfo_reported hk addr, fun m' hm' => ?_⟩
    exact (hp.bind (Yields.const fun fuel => if_pos hp1)).of_eq
      (debuginfoEip_checked (hpass m' hm') addr)
  rcases Nat.eq_zero_or_pos k.stabs.length with hempty | hpos
  · exact hzero _ rfl (stabBinsearch_empty k.table addr (by omega))
  obtain ⟨p, hp, hp2, hp1, hmissed⟩ := @search_yields k N_SO 0 (k.stabs.length - 1) addr
    (Int.le_refl 0) (by omega) (by omega) fun _ st hst => (hk.headed st hst).1
  by_cases hfile : p.1 = 0
  · exact hzero p hfile hp
  have hfound : p.1 ≤ p.2 := by
    refine Int.not_lt.mp fun hlt => hfile ?_
    rw [hmissed hlt]
  obtain ⟨r, info, hr, hrep, hall⟩ := searchFunction_yields hk hc addr
    (show 0 < p.1 by omega) hfound (by omega)
  refine ⟨r, info, hr, hrep, fun m' hm' => ?_⟩
  exact (hp.bind ((hall m' hm').of_eq fun fuel => if_neg hfile)).of_eq
    (debuginfoEip_checked (hpass m' hm') addr)

/-! ## What it finds -/

/-- The search from `left` to `right` is one that brackets: `e` is the entry that
    covers the address, `b` the last one before the next of the type. -/
structure Finds (k : Tables) (type left right : Int) (addr : Word) (e b : Int) : Prop where
  nonneg : 0 ≤ left
  le : left ≤ right
  inside : right < k.stabs.length
  sorted : (k.region type left right nonneg le inside).Sorted
  searchable : (k.region type left right nonneg le inside).Searchable addr
  covers : (k.region type left right nonneg le inside).Covers addr e
  ends : (k.region type left right nonneg le inside).EndsAt e b

/-- A search that brackets returns the covering entry and the end of its part. -/
theorem Finds.yields {k : Tables} {type left right : Int} {addr : Word} {e b : Int}
    (h : Finds k type left right addr e b) :
    Yields (fun fuel => stabBinsearch fuel k.table left right type addr) (e, b) := by
  obtain ⟨t, res, hrun, hend, -, hl, n, hres⟩ :=
    stabBinsearch_run (k.region type left right h.nonneg h.le h.inside) addr
  have hb := (brackets_iff h.sorted hrun hend hl).mpr h.searchable
  obtain ⟨v, hv, hle⟩ := h.covers.entry
  obtain ⟨hcov, hends⟩ := hb.found ⟨e, v, hv, hle⟩
  obtain ⟨x, y⟩ := res
  obtain rfl : x = e := hcov.unique h.covers
  obtain rfl : y = b := hends.unique h.ends
  exact ⟨n, hres⟩

/-- Both are in the range. -/
theorem Finds.bounds {k : Tables} {type left right : Int} {addr : Word} {e b : Int}
    (h : Finds k type left right addr e b) : left ≤ e ∧ e ≤ b ∧ b ≤ right := by
  obtain ⟨v, hv, -⟩ := h.covers.entry
  exact ⟨hv.ge, h.ends.ge, h.ends.le_right⟩

/-- The entries for an address: its file at `f`, its function at `u`, with the
    entry `fn`, its line at `n`, where addresses count from the function; `ln` is
    the last entry before the next line. -/
structure Located (k : Tables) (addr : Word) (f u n b : Int) (fn ln : DebugStab) : Prop where
  file : ∃ r, Finds k N_SO 0 (k.stabs.length - 1) addr f r ∧ Finds k N_FUN f r addr u b
  function : k.stab u = some fn
  line : ∃ r, Finds k N_SLINE u b (addr - fn.nValue) n r ∧ k.stab r = some ln

/-- **WHERE THE SEARCHES BRACKET, THE ADDRESS IS LOCATED**: in a table with its
    header, and whose strings pass their check, the name and the start are those
    of the last function at or below the address in the last file at or below it;
    the number is that of the last entry before the next line. -/
theorem debuginfo_eip_locates {k : Tables} {m : Mem} (hk : k.Good m) (hc : k.Checked m)
    {addr : Word} {f u n b : Int} {fn ln : DebugStab} (h : Located k addr f u n b fn ln) :
    ∃ info, Yields (fun fuel => debuginfoEip fuel k m addr) (0, info) ∧ Reported k m info ∧
      info.eipFnName = k.text fn ∧ info.eipFnAddr = fn.nValue ∧
      info.eipLine = ln.nDesc.toNat ∧
      (∃ i, ScanStops k f n i ∧
        ∀ st, f ≤ i → k.stab i = some st → info.eipFile = k.text st) ∧
      (u < b → ∃ c : Nat, Args k b (u + 1) c ∧ info.eipFnNarg = c) := by
  obtain ⟨bf, hfile, hfun⟩ := h.file
  obtain ⟨r, hline, hln⟩ := h.line
  obtain ⟨hf0, hfb, hbf⟩ := hfile.bounds
  obtain ⟨hfu, hub, hb⟩ := hfun.bounds
  obtain ⟨hun, hnr, hrb⟩ := hline.bounds
  -- the header is not a file
  have hfpos : f ≠ 0 := by
    rintro rfl
    obtain ⟨v, hv, -⟩ := hfile.covers.entry
    obtain ⟨-, -, st, hst, ht, -⟩ := region_entry.mp hv
    exact (hk.headed st hst).1 ht
  obtain ⟨l, hl, hlen⟩ := (text_place h.function).reads hk hc
  obtain ⟨colon, hcolon, hfind⟩ := strfind_name hk hl hlen
  obtain ⟨info, henter, hrep⟩ := @enterLine_yields k f u b n r
    ⟨k.unknown, 0, k.text fn, (colon - k.text fn).toInt, fn.nValue, 0⟩ ln hln hnr (by omega) hf0
    (by omega) (by omega) rfl rfl
  have hfunction : Yields (fun fuel => searchFunction fuel k m (k.noInfo addr) addr f bf)
      (0, info) :=
    hfun.yields.bind ((Yields.const fun _ => enterFunction_found h.function hub rfl).bind
      ((hfind m (Set.eqOn_refl _ _)).bind
        (hline.yields.bind (henter.of_eq fun fuel => if_pos hnr))))
  obtain ⟨lf, hlf, -⟩ := hrep.place.reads hk hc
  refine ⟨info, (hfile.yields.bind (hfunction.of_eq fun fuel => if_neg hfpos)).of_eq
    (debuginfoEip_checked hc addr), ⟨?_, ⟨l, ?_, ?_⟩, lf, hlf⟩, hrep.name, hrep.addr, hrep.line,
    hrep.file, hrep.args⟩
  · rw [hrep.name]
    exact text_place h.function
  · rw [hrep.name]
    exact hl
  · rw [hrep.namelen]
    exact hcolon

/-! ## A table by its entries -/

/-- The entries of the type with their values. -/
def Tables.entries (k : Tables) (type left right : Int) : List (Int × Word) :=
  (List.range k.stabs.length).filterMap fun i : Nat => do
    let st ← k.stabs[i]?
    if left ≤ i ∧ i ≤ right ∧ HasType type st.toStab then return ((i : Int), st.nValue) else none

/-- The list has what a search can find. -/
theorem mem_entries {k : Tables} {type left right : Int} (h0 : 0 ≤ left) (hle : left ≤ right)
    (hr : right < k.stabs.length) {i : Int} {v : Word} :
    (k.region type left right h0 hle hr).Entry i v ↔ (i, v) ∈ k.entries type left right := by
  rw [region_entry, Tables.entries, List.mem_filterMap]
  constructor
  · rintro ⟨h1, h2, st, hst, ht, rfl⟩
    rw [Tables.stab, if_pos (by omega)] at hst
    refine ⟨i.toNat, List.mem_range.mpr (by omega), ?_⟩
    rw [hst, Int.toNat_of_nonneg (by omega)]
    exact if_pos ⟨h1, h2, ht⟩
  · rintro ⟨n, -, h⟩
    obtain ⟨st, hst, h⟩ := Option.bind_eq_some_iff.mp h
    split at h
    · next hin =>
        obtain ⟨rfl, rfl⟩ := Prod.mk.inj (Option.some.inj h)
        refine ⟨hin.1, hin.2.1, st, ?_, hin.2.2, rfl⟩
        rw [Tables.stab, if_pos (by omega), Int.toNat_natCast, hst]
    · exact nomatch h

/-- A search that meets no equal value brackets, in an ordered range. -/
theorem Finds.of_entries {k : Tables} {type left right : Int} {addr : Word} {e b : Int} {v : Word}
    (h0 : 0 ≤ left) (hle : left ≤ right) (hr : right < k.stabs.length)
    (hsorted : ∀ x ∈ k.entries type left right, ∀ y ∈ k.entries type left right,
      x.1 < y.1 → x.2 ≤ y.2)
    (hne : ∀ x ∈ k.entries type left right, x.2 ≠ addr)
    (he : (e, v) ∈ k.entries type left right) (hv : v ≤ addr)
    (hlast : ∀ x ∈ k.entries type left right, x.2 ≤ addr → x.1 ≤ e)
    (hb : e ≤ b) (hfree : ∀ x ∈ k.entries type left right, x.1 ≤ b → x.1 ≤ e)
    (hend : b = right ∨ ∃ x ∈ k.entries type left right, x.1 = b + 1) :
    Finds k type left right addr e b := by
  have hent : ∀ {i v}, (k.region type left right h0 hle hr).Entry i v ↔
      (i, v) ∈ k.entries type left right := mem_entries h0 hle hr
  refine ⟨h0, hle, hr, ?_, .inr ⟨⟨e, v, hent.mpr he, hv⟩, .inl fun i hi => ?_⟩,
    ⟨⟨v, hent.mpr he, hv⟩, fun i w hi hw => hlast (i, w) (hent.mp hi) hw⟩,
    ⟨hb, fun i w hi hib => hfree (i, w) (hent.mp hi) hib, ?_⟩⟩
  · exact fun i j x y hi hj hij => hsorted (i, x) (hent.mp hi) (j, y) (hent.mp hj) hij
  · exact hne (i, addr) (hent.mp hi) rfl
  · rcases hend with h | ⟨x, hx, h⟩
    · exact .inl h
    · exact .inr ⟨x.2, hent.mpr (h ▸ hx)⟩

/-- One file with one function: `f`, a parameter, and two lines. -/
def oneFile : Tables where
  stabs :=
    [⟨⟨0, 3⟩, 1, 6⟩, ⟨⟨0x64, 0xC0100000⟩, 1, 0⟩, ⟨⟨0x24, 0xC0100000⟩, 5, 0⟩, ⟨⟨0xa0, 8⟩, 0, 0⟩,
      ⟨⟨0x44, 0⟩, 0, 3⟩, ⟨⟨0x44, 6⟩, 0, 4⟩, ⟨⟨0x64, 0xC0100010⟩, 0, 0⟩]
  stabstr := 0x200
  stabstrEnd := 0x20a
  unknown := 0x100

/-- `"\0a.c\0f:F1"` and `"<unknown>"`. -/
def oneFileMem : Mem := fun a =>
  if 0x200 ≤ a then [0, 97, 46, 99, 0, 102, 58, 70, 49, 0].getD (a - 0x200).toNat 0
  else unknownText.getD (a - 0x100).toNat 0

/-- The table and the strings are as the linker leaves them. -/
theorem oneFile_good : oneFile.Good oneFileMem := by
  refine ⟨fun st hst => ?_, ⟨?_, fun j hj => Or.inr ?_⟩, by decide⟩
  · obtain rfl : ⟨⟨0, 3⟩, 1, 6⟩ = st := Option.some.inj hst
    decide
  · exact ⟨by decide, rfl, by decide, rfl, by decide, rfl, by decide, rfl, by decide, rfl,
      by decide, rfl, by decide, rfl, by decide, rfl, by decide, rfl, rfl⟩
  · have hj : j ≤ 9 := hj
    rw [SharixBlock.offset_eq _ (by omega)]
    omega

theorem oneFile_located :
    Located oneFile 0xC0100007 1 2 5 5 ⟨⟨0x24, 0xC0100000⟩, 5, 0⟩ ⟨⟨0x44, 6⟩, 0, 4⟩ where
  file := ⟨5, .of_entries (v := 0xC0100000) (by decide) (by decide) (by decide) (by decide)
      (by decide) (by decide) (by decide) (by decide) (by decide) (by decide) (by decide),
    .of_entries (v := 0xC0100000) (by decide) (by decide) (by decide) (by decide) (by decide)
      (by decide) (by decide) (by decide) (by decide) (by decide) (by decide)⟩
  function := rfl
  line := ⟨5, .of_entries (v := 6) (by decide) (by decide) (by decide) (by decide) (by decide)
    (by decide) (by decide) (by decide) (by decide) (by decide) (by decide), rfl⟩

theorem debuginfo_eip_in_tables_oneFile :
    ∃ r info, (r = 0 ∨ r = -1) ∧ Reported oneFile oneFileMem info ∧
      ∀ m', Set.EqOn m' oneFileMem oneFile.strings →
        Yields (fun fuel => debuginfoEip fuel oneFile m' 0xFFFFFFFF) (r, info) :=
  debuginfo_eip_in_tables oneFile_good 0xFFFFFFFF

theorem debuginfo_eip_locates_oneFile :
    ∃ info, Yields (fun fuel => debuginfoEip fuel oneFile oneFileMem 0xC0100007) (0, info) ∧
      info.eipLine = 4 := by
  obtain ⟨info, hyields, -, -, -, hline, -⟩ :=
    debuginfo_eip_locates oneFile_good (by decide) oneFile_located
  exact ⟨info, hyields, hline⟩

end SharixDebuginfo
