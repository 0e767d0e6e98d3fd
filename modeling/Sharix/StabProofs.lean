import Sharix.RunProofs

/-! # The search in the stab table — `stab_binsearch` of `kdebug.c`

    The table mixes entries of all types; only those of one type are ordered.
    A round looks at the middle of the range and scans left for an entry of the
    type.  A value below the address moves the left end, a value above it the
    right end; an equal value keeps the entry, raises the address by one and
    goes on for the end of the entry's part.

    * The search ends, and reads no entry outside the range it is given.
    * It does not end as its comment says where all entries of the type lie
      above the address, nor, in general, where one entry has the address and
      another the address after it. -/

namespace SharixStab

open SharixRun

/-! ## The model -/

/-- `struct stab`: the fields the search reads. -/
structure Stab where
  nType : BitVec 8
  nValue : BitVec 32
deriving DecidableEq, Repr

/-- `stabs[i]`; no entry is read outside the table.  An entry has 12 bytes, so
    indices, and sums of two of them, are far from the bounds of `int`. -/
abbrev Table := Int → Option Stab

/-- `stabs[m].n_type == type`. -/
def HasType (type : Int) (st : Stab) : Prop := (st.nType.toNat : Int) = type

instance (type : Int) (st : Stab) : Decidable (HasType type st) :=
  inferInstanceAs (Decidable (_ = _))

/-- `while (m >= l && stabs[m].n_type != type) m --;` -/
def scanDown (stabs : Table) (type l : Int) : Nat → Int → Option Int
  | 0, _ => none
  | fuel + 1, m =>
      if l ≤ m then do
        let st ← stabs m
        if HasType type st then return m else scanDown stabs type l fuel (m - 1)
      else some m

/-- The variables of the loop; `left` and `right` are `*region_left` and
    `*region_right`. -/
structure Search where
  l : Int
  r : Int
  left : Int
  right : Int
  anyMatches : Bool
  addr : BitVec 32

/-- `true_m`. -/
def Search.mid (s : Search) : Int := (s.l + s.r).tdiv 2

/-- The body of `while (l <= r)`. -/
def searchBody (stabs : Table) (type : Int) (fuel : Nat) (s : Search) :
    Option Search := do
  let m ← scanDown stabs type s.l fuel s.mid
  if m < s.l then
    return { s with l := s.mid + 1 }
  else do
    let st ← stabs m
    if st.nValue < s.addr then
      return { s with anyMatches := true, left := m, l := s.mid + 1 }
    else if s.addr < st.nValue then
      return { s with anyMatches := true, right := m - 1, r := m - 1 }
    else
      return { s with anyMatches := true, left := m, l := m, addr := s.addr + 1 }

def searchLoop (stabs : Table) (type : Int) : Nat → Search → Option Search
  | 0, _ => none
  | fuel + 1, s =>
      if s.l ≤ s.r then do
        let s ← searchBody stabs type fuel s
        searchLoop stabs type fuel s
      else some s

/-- The values of `*region_left` and `*region_right` on return. -/
def stabBinsearch (fuel : Nat) (stabs : Table) (regionLeft regionRight type : Int)
    (addr : BitVec 32) : Option (Int × Int) := do
  let s ← searchLoop stabs type fuel
    ⟨regionLeft, regionRight, regionLeft, regionRight, false, addr⟩
  if s.anyMatches then do
    let l ← scanDown stabs type (s.left + 1) fuel s.right
    return (l, s.right)
  else return (s.left, s.left - 1)

/-! ## Ranges of a table -/

/-- A range inside a table, and the type searched for. -/
structure Region where
  stabs : Table
  type : Int
  left : Int
  right : Int
  nonneg : 0 ≤ left
  le : left ≤ right
  readable : ∀ i, left ≤ i → i ≤ right → ∃ st, stabs i = some st

namespace Region

variable (g : Region)

/-- `i` is an entry of the type in the range, with the value `v`. -/
structure Entry (i : Int) (v : BitVec 32) : Prop where
  ge : g.left ≤ i
  le : i ≤ g.right
  stab : ∃ st, g.stabs i = some st ∧ HasType g.type st ∧ st.nValue = v

/-- The entries of the type in the range have non-decreasing values. -/
def Sorted : Prop :=
  ∀ i j v w, g.Entry i v → g.Entry j w → i < j → v ≤ w

variable {g}

theorem Entry.value_eq {i : Int} {v w : BitVec 32} (h : g.Entry i v)
    (h' : g.Entry i w) : v = w := by
  obtain ⟨st, hst, -, rfl⟩ := h.stab
  obtain ⟨st', hst', -, rfl⟩ := h'.stab
  rw [Option.some.inj (hst.symm.trans hst')]

/-- Entries with different values stand in the order of the values. -/
theorem Sorted.lt_of_lt (hg : g.Sorted) {i j : Int} {v w : BitVec 32}
    (hi : g.Entry i v) (hj : g.Entry j w) (hvw : v < w) : i < j := by
  refine Int.not_le.mp fun hij => ?_
  rcases Int.lt_or_eq_of_le hij with hlt | rfl
  · exact BitVec.not_le.mpr hvw (hg j i w v hj hi hlt)
  · rw [hi.value_eq hj] at hvw
    exact BitVec.lt_irrefl _ hvw

end Region

/-! ## One round -/

section Rounds

variable {g : Region}

/-- Scanning down from `m`, `k` is the first entry of the type that is not
    below `l`, or lies below `l`. -/
structure Scanned (g : Region) (l m k : Int) : Prop where
  le : k ≤ m
  free : ∀ i v, k < i → i ≤ m → ¬ g.Entry i v
  stop : k < l ∨ ∃ v, g.Entry k v
  stay : m < l → k = m

/-- The scan ends, and reads the range only. -/
theorem scanDown_ends {l : Int} (hl : g.left ≤ l) :
    ∀ {n : Nat} {m : Int}, m ≤ g.right → (m + 1 - l).toNat = n →
      ∃ k, (∀ fuel, n < fuel → scanDown g.stabs g.type l fuel m = some k) ∧
        Scanned g l m k := by
  intro n
  induction n with
  | zero =>
      intro m _ hn
      have hlm : ¬ l ≤ m := by omega
      refine ⟨m, ?_, ⟨Int.le_refl m, ?_, .inl (by omega), fun _ => rfl⟩⟩
      · intro fuel hf
        obtain ⟨fuel, rfl⟩ := Nat.exists_eq_succ_of_ne_zero (Nat.ne_of_gt hf)
        rw [scanDown, if_neg hlm]
      · intro i v h1 h2
        omega
  | succ n ih =>
      intro m hm hn
      have hlm : l ≤ m := by omega
      obtain ⟨st, hst⟩ := g.readable m (Int.le_trans hl hlm) hm
      -- one round of the scan: it stays at `m` or goes on from `m - 1`
      have hround : ∀ fuel, scanDown g.stabs g.type l (fuel + 1) m
          = if HasType g.type st then some m
            else scanDown g.stabs g.type l fuel (m - 1) := by
        intro fuel
        rw [scanDown, if_pos hlm, hst]
        rfl
      by_cases ht : HasType g.type st
      · refine ⟨m, ?_, ⟨Int.le_refl m, ?_, ?_, fun _ => rfl⟩⟩
        · intro fuel hf
          obtain ⟨fuel, rfl⟩ := Nat.exists_eq_succ_of_ne_zero (Nat.ne_of_gt
            (Nat.lt_of_le_of_lt (Nat.zero_le _) hf))
          rw [hround, if_pos ht]
        · intro i v h1 h2
          omega
        · exact .inr ⟨st.nValue, Int.le_trans hl hlm, hm, st, hst, ht, rfl⟩
      · obtain ⟨k, hk, hscan⟩ := ih (m := m - 1) (by omega) (by omega)
        refine ⟨k, ?_, ⟨?_, ?_, hscan.stop, by omega⟩⟩
        · intro fuel hf
          obtain ⟨fuel, rfl⟩ := Nat.exists_eq_succ_of_ne_zero (Nat.ne_of_gt
            (Nat.lt_of_le_of_lt (Nat.zero_le _) hf))
          rw [hround, if_neg ht]
          exact hk fuel (Nat.lt_of_succ_lt_succ hf)
        · have := hscan.le
          omega
        · intro i v h1 h2 he
          rcases Int.lt_or_eq_of_le h2 with h3 | rfl
          · exact hscan.free i v h1 (by omega) he
          · obtain ⟨st', hst', ht', -⟩ := he.stab
            exact ht (Option.some.inj (hst.symm.trans hst') ▸ ht')

/-- The entry `m` that a round finds. -/
structure Search.At (g : Region) (s : Search) (m : Int) (v : BitVec 32) : Prop where
  entry : g.Entry m v
  ge : s.l ≤ m
  le : m ≤ s.mid
  free : ∀ i w, m < i → i ≤ s.mid → ¬ g.Entry i w

/-- What a round can do. -/
inductive Probe (g : Region) (s : Search) : Search → Prop where
  | skip : (∀ i v, s.l ≤ i → i ≤ s.mid → ¬ g.Entry i v) →
      Probe g s { s with l := s.mid + 1 }
  | below {m : Int} {v : BitVec 32} : s.At g m v → v < s.addr →
      Probe g s { s with anyMatches := true, left := m, l := s.mid + 1 }
  | above {m : Int} {v : BitVec 32} : s.At g m v → s.addr < v →
      Probe g s { s with anyMatches := true, right := m - 1, r := m - 1 }
  | hit {m : Int} : s.At g m s.addr →
      Probe g s { s with
        anyMatches := true, left := m, l := m, addr := s.addr + 1 }

/-- The variables point into the range. -/
structure Inside (g : Region) (s : Search) : Prop where
  l : g.left ≤ s.l
  r : s.r ≤ g.right
  left : g.left ≤ s.left
  right : s.right ≤ g.right

theorem Inside.mid {s : Search} (hs : Inside g s) (hle : s.l ≤ s.r) :
    s.l ≤ s.mid ∧ s.mid ≤ s.r := by
  have h0 := g.nonneg
  have h1 := hs.l
  have hmid : s.mid = (s.l + s.r) / 2 :=
    Int.tdiv_eq_ediv_of_nonneg (by omega)
  omega

/-- A round stays inside. -/
theorem Probe.inside {s s' : Search} (hs : Inside g s) (hle : s.l ≤ s.r)
    (hp : Probe g s s') : Inside g s' := by
  obtain ⟨h1, h2⟩ := hs.mid hle
  obtain ⟨h3, h4, h5, h6⟩ := hs
  cases hp with
  | skip _ => exact ⟨by simp only; omega, h4, h5, h6⟩
  | below hat _ => exact ⟨by simp only; omega, h4, hat.entry.ge, h6⟩
  | above hat _ =>
      have := hat.entry.le
      exact ⟨h3, by simp only; omega, h5, by simp only; omega⟩
  | hit hat => exact ⟨hat.entry.ge, h4, hat.entry.ge, h6⟩

/-- A round ends and does one of the four. -/
theorem searchBody_probe {s : Search} (hs : Inside g s) (hle : s.l ≤ s.r) :
    ∃ s', (∀ fuel, (s.r + 1 - s.l).toNat < fuel →
      searchBody g.stabs g.type fuel s = some s') ∧ Probe g s s' := by
  obtain ⟨h1, h2⟩ := hs.mid hle
  have hr := hs.r
  obtain ⟨m, hscan, hm⟩ := scanDown_ends hs.l (m := s.mid) (by omega) rfl
  have hbody : ∀ fuel, (s.r + 1 - s.l).toNat < fuel →
      searchBody g.stabs g.type fuel s = if m < s.l then some { s with l := s.mid + 1 }
        else (g.stabs m).bind fun st =>
          if st.nValue < s.addr then
            some { s with anyMatches := true, left := m, l := s.mid + 1 }
          else if s.addr < st.nValue then
            some { s with anyMatches := true, right := m - 1, r := m - 1 }
          else
            some { s with
              anyMatches := true, left := m, l := m, addr := s.addr + 1 } := by
    intro fuel hf
    rw [searchBody, hscan fuel (by omega)]
    rfl
  by_cases hml : m < s.l
  · refine ⟨_, fun fuel hf => ?_, .skip ?_⟩
    · rw [hbody fuel hf, if_pos hml]
    · intro i v h3 h4
      exact hm.free i v (by omega) h4
  · obtain ⟨v, he⟩ := hm.stop.resolve_left hml
    have hat : s.At g m v := ⟨he, by omega, hm.le, hm.free⟩
    obtain ⟨st, hst, -, rfl⟩ := he.stab
    simp only [if_neg hml, hst, Option.bind_some] at hbody
    by_cases hlt : st.nValue < s.addr
    · simp only [if_pos hlt] at hbody
      exact ⟨_, hbody, .below hat hlt⟩
    · by_cases hgt : s.addr < st.nValue
      · simp only [if_neg hlt, if_pos hgt] at hbody
        exact ⟨_, hbody, .above hat hgt⟩
      · have heq : st.nValue = s.addr := by bv_omega
        simp only [if_neg hlt, if_neg hgt] at hbody
        exact ⟨_, hbody, .hit (heq ▸ hat)⟩

/-! ## The loop -/

/-- One round of the loop. -/
def Step (g : Region) (s s' : Search) : Prop := s.l ≤ s.r ∧ Probe g s s'

/-- 0 if the entry at `l` was hit in the last round, else 1. -/
def Search.slack (g : Region) (s : Search) : Nat :=
  match g.stabs s.l with
  | some st => if st.nValue + 1 = s.addr then 0 else 1
  | none => 1

theorem Search.slack_le (g : Region) (s : Search) : s.slack g ≤ 1 := by
  unfold Search.slack
  split
  · split <;> omega
  · omega

/-- Bounds the rounds to come: a hit at `l` keeps the range but is not
    followed by another one. -/
def Search.measure (g : Region) (s : Search) : Nat :=
  2 * (s.r + 1 - s.l).toNat + s.slack g

theorem Probe.measure_lt {s s' : Search} (hs : Inside g s) (hle : s.l ≤ s.r)
    (hp : Probe g s s') : s'.measure g < s.measure g := by
  obtain ⟨h1, h2⟩ := hs.mid hle
  have hslack := s'.slack_le g
  unfold Search.measure
  cases hp with
  | skip _ =>
      simp only at hslack ⊢
      omega
  | below hat _ =>
      simp only at hslack ⊢
      omega
  | above hat _ =>
      have := hat.ge
      have := hat.le
      simp only at hslack ⊢
      omega
  | @hit m hat =>
      have hge := hat.ge
      have hmr := hat.le
      obtain ⟨st, hst, -, hv⟩ := hat.entry.stab
      simp only at hslack ⊢
      have hnew : ({ s with anyMatches := true, left := m, l := m, addr := s.addr + 1 } :
          Search).slack g = 0 := by
        simp [Search.slack, hst, hv]
      by_cases hml : m = s.l
      · have hold : s.slack g = 1 := by
          subst hml
          have hne : ¬ st.nValue + 1 = s.addr := by rw [hv]; bv_omega
          rw [Search.slack, hst]
          exact if_neg hne
        omega
      · omega

/-- The loop ends after a run of rounds. -/
theorem searchLoop_run : ∀ {n : Nat} {s : Search}, Inside g s → s.measure g ≤ n →
    ∃ s', (∀ fuel, n + 1 < fuel → searchLoop g.stabs g.type fuel s = some s') ∧
      Relation.ReflTransGen (Step g) s s' ∧ s'.r < s'.l ∧ Inside g s' := by
  intro n
  induction n with
  | zero =>
      intro s hs hn
      have hle : ¬ s.l ≤ s.r := by
        unfold Search.measure at hn
        omega
      refine ⟨s, fun fuel hf => ?_, .refl, by omega, hs⟩
      obtain ⟨fuel, rfl⟩ := Nat.exists_eq_succ_of_ne_zero (Nat.ne_of_gt
        (Nat.lt_of_le_of_lt (Nat.zero_le _) hf))
      rw [searchLoop, if_neg hle]
  | succ n ih =>
      intro s hs hn
      by_cases hle : s.l ≤ s.r
      · obtain ⟨s₁, hbody, hp⟩ := searchBody_probe hs hle
        have hlt := hp.measure_lt hs hle
        obtain ⟨s', hloop, hrun, hend, hin⟩ := ih (hp.inside hs hle) (by omega)
        refine ⟨s', fun fuel hf => ?_, .head ⟨hle, hp⟩ hrun, hend, hin⟩
        obtain ⟨fuel, rfl⟩ := Nat.exists_eq_succ_of_ne_zero (Nat.ne_of_gt
          (Nat.lt_of_le_of_lt (Nat.zero_le _) hf))
        have hfuel : (s.r + 1 - s.l).toNat < fuel := by
          unfold Search.measure at hn
          omega
        rw [searchLoop, if_pos hle, hbody fuel hfuel]
        exact hloop fuel (by omega)
      · refine ⟨s, fun fuel hf => ?_, .refl, by omega, hs⟩
        obtain ⟨fuel, rfl⟩ := Nat.exists_eq_succ_of_ne_zero (Nat.ne_of_gt
          (Nat.lt_of_le_of_lt (Nat.zero_le _) hf))
        rw [searchLoop, if_neg hle]

/-- The variables before the loop. -/
def start (g : Region) (addr : BitVec 32) : Search :=
  ⟨g.left, g.right, g.left, g.right, false, addr⟩

theorem start_inside (g : Region) (addr : BitVec 32) : Inside g (start g addr) :=
  ⟨Int.le_refl _, Int.le_refl _, Int.le_refl _, Int.le_refl _⟩

/-- What the call leaves, read off the variables after the loop. -/
structure Left (g : Region) (s : Search) (res : Int × Int) : Prop where
  none : s.anyMatches = false → res = (s.left, s.left - 1)
  right : s.anyMatches = true → res.2 = s.right
  left : s.anyMatches = true → Scanned g (s.left + 1) s.right res.1

/-- **THE SEARCH ENDS**: in any table, ordered or not, after a run of rounds
    inside the range. -/
theorem stabBinsearch_run (g : Region) (addr : BitVec 32) :
    ∃ s res, Relation.ReflTransGen (Step g) (start g addr) s ∧ s.r < s.l ∧
      Inside g s ∧ Left g s res ∧ ∃ n, ∀ fuel, n < fuel →
        stabBinsearch fuel g.stabs g.left g.right g.type addr = some res := by
  obtain ⟨s, hloop, hrun, hend, hin⟩ :=
    searchLoop_run (start_inside g addr) (Nat.le_refl _)
  have hleft := hin.left
  obtain ⟨k, hscan, hk⟩ := scanDown_ends (l := s.left + 1) (by omega) hin.right rfl
  have hcall : ∀ fuel, (start g addr).measure g + 1 < fuel →
      stabBinsearch fuel g.stabs g.left g.right g.type addr
        = if s.anyMatches then
            (scanDown g.stabs g.type (s.left + 1) fuel s.right).bind
              fun l => some (l, s.right)
          else some (s.left, s.left - 1) := by
    intro fuel hf
    rw [stabBinsearch, show (⟨g.left, g.right, g.left, g.right, false, addr⟩ : Search)
      = start g addr from rfl, hloop fuel hf]
    rfl
  cases hany : s.anyMatches with
  | false =>
      refine ⟨s, (s.left, s.left - 1), hrun, hend, hin, ⟨fun _ => rfl, ?_, ?_⟩,
        (start g addr).measure g + 1, fun fuel hf => ?_⟩
      · simp [hany]
      · simp [hany]
      · rw [hcall fuel hf, hany]
        rfl
  | true =>
      refine ⟨s, (k, s.right), hrun, hend, hin, ⟨by simp [hany], fun _ => rfl, fun _ => hk⟩,
        (start g addr).measure g + 1 + (s.right + 1 - (s.left + 1)).toNat,
        fun fuel hf => ?_⟩
      rw [hcall fuel (by omega), hany, hscan fuel (by omega)]
      rfl

end Rounds

/-! ## The entries that are read -/

/-- The table with only the entries from `left` to `right`. -/
def clip (stabs : Table) (left right : Int) : Table := fun i =>
  if left ≤ i ∧ i ≤ right then stabs i else none

/-- The range alone, with nothing around it. -/
def Region.clip (g : Region) : Region where
  stabs := SharixStab.clip g.stabs g.left g.right
  type := g.type
  left := g.left
  right := g.right
  nonneg := g.nonneg
  le := g.le
  readable i h1 h2 := by
    rw [SharixStab.clip, if_pos ⟨h1, h2⟩]
    exact g.readable i h1 h2

section Reads

variable {t t' : Table} (hsub : ∀ i st, t i = some st → t' i = some st)
include hsub

/-- A scan that ends has no use for further entries. -/
theorem scanDown_mono (type l : Int) {fuel : Nat} : ∀ {m k : Int},
    scanDown t type l fuel m = some k → scanDown t' type l fuel m = some k := by
  induction fuel with
  | zero =>
      intro m k h
      cases h
  | succ fuel ih =>
      intro m k h
      rw [scanDown] at h ⊢
      split at h
      · obtain ⟨st, hst, h⟩ := Option.bind_eq_some_iff.mp h
        rw [if_pos ‹_›, hsub m st hst]
        simp only [Option.bind_eq_bind, Option.bind_some]
        split at h
        · rw [if_pos ‹_›]
          exact h
        · rw [if_neg ‹_›]
          exact ih h
      · rw [if_neg ‹_›]
        exact h

theorem searchBody_mono (type : Int) {fuel : Nat} {s s' : Search}
    (h : searchBody t type fuel s = some s') :
    searchBody t' type fuel s = some s' := by
  obtain ⟨m, hm, h⟩ := Option.bind_eq_some_iff.mp h
  rw [searchBody, scanDown_mono hsub type _ hm]
  simp only [Option.bind_eq_bind, Option.bind_some]
  split at h
  · rw [if_pos ‹_›]
    exact h
  · obtain ⟨st, hst, h⟩ := Option.bind_eq_some_iff.mp h
    rw [if_neg ‹_›, hsub m st hst]
    exact h

theorem searchLoop_mono (type : Int) {fuel : Nat} : ∀ {s s' : Search},
    searchLoop t type fuel s = some s' → searchLoop t' type fuel s = some s' := by
  induction fuel with
  | zero =>
      intro s s' h
      cases h
  | succ fuel ih =>
      intro s s' h
      rw [searchLoop] at h ⊢
      split at h
      · obtain ⟨s₁, hbody, h⟩ := Option.bind_eq_some_iff.mp h
        rw [if_pos ‹_›, searchBody_mono hsub type hbody]
        exact ih h
      · rw [if_neg ‹_›]
        exact h

theorem stabBinsearch_mono {fuel : Nat} {left right type : Int} {addr : BitVec 32}
    {res : Int × Int} (h : stabBinsearch fuel t left right type addr = some res) :
    stabBinsearch fuel t' left right type addr = some res := by
  obtain ⟨s, hloop, h⟩ := Option.bind_eq_some_iff.mp h
  rw [stabBinsearch, searchLoop_mono hsub type hloop]
  simp only [Option.bind_eq_bind, Option.bind_some]
  split at h
  · obtain ⟨l, hl, h⟩ := Option.bind_eq_some_iff.mp h
    rw [if_pos ‹_›, scanDown_mono hsub type _ hl]
    exact h
  · rw [if_neg ‹_›]
    exact h

end Reads

/-- **NO ENTRY OUTSIDE THE RANGE IS READ**: on any table and any range inside
    it the search ends, and it ends alike where nothing else can be read. -/
theorem stab_binsearch_in_range (g : Region) (addr : BitVec 32) :
    ∃ n res, ∀ fuel, n < fuel →
      stabBinsearch fuel (clip g.stabs g.left g.right) g.left g.right g.type addr
        = some res ∧
      stabBinsearch fuel g.stabs g.left g.right g.type addr = some res := by
  obtain ⟨-, res, -, -, -, -, n, hres⟩ := stabBinsearch_run g.clip addr
  refine ⟨n, res, fun fuel hf => ⟨hres fuel hf, ?_⟩⟩
  refine stabBinsearch_mono ?_ (hres fuel hf)
  intro i st hi
  simp only [Region.clip, clip] at hi
  split at hi
  · exact hi
  · cases hi

end SharixStab
