import Sharix.StabProofs
import Mathlib.Data.Int.LeastGreatest

/-! # What `stab_binsearch` brackets

    Let `e` be the last entry at or below the address and `b` the last index of
    its part.  As long as no hit has raised the address to the value of the
    next entry, the rounds keep `l ≤ b + 1` and `b ≤ r` and end at `e` and `b`.
    A hit at `addr` when the next entry has the value `addr + 1` makes that
    entry an equal one as well, and `r` never comes below it again — unless the
    halving has met it before.  A hit at the highest address raises the address
    to 0, and both ends come out right below the entry that was hit. -/

namespace SharixStab

open SharixRun

/-- The highest address. -/
abbrev top : BitVec 32 := 0xFFFFFFFF#32

/-! ## What the comment says -/

namespace Region

variable (g : Region)

/-- `e` is the last entry whose value is at most `addr`. -/
structure Covers (addr : BitVec 32) (e : Int) : Prop where
  entry : ∃ v, g.Entry e v ∧ v ≤ addr
  last : ∀ i v, g.Entry i v → v ≤ addr → i ≤ e

/-- `b` is just before the entry behind `e`, or the end of the range. -/
structure EndsAt (e b : Int) : Prop where
  ge : e ≤ b
  free : ∀ i v, g.Entry i v → i ≤ b → i ≤ e
  next : b = g.right ∨ ∃ v, g.Entry (b + 1) v

/-- The result is the entry that covers the address and its end, or a crossed
    pair where there is none. -/
structure Brackets (addr : BitVec 32) (res : Int × Int) : Prop where
  found : (∃ i v, g.Entry i v ∧ v ≤ addr) →
    g.Covers addr res.1 ∧ g.EndsAt res.1 res.2
  missing : (¬ ∃ i v, g.Entry i v ∧ v ≤ addr) → res.2 < res.1

/-- `i` is the first entry with the value `v`. -/
structure First (v : BitVec 32) (i : Int) : Prop where
  entry : g.Entry i v
  least : ∀ j, g.Entry j v → i ≤ j

/-- `m` is the last entry from `l` to the middle of `l` and `r`. -/
structure Middle (l r m : Int) : Prop where
  entry : ∃ v, g.Entry m v
  ge : l ≤ m
  le : m ≤ (l + r).tdiv 2
  free : ∀ i v, m < i → i ≤ (l + r).tdiv 2 → ¬ g.Entry i v

/-- Halving `[l, r]` by position, to the right of the entries before `lo` and
    to the left of those behind `hi`, the first entry from `lo` to `hi` it comes
    to is `m`, in a range that ends at `r'`. -/
inductive Meets (lo hi : Int) : Int → Int → Int → Int → Prop where
  | here {l r m : Int} : l ≤ r → g.Middle l r m → lo ≤ m → m ≤ hi →
      Meets lo hi l r m r
  | skip {l r m r' : Int} : l ≤ r →
      (∀ i v, l ≤ i → i ≤ (l + r).tdiv 2 → ¬ g.Entry i v) →
      Meets lo hi ((l + r).tdiv 2 + 1) r m r' → Meets lo hi l r m r'
  | right {l r m r' k : Int} : l ≤ r → g.Middle l r k → k < lo →
      Meets lo hi ((l + r).tdiv 2 + 1) r m r' → Meets lo hi l r m r'
  | left {l r m r' k : Int} : l ≤ r → g.Middle l r k → hi < k →
      Meets lo hi l (k - 1) m r' → Meets lo hi l r m r'

/-- The entries `e₁` to `e` have the value `addr` and the next one, `f`, has
    `addr + 1`.  The halving of the range comes to `f` before it comes to one of
    the others; or `f` has the highest address, stands right behind `e`, and is
    the next one it comes to. -/
def MeetsNext (addr : BitVec 32) : Prop :=
  ∃ e₁ e f, g.First addr e₁ ∧ g.Covers addr e ∧ g.First (addr + 1) f ∧
    ∃ m r, g.Meets e₁ f g.left g.right m r ∧
      (m = f ∨ addr + 1 = top ∧ f = e + 1 ∧ ∃ r', g.Meets f r m r f r')

/-- There is no entry at all; or one at or below the address, and none that has
    the address, or none that has the one after it. -/
def Clear (addr : BitVec 32) : Prop :=
  (∀ i v, ¬ g.Entry i v) ∨
  (∃ i v, g.Entry i v ∧ v ≤ addr) ∧
    ((∀ i, ¬ g.Entry i addr) ∨ addr ≠ top ∧ ∀ i, ¬ g.Entry i (addr + 1))

/-- Both values occur. -/
structure Adjoins (addr : BitVec 32) : Prop where
  ne_top : addr ≠ top
  here : ∃ i, g.Entry i addr
  next : ∃ i, g.Entry i (addr + 1)

/-- There is no entry at all; or one at or below the address, and no two that
    have the address and the address after it, up to the order in which the
    halving comes to these. -/
def Searchable (addr : BitVec 32) : Prop :=
  (∀ i v, ¬ g.Entry i v) ∨
  (∃ i v, g.Entry i v ∧ v ≤ addr) ∧
    ((∀ i, ¬ g.Entry i addr) ∨
      addr ≠ top ∧ ((∀ i, ¬ g.Entry i (addr + 1)) ∨ g.MeetsNext addr))

variable {g}

/-- Where an entry is at or below the address, one covers it: the last such. -/
theorem exists_covers {addr : BitVec 32} (h : ∃ i v, g.Entry i v ∧ v ≤ addr) :
    ∃ e, g.Covers addr e := by
  obtain ⟨e, he, hlast⟩ := Int.exists_greatest_of_bdd
    (P := fun i => ∃ v, g.Entry i v ∧ v ≤ addr)
    ⟨g.right, fun i ⟨_, hi, _⟩ => hi.le⟩ h
  exact ⟨e, he, fun i v hi hv => hlast i ⟨v, hi, hv⟩⟩

/-- Of the entries with one value there is a first. -/
theorem exists_first {v : BitVec 32} (h : ∃ i, g.Entry i v) : ∃ i, g.First v i := by
  obtain ⟨i, hi, hleast⟩ := Int.exists_least_of_bdd
    (P := fun i => g.Entry i v) ⟨g.left, fun i hi => hi.ge⟩ h
  exact ⟨i, hi, hleast⟩

/-- Every entry's part has an end. -/
theorem exists_endsAt {e : Int} {v : BitVec 32} (he : g.Entry e v) :
    ∃ b, g.EndsAt e b := by
  by_cases h : ∃ i v, g.Entry i v ∧ e < i
  · obtain ⟨f, ⟨w, hf, hef⟩, hleast⟩ := Int.exists_least_of_bdd
      (P := fun i => ∃ v, g.Entry i v ∧ e < i)
      ⟨g.left, fun i ⟨_, hi, _⟩ => hi.ge⟩ h
    refine ⟨f - 1, by omega, ?_, .inr ⟨w, by simpa using hf⟩⟩
    intro i v hi hif
    refine Int.not_lt.mp fun hlt => ?_
    have := hleast i ⟨v, hi, hlt⟩
    omega
  · refine ⟨g.right, he.le, fun i v hi _ => ?_, .inl rfl⟩
    exact Int.not_lt.mp fun hlt => h ⟨i, v, hi, hlt⟩

theorem Covers.unique {addr : BitVec 32} {e e' : Int} (h : g.Covers addr e)
    (h' : g.Covers addr e') : e = e' := by
  obtain ⟨v, hv, hle⟩ := h.entry
  obtain ⟨v', hv', hle'⟩ := h'.entry
  have h1 := h.last e' v' hv' hle'
  have h2 := h'.last e v hv hle
  omega

theorem EndsAt.le_right {e b : Int} (h : g.EndsAt e b) : b ≤ g.right := by
  rcases h.next with rfl | ⟨v, hv⟩
  · exact Int.le_refl _
  · have := hv.le
    omega

theorem EndsAt.unique {e b b' : Int} (h : g.EndsAt e b) (h' : g.EndsAt e b') :
    b = b' := by
  have key : ∀ {b b' : Int}, g.EndsAt e b → g.EndsAt e b' → b' ≤ b := by
    intro b b' h h'
    rcases h.next with rfl | ⟨v, hv⟩
    · exact h'.le_right
    · refine Int.not_lt.mp fun hlt => ?_
      have h1 := h'.free _ v hv (by omega)
      have h2 := h.ge
      omega
  exact Int.le_antisymm (key h' h) (key h h')

/-- The scan to the left comes to one entry. -/
theorem Middle.unique {l r m m' : Int} (h : g.Middle l r m) (h' : g.Middle l r m') :
    m = m' := by
  obtain ⟨v, hv⟩ := h.entry
  obtain ⟨v', hv'⟩ := h'.entry
  rcases Int.lt_trichotomy m m' with hlt | rfl | hlt
  · exact absurd hv' (h.free m' v' hlt h'.le)
  · rfl
  · exact absurd hv (h'.free m v hlt h.le)

theorem Middle.not_free {l r m : Int} (h : g.Middle l r m) :
    ¬ ∀ i v, l ≤ i → i ≤ (l + r).tdiv 2 → ¬ g.Entry i v := by
  intro hfree
  obtain ⟨v, hv⟩ := h.entry
  exact hfree m v h.ge h.le hv

/-- The halving comes to one entry first. -/
theorem Meets.unique {lo hi l r m r' : Int} (h : g.Meets lo hi l r m r') :
    ∀ {m₂ r₂ : Int}, lo ≤ hi → g.Meets lo hi l r m₂ r₂ → m₂ = m ∧ r₂ = r' := by
  induction h with
  | here _ hm hlo hhi =>
      intro m₂ r₂ hle h₂
      cases h₂ with
      | here _ hm₂ _ _ => exact ⟨hm₂.unique hm, rfl⟩
      | skip _ hfree _ => exact absurd hfree hm.not_free
      | right _ hk hlt _ =>
          have := hk.unique hm
          omega
      | left _ hk hlt _ =>
          have := hk.unique hm
          omega
  | skip _ hfree _ ih =>
      intro m₂ r₂ hle h₂
      cases h₂ with
      | here _ hm _ _ => exact absurd hfree hm.not_free
      | skip _ _ h₂ => exact ih hle h₂
      | right _ hm _ _ => exact absurd hfree hm.not_free
      | left _ hm _ _ => exact absurd hfree hm.not_free
  | right _ hk hlt _ ih =>
      intro m₂ r₂ hle h₂
      cases h₂ with
      | here _ hm _ _ =>
          have := hk.unique hm
          omega
      | skip _ hfree _ => exact absurd hfree hk.not_free
      | right _ _ _ h₂ => exact ih hle h₂
      | left _ hm _ _ =>
          have := hk.unique hm
          omega
  | left _ hk hlt _ ih =>
      intro m₂ r₂ hle h₂
      cases h₂ with
      | here _ hm _ _ =>
          have := hk.unique hm
          omega
      | skip _ hfree _ => exact absurd hfree hk.not_free
      | right _ hm _ _ =>
          have := hk.unique hm
          omega
      | left _ hm _ h₂ =>
          obtain rfl := hk.unique hm
          exact ih hle h₂

end Region

/-! ## What every run keeps -/

section Runs

variable {g : Region} {s t : Search}

/-- The facts about the variables that no round depends on. -/
structure Tracks (g : Region) (s : Search) : Prop where
  inside : Inside g s
  right_eq : s.right = s.r
  left_le : s.left ≤ s.l
  unseen : s.anyMatches = false → s.left = g.left ∧ s.r = g.right ∧
    ∀ i v, i < s.l → ¬ g.Entry i v

/-- At the start nothing has been seen. -/
theorem start_tracks (g : Region) (addr : BitVec 32) : Tracks g (start g addr) := by
  refine ⟨start_inside g addr, rfl, Int.le_refl _, fun _ => ⟨rfl, rfl, ?_⟩⟩
  intro i v hi he
  exact Int.not_le.mpr hi he.ge

/-- A round keeps what the ends stand for. -/
theorem Step.tracks (hs : Tracks g s) (h : Step g s t) : Tracks g t := by
  obtain ⟨hle, hp⟩ := h
  obtain ⟨hmid, -⟩ := hs.inside.mid hle
  have hin := hp.inside hs.inside hle
  have hleft := hs.left_le
  cases hp with
  | skip hfree =>
      refine ⟨hin, hs.right_eq, by simp only; omega, fun h => ?_⟩
      obtain ⟨h1, h2, h3⟩ := hs.unseen h
      refine ⟨h1, h2, fun i v hi => ?_⟩
      by_cases hil : i < s.l
      · exact h3 i v hil
      · exact hfree i v (by omega) (by simp only at hi; omega)
  | below hat _ =>
      have := hat.le
      exact ⟨hin, hs.right_eq, by simp only; omega, by simp⟩
  | above _ _ => exact ⟨hin, rfl, hleft, by simp⟩
  | hit _ => exact ⟨hin, hs.right_eq, Int.le_refl _, by simp⟩

/-- And all rounds. -/
theorem run_tracks (hs : Tracks g s) (h : Relation.ReflTransGen (Step g) s t) :
    Tracks g t := by
  have hstep : ∀ s t, Tracks g s → Step g s t → Tracks g t := fun _ _ => Step.tracks
  exact run_invariant hstep h hs

/-- A search that meets no entry of the type crosses the pair. -/
theorem Left.missing {res : Int × Int} (hl : Left g t res)
    (hany : t.anyMatches = false) : res.2 < res.1 := by
  rw [hl.none hany]
  exact Int.sub_one_lt_of_le (Int.le_refl _)

/-- A search that meets one does not. -/
theorem Left.le {res : Int × Int} (hl : Left g t res) (hany : t.anyMatches = true) :
    res.1 ≤ res.2 := by
  rw [hl.right hany]
  exact (hl.left hany).le

/-- At the end of the loop an entry has been met if there is one. -/
theorem Tracks.any (ht : Tracks g t) (hend : t.r < t.l) {i : Int} {v : BitVec 32}
    (he : g.Entry i v) : t.anyMatches = true := by
  cases hany : t.anyMatches with
  | true => rfl
  | false =>
      obtain ⟨-, hr, hfree⟩ := ht.unseen hany
      have := he.le
      exact absurd he (hfree i v (by omega))

/-! ## A search that no later entry disturbs -/

/-- The rounds narrow the range to the end `b` of the part of `e`. -/
structure Narrows (g : Region) (e b : Int) (s : Search) : Prop where
  tracks : Tracks g s
  l : s.l ≤ b + 1
  r : b ≤ s.r
  left : s.left ≤ e
  low : ∀ i v, g.Entry i v → i ≤ b → v ≤ s.addr
  high : ∀ i v, g.Entry i v → b < i → i ≤ s.r → s.addr < v
  hits : (∃ i, g.Entry i s.addr ∧ i ≤ b) → s.addr < s.addr + 1 ∧
    ∀ i v, g.Entry i v → b < i → i ≤ s.r → s.addr + 1 < v

theorem Step.narrows {e b : Int} (hb : g.EndsAt e b) (hs : Narrows g e b s)
    (h : Step g s t) : Narrows g e b t := by
  have ht := Step.tracks hs.tracks h
  obtain ⟨hle, hp⟩ := h
  obtain ⟨hlm, hmr⟩ := hs.tracks.inside.mid hle
  have hl := hs.l
  have hr := hs.r
  have hsr := hs.tracks.inside.r
  -- the entry behind `b` is not passed over
  have hnext : ∀ m, m ≤ b → (∀ i v, m < i → i ≤ s.mid → ¬ g.Entry i v) → s.mid ≤ b := by
    intro m hm hfree
    rcases hb.next with rfl | ⟨v, hv⟩
    · omega
    · refine Int.not_lt.mp fun hlt => ?_
      exact hfree (b + 1) v (by omega) (by omega) hv
  cases hp with
  | skip hfree =>
      have hmid : s.mid ≤ b := hnext (s.l - 1) (by omega) (fun i v h => hfree i v (by omega))
      exact ⟨ht, by simp only; omega, hr, hs.left, hs.low, hs.high, hs.hits⟩
  | @below m v hat hv =>
      have hmb : m ≤ b := by
        refine Int.not_lt.mp fun hlt => ?_
        have := hs.high m v hat.entry hlt (Int.le_trans hat.le hmr)
        exact BitVec.lt_irrefl _ (BitVec.lt_trans hv this)
      have hmid := hnext m hmb hat.free
      exact ⟨ht, by simp only; omega, hr, hb.free m v hat.entry hmb, hs.low, hs.high,
        hs.hits⟩
  | @above m v hat hv =>
      have hmb : b < m := by
        refine Int.not_le.mp fun hlt => ?_
        exact BitVec.not_le.mpr hv (hs.low m v hat.entry hlt)
      have hmid := hat.le
      refine ⟨ht, hl, by simp only; omega, hs.left, hs.low, ?_, ?_⟩
      · intro i w hi h1 h2
        exact hs.high i w hi h1 (by simp only at h2; omega)
      · intro hex
        obtain ⟨h1, h2⟩ := hs.hits hex
        exact ⟨h1, fun i w hi h3 h4 => h2 i w hi h3 (by simp only at h4; omega)⟩
  | @hit m hat =>
      have hmb : m ≤ b := by
        refine Int.not_lt.mp fun hlt => ?_
        exact BitVec.lt_irrefl _ (hs.high m _ hat.entry hlt (Int.le_trans hat.le hmr))
      obtain ⟨hlt, hhigh⟩ := hs.hits ⟨m, hat.entry, hmb⟩
      refine ⟨ht, by simp only; omega, hr, hb.free m _ hat.entry hmb, ?_, hhigh, ?_⟩
      · intro i v hi h1
        exact BitVec.le_trans (hs.low i v hi h1) (BitVec.le_of_lt hlt)
      · -- the entries up to `b` lie below the raised address: no second hit
        rintro ⟨i, hi, h1⟩
        exact absurd hlt (BitVec.not_lt.mpr (hs.low i _ hi h1))

/-- Such a search ends at `e` and `b`. -/
theorem Narrows.result {e b : Int} {v : BitVec 32} (hb : g.EndsAt e b)
    (he : g.Entry e v) (hs : Narrows g e b s)
    (hrun : Relation.ReflTransGen (Step g) s t) (hend : t.r < t.l)
    {res : Int × Int} (hl : Left g t res) : res = (e, b) := by
  have hstep : ∀ s t, Narrows g e b s → Step g s t → Narrows g e b t :=
    fun _ _ => Step.narrows hb
  have ht := run_invariant hstep hrun hs
  have hany := ht.tracks.any hend he
  have hr : t.right = b := by
    have h1 := ht.l
    have h2 := ht.r
    have h3 := ht.tracks.right_eq
    omega
  have hscan := hl.left hany
  rw [hr] at hscan
  have hleft := ht.left
  have hge : e ≤ res.1 := by
    refine Int.not_lt.mp fun hlt => ?_
    exact hscan.free e v hlt hb.ge he
  have hle : res.1 ≤ e := by
    rcases hscan.stop with h | ⟨w, hw⟩
    · omega
    · exact hb.free _ w hw hscan.le
  exact Prod.ext (by simp only; omega) ((hl.right hany).trans hr)

/-! ## The way to the first hit -/

/-- On a run from `s` to `t` the round from `s₁` to `s₂` finds the entry `m`,
    which is the first from `lo` to `hi` that the halving comes to. -/
structure Comes (g : Region) (lo hi : Int) (s t s₁ s₂ : Search) (m : Int)
    (v : BitVec 32) : Prop where
  before : Relation.ReflTransGen (Step g) s s₁
  step : Step g s₁ s₂
  after : Relation.ReflTransGen (Step g) s₂ t
  found : s₁.At g m v
  ge : lo ≤ m
  le : m ≤ hi
  addr_eq : s₁.addr = s.addr
  l_le : s₁.l ≤ lo
  le_r : hi ≤ s₁.r
  meets : g.Meets lo hi s.l s.r m s₁.r

/-- A round outside `lo` to `hi` is a move of the halving. -/
theorem Comes.head {lo hi m : Int} {v : BitVec 32} {s' s₁ s₂ : Search}
    (hstep : Step g s s') (ha : s'.addr = s.addr)
    (hmove : ∀ m r, g.Meets lo hi s'.l s'.r m r → g.Meets lo hi s.l s.r m r)
    (h : Comes g lo hi s' t s₁ s₂ m v) : Comes g lo hi s t s₁ s₂ m v :=
  ⟨.head hstep h.before, h.step, h.after, h.found, h.ge, h.le, h.addr_eq.trans ha,
    h.l_le, h.le_r, hmove _ _ h.meets⟩

/-- A run from a range that holds an entry `lo` comes to an entry from `lo` to
    `hi`, when the address tells these from the others. -/
theorem run_comes {lo hi : Int} {v₀ : BitVec 32} (hlo : g.Entry lo v₀) (hle : lo ≤ hi)
    (hend : t.r < t.l) (hrun : Relation.ReflTransGen (Step g) s t) :
    Tracks g s → s.l ≤ lo → hi ≤ s.r →
    (∀ i v, g.Entry i v → i < lo → v < s.addr) →
    (∀ i v, g.Entry i v → hi < i → i ≤ s.r → s.addr < v) →
    ∃ s₁ s₂ m v, Comes g lo hi s t s₁ s₂ m v := by
  induction hrun using Relation.ReflTransGen.head_induction_on with
  | refl =>
      intro _ h1 h2
      omega
  | @head s s' hstep hrest ih =>
      intro hs hl hr hbelow habove
      have hs' := Step.tracks hs hstep
      have hstep' := hstep
      obtain ⟨hsle, hp⟩ := hstep'
      obtain ⟨hlm, hmr⟩ := hs.inside.mid hsle
      have hmiddle : ∀ {m v}, s.At g m v → g.Middle s.l s.r m := fun {m v} hat =>
        ⟨⟨v, hat.entry⟩, hat.ge, hat.le, hat.free⟩
      have hhere : ∀ {m v}, s.At g m v → lo ≤ m → m ≤ hi →
          ∃ s₁ s₂ m v, Comes g lo hi s t s₁ s₂ m v := fun {m v} hat h1 h2 =>
        ⟨s, s', m, v, .refl, hstep, hrest, hat, h1, h2, rfl, hl, hr,
          .here hsle (hmiddle hat) h1 h2⟩
      have hmove : s'.addr = s.addr → s'.l ≤ lo → hi ≤ s'.r → s'.r ≤ s.r →
          (∀ m r, g.Meets lo hi s'.l s'.r m r → g.Meets lo hi s.l s.r m r) →
          ∃ s₁ s₂ m v, Comes g lo hi s t s₁ s₂ m v := by
        intro ha h1 h2 h3 hmeets
        obtain ⟨s₁, s₂, m, v, h⟩ := ih hs' h1 h2 (by rw [ha]; exact hbelow)
          (fun i v hi h4 h5 => ha ▸ habove i v hi h4 (Int.le_trans h5 h3))
        exact ⟨s₁, s₂, m, v, h.head hstep ha hmeets⟩
      cases hp with
      | skip hfree =>
          have hmid : s.mid < lo := Int.not_le.mp fun h => hfree lo v₀ hl h hlo
          exact hmove rfl hmid hr (Int.le_refl _) fun m r => .skip hsle hfree
      | @below m v hat hv =>
          by_cases hmlo : m < lo
          · have hmid : s.mid < lo := Int.not_le.mp fun h => hat.free lo v₀ hmlo h hlo
            exact hmove rfl hmid hr (Int.le_refl _)
              fun _ _ => .right hsle (hmiddle hat) hmlo
          · refine hhere hat (by omega) (Int.not_lt.mp fun h => ?_)
            have hv' := habove m v hat.entry h (Int.le_trans hat.le hmr)
            exact BitVec.lt_irrefl _ (BitVec.lt_trans hv hv')
      | @above m v hat hv =>
          by_cases hmhi : hi < m
          · have hm := hat.le
            exact hmove rfl hl (Int.le_sub_one_of_lt hmhi) (by simp only; omega)
              fun _ _ => .left hsle (hmiddle hat) hmhi
          · refine hhere hat (Int.not_lt.mp fun h => ?_) (by omega)
            exact BitVec.lt_irrefl _ (BitVec.lt_trans hv (hbelow m v hat.entry h))
      | @hit m hat =>
          refine hhere hat (Int.not_lt.mp fun h => ?_) (Int.not_lt.mp fun h => ?_)
          · exact BitVec.lt_irrefl _ (hbelow m _ hat.entry h)
          · exact BitVec.lt_irrefl _ (habove m _ hat.entry h (Int.le_trans hat.le hmr))

theorem Search.At.unique {m m' : Int} {v v' : BitVec 32} (h : s.At g m v)
    (h' : s.At g m' v') : m = m' ∧ v = v' := by
  have hm : m = m' := Region.Middle.unique (l := s.l) (r := s.r)
    ⟨⟨v, h.entry⟩, h.ge, h.le, h.free⟩ ⟨⟨v', h'.entry⟩, h'.ge, h'.le, h'.free⟩
  subst hm
  exact ⟨rfl, h.entry.value_eq h'.entry⟩

theorem Probe.eq_above {m : Int} {v : BitVec 32} (hp : Probe g s t) (hat : s.At g m v)
    (hv : s.addr < v) :
    t = { s with anyMatches := true, right := m - 1, r := m - 1 } := by
  cases hp with
  | skip hfree => exact absurd hat.entry (hfree m v hat.ge hat.le)
  | below hat' hv' =>
      obtain ⟨-, rfl⟩ := hat.unique hat'
      exact absurd (BitVec.lt_trans hv hv') (BitVec.lt_irrefl _)
  | above hat' _ =>
      obtain ⟨rfl, -⟩ := hat.unique hat'
      rfl
  | hit hat' =>
      obtain ⟨-, rfl⟩ := hat.unique hat'
      exact absurd hv (BitVec.lt_irrefl _)

theorem Probe.eq_hit {m : Int} (hp : Probe g s t) (hat : s.At g m s.addr) :
    t = { s with anyMatches := true, left := m, l := m, addr := s.addr + 1 } := by
  cases hp with
  | skip hfree => exact absurd hat.entry (hfree m _ hat.ge hat.le)
  | below hat' hv =>
      obtain ⟨-, rfl⟩ := hat.unique hat'
      exact absurd hv (BitVec.lt_irrefl _)
  | above hat' hv =>
      obtain ⟨-, rfl⟩ := hat.unique hat'
      exact absurd hv (BitVec.lt_irrefl _)
  | hit hat' =>
      obtain ⟨rfl, -⟩ := hat.unique hat'
      rfl

/-! ## After a hit -/

/-- A hit at the highest address raises the address to 0; nothing from there on
    is below or equal to it, and both ends come out right before the entry. -/
theorem wrapped_result {k : Int} (hk : g.Entry k top) (hs : Tracks g s)
    (hl : s.l = k) (hleft : s.left = k) (haddr : s.addr = 0) (hr : k ≤ s.r)
    (hhigh : ∀ i v, g.Entry i v → k ≤ i → v = top)
    (hrun : Relation.ReflTransGen (Step g) s t) (hend : t.r < t.l)
    {res : Int × Int} (hres : Left g t res) : res = (k - 1, k - 1) := by
  have hstep : ∀ s t : Search,
      Tracks g s ∧ s.l = k ∧ s.left = k ∧ s.addr = 0 ∧ k - 1 ≤ s.r → Step g s t →
      Tracks g t ∧ t.l = k ∧ t.left = k ∧ t.addr = 0 ∧ k - 1 ≤ t.r := by
    rintro s t ⟨hs, hl, hleft, haddr, hr⟩ hst
    have ht := Step.tracks hs hst
    obtain ⟨hle, hp⟩ := hst
    obtain ⟨hlm, -⟩ := hs.inside.mid hle
    cases hp with
    | skip hfree => exact absurd hk (hfree k top (by omega) (by omega))
    | @below m v hat hv =>
        rw [haddr] at hv
        exact absurd hv BitVec.not_lt_zero
    | @above m v hat hv =>
        have := hat.ge
        exact ⟨ht, hl, hleft, haddr, by simp only; omega⟩
    | @hit m hat =>
        have h := hhigh m _ hat.entry (hl ▸ hat.ge)
        rw [haddr] at h
        cases h
  obtain ⟨ht, hl', hleft', -, hr'⟩ := run_invariant hstep hrun
    ⟨hs, hl, hleft, haddr, by omega⟩
  have hany := ht.any hend hk
  have hright : t.right = k - 1 := by
    have := ht.right_eq
    omega
  have hscan := hres.left hany
  rw [hleft', hright] at hscan
  exact Prod.ext (hscan.stay (by omega)) ((hres.right hany).trans hright)

/-- Once the address is the value of the next entry `f`, or the search is
    behind `f`, the right end stays at or behind `f`. -/
theorem passed_right {f : Int} {a : BitVec 32} (hf : g.First a f) (ha : a ≠ top)
    (hg : g.Sorted) (hs : Tracks g s) (hr : f ≤ s.r) (haddr : a ≤ s.addr ∨ f < s.l)
    (hrun : Relation.ReflTransGen (Step g) s t) : f ≤ t.r := by
  have hstep : ∀ s t : Search, Tracks g s ∧ f ≤ s.r ∧ (a ≤ s.addr ∨ f < s.l) →
      Step g s t → Tracks g t ∧ f ≤ t.r ∧ (a ≤ t.addr ∨ f < t.l) := by
    rintro s t ⟨hs, hr, haddr⟩ hst
    have ht := Step.tracks hs hst
    obtain ⟨hle, hp⟩ := hst
    obtain ⟨hlm, -⟩ := hs.inside.mid hle
    cases hp with
    | skip hfree => exact ⟨ht, hr, haddr.imp_right (by simp only; omega)⟩
    | below hat hv => exact ⟨ht, hr, haddr.imp_right (by simp only; omega)⟩
    | @above m v hat hv =>
        have hfm : f < m := by
          rcases haddr with h | h
          · exact hg.lt_of_lt hf.entry hat.entry (by bv_omega)
          · exact Int.lt_of_lt_of_le h hat.ge
        exact ⟨ht, by simp only; omega, haddr⟩
    | @hit m hat =>
        refine ⟨ht, hr, ?_⟩
        rcases haddr with h | h
        · by_cases htop : s.addr = top
          · -- the address wraps, but the hit is behind `f`
            have hlt : a < s.addr := by
              bv_omega
            exact .inr (hg.lt_of_lt hf.entry hat.entry hlt)
          · refine .inl ?_
            simp only
            bv_omega
        · exact .inr (Int.lt_of_lt_of_le h hat.ge)
  exact (run_invariant hstep hrun ⟨hs, hr, haddr⟩).2.1

/-! ## All cases -/

/-- Where an entry covers the address there is one right result. -/
theorem brackets_iff_eq {addr : BitVec 32} {e b : Int} (he : g.Covers addr e)
    (hb : g.EndsAt e b) (res : Int × Int) : g.Brackets addr res ↔ res = (e, b) := by
  obtain ⟨v, hv, hle⟩ := he.entry
  constructor
  · intro h
    obtain ⟨h1, h2⟩ := h.found ⟨e, v, hv, hle⟩
    obtain rfl := h1.unique he
    exact Prod.ext rfl (h2.unique hb)
  · rintro rfl
    exact ⟨fun _ => ⟨he, hb⟩, fun h => absurd ⟨e, v, hv, hle⟩ h⟩

theorem start_narrows {addr : BitVec 32} {e b : Int} (hg : g.Sorted)
    (he : g.Covers addr e) (hb : g.EndsAt e b)
    (hhits : (∃ i, g.Entry i addr) → addr ≠ top ∧ ∀ i, ¬ g.Entry i (addr + 1)) :
    Narrows g e b (start g addr) := by
  obtain ⟨v, hv, hle⟩ := he.entry
  have hge := hv.ge
  have hhigh : ∀ i w, g.Entry i w → b < i → addr < w := by
    intro i w hi hbi
    refine BitVec.not_le.mp fun h => ?_
    have := he.last i w hi h
    have := hb.ge
    omega
  refine ⟨start_tracks g addr, ?_, hb.le_right, hge, ?_, ?_, ?_⟩
  · have := hb.ge
    simp only [start]
    omega
  · intro i w hi hib
    rcases Int.lt_or_eq_of_le (hb.free i w hi hib) with h | rfl
    · exact BitVec.le_trans (hg i e w v hi hv h) hle
    · rw [hi.value_eq hv]
      exact hle
  · exact fun i w hi hbi _ => hhigh i w hi hbi
  · rintro ⟨i, hi, -⟩
    obtain ⟨htop, hnone⟩ := hhits ⟨i, hi⟩
    refine ⟨by simp only [start]; bv_omega, fun j w hj hbj _ => ?_⟩
    have h1 := hhigh j w hj hbj
    have h2 : w ≠ addr + 1 := by
      rintro rfl
      exact hnone j hj
    simp only [start]
    bv_omega

/-- Without an entry the search meets none. -/
theorem any_of_none {addr : BitVec 32} (hnone : ∀ i v, ¬ g.Entry i v)
    (hrun : Relation.ReflTransGen (Step g) (start g addr) t) :
    t.anyMatches = false := by
  have hstep : ∀ s t : Search, s.anyMatches = false → Step g s t →
      t.anyMatches = false := by
    rintro s t hs ⟨-, hp⟩
    cases hp with
    | skip _ => exact hs
    | below hat _ => exact absurd hat.entry (hnone _ _)
    | above hat _ => exact absurd hat.entry (hnone _ _)
    | hit hat => exact absurd hat.entry (hnone _ _)
  exact run_invariant hstep hrun rfl

section Hits

variable {addr : BitVec 32} {e₁ e f b : Int} {res : Int × Int}

/-- The last entry covering an address that occurs has it. -/
theorem covers_addr (hg : g.Sorted) (h₁ : g.First addr e₁) (he : g.Covers addr e) :
    g.Entry e addr := by
  obtain ⟨v, hv, hle⟩ := he.entry
  have h1 := he.last e₁ addr h₁.entry (BitVec.le_refl _)
  rcases Int.lt_or_eq_of_le h1 with h | rfl
  · have h2 := hg e₁ e addr v h₁.entry hv h
    rwa [BitVec.le_antisymm hle h2] at hv
  · exact h₁.entry

/-- The entries before the first one with the address lie below it. -/
theorem first_below (hg : g.Sorted) (h₁ : g.First addr e₁) :
    ∀ i v, g.Entry i v → i < e₁ → v < addr := by
  intro i v hi hlt
  refine BitVec.not_le.mp fun h => ?_
  have h2 := hg i e₁ v addr hi h₁.entry hlt
  have := h₁.least i (BitVec.le_antisymm h2 h ▸ hi)
  omega

/-- From the first entry with the highest address on, all have it. -/
theorem top_above (hg : g.Sorted) (hf : g.Entry f top) :
    ∀ i v, g.Entry i v → f ≤ i → v = top := by
  intro i v hi h1
  rcases Int.lt_or_eq_of_le h1 with h | rfl
  · have := hg f i top v hf hi h
    bv_omega
  · exact hi.value_eq hf

/-- A search for the highest address ends before the first entry with it that
    the halving comes to. -/
theorem top_run (hg : g.Sorted) (hf : g.First top f) (hs : Tracks g s) (haddr : s.addr = top)
    (hlf : s.l ≤ f) (hfr : f ≤ s.r) (hrun : Relation.ReflTransGen (Step g) s t)
    (hend : t.r < t.l) (hl : Left g t res) :
    ∃ m r, g.Meets f s.r s.l s.r m r ∧ g.Entry m top ∧ res = (m - 1, m - 1) := by
  obtain ⟨s₁, s₂, m, v, hc⟩ := run_comes hf.entry hfr hend hrun hs hlf (Int.le_refl _)
    (fun i v hi h1 => haddr ▸ first_below hg hf i v hi h1)
    (fun i v hi h1 h2 => absurd h2 (Int.not_le.mpr h1))
  obtain rfl := top_above hg hf.entry m v hc.found.entry hc.ge
  have haddr₁ : s₁.addr = top := hc.addr_eq.trans haddr
  have hat : s₁.At g m s₁.addr := by
    rw [haddr₁]
    exact hc.found
  have ht₁ := run_tracks hs hc.before
  have ht₂ := Step.tracks ht₁ hc.step
  have hmr := Int.le_trans hc.found.le (ht₁.inside.mid hc.step.1).2
  obtain rfl := hc.step.2.eq_hit hat
  refine ⟨m, s₁.r, hc.meets, hc.found.entry,
    wrapped_result hc.found.entry ht₂ rfl rfl ?_ hmr ?_ hc.after hend hl⟩
  · simp only [haddr₁]
    decide
  · exact fun i w hi h1 => top_above hg hf.entry i w hi (Int.le_trans hc.ge h1)

/-- A search for the highest address that an entry has goes wrong. -/
theorem top_result (hg : g.Sorted) (h₁ : g.First top e₁)
    (hrun : Relation.ReflTransGen (Step g) (start g top) t) (hend : t.r < t.l)
    (hl : Left g t res) : ∃ m, g.Entry m top ∧ res = (m - 1, m - 1) := by
  obtain ⟨m, -, -, hm⟩ := top_run hg h₁ (start_tracks g top) rfl h₁.entry.ge h₁.entry.le hrun
    hend hl
  exact ⟨m, hm⟩

/-- The entries behind those with the address begin with `f`. -/
theorem first_above (hg : g.Sorted) (hf : g.First (addr + 1) f) :
    ∀ i v, g.Entry i v → addr < v → f ≤ i := by
  intro i v hi hv
  by_cases h : v = addr + 1
  · exact hf.least i (h ▸ hi)
  · exact Int.le_of_lt (hg.lt_of_lt hf.entry hi (by bv_omega))

/-- Behind an exact hit the part ends before the first entry with the next value. -/
theorem endsAt_next (hg : g.Sorted) (he : g.Covers addr e) (hea : g.Entry e addr)
    (hf : g.First (addr + 1) f) (htop : addr ≠ top) : g.EndsAt e (f - 1) := by
  have hef : e < f := hg.lt_of_lt hea hf.entry (by bv_omega)
  refine ⟨by omega, fun i v hi hif => ?_, .inr ⟨addr + 1, by simpa using hf.entry⟩⟩
  by_cases hv : v ≤ addr
  · exact he.last i v hi hv
  · have := first_above hg hf i v hi (BitVec.not_le.mp hv)
    omega

/-- The condition, with the entries and the way of the halving put in. -/
theorem meetsNext_iff {m r : Int} (h₁ : g.First addr e₁) (he : g.Covers addr e)
    (hf : g.First (addr + 1) f) (hle : e₁ ≤ f) (hm : g.Meets e₁ f g.left g.right m r) :
    g.MeetsNext addr ↔
      m = f ∨ addr + 1 = top ∧ f = e + 1 ∧ ∃ r', g.Meets f r m r f r' := by
  constructor
  · rintro ⟨e₁', e', f', h₁', he', hf', m', r', hm', h⟩
    obtain rfl : e₁' = e₁ :=
      Int.le_antisymm (h₁'.least _ h₁.entry) (h₁.least _ h₁'.entry)
    obtain rfl := he'.unique he
    obtain rfl : f' = f := Int.le_antisymm (hf'.least _ hf.entry) (hf.least _ hf'.entry)
    obtain ⟨rfl, rfl⟩ := hm.unique hle hm'
    exact h
  · exact fun h => ⟨e₁, e, f, h₁, he, hf, m, r, hm, h⟩

/-- The next entry is dropped: what is left has no value above the address. -/
theorem narrows_of_above (hg : g.Sorted) (hf : g.First (addr + 1) f) (htop : addr ≠ top)
    (hs : Tracks g { s with anyMatches := true, right := f - 1, r := f - 1 })
    (haddr : s.addr = addr) (hle : s.left ≤ e) (hl : s.l ≤ e) (hef : e < f) :
    Narrows g e (f - 1) { s with anyMatches := true, right := f - 1, r := f - 1 } := by
  refine ⟨hs, by simp only; omega, Int.le_refl _, by simp only; omega, ?_, ?_, ?_⟩
  · intro i w hi hib
    simp only [haddr]
    refine BitVec.not_lt.mp fun h => ?_
    have := first_above hg hf i w hi h
    omega
  · intro i w _ h1 h2
    exact absurd h2 (Int.not_le.mpr h1)
  · exact fun _ => ⟨by simp only [haddr]; bv_omega,
      fun i w _ h1 h2 => absurd h2 (Int.not_le.mpr h1)⟩

/-- The search for an address that occurs, when the address after it does:
    it goes right if the halving comes to the next entry in time. -/
theorem next_result_iff (hg : g.Sorted) (h₁ : g.First addr e₁) (he : g.Covers addr e)
    (hf : g.First (addr + 1) f) (htop : addr ≠ top)
    (hrun : Relation.ReflTransGen (Step g) (start g addr) t) (hend : t.r < t.l)
    (hl : Left g t res) : res = (e, f - 1) ↔ g.MeetsNext addr := by
  have hea := covers_addr hg h₁ he
  have hb := endsAt_next hg he hea hf htop
  have hef : e < f := by
    have := hb.ge
    omega
  have he₁ := he.last e₁ addr h₁.entry (BitVec.le_refl _)
  have hany := (run_tracks (start_tracks g addr) hrun).any hend hea
  obtain ⟨s₁, s₂, m, v, hc⟩ := run_comes h₁.entry (by omega) hend hrun
    (start_tracks g addr) h₁.entry.ge hf.entry.le (first_below hg h₁) (by
      intro i w hi h1 _
      refine BitVec.not_le.mp fun h => ?_
      have := he.last i w hi h
      omega)
  have haddr : s₁.addr = addr := hc.addr_eq
  have ht₁ := run_tracks (start_tracks g addr) hc.before
  have ht₂ := Step.tracks ht₁ hc.step
  rw [meetsNext_iff h₁ he hf (by omega) hc.meets]
  by_cases hmf : m = f
  · -- `f` is met first
    refine iff_of_true ?_ (.inl hmf)
    subst hmf
    obtain rfl := hc.found.entry.value_eq hf.entry
    obtain rfl := hc.step.2.eq_above hc.found (by rw [haddr]; bv_omega)
    have hleft := ht₁.left_le
    have hl₁ := hc.l_le
    exact (narrows_of_above hg hf htop ht₂ haddr (by omega) (by omega) hef).result hb hea
      hc.after hend hl
  · -- an entry with the address is hit first
    have hme : m ≤ e := by
      refine hb.free m v hc.found.entry ?_
      have := hc.le
      omega
    have hv : v = addr := by
      refine BitVec.le_antisymm (BitVec.not_lt.mp fun h => ?_) (BitVec.not_lt.mp fun h => ?_)
      · have := first_above hg hf m v hc.found.entry h
        omega
      · have := hg.lt_of_lt hc.found.entry h₁.entry h
        have := hc.ge
        omega
    have hat : s₁.At g m s₁.addr := by
      rw [haddr, ← hv]
      exact hc.found
    obtain rfl := hc.step.2.eq_hit hat
    have hfr : f ≤ s₁.r := hc.le_r
    by_cases hmax : addr + 1 = top
    · -- the entries from `f` on have the highest address; the first one met is hit
      obtain ⟨m', r', hm', -, hres⟩ := top_run hg (hmax ▸ hf) ht₂
        (by simp only [haddr, hmax]) (by simp only; omega) hfr hc.after hend hl
      rw [hres]
      constructor
      · intro h
        obtain ⟨h1, h2⟩ := Prod.mk.inj h
        obtain rfl : m' = f := by omega
        exact .inr ⟨hmax, by omega, r', hm'⟩
      · rintro (h | ⟨-, hfe, r'', hm''⟩)
        · exact absurd h hmf
        · obtain ⟨rfl, -⟩ := hm'.unique hfr hm''
          rw [hfe, Int.add_sub_cancel]
    · -- `f` has become an equal entry, and the right end stays behind it
      refine iff_of_false (fun h => ?_) (fun h => h.elim hmf fun h => hmax h.1)
      have hpass : f ≤ t.r :=
        passed_right hf hmax hg ht₂ hfr (.inl (by simp only [haddr]; bv_omega)) hc.after
      have h2 : res.2 = f - 1 := congrArg Prod.snd h
      rw [hl.right hany, (run_tracks (start_tracks g addr) hrun).right_eq] at h2
      omega

end Hits

/-- What the loop leaves is right exactly in a searchable range. -/
theorem brackets_iff {addr : BitVec 32} {res : Int × Int} (hg : g.Sorted)
    (hrun : Relation.ReflTransGen (Step g) (start g addr) t) (hend : t.r < t.l)
    (hl : Left g t res) : g.Brackets addr res ↔ g.Searchable addr := by
  by_cases hnone : ∀ i v, ¬ g.Entry i v
  · refine iff_of_true ⟨?_, fun _ => hl.missing (any_of_none hnone hrun)⟩ (.inl hnone)
    rintro ⟨i, v, hi, -⟩
    exact absurd hi (hnone i v)
  obtain ⟨i, v, hi⟩ : ∃ i v, g.Entry i v := by
    simpa only [not_forall, not_not] using hnone
  have hany := (run_tracks (start_tracks g addr) hrun).any hend hi
  by_cases hcov : ∃ i v, g.Entry i v ∧ v ≤ addr
  swap
  · -- all entries lie above the address, and the pair comes out uncrossed
    refine iff_of_false (fun h => ?_) ?_
    · exact Int.not_lt.mpr (hl.le hany) (h.missing hcov)
    · rintro (h | ⟨h, -⟩)
      · exact hnone h
      · exact hcov h
  obtain ⟨e, he⟩ := Region.exists_covers hcov
  obtain ⟨w, hw, -⟩ := he.entry
  obtain ⟨b, hb⟩ := Region.exists_endsAt hw
  have hgood : ((∃ i, g.Entry i addr) → addr ≠ top ∧ ∀ i, ¬ g.Entry i (addr + 1)) →
      res = (e, b) := fun hhits =>
    (start_narrows hg he hb hhits).result hb hw hrun hend hl
  rw [brackets_iff_eq he hb]
  by_cases hex : ∃ i, g.Entry i addr
  swap
  · refine iff_of_true (hgood fun h => absurd h hex) (.inr ⟨hcov, .inl ?_⟩)
    exact fun i hi => hex ⟨i, hi⟩
  obtain ⟨e₁, h₁⟩ := Region.exists_first hex
  have hsearch : g.Searchable addr ↔
      addr ≠ top ∧ ((∀ i, ¬ g.Entry i (addr + 1)) ∨ g.MeetsNext addr) := by
    constructor
    · rintro (h | ⟨-, h | h⟩)
      · exact absurd h hnone
      · exact absurd h₁.entry (h e₁)
      · exact h
    · exact fun h => .inr ⟨hcov, .inr h⟩
  rw [hsearch]
  by_cases htop : addr = top
  · refine iff_of_false (fun h => ?_) (fun h => h.1 htop)
    subst htop
    obtain ⟨m, hm, hres⟩ := top_result hg h₁ hrun hend hl
    have h1 := he.last m top hm (BitVec.le_refl _)
    have h2 : m - 1 = e := congrArg Prod.fst (hres.symm.trans h)
    omega
  by_cases hnext : ∃ i, g.Entry i (addr + 1)
  swap
  · have hno : ∀ i, ¬ g.Entry i (addr + 1) := fun i hi => hnext ⟨i, hi⟩
    exact iff_of_true (hgood fun _ => ⟨htop, hno⟩) ⟨htop, .inl hno⟩
  obtain ⟨f, hf⟩ := Region.exists_first hnext
  obtain rfl := hb.unique (endsAt_next hg he (covers_addr hg h₁ he) hf htop)
  rw [next_result_iff hg h₁ he hf htop hrun hend hl]
  constructor
  · exact fun h => ⟨htop, .inr h⟩
  · rintro ⟨-, h | h⟩
    · exact absurd hf.entry (h f)
    · exact h

end Runs

/-- A bracket is found in a searchable range only. -/
theorem stab_binsearch_searchable {g : Region} (hg : g.Sorted) (addr : BitVec 32) :
    (∃ n res, (∀ fuel, n < fuel →
        stabBinsearch fuel g.stabs g.left g.right g.type addr = some res) ∧
      g.Brackets addr res) ↔ g.Searchable addr := by
  obtain ⟨t, res, hrun, hend, -, hl, n, hres⟩ := stabBinsearch_run g addr
  rw [← brackets_iff hg hrun hend hl]
  constructor
  · rintro ⟨n', res', hres', h⟩
    have h1 := hres (max n n' + 1) (by omega)
    rw [hres' (max n n' + 1) (by omega)] at h1
    exact Option.some.inj h1 ▸ h
  · exact fun h => ⟨n, res, hres, h⟩

theorem Region.Clear.searchable {g : Region} {addr : BitVec 32} (h : g.Clear addr) :
    g.Searchable addr := by
  refine h.imp_right fun ⟨hcov, h⟩ => ⟨hcov, h.imp_right fun ⟨htop, hno⟩ => ⟨htop, .inl hno⟩⟩

theorem Region.Searchable.clear {g : Region} {addr : BitVec 32} (h : g.Searchable addr) :
    g.Clear addr ∨ g.Adjoins addr := by
  rcases h with hnone | ⟨hcov, hno | ⟨htop, hno | hmeets⟩⟩
  · exact .inl (.inl hnone)
  · exact .inl (.inr ⟨hcov, .inl hno⟩)
  · exact .inl (.inr ⟨hcov, .inr ⟨htop, hno⟩⟩)
  · obtain ⟨e₁, e, f, h₁, -, hf, -⟩ := hmeets
    exact .inr ⟨htop, ⟨e₁, h₁.entry⟩, f, hf.entry⟩

/-- **WHERE A BRACKET IS FOUND**: for every range whose entries of the type have
    non-decreasing values, and every address, `stab_binsearch` ends as its comment
    says if the range is clear at the address; and it does so nowhere else, but
    for ranges in which both the address and the one after it occur. -/
theorem stab_binsearch_clear {g : Region} (hg : g.Sorted) (addr : BitVec 32) :
    (g.Clear addr →
      ∃ n res, (∀ fuel, n < fuel →
          stabBinsearch fuel g.stabs g.left g.right g.type addr = some res) ∧
        g.Brackets addr res) ∧
    ((∃ n res, (∀ fuel, n < fuel →
          stabBinsearch fuel g.stabs g.left g.right g.type addr = some res) ∧
        g.Brackets addr res) → g.Clear addr ∨ g.Adjoins addr) :=
  ⟨fun h => (stab_binsearch_searchable hg addr).mpr h.searchable,
    fun h => ((stab_binsearch_searchable hg addr).mp h).clear⟩

/-! ## A source file that starts late -/

/-- `N_FUN` before the first `N_SO`. -/
def fileTable : Table
  | 0 => some ⟨0x24, 0xf0100010⟩
  | 1 => some ⟨0x64, 0xf0100000⟩
  | _ => none

/-- The search for the source file in the whole table. -/
def fileRegion : Region where
  stabs := fileTable
  type := 0x64
  left := 0
  right := 1
  nonneg := by decide
  le := by decide
  readable i h1 h2 := by
    obtain rfl | rfl : i = 0 ∨ i = 1 := by omega
    · exact ⟨_, rfl⟩
    · exact ⟨_, rfl⟩

/-- Its only entry is the second of the table. -/
theorem fileRegion_entry {i : Int} {v : BitVec 32} :
    fileRegion.Entry i v ↔ i = 1 ∧ v = 0xf0100000 := by
  constructor
  · rintro ⟨h1, h2, st, hst, ht, rfl⟩
    have h3 : 0 ≤ i := h1
    have h4 : i ≤ 1 := h2
    obtain rfl | rfl : i = 0 ∨ i = 1 := by omega
    · cases hst
      exact absurd ht (by decide)
    · cases hst
      exact ⟨rfl, rfl⟩
  · rintro ⟨rfl, rfl⟩
    exact ⟨by decide, by decide, _, rfl, by decide, rfl⟩

theorem fileRegion_sorted : fileRegion.Sorted := by
  intro i j v w hi hj hij
  obtain ⟨rfl, -⟩ := fileRegion_entry.mp hi
  obtain ⟨rfl, -⟩ := fileRegion_entry.mp hj
  exact absurd hij (Int.lt_irrefl _)

/-- Behind the start of the file. -/
theorem stab_binsearch_clear_file :
    ∃ n res, (∀ fuel, n < fuel →
        stabBinsearch fuel fileTable 0 1 0x64 0xf0100005 = some res) ∧
      fileRegion.Brackets 0xf0100005 res := by
  refine (stab_binsearch_clear fileRegion_sorted 0xf0100005).1 (.inr ⟨?_, .inl fun i hi => ?_⟩)
  · exact ⟨1, _, fileRegion_entry.mpr ⟨rfl, rfl⟩, by decide⟩
  · exact absurd (fileRegion_entry.mp hi).2 (by decide)

/-- An address below the file's first one comes out as covered. -/
theorem not_stab_binsearch :
    ¬ ∀ (g : Region), g.Sorted → ∀ addr : BitVec 32,
      ∃ n res, (∀ fuel, n < fuel →
          stabBinsearch fuel g.stabs g.left g.right g.type addr = some res) ∧
        g.Brackets addr res := by
  intro hall
  obtain ⟨n', res', hres', h⟩ := hall fileRegion fileRegion_sorted 0xefffffff
  obtain ⟨t, res, hrun, hend, -, hl, n, hres⟩ := stabBinsearch_run fileRegion 0xefffffff
  have hsame := hres (max n n' + 1) (by omega)
  rw [hres' (max n n' + 1) (by omega)] at hsame
  obtain rfl := Option.some.inj hsame
  rcases (brackets_iff fileRegion_sorted hrun hend hl).mp h with h | ⟨⟨i, v, hi, hv⟩, -⟩
  · exact h 1 _ (fileRegion_entry.mpr ⟨rfl, rfl⟩)
  · obtain ⟨-, rfl⟩ := fileRegion_entry.mp hi
    exact absurd hv (by decide)

end SharixStab
