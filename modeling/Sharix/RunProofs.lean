import Mathlib.Logic.Relation

/-! # Runs of a step relation, loops with fuel

    A run is the reflexive and transitive closure of the steps.  What one step
    keeps, a run keeps.  A machine that answers calls is refined by one that
    answers each call alike.  A loop with fuel that ends also ends, with the
    same result, with more fuel.  Where a condition decides whether a loop ends,
    the conditions of two loops in a row decide whether both do. -/

namespace SharixRun

variable {S : Type}

/-- **THE INVARIANT RULE**: a property kept by every step holds in every
    state a run reaches. -/
theorem run_invariant {Step : S → S → Prop} {I : S → Prop}
    (hstep : ∀ s t, I s → Step s t → I t) {s t : S}
    (hrun : Relation.ReflTransGen Step s t) (hs : I s) : I t := by
  induction hrun with
  | refl => exact hs
  | tail _ hlast ih => exact hstep _ _ ih hlast

section Machine

variable {T Call Answer : Type}

/-- The answers to a row of calls, and the state it ends in. -/
def answers (step : S → Call → Answer × S) (s : S) : List Call → List Answer × S
  | [] => ([], s)
  | call :: calls =>
      ((step s call).1 :: (answers step (step s call).2 calls).1,
        (answers step (step s call).2 calls).2)

/-- **THE REFINEMENT RULE**: two machines that answer a call alike and stay
    related answer every row of calls alike. -/
theorem answers_refine {step : S → Call → Answer × S} {step' : T → Call → Answer × T}
    {R : S → T → Prop}
    (hstep : ∀ s t call, R s t →
      (step s call).1 = (step' t call).1 ∧ R (step s call).2 (step' t call).2)
    (calls : List Call) : ∀ {s : S} {t : T}, R s t →
      (answers step s calls).1 = (answers step' t calls).1 ∧
        R (answers step s calls).2 (answers step' t calls).2 := by
  induction calls with
  | nil => exact fun h => ⟨rfl, h⟩
  | cons call calls ih =>
      intro s t h
      obtain ⟨hanswer, hnext⟩ := hstep s t call h
      obtain ⟨hrest, hend⟩ := ih hnext
      refine ⟨?_, hend⟩
      show (step s call).1 :: _ = (step' t call).1 :: _
      rw [hanswer, hrest]

end Machine

section Fuel

variable {R : Type} {f : Nat → S → Option R}

/-- One round of the loop `f`, given the fuel left after it: it ends, with a
    result or in a fault, or goes on from another state. -/
def Round (f : Nat → S → Option R) (g : Nat → Option R) : Prop :=
  (∃ s, ∀ n, g n = f n s) ∨ ∃ r, ∀ n, g n = r

theorem Round.next (s : S) : Round f fun n => f n s := .inl ⟨s, fun _ => rfl⟩

theorem Round.done (r : Option R) : Round f fun _ => r := .inr ⟨r, fun _ => rfl⟩

theorem Round.ite {c : Prop} [Decidable c] {g g' : Nat → Option R}
    (h : Round f g) (h' : Round f g') :
    Round f fun n => if c then g n else g' n := by
  by_cases hc : c
  · simpa only [if_pos hc] using h
  · simpa only [if_neg hc] using h'

theorem Round.bind {A : Type} (o : Option A) {g : A → Nat → Option R}
    (h : ∀ a, Round f (g a)) : Round f fun n => o.bind fun a => g a n := by
  cases o with
  | none => exact .done none
  | some a => exact h a

/-- **MORE FUEL**: if every round ends the loop or goes on with one unit
    less, the result is the same with more. -/
theorem fuel_mono (hzero : ∀ s, f 0 s = none)
    (hround : ∀ s, Round f fun n => f (n + 1) s)
    {k n : Nat} {s : S} {r : R} (hle : k ≤ n) (hk : f k s = some r) :
    f n s = some r := by
  induction k generalizing n s with
  | zero =>
      rw [hzero] at hk
      cases hk
  | succ k ih =>
      obtain ⟨m, rfl⟩ : ∃ m, n = m + 1 := ⟨n - 1, by omega⟩
      rcases hround s with ⟨s', hs⟩ | ⟨r', hs⟩
      · exact (hs m).trans (ih (Nat.le_of_succ_le_succ hle) ((hs k).symm.trans hk))
      · exact (hs m).trans ((hs k).symm.trans hk)

end Fuel

/-- Two runs of a call that end, end alike. -/
theorem fuel_agree {R : Type} {f : Nat → Option R} {k n : Nat} {r r' : R}
    (hmono : ∀ {i j r}, i ≤ j → f i = some r → f j = some r)
    (hk : f k = some r) (hn : ∀ m, n < m → f m = some r') : r = r' := by
  have hbig := hn (max k (n + 1)) (by omega)
  rw [hmono (Nat.le_max_left _ _) hk] at hbig
  exact Option.some.inj hbig

/-! ## Loops that end, loops that do not -/

section Halt

variable {R T : Type} {f g : Nat → S → Option R} {P Q : Prop}

/-- With enough fuel `f` ends, always with the same result. -/
def Ends (f : Nat → S → Option R) (s : S) : Prop :=
  ∃ n r, ∀ fuel, n ≤ fuel → f fuel s = some r

/-- No fuel is enough. -/
def Hangs (f : Nat → S → Option R) (s : S) : Prop := ∀ fuel, f fuel s = none

theorem Hangs.not_ends {s : S} (h : Hangs f s) : ¬ Ends f s := by
  rintro ⟨n, r, hn⟩
  exact nomatch (h n).symm.trans (hn n (Nat.le_refl n))

/-- One round, and it is over. -/
theorem Ends.done {s : S} {r : R} (hround : ∀ fuel, f (fuel + 1) s = some r) : Ends f s := by
  refine ⟨1, r, fun fuel hfuel => ?_⟩
  obtain ⟨m, rfl⟩ := Nat.exists_eq_add_of_le' hfuel
  exact hround m

/-- One round, after which `g` goes on. -/
theorem Ends.of_round {g : Nat → T → Option R} {s : S} {t : T}
    (hround : ∀ fuel, f (fuel + 1) s = g fuel t) (h : Ends g t) : Ends f s := by
  obtain ⟨n, r, hn⟩ := h
  refine ⟨n + 1, r, fun fuel hfuel => ?_⟩
  obtain ⟨m, rfl⟩ := Nat.exists_eq_add_of_le' hfuel
  exact (hround (m + n)).trans (hn _ (Nat.le_add_left n m))

theorem Hangs.of_round {g : Nat → T → Option R} {s : S} {t : T} (hzero : f 0 s = none)
    (hround : ∀ fuel, f (fuel + 1) s = g fuel t) (h : Hangs g t) : Hangs f s := by
  intro fuel
  cases fuel with
  | zero => exact hzero
  | succ fuel => exact (hround fuel).trans (h fuel)

/-- **THE RULE OF A LOOP WITHOUT END**: every round that ends at all leads from a
    state of the invariant to another. -/
theorem hangs_of_invariant {I : S → Prop} (hzero : ∀ s, f 0 s = none)
    (hround : ∀ s fuel, I s → f (fuel + 1) s = none ∨ ∃ t, I t ∧ f (fuel + 1) s = f fuel t)
    {s : S} (hs : I s) : Hangs f s := by
  intro fuel
  induction fuel generalizing s with
  | zero => exact hzero s
  | succ fuel ih =>
      rcases hround s fuel hs with h | ⟨t, ht, h⟩
      · exact h
      · exact h.trans (ih ht)

theorem Ends.seq {f : Nat → S → Option T} {g : Nat → T → Option R} {s : S} (hf : Ends f s)
    (hg : ∀ t, Ends g t) : Ends (fun fuel s => (f fuel s).bind (g fuel)) s := by
  obtain ⟨n, t, hn⟩ := hf
  obtain ⟨m, r, hm⟩ := hg t
  refine ⟨max n m, r, fun fuel hfuel => ?_⟩
  show (f fuel s).bind (g fuel) = some r
  rw [hn fuel (Nat.le_trans (Nat.le_max_left n m) hfuel)]
  exact hm fuel (Nat.le_trans (Nat.le_max_right n m) hfuel)

theorem Hangs.seq_left {f : Nat → S → Option T} {s : S} (hf : Hangs f s)
    (g : Nat → T → Option R) : Hangs (fun fuel s => (f fuel s).bind (g fuel)) s := by
  intro fuel
  show (f fuel s).bind (g fuel) = none
  rw [hf fuel]
  rfl

theorem Hangs.seq_right {g : Nat → T → Option R} (hg : ∀ t, Hangs g t)
    (f : Nat → S → Option T) (s : S) : Hangs (fun fuel s => (f fuel s).bind (g fuel)) s := by
  intro fuel
  show (f fuel s).bind (g fuel) = none
  cases f fuel s with
  | none => rfl
  | some t => exact hg t fuel

/-- The condition `P` decides whether `f` ends: from every state if it holds,
    else from none. -/
def Decided (f : Nat → S → Option R) (P : Prop) : Prop :=
  (P → ∀ s, Ends f s) ∧ (¬ P → ∀ s, Hangs f s)

namespace Decided

theorem ends_iff [Nonempty S] (h : Decided f P) : (∀ s, Ends f s) ↔ P := by
  refine ⟨fun hends => Classical.byContradiction fun hnot => ?_, h.1⟩
  obtain ⟨s⟩ := ‹Nonempty S›
  exact (h.2 hnot s).not_ends (hends s)

theorem congr (h : Decided f P) (hPQ : P ↔ Q) : Decided f Q :=
  ⟨fun hq => h.1 (hPQ.mpr hq), fun hq => h.2 fun hp => hq (hPQ.mp hp)⟩

/-- One round, whatever the state. -/
theorem of_round (h : Decided g P) (hzero : ∀ s, f 0 s = none)
    (hround : ∀ fuel s, f (fuel + 1) s = g fuel s) : Decided f P :=
  ⟨fun hp s => (h.1 hp s).of_round fun fuel => hround fuel s,
    fun hp s => (h.2 hp s).of_round (hzero s) fun fuel => hround fuel s⟩

/-- **ONE AFTER THE OTHER**: two loops in a row end if each of them does. -/
theorem seq {f : Nat → S → Option T} {g : Nat → T → Option R} (hf : Decided f P)
    (hg : P → Decided g Q) : Decided (fun fuel s => (f fuel s).bind (g fuel)) (P ∧ Q) := by
  refine ⟨fun h s => (hf.1 h.1 s).seq ((hg h.1).1 h.2), fun h s => ?_⟩
  rcases Classical.em P with hp | hp
  · exact Hangs.seq_right ((hg hp).2 fun hq => h ⟨hp, hq⟩) f s
  · exact (hf.2 hp s).seq_left g

end Decided

end Halt

end SharixRun
