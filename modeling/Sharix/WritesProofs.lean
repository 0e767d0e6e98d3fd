import Mathlib.Data.List.Basic
import Mathlib.Logic.Function.Basic
import Mathlib.Logic.Nontrivial.Basic

/-! # Rows of writes — what they leave in a memory

    A loop whose addresses and values do not depend on the memory it writes to
    is a row of writes (`Runs`, `Runs.loop`).  An address that is written
    forgets what it held (`write_forgets`), one that is not keeps it
    (`write_frame`).

    `Leaves f T`: from every memory the program `f` ends and has left what `T`
    wants where it wants something, and all else alone.  One write too many or
    one too few, and it has not. -/

namespace SharixWrites

variable {A B : Type} [DecidableEq A]

/-- The memory after the writes, one after the other. -/
def write (m : A → B) (ws : List (A × B)) : A → B :=
  ws.foldl (fun m w => Function.update m w.1 w.2) m

@[simp] theorem write_nil (m : A → B) : write m [] = m := rfl

theorem write_cons (m : A → B) (w : A × B) (ws : List (A × B)) :
    write m (w :: ws) = write (Function.update m w.1 w.2) ws := rfl

theorem write_append (m : A → B) (ws ws' : List (A × B)) :
    write m (ws ++ ws') = write (write m ws) ws' := List.foldl_append

/-- An address that is not written. -/
theorem write_frame {ws : List (A × B)} {a : A} (h : ∀ w ∈ ws, w.1 ≠ a) (m : A → B) :
    write m ws a = m a := by
  induction ws generalizing m with
  | nil => rfl
  | cons w ws ih =>
      obtain ⟨hw, hws⟩ := List.forall_mem_cons.mp h
      rw [write_cons, ih hws, Function.update_of_ne (Ne.symm hw)]

/-- An address that is written does not depend on the memory before. -/
theorem write_forgets {ws : List (A × B)} {a : A} (h : ∃ w ∈ ws, w.1 = a) (m m' : A → B) :
    write m ws a = write m' ws a := by
  induction ws generalizing m m' with
  | nil =>
      obtain ⟨w, hw, -⟩ := h
      exact nomatch hw
  | cons w ws ih =>
      rw [write_cons, write_cons]
      by_cases hws : ∃ w ∈ ws, w.1 = a
      · exact ih hws _ _
      · have hnot : ∀ w ∈ ws, w.1 ≠ a := fun w hw hwa => hws ⟨w, hw, hwa⟩
        obtain ⟨u, hu, rfl⟩ := h
        obtain rfl : u = w :=
          (List.mem_cons.mp hu).resolve_right fun hmem => hnot u hmem rfl
        rw [write_frame hnot, write_frame hnot, Function.update_self, Function.update_self]

/-- An address that is written with one value only. -/
theorem write_get {ws : List (A × B)} {a : A} {v : B} (h : ∃ w ∈ ws, w.1 = a)
    (hv : ∀ w ∈ ws, w.1 = a → w.2 = v) (m : A → B) : write m ws a = v := by
  rw [write_forgets h m fun _ => v]
  clear h
  -- from a memory that holds the value everywhere, no write to `a` changes it
  have key : ∀ (ws : List (A × B)) (m : A → B), m a = v →
      (∀ w ∈ ws, w.1 = a → w.2 = v) → write m ws a = v := by
    intro ws
    induction ws with
    | nil => exact fun m hm _ => hm
    | cons w ws ih =>
        intro m hm hws
        obtain ⟨hw, hrest⟩ := List.forall_mem_cons.mp hws
        refine ih _ ?_ hrest
        show Function.update m w.1 w.2 a = v
        by_cases hwa : w.1 = a
        · rw [← hwa, Function.update_self]
          exact hw hwa
        · rw [Function.update_of_ne (Ne.symm hwa)]
          exact hm
  exact key ws _ rfl hv

/-! ## Exact rows -/

/-- Where `T` wants a value it is there, and elsewhere nothing has changed. -/
structure Exact (ws : List (A × B)) (T : A → B → Prop) (m : A → B) : Prop where
  inside : ∀ a v, T a v → write m ws a = v
  outside : ∀ a, (∀ v, ¬ T a v) → write m ws a = m a

/-- All writes are wanted, and all that is wanted is written. -/
theorem Exact.of_writes {ws : List (A × B)} {T : A → B → Prop}
    (hT : ∀ a v v', T a v → T a v' → v = v') (hin : ∀ w ∈ ws, T w.1 w.2)
    (hall : ∀ a v, T a v → ∃ w ∈ ws, w.1 = a) (m : A → B) : Exact ws T m := by
  constructor
  · intro a v hav
    exact write_get (hall a v hav) (fun w hw hwa => hT a _ _ (hwa ▸ hin w hw) hav) m
  · intro a hno
    exact write_frame (fun w hw hwa => hno w.2 (hwa ▸ hin w hw)) m

/-- Nothing is wanted and nothing is written. -/
theorem Exact.of_none {ws : List (A × B)} {T : A → B → Prop} (hws : ∀ w, w ∉ ws)
    (hT : ∀ a v, ¬ T a v) (m : A → B) : Exact ws T m :=
  .of_writes (fun a v _ hav => absurd hav (hT a v)) (fun w hw => absurd hw (hws w))
    (fun a v hav => absurd hav (hT a v)) m

/-- A write that nothing wants. -/
theorem not_exact_of_stray [Nontrivial B] {ws : List (A × B)} {T : A → B → Prop} {w : A × B}
    (hw : w ∈ ws) (hno : ∀ v, ¬ T w.1 v) : ¬ ∀ m, Exact ws T m := by
  intro hexact
  obtain ⟨b⟩ := (inferInstance : Nonempty B)
  obtain ⟨v, hv⟩ := exists_ne (write (fun _ => b) ws w.1)
  refine hv ?_
  rw [write_forgets ⟨w, hw, rfl⟩ _ fun _ => v]
  exact ((hexact fun _ => v).outside w.1 hno).symm

/-- A value that is wanted and not written. -/
theorem not_exact_of_missing [Nontrivial B] {ws : List (A × B)} {T : A → B → Prop} {a : A} {v : B}
    (hav : T a v) (hno : ∀ w ∈ ws, w.1 ≠ a) : ¬ ∀ m, Exact ws T m := by
  intro hexact
  obtain ⟨u, hu⟩ := exists_ne v
  have h1 := (hexact fun _ => u).inside a v hav
  rw [write_frame hno] at h1
  exact hu h1

/-- Each value is wanted at an address of its own, and one is written there. -/
theorem exact_iff_agree {I : Type} (P : I → Prop) (addr : I → A) (val : I → B) {val' : I → B}
    {ws : List (A × B)} {T : A → B → Prop}
    (hws : ∀ w, w ∈ ws ↔ ∃ i, P i ∧ w = (addr i, val i))
    (hT : ∀ a v, T a v ↔ ∃ i, P i ∧ a = addr i ∧ v = val' i)
    (hinj : ∀ i j, P i → P j → addr i = addr j → i = j) :
    (∀ m, Exact ws T m) ↔ ∀ i, P i → val i = val' i := by
  constructor
  · intro hexact i hi
    have hwant := (hexact fun _ => val i).inside _ _ ((hT _ _).mpr ⟨i, hi, rfl, rfl⟩)
    rw [← hwant]
    refine (write_get ⟨(addr i, val i), (hws _).mpr ⟨i, hi, rfl⟩, rfl⟩ ?_ _).symm
    intro w hw hwi
    obtain ⟨j, hj, rfl⟩ := (hws w).mp hw
    rw [hinj j i hj hi hwi]
  · intro hagree m
    refine .of_writes ?_ ?_ ?_ m
    · intro a v v' hv hv'
      obtain ⟨i, hi, rfl, rfl⟩ := (hT _ _).mp hv
      obtain ⟨j, hj, haddr, rfl⟩ := (hT _ _).mp hv'
      rw [hinj i j hi hj haddr]
    · intro w hw
      obtain ⟨i, hi, rfl⟩ := (hws w).mp hw
      exact (hT _ _).mpr ⟨i, hi, rfl, hagree i hi⟩
    · intro a v hav
      obtain ⟨i, hi, rfl, -⟩ := (hT _ _).mp hav
      exact ⟨_, (hws _).mpr ⟨i, hi, rfl⟩, rfl⟩

/-! ## Programs that are rows of writes -/

variable {f : Nat → (A → B) → Option (A → B)} {ws : List (A × B)}

/-- With enough fuel the program makes these writes and returns. -/
def Runs (f : Nat → (A → B) → Option (A → B)) (ws : List (A × B)) : Prop :=
  ∃ n, ∀ fuel, n ≤ fuel → ∀ m, f fuel m = some (write m ws)

/-- A program that returns at once. -/
theorem Runs.stop (h : ∀ fuel m, f (fuel + 1) m = some m) : Runs f [] := by
  refine ⟨1, fun fuel hf m => ?_⟩
  obtain ⟨fuel, rfl⟩ := Nat.exists_eq_add_of_le' hf
  exact h fuel m

/-- The body of a loop, and then the rest of it. -/
theorem Runs.step {g f' : Nat → (A → B) → Option (A → B)} {ws' : List (A × B)}
    (h : ∀ fuel m, f (fuel + 1) m = (g fuel m).bind (f' fuel)) (hg : Runs g ws)
    (hf' : Runs f' ws') : Runs f (ws ++ ws') := by
  obtain ⟨n, hn⟩ := hg
  obtain ⟨n', hn'⟩ := hf'
  refine ⟨n + n' + 1, fun fuel hf m => ?_⟩
  obtain ⟨fuel, rfl⟩ := Nat.exists_eq_add_of_le' (Nat.le_trans (Nat.le_add_left 1 _) hf)
  rw [h, hn fuel (by omega), Option.bind_some, hn' fuel (by omega), write_append]

/-- A loop that runs its body `n` times; `f i` is the loop from round `i` on. -/
theorem Runs.loop {n : Nat} {f g : Nat → Nat → (A → B) → Option (A → B)}
    {ws : Nat → List (A × B)}
    (hstep : ∀ i, i < n → ∀ fuel m, f i (fuel + 1) m = (g i fuel m).bind (f (i + 1) fuel))
    (hstop : ∀ fuel m, f n (fuel + 1) m = some m) (hbody : ∀ i, i < n → Runs (g i) (ws i)) :
    Runs (f 0) ((List.range n).flatMap ws) := by
  induction n generalizing f g ws with
  | zero => exact .stop hstop
  | succ n ih =>
      rw [List.range_succ_eq_map, List.flatMap_cons, List.flatMap_map]
      refine .step (hstep 0 (Nat.succ_pos n)) (hbody 0 (Nat.succ_pos n)) ?_
      exact @ih (fun i => f (i + 1)) (fun i => g (i + 1)) (fun i => ws (i + 1))
        (fun i hi => hstep (i + 1) (Nat.succ_lt_succ hi)) hstop
        fun i hi => hbody (i + 1) (Nat.succ_lt_succ hi)

/-- From every memory the program returns, and has left what `T` wants where it
    wants something, and all else alone. -/
def Leaves (f : Nat → (A → B) → Option (A → B)) (T : A → B → Prop) : Prop :=
  ∀ m, ∃ n m', (∀ fuel, n ≤ fuel → f fuel m = some m') ∧
    (∀ a v, T a v → m' a = v) ∧ ∀ a, (∀ v, ¬ T a v) → m' a = m a

theorem Runs.leaves_iff {T : A → B → Prop} (h : Runs f ws) :
    Leaves f T ↔ ∀ m, Exact ws T m := by
  obtain ⟨n, hn⟩ := h
  constructor
  · intro hleaves m
    obtain ⟨n', m', hrun, hin, hout⟩ := hleaves m
    have hm' : write m ws = m' := by
      have h1 := hn (n + n') (Nat.le_add_right ..) m
      rw [hrun (n + n') (Nat.le_add_left ..)] at h1
      exact (Option.some.inj h1).symm
    subst hm'
    exact ⟨hin, hout⟩
  · intro hexact m
    exact ⟨n, write m ws, fun fuel hf => hn fuel hf m, (hexact m).inside, (hexact m).outside⟩

end SharixWrites
