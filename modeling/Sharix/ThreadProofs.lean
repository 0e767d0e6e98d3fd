import Sharix.RunProofs
import Sharix.ListProofs

/-! # Where a thread's registers are saved — `thread.c`, `sched.c`

    `schedule` picks a thread of `current->thread_list` and `thread_run`
    switches to it.  `switch_to(from, to)` stores the live registers in
    `*from` and loads `*to`; `thread_run` always passes the context of
    `current->main` as `from`, whoever is running.

    A world adds two ghosts to the state: the thread whose code runs, and the
    registers each thread had when it was last switched out.  A switch keeps
    every thread's registers exactly if the main thread makes it, up to slots
    that already hold the very registers saved.  After a run of such switches
    a dispatched thread resumes with the registers it left with; one switch
    made by a worker overwrites the main thread's. -/

namespace SharixThread

open SharixList SharixRun

/-! ## `thread_t`, `current` and `switch_to` -/

/-- `reg_context_t`. -/
structure RegContext where
  eip : Nat
  esp : Nat
  ebx : Nat
  ecx : Nat
  edx : Nat
  esi : Nat
  edi : Nat
  ebp : Nat
deriving DecidableEq, Repr

/-- The addresses of list entries: `NULL`, `&current->thread_list`, and
    `&t->thread_link`. -/
inductive Addr where
  | null
  | threadList
  | threadLink (t : Nat)
deriving DecidableEq, Repr

instance : Nullable Addr := ⟨.null⟩

/-- The fields of the threads and of `current`, and the live registers. -/
structure State where
  link : LinkMem Addr
  context : Nat → RegContext
  tid : Nat → Int
  main : Nat
  needResched : Int
  currentthread : Option Nat
  regs : RegContext

/-- `to_struct(run, thread_t, thread_link)`. -/
def toThread : Addr → Option Nat
  | .threadLink t => some t
  | _ => none

/-- Save the live registers into `*from`, then load `*to`. -/
def switchTo (source target : Nat) (s : State) : State :=
  let context := Function.update s.context source s.regs
  { s with context := context, regs := context target }

def threadRun (thread : Nat) (s : State) : State :=
  switchTo s.main thread s

/-! ## `schedule`, `thread_exit` -/

/-- `while ((le = list_next(le)) != &current->thread_list)`: the first thread,
    unless `rand() % 2 == 1` at a later one.  `rand k` is the outcome of the
    `k`-th call. -/
def pickFrom (m : LinkMem Addr) (rand : Nat → Nat) :
    Nat → Nat → Addr → Option Addr → Option (Option Addr)
  | 0, _, _, _ => none
  | fuel + 1, k, le, run => do
      let le ← listNext m le
      if le = .threadList then
        return run
      else
        match run with
        | none => pickFrom m rand fuel k le (some le)
        | some _ =>
            if rand k % 2 = 1 then pickFrom m rand fuel (k + 1) le (some le)
            else pickFrom m rand fuel (k + 1) le run

/-- The state after `schedule`, and the thread that `thread_run` was called
    on. -/
def schedule (fuel : Nat) (rand : Nat → Nat) (s : State) :
    Option (State × Option Nat) := do
  let run ← pickFrom s.link rand fuel 0 .threadList none
  match run with
  | some run => do
      let t ← toThread run
      let needResched := if s.tid t = 0 then 0 else s.needResched
      let s := { s with needResched := needResched, currentthread := some t }
      return (threadRun t s, some t)
  | none => return ({ s with needResched := 0 }, none)

def threadExit (fuel : Nat) (rand : Nat → Nat) (s : State) :
    Option (State × Option Nat) := do
  let currentthread ← s.currentthread
  if s.tid currentthread ≠ 0 then do
    let link ← listDel s.link (.threadLink currentthread)
    schedule fuel rand { s with link := link }
  else
    schedule fuel rand s

/-- The walk over a well-formed list ends, at one of its threads. -/
theorem pickFrom_chain {m : LinkMem Addr} (rand : Nat → Nat) {rest : List Addr} :
    ∀ {fuel k : Nat} {le : Addr} (run : Option Addr),
      List.IsChain (Link m) (le :: rest ++ [.threadList]) → le ≠ NULL →
      NULL ∉ rest → .threadList ∉ rest → rest.length < fuel →
      ∃ r, pickFrom m rand fuel k le run = some r ∧
        (r = none ↔ run = none ∧ rest = []) ∧
        ∀ a, r = some a → run = some a ∨ a ∈ rest := by
  induction rest with
  | nil =>
      intro fuel k le run hchain hle _ _ hfuel
      obtain ⟨fuel, rfl⟩ := Nat.exists_eq_succ_of_ne_zero (Nat.ne_of_gt hfuel)
      have hnext : listNext m le = some .threadList := by
        rw [listNext, if_neg hle, (List.isChain_cons_cons.mp hchain).1.1]
      refine ⟨run, ?_, by simp, fun a ha => Or.inl ha⟩
      rw [pickFrom, hnext]
      rfl
  | cons x rest ih =>
      intro fuel k le run hchain hle hnull hhead hfuel
      obtain ⟨fuel, rfl⟩ := Nat.exists_eq_succ_of_ne_zero (Nat.ne_of_gt
        (Nat.lt_of_le_of_lt (Nat.zero_le _) hfuel))
      obtain ⟨hlink, hrest⟩ := List.isChain_cons_cons.mp hchain
      rw [List.mem_cons, not_or] at hnull hhead
      obtain ⟨hx, hnull⟩ := hnull
      obtain ⟨hxh, hhead⟩ := hhead
      have hnext : listNext m le = some x := by
        rw [listNext, if_neg hle, hlink.1]
      have hfuel : rest.length < fuel := Nat.lt_of_succ_lt_succ hfuel
      -- whichever thread is kept, the walk goes on from `x` with some thread
      have hstep : ∀ (k : Nat) (b : Addr), run = some b ∨ b = x →
          ∃ r, pickFrom m rand fuel k x (some b) = some r ∧
            (r = none ↔ run = none ∧ x :: rest = []) ∧
            ∀ a, r = some a → run = some a ∨ a ∈ x :: rest := by
        intro k b hb
        obtain ⟨r, h1, h2, h3⟩ :=
          ih (some b) hrest (Ne.symm hx) hnull hhead hfuel (k := k)
        refine ⟨r, h1, by simpa using h2, ?_⟩
        intro a ha
        rcases h3 a ha with h | h
        · rcases hb with hb | hb
          · exact Or.inl (hb.trans h)
          · exact Or.inr (List.mem_cons.mpr (Or.inl ((Option.some.inj h).symm.trans hb)))
        · exact Or.inr (List.mem_cons_of_mem _ h)
      rw [pickFrom, hnext]
      simp only [Option.bind_eq_bind, Option.bind_some, if_neg (Ne.symm hxh)]
      cases run with
      | none => exact hstep k x (Or.inr rfl)
      | some b =>
          dsimp only
          split
          · exact hstep (k + 1) x (Or.inr rfl)
          · exact hstep (k + 1) b (Or.inl rfl)

/-- From a well-formed list `schedule` returns, and dispatches a thread of the
    list unless it is empty. -/
theorem schedule_returns {s : State} {xs : List Nat}
    (hr : Ring s.link .threadList (xs.map Addr.threadLink)) (rand : Nat → Nat)
    {fuel : Nat} (hfuel : xs.length < fuel) :
    ∃ s' d, schedule fuel rand s = some (s', d) ∧ (d = none ↔ xs = []) ∧
      ∀ t, d = some t → t ∈ xs := by
  have hnull := hr.nonNull
  rw [List.mem_cons, not_or] at hnull
  have hlen : (xs.map Addr.threadLink).length < fuel := by
    rwa [List.length_map]
  obtain ⟨r, hpick, hnone, hmem⟩ := pickFrom_chain rand (k := 0) none
    hr.linked (Ne.symm hnull.1) hnull.2 (List.nodup_cons.mp hr.nodup).1 hlen
  cases r with
  | none =>
      refine ⟨{ s with needResched := 0 }, none, ?_, ?_, by simp⟩
      · rw [schedule, hpick]
        rfl
      · simpa using hnone
  | some a =>
      rcases hmem a rfl with h | h
      · cases h
      · obtain ⟨t, ht, rfl⟩ := List.mem_map.mp h
        have hrun : schedule fuel rand s = some (threadRun t { s with
            needResched := if s.tid t = 0 then 0 else s.needResched
            currentthread := some t }, some t) := by
          rw [schedule, hpick]
          rfl
        refine ⟨_, some t, hrun, ?_, ?_⟩
        · exact iff_of_false (by simp) (List.ne_nil_of_mem ht)
        · intro u hu
          cases hu
          exact ht

/-- `thread_exit` of a thread on the list returns as well. -/
theorem threadExit_returns {s : State} {xs : List Nat} {t : Nat}
    (hr : Ring s.link .threadList (xs.map Addr.threadLink))
    (ht : s.currentthread = some t) (hmem : t ∈ xs) (rand : Nat → Nat)
    {fuel : Nat} (hfuel : xs.length < fuel) :
    ∃ s' d, threadExit fuel rand s = some (s', d) := by
  rw [threadExit, ht]
  simp only [Option.bind_eq_bind, Option.bind_some]
  split
  · obtain ⟨l, r, rfl⟩ := List.append_of_mem hmem
    rw [List.map_append, List.map_cons] at hr
    obtain ⟨m, hdel, hring, -⟩ := listDel_ring hr
    rw [← List.map_append] at hring
    have hlen : (l ++ r).length < fuel := by
      rw [List.length_append] at hfuel ⊢
      exact Nat.lt_of_le_of_lt (by simp) hfuel
    obtain ⟨s', d, hs, -⟩ := schedule_returns (s := { s with link := m })
      hring rand hlen
    refine ⟨s', d, ?_⟩
    rw [hdel, ← ht]
    exact hs
  · obtain ⟨s', d, hs, -⟩ := schedule_returns hr rand hfuel
    exact ⟨s', d, hs⟩

/-! ## Runs -/

/-- The state with the running thread and the registers each thread was last
    switched out with. -/
structure World where
  s : State
  running : Nat
  out : Nat → Option RegContext

/-- The world after a call that leaves `s'` and dispatches `d`. -/
def World.after (w : World) (s' : State) : Option Nat → World
  | none => ⟨s', w.running, w.out⟩
  | some t => ⟨s', t, Function.update w.out w.running (some w.s.regs)⟩

/-- What the running thread can do: compute, call `schedule`, or leave the
    list through `thread_exit`. -/
inductive Step : World → Option Nat → World → Prop where
  | compute {w : World} (regs : RegContext) :
      Step w none ⟨{ w.s with regs := regs }, w.running, w.out⟩
  | schedule {w : World} {fuel : Nat} {rand : Nat → Nat} {s' : State}
      {d : Option Nat} :
      SharixThread.schedule fuel rand w.s = some (s', d) →
      Step w d (w.after s' d)
  | threadExit {w : World} {fuel : Nat} {rand : Nat → Nat} {s' : State}
      {d : Option Nat} :
      w.s.currentthread = some w.running →
      SharixThread.threadExit fuel rand w.s = some (s', d) →
      Step w d (w.after s' d)

/-- A switch stores the running thread's registers in its own context, keeps
    the other contexts, and resumes with the registers the dispatched thread
    was last switched out with. -/
structure SwitchOk (w w' : World) (t : Nat) : Prop where
  saved : w'.s.context w.running = w.s.regs
  kept : ∀ u, u ≠ w.running → w'.s.context u = w.s.context u
  resumed : ∀ r, w'.out t = some r → w'.s.regs = r

/-- The main thread runs, or the two slots in question already hold the live
    registers. -/
def SavesRight (w : World) : Prop :=
  w.running = w.s.main ∨
    w.s.context w.running = w.s.regs ∧ w.s.context w.s.main = w.s.regs

/-- A step that, if it switches, saves in the right slot. -/
def SavingStep (w w' : World) : Prop :=
  ∃ d, Step w d w' ∧ (d ≠ none → SavesRight w)

/-- A thread that is switched out has its registers in its context. -/
def Suspended (w : World) : Prop :=
  ∀ u r, u ≠ w.running → w.out u = some r → w.s.context u = r

/-! ## What a call does to the contexts -/

/-- A dispatching call switches from the main thread's slot. -/
theorem schedule_some {fuel : Nat} {rand : Nat → Nat} {s s' : State} {t : Nat}
    (h : schedule fuel rand s = some (s', some t)) :
    s'.context = Function.update s.context s.main s.regs ∧
      s'.regs = Function.update s.context s.main s.regs t := by
  obtain ⟨run, -, h⟩ := Option.bind_eq_some_iff.mp h
  cases run with
  | none => cases (Prod.mk.inj (Option.some.inj h)).2
  | some le =>
      obtain ⟨t', -, h⟩ := Option.bind_eq_some_iff.mp h
      obtain ⟨rfl, ht⟩ := Prod.mk.inj (Option.some.inj h)
      obtain rfl : t' = t := Option.some.inj ht
      exact ⟨rfl, rfl⟩

/-- A call that finds no thread keeps the contexts. -/
theorem schedule_none {fuel : Nat} {rand : Nat → Nat} {s s' : State}
    (h : schedule fuel rand s = some (s', none)) : s'.context = s.context := by
  obtain ⟨run, -, h⟩ := Option.bind_eq_some_iff.mp h
  cases run with
  | none =>
      obtain ⟨rfl, -⟩ := Prod.mk.inj (Option.some.inj h)
      rfl
  | some le =>
      obtain ⟨t', -, h⟩ := Option.bind_eq_some_iff.mp h
      cases (Prod.mk.inj (Option.some.inj h)).2

/-- `thread_exit` is `schedule`, from a state that differs in its links
    only. -/
theorem threadExit_eq {fuel : Nat} {rand : Nat → Nat} {s : State}
    {r : State × Option Nat} (h : threadExit fuel rand s = some r) :
    ∃ m, schedule fuel rand { s with link := m } = some r := by
  obtain ⟨t, -, h⟩ := Option.bind_eq_some_iff.mp h
  split at h
  · obtain ⟨m, -, h⟩ := Option.bind_eq_some_iff.mp h
    exact ⟨m, h⟩
  · exact ⟨s.link, h⟩

/-- What a switching step does to the world. -/
theorem Step.switch {w w' : World} {t : Nat} (h : Step w (some t) w') :
    w'.s.context = Function.update w.s.context w.s.main w.s.regs ∧
      w'.s.regs = Function.update w.s.context w.s.main w.s.regs t ∧
      w'.running = t ∧
      w'.out = Function.update w.out w.running (some w.s.regs) := by
  cases h with
  | schedule hs =>
      obtain ⟨h1, h2⟩ := schedule_some hs
      exact ⟨h1, h2, rfl, rfl⟩
  | threadExit _ hs =>
      obtain ⟨m, hs⟩ := threadExit_eq hs
      obtain ⟨h1, h2⟩ := schedule_some hs
      exact ⟨h1, h2, rfl, rfl⟩

/-- A step without a switch keeps contexts, thread and ghost. -/
theorem Step.stay {w w' : World} (h : Step w none w') :
    w'.s.context = w.s.context ∧ w'.running = w.running ∧ w'.out = w.out := by
  cases h with
  | compute regs => exact ⟨rfl, rfl, rfl⟩
  | schedule hs => exact ⟨schedule_none hs, rfl, rfl⟩
  | threadExit _ hs =>
      obtain ⟨m, hs⟩ := threadExit_eq hs
      have h := schedule_none hs
      exact ⟨h, rfl, rfl⟩

/-- A save in the right slot is a save in the running thread's slot. -/
theorem SavesRight.context_eq {w : World} (h : SavesRight w) :
    Function.update w.s.context w.s.main w.s.regs
      = Function.update w.s.context w.running w.s.regs := by
  rcases h with h | ⟨h1, h2⟩
  · rw [h]
  · rw [Function.update_eq_self_iff.mpr h2.symm,
      Function.update_eq_self_iff.mpr h1.symm]

/-- One step of a saving run keeps every suspended thread's registers. -/
theorem savingStep_suspended {w w' : World} (hw : Suspended w)
    (h : SavingStep w w') : Suspended w' := by
  obtain ⟨d, hstep, hok⟩ := h
  cases d with
  | none =>
      obtain ⟨h1, h2, h3⟩ := hstep.stay
      intro u r hu hout
      rw [h1]
      exact hw u r (h2 ▸ hu) (h3 ▸ hout)
  | some t =>
      obtain ⟨h1, -, h3, h4⟩ := hstep.switch
      rw [(hok (by simp)).context_eq] at h1
      intro u r hu hout
      rw [h4] at hout
      rw [h1]
      by_cases huw : u = w.running
      · subst huw
        rw [Function.update_self] at hout ⊢
        exact Option.some.inj hout
      · rw [Function.update_of_ne huw] at hout ⊢
        exact hw u r huw hout

/-! ## The threads of `proc_init` -/

/-- Registers told apart by their `eip`. -/
def regsAt (eip : Nat) : RegContext := ⟨eip, 0, 0, 0, 0, 0, 0, 0⟩

/-- `pthr1`, with `tid` 1, stands before `main`, with `tid` 0. -/
def bootLink : LinkMem Addr
  | .threadList => ⟨.threadLink 0, .threadLink 1⟩
  | .threadLink 1 => ⟨.threadList, .threadLink 0⟩
  | .threadLink 0 => ⟨.threadLink 1, .threadList⟩
  | _ => ⟨.null, .null⟩

/-- Thread `t` starts at `eip = 100 + t`; the boot code stands for `main`. -/
def bootState : State where
  link := bootLink
  context := fun t => regsAt (100 + t)
  tid := fun t => t
  main := 0
  needResched := 1
  currentthread := none
  regs := regsAt 7

def bootWorld : World := ⟨bootState, 0, fun _ => none⟩

/-- `main` has dispatched `pthr1`. -/
def workerState : State :=
  threadRun 1 { bootState with currentthread := some 1 }

theorem boot_schedule :
    schedule 3 (fun _ => 0) bootState = some (workerState, some 1) := rfl

/-- `main` hands over to `pthr1`, which goes on to `eip = 9` and hands back:
    `main` resumes at `eip = 9`. -/
theorem not_switch_ok :
    ¬ ∀ w w' t, Relation.ReflTransGen (fun u v => ∃ d, Step u d v) bootWorld w →
      Step w (some t) w' → SwitchOk w w' t := by
  intro hall
  have h₂ : schedule 3 (fun _ => 1) { workerState with regs := regsAt 9 }
      = some (threadRun 0 { workerState with
          regs := regsAt 9, needResched := 0, currentthread := some 0 }, some 0) := rfl
  have hrun : Relation.ReflTransGen (fun u v => ∃ d, Step u d v) bootWorld
      ⟨{ workerState with regs := regsAt 9 }, 1,
        (bootWorld.after workerState (some 1)).out⟩ :=
    (Relation.ReflTransGen.single ⟨some 1, Step.schedule boot_schedule⟩).tail
      ⟨none, Step.compute (regsAt 9)⟩
  have hok := hall _ _ 0 hrun (Step.schedule h₂)
  exact absurd (hok.resumed (regsAt 7) rfl) (by decide)

/-- **A THREAD RESUMES AS IT LEFT EXACTLY WHEN MAIN SWITCHES**: in a run whose
    switches all save in the right slot, the next switch does what it should
    if and only if it saves in the right slot as well. -/
theorem switch_ok_iff {w₀ w w' : World} {t : Nat}
    (hnew : ∀ u, w₀.out u = none)
    (hrun : Relation.ReflTransGen SavingStep w₀ w)
    (hstep : Step w (some t) w') : SwitchOk w w' t ↔ SavesRight w := by
  have hw : Suspended w := by
    refine run_invariant (I := Suspended)
      (fun _ _ h hs => savingStep_suspended h hs) hrun ?_
    intro u r _ hout
    rw [hnew u] at hout
    cases hout
  obtain ⟨h1, h2, -, h4⟩ := hstep.switch
  constructor
  · rintro ⟨hsaved, hkept, -⟩
    by_cases hmain : w.running = w.s.main
    · exact Or.inl hmain
    · rw [h1] at hsaved hkept
      have hm := hkept w.s.main (Ne.symm hmain)
      rw [Function.update_self] at hm
      rw [Function.update_of_ne hmain] at hsaved
      exact Or.inr ⟨hsaved, hm.symm⟩
  · intro hok
    rw [hok.context_eq] at h1 h2
    refine ⟨?_, ?_, ?_⟩
    · rw [h1, Function.update_self]
    · intro u hu
      rw [h1, Function.update_of_ne hu]
    · intro r hr
      rw [h4] at hr
      rw [h2]
      by_cases ht : t = w.running
      · subst ht
        rw [Function.update_self] at hr ⊢
        exact Option.some.inj hr
      · rw [Function.update_of_ne ht] at hr ⊢
        exact hw t r ht hr

/-- The switch from `main` to `pthr1`. -/
theorem switch_ok_boot :
    SwitchOk bootWorld (bootWorld.after workerState (some 1)) 1 :=
  (switch_ok_iff (fun _ => rfl) .refl (Step.schedule boot_schedule)).mpr
    (Or.inl rfl)

end SharixThread
