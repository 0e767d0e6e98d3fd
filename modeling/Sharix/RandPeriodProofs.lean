import Sharix.LcgProofs
import Sharix.RandProofs
import Sharix.ThreadProofs

/-! # The period of `rand`, and what `schedule` makes of it

    `rand` keeps a generator modulo `2 ^ 48` and returns its bits 12 to 42.  In
    any `2 ^ 43` calls in a row it returns every value equally often.

    `schedule` looks at the parity of the value, which is bit 12 alone: it comes
    round after `2 ^ 13` calls.  Between two threads the choice of a call of
    `schedule` is undone 4096 calls later, so in any 8192 calls each of them is
    picked 4096 times (`schedule_last_half`, for any number of threads). -/

namespace SharixRand

open SharixLcg SharixThread SharixList

/-! ## The calls of `rand` -/

/-- The value of call `n`, counted from `0`. -/
def randAt (next : BitVec 64) : Nat → Option Int
  | 0 => (rand next).map Prod.fst
  | n + 1 => (rand next).bind fun r => randAt r.2 n

/-- The generator, before the reduction. -/
abbrev generator : Nat → Nat := lcg 0x5DEECE66D 0xB

theorem generator_eq (x : Nat) : generator x = x * 0x5DEECE66D + 0xB := by
  rw [generator, lcg, Nat.mul_comm]

/-- The state after a call is the next one of the generator. -/
theorem rand_generator (next : BitVec 64) :
    ∃ v next', rand next = some (v, next') ∧ next'.toNat = generator next.toNat % 2 ^ 48 ∧
      v = ((next'.toNat / 2 ^ 12 % 2 ^ 31 : Nat) : Int) := by
  obtain ⟨v, next', hrun, hnext, hv, -⟩ := rand_eq next
  exact ⟨v, next', hrun, by rw [hnext, generator_eq], hv⟩

theorem randAt_eq (next : BitVec 64) (n : Nat) :
    randAt next n
      = some ((generator^[n + 1] next.toNat % 2 ^ 43 / 2 ^ 12 : Nat) : Int) := by
  induction n generalizing next with
  | zero =>
      obtain ⟨v, next', hrun, hnext, hv⟩ := rand_generator next
      rw [randAt, hrun, hv, hnext]
      have hbits : ∀ x : Nat, x % 2 ^ 48 / 2 ^ 12 % 2 ^ 31 = x % 2 ^ 43 / 2 ^ 12 := by omega
      exact congrArg (fun x : Nat => some (x : Int)) (hbits _)
  | succ n ih =>
      obtain ⟨v, next', hrun, hnext, -⟩ := rand_generator next
      rw [randAt, hrun, Option.bind_some, ih, hnext]
      have hcongr : generator^[n + 1] (generator next.toNat % 2 ^ 48)
          ≡ generator^[n + 1] (generator next.toNat) [MOD 2 ^ 43] :=
        iterate_congr ((Nat.mod_modEq _ _).of_dvd ⟨2 ^ 5, rfl⟩) _
      rw [Function.iterate_succ_apply (f := generator) (n + 1)]
      rw [show _ % 2 ^ 43 = _ % 2 ^ 43 from hcongr]

/-- **`rand` IS EQUIDISTRIBUTED**: from every seed and in every window of
    `2 ^ 43` calls, each value from 0 to `RAND_MAX` is returned `2 ^ 12` times. -/
theorem rand_equidistributed (next : BitVec 64) (n : Nat) {v : Int} (h0 : 0 ≤ v)
    (hv : v ≤ RAND_MAX.toNat) :
    ((Finset.range (2 ^ 43)).filter fun i => randAt next (n + i) = some v).card = 2 ^ 12 := by
  obtain ⟨v, rfl⟩ := Int.eq_ofNat_of_zero_le h0
  have hmax : RAND_MAX.toNat = 2 ^ 31 - 1 := rfl
  have hcount := @card_window 0x5DEECE66D 0xB (by decide) (by decide) 43 12 v (by omega)
    (by omega) n (generator next.toNat)
  refine Eq.trans (congrArg Finset.card (Finset.filter_congr fun i _ => ?_)) hcount
  rw [randAt_eq, Option.some.injEq, Int.ofNat_inj, Function.iterate_succ_apply]

/-- The first seed, and the value 0. -/
theorem rand_equidistributed_zero :
    ((Finset.range (2 ^ 43)).filter fun i => randAt 1 (0 + i) = some 0).card = 2 ^ 12 :=
  rand_equidistributed 1 0 (by decide) (by decide)

/-! ## `schedule` with its calls of `rand` -/

/-- The walk of `schedule`, which calls `rand` at every thread but the first. -/
def pickRand (m : LinkMem Addr) :
    Nat → BitVec 64 → Addr → Option Addr → Option (Option Addr × BitVec 64)
  | 0, _, _, _ => none
  | fuel + 1, next, le, run => do
      let le ← listNext m le
      if le = .threadList then
        return (run, next)
      else
        match run with
        | none => pickRand m fuel next le (some le)
        | some run => do
            let (v, next) ← rand next
            if v % 2 = 1 then pickRand m fuel next le (some le)
            else pickRand m fuel next le (some run)

/-- `schedule`; the generator's state goes in and comes out. -/
def scheduleRand (fuel : Nat) (s : State) (next : BitVec 64) :
    Option (State × Option Nat × BitVec 64) := do
  let (run, next) ← pickRand s.link fuel next .threadList none
  match run with
  | some run => do
      let t ← toThread run
      let needResched := if s.tid t = 0 then 0 else s.needResched
      let s := { s with needResched := needResched, currentthread := some t }
      return (threadRun t s, some t, next)
  | none => return ({ s with needResched := 0 }, none, next)

/-- The outcomes that `schedule` of the thread model is given. -/
def outcomes (next : BitVec 64) (k : Nat) : Nat := ((randAt next k).getD 0).toNat

/-- The walk is that of the thread model; `k` calls have been made since the
    state `start`. -/
theorem pickRand_pickFrom {m : LinkMem Addr} {start : BitVec 64} {r : Option Addr}
    {next' : BitVec 64} :
    ∀ {fuel k : Nat} {next : BitVec 64} {le : Addr} {run : Option Addr},
      (∀ j, randAt next j = randAt start (k + j)) →
      pickRand m fuel next le run = some (r, next') →
      pickFrom m (outcomes start) fuel k le run = some r := by
  intro fuel
  induction fuel with
  | zero =>
      intro k next le run _ h
      cases h
  | succ fuel ih =>
      intro k next le run hcalls h
      obtain ⟨x, hx, h⟩ := Option.bind_eq_some_iff.mp h
      rw [pickFrom, hx]
      simp only [Option.bind_eq_bind, Option.bind_some]
      by_cases hend : x = .threadList
      · rw [if_pos hend] at h ⊢
        cases h
        rfl
      · rw [if_neg hend] at h ⊢
        cases run with
        | none => exact ih hcalls h
        | some b =>
            obtain ⟨v, next₁, hrand, -, hv⟩ := rand_generator next
            have hfirst : outcomes start k = v.toNat := by
              rw [outcomes, ← Nat.add_zero k, ← hcalls 0, randAt, hrand]
              rfl
            have hrest : ∀ j, randAt next₁ j = randAt start (k + 1 + j) := by
              intro j
              rw [Nat.add_assoc, Nat.add_comm 1, ← hcalls (j + 1), randAt, hrand]
              rfl
            have hodd : outcomes start k % 2 = 1 ↔ v % 2 = 1 := by
              rw [hfirst, hv]
              omega
            simp only [hrand, Option.bind_eq_bind, Option.bind_some] at h
            dsimp only
            by_cases hv1 : v % 2 = 1
            · rw [if_pos hv1] at h
              rw [if_pos (hodd.mpr hv1)]
              exact ih hrest h
            · rw [if_neg hv1] at h
              rw [if_neg (fun h1 => hv1 (hodd.mp h1))]
              exact ih hrest h

/-- `schedule` of the thread model, on the outcomes of `rand`. -/
theorem scheduleRand_schedule {fuel : Nat} {s s' : State} {next next' : BitVec 64}
    {d : Option Nat} (h : scheduleRand fuel s next = some (s', d, next')) :
    schedule fuel (outcomes next) s = some (s', d) := by
  obtain ⟨⟨run, next₁⟩, hpick, h⟩ := Option.bind_eq_some_iff.mp h
  have hcalls : ∀ j, randAt next j = randAt next (0 + j) := fun j => by rw [Nat.zero_add]
  have hfrom := pickRand_pickFrom hcalls hpick
  rw [schedule, hfrom]
  cases run with
  | none =>
      cases h
      rfl
  | some a =>
      obtain ⟨t, ht, h⟩ := Option.bind_eq_some_iff.mp h
      cases h
      simp only [Option.bind_eq_bind, Option.bind_some, ht]
      rfl

/-- The parity of a value of `rand` is bit 12 of the generator. -/
def heads (x : Nat) : Bool := x / 2 ^ 12 % 2 == 1

theorem heads_congr {x y : Nat} (h : x ≡ y [MOD 2 ^ 13]) : heads x = heads y := by
  have h : x % 2 ^ 13 = y % 2 ^ 13 := h
  have hbit : x / 2 ^ 12 % 2 = y / 2 ^ 12 % 2 := by omega
  rw [heads, heads, hbit]

theorem heads_flip (x q : Nat) : heads (x + 2 ^ 12 * (2 * q + 1)) = !heads x := by
  have hbit : (x + 2 ^ 12 * (2 * q + 1)) / 2 ^ 12 % 2 = 1 - x / 2 ^ 12 % 2 := by omega
  rw [heads, heads, hbit]
  rcases Nat.mod_two_eq_zero_or_one (x / 2 ^ 12) with h | h <;> rw [h] <;> rfl

/-- Along a chain `rand` is called once a thread, and the last thread is picked
    exactly if the last call comes up odd. -/
theorem pickRand_chain {m : LinkMem Addr} {rest : List Addr} :
    ∀ {fuel : Nat} {next : BitVec 64} {le r : Addr},
      List.IsChain (Link m) (le :: rest ++ [.threadList]) → NULL ∉ le :: rest →
      .threadList ∉ rest → (r :: rest).Nodup → rest.length < fuel →
      ∃ run next', pickRand m fuel next le (some r) = some (some run, next') ∧
        next'.toNat ≡ generator^[rest.length] next.toNat [MOD 2 ^ 48] ∧
        run ∈ r :: rest ∧
        ∀ ys last, rest = ys ++ [last] →
          (run = last ↔ heads (generator^[rest.length] next.toNat) = true) := by
  induction rest with
  | nil =>
      intro fuel next le r hchain hnull _ _ hfuel
      obtain ⟨fuel, rfl⟩ := Nat.exists_eq_succ_of_ne_zero (Nat.ne_of_gt hfuel)
      have hnext : listNext m le = some .threadList := by
        rw [listNext, if_neg (fun h => hnull (List.mem_singleton.mpr h.symm)),
          (List.isChain_cons_cons.mp hchain).1.1]
      refine ⟨r, next, ?_, Nat.ModEq.refl _, List.mem_cons_self .., ?_⟩
      · rw [pickRand, hnext]
        rfl
      · intro ys last h
        simp at h
  | cons x rest ih =>
      intro fuel next le r hchain hnull hhead hnodup hfuel
      obtain ⟨fuel, rfl⟩ := Nat.exists_eq_succ_of_ne_zero (Nat.ne_of_gt
        (Nat.lt_of_le_of_lt (Nat.zero_le _) hfuel))
      obtain ⟨hlink, hrest⟩ := List.isChain_cons_cons.mp hchain
      rw [List.mem_cons, not_or] at hnull hhead
      obtain ⟨hle, hnull⟩ := hnull
      obtain ⟨hxh, hhead⟩ := hhead
      obtain ⟨hr, hnodup⟩ := List.nodup_cons.mp hnodup
      rw [List.mem_cons, not_or] at hr
      have hnext : listNext m le = some x := by
        rw [listNext, if_neg (Ne.symm hle), hlink.1]
      obtain ⟨v, next₁, hrand, hnext₁, hv⟩ := rand_generator next
      have hodd : v % 2 = 1 ↔ heads (generator next.toNat) = true := by
        have hbits : next₁.toNat / 2 ^ 12 % 2 ^ 31 % 2 = generator next.toNat / 2 ^ 12 % 2 := by
          rw [hnext₁]
          omega
        rw [hv, heads, ← hbits, beq_iff_eq]
        omega
      have hmod : next₁.toNat ≡ generator next.toNat [MOD 2 ^ 48] := by
        rw [hnext₁]
        exact Nat.mod_modEq _ _
      have hshift : generator^[rest.length] next₁.toNat
          ≡ generator^[(x :: rest).length] next.toNat [MOD 2 ^ 48] :=
        iterate_congr hmod _
      -- whichever thread is kept, the walk goes on from `x`
      have hgo : ∀ b, b = x ∨ b = r → (b = x ↔ heads (generator next.toNat) = true) →
          ∃ run next', pickRand m fuel next₁ x (some b) = some (some run, next') ∧
            next'.toNat ≡ generator^[(x :: rest).length] next.toNat [MOD 2 ^ 48] ∧
            run ∈ r :: x :: rest ∧
            ∀ ys last, x :: rest = ys ++ [last] →
              (run = last ↔ heads (generator^[(x :: rest).length] next.toNat) = true) := by
        intro b hb hbx
        have hbrest : b ∉ rest := by
          rcases hb with rfl | rfl
          · exact (List.nodup_cons.mp hnodup).1
          · exact hr.2
        obtain ⟨run, next', h1, h2, h3, h4⟩ := @ih fuel next₁ x b hrest hnull hhead
          (List.nodup_cons.mpr ⟨hbrest, (List.nodup_cons.mp hnodup).2⟩)
          (Nat.lt_of_succ_lt_succ hfuel)
        refine ⟨run, next', h1, h2.trans hshift, ?_, ?_⟩
        · rcases List.mem_cons.mp h3 with rfl | h
          · rcases hb with rfl | rfl <;> simp
          · exact List.mem_cons_of_mem _ (List.mem_cons_of_mem _ h)
        · intro ys last hlast
          cases ys with
          | nil =>
              obtain ⟨rfl, rfl⟩ := List.cons.inj hlast
              have hrun : run = b := List.mem_singleton.mp h3
              rw [hrun]
              exact hbx
          | cons y ys =>
              have hrest' : rest = ys ++ [last] := (List.cons.inj hlast).2
              rw [h4 ys last hrest', heads_congr (hshift.of_dvd ⟨2 ^ 35, rfl⟩)]
      rw [pickRand, hnext]
      simp only [Option.bind_eq_bind, Option.bind_some, if_neg (Ne.symm hxh), hrand]
      by_cases hodd' : v % 2 = 1
      · rw [if_pos hodd']
        exact hgo x (Or.inl rfl) ⟨fun _ => hodd.mp hodd', fun _ => rfl⟩
      · rw [if_neg hodd']
        refine hgo r (Or.inr rfl) ⟨fun h => absurd h hr.1, fun h => absurd (hodd.mpr h) hodd'⟩

/-- One call of `schedule` on a list of threads, the first and then `rest`. -/
theorem scheduleRand_picks {s : State} {first : Nat} {rest : List Nat}
    (hr : Ring s.link .threadList ((first :: rest).map Addr.threadLink)) {fuel : Nat}
    (hfuel : rest.length + 1 < fuel) (next : BitVec 64) :
    ∃ s' t next', scheduleRand fuel s next = some (s', some t, next') ∧
      next'.toNat ≡ generator^[rest.length] next.toNat [MOD 2 ^ 48] ∧ t ∈ first :: rest ∧
      ∀ ys last, rest = ys ++ [last] →
        (t = last ↔ heads (generator^[rest.length] next.toNat) = true) := by
  obtain ⟨fuel, rfl⟩ := Nat.exists_eq_succ_of_ne_zero (Nat.ne_of_gt
    (Nat.lt_of_le_of_lt (Nat.zero_le _) hfuel))
  have hnull := hr.nonNull
  rw [List.map_cons, List.mem_cons, List.mem_cons, not_or, not_or] at hnull
  obtain ⟨hheadNull, hfirst, hrest⟩ := hnull
  obtain ⟨hhead, hnodup⟩ := List.nodup_cons.mp hr.nodup
  rw [List.map_cons, List.mem_cons, not_or] at hhead
  obtain ⟨hlink, hchain⟩ := List.isChain_cons_cons.mp hr.linked
  have hnext : listNext s.link .threadList = some (.threadLink first) := by
    rw [listNext, if_neg (Ne.symm hheadNull), hlink.1]
  have hfuel' : (rest.map Addr.threadLink).length < fuel := by
    rw [List.length_map]
    omega
  obtain ⟨run, next', hpick, hgen, hmem, hlast⟩ := @pickRand_chain _ _ fuel next _ _ hchain
    (fun h => (List.mem_cons.mp h).elim hfirst hrest) hhead.2 hnodup hfuel'
  rw [List.length_map] at hgen hlast
  rw [← List.map_cons] at hmem
  obtain ⟨t, ht, rfl⟩ := List.mem_map.mp hmem
  refine ⟨threadRun t { s with
    needResched := if s.tid t = 0 then 0 else s.needResched
    currentthread := some t }, t, next', ?_, hgen, ht, ?_⟩
  · rw [scheduleRand, pickRand, hnext]
    simp only [Option.bind_eq_bind, Option.bind_some]
    rw [if_neg (Ne.symm hhead.1), hpick]
    rfl
  · intro ys last hrest'
    have h := hlast (ys.map Addr.threadLink) (.threadLink last)
      (by rw [hrest', List.map_append]; rfl)
    rw [← h]
    exact ⟨fun h => h ▸ rfl, fun h => by injection h⟩

/-- The thread that call `t` of `schedule` dispatches, and the generator after
    it.  The calls are made in the states `s 0`, `s 1`, ... -/
def dispatched (fuel : Nat) (s : Nat → State) (next : BitVec 64) :
    Nat → Option (Option Nat × BitVec 64)
  | 0 => (scheduleRand fuel (s 0) next).map Prod.snd
  | t + 1 => (dispatched fuel s next t).bind fun r =>
      (scheduleRand fuel (s (t + 1)) r.2).map Prod.snd

section Runs

variable {s : Nat → State} {first last : Nat} {ys : List Nat}

theorem dispatched_eq
    (hr : ∀ t, Ring (s t).link .threadList ((first :: (ys ++ [last])).map Addr.threadLink))
    {fuel : Nat} (hfuel : ys.length + 2 < fuel) (next : BitVec 64) (t : Nat) :
    ∃ u next', dispatched fuel s next t = some (some u, next') ∧
      next'.toNat ≡ generator^[(ys.length + 1) * (t + 1)] next.toNat [MOD 2 ^ 48] ∧
      u ∈ first :: (ys ++ [last]) ∧
      (u = last ↔ heads (generator^[(ys.length + 1) * (t + 1)] next.toNat) = true) := by
  have hlen : (ys ++ [last]).length = ys.length + 1 := by simp
  have hfuel' : (ys ++ [last]).length + 1 < fuel := by
    rw [hlen]
    exact hfuel
  induction t with
  | zero =>
      obtain ⟨s', u, next', hrun, hgen, hmem, hlast⟩ :=
        scheduleRand_picks (hr 0) hfuel' next
      rw [hlen] at hgen hlast
      exact ⟨u, next', by rw [dispatched, hrun]; rfl, by simpa using hgen, hmem,
        by simpa using hlast ys last rfl⟩
  | succ t ih =>
      obtain ⟨u₀, next₀, hrun₀, hgen₀, -⟩ := ih
      obtain ⟨s', u, next', hrun, hgen, hmem, hlast⟩ :=
        scheduleRand_picks (hr (t + 1)) hfuel' next₀
      have hall : generator^[ys.length + 1] next₀.toNat
          ≡ generator^[(ys.length + 1) * (t + 1 + 1)] next.toNat [MOD 2 ^ 48] := by
        rw [Nat.mul_succ, Nat.add_comm (_ * _),
          Function.iterate_add_apply generator (ys.length + 1) (_ * _)]
        exact iterate_congr hgen₀ _
      rw [hlen] at hgen hlast
      refine ⟨u, next', ?_, hgen.trans hall, hmem, ?_⟩
      · rw [dispatched, hrun₀, Option.bind_some, hrun]
        rfl
      · rw [hlast ys last rfl, heads_congr (hall.of_dvd ⟨2 ^ 35, rfl⟩)]

/-- **THE LAST THREAD GETS HALF OF THE CALLS**: as long as the list of threads
    is the same and its walk makes `2 ^ e * (2 * q + 1)` calls of `rand`, with
    `e ≤ 12`, any `2 * 2 ^ (12 - e)` calls of `schedule` in a row dispatch the
    last thread `2 ^ (12 - e)` times, from every seed. -/
theorem schedule_last_half
    (hr : ∀ t, Ring (s t).link .threadList ((first :: (ys ++ [last])).map Addr.threadLink))
    {fuel : Nat} (hfuel : ys.length + 2 < fuel) {e q : Nat} (he : e ≤ 12)
    (hlen : ys.length + 1 = 2 ^ e * (2 * q + 1)) (next : BitVec 64) (n : Nat) :
    ((Finset.range (2 * 2 ^ (12 - e))).filter fun i =>
      (dispatched fuel s next (n + i)).map Prod.fst = some (some last)).card
        = 2 ^ (12 - e) := by
  have hflip : ∀ t, heads (generator^[(ys.length + 1) * (t + 2 ^ (12 - e) + 1)] next.toNat)
      = !heads (generator^[(ys.length + 1) * (t + 1)] next.toNat) := by
    intro t
    have hcalls : (ys.length + 1) * (t + 2 ^ (12 - e) + 1)
        = (ys.length + 1) * (t + 1) + 2 ^ 12 * (2 * q + 1) := by
      have hpow : 2 ^ e * 2 ^ (12 - e) = 2 ^ 12 := by
        rw [← pow_add, Nat.add_sub_cancel' he]
      calc (ys.length + 1) * (t + 2 ^ (12 - e) + 1)
          = (ys.length + 1) * (t + 1) + (ys.length + 1) * 2 ^ (12 - e) := by ring
        _ = (ys.length + 1) * (t + 1) + 2 ^ e * 2 ^ (12 - e) * (2 * q + 1) := by
            rw [hlen]
            ring
        _ = _ := by rw [hpow]
    have hshift := iterate_shifts (a := 0x5DEECE66D) (c := 0xB) (by decide) (by decide) 12
      ((ys.length + 1) * (t + 1)) (2 * q + 1) next.toNat
    rw [hcalls, heads_congr hshift, heads_flip]
  refine Eq.trans (congrArg Finset.card (Finset.filter_congr fun i _ => ?_))
    (card_flip (p := fun t => heads (generator^[(ys.length + 1) * (t + 1)] next.toNat)) hflip n)
  obtain ⟨u, next', hrun, -, -, hu⟩ := dispatched_eq hr hfuel next (n + i)
  rw [hrun, ← hu]
  simp

end Runs

/-- The two threads of `proc_init`, dispatched over and over. -/
theorem schedule_last_half_boot :
    ((Finset.range (2 * 2 ^ (12 - 0))).filter fun i =>
      (dispatched 3 (fun _ => bootState) 1 (0 + i)).map Prod.fst = some (some 0)).card
        = 2 ^ (12 - 0) := by
  have hr : Ring bootState.link .threadList ((1 :: ([] ++ [0])).map Addr.threadLink) := by
    refine ⟨by decide, by decide, ?_⟩
    exact .cons_cons ⟨rfl, rfl⟩ (.cons_cons ⟨rfl, rfl⟩ (.cons_cons ⟨rfl, rfl⟩ (.singleton _)))
  exact schedule_last_half (fun _ => hr) (by decide) (Nat.zero_le 12) (q := 0) (by decide) 1 0

end SharixRand
