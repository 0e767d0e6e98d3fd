import Sharix.SlabRunProofs

/-! # Using the heap — `kern/mm/slab.c`

    What code that calls `kmalloc` and `kfree` relies on, without the slabs:
    `Uses s s' live live'` is a run of legal calls from the live objects `live`
    to the live objects `live'`, in whatever order they are noted.  Such runs
    compose, whoever wrote the order down. -/

namespace SharixSlab

open SharixRun

variable {σ : Type} {A : PageAllocator σ} {inUse : σ → Nat → Prop} {C : Prop}
variable {s s' s'' : State σ} {live live' live'' m : List (Nat × Nat)}

/-- The order of the live objects says nothing. -/
theorem RunInv.perm (h : RunInv inUse C ⟨s, live⟩) (hperm : live.Perm m) :
    RunInv inUse C ⟨s, m⟩ := by
  obtain ⟨bs, hi, hbusy⟩ := h
  exact ⟨bs, hi.permLive (hperm.map _), hbusy⟩

theorem RunInv.nodup (h : RunInv inUse C ⟨s, live⟩) : (live.map Prod.fst).Nodup := by
  obtain ⟨bs, hi, -⟩ := h
  have hall := hi.live_nodup
  rw [List.map_append] at hall
  have hlive := (List.nodup_append.mp hall).1
  rwa [tagged, List.map_map] at hlive

theorem Step.perm (h : Step A inUse ⟨s, live⟩ ⟨s', live'⟩) (hperm : live.Perm m) :
    ∃ m', Step A inUse ⟨s, m⟩ ⟨s', m'⟩ ∧ live'.Perm m' := by
  cases h with
  | kmallocNull hcall => exact ⟨m, .kmallocNull hcall, hperm⟩
  | kmalloc hcall => exact ⟨_, .kmalloc hcall, hperm.cons _⟩
  | kfree hmem hcall => exact ⟨_, .kfree (hperm.mem_iff.mp hmem) hcall, hperm.erase _⟩
  | elsewhere he => exact ⟨m, .elsewhere he, hperm⟩

theorem run_perm {w : World σ} (h : Relation.ReflTransGen (Step A inUse) ⟨s, live⟩ w)
    (hperm : live.Perm m) :
    ∃ m', Relation.ReflTransGen (Step A inUse) ⟨s, m⟩ ⟨w.state, m'⟩ ∧ w.live.Perm m' := by
  induction h with
  | refl => exact ⟨m, .refl, hperm⟩
  | tail _ hlast ih =>
      obtain ⟨m₁, hrun, hperm₁⟩ := ih
      obtain ⟨m₂, hstep, hperm₂⟩ := hlast.perm hperm₁
      exact ⟨m₂, hrun.tail hstep, hperm₂⟩

variable (A inUse) in
def Uses (s s' : State σ) (live live' : List (Nat × Nat)) : Prop :=
  ∃ l, Relation.ReflTransGen (Step A inUse) ⟨s, live⟩ ⟨s', l⟩ ∧ l.Perm live'

theorem Uses.of_perm (hperm : live.Perm live') : Uses A inUse s s live live' :=
  ⟨live, .refl, hperm⟩

theorem Uses.of_step (h : Step A inUse ⟨s, live⟩ ⟨s', live'⟩) : Uses A inUse s s' live live' :=
  ⟨live', .single h, .refl _⟩

/-- **THE RULE OF COMPOSITION**: what one piece of code leaves live, the next
    starts from. -/
theorem Uses.trans (h : Uses A inUse s s' live live') (h' : Uses A inUse s' s'' live' live'') :
    Uses A inUse s s'' live live'' := by
  obtain ⟨l, hrun, hl⟩ := h
  obtain ⟨l', hrun', hl'⟩ := h'
  obtain ⟨m, hmore, hm⟩ := run_perm hrun' hl.symm
  exact ⟨m, hrun.trans hmore, hm.symm.trans hl'⟩

theorem RunInv.uses (hA : Correct A inUse) (h : RunInv inUse C ⟨s, live⟩)
    (huse : Uses A inUse s s' live live') : RunInv inUse C ⟨s', live'⟩ := by
  obtain ⟨l, hrun, hl⟩ := huse
  exact (runInv_run hA hrun h).perm hl

/-- What a call of `kmalloc` adds. -/
def granted (size : Nat) (p : Option Nat) : List (Nat × Nat) := p.toList.map fun p => (p, size)

theorem RunInv.kmalloc (hA : Correct A inUse) (h : RunInv inUse C ⟨s, live⟩) (size : Nat) :
    ∃ p s', kmalloc A size s = some (p, s') ∧
      Uses A inUse s s' live (granted size p ++ live) := by
  obtain ⟨⟨p, s'⟩, hcall⟩ := (runInv_returns hA h).1 size
  refine ⟨p, s', hcall, .of_step ?_⟩
  cases p with
  | none => exact .kmallocNull hcall
  | some p => exact .kmalloc hcall

/-- `kfree` takes away the object it is given. -/
theorem RunInv.kfree (hA : Correct A inUse) (h : RunInv inUse C ⟨s, live⟩) {o : Nat × Nat}
    (hperm : live.Perm (o :: live')) :
    ∃ s', kfree A o.1 s = some s' ∧ Uses A inUse s s' live live' := by
  have ho : o ∈ live := hperm.mem_iff.mpr List.mem_cons_self
  obtain ⟨s', hcall⟩ := (runInv_returns hA h).2 o ho
  refine ⟨s', hcall, live.erase o, .single (.kfree ho hcall), ?_⟩
  have herase := hperm.erase o
  rwa [List.erase_cons_head] at herase

/-- Without the objects of a part, the rest. -/
theorem perm_diff {rest : List (Nat × Nat)} (h : live.Perm (m ++ rest)) :
    (live.diff m).Perm rest := by
  induction m generalizing live with
  | nil => exact h
  | cons x m ih =>
      rw [List.diff_cons]
      refine ih ?_
      have herase := h.erase x
      rwa [List.cons_append, List.erase_cons_head] at herase

end SharixSlab
