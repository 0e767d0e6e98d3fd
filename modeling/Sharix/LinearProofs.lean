import Sharix.RunProofs

/-! # Runs that take effect one call at a time

    A machine moves in small steps, and in some of them a call of an abstract
    machine takes effect, with its answer.  The `trace` of a run is the row of
    these calls.  If a step without a call changes nothing of the abstract
    state, and a step with one changes it as the abstract machine does, then
    the trace is a run of the abstract machine (`trace_refine`): the calls might
    as well have been made one after the other.  A call takes effect in a step
    of its own, so the order of calls that do not overlap is kept. -/

namespace SharixLinear

open SharixRun

variable {S T E Call Answer : Type}

section

variable (step : S → E → S) (commit : S → E → Option (Call × Answer))

/-- The calls that take effect in a run, with their answers. -/
def trace : S → List E → List (Call × Answer)
  | _, [] => []
  | s, e :: es => (commit s e).toList ++ trace (step s e) es

end

variable {step : S → E → S} {commit : S → E → Option (Call × Answer)}

/-- A list that grows by what takes effect in a step grows by what takes effect
    in a run. -/
theorem trace_log {B : Type} {log : S → List B} {g : Call × Answer → List B}
    (hstep : ∀ s e, log s ++ (commit s e).toList.flatMap g = log (step s e)) (es : List E) :
    ∀ s, log s ++ (trace step commit s es).flatMap g = log (es.foldl step s) := by
  induction es with
  | nil => exact fun s => List.append_nil _
  | cons e es ih =>
      intro s
      rw [trace, List.flatMap_append, ← List.append_assoc, hstep, ih]
      rfl

/-- **THE TRACE IS A RUN OF THE ABSTRACT MACHINE**. -/
theorem trace_refine {spec : T → Call → Answer × T} {R : S → T → Prop}
    (hstay : ∀ s t e, R s t → commit s e = none → R (step s e) t)
    (hcommit : ∀ s t e r, R s t → commit s e = some r →
      (spec t r.1).1 = r.2 ∧ R (step s e) (spec t r.1).2) (es : List E) :
    ∀ {s : S} {t : T}, R s t →
      (answers spec t ((trace step commit s es).map Prod.fst)).1
          = (trace step commit s es).map Prod.snd ∧
        R (es.foldl step s) (answers spec t ((trace step commit s es).map Prod.fst)).2 := by
  induction es with
  | nil => exact fun h => ⟨rfl, h⟩
  | cons e es ih =>
      intro s t h
      rw [trace, List.foldl_cons]
      cases hc : commit s e with
      | none => exact ih (hstay s t e h hc)
      | some r =>
          obtain ⟨hanswer, hnext⟩ := hcommit s t e r h hc
          obtain ⟨hrest, hend⟩ := ih hnext
          refine ⟨?_, hend⟩
          show (spec t r.1).1 :: (answers spec _ ((trace step commit (step s e) es).map _)).1
            = r.2 :: (trace step commit (step s e) es).map _
          rw [hanswer, hrest]

end SharixLinear
