import Mathlib.Data.Nat.Notation

/-!
# Processes with a sensitivity list

A process runs at the start and whenever what it is sensitive to changes; in
between what it has written stays. So an output that is to follow the inputs
does so when every run of the process writes the value that is wanted, and
this value stays the same while the process is not run.
-/

namespace ParaNut.Lib

variable {S I V : Type*} {f : I → S → S} {Changed : I → I → Prop} [DecidableRel Changed]

/-- What the process has written in step `t`, under the inputs `x`. -/
def process (f : I → S → S) (Changed : I → I → Prop) [DecidableRel Changed] (s : S) (x : ℕ → I) :
    ℕ → S
  | 0 => f (x 0) s
  | t + 1 =>
    if Changed (x t) (x (t + 1)) then f (x (t + 1)) (process f Changed s x t)
    else process f Changed s x t

variable {s : S} {x : ℕ → I} {t : ℕ}

theorem process_changed (h : Changed (x t) (x (t + 1))) :
    process f Changed s x (t + 1) = f (x (t + 1)) (process f Changed s x t) := if_pos h

theorem process_kept (h : ¬Changed (x t) (x (t + 1))) :
    process f Changed s x (t + 1) = process f Changed s x t := if_neg h

variable (Changed) in
/-- `out` is read off what was written, `value` is what a run of the process writes there. -/
theorem process_follows_iff (s : S) (x : ℕ → I) (out : S → V) {value : I → V} (wanted : I → V)
    (hout : ∀ i s, out (f i s) = value i) :
    (∀ t, out (process f Changed s x t) = wanted (x t)) ↔
      value (x 0) = wanted (x 0) ∧
        ∀ t, (Changed (x t) (x (t + 1)) → value (x (t + 1)) = wanted (x (t + 1))) ∧
          (¬Changed (x t) (x (t + 1)) → wanted (x t) = wanted (x (t + 1))) := by
  constructor
  · intro h
    refine ⟨(hout _ s).symm.trans (h 0), fun t => ⟨fun hc => ?_, fun hc => ?_⟩⟩
    · rw [← h (t + 1), process_changed hc, hout]
    · rw [← h t, ← h (t + 1), process_kept hc]
  · rintro ⟨hinit, hstep⟩ t
    induction t with
    | zero => exact (hout _ s).trans hinit
    | succ t ih =>
      by_cases hc : Changed (x t) (x (t + 1))
      · rw [process_changed hc, hout, (hstep t).1 hc]
      · rw [process_kept hc, ih, (hstep t).2 hc]

end ParaNut.Lib
