import Mathlib.Data.Nat.Notation
import Mathlib.Order.Defs.PartialOrder

/-!
# Synchronous machines

A clocked design is a function from the registers and the inputs of one cycle
to the registers of the next. A run feeds it one input per cycle; an
invariant of the step under an assumption on the inputs holds in every cycle
of every run whose inputs keep the assumption.
-/

namespace ParaNut.Lib

variable {S I : Type*}

/-- Registers in cycle `t` of the run from `s` under the input stream `i`. -/
def run (step : S → I → S) (s : S) (i : ℕ → I) : ℕ → S
  | 0 => s
  | t + 1 => step (run step s i t) (i t)

variable {step : S → I → S} {s : S} {i : ℕ → I}

@[simp] theorem run_zero : run step s i 0 = s := rfl

theorem run_succ (t : ℕ) : run step s i (t + 1) = step (run step s i t) (i t) := rfl

/-- What one step preserves under the input assumption, a run preserves. -/
theorem run_invariant {Inv : S → Prop} {Env : S → I → Prop}
    (hinit : Inv s) (hstep : ∀ s i, Env s i → Inv s → Inv (step s i))
    (henv : ∀ t, Env (run step s i t) (i t)) (t : ℕ) : Inv (run step s i t) := by
  induction t with
  | zero => exact hinit
  | succ t ih => exact hstep _ _ (henv t) ih

/-- The same up to a given cycle, for inputs that keep the assumption so far. -/
theorem run_invariant_upto (Inv : S → Prop) (Env : S → I → Prop)
    (hinit : Inv s) (hstep : ∀ s i, Env s i → Inv s → Inv (step s i)) (t : ℕ)
    (henv : ∀ u < t, Env (run step s i u) (i u)) : Inv (run step s i t) := by
  induction t with
  | zero => exact hinit
  | succ t ih =>
    exact hstep _ _ (henv t (Nat.lt_succ_self t)) (ih fun u hu => henv u (Nat.lt_succ_of_lt hu))

/-- The same for an invariant that also speaks of the inputs of the cycle. -/
theorem run_invariant_input (Inv : S → I → Prop) (Env : S → I → I → Prop) (hinit : Inv s (i 0))
    (hstep : ∀ s a b, Env s a b → Inv s a → Inv (step s a) b)
    (henv : ∀ t, Env (run step s i t) (i t) (i (t + 1))) (t : ℕ) :
    Inv (run step s i t) (i t) := by
  induction t with
  | zero => exact hinit
  | succ t ih => exact hstep _ _ _ (henv t) ih

end ParaNut.Lib
