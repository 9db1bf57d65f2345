import Mathlib.Data.Nat.Notation

/-!
# Attempts that may fail

A requester makes one attempt after the other, each of them ended by an
acknowledge that says whether it failed. What an attempt does once it is under
way cannot be taken back, and only the acknowledge ends it: so failed attempts
do nothing if none fails that is under way.
-/

namespace ParaNut.Lib

variable {ack failed does : ℕ → Prop}

/-- Nothing is done between the acknowledge before a failed attempt and its own. -/
def FailsIntact (ack failed does : ℕ → Prop) : Prop :=
  ∀ t, failed t → ∀ u ≤ t, (∀ v, u ≤ v → v < t → ¬ack v) → ¬does u

theorem underWay_until {underWay : ℕ → Prop}
    (hkept : ∀ t, underWay t → ¬ack t → underWay (t + 1)) {u t : ℕ} (hut : u ≤ t)
    (hack : ∀ v, u ≤ v → v < t → ¬ack v) (h : underWay u) : underWay t := by
  induction hut with
  | refl => exact h
  | @step t hut ih =>
    have hbefore : underWay t := ih fun v huv hvt => hack v huv (Nat.lt_succ_of_lt hvt)
    exact hkept t hbefore (hack t hut (Nat.lt_succ_self t))

theorem failsIntact_of_underWay (underWay : ℕ → Prop) (hfailed : ∀ t, failed t → ack t)
    (hdoes : ∀ t, does t → underWay t ∨ ¬ack t ∧ underWay (t + 1))
    (hkept : ∀ t, underWay t → ¬ack t → underWay (t + 1))
    (hok : ∀ t, underWay t → ¬failed t) : FailsIntact ack failed does := by
  intro t hf u hut hack hu
  rcases hdoes u hu with h | ⟨hnack, h⟩
  · exact hok t (underWay_until hkept hut hack h) hf
  · have hlt : u < t := by
      refine Nat.lt_of_le_of_ne hut ?_
      rintro rfl
      exact hnack (hfailed u hf)
    have hlater : ∀ v, u + 1 ≤ v → v < t → ¬ack v := fun v huv => hack v (Nat.le_of_succ_le huv)
    exact hok t (underWay_until hkept hlt hlater h) hf

end ParaNut.Lib
