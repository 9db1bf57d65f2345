import Mathlib.Data.List.Range
import Mathlib.Data.Nat.Init
import Mathlib.Data.Nat.Notation
import Mathlib.Order.Basic

/-!
# Registers that are written atomically

A register that takes one write at a time has, at any time, the value that the
writes so far lead to, in their order. And a writer that pauses after its
write until it is acknowledged writes once for each acknowledge.
-/

namespace ParaNut.Lib.Atomic

variable {V W : Type*}

/-- The writes before time `t`, in their order. -/
def writes (write : ℕ → Option W) (t : ℕ) : List W := (List.range t).filterMap write

theorem writes_succ (write : ℕ → Option W) (t : ℕ) :
    writes write (t + 1) = writes write t ++ (write t).toList := by
  rw [writes, List.range_succ, List.filterMap_append]
  cases h : write t <;> simp [writes, h]

/-- In each step the register takes the write of that step, if any. -/
theorem value_eq (apply : V → W → V) (value : ℕ → V) {write : ℕ → Option W}
    (h : ∀ t, value (t + 1) = match write t with
      | some w => apply (value t) w
      | none => value t) (t : ℕ) : value t = (writes write t).foldl apply (value 0) := by
  induction t with
  | zero => rfl
  | succ t ih =>
    rw [h, writes_succ, List.foldl_append, ← ih]
    cases write t <;> rfl

/-- A writer that has written is done until the acknowledge, and does not write then. -/
structure Once (ack does done : ℕ → Prop) : Prop where
  start : ¬ done 0
  next : ∀ t, done (t + 1) ↔ ¬ ack t ∧ (does t ∨ done t)
  once : ∀ t, done t → ¬ does t

namespace Once

variable {ack does done : ℕ → Prop} {t t' : ℕ}

theorem exists_of_done (h : Once ack does done) (hd : done t) :
    ∃ u < t, does u ∧ ∀ v, u ≤ v → v < t → ¬ ack v := by
  induction t with
  | zero => exact absurd hd h.start
  | succ t ih =>
    obtain ⟨hack, hdoes | hdone⟩ := (h.next t).mp hd
    · refine ⟨t, Nat.lt_succ_self t, hdoes, fun v hv hvt => ?_⟩
      rwa [Nat.le_antisymm (Nat.le_of_lt_succ hvt) hv]
    · obtain ⟨u, hut, hdoes, hno⟩ := ih hdone
      refine ⟨u, Nat.lt_succ_of_lt hut, hdoes, fun v hv hvt => ?_⟩
      rcases Nat.lt_succ_iff_lt_or_eq.mp hvt with hvt | rfl
      · exact hno v hv hvt
      · exact hack

/-- An acknowledge that comes with the write or after it is that of a write. -/
theorem exists_write (h : Once ack does done) (hend : does t ∨ done t) :
    ∃ u ≤ t, does u ∧ ∀ v, u ≤ v → v < t → ¬ ack v := by
  rcases hend with hdoes | hdone
  · exact ⟨t, Nat.le_refl t, hdoes, fun v hv hvt => absurd hvt (Nat.not_lt.mpr hv)⟩
  · obtain ⟨u, hut, hdoes, hno⟩ := h.exists_of_done hdone
    exact ⟨u, hut.le, hdoes, hno⟩

/-- Between two writes there is an acknowledge. -/
theorem ack_between (h : Once ack does done) (hlt : t < t') (hd : does t) (hd' : does t') :
    ∃ v, t ≤ v ∧ v < t' ∧ ack v := by
  by_contra hno
  have hnack : ∀ v, t ≤ v → v < t' → ¬ ack v := fun v hv hvt ha => hno ⟨v, hv, hvt, ha⟩
  have hdone : ∀ v, t + 1 ≤ v → v ≤ t' → done v := by
    intro v hv
    induction v, hv using Nat.le_induction with
    | base => exact fun hle => (h.next t).mpr ⟨hnack t (Nat.le_refl t) hle, .inl hd⟩
    | succ v hv ih =>
      intro hle
      exact (h.next v).mpr ⟨hnack v (Nat.le_of_succ_le hv) hle, .inr (ih (Nat.le_of_succ_le hle))⟩
  exact h.once t' (hdone t' hlt (Nat.le_refl t')) hd'

end Once

end ParaNut.Lib.Atomic
