import Mathlib.Data.Nat.Count
import Mathlib.Tactic.SplitIfs

/-!
# Requests to a unit that takes its time

One side asks a unit to `start`, the unit answers `rdy` when it is done, and
takes no other request before that. A unit that counts up to a limit answers
a fixed number of cycles after the request.
-/

namespace ParaNut.Lib.Handshake

variable (start rdy : ℕ → Bool)

/-- A request is under way, as the side that asks sees it. -/
def busy : ℕ → Bool
  | 0 => false
  | t + 1 => if busy t then !rdy t else start t

/-- A request is issued. -/
def issued (t : ℕ) : Bool := !busy start rdy t && start t

/-- Every request is answered once, `latency` cycles after the first in which it is under way, and
nothing is answered otherwise. -/
structure Serves (latency : ℕ → ℕ) : Prop where
  idle : ∀ t, busy start rdy t = false → rdy t = false
  waits : ∀ t, issued start rdy t = true → ∀ k < latency t, rdy (t + 1 + k) = false
  answers : ∀ t, issued start rdy t = true → rdy (t + 1 + latency t) = true

/-- A unit that counts from `first` up to `limit`, which is held while a request is under way. -/
structure Counted (first : ℕ) (counting : ℕ → Bool) (count limit : ℕ → ℕ) : Prop where
  init : counting 0 = false
  rdy_eq : ∀ t, rdy t = (counting t && count t == limit t)
  counting_succ : ∀ t, counting (t + 1) = if counting t then count t != limit t else start t
  count_start : ∀ t, counting t = false → start t = true → count (t + 1) = first
  count_succ : ∀ t, counting t = true → count t < limit t → count (t + 1) = count t + 1
  held : ∀ t, busy start rdy (t + 1) = true → limit (t + 1) = limit t
  first_le : ∀ t, first ≤ limit t

variable {start rdy} {latency : ℕ → ℕ}

theorem busy_succ (t : ℕ) :
    busy start rdy (t + 1) = if busy start rdy t then !rdy t else start t := rfl

theorem issued_iff {t : ℕ} :
    issued start rdy t = true ↔ busy start rdy t = false ∧ start t = true := by
  rw [issued, Bool.and_eq_true, Bool.not_eq_true']

-- ---------------------------------------------------------------------------
-- Answers
-- ---------------------------------------------------------------------------

theorem Serves.busy_upto (h : Serves start rdy latency) {t : ℕ}
    (hissued : issued start rdy t = true) {k : ℕ} (hk : k ≤ latency t) :
    busy start rdy (t + 1 + k) = true := by
  induction k with
  | zero =>
    obtain ⟨hbusy, hstart⟩ := issued_iff.mp hissued
    rw [Nat.add_zero, busy_succ, hbusy]
    exact hstart
  | succ k ih =>
    rw [← Nat.add_assoc, busy_succ, ih (by omega), h.waits t hissued k (by omega)]
    rfl

/-- In the cycle after the answer the next request may be issued. -/
theorem Serves.free (h : Serves start rdy latency) {t : ℕ} (hissued : issued start rdy t = true) :
    busy start rdy (t + 2 + latency t) = false := by
  have hbusy := h.busy_upto hissued le_rfl
  rw [show t + 2 + latency t = t + 1 + latency t + 1 by omega, busy_succ, hbusy,
    h.answers t hissued]
  rfl

/-- As many answers as requests, but for the one under way. -/
theorem Serves.count_eq (h : Serves start rdy latency) (t : ℕ) :
    Nat.count (issued start rdy · = true) t =
      Nat.count (rdy · = true) t + (busy start rdy t).toNat := by
  induction t with
  | zero => rfl
  | succ t ih =>
    rw [Nat.count_succ, Nat.count_succ, ih, busy_succ, issued]
    cases hb : busy start rdy t with
    | true => cases rdy t <;> simp
    | false =>
      rw [h.idle t hb]
      cases start t <;> simp

/-- What is under way has been issued, and its answer is not due before. -/
theorem Serves.busy_elim (h : Serves start rdy latency) {t : ℕ} (hbusy : busy start rdy t = true) :
    ∃ s, issued start rdy s = true ∧ s < t ∧ t ≤ s + 1 + latency s := by
  induction t with
  | zero => cases hbusy
  | succ t ih =>
    rw [busy_succ] at hbusy
    cases hb : busy start rdy t with
    | false =>
      rw [hb] at hbusy
      exact ⟨t, issued_iff.mpr ⟨hb, hbusy⟩, Nat.lt_succ_self t, by omega⟩
    | true =>
      obtain ⟨s, hs, hlt, hle⟩ := ih hb
      refine ⟨s, hs, Nat.lt_succ_of_lt hlt, ?_⟩
      by_contra hlate
      have hdone := h.answers s hs
      rw [show s + 1 + latency s = t by omega] at hdone
      rw [hb, hdone] at hbusy
      cases hbusy

/-- The cycles of the answers. -/
theorem Serves.rdy_iff (h : Serves start rdy latency) (t : ℕ) :
    rdy t = true ↔ ∃ s, issued start rdy s = true ∧ t = s + 1 + latency s := by
  constructor
  · intro hrdy
    cases hb : busy start rdy t with
    | false => rw [h.idle t hb] at hrdy; cases hrdy
    | true =>
      obtain ⟨s, hs, hlt, hle⟩ := h.busy_elim hb
      refine ⟨s, hs, ?_⟩
      by_contra hne
      have hwait := h.waits s hs (t - (s + 1)) (by omega)
      rw [show s + 1 + (t - (s + 1)) = t by omega, hrdy] at hwait
      cases hwait
  · rintro ⟨s, hs, rfl⟩
    exact h.answers s hs

-- ---------------------------------------------------------------------------
-- Counting units
-- ---------------------------------------------------------------------------

section Counted

variable {first : ℕ} {counting : ℕ → Bool} {count limit : ℕ → ℕ}

theorem Counted.busy_eq (h : Counted start rdy first counting count limit) (t : ℕ) :
    busy start rdy t = counting t := by
  induction t with
  | zero => exact h.init.symm
  | succ t ih =>
    rw [busy_succ, ih, h.counting_succ, h.rdy_eq]
    cases counting t <;> rfl

/-- The count `k` cycles after the first in which a request is under way. -/
theorem Counted.counts (h : Counted start rdy first counting count limit) {t : ℕ}
    (hissued : issued start rdy t = true) {k : ℕ} (hk : first + k ≤ limit t) :
    counting (t + 1 + k) = true ∧ count (t + 1 + k) = first + k ∧
      limit (t + 1 + k) = limit t := by
  obtain ⟨hbusy, hstart⟩ := issued_iff.mp hissued
  have hidle : counting t = false := (h.busy_eq t).symm.trans hbusy
  induction k with
  | zero =>
    have hnext : counting (t + 1) = true := by
      rw [h.counting_succ, hidle]
      exact hstart
    exact ⟨hnext, h.count_start t hidle hstart, h.held t ((h.busy_eq _).trans hnext)⟩
  | succ k ih =>
    obtain ⟨hc, hn, hl⟩ := ih (by omega)
    have hlt : count (t + 1 + k) < limit (t + 1 + k) := by omega
    have hnext : counting (t + 1 + k + 1) = true := by
      rw [h.counting_succ, hc, if_pos rfl, bne_iff_ne]
      exact Nat.ne_of_lt hlt
    refine ⟨hnext, (h.count_succ _ hc hlt).trans (by rw [hn, Nat.add_assoc]), ?_⟩
    exact (h.held _ ((h.busy_eq _).trans hnext)).trans hl

theorem Counted.serves (h : Counted start rdy first counting count limit) :
    Serves start rdy (fun t => limit t - first) where
  idle t hbusy := by
    rw [h.rdy_eq, ← h.busy_eq, hbusy]
    rfl
  waits t hissued k hk := by
    obtain ⟨hc, hn, hl⟩ := h.counts hissued (k := k) (by omega)
    rw [h.rdy_eq, hc, hn, hl, Bool.true_and, beq_eq_false_iff_ne]
    omega
  answers t hissued := by
    have hle := h.first_le t
    obtain ⟨hc, hn, hl⟩ := h.counts hissued (k := limit t - first) (by omega)
    rw [h.rdy_eq, hc, hn, hl, Bool.true_and, beq_iff_eq]
    omega

end Counted

end ParaNut.Lib.Handshake
