import ParaNut.Exu.Units
import ParaNut.Lib.Handshake
import ParaNut.Lib.Sync

/-!
# The three shifters compared (`shift32.vhd`)

The serial shifter is a counting unit: it takes a value, shifts it by one
place in each cycle and answers when it has counted up to the shift count.
-/

namespace ParaNut.Exu.Shift

open Lib (run run_succ)
open Lib.Handshake (busy issued Serves Counted)

/-- The reset branch of the serial shifter. -/
def reset (v : Registers) : Registers := { v with counting := false, shftCnt := 0 }

section Step

variable {r : Registers} {i : ShiftIn}

theorem next_idle (hidle : r.counting = false) :
    next r i = if i.start then { r with shftVal := i.value, counting := true } else r := by
  rw [next, hidle]
  rfl

theorem next_start (hidle : r.counting = false) (hstart : i.start = true) :
    next r i = { r with shftVal := i.value, counting := true } := by
  rw [next_idle hidle, if_pos hstart]

theorem next_last (hcounting : r.counting = true) (hlast : r.shftCnt = i.cnt) :
    next r i = { r with shftCnt := 0, counting := false } := by
  rw [next, if_pos hcounting, if_pos hlast]

theorem next_shift (hcounting : r.counting = true) (hmore : r.shftCnt ≠ i.cnt) :
    next r i =
      { r with shftVal := shiftGeneric r.shftVal 1 i.mode, shftCnt := r.shftCnt + 1 } := by
  rw [next, if_pos hcounting, if_neg hmore]

theorem next_counting :
    (next r i).counting = if r.counting then r.shftCnt.toNat != i.cnt.toNat else i.start := by
  cases hc : r.counting with
  | false =>
    rw [next_idle hc]
    cases hs : i.start with
    | false => exact hc
    | true => rfl
  | true =>
    by_cases hlast : r.shftCnt = i.cnt
    · rw [next_last hc hlast, hlast, if_pos rfl, bne_self_eq_false]
    · rw [next_shift hc hlast, if_pos rfl, hc]
      exact (bne_iff_ne.mpr fun h => hlast (BitVec.eq_of_toNat_eq h)).symm

/-- The count is 0 between the operations. -/
theorem next_count_idle (h : r.counting = false → r.shftCnt = 0)
    (hidle : (next r i).counting = false) : (next r i).shftCnt = 0 := by
  cases hc : r.counting with
  | false =>
    rw [next_idle hc]
    split
    · exact h hc
    · exact h hc
  | true =>
    by_cases hlast : r.shftCnt = i.cnt
    · rw [next_last hc hlast]
    · rw [next_shift hc hlast, hc] at hidle
      cases hidle

end Step

section Serial

variable (v : Registers) (i : ℕ → ShiftIn)

/-- What the serial shifter delivers in cycle `t` after reset. -/
def served (t : ℕ) : ShiftOut := out 0 (run next (reset v) i t) (i t)

def starts (t : ℕ) : Bool := (i t).start

def ready (t : ℕ) : Bool := (served v i t).rdy

/-- Count and mode stay as they are while an operation is under way. -/
def Held : Prop :=
  ∀ t, busy (starts i) (ready v i) (t + 1) = true →
    (i (t + 1)).cnt = (i t).cnt ∧ (i (t + 1)).mode = (i t).mode

variable {v i}

theorem run_idle (t : ℕ) :
    (run next (reset v) i t).counting = false → (run next (reset v) i t).shftCnt = 0 := by
  induction t with
  | zero => exact fun _ => rfl
  | succ t ih => exact next_count_idle ih

theorem counted (hheld : Held v i) : Counted (starts i) (ready v i) 0
    (fun t => (run next (reset v) i t).counting) (fun t => (run next (reset v) i t).shftCnt.toNat)
    (fun t => (i t).cnt.toNat) where
  init := rfl
  rdy_eq t := by
    have hbits : ∀ n m : BitVec 5, (n == m) = (n.toNat == m.toNat) := fun n m =>
      Bool.eq_iff_iff.mpr (by rw [beq_iff_eq, beq_iff_eq, BitVec.toNat_inj])
    exact congrArg ((run next (reset v) i t).counting && ·) (hbits _ _)
  counting_succ t := next_counting
  count_start t hidle hstart := by
    rw [run_succ, next_start hidle hstart]
    exact congrArg BitVec.toNat (run_idle t hidle)
  count_succ t hcounting hlt := by
    have hmore : (run next (reset v) i t).shftCnt ≠ (i t).cnt := fun h =>
      absurd (congrArg BitVec.toNat h) (Nat.ne_of_lt hlt)
    rw [run_succ, next_shift hcounting hmore, BitVec.toNat_add]
    have hcnt := (i t).cnt.isLt
    exact Nat.mod_eq_of_lt (Nat.lt_of_le_of_lt hlt hcnt)
  held t hbusy := by rw [(hheld t hbusy).1]
  first_le t := Nat.zero_le _

/-- The value `k` cycles after the first in which an operation is under way. -/
theorem run_shftVal (hheld : Held v i) {t : ℕ}
    (hissued : issued (starts i) (ready v i) t = true) {k : ℕ} (hk : k ≤ (i t).cnt.toNat) :
    (run next (reset v) i (t + 1 + k)).shftVal = shifted (i t).value k (i t).mode ∧
      (i (t + 1 + k)).mode = (i t).mode := by
  have hc := counted hheld
  induction k with
  | zero =>
    obtain ⟨hbusy, hstart⟩ := Lib.Handshake.issued_iff.mp hissued
    have hidle : (run next (reset v) i t).counting = false := (hc.busy_eq t).symm.trans hbusy
    refine ⟨?_, (hheld t (hc.serves.busy_upto hissued (Nat.zero_le _))).2⟩
    rw [Nat.add_zero, run_succ, next_start hidle hstart, shifted_zero]
  | succ k ih =>
    obtain ⟨hval, hmode⟩ := ih (by omega)
    obtain ⟨hcounting, hcount, hlimit⟩ := hc.counts hissued (k := k) (by omega)
    have hlt := (i t).cnt.isLt
    have hmore : (run next (reset v) i (t + 1 + k)).shftCnt ≠ (i (t + 1 + k)).cnt := by
      intro h
      have := congrArg BitVec.toNat h
      omega
    have hbusy := hc.serves.busy_upto hissued (k := k + 1) (by simpa using hk)
    refine ⟨?_, (hheld _ hbusy).2.trans hmode⟩
    rw [← Nat.add_assoc, run_succ, next_shift hcounting hmore, shiftGeneric_eq, hval, hmode,
      shifted_succ _ (by omega)]
    rfl

end Serial

/-- The barrel shifter is the generic one, and the serial shifter answers every operation once,
with the same result. -/
theorem shifters_agree (v : Registers) (i : ℕ → ShiftIn) (hheld : Held v i) :
    (∀ w n mode, shiftBarrell w n mode = shiftGeneric w n mode) ∧
    Serves (starts i) (ready v i) (fun t => (i t).cnt.toNat) ∧
    (∀ t, Nat.count (issued (starts i) (ready v i) · = true) t =
      Nat.count (ready v i · = true) t + (busy (starts i) (ready v i) t).toNat) ∧
    ∀ t, issued (starts i) (ready v i) t = true →
      (served v i (t + 1 + (i t).cnt.toNat)).dout =
          shiftGeneric (i t).value (i t).cnt (i t).mode ∧
        busy (starts i) (ready v i) (t + 2 + (i t).cnt.toNat) = false := by
  have hserves : Serves (starts i) (ready v i) (fun t => (i t).cnt.toNat) :=
    (counted hheld).serves
  refine ⟨fun w n mode => ?_, hserves, hserves.count_eq,
    fun t hissued => ⟨?_, hserves.free hissued⟩⟩
  · rw [shiftBarrell_eq, shiftGeneric_eq]
  · rw [shiftGeneric_eq]
    exact (run_shftVal hheld hissued le_rfl).1

/-- A shift to the left by 3 and, in the cycle after its answer, a rotation by 0. -/
def backToBack (t : ℕ) : ShiftIn :=
  if t ≤ 4 then ⟨t == 0, 5, 3, 0⟩ else ⟨t == 5, 9, 0, 3⟩

theorem shifters_agree_backToBack :
    (served ⟨true, 7, 1⟩ backToBack 4).dout = shiftGeneric 5 3 0 ∧
      (served ⟨true, 7, 1⟩ backToBack 6).dout = shiftGeneric 9 0 3 := by
  have hheld : Held ⟨true, 7, 1⟩ backToBack := by
    intro t hbusy
    by_cases hlast : t = 4
    · subst hlast
      exact absurd hbusy (by decide)
    · by_cases hlow : t ≤ 3
      · rw [backToBack, backToBack, if_pos (show t + 1 ≤ 4 by omega), if_pos (show t ≤ 4 by omega)]
        exact ⟨rfl, rfl⟩
      · rw [backToBack, backToBack, if_neg (show ¬ t + 1 ≤ 4 by omega),
          if_neg (show ¬ t ≤ 4 by omega)]
        exact ⟨rfl, rfl⟩
  obtain ⟨-, -, -, h⟩ := shifters_agree _ _ hheld
  exact ⟨(h 0 (by decide)).1, (h 5 (by decide)).1⟩

end ParaNut.Exu.Shift
