import Mathlib.Data.BitVec
import Mathlib.Data.Nat.Notation
import Mathlib.Tactic.SplitIfs
import Mathlib.Order.Defs.LinearOrder

/-!
# Bit vectors made of slices

A slice is a lowest bit and a width. Vectors are assigned slice by slice, and
two vectors that agree on slices covering them are equal. A mask of ones keeps
the slice it starts at.
-/

namespace ParaNut.Lib

variable {w n : ℕ}

theorem getLsbD_ones (w k j : ℕ) :
    (BitVec.ofNat w (2 ^ k - 1)).getLsbD j = (decide (j < w) && decide (j < k)) := by
  rw [BitVec.getLsbD_ofNat, Nat.testBit_two_pow_sub_one]

/-- A right shift and a mask take a slice. -/
theorem shift_and_ones (v : BitVec w) (lo k : ℕ) :
    (v >>> lo) &&& BitVec.ofNat w (2 ^ k - 1) = (v.extractLsb' lo k).setWidth w := by
  apply BitVec.eq_of_getLsbD_eq
  intro j hj
  rw [BitVec.getLsbD_and, getLsbD_ones, BitVec.getLsbD_ushiftRight, BitVec.getLsbD_setWidth,
    BitVec.getLsbD_extractLsb', decide_eq_true hj, Bool.true_and, Bool.true_and, Bool.and_comm]

theorem and_ones (v : BitVec w) (k : ℕ) :
    v &&& BitVec.ofNat w (2 ^ k - 1) = (v.extractLsb' 0 k).setWidth w := by
  rw [← shift_and_ones, BitVec.ushiftRight_zero]

/-- `v(lo + n - 1 downto lo) := x` -/
def setSlice (v : BitVec w) (lo : ℕ) (x : BitVec n) : BitVec w :=
  (v &&& ~~~ ((BitVec.allOnes n).setWidth w <<< lo)) ||| (x.setWidth w <<< lo)

theorem getLsbD_setSlice (v : BitVec w) (lo : ℕ) (x : BitVec n) {j : ℕ} (hj : j < w) :
    (setSlice v lo x).getLsbD j =
      if lo ≤ j ∧ j < lo + n then x.getLsbD (j - lo) else v.getLsbD j := by
  unfold setSlice
  simp only [BitVec.getLsbD_or, BitVec.getLsbD_and, BitVec.getLsbD_not, BitVec.getLsbD_shiftLeft,
    BitVec.getLsbD_setWidth, BitVec.getLsbD_allOnes, hj, decide_true, Bool.true_and]
  rcases Nat.lt_or_ge j lo with hlo | hlo
  · simp [hlo, Nat.not_le.mpr hlo]
  · have hw : j - lo < w := by omega
    rcases Nat.lt_or_ge j (lo + n) with hhi | hhi
    · have hn : j - lo < n := by omega
      simp [hlo, hhi, hw, hn, Nat.not_lt.mpr hlo]
    · have hn : ¬ j - lo < n := by omega
      have hx : x.getLsbD (j - lo) = false := BitVec.getLsbD_of_ge _ _ (by omega)
      simp [hlo, Nat.not_lt.mpr hhi, hw, hn, Nat.not_lt.mpr hlo, hx]

theorem extractLsb'_setSlice (v : BitVec w) {lo : ℕ} (x : BitVec n) (hfit : lo + n ≤ w) :
    (setSlice v lo x).extractLsb' lo n = x := by
  apply BitVec.eq_of_getLsbD_eq
  intro j hj
  rw [BitVec.getLsbD_extractLsb', getLsbD_setSlice _ _ _ (by omega), if_pos (by omega)]
  simp [hj]

/-- What is written to one slice is not seen in another. -/
theorem extractLsb'_setSlice_of_apart (v : BitVec w) {lo lo' n' : ℕ} (x : BitVec n)
    (h : lo + n ≤ lo' ∨ lo' + n' ≤ lo) (hfit : lo' + n' ≤ w) :
    (setSlice v lo x).extractLsb' lo' n' = v.extractLsb' lo' n' := by
  apply BitVec.eq_of_getLsbD_eq
  intro j hj
  rw [BitVec.getLsbD_extractLsb', BitVec.getLsbD_extractLsb',
    getLsbD_setSlice _ _ _ (by omega), if_neg (by omega)]

/-- Where the bits of the parts of a vector are. -/
structure Layout (ι : Type*) where
  lo : ι → ℕ
  width : ι → ℕ

namespace Layout

variable {ι : Type*} (l : Layout ι)

/-- Every bit is in a part. -/
def Covers (w : ℕ) : Prop := ∀ j < w, ∃ i, l.lo i ≤ j ∧ j < l.lo i + l.width i

/-- No bit is in two parts. -/
def Apart : Prop := ∀ i i', i ≠ i' → l.lo i + l.width i ≤ l.lo i' ∨ l.lo i' + l.width i' ≤ l.lo i

def read (v : BitVec w) (i : ι) : BitVec (l.width i) := v.extractLsb' (l.lo i) (l.width i)

variable {l}

/-- A vector is what its parts are. -/
theorem Covers.ext (h : l.Covers w) {v v' : BitVec w} (hread : ∀ i, l.read v i = l.read v' i) :
    v = v' := by
  apply BitVec.eq_of_getLsbD_eq
  intro j hj
  obtain ⟨i, hlo, hhi⟩ := h j hj
  have hbit := congrArg (·.getLsbD (j - l.lo i)) (hread i)
  have hlt : j - l.lo i < l.width i := by omega
  simpa [read, hlt, Nat.add_sub_cancel' hlo] using hbit

/-- A loop that assigns parts. -/
theorem Apart.read_foldl [DecidableEq ι] (h : l.Apart) (hfit : ∀ i, l.lo i + l.width i ≤ w)
    (x : ∀ i, BitVec (l.width i)) (is : List ι) (v : BitVec w) (i : ι) :
    l.read (is.foldl (fun v i => setSlice v (l.lo i) (x i)) v) i =
      if i ∈ is then x i else l.read v i := by
  induction is generalizing v with
  | nil => rfl
  | cons i' is ih =>
    rw [List.foldl_cons, ih]
    rcases eq_or_ne i' i with rfl | hne
    · rw [read, extractLsb'_setSlice _ _ (hfit i'), ite_self, if_pos List.mem_cons_self]
    · rw [read, extractLsb'_setSlice_of_apart _ _ (h i' i hne) (hfit i), ← read]
      simp only [List.mem_cons, hne.symm, false_or]

end Layout

end ParaNut.Lib
