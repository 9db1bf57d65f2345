import Mathlib.Data.BitVec
import Mathlib.Tactic.FinCases

/-!
# Words as four byte lanes

Lane 0 is the most significant byte, as on a big-endian bus. Two words are
equal when their lanes are, so facts about masked updates are proved one lane
at a time.
-/

namespace ParaNut.Lib

/-- Byte lane `n` of a word, lane 0 being bits 31 to 24. -/
def byte (w : BitVec 32) (n : Fin 4) : BitVec 8 := w.extractLsb' (24 - 8 * n.val) 8

/-- The word with the given byte lanes. -/
def ofBytes (f : Fin 4 → BitVec 8) : BitVec 32 := f 0 ++ f 1 ++ f 2 ++ f 3

theorem getLsbD_ofBytes (f : Fin 4 → BitVec 8) (n : Fin 4) {i : ℕ} (hi : i < 8) :
    (ofBytes f).getLsbD (24 - 8 * n.val + i) = (f n).getLsbD i := by
  unfold ofBytes
  fin_cases n <;> simp only [BitVec.getLsbD_append]
  · rw [if_neg (by simp; omega), if_neg (by simp; omega), if_neg (by simp; omega)]
    congr 1; simp; omega
  · rw [if_neg (by simp; omega), if_neg (by simp; omega), if_pos (by simp; omega)]
    congr 1; simp; omega
  · rw [if_neg (by simp), if_pos (by simp; omega)]
    congr 1; simp
  · rw [if_pos (by simpa using hi)]
    congr 1; simp

@[simp] theorem byte_ofBytes (f : Fin 4 → BitVec 8) (n : Fin 4) : byte (ofBytes f) n = f n := by
  apply BitVec.eq_of_getLsbD_eq
  intro i hi
  rw [byte, BitVec.getLsbD_extractLsb', getLsbD_ofBytes f n hi]
  simp [hi]

/-- Words agree when all their lanes do. -/
theorem ext_byte {v w : BitVec 32} (h : ∀ n, byte v n = byte w n) : v = w := by
  apply BitVec.eq_of_getLsbD_eq
  intro i hi
  have hn : 3 - i / 8 < 4 := by omega
  have hb := congrArg (·.getLsbD (i % 8)) (h ⟨3 - i / 8, hn⟩)
  have hi8 : i % 8 < 8 := Nat.mod_lt _ (by decide)
  have hpos : 24 - 8 * (3 - i / 8) + i % 8 = i := by omega
  simpa [byte, BitVec.getLsbD_extractLsb', hi8, hpos] using hb

/-- Take the selected lanes from `new`, the others from `old`. -/
def merge (sel : BitVec 4) (old new : BitVec 32) : BitVec 32 :=
  ofBytes fun n => if sel[n.val] then byte new n else byte old n

@[simp] theorem byte_merge (sel : BitVec 4) (old new : BitVec 32) (n : Fin 4) :
    byte (merge sel old new) n = if sel[n.val] then byte new n else byte old n := by
  simp [merge]

theorem merge_none (old new : BitVec 32) : merge 0 old new = old :=
  ext_byte fun n => by simp

theorem merge_all (old new : BitVec 32) : merge 15 old new = new :=
  ext_byte fun n => by fin_cases n <;> simp

/-- A masked update that already holds changes nothing. -/
theorem merge_absorb {sel : BitVec 4} {old new : BitVec 32}
    (h : ∀ n : Fin 4, sel[n.val] = true → byte old n = byte new n) : merge sel old new = old :=
  ext_byte fun n => by
    rw [byte_merge]
    split
    · exact (h n ‹_›).symm
    · rfl

/-- Half-word `k` of a word is its lanes `2k` and `2k + 1`. -/
theorem extract_half (w : BitVec 32) (k : Fin 2) :
    w.extractLsb' (16 - 16 * k.val) 16 =
      byte w ⟨2 * k.val, by omega⟩ ++ byte w ⟨2 * k.val + 1, by omega⟩ := by
  apply BitVec.eq_of_getLsbD_eq
  intro i hi
  simp only [byte, BitVec.getLsbD_extractLsb', BitVec.getLsbD_append, hi]
  fin_cases k <;> by_cases h : i < 8 <;> simp [h]
  all_goals
    rw [decide_eq_true (by omega : i - 8 < 8), Bool.true_and]
    congr 1
    omega

theorem getLsbD_byte (w : BitVec 32) (n : Fin 4) {j : ℕ} (hj : j < 8) :
    (byte w n).getLsbD j = w.getLsbD (24 - 8 * n.val + j) := by
  simp [byte, hj]

/-- Shifting right and masking selects a field of the word. -/
theorem shift_and_mask (w : BitVec 32) (s k : ℕ) :
    (w >>> s) &&& (BitVec.allOnes k).setWidth 32 = (w.extractLsb' s k).setWidth 32 := by
  apply BitVec.eq_of_getLsbD_eq
  intro j hj
  simp only [BitVec.getLsbD_and, BitVec.getLsbD_ushiftRight, BitVec.getLsbD_setWidth,
    BitVec.getLsbD_allOnes, BitVec.getLsbD_extractLsb', hj, decide_true, Bool.true_and]
  exact Bool.and_comm ..

theorem byte_replicate (b : BitVec 8) (n : Fin 4) :
    byte (b.setWidth 32 ||| (b.setWidth 32 <<< 8) ||| (b.setWidth 32 <<< 16) |||
      (b.setWidth 32 <<< 24)) n = b := by
  revert n b
  decide

theorem byte_duplicate (h : BitVec 16) (n : Fin 4) :
    byte (h.setWidth 32 ||| (h.setWidth 32 <<< 16)) n =
      h.extractLsb' (8 - 8 * (n.val % 2)) 8 := by
  apply BitVec.eq_of_getLsbD_eq
  intro j hj
  fin_cases n
  all_goals
    simp only [getLsbD_byte _ _ hj, BitVec.getLsbD_or, BitVec.getLsbD_shiftLeft,
      BitVec.getLsbD_setWidth, BitVec.getLsbD_extractLsb', hj, decide_true, Bool.true_and]
    grind

theorem xor_two_pow_of_lt {x k : ℕ} (h : x < 2 ^ k) : x ^^^ 2 ^ k = x + 2 ^ k := by
  have hor : 2 ^ k + x = 2 ^ k ||| x := by
    simpa using Nat.two_pow_add_eq_or_of_lt h 1
  rw [Nat.add_comm, hor]
  apply Nat.eq_of_testBit_eq
  intro i
  rw [Nat.testBit_xor, Nat.testBit_or, Nat.testBit_two_pow]
  by_cases hi : k = i
  · subst hi
    simp [Nat.testBit_lt_two_pow h]
  · simp [hi]

/-- Flipping the sign bit and subtracting it extends the sign. -/
theorem flip_sub_sign {k : ℕ} (b : BitVec (k + 1)) (hk : k + 1 < 32) :
    (b.setWidth 32 ^^^ BitVec.twoPow 32 k) - BitVec.twoPow 32 k = b.signExtend 32 := by
  have hp : 2 ^ k < 2 ^ 31 := Nat.pow_lt_pow_right (by omega) (by omega)
  have hdouble : 2 ^ (k + 1) = 2 * 2 ^ k := Nat.pow_succ'
  have hb := b.isLt
  apply BitVec.eq_of_toNat_eq
  rw [BitVec.toNat_signExtend, BitVec.toNat_sub, BitVec.toNat_xor, BitVec.toNat_twoPow,
    BitVec.toNat_setWidth, Nat.mod_eq_of_lt (show b.toNat < 2 ^ 32 by omega),
    Nat.mod_eq_of_lt (show 2 ^ k < 2 ^ 32 by omega), BitVec.msb_eq_decide]
  simp only [Nat.add_sub_cancel, decide_eq_true_eq]
  by_cases hm : 2 ^ k ≤ b.toNat
  · obtain ⟨r, hr⟩ := Nat.exists_eq_add_of_le hm
    have hx : b.toNat ^^^ 2 ^ k = r := by
      rw [hr, Nat.add_comm, ← xor_two_pow_of_lt (show r < 2 ^ k by omega), Nat.xor_assoc,
        Nat.xor_self, Nat.xor_zero]
    rw [if_pos hm, hx]
    omega
  · rw [if_neg hm, xor_two_pow_of_lt (by omega)]
    omega

end ParaNut.Lib
