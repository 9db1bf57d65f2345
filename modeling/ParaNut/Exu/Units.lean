import ParaNut.Types
import Mathlib.Tactic.SplitIfs

/-!
# Shifter and multiplier (`shift32.vhd`, `mult32x32s.vhd`, `mul_inferred.vhd`)

Both are started by the execute stage and signal `rdy`. The operands are
held meanwhile: the serial shifter reads the count and the mode, the
multiplier both factors in every cycle.
-/

namespace ParaNut.Exu

-- ---------------------------------------------------------------------------
-- Shifter
-- ---------------------------------------------------------------------------

/-- `shift_in_type` -/
structure ShiftIn where
  start : Bool
  value : TWord
  cnt : BitVec 5
  mode : BitVec 2

/-- `shift_out_type` -/
structure ShiftOut where
  dout : TWord
  rdy : Bool

namespace Shift

/-- Modes 0 to 3: shift left, shift right, arithmetic shift right, rotate right. -/
def shifted (w : TWord) (n : ℕ) (mode : BitVec 2) : TWord :=
  if mode = 0 then w <<< n
  else if mode = 1 then w >>> n
  else if mode = 2 then w.sshiftRight n
  else w.rotateRight n

/-- `shift_generic`; a rotation puts the `n` lowest bits above the shifted word. -/
def shiftGeneric (w : TWord) (n : BitVec 5) (mode : BitVec 2) : TWord :=
  if mode = 0 then w <<< n.toNat
  else if mode = 1 then w >>> n.toNat
  else if mode = 2 then w.sshiftRight n.toNat
  else (w >>> n.toNat) ||| (w <<< (32 - n.toNat))

/-- `result(m-1 downto 0) := result(m-1+s downto s)` if the bit of the count is set. -/
def stage (c : Bool) (m s : ℕ) (r : BitVec 64) : BitVec 64 :=
  if c then ((r >>> m) <<< m) ||| (r.extractLsb' s m).setWidth 64 else r

def shiftBarrell (w : TWord) (n : BitVec 5) (mode : BitVec 2) : TWord :=
  let sign := mode.getLsbD 1 && w.msb
  let upper : TWord :=
    if mode = 0 then w >>> 1 else if mode = 3 then w
    else if sign then BitVec.allOnes 32 else 0
  let lower : TWord := if mode = 0 then (BitVec.ofBool (w.getLsbD 0)).setWidth 32 <<< 31 else w
  let cnt := if mode = 0 then ~~~ n else n
  let r := upper ++ lower
  let r := stage (cnt.getLsbD 4) 48 16 r
  let r := stage (cnt.getLsbD 3) 40 8 r
  let r := stage (cnt.getLsbD 2) 36 4 r
  let r := stage (cnt.getLsbD 1) 34 2 r
  let r := stage (cnt.getLsbD 0) 32 1 r
  r.setWidth 32

/-- The registers of the serial shifter. -/
structure Registers where
  /-- `S_SHIFT_CNT` -/
  counting : Bool
  shftCnt : BitVec 5
  shftVal : TWord

variable (impl : ℕ) (r : Registers) (i : ShiftIn)

def out : ShiftOut :=
  if impl = 0 then ⟨r.shftVal, r.counting && r.shftCnt == i.cnt⟩
  else if impl = 1 then ⟨shiftGeneric i.value i.cnt i.mode, true⟩
  else ⟨shiftBarrell i.value i.cnt i.mode, true⟩

def next : Registers :=
  if r.counting then
    if r.shftCnt = i.cnt then { r with shftCnt := 0, counting := false }
    else { r with shftVal := shiftGeneric r.shftVal 1 i.mode, shftCnt := r.shftCnt + 1 }
  else if i.start then { r with shftVal := i.value, counting := true }
  else r

variable {impl r i}

/-- Bit `j` of the shifted word. -/
theorem getLsbD_shifted {w : TWord} {n : ℕ} (hn : n < 32) (mode : BitVec 2) {j : ℕ} (hj : j < 32) :
    (shifted w n mode).getLsbD j =
      if mode = 0 then !decide (j < n) && w.getLsbD (j - n)
      else if mode = 1 then w.getLsbD (n + j)
      else if mode = 2 then if n + j < 32 then w.getLsbD (n + j) else w.msb
      else w.getLsbD ((n + j) % 32) := by
  unfold shifted
  split_ifs with h0 h1 h2 hlt
  · rw [BitVec.getLsbD_shiftLeft, decide_eq_true hj, Bool.true_and]
  · rw [BitVec.getLsbD_ushiftRight]
  · rw [BitVec.getLsbD_sshiftRight, if_pos hlt, decide_eq_false (by omega), Bool.not_false,
      Bool.true_and]
  · rw [BitVec.getLsbD_sshiftRight, if_neg hlt, decide_eq_false (by omega), Bool.not_false,
      Bool.true_and]
  · rw [BitVec.getLsbD_rotateRight_of_lt hn]
    by_cases hlow : j < 32 - n
    · rw [decide_eq_true hlow, cond_true, Nat.mod_eq_of_lt (by omega)]
    · rw [decide_eq_false hlow, cond_false, decide_eq_true hj, Bool.true_and,
        show (n + j) % 32 = j - (32 - n) by omega]

theorem shiftGeneric_eq (w : TWord) (n : BitVec 5) (mode : BitVec 2) :
    shiftGeneric w n mode = shifted w n.toNat mode := by
  have hn : n.toNat % 32 = n.toNat := Nat.mod_eq_of_lt n.isLt
  simp only [shiftGeneric, shifted, BitVec.rotateRight, BitVec.rotateRightAux, hn]

theorem getLsbD_stage (c : Bool) {m s j : ℕ} (r : BitVec 64) (hj : j < m) (hm : m ≤ 64) :
    (stage c m s r).getLsbD j = r.getLsbD (j + if c then s else 0) := by
  cases c with
  | false => rfl
  | true =>
    have hj64 : j < 64 := Nat.lt_of_lt_of_le hj hm
    simp only [stage, if_true, BitVec.getLsbD_or, BitVec.getLsbD_shiftLeft,
      BitVec.getLsbD_setWidth, BitVec.getLsbD_extractLsb', decide_eq_true hj, decide_eq_true hj64,
      Bool.not_true, Bool.and_false, Bool.false_and, Bool.false_or, Bool.true_and, Nat.add_comm s j]

theorem toNat_bits (n : BitVec 5) : n.toNat =
    (if n.getLsbD 0 then 1 else 0) + ((if n.getLsbD 1 then 2 else 0) +
      ((if n.getLsbD 2 then 4 else 0) + ((if n.getLsbD 3 then 8 else 0) +
        (if n.getLsbD 4 then 16 else 0)))) := by
  revert n
  decide

/-- The stages shift the double word right by the count. -/
theorem getLsbD_stages (n : BitVec 5) (r : BitVec 64) {j : ℕ} (hj : j < 32) :
    (stage (n.getLsbD 0) 32 1 (stage (n.getLsbD 1) 34 2 (stage (n.getLsbD 2) 36 4
      (stage (n.getLsbD 3) 40 8 (stage (n.getLsbD 4) 48 16 r))))).getLsbD j =
      r.getLsbD (j + n.toNat) := by
  have hle : ∀ (c : Bool) (k : ℕ), (if c then k else 0) ≤ k := by
    intro c k
    split <;> omega
  have h0 := hle (n.getLsbD 0) 1
  have h1 := hle (n.getLsbD 1) 2
  have h2 := hle (n.getLsbD 2) 4
  have h3 := hle (n.getLsbD 3) 8
  rw [getLsbD_stage _ _ hj (by omega), getLsbD_stage _ _ (by omega) (by omega),
    getLsbD_stage _ _ (by omega) (by omega), getLsbD_stage _ _ (by omega) (by omega),
    getLsbD_stage _ _ (by omega) (by omega), toNat_bits n]
  simp only [Nat.add_assoc]

theorem shiftBarrell_eq (w : TWord) (n : BitVec 5) (mode : BitVec 2) :
    shiftBarrell w n mode = shifted w n.toNat mode := by
  have hn := n.isLt
  apply BitVec.eq_of_getLsbD_eq
  intro j hj
  rw [getLsbD_shifted hn mode hj, shiftBarrell, BitVec.getLsbD_setWidth, decide_eq_true hj,
    Bool.true_and, getLsbD_stages _ _ hj, BitVec.getLsbD_append]
  by_cases h0 : mode = 0
  · have hnot : (~~~ n).toNat = 31 - n.toNat := by
      rw [BitVec.toNat_not]
    rw [if_pos h0, if_pos h0, if_pos h0, if_pos h0, hnot]
    by_cases hlow : j + (31 - n.toNat) < 32
    · rw [if_pos hlow, BitVec.getLsbD_shiftLeft, decide_eq_true hlow, Bool.true_and]
      by_cases heq : j = n.toNat
      · rw [heq]
        simp [show n.toNat + (31 - n.toNat) = 31 by omega]
      · rw [decide_eq_true (show j < n.toNat by omega),
          decide_eq_true (show j + (31 - n.toNat) < 31 by omega)]
        rfl
    · rw [if_neg hlow, BitVec.getLsbD_ushiftRight, decide_eq_false (by omega), Bool.not_false,
        Bool.true_and, show 1 + (j + (31 - n.toNat) - 32) = j - n.toNat by omega]
  · rw [if_neg h0, if_neg h0, if_neg h0, if_neg h0]
    by_cases hlow : j + n.toNat < 32
    · rw [if_pos hlow, Nat.add_comm n.toNat j, if_pos hlow, Nat.mod_eq_of_lt hlow]
      split_ifs <;> rfl
    · rw [if_neg hlow, Nat.add_comm n.toNat j, if_neg hlow]
      have hlt : j + n.toNat - 32 < 32 := by omega
      have hmode : mode = 1 ∨ mode = 2 ∨ mode = 3 := by
        revert h0 mode
        decide
      rcases hmode with rfl | rfl | rfl
      · simp [BitVec.getLsbD_of_ge w (j + n.toNat) (by omega)]
      · cases w.msb with
        | false => exact BitVec.getLsbD_zero
        | true => exact BitVec.getLsbD_allOnes.trans (decide_eq_true hlt)
      · simp [show (j + n.toNat) % 32 = j + n.toNat - 32 by omega]

/-- What the combinational shifters deliver. -/
theorem out_dout (h : impl ≠ 0) : (out impl r i).dout = shifted i.value i.cnt.toNat i.mode := by
  rw [out, if_neg h]
  split
  · exact shiftGeneric_eq _ _ _
  · exact shiftBarrell_eq _ _ _

theorem rotateRight_succ (w : TWord) {n : ℕ} (hn : n + 1 < 32) :
    w.rotateRight (n + 1) = (w.rotateRight n).rotateRight 1 := by
  have hbits : ∀ {w : TWord} {n : ℕ}, n < 32 → ∀ {j : ℕ}, j < 32 →
      (w.rotateRight n).getLsbD j = w.getLsbD ((n + j) % 32) := fun hn _ hj =>
    (getLsbD_shifted hn 3 hj)
  apply BitVec.eq_of_getLsbD_eq
  intro j hj
  rw [hbits hn hj, hbits (by decide) hj, hbits (by omega) (Nat.mod_lt _ (by decide))]
  congr 1
  omega

/-- `n + 1` shifts are `n` shifts and one more. -/
theorem shifted_succ (w : TWord) {n : ℕ} (hn : n + 1 < 32) (mode : BitVec 2) :
    shifted w (n + 1) mode = shifted (shifted w n mode) 1 mode := by
  unfold shifted
  split_ifs
  · exact BitVec.shiftLeft_add w n 1
  · exact BitVec.shiftRight_add w n 1
  · exact BitVec.sshiftRight_add
  · exact rotateRight_succ w hn

theorem shifted_zero (w : TWord) (mode : BitVec 2) : shifted w 0 mode = w := by
  apply BitVec.eq_of_getLsbD_eq
  intro j hj
  rw [getLsbD_shifted (by decide) mode hj, Nat.zero_add, if_pos hj, Nat.mod_eq_of_lt hj, ite_self,
    ite_self, Nat.sub_zero]
  simp

end Shift

-- ---------------------------------------------------------------------------
-- Multiplier
-- ---------------------------------------------------------------------------

/-- `mul_in_type` -/
structure MulIn where
  a : TWord
  b : TWord
  start : Bool
  signed : Bool

/-- `mul_out_type` -/
structure MulOut where
  p : TWord
  rdy : Bool

namespace Mul

structure Registers where
  /-- `S_MUL_CNT` -/
  counting : Bool
  mulCnt : ℕ
  /-- `pipe_regs` of the pipelined multiplier -/
  pipeRegs : ℕ → BitVec 64

variable (stages : ℕ) (r : Registers) (i : MulIn)

def multRes : BitVec 64 :=
  if i.signed then i.a.signExtend 64 * i.b.signExtend 64 else i.a.setWidth 64 * i.b.setWidth 64

def out : MulOut where
  p := (r.pipeRegs (stages - 1)).setWidth 32
  rdy := r.counting && r.mulCnt == stages

/-- The counter is `log2x(stages + 1)` bits wide, so it counts up to `stages`. -/
def next : Registers where
  counting := if r.counting then r.mulCnt != stages else i.start
  mulCnt :=
    if r.counting then if r.mulCnt = stages then 0 else r.mulCnt + 1
    else if i.start then r.mulCnt + 1 else r.mulCnt
  pipeRegs n := if n = 0 then multRes i else r.pipeRegs (n - 1)

variable {i}

/-- The lower half of the product does not depend on the signs. -/
theorem multRes_low : (multRes i).setWidth 32 = i.a * i.b := by
  have hsign : ∀ w : TWord, (w.signExtend 64).setWidth 32 = w := by
    intro w
    apply BitVec.eq_of_getLsbD_eq
    intro j hj
    rw [BitVec.getLsbD_setWidth, BitVec.getLsbD_signExtend, if_pos hj, decide_eq_true hj,
      decide_eq_true (Nat.lt_trans hj (by decide))]
    rfl
  unfold multRes
  split
  · rw [BitVec.setWidth_mul _ _ (by decide), hsign, hsign]
  · rw [BitVec.setWidth_mul _ _ (by decide), BitVec.setWidth_setWidth_of_le _ (by decide),
      BitVec.setWidth_setWidth_of_le _ (by decide), BitVec.setWidth_eq, BitVec.setWidth_eq]

end Mul

end ParaNut.Exu
