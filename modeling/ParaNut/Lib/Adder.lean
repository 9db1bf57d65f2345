import Mathlib.Data.BitVec
import Mathlib.Data.Nat.Notation
import Mathlib.Tactic.SplitIfs

/-!
# One adder for sums, differences and comparisons

A machine adds two words and a carry with one bit more than the words have,
and subtracts by adding the complement and one. Carry, borrow, overflow and
the ten relations of two words are read off that sum and the signs.
-/

namespace ParaNut.Lib.Adder

variable {w : ℕ}

/-- The sum of two words and a carry, one bit wider. -/
def sum (x y : BitVec w) (c : Bool) : BitVec (w + 1) :=
  x.setWidth (w + 1) + y.setWidth (w + 1) + (BitVec.ofBool c).setWidth (w + 1)

/-- What fits a signed word. -/
def Fits (w : ℕ) (z : ℤ) : Prop := -((2 ^ (w - 1) : ℕ) : ℤ) ≤ z ∧ z < ((2 ^ (w - 1) : ℕ) : ℤ)

instance (w : ℕ) (z : ℤ) : Decidable (Fits w z) := inferInstanceAs (Decidable (_ ∧ _))

/-- A result with carry (or borrow) and overflow. -/
structure Result (w : ℕ) where
  res : BitVec w
  cy : Bool
  ov : Bool
  deriving DecidableEq

/-- What an addition means. -/
def added (x y : BitVec w) (c : Bool) : Result w where
  res := BitVec.ofNat w (x.toNat + y.toNat + c.toNat)
  cy := decide (2 ^ w ≤ x.toNat + y.toNat + c.toNat)
  ov := !decide (Fits w (x.toInt + y.toInt + c.toNat))

/-- What a subtraction means. -/
def subtracted (x y : BitVec w) : Result w where
  res := x - y
  cy := decide (x.toNat < y.toNat)
  ov := !decide (Fits w (x.toInt - y.toInt))

/-- Addition without and with the carry, and subtraction. -/
inductive Op
  | add
  | adc
  | sub
  deriving DecidableEq

def Op.exact (op : Op) (x y : BitVec w) (c : Bool) : Result w :=
  match op with
  | .add => added x y false
  | .adc => added x y c
  | .sub => subtracted x y

-- ---------------------------------------------------------------------------
-- The sum
-- ---------------------------------------------------------------------------

theorem toNat_sum (x y : BitVec w) (c : Bool) :
    (sum x y c).toNat = x.toNat + y.toNat + c.toNat := by
  have hx := x.isLt
  have hy := y.isLt
  have hc := Bool.toNat_le c
  have hpow : 2 ^ (w + 1) = 2 ^ w + 2 ^ w := by rw [Nat.pow_succ, Nat.mul_two]
  have hlt : x.toNat + y.toNat + c.toNat < 2 ^ (w + 1) := by omega
  simp only [sum, BitVec.toNat_add, BitVec.toNat_setWidth, BitVec.toNat_ofBool, Nat.add_mod_mod,
    Nat.mod_add_mod]
  exact Nat.mod_eq_of_lt hlt

theorem sum_low (x y : BitVec w) (c : Bool) :
    (sum x y c).setWidth w = BitVec.ofNat w (x.toNat + y.toNat + c.toNat) := by
  rw [← toNat_sum, BitVec.ofNat_toNat]

theorem sum_carry (x y : BitVec w) (c : Bool) :
    (sum x y c).getLsbD w = decide (2 ^ w ≤ x.toNat + y.toNat + c.toNat) :=
  (BitVec.getLsbD_last _).trans (by rw [toNat_sum, Nat.add_sub_cancel])

/-- A difference is the sum with the complement and one. -/
theorem toNat_sum_not (x y : BitVec w) :
    x.toNat + (~~~y).toNat + true.toNat = x.toNat + (2 ^ w - y.toNat) := by
  have hy := y.isLt
  rw [BitVec.toNat_not, Bool.toNat_true]
  omega

theorem sum_not_low (x y : BitVec w) : (sum x (~~~y) true).setWidth w = x - y := by
  rw [sum_low, toNat_sum_not]
  apply BitVec.eq_of_toNat_eq
  rw [BitVec.toNat_ofNat, BitVec.toNat_sub, Nat.add_comm]

/-- The carry of a difference is the complement of the borrow. -/
theorem sum_not_carry (x y : BitVec w) :
    (sum x (~~~y) true).getLsbD w = !decide (x.toNat < y.toNat) := by
  have hy := y.isLt
  rw [sum_carry, toNat_sum_not, ← decide_not]
  exact decide_eq_decide.mpr (by omega)

-- ---------------------------------------------------------------------------
-- A sum with the carry it produces
-- ---------------------------------------------------------------------------

/-- A second sum with the produced carry produces it again. -/
theorem added_cy_again (x y : BitVec w) (c : Bool) :
    (added x y (added x y c).cy).cy = (added x y c).cy := by
  change decide (2 ^ w ≤ x.toNat + y.toNat + (decide (2 ^ w ≤ x.toNat + y.toNat + c.toNat)).toNat) =
    decide (2 ^ w ≤ x.toNat + y.toNat + c.toNat)
  apply decide_eq_decide.mpr
  have hc := Bool.toNat_le c
  by_cases h : 2 ^ w ≤ x.toNat + y.toNat + c.toNat
  · rw [decide_eq_true h, Bool.toNat_true]
    omega
  · rw [decide_eq_false h, Bool.toNat_false]
    omega

theorem added_res (x y : BitVec w) (c : Bool) :
    (added x y c).res = x + y + BitVec.ofNat w c.toNat := by
  change BitVec.ofNat w _ = _
  rw [BitVec.ofNat_add, BitVec.ofNat_add, BitVec.ofNat_toNat, BitVec.ofNat_toNat,
    BitVec.setWidth_eq, BitVec.setWidth_eq]

theorem added_res_inj (hw : 0 < w) (x y : BitVec w) {c c' : Bool}
    (h : (added x y c).res = (added x y c').res) : c = c' := by
  have hpow : 1 < 2 ^ w := Nat.one_lt_two_pow (Nat.pos_iff_ne_zero.mp hw)
  rw [added_res, added_res, BitVec.add_right_inj] at h
  have hnat := congrArg BitVec.toNat h
  have hc := Bool.toNat_le c
  have hc' := Bool.toNat_le c'
  rw [BitVec.toNat_ofNat, BitVec.toNat_ofNat, Nat.mod_eq_of_lt (by omega),
    Nat.mod_eq_of_lt (by omega)] at hnat
  cases c <;> cases c' <;> first | rfl | cases hnat

/-- The overflow depends on the carry only next to a limit. -/
theorem added_ov_not (x y : BitVec w) (c : Bool) : (added x y (!c)).ov = (added x y c).ov ↔
    x.toInt + y.toInt ≠ ((2 ^ (w - 1) : ℕ) : ℤ) - 1 ∧
      x.toInt + y.toInt ≠ -((2 ^ (w - 1) : ℕ) : ℤ) - 1 := by
  have hov : ∀ c, (added x y c).ov = !decide (Fits w (x.toInt + y.toInt + c.toNat)) := fun _ => rfl
  have hpos : 0 < 2 ^ (w - 1) := Nat.two_pow_pos _
  rw [hov, hov, Bool.not_inj_iff, decide_eq_decide, Fits, Fits]
  cases c
  · rw [Bool.not_false, Bool.toNat_true, Bool.toNat_false]
    omega
  · rw [Bool.not_true, Bool.toNat_true, Bool.toNat_false]
    omega

-- ---------------------------------------------------------------------------
-- Overflow from the signs
-- ---------------------------------------------------------------------------

section Signs

variable (hw : 0 < w) (x y : BitVec w)

theorem two_pow_eq (hw : 0 < w) : 2 ^ w = 2 * 2 ^ (w - 1) := by
  rw [← Nat.pow_succ', Nat.succ_eq_add_one, Nat.sub_add_cancel hw]

include hw in
/-- Sign and value of a word, with `2 ^ (w - 1)` as the only power. -/
theorem sign_cases : (x.msb = true ∧ 2 ^ (w - 1) ≤ x.toNat ∧ x.toNat < 2 * 2 ^ (w - 1) ∧
      x.toInt = x.toNat - 2 * ((2 ^ (w - 1) : ℕ) : ℤ)) ∨
    (x.msb = false ∧ x.toNat < 2 ^ (w - 1) ∧ x.toInt = x.toNat) := by
  have hx := x.isLt
  have hpow := two_pow_eq hw
  have hmsb := BitVec.msb_eq_decide x
  have hint := BitVec.toInt_eq_msb_cond x
  rw [hpow] at hx hint
  cases hm : x.msb with
  | true =>
    rw [hm] at hmsb hint
    exact .inl ⟨rfl, of_decide_eq_true hmsb.symm, hx, by simpa using hint⟩
  | false =>
    rw [hm] at hmsb hint
    exact .inr ⟨rfl, by simpa using hmsb.symm, by simpa using hint⟩

theorem mod_cases {n m : ℕ} (h : n < 2 * m) :
    (n < m ∧ n % m = n) ∨ (m ≤ n ∧ n % m = n - m) := by
  rcases Nat.lt_or_ge n m with hlt | hge
  · exact .inl ⟨hlt, Nat.mod_eq_of_lt hlt⟩
  · refine .inr ⟨hge, ?_⟩
    rw [Nat.mod_eq_sub_mod hge, Nat.mod_eq_of_lt (by omega)]

include hw in
/-- A sum overflows if the operands have the same sign and the result has not. -/
theorem added_ov (c : Bool) : (added x y c).ov =
    ((x.msb && y.msb && !(added x y c).res.msb) ||
      (!x.msb && !y.msb && (added x y c).res.msb)) := by
  have hpow := two_pow_eq hw
  have hc := Bool.toNat_le c
  have hres : (added x y c).res.toNat = (x.toNat + y.toNat + c.toNat) % 2 ^ w :=
    BitVec.toNat_ofNat _ _
  have hmod := mod_cases (n := x.toNat + y.toNat + c.toNat) (m := 2 ^ w)
    (by have := x.isLt; have := y.isLt; omega)
  apply Bool.eq_iff_iff.mpr
  change (!decide (Fits w (x.toInt + y.toInt + c.toNat))) = true ↔ _
  rw [Bool.not_eq_true', decide_eq_false_iff_not, Fits]
  rw [← hres, hpow] at hmod
  rcases sign_cases hw x with ⟨hx, hxl, hxu, hxi⟩ | ⟨hx, hxu, hxi⟩ <;>
    rcases sign_cases hw y with ⟨hy, hyl, hyu, hyi⟩ | ⟨hy, hyu, hyi⟩ <;>
    rcases sign_cases hw (added x y c).res with ⟨hr, hrl, hru, -⟩ | ⟨hr, hru, -⟩ <;>
    simp only [hx, hy, hr, Bool.not_true, Bool.not_false, Bool.and_true, Bool.and_false,
      Bool.or_false, Bool.false_or, Bool.false_eq_true, iff_true, iff_false] <;>
    omega

include hw in
/-- A difference overflows if the operands differ in sign and the result has not that of the
first. -/
theorem subtracted_ov : (subtracted x y).ov =
    ((!x.msb && y.msb && (subtracted x y).res.msb) ||
      (x.msb && !y.msb && !(subtracted x y).res.msb)) := by
  have hpow := two_pow_eq hw
  have hres : (subtracted x y).res.toNat = (2 ^ w - y.toNat + x.toNat) % 2 ^ w :=
    BitVec.toNat_sub _ _
  have hmod := mod_cases (n := 2 ^ w - y.toNat + x.toNat) (m := 2 ^ w)
    (by have := x.isLt; have := y.isLt; omega)
  apply Bool.eq_iff_iff.mpr
  change (!decide (Fits w (x.toInt - y.toInt))) = true ↔ _
  rw [Bool.not_eq_true', decide_eq_false_iff_not, Fits]
  rw [← hres, hpow] at hmod
  rcases sign_cases hw x with ⟨hx, hxl, hxu, hxi⟩ | ⟨hx, hxu, hxi⟩ <;>
    rcases sign_cases hw y with ⟨hy, hyl, hyu, hyi⟩ | ⟨hy, hyu, hyi⟩ <;>
    rcases sign_cases hw (subtracted x y).res with ⟨hr, hrl, hru, -⟩ | ⟨hr, hru, -⟩ <;>
    simp only [hx, hy, hr, Bool.not_true, Bool.not_false, Bool.and_true, Bool.and_false,
      Bool.or_false, Bool.false_or, Bool.false_eq_true, iff_true, iff_false] <;>
    omega

include hw in
/-- Adding the negated word overflows as subtracting it does, but for the least word, which is its
own negation. -/
theorem added_neg_ov : (added x (-y) false).ov =
    if y = BitVec.intMin w then !(subtracted x y).ov else (subtracted x y).ov := by
  have hadd : (added x (-y) false).ov = !decide (Fits w (x.toInt + (-y).toInt)) := by
    rw [← Int.add_zero (x.toInt + (-y).toInt)]
    rfl
  have hsub : (subtracted x y).ov = !decide (Fits w (x.toInt - y.toInt)) := rfl
  rw [hadd, hsub, BitVec.toInt_neg_eq_ite]
  split_ifs with hy
  · have hmin : y.toInt = -((2 ^ (w - 1) : ℕ) : ℤ) := by
      rw [hy, BitVec.toInt_intMin_of_pos hw]
      simp
    rw [Bool.not_inj_iff, ← decide_not]
    apply decide_eq_decide.mpr
    rw [Fits, Fits, hmin]
    rcases sign_cases hw x with ⟨-, hl, hu, hx⟩ | ⟨-, hu, hx⟩ <;> omega
  · rw [Int.sub_eq_add_neg]

include hw in
/-- A signed comparison from the borrow and the signs. -/
theorem toInt_lt_eq : decide (x.toInt < y.toInt) =
    ((decide (x.toNat < y.toNat) && !(x.msb ^^ y.msb)) || (x.msb && !y.msb)) := by
  rcases sign_cases hw x with ⟨hx, hxl, hxu, hxi⟩ | ⟨hx, hxu, hxi⟩ <;>
    rcases sign_cases hw y with ⟨hy, hyl, hyu, hyi⟩ | ⟨hy, hyu, hyi⟩ <;>
    simp only [hx, hy, hxi, hyi, Bool.not_true, Bool.not_false, Bool.and_true, Bool.and_false,
      Bool.or_false, Bool.or_true, Bool.xor_self, Bool.xor_true, Bool.xor_false, decide_eq_decide,
      decide_eq_true_eq, decide_eq_false_iff_not] <;>
    omega

end Signs

-- ---------------------------------------------------------------------------
-- Relations
-- ---------------------------------------------------------------------------

/-- The relations of two words, unsigned and signed. -/
inductive Relation
  | eq
  | ne
  | gtu
  | geu
  | ltu
  | leu
  | gts
  | ges
  | lts
  | les
  deriving DecidableEq

def Relation.holds (rel : Relation) (x y : BitVec w) : Bool :=
  match rel with
  | .eq => x == y
  | .ne => x != y
  | .gtu => y.toNat < x.toNat
  | .geu => y.toNat ≤ x.toNat
  | .ltu => x.toNat < y.toNat
  | .leu => x.toNat ≤ y.toNat
  | .gts => y.toInt < x.toInt
  | .ges => y.toInt ≤ x.toInt
  | .lts => x.toInt < y.toInt
  | .les => x.toInt ≤ y.toInt

/-- The relation from a test for zero and one for "less than". -/
def Relation.ofTests (rel : Relation) (zero lt : Bool) : Bool :=
  match rel with
  | .eq => zero
  | .ne => !zero
  | .ltu | .lts => lt
  | .leu | .les => lt ^^ zero
  | .gtu | .gts => !lt ^^ zero
  | .geu | .ges => !lt

def Relation.signed : Relation → Bool
  | .gts | .ges | .lts | .les => true
  | _ => false

/-- The tests, made on the difference. -/
def zeroTest (x y : BitVec w) : Bool := (x - y == 0#w)

def lessTest (signed : Bool) (x y : BitVec w) : Bool :=
  if signed then x.toInt < y.toInt else x.toNat < y.toNat

theorem zeroTest_eq (x y : BitVec w) : zeroTest x y = decide (x = y) := by
  apply Bool.eq_iff_iff.mpr
  rw [zeroTest, beq_iff_eq, decide_eq_true_iff]
  constructor
  · intro h
    rw [BitVec.sub_eq_iff_eq_add.mp h, BitVec.zero_add]
  · rintro rfl
    exact BitVec.sub_self x

theorem Relation.holds_eq (rel : Relation) (x y : BitVec w) :
    rel.holds x y = rel.ofTests (zeroTest x y) (lessTest rel.signed x y) := by
  rw [zeroTest_eq]
  by_cases heq : x = y
  · subst heq
    cases rel <;> simp [holds, ofTests, lessTest, signed]
  · have hnat : x.toNat ≠ y.toNat := fun h => heq (BitVec.eq_of_toNat_eq h)
    have hint : x.toInt ≠ y.toInt := fun h => heq (BitVec.eq_of_toInt_eq h)
    rcases Nat.lt_or_gt_of_ne hnat with hn | hn <;>
      rcases Int.lt_or_gt_of_ne hint with hi | hi <;>
      cases rel <;>
      simp [holds, ofTests, lessTest, signed, heq, hn, hi, Nat.le_of_lt, Int.le_of_lt,
        Nat.not_lt_of_gt, Nat.not_le_of_gt, Int.not_le_of_gt]

end ParaNut.Lib.Adder
