import ParaNut.Exu.Pipeline
import ParaNut.Lib.Adder

/-!
# Additions and subtractions in the execute stage (`mexu.vhd`)

One evaluation of `run_alu` is exact. An instruction is evaluated in every
cycle it spends in the execute stage, though, each time with the carry the
evaluation before has set: its flags are those of the last evaluation, and
its result is that of the last but one.
-/

namespace ParaNut.Mexu

open Exu (op1)
open Lib.Adder (Op Result added subtracted)

/-- `AF_ADD`, `AF_ADC`, `AF_SUB` -/
def aluFuncOf : Op → BitVec 5
  | .add => 0
  | .adc => 1
  | .sub => 2

/-- Result and flags of one evaluation of `run_alu`. -/
def evaluated (c : Config) (d : DecodeReg) (sr : TWord) : Result 32 where
  res := aluRes c d sr
  cy := (aluFlags c d sr sr).getLsbD cy
  ov := (aluFlags c d sr sr).getLsbD ov

-- ---------------------------------------------------------------------------
-- One evaluation
-- ---------------------------------------------------------------------------

section Once

variable {d : DecodeReg} {sr : TWord}

theorem addFunc_of {op : Op} (hop : d.aluFunc = aluFuncOf op) : addFunc d = true := by
  cases op <;> simp [addFunc, hop, aluFuncOf]

theorem evaluated_eq (c : Config) (hadd : addFunc d = true) (hset : d.exSetCyOv = true) :
    evaluated c d sr = ⟨(resAdd d sr).setWidth 32, outCy d sr, outOv d sr⟩ := by
  have hflag : ∀ v, ∀ n ≠ flag, (if d.exSetF then setBit v flag (outF c d sr) else v).getLsbD n =
      v.getLsbD n := by
    intro v n hn
    split
    · rw [getLsbD_setBit _ (by decide), if_neg hn]
    · rfl
  simp only [evaluated, aluRes, aluFlags, hadd, hset, Bool.and_true, if_true]
  rw [hflag _ cy (by decide), hflag _ ov (by decide), getLsbD_setBit _ (by decide),
    getLsbD_setBit _ (by decide), getLsbD_setBit _ (by decide)]
  rfl

theorem getLsbD_resAdd_low : (resAdd d sr).getLsbD 31 = ((resAdd d sr).setWidth 32).msb := by
  rw [BitVec.msb_eq_getLsbD_last, BitVec.getLsbD_setWidth]
  rfl

/-- `AF_ADD` and `AF_ADC` -/
theorem result_added {carry : Bool} (hsub : d.aluFunc ≠ 2)
    (hcin : (if d.aluFunc = 1 then sr.getLsbD cy else decide (d.aluFunc = 2)) = carry) :
    (⟨(resAdd d sr).setWidth 32, outCy d sr, outOv d sr⟩ : Result 32) =
      added d.aluIn1 d.aluIn2 carry := by
  have hres : resAdd d sr = Lib.Adder.sum d.aluIn1 d.aluIn2 carry := by
    simp only [resAdd, if_neg hsub, hcin]
    rfl
  have hlow : (resAdd d sr).setWidth 32 = (added d.aluIn1 d.aluIn2 carry).res := by
    rw [hres, Lib.Adder.sum_low]
    rfl
  have hcy : outCy d sr = (added d.aluIn1 d.aluIn2 carry).cy := by
    rw [outCy, if_neg hsub, hres, Lib.Adder.sum_carry]
    rfl
  have hov : outOv d sr = (added d.aluIn1 d.aluIn2 carry).ov := by
    simp only [outOv, if_neg hsub, getLsbD_resAdd_low, hlow]
    exact (Lib.Adder.added_ov (by decide) _ _ _).symm
  rw [hlow, hcy, hov]

/-- `AF_SUB` -/
theorem result_subtracted (hsub : d.aluFunc = 2) :
    (⟨(resAdd d sr).setWidth 32, outCy d sr, outOv d sr⟩ : Result 32) =
      subtracted d.aluIn1 d.aluIn2 := by
  have hres : resAdd d sr = Lib.Adder.sum d.aluIn1 (~~~ d.aluIn2) true := by
    simp only [resAdd, hsub, if_true]
    rfl
  have hlow : (resAdd d sr).setWidth 32 = (subtracted d.aluIn1 d.aluIn2).res := by
    rw [hres, Lib.Adder.sum_not_low]
    rfl
  have hcy : outCy d sr = (subtracted d.aluIn1 d.aluIn2).cy := by
    rw [outCy, if_pos hsub, hres, Lib.Adder.sum_not_carry, Bool.not_not]
    rfl
  have hov : outOv d sr = (subtracted d.aluIn1 d.aluIn2).ov := by
    simp only [outOv, if_pos hsub, getLsbD_resAdd_low, hlow]
    exact (Lib.Adder.subtracted_ov (by decide) _ _).symm
  rw [hlow, hcy, hov]

/-- One evaluation is exact for the carry it finds. -/
theorem evaluated_exact (c : Config) {op : Op} (hop : d.aluFunc = aluFuncOf op)
    (hset : d.exSetCyOv = true) :
    evaluated c d sr = op.exact d.aluIn1 d.aluIn2 (sr.getLsbD cy) := by
  rw [evaluated_eq c (addFunc_of hop) hset]
  cases op with
  | add => exact result_added (by simp [hop, aluFuncOf]) (by simp [hop, aluFuncOf])
  | adc => exact result_added (by simp [hop, aluFuncOf]) (by simp [hop, aluFuncOf])
  | sub => exact result_subtracted hop

end Once

-- ---------------------------------------------------------------------------
-- Decoding
-- ---------------------------------------------------------------------------

/-- `l.add`, `l.addc`, `l.sub`, `l.addi` and `l.addic` -/
def addSubOp (ir : TWord) : Option Op :=
  if op1 ir = 0b111000#6 then
    if ir.extractLsb' 0 4 = 0b0000#4 then some .add
    else if ir.extractLsb' 0 4 = 0b0001#4 then some .adc
    else if ir.extractLsb' 0 4 = 0b0010#4 then some .sub
    else none
  else if op1 ir = 0b100111#6 then some .add
  else if op1 ir = 0b101000#6 then some .adc
  else none

/-- How such an instruction is executed. -/
structure AddSub (d : DecodeReg) (op : Op) (rd : BitVec 5) : Prop where
  exOp : d.exOp = .alu
  aluFunc : d.aluFunc = aluFuncOf op
  setCyOv : d.exSetCyOv = true
  resSel : d.exResSel = .alu
  setRegD : d.wbSetRegD = true
  wdataSel : d.wbWdataSel = .exRes
  jumpLinked : d.wbJumpLinked = false
  rselD : d.wbRselD = rd

theorem addSubOp_cases {ir : TWord} {op : Op} (h : addSubOp ir = some op) :
    (op1 ir = 0b111000#6 ∧ (ir.extractLsb' 0 4).setWidth 5 = aluFuncOf op ∧
      ir.extractLsb' 0 4 ∉ [0b1011#4, 0b0110#4, 0b1000#4]) ∨
    (op1 ir = 0b100111#6 ∧ op = .add) ∨ (op1 ir = 0b101000#6 ∧ op = .adc) := by
  unfold addSubOp at h
  split_ifs at h with halu h0 h1 h2 hi hic
  · cases h
    exact .inl ⟨halu, by rw [h0]; rfl, by rw [h0]; decide⟩
  · cases h
    exact .inl ⟨halu, by rw [h1]; rfl, by rw [h1]; decide⟩
  · cases h
    exact .inl ⟨halu, by rw [h2]; rfl, by rw [h2]; decide⟩
  · cases h
    exact .inr (.inl ⟨hi, rfl⟩)
  · cases h
    exact .inr (.inr ⟨hic, rfl⟩)

/-- The decoder's choice for them. -/
theorem decodeOp_addSub {ir : TWord} {op : Op} (h : addSubOp ir = some op) (sr : TWord) :
    AddSub (decodeOp ir sr).d op (ir.extractLsb' 21 5) ∧
      (decodeOp ir sr).rselA = ir.extractLsb' 16 5 ∧
      (decodeOp ir sr).rselB = ir.extractLsb' 11 5 ∧ (decodeOp ir sr).aluSrcA = true ∧
      (decodeOp ir sr).aluSrcB = if op1 ir = 0b111000#6 then .reg else .imm16s := by
  rcases addSubOp_cases h with ⟨halu, hfunc, hother⟩ | ⟨hop, rfl⟩ | ⟨hop, rfl⟩
  · simp only [List.mem_cons, List.not_mem_nil, or_false, not_or] at hother
    obtain ⟨hmulu, hmul, hshift⟩ := hother
    simp only [decodeOp, halu, if_true, if_neg hmulu, if_neg hmul, if_neg hshift, true_and]
    exact ⟨⟨rfl, hfunc, rfl, rfl, rfl, rfl, rfl, rfl⟩, rfl, rfl⟩
  · rw [decodeOp, hop]
    exact ⟨⟨rfl, rfl, rfl, rfl, rfl, rfl, rfl, rfl⟩, rfl, rfl, rfl, rfl⟩
  · rw [decodeOp, hop]
    exact ⟨⟨rfl, rfl, rfl, rfl, rfl, rfl, rfl, rfl⟩, rfl, rfl, rfl, rfl⟩

-- ---------------------------------------------------------------------------
-- Every cycle in the execute stage
-- ---------------------------------------------------------------------------

/-- The carry found by the evaluation in cycle `k` of the instruction. -/
def carryAt (op : Op) (a b : TWord) (cin : Bool) : ℕ → Bool
  | 0 => cin
  | k + 1 => (op.exact a b (carryAt op a b cin k)).cy

/-- Result and flags the instruction leaves after `n` stalled cycles. -/
def left (op : Op) (a b : TWord) (cin : Bool) (n : ℕ) : Result 32 where
  res := (op.exact a b (carryAt op a b cin n)).res
  cy := (op.exact a b (carryAt op a b cin (n + 1))).cy
  ov := (op.exact a b (carryAt op a b cin (n + 1))).ov

section Cycle

variable {c : Config} {s : State} {i : In} {d : DecodeReg} {op : Op} {rd : BitVec 5}
  {cin : Bool}

/-- The instruction has not been finished, and the evaluations found the carry `cin`. -/
structure Executing (d : DecodeReg) (cin : Bool) (s : State) : Prop where
  decode : s.r.d = d
  carry : s.spr.sr.getLsbD cy = cin

theorem aluFlags_addSub (h : AddSub d op rd) (sr vs : TWord) {n : ℕ} (hn : n = cy ∨ n = ov) :
    (aluFlags c d sr vs).getLsbD n = (aluFlags c d sr sr).getLsbD n := by
  have hf : n ≠ flag := by rcases hn with rfl | rfl <;> decide
  have hset : ∀ v w, (if d.exSetF then setBit v flag w else v).getLsbD n = v.getLsbD n := by
    intro v w
    split
    · rw [getLsbD_setBit _ (by decide), if_neg hf]
    · rfl
  simp only [aluFlags, h.setCyOv, addFunc_of h.aluFunc, Bool.and_true, if_true, hset,
    getLsbD_setBit _ (show ov < 32 by decide), getLsbD_setBit _ (show cy < 32 by decide)]
  rcases hn with rfl | rfl <;> rfl

/-- The evaluation in a cycle, with the carry found in it. -/
theorem Executing.evaluated (h : Executing d cin s) (ha : AddSub d op rd) :
    evaluated c s.r.d s.spr.sr = op.exact d.aluIn1 d.aluIn2 cin := by
  have ha' : AddSub s.r.d op rd := h.decode ▸ ha
  rw [evaluated_exact c ha'.aluFunc ha'.setCyOv, h.decode, h.carry]

/-- What a cycle leaves in the supervision register is what it evaluates. -/
theorem nextSpr_addSub (ha : AddSub s.r.d op rd) {n : ℕ} (hn : n = cy ∨ n = ov) :
    (step c s i).spr.sr.getLsbD n = (aluFlags c s.r.d s.spr.sr s.spr.sr).getLsbD n :=
  aluFlags_addSub ha _ _ hn

theorem wbResult_addSub (ha : AddSub s.r.d op rd) :
    (step c s i).r.e.wbResult = (Mexu.evaluated c s.r.d s.spr.sr).res := by
  simp only [step, next, exResult, ha.resSel]
  rfl

/-- A cycle of `S_EX_INIT`, stalled or not. -/
theorem Executing.step_init (h : Executing d cin s) (ha : AddSub d op rd)
    (hs : s.r.e.state = .init) :
    Executing d (op.exact d.aluIn1 d.aluIn2 cin).cy (step c s i) ∧
      (step c s i).r.e.wbResult = (op.exact d.aluIn1 d.aluIn2 cin).res ∧
      (step c s i).r.e.state = if i.duStall then .init else .aluWb := by
  have ha' : AddSub s.r.d op rd := h.decode ▸ ha
  have heval := h.evaluated (c := c) ha
  have hn : exNexti s.r i = false := by simp [exNexti, hs, ha'.exOp]
  refine ⟨⟨?_, ?_⟩, ?_, ?_⟩
  · simp only [step, next, hn, Bool.false_eq_true, if_false, h.decode]
  · rw [nextSpr_addSub ha' (.inl rfl), ← heval]
    rfl
  · rw [wbResult_addSub ha', heval]
  · simp only [step, next, nextState, hs, ha'.exOp]

/-- The cycle of `S_EX_ALU_WB`: the result goes to the register, and the flags are set again. -/
theorem Executing.step_wb (h : Executing d cin s) (ha : AddSub d op rd)
    (hs : s.r.e.state = .aluWb) :
    (step c s i).rf rd = s.r.e.wbResult ∧
      (step c s i).spr.sr.getLsbD cy = (op.exact d.aluIn1 d.aluIn2 cin).cy ∧
      (step c s i).spr.sr.getLsbD ov = (op.exact d.aluIn1 d.aluIn2 cin).ov := by
  have ha' : AddSub s.r.d op rd := h.decode ▸ ha
  have heval := h.evaluated (c := c) ha
  refine ⟨?_, ?_, ?_⟩
  · simp [step, rfi, exRfWrite, hs, ha'.setRegD, ha'.jumpLinked, ha'.rselD, ha'.wdataSel]
  · rw [nextSpr_addSub ha' (.inl rfl), ← heval]
    rfl
  · rw [nextSpr_addSub ha' (.inr rfl), ← heval]
    rfl

/-- The instruction that is offered goes to the execute stage. -/
def takes (s : State) (i : In) : Bool := exNexti s.r i && !idNextiInvalid s.r s.spr i

/-- A register as the next instruction reads it. -/
def readReg (s : State) (n : BitVec 5) : TWord := if n = 0 then 0 else s.rf n

/-- The second operand of an addition or subtraction. -/
def addSubOperand (s : State) (ir : TWord) : TWord :=
  if op1 ir = 0b111000#6 then readReg s (ir.extractLsb' 11 5) else (ir.extractLsb' 0 16).signExtend 32

theorem nextState_of_exNexti {shfto : Exu.ShiftOut} {mulo : Exu.MulOut}
    (h : exNexti s.r i = true) : nextState c s.r i shfto mulo = .init := by
  unfold exNexti at h
  cases hs : s.r.e.state with
  | init =>
    rw [hs] at h
    simp only [Bool.and_eq_true, Bool.not_eq_true', beq_iff_eq] at h
    simp [nextState, hs, h.1.1, h.1.2]
  | aluWb | loadMem | lsWb | jump | mulWb | shiftWb | sprWb2 | rfe => simp [nextState, hs]
  | lsMemStall | cacheInvalidate1 | cacheInvalidate2 | shiftStall | mulStall | sprWb1 =>
    rw [hs] at h
    cases h

/-- In the next cycle it is in the execute stage with its operands. -/
theorem step_takes (h : takes s i = true) (hop : addSubOp i.ifuo.ir = some op) :
    (step c s i).r.e.state = .init ∧
      AddSub (step c s i).r.d op (i.ifuo.ir.extractLsb' 21 5) ∧
      (step c s i).r.d.aluIn1 = readReg (step c s i) (i.ifuo.ir.extractLsb' 16 5) ∧
      (step c s i).r.d.aluIn2 = addSubOperand (step c s i) i.ifuo.ir := by
  obtain ⟨hn, hv⟩ := Bool.and_eq_true_iff.mp h
  rw [Bool.not_eq_true'] at hv
  obtain ⟨ha, hra, hrb, hsa, hsb⟩ := decodeOp_addSub hop s.spr.sr
  have hd : (step c s i).r.d = operands c (decoded s.r s.spr i) i.ifuo.ir
      ((step c s i).rf (decoded s.r s.spr i).rselA)
      ((step c s i).rf (decoded s.r s.spr i).rselB) := if_pos hn
  have hdec : decoded s.r s.spr i = insnDecode s.r s.spr i.ifuo false := by rw [decoded, hv]
  refine ⟨nextState_of_exNexti hn, ?_, ?_, ?_⟩
  · rw [hd, hdec]
    exact ⟨ha.exOp, ha.aluFunc, ha.setCyOv, ha.resSel, ha.setRegD, ha.wdataSel, ha.jumpLinked,
      ha.rselD⟩
  · rw [hd, hdec]
    simp only [operands, insnDecode, Bool.false_eq_true, if_false, hra, hsa, if_true]
    rfl
  · rw [hd, hdec]
    simp only [operands, insnDecode, Bool.false_eq_true, if_false, hrb, hsb, addSubOperand]
    by_cases halu : op1 i.ifuo.ir = 0b111000#6
    · simp only [if_pos halu, if_true]
      rfl
    · simp only [if_neg halu, reduceCtorEq, if_false]
      rfl

end Cycle

-- ---------------------------------------------------------------------------
-- The run of one instruction
-- ---------------------------------------------------------------------------

section Run

open Lib (run)

variable {c : Config} {s : State} {i : ℕ → In} {d : DecodeReg} {op : Op} {rd : BitVec 5}
  {cin : Bool}

/-- The stalled cycles evaluate again and again. -/
theorem executing_run (h : Executing d cin s) (ha : AddSub d op rd) (hs : s.r.e.state = .init)
    (n : ℕ) (hstall : ∀ k < n, (i k).duStall = true) :
    Executing d (carryAt op d.aluIn1 d.aluIn2 cin n) (run (step c) s i n) ∧
      (run (step c) s i n).r.e.state = .init := by
  induction n with
  | zero => exact ⟨h, hs⟩
  | succ n ih =>
    obtain ⟨hn, hsn⟩ := ih fun k hk => hstall k (Nat.lt_succ_of_lt hk)
    obtain ⟨hnext, -, hstate⟩ := hn.step_init (c := c) (i := i n) ha hsn
    exact ⟨hnext, hstate.trans (if_pos (hstall n (Nat.lt_succ_self n)))⟩

/-- Two cycles after the last stalled one, register and flags are written. -/
theorem left_run (h : Executing d cin s) (ha : AddSub d op rd) (hs : s.r.e.state = .init) (n : ℕ)
    (hstall : ∀ k < n, (i k).duStall = true) (hgo : (i n).duStall = false) :
    (⟨(run (step c) s i (n + 2)).rf rd, (run (step c) s i (n + 2)).spr.sr.getLsbD cy,
      (run (step c) s i (n + 2)).spr.sr.getLsbD ov⟩ : Result 32) =
      left op d.aluIn1 d.aluIn2 cin n := by
  obtain ⟨hn, hsn⟩ := executing_run (c := c) h ha hs n hstall
  obtain ⟨hwb, hres, hstate⟩ := hn.step_init (c := c) (i := i n) ha hsn
  rw [hgo] at hstate
  obtain ⟨hrf, hcy, hov⟩ := hwb.step_wb (c := c) (i := i (n + 1)) ha hstate
  rw [Lib.run_succ, Lib.run_succ, hrf, hcy, hov, hres]
  rfl

end Run

-- ---------------------------------------------------------------------------
-- When evaluating more than once does no harm
-- ---------------------------------------------------------------------------

section Exact

variable (op : Op) (a b : TWord) (cin : Bool) (n : ℕ)

/-- The sum produces the carry it takes in. -/
def KeepsCarry : Prop := 2 ^ 32 ≤ a.toNat + b.toNat + cin.toNat ↔ cin = true

/-- There is no carry in, it stays the same, or it is used for the flags only, and these are not at
a limit. -/
def Settled : Prop :=
  op = .adc → KeepsCarry a b cin ∨
    (n = 0 ∧ a.toInt + b.toInt ≠ 2 ^ 31 - 1 ∧ a.toInt + b.toInt ≠ -2 ^ 31 - 1)

theorem keepsCarry_iff : KeepsCarry a b cin ↔ (added a b cin).cy = cin := by
  change _ ↔ decide (2 ^ 32 ≤ a.toNat + b.toNat + cin.toNat) = cin
  rw [KeepsCarry]
  cases cin <;> simp

theorem carryAt_adc : carryAt .adc a b cin n = if n = 0 then cin else (added a b cin).cy := by
  induction n with
  | zero => rfl
  | succ n ih =>
    rw [if_neg (Nat.succ_ne_zero n)]
    change (added a b (carryAt .adc a b cin n)).cy = _
    rw [ih]
    split_ifs
    · rfl
    · exact Lib.Adder.added_cy_again a b cin

theorem left_adc : left .adc a b cin n =
    ⟨(added a b (if n = 0 then cin else (added a b cin).cy)).res, (added a b cin).cy,
      (added a b (added a b cin).cy).ov⟩ := by
  have hcarry := carryAt_adc a b cin (n + 1)
  rw [if_neg (Nat.succ_ne_zero n)] at hcarry
  simp only [left, hcarry, carryAt_adc a b cin n, Op.exact, Lib.Adder.added_cy_again]

theorem left_exact_iff : left op a b cin n = op.exact a b cin ↔ Settled op a b cin n := by
  cases op with
  | add => exact iff_of_true rfl (fun h => nomatch h)
  | sub => exact iff_of_true rfl (fun h => nomatch h)
  | adc =>
    have hset : Settled .adc a b cin n ↔ (added a b cin).cy = cin ∨
        (n = 0 ∧ (added a b (!cin)).ov = (added a b cin).ov) := by
      rw [Lib.Adder.added_ov_not, ← keepsCarry_iff]
      exact ⟨fun h => h rfl, fun h _ => h⟩
    have hexact : Op.exact .adc a b cin = added a b cin := rfl
    rw [left_adc, hset, hexact]
    by_cases hcy : (added a b cin).cy = cin
    · rw [hcy, ite_self]
      refine iff_of_true ?_ (.inl rfl)
      generalize added a b cin = r at hcy
      subst hcy
      rfl
    · have hnot : (added a b cin).cy = !cin := Bool.eq_not.mpr hcy
      constructor
      · intro h
        have hres := congrArg Result.res h
        have hov := congrArg Result.ov h
        have hcarry := Lib.Adder.added_res_inj (by decide) a b hres
        refine .inr ⟨?_, hnot ▸ hov⟩
        by_contra hn
        exact hcy ((if_neg hn).symm.trans hcarry)
      · rintro (h | ⟨hn, hov⟩)
        · exact absurd h hcy
        · rw [if_pos hn, hnot, hov, ← hnot]

end Exact

section Claim

open Lib (run)

variable (c : Config) (s : State) (i : ℕ → In)

/-- An addition or subtraction taken in cycle 0 and stalled for `n` cycles is exact if and only if
it is settled. -/
theorem addSub_exact_iff {op : Op} (htake : takes s (i 0) = true)
    (hop : addSubOp (i 0).ifuo.ir = some op) (n : ℕ)
    (hstall : ∀ k < n, (i (k + 1)).duStall = true) (hgo : (i (n + 1)).duStall = false) :
    let ir := (i 0).ifuo.ir
    let s₁ := run (step c) s i 1
    let s₂ := run (step c) s i (n + 3)
    let a := readReg s₁ (ir.extractLsb' 16 5)
    let b := addSubOperand s₁ ir
    let cin := s₁.spr.sr.getLsbD cy
    (⟨s₂.rf (ir.extractLsb' 21 5), s₂.spr.sr.getLsbD cy, s₂.spr.sr.getLsbD ov⟩ : Result 32) =
        op.exact a b cin ↔ Settled op a b cin n := by
  obtain ⟨hs, ha, hin1, hin2⟩ := step_takes (c := c) htake hop
  have hrun : ∀ t, run (step c) s i (t + 1) = run (step c) (step c s (i 0)) (fun k => i (k + 1)) t := by
    intro t
    induction t with
    | zero => rfl
    | succ t ih => rw [Lib.run_succ, ih]; rfl
  have hleft := left_run (c := c) (i := fun k => i (k + 1)) ⟨rfl, rfl⟩ ha hs n hstall hgo
  intro ir s₁ s₂ a b cin
  have hs₂ : s₂ = run (step c) (step c s (i 0)) (fun k => i (k + 1)) (n + 2) := hrun (n + 2)
  rw [hs₂, hleft, hin1, hin2]
  exact left_exact_iff op a b cin n

end Claim

/-- `l.addc r4,r1,r2`, taken in cycle 0 and stalled for `n` cycles. -/
def addcInput (n t : ℕ) : In :=
  ⟨⟨0xe0811001, 0, 0x100, 0x104, true, true⟩, ⟨false, false, 0⟩, decide (1 ≤ t ∧ t ≤ n)⟩

def addcState (x y : TWord) (cin : Bool) : State :=
  { resetState with
    rf := fun n => if n = 1 then x else if n = 2 then y else 0
    spr := ⟨0, 0, 0, setBit 0x8001 cy cin⟩ }

def addcLeft (x y : TWord) (cin : Bool) (n : ℕ) : Result 32 :=
  let s := Lib.run (step plainConfig) (addcState x y cin) (addcInput n) (n + 3)
  ⟨s.rf 4, s.spr.sr.getLsbD cy, s.spr.sr.getLsbD ov⟩

theorem addSub_exact_addc : addcLeft 0xffffffff 5 true 3 = Op.exact .adc 0xffffffff 5 true :=
  (addSub_exact_iff plainConfig (addcState 0xffffffff 5 true) (addcInput 3) (by decide)
    (show _ = some Op.adc by decide) 3 (by decide) (by decide)).mpr fun _ => .inl (by unfold KeepsCarry; decide)

/-- `0x7fffffff + 0` with the carry set loses its overflow, and `0xffffffff + 1` is not 0 after a
stalled cycle. -/
theorem addSub_not_exact :
    addcLeft 0x7fffffff 0 true 0 ≠ Op.exact .adc 0x7fffffff 0 true ∧
      (addcLeft 0xffffffff 1 false 1).res ≠ (Op.exact .adc 0xffffffff 1 false).res := by
  decide +kernel

end ParaNut.Mexu
