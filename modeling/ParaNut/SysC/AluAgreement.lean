import ParaNut.Exu.AddSub
import ParaNut.SysC.Decode

/-!
# The ALUs of `mexu` and `MExu` compared

Sums, differences and comparisons, the extensions, and the shifts: what each
model computes, what the other computes on the same operands, and where they
differ.
-/

namespace ParaNut.SysC.MExu

open Exu (op1)
open Ifu (IfuOut)
open Lib (flip_sub_sign shift_and_mask)
open Lib.Adder (Op Result Relation)
open Mexu (aluFuncOf evaluated setBit)

-- ---------------------------------------------------------------------------
-- Additions and subtractions
-- ---------------------------------------------------------------------------

/-- `afAdd`, `afAdc`, `afSub` -/
def addFunc : Op → AluFunc
  | .add => .add
  | .adc => .adc
  | .sub => .sub

section AddSub

variable (r : Regs) (insn a b : TWord)

theorem toNat_withChar (w : TWord) : (withChar w).toNat = 2 ^ 32 + w.toNat := by
  rw [withChar, BitVec.toNat_append]
  change 1 <<< 32 ||| w.toNat = _
  rw [← Nat.shiftLeft_add_eq_or_of_lt w.isLt]
  rfl

/-- The set bits on top drop out of the sum. -/
theorem toNat_addResult (op : Op) : (addResult r (addFunc op) a b).toNat =
    match op with
    | .add => a.toNat + b.toNat
    | .adc => a.toNat + b.toNat + r.regCY.toNat
    | .sub => (2 ^ 33 - b.toNat + a.toNat) % 2 ^ 33 := by
  have ha := a.isLt
  have hb := b.isLt
  have hc := Bool.toNat_le r.regCY
  cases op with
  | add =>
    simp only [addResult, addFunc, signedB, reduceCtorEq, if_false, BitVec.toNat_add,
      toNat_withChar]
    omega
  | adc =>
    simp only [addResult, addFunc, signedB, reduceCtorEq, if_true, if_false, BitVec.toNat_add,
      toNat_withChar, BitVec.toNat_setWidth, BitVec.toNat_ofBool]
    omega
  | sub =>
    simp only [addResult, addFunc, signedB, reduceCtorEq, if_true, if_false, BitVec.toNat_add,
      toNat_withChar, BitVec.toNat_neg]
    omega

theorem addResult_low (op : Op) :
    (addResult r (addFunc op) a b).setWidth 32 = (op.exact a b r.regCY).res := by
  apply BitVec.eq_of_toNat_eq
  have ha := a.isLt
  have hb := b.isLt
  rw [BitVec.toNat_setWidth, toNat_addResult]
  cases op with
  | add => exact (BitVec.toNat_ofNat _ _).symm
  | adc => exact (BitVec.toNat_ofNat _ _).symm
  | sub =>
    change (2 ^ 33 - b.toNat + a.toNat) % 2 ^ 33 % 2 ^ 32 = (a - b).toNat
    rw [BitVec.toNat_sub]
    omega

theorem addResult_carry (op : Op) :
    (addResult r (addFunc op) a b).getLsbD 32 = (op.exact a b r.regCY).cy := by
  have ha := a.isLt
  have hb := b.isLt
  refine (BitVec.getLsbD_last _).trans ?_
  rw [toNat_addResult]
  cases op with
  | add => rfl
  | adc => rfl
  | sub =>
    apply decide_eq_decide.mpr
    change 2 ^ 32 ≤ (2 ^ 33 - b.toNat + a.toNat) % 2 ^ 33 ↔ a.toNat < b.toNat
    omega

/-- The sign of the second summand is that of the operand as it is added. -/
theorem signedB_sign (op : Op) :
    (signedB (addFunc op) b).getLsbD 31 = (if op = .sub then -b else b).msb := by
  have hb := b.isLt
  have hlow : (signedB (addFunc op) b).setWidth 32 = if op = .sub then -b else b := by
    apply BitVec.eq_of_toNat_eq
    cases op with
    | add | adc =>
      simp only [signedB, addFunc, reduceCtorEq, if_false, BitVec.toNat_setWidth, toNat_withChar]
      omega
    | sub =>
      simp only [signedB, addFunc, if_true, BitVec.toNat_setWidth, toNat_withChar, BitVec.toNat_neg]
      omega
  rw [← hlow, BitVec.msb_eq_getLsbD_last, BitVec.getLsbD_setWidth]
  rfl

/-- The overflow is that of a sum with the operand as it is added. -/
theorem runAdd_ov (op : Op) : (runAdd r insn (addFunc op) a b).outOV =
    match op with
    | .add => (Lib.Adder.added a b false).ov
    | .adc => (Lib.Adder.added a b r.regCY).ov
    | .sub => (Lib.Adder.added a (-b) false).ov := by
  have hmsb : ∀ w : TWord, w.getLsbD 31 = w.msb := fun w => (BitVec.msb_eq_getLsbD_last w).symm
  simp only [runAdd, addResult_low, signedB_sign, hmsb]
  cases op with
  | add => exact (Lib.Adder.added_ov (by decide) a b false).symm
  | adc => exact (Lib.Adder.added_ov (by decide) a b r.regCY).symm
  | sub =>
    have hres : (Lib.Adder.added a (-b) false).res = a - b := by
      rw [Lib.Adder.added_res, BitVec.sub_eq_add_neg]
      exact BitVec.add_zero _
    rw [Lib.Adder.added_ov (by decide) a (-b) false, hres]
    rfl

/-- The operand whose negation is itself. -/
theorem runAdd_ov_iff (op : Op) : (runAdd r insn (addFunc op) a b).outOV = (op.exact a b r.regCY).ov ↔
    ¬ (op = .sub ∧ b = 0x80000000) := by
  rw [runAdd_ov]
  cases op with
  | add => exact iff_of_true rfl (fun h => nomatch h.1)
  | adc => exact iff_of_true rfl (fun h => nomatch h.1)
  | sub =>
    have hmin : BitVec.intMin 32 = 0x80000000 := rfl
    change (Lib.Adder.added a (-b) false).ov = (Lib.Adder.subtracted a b).ov ↔ _
    rw [Lib.Adder.added_neg_ov (by decide), hmin]
    split_ifs with hb
    · exact iff_of_false (Bool.not_ne_self _) (fun h => h ⟨rfl, hb⟩)
    · exact iff_of_true rfl (fun h => hb h.2)

/-- Destination register, carry and overflow after `RunAlu`. -/
def resultOf (o : Regs × TWord × ℕ) : Result 32 :=
  ⟨o.1.regFile (insn.extractLsb' 21 5), o.1.regCY, o.1.regOV⟩

theorem runAlu_addSub (ifuPc : TWord) (op : Op) (aSrc : ASrc) (bSrc : BSrc) :
    (runAlu r ifuPc insn (some (addFunc op)) aSrc bSrc true true false).map (resultOf insn) =
      some ⟨(op.exact (inA r ifuPc insn aSrc) (inB r insn bSrc) r.regCY).res,
        (op.exact (inA r ifuPc insn aSrc) (inB r insn bSrc) r.regCY).cy,
        (runAdd r insn (addFunc op) (inA r ifuPc insn aSrc) (inB r insn bSrc)).outOV⟩ := by
  have hop : ∀ a b, runOp r insn (addFunc op) a b = some (runAdd r insn (addFunc op) a b) := by
    intro a b
    cases op <;> rfl
  simp only [runAlu, hop, resultOf, writeBack, Option.bind_eq_bind, Option.bind_some,
    Option.pure_def, Option.map_some, if_true, Function.update_self, Bool.true_and]
  rw [← addResult_low r, ← addResult_carry r]
  rfl

end AddSub

/-- Both models are exact, and so agree, unless the least number is subtracted. -/
theorem addSub_agree_iff (c : Mexu.Config) (d : Mexu.DecodeReg) (sr : TWord) (r : Regs)
    (ifuPc insn : TWord) (op : Op) (aSrc : ASrc) (bSrc : BSrc) :
    let a := inA r ifuPc insn aSrc
    let b := inB r insn bSrc
    let sysc := (runAlu r ifuPc insn (some (addFunc op)) aSrc bSrc true true false).map
      (resultOf insn)
    let vhdl := evaluated c
      { d with aluFunc := aluFuncOf op, aluIn1 := a, aluIn2 := b, exSetCyOv := true }
      (setBit sr Mexu.cy r.regCY)
    (sysc = some (op.exact a b r.regCY) ∧ some vhdl = sysc) ↔ ¬ (op = .sub ∧ b = 0x80000000) := by
  intro a b sysc vhdl
  have hvhdl : vhdl = op.exact a b r.regCY := by
    refine (Mexu.evaluated_exact c rfl rfl).trans ?_
    rw [Mexu.getLsbD_setBit _ (by decide), if_pos rfl]
  have hsysc : sysc = some ⟨(op.exact a b r.regCY).res, (op.exact a b r.regCY).cy,
      (runAdd r insn (addFunc op) a b).outOV⟩ := runAlu_addSub r insn ifuPc op aSrc bSrc
  rw [hvhdl, ← runAdd_ov_iff r insn a b op, hsysc]
  constructor
  · rintro ⟨h, -⟩
    exact congrArg Result.ov (Option.some.inj h)
  · intro h
    rw [h]
    exact ⟨rfl, rfl⟩

/-- Registers in which the second operand is `b`. -/
def operandRegs (a b : TWord) : Regs :=
  { Regs.initial with regFile := fun n => if n = 1 then a else if n = 2 then b else 0 }

/-- `l.sub r4,r1,r2`: 0 minus the least number. -/
theorem sub_least_not_exact :
    (runAlu (operandRegs 0 0x80000000) 0 0xe0811002 (some .sub) .reg .reg true true false).map
      (resultOf 0xe0811002) ≠ some (Op.sub.exact 0 0x80000000 false) := by
  decide

-- ---------------------------------------------------------------------------
-- Comparisons
-- ---------------------------------------------------------------------------

/-- The condition in bits 25 to 21 of an instruction that sets the flag. -/
def condition : Relation → BitVec 5
  | .eq => 0
  | .ne => 1
  | .gtu => 2
  | .geu => 3
  | .ltu => 4
  | .leu => 5
  | .gts => 10
  | .ges => 11
  | .lts => 12
  | .les => 13

/-- `ex_comp_mode` and `ex_signed` select the relation. -/
theorem outF_holds (c : Mexu.Config) {d : Mexu.DecodeReg} {sr : TWord} {rel : Relation}
    (hsub : d.aluFunc = 2) (hsigned : d.exSigned = (condition rel).getLsbD 3)
    (hmode : d.exCompMode = (condition rel).setWidth 3) :
    Mexu.outF c d sr = rel.holds d.aluIn1 d.aluIn2 := by
  have hresult : (⟨(Mexu.resAdd d sr).setWidth 32, Mexu.outCy d sr, Mexu.outOv d sr⟩ : Result 32) =
      Lib.Adder.subtracted d.aluIn1 d.aluIn2 := Mexu.result_subtracted hsub
  have hlow : (Mexu.resAdd d sr).setWidth 32 = d.aluIn1 - d.aluIn2 := congrArg Result.res hresult
  have hcy : Mexu.outCy d sr = decide (d.aluIn1.toNat < d.aluIn2.toNat) :=
    congrArg Result.cy hresult
  have hadd : Mexu.addFunc d = true :=
    Mexu.addFunc_of (show d.aluFunc = aluFuncOf .sub from hsub)
  rw [Relation.holds_eq]
  simp only [Mexu.outF, hadd, hlow, hcy, hsigned, hmode, Lib.Adder.zeroTest, Lib.Adder.lessTest,
    Lib.Adder.toInt_lt_eq (show 0 < 32 by decide)]
  cases rel <;> rfl

theorem runAdd_holds (r : Regs) {insn : TWord} (a b : TWord) {rel : Relation}
    (hcond : insn.extractLsb' 21 5 = condition rel) :
    (runAdd r insn .sub a b).outF = rel.holds a b := by
  have hlow : (addResult r .sub a b).setWidth 32 = a - b := addResult_low r a b .sub
  have hcy : (addResult r .sub a b).getLsbD 32 = decide (a.toNat < b.toNat) :=
    addResult_carry r a b .sub
  have hmsb : ∀ w : TWord, w.getLsbD 31 = w.msb := fun w => (BitVec.msb_eq_getLsbD_last w).symm
  rw [Relation.holds_eq]
  simp only [runAdd, hlow, hcy, hcond, hmsb, Lib.Adder.zeroTest, Lib.Adder.lessTest,
    Lib.Adder.toInt_lt_eq (show 0 < 32 by decide)]
  cases rel <;> simp [condition, Relation.ofTests, Relation.signed]

-- ---------------------------------------------------------------------------
-- Whole instructions
-- ---------------------------------------------------------------------------

theorem execAlu_eq {r : Regs} {ifuPc insn : TWord} {call : AluCall} {func : AluFunc} {o : AluOut}
    (hcall : aluCall insn = some call) (hfunc : call.func = some func)
    (hop : runOp r insn func (inA r ifuPc insn call.aSrc) (inB r insn call.bSrc) = some o) :
    execAlu r ifuPc insn =
      some (writeBack r insn o call.setRegD call.setCyOv call.setF, o.outRegD, o.retDelay) := by
  simp only [execAlu, hcall, runAlu, hfunc, hop, Option.bind_eq_bind, Option.bind_some,
    Option.pure_def]

/-- `SETF`, `SETFI` -/
theorem decodeOp_setFlag {insn : TWord} (sr : TWord) (hop : opcode insn = 0x39 ∨ opcode insn = 0x2f) :
    (Mexu.decodeOp insn sr).d =
        { (Mexu.decodeDefault insn).d with exOp := .alu, aluFunc := 2, exSetF := true } ∧
      (Mexu.decodeOp insn sr).aluSrcA = true := by
  have hop1 : op1 insn = 0x39 ∨ op1 insn = 0x2f :=
    hop.imp (BitVec.eq_of_toNat_eq ·) (BitVec.eq_of_toNat_eq ·)
  rcases hop1 with h | h <;> simp [Mexu.decodeOp, h, Mexu.decodeDefault]

theorem aluCall_setFlag {insn : TWord} (hop : opcode insn = 0x39 ∨ opcode insn = 0x2f) :
    aluCall insn = some ⟨some .sub, .reg, if opcode insn = 0x39 then .reg else .imm16s, false,
      false, true⟩ := by
  rcases hop with h | h <;> simp [aluCall, h]

theorem inB_imm16s (r : Regs) (insn : TWord) :
    inB r insn .imm16s = (insn.extractLsb' 0 16).signExtend 32 :=
  inB_imm Mexu.plainConfig r insn (by decide)

/-- Both models set the flag to the relation of the operands. -/
theorem setFlag_agree (c : Mexu.Config) (rM : Mexu.Registers) (spr : Mexu.Spr) (ifuo : IfuOut)
    (t : Thread) (sr ifuPc : TWord) {rel : Relation}
    (hop : opcode ifuo.ir = 0x39 ∨ opcode ifuo.ir = 0x2f)
    (hcond : ifuo.ir.extractLsb' 21 5 = condition rel) :
    let insn := ifuo.ir
    let r := t.toHead.r
    let a := r.regFile (insn.extractLsb' 16 5)
    let b := if opcode insn = 0x39 then r.regFile (insn.extractLsb' 11 5)
      else (insn.extractLsb' 0 16).signExtend 32
    (Mexu.aluFlags c (decodedWith c rM spr ifuo r) sr sr).getLsbD Mexu.flag = rel.holds a b ∧
      (execAlu r ifuPc insn).map (·.1.regF) = some (rel.holds a b) := by
  intro insn r a b
  have hzero : r.regFile 0 = 0 := t.toHead_zero
  have hcall := aluCall_setFlag hop
  have hb : inB r insn (if opcode insn = 0x39 then .reg else .imm16s) = b := by
    rw [apply_ite (inB r insn), inB_imm16s]
    rfl
  constructor
  · let d := decodedWith c rM spr ifuo r
    obtain ⟨hd, hsrcA⟩ := decodeOp_setFlag (setBit spr.sr Mexu.flag r.regF) hop
    have hfunc : d.aluFunc = 2 := congrArg Mexu.DecodeReg.aluFunc hd
    have hsetF : d.exSetF = true := congrArg Mexu.DecodeReg.exSetF hd
    have hsigned : d.exSigned = (condition rel).getLsbD 3 := by
      refine (congrArg Mexu.DecodeReg.exSigned hd).trans ?_
      rw [← hcond, BitVec.getLsbD_extractLsb']
      rfl
    have hmode : d.exCompMode = (condition rel).setWidth 3 := by
      refine (congrArg Mexu.DecodeReg.exCompMode hd).trans ?_
      rw [← hcond, BitVec.setWidth_extractLsb'_of_le (by decide)]
      rfl
    have hin1 : d.aluIn1 = a := decodedWith_in1 hzero hsrcA
    have hin2 : d.aluIn2 = b := by
      refine (decodedWith_in2 hzero hcall (congrArg Mexu.DecodeReg.illOp hd) ?_).trans hb
      intro hle
      rcases hop with h | h <;> rw [h] at hle <;> exact absurd hle (by decide)
    change (Mexu.aluFlags c d sr sr).getLsbD Mexu.flag = _
    rw [Mexu.aluFlags, if_pos hsetF, Mexu.getLsbD_setBit _ (by decide), if_pos rfl,
      outF_holds c hfunc hsigned hmode, hin1, hin2]
  · rw [execAlu_eq hcall rfl rfl, Option.map_some, ← runAdd_holds r a b hcond, ← hb]
    rfl

/-- `l.sfgts r1,r2` with the greatest and the least number. -/
theorem setFlag_agree_gts :
    (execAlu (operandRegs 0x7fffffff 0x80000000) 0 0xe5411000).map (·.1.regF) =
      some true :=
  (setFlag_agree Mexu.plainConfig Mexu.resetState.r Mexu.resetState.spr
    ⟨0xe5411000, 0, 0x100, 0x104, true, true⟩
    (Thread.reset (operandRegs 0x7fffffff 0x80000000) Signals.initial) 0 0
    (by decide) (show _ = condition .gts by decide)).2

-- ---------------------------------------------------------------------------
-- Extensions
-- ---------------------------------------------------------------------------

/-- Modes 0 to 3: `l.exths`, `l.extbs`, `l.exthz`, `l.extbz`. -/
def extension (mode : BitVec 2) (a : TWord) : TWord :=
  if mode = 0 then (a.extractLsb' 0 16).signExtend 32
  else if mode = 1 then (a.extractLsb' 0 8).signExtend 32
  else if mode = 2 then (a.extractLsb' 0 16).setWidth 32
  else (a.extractLsb' 0 8).setWidth 32

/-- The sign of what is extended: bit 0 of the mode selects the byte. -/
def extensionSign (mode : BitVec 2) (a : TWord) : Bool := a.getLsbD (if mode.getLsbD 0 then 7 else 15)

theorem runExt_eq (insn a : TWord) : runExt insn a = extension (insn.extractLsb' 6 2) a := by
  have hbyte : a &&& 0xff#32 = (a.extractLsb' 0 8).setWidth 32 := by
    simpa using shift_and_mask a 0 8
  have hsign8 : ((a.extractLsb' 0 8).setWidth 32 ^^^ 0x80#32) - 0x80#32 =
      (a.extractLsb' 0 8).signExtend 32 := flip_sub_sign (k := 7) _ (by decide)
  have hsign16 : ((a.extractLsb' 0 16).setWidth 32 ^^^ 0x8000#32) - 0x8000#32 =
      (a.extractLsb' 0 16).signExtend 32 := flip_sub_sign (k := 15) _ (by decide)
  simp only [runExt, extension, low_half, hbyte, hsign8, hsign16]

theorem mode_cases (mode : BitVec 2) : mode = 0 ∨ mode = 1 ∨ mode = 2 ∨ mode = 3 := by
  revert mode
  decide

/-- Both extensions are the same for a word that is not negative, and only for such a word. -/
theorem signExtend_eq_setWidth_iff {n m : ℕ} (x : BitVec n) (hn : n < m) :
    x.signExtend m = x.setWidth m ↔ x.msb = false := by
  constructor
  · intro h
    have hbit : (x.signExtend m).getLsbD n = (x.setWidth m).getLsbD n := by rw [h]
    rw [BitVec.getLsbD_signExtend, if_neg (Nat.lt_irrefl n), BitVec.getLsbD_setWidth,
      BitVec.getLsbD_of_ge x n le_rfl, decide_eq_true hn] at hbit
    exact hbit
  · intro h
    exact BitVec.signExtend_eq_setWidth_of_msb_false h

/-- `run_alu` has signs and zeros the other way. -/
theorem aluRes_ext (c : Mexu.Config) {d : Mexu.DecodeReg} {mode : BitVec 2} (sr : TWord)
    (hfunc : d.aluFunc = 12) (hexts : d.exBhwExts = !mode.getLsbD 1)
    (hsel : d.exBhwSel = mode.getLsbD 0) :
    Mexu.aluRes c d sr = extension (mode ^^^ 2) d.aluIn1 := by
  rcases mode_cases mode with rfl | rfl | rfl | rfl <;>
    simp [Mexu.aluRes, Mexu.addFunc, hfunc, hexts, hsel, extension]

theorem extension_swapped_iff (mode : BitVec 2) (a : TWord) :
    extension (mode ^^^ 2) a = extension mode a ↔ extensionSign mode a = false := by
  have hhalf : (a.extractLsb' 0 16).msb = a.getLsbD 15 := by
    rw [BitVec.msb_eq_getLsbD_last, BitVec.getLsbD_extractLsb']
    rfl
  have hbyte : (a.extractLsb' 0 8).msb = a.getLsbD 7 := by
    rw [BitVec.msb_eq_getLsbD_last, BitVec.getLsbD_extractLsb']
    rfl
  rcases mode_cases mode with rfl | rfl | rfl | rfl
  · exact eq_comm.trans ((signExtend_eq_setWidth_iff _ (by decide)).trans (by rw [hhalf]; rfl))
  · exact eq_comm.trans ((signExtend_eq_setWidth_iff _ (by decide)).trans (by rw [hbyte]; rfl))
  · exact (signExtend_eq_setWidth_iff _ (by decide)).trans (by rw [hhalf]; rfl)
  · exact (signExtend_eq_setWidth_iff _ (by decide)).trans (by rw [hbyte]; rfl)

/-- `ALU` with a function code that is no multiplication and no shift. -/
theorem decodeOp_alu {insn : TWord} (sr : TWord) (hop : opcode insn = 0x38)
    (hfunc : insn.extractLsb' 0 4 ∉ [0b1011#4, 0b0110#4, 0b1000#4]) :
    (Mexu.decodeOp insn sr).d =
        { (Mexu.decodeDefault insn).d with
          wbSetRegD := true, exSetCyOv := true, exOp := .alu,
          aluFunc := (insn.extractLsb' 0 4).setWidth 5 } ∧
      (Mexu.decodeOp insn sr).aluSrcA = true := by
  have h : op1 insn = 0x38 := BitVec.eq_of_toNat_eq hop
  simp only [List.mem_cons, List.not_mem_nil, or_false, not_or] at hfunc
  simp [Mexu.decodeOp, h, hfunc, Mexu.decodeDefault]

theorem aluCall_alu {insn : TWord} (hop : opcode insn = 0x38) :
    aluCall insn =
      some ⟨AluFunc.ofCode (insn.extractLsb' 0 4), .reg, .reg, true, true, false⟩ := by
  simp [aluCall, hop]

/-- The extensions of both models are right if the sign they extend is 0, and only then. -/
theorem extend_agree_iff (c : Mexu.Config) (rM : Mexu.Registers) (spr : Mexu.Spr) (ifuo : IfuOut)
    (t : Thread) (sr ifuPc : TWord) (hop : opcode ifuo.ir = 0x38)
    (hfunc : ifuo.ir.extractLsb' 0 4 = 0xc) :
    let insn := ifuo.ir
    let r := t.toHead.r
    let a := r.regFile (insn.extractLsb' 16 5)
    let mode := insn.extractLsb' 6 2
    (Mexu.aluRes c (decodedWith c rM spr ifuo r) sr = extension mode a ∧
      (execAlu r ifuPc insn).map (·.1.regFile (insn.extractLsb' 21 5)) = some (extension mode a)) ↔
      extensionSign mode a = false := by
  intro insn r a mode
  have hzero : r.regFile 0 = 0 := t.toHead_zero
  let d := decodedWith c rM spr ifuo r
  have hno : insn.extractLsb' 0 4 ∉ [0b1011#4, 0b0110#4, 0b1000#4] := by
    rw [hfunc]
    decide
  obtain ⟨hd, hsrcA⟩ := decodeOp_alu (setBit spr.sr Mexu.flag r.regF) hop hno
  have haluFunc : d.aluFunc = 12 := by
    refine (congrArg Mexu.DecodeReg.aluFunc hd).trans ?_
    change (insn.extractLsb' 0 4).setWidth 5 = 12
    rw [hfunc]
    rfl
  have hexts : d.exBhwExts = !mode.getLsbD 1 := by
    refine (congrArg Mexu.DecodeReg.exBhwExts hd).trans ?_
    rw [BitVec.getLsbD_extractLsb']
    rfl
  have hsel : d.exBhwSel = mode.getLsbD 0 := by
    refine (congrArg Mexu.DecodeReg.exBhwSel hd).trans ?_
    rw [BitVec.getLsbD_extractLsb']
    rfl
  have hin1 : d.aluIn1 = a := decodedWith_in1 hzero hsrcA
  have hvhdl : Mexu.aluRes c d sr = extension (mode ^^^ 2) a := by
    rw [aluRes_ext c sr haluFunc hexts hsel, hin1]
  have hcode : AluFunc.ofCode (insn.extractLsb' 0 4) = some .ext := by
    rw [hfunc]
    rfl
  have hsysc : (execAlu r ifuPc insn).map (·.1.regFile (insn.extractLsb' 21 5)) =
      some (extension mode a) := by
    rw [execAlu_eq (aluCall_alu hop) hcode rfl, Option.map_some, ← runExt_eq insn a]
    exact congrArg some (Function.update_self _ _ _)
  rw [← extension_swapped_iff, ← hvhdl]
  exact ⟨And.left, fun h => ⟨h, hsysc⟩⟩

/-- `l.exths r4,r1` -/
def exthsOut : IfuOut := ⟨0xe081000c, 0, 0x100, 0x104, true, true⟩

theorem extend_agree_exths :
    Mexu.aluRes Mexu.plainConfig (decodedWith Mexu.plainConfig Mexu.resetState.r Mexu.resetState.spr
      exthsOut (operandRegs 0x12347fff 0)) 0 = 0x00007fff :=
  ((extend_agree_iff Mexu.plainConfig Mexu.resetState.r Mexu.resetState.spr exthsOut
    (Thread.reset (operandRegs 0x12347fff 0) Signals.initial) 0 0 rfl rfl).2 (by decide)).1

/-- `mexu` extends a negative half-word with zeros. -/
theorem extend_not_agree_exths :
    Mexu.aluRes Mexu.plainConfig (decodedWith Mexu.plainConfig Mexu.resetState.r Mexu.resetState.spr
        exthsOut (operandRegs 0x8000 0)) 0 ≠ extension 0 0x8000 ∧
      (execAlu (operandRegs 0x8000 0) 0 exthsOut.ir).map (·.1.regFile 4) =
        some (extension 0 0x8000) := by
  decide

-- ---------------------------------------------------------------------------
-- Shifts
-- ---------------------------------------------------------------------------

section Shifts

open Exu.Shift (shiftGeneric shiftGeneric_eq shifted getLsbD_shifted)

/-- The bits that a concatenation of two ranges of `32 - n` bits has no room for. -/
def LosesBits (mode : BitVec 2) (a : TWord) (n : ℕ) : Prop :=
  mode = 3 ∧ ∃ j, 32 - n ≤ j ∧ j < n ∧ a.getLsbD j = true

theorem getLsbD_runShift (insn a : TWord) {n : ℕ} (hn : n < 32) {j : ℕ} (hj : j < 32) :
    (runShift insn a n).getLsbD j =
      if insn.extractLsb' 6 2 = 3 then
        if j < 32 - n then a.getLsbD (n + j)
        else decide (j - (32 - n) < 32 - n) && a.getLsbD (j - (32 - n))
      else (shifted a n (insn.extractLsb' 6 2)).getLsbD j := by
  have hsign : ∀ k, (if a.getLsbD 31 then -1#32 else 0#32).getLsbD k =
      (decide (k < 32) && a.getLsbD 31) := by
    intro k
    cases a.getLsbD 31 with
    | true => rw [if_pos rfl, BitVec.neg_one_eq_allOnes, BitVec.getLsbD_allOnes, Bool.and_true]
    | false => rw [if_neg (by decide), BitVec.getLsbD_zero, Bool.and_false]
  rw [getLsbD_shifted hn _ hj, BitVec.msb_eq_getLsbD_last]
  simp only [runShift]
  rcases mode_cases (insn.extractLsb' 6 2) with h | h | h | h <;> rw [h] <;>
    by_cases hzero : n = 0
  all_goals
    simp only [hzero, if_true, if_false, BitVec.getLsbD_setWidth, BitVec.getLsbD_append,
      BitVec.getLsbD_extractLsb', BitVec.getLsbD_zero, BitVec.reduceEq, hsign]
    grind

theorem runShift_eq_iff (insn a : TWord) {n : ℕ} (hn : n < 32) :
    runShift insn a n = shifted a n (insn.extractLsb' 6 2) ↔
      ¬ LosesBits (insn.extractLsb' 6 2) a n := by
  by_cases hmode : insn.extractLsb' 6 2 = 3
  · have hrotate : ∀ {j}, j < 32 → (shifted a n 3).getLsbD j = a.getLsbD ((n + j) % 32) :=
      fun hj => getLsbD_shifted hn 3 hj
    rw [hmode]
    constructor
    · rintro h ⟨-, j, hlow, hhigh, hbit⟩
      -- the bit is rotated to a place above both ranges
      have hout := getLsbD_runShift insn a hn (show j + 32 - n < 32 by omega)
      rw [h, hrotate (by omega), if_pos hmode, if_neg (by omega), decide_eq_false (by omega),
        show (n + (j + 32 - n)) % 32 = j by omega, hbit] at hout
      cases hout
    · intro h
      apply BitVec.eq_of_getLsbD_eq
      intro j hj
      rw [getLsbD_runShift insn a hn hj, if_pos hmode, hrotate hj]
      by_cases hlow : j < 32 - n
      · simp [hlow, Nat.mod_eq_of_lt (show n + j < 32 by omega)]
      · have hj' : (n + j) % 32 = j - (32 - n) := by omega
        simp only [if_neg hlow, hj']
        by_cases hroom : j - (32 - n) < 32 - n
        · simp [hroom]
        · have hbit : a.getLsbD (j - (32 - n)) = false := by
            by_contra hb
            exact h ⟨rfl, _, Nat.le_of_not_lt hroom, by omega, Bool.eq_true_of_not_eq_false hb⟩
          simp [hbit]
  · refine iff_of_true ?_ (fun h => hmode h.1)
    apply BitVec.eq_of_getLsbD_eq
    intro j hj
    rw [getLsbD_runShift insn a hn hj, if_neg hmode]

/-- `SHIFT`, `SRLI` -/
theorem decodeOp_shift {insn : TWord} (sr : TWord)
    (hop : opcode insn = 0x38 ∧ insn.extractLsb' 0 4 = 8 ∨ opcode insn = 0x2e) :
    (Mexu.decodeOp insn sr).d =
        { (Mexu.decodeDefault insn).d with
          exOp := .shift, exResSel := .shift, wbSetRegD := true, exSetCyOv := true } ∧
      (Mexu.decodeOp insn sr).aluSrcA = true := by
  have hop1 : op1 insn = 0x38 ∧ insn.extractLsb' 0 4 = 8 ∨ op1 insn = 0x2e :=
    hop.imp (And.imp_left (BitVec.eq_of_toNat_eq ·)) (BitVec.eq_of_toNat_eq ·)
  rcases hop1 with ⟨h, h3⟩ | h
  · simp [Mexu.decodeOp, h, h3, Mexu.decodeDefault]
  · simp [Mexu.decodeOp, h, Mexu.decodeDefault]

theorem aluCall_shift {insn : TWord}
    (hop : opcode insn = 0x38 ∧ insn.extractLsb' 0 4 = 8 ∨ opcode insn = 0x2e) :
    aluCall insn = some ⟨some .sxx, .reg, if opcode insn = 0x38 then .reg else .imm16s, true, true,
      false⟩ := by
  rcases hop with ⟨h, h3⟩ | h
  · simp [aluCall, h, h3, AluFunc.ofCode]
  · simp [aluCall, h]

/-- The shifted operand is the one that `shift_generic` delivers, unless a rotation loses bits. -/
theorem shift_agree_iff (c : Mexu.Config) (rM : Mexu.Registers) (spr : Mexu.Spr) (ifuo : IfuOut)
    (t : Thread) (ifuPc : TWord)
    (hop : opcode ifuo.ir = 0x38 ∧ ifuo.ir.extractLsb' 0 4 = 8 ∨ opcode ifuo.ir = 0x2e) :
    let insn := ifuo.ir
    let r := t.toHead.r
    let d := decodedWith c rM spr ifuo r
    let a := r.regFile (insn.extractLsb' 16 5)
    let b := if opcode insn = 0x38 then r.regFile (insn.extractLsb' 11 5)
      else (insn.extractLsb' 0 16).signExtend 32
    (execAlu r ifuPc insn).map (·.1.regFile (insn.extractLsb' 21 5)) =
        some (shiftGeneric d.aluIn1 (d.aluIn2.extractLsb' 0 5) d.exShiftMode) ↔
      ¬ LosesBits (insn.extractLsb' 6 2) a (b.extractLsb' 0 5).toNat := by
  intro insn r d a b
  have hzero : r.regFile 0 = 0 := t.toHead_zero
  have hcall := aluCall_shift hop
  have hb : inB r insn (if opcode insn = 0x38 then .reg else .imm16s) = b := by
    rw [apply_ite (inB r insn), inB_imm16s]
    rfl
  obtain ⟨hd, hsrcA⟩ := decodeOp_shift (setBit spr.sr Mexu.flag r.regF) hop
  have hin1 : d.aluIn1 = a := decodedWith_in1 hzero hsrcA
  have hin2 : d.aluIn2 = b := by
    refine (decodedWith_in2 hzero hcall (congrArg Mexu.DecodeReg.illOp hd) ?_).trans hb
    intro hle
    rcases hop with ⟨h, -⟩ | h <;> rw [h] at hle <;> exact absurd hle (by decide)
  have hmode : d.exShiftMode = insn.extractLsb' 6 2 := congrArg Mexu.DecodeReg.exShiftMode hd
  have hrun : (execAlu r ifuPc insn).map (·.1.regFile (insn.extractLsb' 21 5)) =
      some (runShift insn a (b.extractLsb' 0 5).toNat) := by
    rw [execAlu_eq hcall rfl rfl, Option.map_some, ← hb]
    exact congrArg some (Function.update_self _ _ _)
  rw [hrun, hin1, hin2, hmode, shiftGeneric_eq, Option.some_inj]
  exact runShift_eq_iff insn a (b.extractLsb' 0 5).isLt

/-- `l.ror r4,r1,r2` -/
def rorOut : IfuOut := ⟨0xe08110c8, 0, 0x100, 0x104, true, true⟩

theorem shift_agree_ror :
    (execAlu (operandRegs 0x12345678 16) 0 rorOut.ir).map (·.1.regFile 4) = some 0x56781234 :=
  (shift_agree_iff Mexu.plainConfig Mexu.resetState.r Mexu.resetState.spr rorOut
    (Thread.reset (operandRegs 0x12345678 16) Signals.initial) 0 (.inl ⟨rfl, rfl⟩)).2
    fun ⟨_, _, hlow, hhigh, _⟩ => absurd (Nat.lt_of_le_of_lt hlow hhigh) (by decide)

theorem shift_not_agree_ror :
    (execAlu (operandRegs 0x10000 17) 0 rorOut.ir).map (·.1.regFile 4) ≠
      some (shiftGeneric 0x10000 17 3) := by
  decide

end Shifts

end ParaNut.SysC.MExu
