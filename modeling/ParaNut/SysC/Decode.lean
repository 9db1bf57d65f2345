import ParaNut.Exu.Pipeline
import ParaNut.Lib.Bytes
import ParaNut.SysC.Exu

/-!
# The two decoders compared

`insn_decode` of `mexu` selects an immediate format and
`immediate_sign_extend` cuts it out of the word; `MainThread` passes a format
to `RunAlu`, which masks and shifts. For every opcode that both know, the
second operand is the same, and so are width and extension of an access.
-/

namespace ParaNut.SysC.MExu

open Lib (flip_sub_sign shift_and_mask)
open Exu (op1)
open Ifu (IfuOut)
open Mexu (setBit)

/-- The format of `mexu` for one of `MExu`. -/
def BSrc.vhdl : BSrc → Mexu.AluSrcB
  | .reg => .reg
  | .imm16s => .imm16s
  | .imm16z => .imm16z
  | .imm16hi => .imm16hi
  | .imm162s => .imm162
  | .imm26s => .imm26s

theorem BSrc.vhdl_reg {b : BSrc} (h : b.vhdl = .reg) : b = .reg := by
  cases b <;> first | rfl | cases h

-- ---------------------------------------------------------------------------
-- Immediates
-- ---------------------------------------------------------------------------

theorem low_half (w : TWord) : w &&& 0xffff#32 = (w.extractLsb' 0 16).setWidth 32 := by
  simpa using shift_and_mask w 0 16

/-- The two parts of a split immediate. -/
theorem split_imm (insn : TWord) :
    (insn &&& 0x000007ff#32) + ((insn &&& 0x03e00000#32) >>> 10) =
      (insn.extractLsb' 21 5 ++ insn.extractLsb' 0 11).setWidth 32 := by
  have hlow : insn &&& 0x000007ff#32 = (insn.extractLsb' 0 11).setWidth 32 := by
    simpa using shift_and_mask insn 0 11
  have hhigh : (insn &&& 0x03e00000#32) >>> 10 = (insn.extractLsb' 21 5).setWidth 32 <<< 11 := by
    have hmask : 0x03e00000#32 = (BitVec.allOnes 5).setWidth 32 <<< 21 := by decide
    rw [hmask]
    apply BitVec.eq_of_getLsbD_eq
    intro j hj
    simp only [BitVec.getLsbD_and, BitVec.getLsbD_ushiftRight, BitVec.getLsbD_shiftLeft,
      BitVec.getLsbD_setWidth, BitVec.getLsbD_allOnes, BitVec.getLsbD_extractLsb', hj, decide_true,
      Bool.true_and]
    grind
  rw [hlow, hhigh, BitVec.add_eq_or_of_and_eq_zero]
  all_goals
    apply BitVec.eq_of_getLsbD_eq
    intro j hj
    simp only [BitVec.getLsbD_or, BitVec.getLsbD_and, BitVec.getLsbD_shiftLeft,
      BitVec.getLsbD_setWidth, BitVec.getLsbD_append, BitVec.getLsbD_extractLsb',
      BitVec.getLsbD_zero, hj, decide_true, Bool.true_and]
    grind

theorem shifted_half (w : BitVec 16) : w.setWidth 32 <<< 16 = w ++ 0#16 := by
  apply BitVec.eq_of_getLsbD_eq
  intro j hj
  simp only [BitVec.getLsbD_shiftLeft, BitVec.getLsbD_setWidth, BitVec.getLsbD_append, hj,
    decide_true, Bool.true_and]
  grind

theorem shifted_offset (w : BitVec 26) : w.signExtend 32 <<< 2 = (w ++ 0#2).signExtend 32 := by
  have hmsb : (w ++ 0#2).msb = w.msb := BitVec.msb_append
  apply BitVec.eq_of_getLsbD_eq
  intro j hj
  simp only [BitVec.getLsbD_shiftLeft, BitVec.getLsbD_signExtend, BitVec.getLsbD_append, hj,
    decide_true, Bool.true_and, hmsb]
  grind

theorem inB_imm (c : Mexu.Config) (r : Regs) (insn : TWord) {bSrc : BSrc} (h : bSrc ≠ .reg) :
    inB r insn bSrc = Mexu.immediateSignExtend c bSrc.vhdl insn := by
  have hsign16 : ∀ w : BitVec 16, (w.setWidth 32 ^^^ 0x8000#32) - 0x8000#32 = w.signExtend 32 :=
    fun w => flip_sub_sign (k := 15) w (by decide)
  cases bSrc with
  | reg => exact absurd rfl h
  | imm16z => exact low_half insn
  | imm16s =>
    simp only [inB, low_half, hsign16]
    rfl
  | imm16hi =>
    simp only [inB, low_half, shifted_half]
    rfl
  | imm162s =>
    simp only [inB, split_imm]
    exact hsign16 _
  | imm26s =>
    have hlow : insn &&& 0x03ffffff#32 = (insn.extractLsb' 0 26).setWidth 32 := by
      simpa using shift_and_mask insn 0 26
    have hsign : ∀ w : BitVec 26,
        (w.setWidth 32 ^^^ 0x02000000#32) - 0x02000000#32 = w.signExtend 32 :=
      fun w => flip_sub_sign (k := 25) w (by decide)
    simp only [inB, hlow, hsign]
    exact shifted_offset _

-- ---------------------------------------------------------------------------
-- Operands
-- ---------------------------------------------------------------------------

theorem opcode_eq (insn : TWord) : opcode insn = (op1 insn).toNat := rfl

/-- The opcodes that `mexu` knows. -/
theorem op1_cases {insn sr : TWord} (h : (Mexu.decodeOp insn sr).d.illOp = false) :
    op1 insn ∈ [0x38#6, 0x27#6, 0x28#6, 0x29#6, 0x2a#6, 0x2b#6, 0x2c#6, 0x39#6, 0x2e#6, 0x2f#6,
      0x06#6, 0x21#6, 0x22#6, 0x23#6, 0x24#6, 0x25#6, 0x26#6, 0x35#6, 0x36#6, 0x37#6, 0x3e#6, 0x00#6,
      0x01#6, 0x04#6, 0x03#6, 0x11#6, 0x12#6, 0x05#6, 0x08#6, 0x09#6, 0x2d#6, 0x30#6] := by
  by_contra hop
  simp only [List.mem_cons, List.not_mem_nil, or_false, not_or] at hop
  simp [Mexu.decodeOp, Exu.isLoad, Exu.isStore, Exu.isCust7, hop] at h

theorem decodeOp_rselA (insn sr : TWord) :
    (Mexu.decodeOp insn sr).rselA = insn.extractLsb' 16 5 := by
  simp only [Mexu.decodeOp, apply_ite Mexu.Decoded.rselA, ite_self]

theorem decodeOp_rselB (insn sr : TWord) :
    (Mexu.decodeOp insn sr).rselB = insn.extractLsb' 11 5 := by
  simp only [Mexu.decodeOp, apply_ite Mexu.Decoded.rselB, ite_self]

/-- The formats are the same, for a branch that is taken. -/
theorem decodeOp_srcB {insn sr : TWord} {call : AluCall} (hcall : aluCall insn = some call)
    (hlegal : (Mexu.decodeOp insn sr).d.illOp = false)
    (htaken : opcode insn ≤ 4 → Mexu.jumpTaken insn sr = true) :
    (Mexu.decodeOp insn sr).aluSrcB = call.bSrc.vhdl := by
  have hop := op1_cases hlegal
  simp only [List.mem_cons, List.not_mem_nil, or_false] at hop
  rcases hop with hop | hop
  · simp [aluCall, opcode_eq, hop] at hcall
    subst hcall
    simp only [Mexu.decodeOp, hop, if_true]
    split_ifs <;> rfl
  rcases hop with hop | hop | hop | hop | hop | hop | hop | hop | hop | hop | hop | hop | hop |
    hop | hop | hop | hop | hop | hop | hop | hop | hop | hop | hop | hop | hop | hop | hop | hop |
    hop | hop <;>
    simp [aluCall, opcode_eq, hop, signExtTable] at hcall htaken <;>
    subst hcall <;>
    simp [Mexu.decodeOp, hop, Mexu.decodeDefault, BSrc.vhdl, Exu.isLoad, Exu.isStore, Exu.isCust7,
      AluCall.address, htaken]

/-- `JR`, `JALR` -/
theorem decodeOp_jumpReg {insn sr : TWord} (hop : opcode insn = 0x11 ∨ opcode insn = 0x12) :
    (Mexu.decodeOp insn sr).d.exResSel = .reg := by
  have hop1 : op1 insn = 0x11 ∨ op1 insn = 0x12 :=
    hop.imp (BitVec.eq_of_toNat_eq ·) (BitVec.eq_of_toNat_eq ·)
  rcases hop1 with h | h <;>
    simp [Mexu.decodeOp, h, Exu.isLoad, Exu.isStore, Exu.isCust7, Mexu.jumpTaken, Exu.jumpTaken]

/-- Loads and stores are the same opcodes. -/
theorem decodeOp_access {insn sr : TWord} (hlegal : (Mexu.decodeOp insn sr).d.illOp = false) :
    ((Mexu.decodeOp insn sr).d.memLsuLoad = decide (0x21 ≤ opcode insn ∧ opcode insn ≤ 0x26)) ∧
      ((Mexu.decodeOp insn sr).d.memLsuStore = decide (0x35 ≤ opcode insn ∧ opcode insn ≤ 0x37)) ∧
      ((Mexu.decodeOp insn sr).d.memLsuExts = !insn.getLsbD 26) := by
  have hop := op1_cases hlegal
  simp only [List.mem_cons, List.not_mem_nil, or_false] at hop
  rcases hop with hop | hop | hop | hop | hop | hop | hop | hop | hop | hop | hop | hop | hop |
    hop | hop | hop | hop | hop | hop | hop | hop | hop | hop | hop | hop | hop | hop | hop | hop |
    hop | hop | hop <;>
    simp only [Mexu.decodeOp, hop, opcode_eq, Exu.isLoad, Exu.isStore, Exu.isCust7, List.mem_cons,
      List.not_mem_nil, or_false, or_true, BitVec.reduceEq, BitVec.reduceToNat, BitVec.reduceBEq,
      decide_true, decide_false, if_true, if_false, Bool.false_eq_true] <;>
    (try split_ifs) <;>
    exact ⟨rfl, rfl, rfl⟩

theorem load_width {insn : TWord} (h : 0x21 ≤ opcode insn ∧ opcode insn ≤ 0x26) :
    Mexu.lsuWidth insn true = loadWidth insn := by
  have hall : ∀ op : BitVec 6, 0x21 ≤ op.toNat ∧ op.toNat ≤ 0x26 →
      (op.extractLsb' 0 3 - 1).extractLsb' 1 2 =
        BitVec.ofNat 2 (((op.toNat - 1) &&& 6) >>> 1) := by decide
  exact hall (op1 insn) h

theorem store_width {insn : TWord} (h : 0x35 ≤ opcode insn ∧ opcode insn ≤ 0x37) :
    Mexu.lsuWidth insn false = storeWidth insn := by
  have hall : ∀ op : BitVec 6, 0x35 ≤ op.toNat ∧ op.toNat ≤ 0x37 →
      (op.extractLsb' 0 3 - 1).extractLsb' 0 2 = BitVec.ofNat 2 ((op.toNat - 1) &&& 3) := by
    decide
  exact hall (op1 insn) h

theorem signExt_eq (insn : TWord) : signExt insn = !insn.getLsbD 26 := by
  rw [signExt, opcode, BitVec.testBit_toNat, BitVec.getLsbD_extractLsb']
  rfl

/-- A branch is taken in both models or in neither. -/
theorem jumpTaken_eq {insn sr : TWord} (r : Regs) (hflag : sr.getLsbD Mexu.flag = r.regF)
    (hlegal : (Mexu.decodeOp insn sr).d.illOp = false) (hop : opcode insn ≤ 4) :
    Mexu.jumpTaken insn sr = jumpTaken r insn := by
  have hmem := op1_cases hlegal
  have hall : ∀ op : BitVec 6, op.toNat ≤ 4 → op ≠ 2 → op = 0 ∨ op = 1 ∨ op = 3 ∨ op = 4 := by
    decide
  have htwo : op1 insn ≠ 2 := by
    intro h
    rw [h] at hmem
    exact absurd hmem (by decide)
  rw [Mexu.jumpTaken, Exu.jumpTaken, hflag, jumpTaken, opcode_eq]
  rcases hall (op1 insn) hop htwo with h | h | h | h <;> rw [h] <;> simp

-- ---------------------------------------------------------------------------
-- Both decoders
-- ---------------------------------------------------------------------------

theorem Thread.toHead_zero (t : Thread) : t.toHead.r.regFile 0 = 0 := by
  simp [Thread.toHead]

/-- What `mexu` registers for a word it decodes, with the registers of the other model. -/
def decodedWith (c : Mexu.Config) (rM : Mexu.Registers) (spr : Mexu.Spr) (ifuo : IfuOut) (r : Regs) :
    Mexu.DecodeReg :=
  let spr := { spr with sr := setBit spr.sr Mexu.flag r.regF }
  let o := Mexu.insnDecode rM spr ifuo false
  Mexu.operands c o ifuo.ir (r.regFile o.rselA) (r.regFile o.rselB)

section Operands

variable {c : Mexu.Config} {rM : Mexu.Registers} {spr : Mexu.Spr} {ifuo : IfuOut} {r : Regs}

theorem decodedWith_b (hzero : r.regFile 0 = 0) :
    (decodedWith c rM spr ifuo r).b = r.regFile (ifuo.ir.extractLsb' 11 5) := by
  refine Eq.trans ?_
    (congrArg r.regFile (decodeOp_rselB ifuo.ir (setBit spr.sr Mexu.flag r.regF)))
  change (if _ then _ else _) = _
  split_ifs with h
  · exact hzero.symm.trans (congrArg r.regFile h.symm)
  · rfl

/-- The first operand of all but jumps. -/
theorem decodedWith_in1 (hzero : r.regFile 0 = 0)
    (hsrc : (Mexu.decodeOp ifuo.ir (setBit spr.sr Mexu.flag r.regF)).aluSrcA = true) :
    (decodedWith c rM spr ifuo r).aluIn1 = r.regFile (ifuo.ir.extractLsb' 16 5) := by
  refine Eq.trans (if_pos hsrc)
    (Eq.trans ?_ (congrArg r.regFile (decodeOp_rselA ifuo.ir (setBit spr.sr Mexu.flag r.regF))))
  change (if _ then _ else _) = _
  split_ifs with h
  · exact hzero.symm.trans (congrArg r.regFile h.symm)
  · rfl

theorem decodedWith_in2 (hzero : r.regFile 0 = 0) {call : AluCall}
    (hcall : aluCall ifuo.ir = some call)
    (hlegal : (decodedWith c rM spr ifuo r).illOp = false)
    (htaken : opcode ifuo.ir ≤ 4 → jumpTaken r ifuo.ir = true) :
    (decodedWith c rM spr ifuo r).aluIn2 = inB r ifuo.ir call.bSrc := by
  have hflag : (setBit spr.sr Mexu.flag r.regF).getLsbD Mexu.flag = r.regF := by
    rw [Mexu.getLsbD_setBit _ (by decide), if_pos rfl]
  have hsrc := decodeOp_srcB hcall hlegal
    (fun h => (jumpTaken_eq r hflag hlegal h).trans (htaken h))
  change (if (Mexu.decodeOp ifuo.ir (setBit spr.sr Mexu.flag r.regF)).aluSrcB = .reg then
      (decodedWith c rM spr ifuo r).b
    else Mexu.immediateSignExtend c
      (Mexu.decodeOp ifuo.ir (setBit spr.sr Mexu.flag r.regF)).aluSrcB ifuo.ir) = _
  rw [hsrc]
  by_cases hreg : call.bSrc = .reg
  · rw [hreg]
    exact decodedWith_b hzero
  · rw [if_neg (fun h => hreg (BSrc.vhdl_reg h)), inB_imm c r ifuo.ir hreg]

end Operands

/-- For a word that both models know, at the head of the loop: the second operand of the ALU, the
target of a jump to a register, and the accesses. -/
theorem decode_agree (c : Mexu.Config) (rM : Mexu.Registers) (spr : Mexu.Spr) (ifuo : IfuOut)
    (t : Thread) (hlegal : (decodedWith c rM spr ifuo t.toHead.r).illOp = false) :
    let insn := ifuo.ir
    let r := t.toHead.r
    let d := decodedWith c rM spr ifuo r
    (∀ call, aluCall insn = some call → (opcode insn ≤ 4 → jumpTaken r insn = true) →
      d.aluIn2 = inB r insn call.bSrc) ∧
    (opcode insn = 0x11 ∨ opcode insn = 0x12 →
      d.exResSel = .reg ∧ d.b = r.regFile (insn.extractLsb' 11 5)) ∧
    (d.memLsuLoad = decide (0x21 ≤ opcode insn ∧ opcode insn ≤ 0x26)) ∧
    (d.memLsuStore = decide (0x35 ≤ opcode insn ∧ opcode insn ≤ 0x37)) ∧
    (d.memLsuLoad = true → d.memLsuWidth = loadWidth insn ∧ d.memLsuExts = signExt insn) ∧
    (d.memLsuStore = true → d.memLsuWidth = storeWidth insn ∧
      d.b = r.regFile (insn.extractLsb' 11 5)) := by
  intro insn r d
  have hzero : r.regFile 0 = 0 := t.toHead_zero
  have hb : d.b = r.regFile (insn.extractLsb' 11 5) := decodedWith_b hzero
  have hwidth : d.memLsuWidth = Mexu.lsuWidth insn d.memLsuLoad := rfl
  obtain ⟨hload, hstore, hexts⟩ := decodeOp_access hlegal
  refine ⟨fun call hcall htaken => decodedWith_in2 hzero hcall hlegal htaken,
    fun hop => ⟨decodeOp_jumpReg hop, hb⟩, hload, hstore, ?_, ?_⟩
  · intro h
    rw [hwidth, h]
    exact ⟨load_width (of_decide_eq_true (hload.symm.trans h)), hexts.trans (signExt_eq insn).symm⟩
  · intro h
    have hrange := of_decide_eq_true (hstore.symm.trans h)
    have hno : d.memLsuLoad = false := hload.trans (decide_eq_false (by omega))
    rw [hwidth, hno]
    exact ⟨store_width hrange, hb⟩

/-- `l.sw -4(r0),r2` with a negative split offset. -/
theorem decode_agree_sw :
    let d := decodedWith Mexu.plainConfig Mexu.resetState.r Mexu.resetState.spr
      ⟨0xd7e017fc, 0, 0x100, 0x104, true, true⟩ Regs.initial
    d.aluIn2 = inB Regs.initial 0xd7e017fc .imm162s ∧ d.memLsuWidth = storeWidth 0xd7e017fc := by
  have h := decode_agree Mexu.plainConfig Mexu.resetState.r Mexu.resetState.spr
    ⟨0xd7e017fc, 0, 0x100, 0x104, true, true⟩ (Thread.reset Regs.initial Signals.initial) (by decide)
  obtain ⟨hin, -, -, hstore, -, haccess⟩ := h
  exact ⟨hin (.address .reg .imm162s) rfl (fun h => absurd h (by decide)), (haccess (by decide)).1⟩

end ParaNut.SysC.MExu
