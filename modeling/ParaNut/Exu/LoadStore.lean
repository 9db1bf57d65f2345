import ParaNut.Lsu.Mlsu

/-!
# The execute stage (`mexu.vhd`), as the load/store unit sees it

The states of the execute stage, and of the decode stage what they select
their way by. Results and operands are modelled for loads, stores and cache
control, where the ALU adds an offset to a register; those of the other
instructions are inputs.
-/

namespace ParaNut.Exu

/-- `ex_op` -/
inductive ExOp
  | nop
  | mul
  | shift
  | alu
  | ls
  | jump
  | setspr
  | rfe
  deriving DecidableEq

/-- `execution_state_type` -/
inductive State
  | init
  | aluWb
  | lsMemStall
  | loadMem
  | lsWb
  | cacheInvalidate1
  | cacheInvalidate2
  | jump
  | shiftStall
  | mulStall
  | mulWb
  | shiftWb
  | sprWb1
  | sprWb2
  | rfe
  deriving DecidableEq

/-- The fields of `decode_reg_type`. -/
structure Decode where
  aluIn1 : TWord
  aluIn2 : TWord
  b : TWord
  exOp : ExOp
  memLsuWidth : BitVec 2
  memLsuExts : Bool
  memLsuLoad : Bool
  memLsuStore : Bool
  memLsuFlush : Bool
  memLsuCacheInvalidate : Bool
  memLsuCacheWriteback : Bool
  halt : Bool

structure Registers where
  state : State
  wbResult : TWord
  d : Decode

/-- The inputs of one cycle, the load/store unit's apart. -/
structure In where
  ir : TWord
  /-- `id_nexti_invalid`: there is no next instruction to decode -/
  nextiInvalid : Bool
  /-- `spr.SR(F)` -/
  srF : Bool
  /-- `id_a` and `id_b`, from the register file -/
  a : TWord
  b : TWord
  duStall : Bool
  shftRdy : Bool
  mulRdy : Bool
  /-- `ex_result` of the instructions other than loads, stores and cache control -/
  otherResult : TWord

-- ---------------------------------------------------------------------------
-- Decode
-- ---------------------------------------------------------------------------

def op1 (ir : TWord) : BitVec 6 := ir.extractLsb' 26 6

theorem op_lawfulBEq : LawfulBEq (BitVec 6) := inferInstance

/-- `LWZ | LWS | LBZ | LBS | LHZ | LHS` -/
def isLoad (op : BitVec 6) : Bool :=
  op ∈ [0b100001#6, 0b100010#6, 0b100011#6, 0b100100#6, 0b100101#6, 0b100110#6]

/-- `SW | SB | SH` -/
def isStore (op : BitVec 6) : Bool := op ∈ [0b110101#6, 0b110110#6, 0b110111#6]

/-- `CUST7`: cache control -/
def isCust7 (op : BitVec 6) : Bool := op == 0b111110#6

/-- `J | JAL | JR | JALR`, and `BF | BNF` with the flag as bit 28 wants it -/
def jumpTaken (ir : TWord) (srF : Bool) : Bool :=
  op1 ir ∈ [0b000000#6, 0b000001#6, 0b010001#6, 0b010010#6] ||
    (op1 ir ∈ [0b000011#6, 0b000100#6] && srF == ir.getLsbD 28)

/-- `d.ex_op` of a valid instruction. -/
def decodeOp (ir : TWord) (srF : Bool) : ExOp :=
  let op := op1 ir
  let op3 := ir.extractLsb' 0 4
  if isLoad op || isStore op || isCust7 op then .ls
  else if op = 0b111000#6 then
    -- `ALU` without immediate: `MULU`, `MUL`, `SHIFT`, others
    if op3 = 0b1011#4 ∨ op3 = 0b0110#4 then .mul else if op3 = 0b1000#4 then .shift else .alu
  else if op = 0b101100#6 then .mul
  else if op = 0b101110#6 then .shift
  else if jumpTaken ir srF then .jump
  else if op = 0b001001#6 then .rfe
  else if op = 0b110000#6 then .setspr
  -- `ADDI | ADDIC | ANDI | ORI | XORI`, `SETF`, `SETFI`, `MOVHI`, `MFSPR`
  else if op ∈ [0b100111#6, 0b101000#6, 0b101001#6, 0b101010#6, 0b101011#6, 0b111001#6,
      0b101111#6, 0b000110#6, 0b101101#6] then .alu
  else .nop

/-- `immediate_sign_extend` for `AB_IMM16S` and `AB_IMM162` -/
def imm16s (ir : TWord) : TWord := (ir.extractLsb' 0 16).signExtend 32
def imm162 (ir : TWord) : TWord := (ir.extractLsb' 21 5 ++ ir.extractLsb' 0 11).signExtend 32

/-- `insn_decode` -/
def insnDecode (i : In) : Decode :=
  let op := op1 i.ir
  let valid := !i.nextiInvalid
  let load := valid && isLoad op
  let width := op.extractLsb' 0 3 - 1
  { aluIn1 := i.a
    aluIn2 := if load then imm16s i.ir else imm162 i.ir
    b := i.b
    exOp := if valid then decodeOp i.ir i.srF else .nop
    memLsuWidth := if load then width.extractLsb' 1 2 else width.extractLsb' 0 2
    memLsuExts := !i.ir.getLsbD 26
    memLsuLoad := load
    memLsuStore := valid && isStore op
    memLsuFlush := valid && isCust7 op
    memLsuCacheInvalidate := i.ir.getLsbD 11
    memLsuCacheWriteback := i.ir.getLsbD 12
    halt := valid && op == 0b000101#6 && i.ir.extractLsb' 0 16 == 1#16 }

-- ---------------------------------------------------------------------------
-- Execute
-- ---------------------------------------------------------------------------

section Execute

variable (shiftImpl : ℕ) (r : Registers) (i : In) (lsuo : Lsu.LsuOut)

/-- The requests to the load/store unit. -/
def lsui : Lsu.LsuIn where
  rd := decide (r.state = .lsMemStall) && r.d.memLsuLoad
  wr := decide (r.state = .lsMemStall) && r.d.memLsuStore
  flush := decide (r.state = .lsMemStall) && r.d.memLsuFlush
  cacheWriteback := decide (r.state = .cacheInvalidate2) && r.d.memLsuCacheWriteback
  cacheInvalidate := decide (r.state = .cacheInvalidate2) && r.d.memLsuCacheInvalidate
  width := r.d.memLsuWidth
  exts := r.d.memLsuExts
  adr := r.wbResult
  wdata := r.d.b

/-- Next state, with `CFG_EXU_SHIFT_IMPL`. -/
def nextState : State :=
  match r.state with
  | .init =>
    if i.duStall then .init
    else
      match r.d.exOp with
      | .jump => .jump
      | .ls => .lsMemStall
      | .alu => .aluWb
      | .shift => if shiftImpl = 0 then .shiftStall else .shiftWb
      | .mul => .mulStall
      | .setspr => .sprWb1
      | .rfe => .rfe
      | .nop => .init
  | .lsMemStall =>
    if lsuo.ack then
      if r.d.memLsuFlush then .cacheInvalidate1
      else if r.d.memLsuLoad then .loadMem
      else .lsWb
    else if lsuo.alignErr then .init
    else .lsMemStall
  | .cacheInvalidate1 => .cacheInvalidate2
  | .cacheInvalidate2 => if lsuo.ack then .lsWb else .cacheInvalidate2
  | .shiftStall => if i.shftRdy then .shiftWb else .shiftStall
  | .mulStall => if i.mulRdy then .mulWb else .mulStall
  | .sprWb1 => .sprWb2
  | .aluWb | .loadMem | .lsWb | .jump | .mulWb | .shiftWb | .sprWb2 | .rfe => .init

/-- `ex_nexti` -/
def exNexti : Bool :=
  match r.state with
  | .init => !i.duStall && r.d.exOp == .nop && !r.d.halt
  | .aluWb | .loadMem | .lsWb | .jump | .mulWb | .shiftWb | .sprWb2 | .rfe => true
  | .lsMemStall | .cacheInvalidate1 | .cacheInvalidate2 | .shiftStall | .mulStall | .sprWb1 =>
    false

/-- The registers after one cycle. -/
def next : Registers where
  state := nextState shiftImpl r i lsuo
  wbResult := if r.d.exOp = .ls then r.d.aluIn1 + r.d.aluIn2 else i.otherResult
  d := if exNexti r i then insnDecode i else r.d

end Execute

/-- Reset leaves no instruction to execute. -/
def Registers.IsReset (r : Registers) : Prop :=
  r.state = .init ∧ r.d.exOp = .nop ∧ r.d.halt = false

/-- Cache control neither loads nor stores. -/
def Decode.WellFormed (d : Decode) : Prop :=
  d.exOp = .ls → d.memLsuFlush = true → d.memLsuLoad = false ∧ d.memLsuStore = false

theorem insnDecode_wellFormed (i : In) : (insnDecode i).WellFormed := by
  intro _ h
  simp only [insnDecode, isCust7, Bool.and_eq_true, beq_iff_eq] at h
  simp [insnDecode, isLoad, isStore, h.2]

/-- An instruction in the load/store states is a load, a store or cache control. -/
structure Invariant (r : Registers) : Prop where
  wellFormed : r.d.WellFormed
  ls : r.state ∈ [.lsMemStall, .cacheInvalidate1, .cacheInvalidate2] → r.d.exOp = .ls

theorem Registers.IsReset.invariant {r : Registers} (h : r.IsReset) : Invariant r where
  wellFormed hls := by simp [h.2.1] at hls
  ls hs := by simp [h.1] at hs

theorem exNexti_ls {r : Registers} {i : In}
    (h : r.state ∈ [.lsMemStall, .cacheInvalidate1, .cacheInvalidate2]) : exNexti r i = false := by
  simp only [List.mem_cons, List.not_mem_nil, or_false] at h
  rcases h with h | h | h <;> simp [exNexti, h]

theorem next_invariant {shiftImpl : ℕ} {r : Registers} (h : Invariant r) (i : In)
    (lsuo : Lsu.LsuOut) : Invariant (next shiftImpl r i lsuo) where
  wellFormed := by
    simp only [next]
    split
    · exact insnDecode_wellFormed i
    · exact h.wellFormed
  ls hs := by
    obtain ⟨-, hls⟩ := h
    cases hr : r.state
    case init =>
      simp only [next, nextState, hr] at hs ⊢
      cases hd : i.duStall <;> cases ho : r.d.exOp <;> simp [exNexti, hr, hd, ho] at hs ⊢
      split at hs <;> simp at hs
    case lsMemStall | cacheInvalidate1 | cacheInvalidate2 =>
      have hmem : r.state ∈ [.lsMemStall, .cacheInvalidate1, .cacheInvalidate2] := by simp [hr]
      simpa [next, exNexti_ls hmem] using hls hmem
    all_goals
      simp only [next, nextState, hr] at hs
      first | simp at hs; done | (split at hs <;> simp at hs)

end ParaNut.Exu
