import ParaNut.Exu.LoadStore
import ParaNut.Exu.Units
import ParaNut.Ifu.Prefetch

/-!
# The execution unit (`mexu.vhd`)

One cycle of the combinational process in the source's order: exception,
execute, memory, write back, decode, fetch control. The execute stage controls
all that follow it, and decodes the next instruction in the cycle in which it
completes the present one. Histograms are left out, as is `mode`, which nothing
reads.
-/

namespace ParaNut.Mexu

open Exu (ExOp op1 ShiftIn ShiftOut MulIn MulOut)
open Ifu (IfuIn IfuOut)
open Lsu (LsuIn LsuOut)

/-- `CFG_EXU_SHIFT_IMPL`, `CFG_EXU_MUL_PIPE_STAGES` and what `get_spr` reports. -/
structure Config where
  shiftImpl : ℕ
  mulStages : ℕ
  cacheBanks : ℕ
  cacheSetsLd : ℕ
  cacheWaysLd : ℕ
  cpuCores : ℕ
  cpuId : ℕ
  /-- the value a don't-care (`'-'`) takes -/
  dontCare : TWord

/-- `EX_RES_ALU`, `EX_RES_MUL`, `EX_RES_SHIFT`, `EX_RES_REG` -/
inductive ResSel
  | alu
  | mul
  | shift
  | reg
  deriving DecidableEq

/-- `RF_WRD_EX_RES`, `RF_WRD_LOAD`, `RF_WRD_NPC`, `RF_WRD_SPR` -/
inductive WrdSel
  | exRes
  | load
  | npc
  | spr
  deriving DecidableEq

/-- `AB_SRC` -/
inductive AluSrcB
  | reg
  | imm16s
  | imm16z
  | imm16hi
  | imm162
  | imm26s
  deriving DecidableEq

/-- `STAGE_IF`, `STAGE_ID`, `STAGE_EX`, `STAGE_XC` -/
inductive Stage
  | fetch
  | decode
  | execute
  | exception
  deriving DecidableEq

/-- `exception_state_type` -/
inductive XcState
  | init
  | flushPipl
  | jump
  deriving DecidableEq

/-- `exception_reg_type` -/
structure ExceptionReg where
  state : XcState
  pc : TWord
  id : BitVec 4
  pcStageId : Stage
  inDelaySlot : Bool
  saveEear : Bool
  deriving DecidableEq

/-- `execute_reg_type` -/
structure ExecuteReg where
  state : Exu.State
  wbResult : TWord
  deriving DecidableEq

/-- `decode_reg_type` -/
structure DecodeReg where
  aluFunc : BitVec 5
  aluIn1 : TWord
  aluIn2 : TWord
  b : TWord
  pc : TWord
  illOp : Bool
  sys : Bool
  trap : Bool
  exOp : ExOp
  exShiftMode : BitVec 2
  exBhwExts : Bool
  exBhwSel : Bool
  exSigned : Bool
  exCompMode : BitVec 3
  exSetCyOv : Bool
  exSetF : Bool
  exResSel : ResSel
  memLsuWidth : BitVec 2
  memLsuExts : Bool
  memLsuLoad : Bool
  memLsuStore : Bool
  memLsuFlush : Bool
  memLsuCacheInvalidate : Bool
  memLsuCacheWriteback : Bool
  wbJumpLinked : Bool
  wbSetRegD : Bool
  wbRselD : BitVec 5
  wbWdataSel : WrdSel
  inDelaySlot : Bool
  halt : Bool
  deriving DecidableEq

structure Registers where
  x : ExceptionReg
  e : ExecuteReg
  d : DecodeReg
  /-- `f.in_delay_slot` -/
  fInDelaySlot : Bool
  deriving DecidableEq

/-- `special_purpose_registers` -/
structure Spr where
  epcr : TWord
  eear : TWord
  esr : TWord
  sr : TWord
  deriving DecidableEq

-- ---------------------------------------------------------------------------
-- Supervision register
-- ---------------------------------------------------------------------------

def setBit (w : TWord) (n : ℕ) (v : Bool) : TWord :=
  if v then w ||| BitVec.twoPow 32 n else w &&& ~~~ BitVec.twoPow 32 n

/-- The positions of `SUMRA`, `DSX`, `OV`, `CY`, `F`, `ICE`, `DCE`, `IEE` and `TEE`. -/
def sumra : ℕ := 16
def dsx : ℕ := 13
def ov : ℕ := 11
def cy : ℕ := 10
def flag : ℕ := 9
def ice : ℕ := 4
def dce : ℕ := 3
def iee : ℕ := 2
def tee : ℕ := 1

/-- `get_dccfgr` -/
def getDccfgr (c : Config) : TWord :=
  setBit 0 8 true ||| setBit 0 7 (decide (4 < c.cacheBanks)) |||
    ((BitVec.ofNat 4 c.cacheSetsLd).setWidth 32 <<< 3) |||
    (BitVec.ofNat 3 c.cacheWaysLd).setWidth 32

/-- `get_spr` -/
def getSpr (c : Config) (regAddr : BitVec 16) (r : Registers) (spr : Spr) (ifuo : IfuOut) :
    TWord :=
  let grp := (regAddr.extractLsb' 11 5).toNat
  let reg := (regAddr.extractLsb' 0 11).toNat
  if grp = 0 then
    if 32 ≤ reg ∧ reg ≤ 47 then spr.epcr
    else if 48 ≤ reg ∧ reg ≤ 63 then spr.eear
    else if 64 ≤ reg ∧ reg ≤ 79 then spr.esr
    else if reg = 0 then 0x1f000000
    else if reg = 1 then 7
    else if reg = 2 then 0x20
    else if reg = 5 ∨ reg = 6 then getDccfgr c
    else if reg = 16 then ifuo.pc
    else if reg = 18 then r.x.pc
    else if reg = 17 then spr.sr
    else 0
  else if grp = 24 then
    if 32 ≤ reg ∧ reg ≤ 64 then 0
    else if reg = 0 then BitVec.ofNat 32 c.cpuCores
    else if reg = 1 then BitVec.allOnes 32
    else if reg = 2 then BitVec.ofNat 32 c.cpuId
    else 0
  else 0

/-- `set_spr` -/
def setSpr (regAddr : BitVec 16) (val : TWord) (spr : Spr) : Spr :=
  let grp := (regAddr.extractLsb' 11 5).toNat
  let reg := (regAddr.extractLsb' 0 11).toNat
  if grp = 0 then
    if 32 ≤ reg ∧ reg ≤ 47 then { spr with epcr := val }
    else if reg = 17 then
      { spr with
        sr := [sumra, dsx, ov, cy, flag, ice, dce, iee].foldl
          (fun sr n => setBit sr n (val.getLsbD n)) spr.sr }
    else spr
  else spr

-- ---------------------------------------------------------------------------
-- Exceptions
-- ---------------------------------------------------------------------------

/-- What `exception_detect` returns. -/
structure Detected where
  id : BitVec 4
  pcStageId : Stage
  inDelaySlot : Bool
  saveEear : Bool

/-- `exception_detect`; the stage is always `STAGE_EX`. A system call is not restarted. -/
def exceptionDetect (r : Registers) (spr : Spr) (alignErr : Bool) : Detected :=
  let restart := if r.d.inDelaySlot then Stage.exception else Stage.execute
  if spr.sr.getLsbD iee then
    if r.d.illOp then ⟨7, restart, r.d.inDelaySlot, false⟩
    else if alignErr then ⟨6, restart, r.d.inDelaySlot, true⟩
    else if r.d.sys then
      ⟨12, if r.d.inDelaySlot then .exception else .decode, r.d.inDelaySlot, false⟩
    else if r.d.trap then ⟨14, restart, r.d.inDelaySlot, false⟩
    else ⟨0, .execute, false, false⟩
  else ⟨0, .execute, false, false⟩

/-- `exception_save_registers` -/
def exceptionSaveRegisters (r : Registers) (spr : Spr) (ifuo : IfuOut) : Spr where
  epcr :=
    match r.x.pcStageId with
    | .fetch => ifuo.npc
    | .decode => ifuo.pc
    | .execute => r.d.pc
    | .exception => r.x.pc
  esr := spr.sr
  eear := if r.x.saveEear then r.e.wbResult else spr.eear
  sr := setBit (setBit (setBit spr.sr iee false) tee false) dsx r.x.inDelaySlot

-- ---------------------------------------------------------------------------
-- Decode
-- ---------------------------------------------------------------------------

/-- What `insn_decode` returns. -/
structure Decoded where
  d : DecodeReg
  rselA : BitVec 5
  rselB : BitVec 5
  /-- `AA_REG` -/
  aluSrcA : Bool
  aluSrcB : AluSrcB
  nextInDelaySlot : Bool

/-- A bubble; operands and the program counter are filled in later. -/
def decodeDefault (ir : TWord) : Decoded where
  d :=
    { aluFunc := 5
      aluIn1 := 0
      aluIn2 := 0
      b := 0
      pc := 0
      illOp := false
      sys := false
      trap := false
      exOp := .nop
      exShiftMode := ir.extractLsb' 6 2
      exBhwExts := !ir.getLsbD 7
      exBhwSel := ir.getLsbD 6
      exSigned := ir.getLsbD 24
      exCompMode := ir.extractLsb' 21 3
      exSetCyOv := false
      exSetF := false
      exResSel := .alu
      memLsuWidth := 0
      memLsuExts := !ir.getLsbD 26
      memLsuLoad := false
      memLsuStore := false
      memLsuFlush := false
      memLsuCacheInvalidate := ir.getLsbD 11
      memLsuCacheWriteback := ir.getLsbD 12
      wbJumpLinked := false
      wbSetRegD := false
      wbRselD := ir.extractLsb' 21 5
      wbWdataSel := .exRes
      inDelaySlot := false
      halt := false }
  rselA := 0
  rselB := 0
  aluSrcA := true
  aluSrcB := .reg
  nextInDelaySlot := false

/-- `J | JAL | JR | JALR`, and a branch whose flag is as bit 28 wants it. -/
def jumpTaken (ir sr : TWord) : Bool := Exu.jumpTaken ir (sr.getLsbD flag)

attribute [local instance] Exu.op_lawfulBEq in
/-- The case distinction over `op1`, for a valid instruction. -/
def decodeOp (ir sr : TWord) : Decoded :=
  let o := decodeDefault ir
  let o := { o with rselA := ir.extractLsb' 16 5, rselB := ir.extractLsb' 11 5 }
  let op := op1 ir
  let op3 := ir.extractLsb' 0 4
  if op = 0b111000#6 then
    -- `ALU`: `MULU`, `MUL`, `SHIFT`, others
    let d := { o.d with wbSetRegD := true, exSetCyOv := true }
    if op3 = 0b1011#4 then { o with d := { d with exOp := .mul, exResSel := .mul, exSigned := false } }
    else if op3 = 0b0110#4 then
      { o with d := { d with exOp := .mul, exResSel := .mul, exSigned := true } }
    else if op3 = 0b1000#4 then { o with d := { d with exOp := .shift, exResSel := .shift } }
    else { o with d := { d with exOp := .alu, aluFunc := op3.setWidth 5 } }
  else if op ∈ [0b100111#6, 0b101000#6, 0b101001#6, 0b101010#6, 0b101011#6] then
    -- `ADDI | ADDIC | ANDI | ORI | XORI`
    let func : BitVec 5 :=
      if op = 0b100111#6 then 0 else if op = 0b101000#6 then 1 else if op = 0b101001#6 then 3
      else if op = 0b101010#6 then 4 else 5
    { o with
      d := { o.d with exOp := .alu, aluFunc := func, wbSetRegD := true, exSetCyOv := true }
      aluSrcB := if op = 0b101001#6 ∨ op = 0b101010#6 then .imm16z else .imm16s }
  else if op = 0b101100#6 then
    -- `MULI`
    { o with
      d := { o.d with
        exOp := .mul, exResSel := .mul, exSigned := true, wbSetRegD := true, exSetCyOv := true }
      aluSrcB := .imm16s }
  else if op = 0b111001#6 then
    -- `SETF`
    { o with d := { o.d with exOp := .alu, aluFunc := 2, exSetF := true } }
  else if op = 0b101110#6 then
    -- `SRLI`
    { o with
      d := { o.d with exOp := .shift, exResSel := .shift, wbSetRegD := true, exSetCyOv := true }
      aluSrcB := .imm16s }
  else if op = 0b101111#6 then
    -- `SETFI`
    { o with d := { o.d with exOp := .alu, aluFunc := 2, exSetF := true }, aluSrcB := .imm16s }
  else if op = 0b000110#6 then
    -- `MOVHI`
    { o with
      d := { o.d with exOp := .alu, aluFunc := 16, wbSetRegD := true }
      aluSrcB := .imm16hi }
  else if Exu.isLoad op then
    { o with
      d := { o.d with
        exOp := .ls, wbWdataSel := .load, aluFunc := 0, wbSetRegD := true, memLsuLoad := true }
      aluSrcB := .imm16s }
  else if Exu.isStore op then
    { o with d := { o.d with exOp := .ls, aluFunc := 0, memLsuStore := true }, aluSrcB := .imm162 }
  else if Exu.isCust7 op then
    { o with d := { o.d with exOp := .ls, aluFunc := 0, memLsuFlush := true }, aluSrcB := .imm162 }
  else if op ∈ [0b000000#6, 0b000001#6, 0b000100#6, 0b000011#6, 0b010001#6, 0b010010#6] then
    -- `J | JAL | BF | BNF | JR | JALR`
    if jumpTaken ir sr then
      let d := { o.d with exOp := .jump }
      let o :=
        if 0b010001#6 ≤ op then { o with d := { d with exResSel := .reg } }
        else { o with d := { d with aluFunc := 0 }, aluSrcA := false, aluSrcB := .imm26s }
      let o :=
        if op = 0b000001#6 ∨ op = 0b010010#6 then
          { o with d := { o.d with wbWdataSel := .npc, wbJumpLinked := true } }
        else o
      { o with nextInDelaySlot := true }
    else o
  else if op = 0b000101#6 then
    -- `NOP`
    if ir.extractLsb' 0 16 = 1#16 then { o with d := { o.d with halt := true } } else o
  else if op = 0b001000#6 then
    -- `OTHER`: `SYS`, `TRAP`
    if ir.extractLsb' 21 5 = 0b00000#5 then { o with d := { o.d with sys := true } }
    else if ir.extractLsb' 21 5 = 0b01000#5 then
      { o with d := { o.d with trap := sr.getLsbD (ir.extractLsb' 0 5).toNat } }
    else o
  else if op = 0b001001#6 then
    -- `RFE`
    { o with d := { o.d with exOp := .rfe } }
  else if op = 0b101101#6 then
    -- `MFSPR`
    { o with
      d := { o.d with exOp := .alu, wbWdataSel := .spr, aluFunc := 4, wbSetRegD := true }
      aluSrcB := .imm16z }
  else if op = 0b110000#6 then
    -- `MTSPR`
    { o with d := { o.d with exOp := .setspr, aluFunc := 4 }, aluSrcB := .imm162 }
  else { o with d := { o.d with illOp := true } }

/-- `mem_lsu_width` -/
def lsuWidth (ir : TWord) (load : Bool) : BitVec 2 :=
  let width := (op1 ir).extractLsb' 0 3 - 1
  if load then width.extractLsb' 1 2 else width.extractLsb' 0 2

/-- `insn_decode`; without a valid instruction the PC and what belongs to it stay. -/
def insnDecode (r : Registers) (spr : Spr) (ifuo : IfuOut) (nextiInvalid : Bool) : Decoded :=
  let o :=
    if nextiInvalid then
      let o := decodeDefault ifuo.ir
      { o with
        d := { o.d with pc := r.d.pc, inDelaySlot := r.d.inDelaySlot }
        nextInDelaySlot := r.fInDelaySlot }
    else
      let o := decodeOp ifuo.ir spr.sr
      { o with d := { o.d with pc := ifuo.pc, inDelaySlot := r.fInDelaySlot } }
  { o with d := { o.d with memLsuWidth := lsuWidth ifuo.ir o.d.memLsuLoad } }

/-- `immediate_sign_extend` -/
def immediateSignExtend (c : Config) (sel : AluSrcB) (insn : TWord) : TWord :=
  match sel with
  | .imm16z => (insn.extractLsb' 0 16).setWidth 32
  | .imm16s => (insn.extractLsb' 0 16).signExtend 32
  | .imm16hi => insn.extractLsb' 0 16 ++ 0#16
  | .imm162 => (insn.extractLsb' 21 5 ++ insn.extractLsb' 0 11).signExtend 32
  | .imm26s => (insn.extractLsb' 0 26 ++ 0#2).signExtend 32
  | .reg => c.dontCare

/-- The operands, from the two registers read. -/
def operands (c : Config) (o : Decoded) (ir rd1 rd2 : TWord) : DecodeReg :=
  let a := if o.rselA = 0 then 0 else rd1
  let b := if o.rselB = 0 then 0 else rd2
  { o.d with
    b := b
    aluIn1 := if o.aluSrcA then a else o.d.pc
    aluIn2 := if o.aluSrcB = .reg then b else immediateSignExtend c o.aluSrcB ir }

-- ---------------------------------------------------------------------------
-- ALU
-- ---------------------------------------------------------------------------

/-- The sum of `run_alu` with its carry; `AF_ADC` is 1, `AF_SUB` is 2. -/
def resAdd (d : DecodeReg) (sr : TWord) : BitVec 33 :=
  let op2 := if d.aluFunc = 2 then ~~~ d.aluIn2 else d.aluIn2
  let cin := if d.aluFunc = 1 then sr.getLsbD cy else decide (d.aluFunc = 2)
  d.aluIn1.setWidth 33 + op2.setWidth 33 + (BitVec.ofBool cin).setWidth 33

/-- `AF_ADD | AF_ADC | AF_SUB` -/
def addFunc (d : DecodeReg) : Bool := d.aluFunc = 0 || d.aluFunc = 1 || d.aluFunc = 2

def outCy (d : DecodeReg) (sr : TWord) : Bool :=
  if d.aluFunc = 2 then !(resAdd d sr).getLsbD 32 else (resAdd d sr).getLsbD 32

def outOv (d : DecodeReg) (sr : TWord) : Bool :=
  let a := d.aluIn1.msb
  let b := d.aluIn2.msb
  let s := (resAdd d sr).getLsbD 31
  if d.aluFunc = 2 then (!a && b && s) || (a && !b && !s) else (a && b && !s) || (!a && !b && s)

/-- The comparison flag; `ex_comp_mode` 6 and 7 are not used. -/
def outF (c : Config) (d : DecodeReg) (sr : TWord) : Bool :=
  let zero := (resAdd d sr).setWidth 32 == 0#32
  let lt :=
    if d.exSigned then
      (outCy d sr && !(d.aluIn1.msb ^^ d.aluIn2.msb)) || (d.aluIn1.msb && !d.aluIn2.msb)
    else outCy d sr
  if !addFunc d then false
  else if d.exCompMode = 0 then zero
  else if d.exCompMode = 1 then !zero
  else if d.exCompMode = 4 then lt
  else if d.exCompMode = 5 then lt ^^ zero
  else if d.exCompMode = 2 then !lt ^^ zero
  else if d.exCompMode = 3 then !lt
  else c.dontCare.getLsbD 0

/-- `alu_out` of `run_alu` -/
def aluRes (c : Config) (d : DecodeReg) (sr : TWord) : TWord :=
  if addFunc d then (resAdd d sr).setWidth 32
  else if d.aluFunc = 3 then d.aluIn1 &&& d.aluIn2
  else if d.aluFunc = 4 then d.aluIn1 ||| d.aluIn2
  else if d.aluFunc = 5 then d.aluIn1 ^^^ d.aluIn2
  else if d.aluFunc = 12 then
    -- `AF_EXT`
    if d.exBhwSel then
      if !d.exBhwExts then (d.aluIn1.extractLsb' 0 8).signExtend 32
      else (d.aluIn1.extractLsb' 0 8).setWidth 32
    else
      if !d.exBhwExts then (d.aluIn1.extractLsb' 0 16).signExtend 32
      else (d.aluIn1.extractLsb' 0 16).setWidth 32
  else if d.aluFunc = 16 then d.aluIn2
  else if d.aluFunc = 14 then if sr.getLsbD flag then d.aluIn1 else d.aluIn2
  else c.dontCare

/-- `vs` of `run_alu`: carry, overflow and flag are written into `vs` as requested. -/
def aluFlags (c : Config) (d : DecodeReg) (sr vs : TWord) : TWord :=
  let vs :=
    if d.exSetCyOv && addFunc d then setBit (setBit vs cy (outCy d sr)) ov (outOv d sr) else vs
  if d.exSetF then setBit vs flag (outF c d sr) else vs

-- ---------------------------------------------------------------------------
-- The process
-- ---------------------------------------------------------------------------

/-- The inputs of a cycle but for the register file, shifter and multiplier. -/
structure In where
  ifuo : IfuOut
  lsuo : LsuOut
  duStall : Bool

section Process

variable (c : Config) (r : Registers) (spr : Spr) (i : In)

def detected : Detected := exceptionDetect r spr i.lsuo.alignErr

def xcAssert : Bool :=
  match r.x.state with
  | .init => (detected r spr i).id != 0
  | .flushPipl | .jump => true

def xcJump : Bool := r.x.state == .flushPipl && r.e.state == .init

def xcSkipDelaySlot : Bool := r.x.state == .jump

def exJump : Bool := r.e.state == .jump

def exRfeJump : Bool := r.e.state == .init && !i.duStall && r.d.exOp == .rfe

def exSkipDelaySlot : Bool := r.e.state == .rfe

def exNexti : Bool :=
  match r.e.state with
  | .init => !i.duStall && r.d.exOp == .nop && !r.d.halt
  | .aluWb | .loadMem | .lsWb | .jump | .mulWb | .shiftWb | .sprWb2 | .rfe => true
  | .lsMemStall | .cacheInvalidate1 | .cacheInvalidate2 | .shiftStall | .mulStall | .sprWb1 =>
    false

def exRfWrite : Bool :=
  match r.e.state with
  | .init => !i.duStall && r.d.exOp == .jump && r.d.wbJumpLinked
  | .aluWb | .loadMem => r.d.wbSetRegD
  | .shiftWb | .mulWb => true
  | _ => false

def shfti : ShiftIn where
  start :=
    r.e.state == .init && !i.duStall && r.d.exOp == .shift && c.shiftImpl == 0
  value := r.d.aluIn1
  cnt := r.d.aluIn2.extractLsb' 0 5
  mode := r.d.exShiftMode

def muli : MulIn where
  start := r.e.state == .init && !i.duStall && r.d.exOp == .mul
  signed := r.d.exSigned
  a := r.d.aluIn1
  b := r.d.aluIn2

def lsui : LsuIn where
  rd := r.e.state == .lsMemStall && r.d.memLsuLoad
  wr := r.e.state == .lsMemStall && r.d.memLsuStore
  flush := r.e.state == .lsMemStall && r.d.memLsuFlush
  cacheInvalidate := r.e.state == .cacheInvalidate2 && r.d.memLsuCacheInvalidate
  cacheWriteback := r.e.state == .cacheInvalidate2 && r.d.memLsuCacheWriteback
  width := r.d.memLsuWidth
  exts := r.d.memLsuExts
  adr := r.e.wbResult
  wdata := r.d.b

/-- `regfile_in_type`, the read addresses apart. -/
structure RegfileIn where
  wrEn : Bool
  wrAddr : BitVec 5
  wrData : TWord

def rfi : RegfileIn where
  wrEn := exRfWrite r i
  wrAddr := if r.d.wbJumpLinked then 9 else r.d.wbRselD
  wrData :=
    match r.d.wbWdataSel with
    | .npc => i.ifuo.npc
    | .load => i.lsuo.rdata
    | .spr => getSpr c (r.e.wbResult.extractLsb' 0 16) r spr i.ifuo
    | .exRes => r.e.wbResult

def nextXc : ExceptionReg :=
  match r.x.state with
  | .init =>
    if (detected r spr i).id != 0 then
      { r.x with
        id := (detected r spr i).id
        pcStageId := (detected r spr i).pcStageId
        inDelaySlot := (detected r spr i).inDelaySlot
        saveEear := (detected r spr i).saveEear
        state := .flushPipl }
    else r.x
  | .flushPipl => if r.e.state = .init then { r.x with state := .jump } else r.x
  | .jump => { r.x with state := .init }

def nextState (shfto : ShiftOut) (mulo : MulOut) : Exu.State :=
  match r.e.state with
  | .init =>
    if i.duStall then .init
    else
      match r.d.exOp with
      | .jump => .jump
      | .ls => .lsMemStall
      | .alu => .aluWb
      | .shift => if c.shiftImpl = 0 then .shiftStall else .shiftWb
      | .mul => .mulStall
      | .setspr => .sprWb1
      | .rfe => .rfe
      | .nop => .init
  | .lsMemStall =>
    if i.lsuo.ack then
      if r.d.memLsuFlush then .cacheInvalidate1
      else if r.d.memLsuLoad then .loadMem
      else .lsWb
    else if i.lsuo.alignErr then .init
    else .lsMemStall
  | .cacheInvalidate1 => .cacheInvalidate2
  | .cacheInvalidate2 => if i.lsuo.ack then .lsWb else .cacheInvalidate2
  | .shiftStall => if shfto.rdy then .shiftWb else .shiftStall
  | .mulStall => if mulo.rdy then .mulWb else .mulStall
  | .sprWb1 => .sprWb2
  | .aluWb | .loadMem | .lsWb | .jump | .mulWb | .shiftWb | .sprWb2 | .rfe => .init

def exResult (shfto : ShiftOut) (mulo : MulOut) : TWord :=
  match r.d.exResSel with
  | .shift => shfto.dout
  | .mul => mulo.p
  | .reg => r.d.b
  | .alu => aluRes c r.d spr.sr

def nextSpr : Spr :=
  let v := if xcJump r then exceptionSaveRegisters r spr i.ifuo else spr
  let v :=
    match r.e.state with
    | .init => if exRfeJump r i then { v with sr := spr.esr } else v
    | .sprWb1 => setSpr (r.e.wbResult.extractLsb' 0 16) r.d.b spr
    | _ => v
  { v with sr := aluFlags c r.d spr.sr v.sr }

def idNextiInvalid : Bool :=
  !i.ifuo.irValid || xcAssert r spr i || exSkipDelaySlot r || exJump r

def decoded : Decoded := insnDecode r spr i.ifuo (idNextiInvalid r spr i)

def ifui : IfuIn where
  jump := xcJump r || exRfeJump r i || exJump r
  nexti := xcSkipDelaySlot r || exSkipDelaySlot r ||
    (exNexti r i && !exJump r && !idNextiInvalid r spr i)
  jumpAdr :=
    if xcJump r then 0#20 ++ r.x.id ++ 0#8
    else if exRfeJump r i then spr.epcr
    else r.e.wbResult

/-- The registers after one cycle; `rd1` and `rd2` are read from the register file. -/
def next (shfto : ShiftOut) (mulo : MulOut) (rd1 rd2 : TWord) : Registers where
  x :=
    let x := nextXc r spr i
    if exNexti r i && !idNextiInvalid r spr i then { x with pc := r.d.pc } else x
  e := ⟨nextState c r i shfto mulo, exResult c r spr shfto mulo⟩
  d := if exNexti r i then operands c (decoded r spr i) i.ifuo.ir rd1 rd2 else r.d
  fInDelaySlot := if exNexti r i then (decoded r spr i).nextInDelaySlot else r.fInDelaySlot

/-- The reset branch. -/
def Registers.reset (v : Registers) : Registers where
  x := { v.x with state := .init }
  e := { v.e with state := .init }
  d := { v.d with exOp := .nop, halt := false }
  fInDelaySlot := false

end Process

-- ---------------------------------------------------------------------------
-- The unit
-- ---------------------------------------------------------------------------

/-- The process with register file, shifter and multiplier. -/
structure State where
  r : Registers
  spr : Spr
  rf : BitVec 5 → TWord
  shft : Exu.Shift.Registers
  mul : Exu.Mul.Registers

section Unit

variable (c : Config) (s : State) (i : In)

def shfto : ShiftOut := Exu.Shift.out c.shiftImpl s.shft (shfti c s.r i)

def mulo : MulOut := Exu.Mul.out c.mulStages s.mul

/-- `mem_3p_async_dist_inferred`: a read of the word being written gives the new data. -/
def rfo (a : BitVec 5) : TWord :=
  let w := rfi c s.r s.spr i
  if w.wrEn && w.wrAddr == a then w.wrData else s.rf a

def step : State where
  r := next c s.r s.spr i (shfto c s i) (mulo c s) (rfo c s i (decoded s.r s.spr i).rselA)
    (rfo c s i (decoded s.r s.spr i).rselB)
  spr := nextSpr c s.r s.spr i
  rf a :=
    let w := rfi c s.r s.spr i
    if w.wrEn && w.wrAddr == a then w.wrData else s.rf a
  shft := Exu.Shift.next s.shft (shfti c s.r i)
  mul := Exu.Mul.next c.mulStages s.mul (muli s.r i)

end Unit

end ParaNut.Mexu
