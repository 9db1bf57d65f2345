import ParaNut.Ifu.Prefetch
import ParaNut.SysC.Alu

/-!
# The execution unit of the SystemC model (`exu.cpp`)

`MExu::MainThread` of the CePU as a state machine: a `Point` is the `wait` at
which the thread stands, and `resume` runs it to the next one. Signals it
assigns take effect with the clock edge after. `none` stands for an assertion
that fails or an error that ends the simulation. Traces, the performance
monitor and the characters printed are left out.
-/

namespace ParaNut.SysC.MExu

open Ifu (IfuOut IfuIn)

/-- `CPU_CORES`, `CPU_CORES_CAP`, and what a register gets from a read that returns nothing. -/
structure Config where
  cpuCores : ℕ
  cpuCoresCap : TWord
  indet : TWord

-- ---------------------------------------------------------------------------
-- Special registers
-- ---------------------------------------------------------------------------

/-- The supervision register as `GetSpr` puts it together. -/
def Regs.sr (r : Regs) : TWord :=
  0#15 ++ BitVec.ofBool r.regSUMRA ++ 1#1 ++ 0#1 ++ BitVec.ofBool r.regDSX ++ 0#1 ++
    BitVec.ofBool r.regOV ++ BitVec.ofBool r.regCY ++ BitVec.ofBool r.regF ++ 0#4 ++
    BitVec.ofBool r.regICE ++ BitVec.ofBool r.regDCE ++ BitVec.ofBool r.regIEE ++ 0#1 ++ 1#1

/-- `GetSpr`, with `localID = 0`. -/
def getSpr (c : Config) (r : Regs) (ifuo : IfuOut) (regNo : ℕ) : Option TWord :=
  if 32 ≤ regNo ∧ regNo ≤ 47 then some r.regEPCR
  else if 48 ≤ regNo ∧ regNo ≤ 63 then some r.regEEAR
  else if 64 ≤ regNo ∧ regNo ≤ 79 then some r.regESR
  else if 1024 ≤ regNo ∧ regNo ≤ 1535 then none
  else if 0xc020 ≤ regNo ∧ regNo ≤ 0xc03f then some c.cpuCoresCap
  else if 0xc040 ≤ regNo ∧ regNo ≤ 0xc05f then some (r.regCPUEN (regNo - 0xc040))
  else if 0xc060 ≤ regNo ∧ regNo ≤ 0xc07f then some (r.regLM (regNo - 0xc060))
  else if 0xc080 ≤ regNo ∧ regNo ≤ 0xc09f then some (r.regXT (regNo - 0xc080))
  else if 0xc400 ≤ regNo ∧ regNo ≤ 0xc7ff then some (r.regXID (regNo - 0xc400))
  else if regNo = 0xc000 then some (BitVec.ofNat 32 c.cpuCores)
  else if regNo = 0 then some 0x01000000
  else if regNo = 1 then some 0x00000007
  else if regNo = 2 then some 0x00000030
  else if 3 ≤ regNo ∧ regNo ≤ 8 then some 0
  else if regNo = 16 then some ifuo.pc
  else if regNo = 18 then some ifuo.ppc
  else if regNo = 20 then some 0
  else if regNo = 17 then some r.sr
  else if regNo = 0xc010 then some 0
  else some c.indet

/-- `SetSpr` -/
def setSpr (r : Regs) (ifuo : IfuOut) (regNo : ℕ) (val : TWord) : Option Regs :=
  if 32 ≤ regNo ∧ regNo ≤ 47 then some { r with regEPCR := val }
  else if 1024 ≤ regNo ∧ regNo ≤ 1535 then none
  else if 0xc040 ≤ regNo ∧ regNo ≤ 0xc05f then
    some { r with
      regIFUADR := ifuo.npc
      regCPUEN := Function.update r.regCPUEN (regNo - 0xc040) val }
  else if 0xc060 ≤ regNo ∧ regNo ≤ 0xc07f then
    some { r with regLM := Function.update r.regLM (regNo - 0xc060) val }
  else if regNo = 17 then
    some { r with
      regSUMRA := val.getLsbD 16
      regOV := val.getLsbD 11
      regCY := val.getLsbD 10
      regF := val.getLsbD 9
      regICE := val.getLsbD 4
      regDCE := val.getLsbD 3
      regIEE := val.getLsbD 2 }
  else some r

-- ---------------------------------------------------------------------------
-- Decoding
-- ---------------------------------------------------------------------------

def opcode (insn : TWord) : ℕ := (insn.extractLsb' 26 6).toNat

/-- The arguments of a call of `RunAlu`. -/
structure AluCall where
  func : Option AluFunc
  aSrc : ASrc
  bSrc : BSrc
  setRegD : Bool
  setCyOv : Bool
  setF : Bool

/-- `aluFuncTable` and `signExtTable` -/
def aluFuncTable : List AluFunc := [.add, .adc, .and, .or, .xor, .mul]
def signExtTable : List Bool := [true, true, false, false, true, true]

/-- An address calculation. -/
def AluCall.address (aSrc : ASrc) (bSrc : BSrc) : AluCall :=
  ⟨some .add, aSrc, bSrc, false, false, false⟩

/-- The call of `RunAlu` in the branch an instruction takes, if there is one. -/
def aluCall (insn : TWord) : Option AluCall :=
  let opcode := opcode insn
  if opcode = 0x38 then
    some ⟨AluFunc.ofCode (insn.extractLsb' 0 4), .reg, .reg, true, true, false⟩
  else if opcode = 0x39 then some ⟨some .sub, .reg, .reg, false, false, true⟩
  else if 0x27 ≤ opcode ∧ opcode ≤ 0x2c then
    let signExt := signExtTable.getD (opcode - 0x27) false
    some ⟨aluFuncTable[opcode - 0x27]?, .reg, if signExt then .imm16s else .imm16z, true, true, false⟩
  else if opcode = 0x2e then some ⟨some .sxx, .reg, .imm16s, true, true, false⟩
  else if opcode = 0x2f then some ⟨some .sub, .reg, .imm16s, false, false, true⟩
  else if opcode = 0x06 then some ⟨some .movhi, .reg, .imm16hi, true, false, false⟩
  else if 0x21 ≤ opcode ∧ opcode ≤ 0x26 then some (.address .reg .imm16s)
  else if 0x35 ≤ opcode ∧ opcode ≤ 0x37 then some (.address .reg .imm162s)
  else if opcode = 0x1b then some (.address .reg .imm16s)
  else if opcode = 0x33 then some (.address .reg .imm162s)
  else if opcode = 0x3e then some (.address .reg .imm162s)
  else if opcode ≤ 0x04 then some (.address .pc .imm26s)
  else if opcode = 0x2d then some ⟨some .or, .reg, .imm16z, false, false, false⟩
  else if opcode = 0x30 then some ⟨some .or, .reg, .imm162s, false, false, false⟩
  else none

/-- The ALU call of an instruction. -/
def execAlu (r : Regs) (ifuPc insn : TWord) : Option (Regs × TWord × ℕ) := do
  let call ← aluCall insn
  runAlu r ifuPc insn call.func call.aSrc call.bSrc call.setRegD call.setCyOv call.setF

def loadWidth (insn : TWord) : BitVec 2 := BitVec.ofNat 2 (((opcode insn - 1) &&& 6) >>> 1)

def storeWidth (insn : TWord) : BitVec 2 := BitVec.ofNat 2 ((opcode insn - 1) &&& 3)

def signExt (insn : TWord) : Bool := !(opcode insn).testBit 0

/-- A jump, or a branch whose flag is as bit 28 wants it. -/
def jumpTaken (r : Regs) (insn : TWord) : Bool :=
  opcode insn ≤ 0x01 || 0x11 ≤ opcode insn || r.regF == insn.getLsbD 28

-- ---------------------------------------------------------------------------
-- The thread
-- ---------------------------------------------------------------------------

/-- Where `MainThread` waits. -/
inductive Point
  /-- the head of the loop -/
  | head
  /-- the last `wait` of an instruction, with `ifu_next` set -/
  | last
  /-- `wait (delay - 1)`, with as many cycles to go -/
  | delay (n : ℕ)
  | loadAck
  | loadLast
  | storeAck
  | condAck
  | flushAck
  | flushed
  | cacheAck
  /-- the two cycles of a jump with link before it looks at `ifu_npc_valid`, and the loop there -/
  | linkNext
  | linkWait
  | linkValid
  | halted
  /-- after `l.rfe`: the two cycles and the loop that are to skip the delay slot -/
  | rfeNext
  | rfeWait
  | rfeSkip
  /-- the same for an exception -/
  | exceptNext
  | exceptSkip
  deriving DecidableEq

/-- The outputs. -/
structure Signals where
  ifu : IfuIn
  lsuRd : Bool
  lsuWr : Bool
  lsuFlush : Bool
  lsuCacheInvalidate : Bool
  lsuCacheWriteback : Bool
  lsuWidth : BitVec 2
  lsuExts : Bool
  lsuAdr : TWord
  lsuWdata : TWord
  lsuRlinkWcond : Bool

/-- Registers, outputs and local variables; `exceptId` is 0 wherever the thread waits. -/
structure Thread where
  r : Regs
  out : Signals
  point : Point
  insn : TWord
  inDelaySlot : Bool
  nextInDelaySlot : Bool

/-- The inputs. -/
structure In where
  ifuo : IfuOut
  lsuAck : Bool
  lsuRdata : TWord
  lsuWcondOk : Bool

section Thread

variable (c : Config) (t : Thread) (i : In)

/-- From the top of the loop to its first `wait`. -/
def Thread.toHead : Thread :=
  { t with
    r := { t.r with regFile := Function.update t.r.regFile 0 0 }
    out := { t.out with
      ifu := { t.out.ifu with nexti := false, jump := false }
      lsuRd := false
      lsuWr := false
      lsuCacheInvalidate := false
      lsuCacheWriteback := false }
    point := .head }

/-- `ifu_next = 1; wait (1);` -/
def Thread.next : Thread :=
  { t with out := { t.out with ifu := { t.out.ifu with nexti := true } }, point := .last }

/-- `ifu_jump_adr = adr; ifu_jump = 1; ifu_next = 1;` -/
def Thread.jumpTo (adr : TWord) : Thread :=
  { t with out := { t.out with ifu := ⟨true, true, adr⟩ } }

/-- `ifu_next = ifu_jump = 0;` -/
def Thread.release : Thread :=
  { t with out := { t.out with ifu := { t.out.ifu with nexti := false, jump := false } } }

/-- Write the register that bits 25 to 21 of the instruction name. -/
def Thread.writeD (w : TWord) : Thread :=
  { t with
    r := { t.r with regFile := Function.update t.r.regFile (t.insn.extractLsb' 21 5) w } }

/-- The register that bits 15 to 11 name. -/
def Thread.regB : TWord := t.r.regFile (t.insn.extractLsb' 11 5)

/-- The ALU instructions: wait as `RunAlu` says, then take the next instruction. -/
def Thread.alu : Option Thread := do
  let (r, _, delay) ← execAlu t.r i.ifuo.pc t.insn
  let t := { t with r := r }
  return if 1 < delay then { t with point := .delay (delay - 1) } else t.next

/-- The result of an address calculation, or of the register number of a move. -/
def Thread.address : Option TWord := do
  let (_, adr, _) ← execAlu t.r i.ifuo.pc t.insn
  return adr

/-- The loops that wait for `lsu_ack`: it is looked at before the first `wait`. -/
def Thread.loadAck : Thread :=
  if i.lsuAck then
    { { t with out := { t.out with lsuRd := false } }.next with point := .loadLast }
  else { t with point := .loadAck }

def Thread.storeAck : Thread :=
  if i.lsuAck then { t with out := { t.out with lsuWr := false } }.next
  else { t with point := .storeAck }

def Thread.condAck : Thread :=
  if i.lsuAck then
    { t with r := { t.r with regF := true }, out := { t.out with lsuWr := false } }.next
  else { t with point := .condAck }

def Thread.flushAck : Thread :=
  if i.lsuAck then { t with out := { t.out with lsuFlush := false }, point := .flushed }
  else { t with point := .flushAck }

def Thread.cacheAck : Thread :=
  if i.lsuAck then
    { t with
      out := { t.out with lsuCacheInvalidate := false, lsuCacheWriteback := false } }.next
  else { t with point := .cacheAck }

/-- The exception handling at the end of the loop; `exceptId` is at most 15. -/
def Thread.handleException (exceptId : BitVec 4) (exceptRestart : Bool) : Thread :=
  let r := t.r
  let t :=
    { t with
      r := { r with
        regESR := r.sr
        regEPCR :=
          if exceptRestart then if t.inDelaySlot then i.ifuo.ppc else i.ifuo.pc else i.ifuo.npc
        regIEE := false } }
  { t.jumpTo (exceptId.setWidth 32 <<< 8) with point := .exceptNext }

/-- An instruction from the head of the loop to its first `wait`. -/
def Thread.perform : Option Thread :=
  let insn := t.insn
  let opcode := opcode insn
  if opcode ∈ [0x38, 0x39, 0x27, 0x28, 0x29, 0x2a, 0x2b, 0x2c, 0x2e, 0x2f, 0x06] then t.alu i
  else if 0x21 ≤ opcode ∧ opcode ≤ 0x26 then do
    let adr ← t.address i
    return { t with
      out := { t.out with
        lsuAdr := adr, lsuWidth := loadWidth insn, lsuExts := signExt insn, lsuRd := true }
      : Thread }.loadAck i
  else if 0x35 ≤ opcode ∧ opcode ≤ 0x37 then do
    let adr ← t.address i
    return { t with
      out := { t.out with
        lsuAdr := adr, lsuWdata := t.regB, lsuWidth := storeWidth insn, lsuWr := true }
      : Thread }.storeAck i
  else if opcode = 0x1b then do
    let adr ← t.address i
    return { t with
      out := { t.out with
        lsuRlinkWcond := true, lsuAdr := adr, lsuWidth := 0, lsuExts := signExt insn, lsuRd := true }
      : Thread }.loadAck i
  else if opcode = 0x33 then do
    let adr ← t.address i
    if i.lsuWcondOk then
      return { t with
        out := { t.out with lsuAdr := adr, lsuWdata := t.regB, lsuWidth := 0, lsuWr := true }
        : Thread }.condAck i
    else
      return { t with
        r := { t.r with regF := false }, out := { t.out with lsuAdr := adr } }.next
  else if opcode = 0x3e then do
    let adr ← t.address i
    return { t with out := { t.out with lsuAdr := adr, lsuFlush := true } : Thread }.flushAck i
  else if opcode ≤ 0x04 ∨ opcode = 0x11 ∨ opcode = 0x12 then do
    if jumpTaken t.r insn then
      let adr ← if 0x11 ≤ opcode then some t.regB else t.address i
      let t := { t with nextInDelaySlot := true }
      if opcode = 0x01 ∨ opcode = 0x12 then
        return { t with
          out := { t.out with ifu := { t.out.ifu with nexti := true, jumpAdr := adr } }
          point := .linkNext }
      else return { t.jumpTo adr with point := .last }
    else return t.next
  else if opcode = 0x05 then
    if insn.extractLsb' 0 16 = 1 then some { t with point := .halted } else some t.next
  else if opcode = 0x08 ∧ insn.extractLsb' 21 5 = 0 then some (t.handleException i 0xc false)
  else if opcode = 0x09 then do
    let r ← setSpr t.r i.ifuo 17 t.r.regESR
    return { ({ t with r := r }).jumpTo t.r.regEPCR with point := .rfeNext }
  else if opcode = 0x2d then do
    let regNo ← t.address i
    let val ← getSpr c t.r i.ifuo (regNo &&& 0xffff).toNat
    return (t.writeD val).next
  else if opcode = 0x30 then do
    let regNo ← t.address i
    let r ← setSpr t.r i.ifuo (regNo &&& 0xffff).toNat t.regB
    return { t with r := r }.next
  else none

/-- An instruction is taken at the head of the loop; `mode` is never 0 in the CePU. -/
def Thread.performs : Bool := t.point == .head && i.ifuo.irValid

/-- Instruction and delay slot flags at the head of the loop. -/
def Thread.decode : Thread :=
  { t with insn := i.ifuo.ir, inDelaySlot := t.nextInDelaySlot, nextInDelaySlot := false }

/-- From one `wait` to the next. -/
def resume : Option Thread :=
  match t.point with
  | .head => if i.ifuo.irValid then (t.decode i).perform c i else some t.toHead
  | .last => some t.toHead
  | .delay n => some (if 1 < n then { t with point := .delay (n - 1) } else t.next)
  | .loadAck => some (t.loadAck i)
  | .loadLast => some (t.writeD i.lsuRdata).toHead
  | .storeAck => some (t.storeAck i)
  | .condAck => some (t.condAck i)
  | .flushAck => some (t.flushAck i)
  | .flushed =>
    some ({ t with
      out := { t.out with
        lsuCacheInvalidate := t.insn.getLsbD 11, lsuCacheWriteback := t.insn.getLsbD 12 }
      : Thread }.cacheAck i)
  | .cacheAck => some (t.cacheAck i)
  | .linkNext =>
    some { t with
      out := { t.out with ifu := { t.out.ifu with nexti := false } }, point := .linkWait }
  | .linkWait | .linkValid =>
    some (if i.ifuo.npcValid then
      { t with
        r := { t.r with regFile := Function.update t.r.regFile 9 i.ifuo.npc }
        out := { t.out with ifu := { t.out.ifu with jump := true } }
        point := .last } else { t with point := .linkValid })
  | .halted => some t
  | .rfeNext => some { t.release with point := .rfeWait }
  | .rfeWait | .rfeSkip => some (if i.ifuo.irValid then t.toHead else { t with point := .rfeSkip })
  | .exceptNext =>
    some (if i.ifuo.irValid then t.release.toHead else { t.release with point := .exceptSkip })
  | .exceptSkip => some (if i.ifuo.irValid then t.toHead else t)

/-- The start of the thread, up to its first `wait`. -/
def Thread.reset (r : Regs) (out : Signals) : Thread :=
  Thread.toHead
    { r := { r with regICE := false, regDCE := false, regIEE := false }
      out := out
      point := .head
      insn := 0
      inDelaySlot := false
      nextInDelaySlot := false }

/-- Signals are 0 before they are first assigned. -/
def Regs.initial : Regs :=
  ⟨fun _ => 0, 0, 0, 0, fun _ => 0, fun _ => 0, fun _ => 0, fun _ => 0, 0, false, false, false, false,
    false, false, false, false⟩

def Signals.initial : Signals :=
  ⟨⟨false, false, 0⟩, false, false, false, false, false, 0, false, 0, 0, false⟩

end Thread

end ParaNut.SysC.MExu
