import ParaNut.Exu.Mexu

/-!
# The instruction stream, one instruction after the other

What the execution unit is for: fetch, decode, execute, write back, and only
then the next instruction. An instruction means what decoder and ALU make of
it; nothing overlaps, nothing waits. `Event` is what the surroundings see of an
instruction, here and in a cycle of the unit.
-/

namespace ParaNut.Mexu

open Exu (op1)
open Ifu (Stream)

/-- What the registers hold between two instructions. -/
structure Arch where
  pc : TWord
  /-- the target of a jump whose delay slot is next -/
  target : Option TWord
  rf : BitVec 5 → TWord
  sr : TWord
  /-- loads so far -/
  loads : ℕ

inductive Event
  | insn (pc : TWord)
  | flags (sr : TWord)
  | load (width : BitVec 2) (exts : Bool) (adr : TWord)
  | store (width : BitVec 2) (adr wdata : TWord)
  /-- a cache-control request -/
  | control
  | write (rd : BitVec 5) (v : TWord)
  deriving DecidableEq

attribute [local instance] Exu.op_lawfulBEq in
/-- The instructions of the straight pipeline: `ALU` with add, sub, and, or, xor, multiplications
and shifts, the same with immediates, `MOVHI`, `SETF`, `SETFI`, loads, stores, jumps and branches,
and `NOP` when it does not halt. -/
def covered (ir : TWord) : Bool :=
  if op1 ir = 0b111000#6 then
    ir.extractLsb' 0 4 ∈ [0#4, 2#4, 3#4, 4#4, 5#4, 6#4, 8#4, 11#4]
  else if op1 ir = 0b000101#6 then ir.extractLsb' 0 16 ≠ 1#16
  else
    op1 ir ∈ [0b100111#6, 0b101001#6, 0b101010#6, 0b101011#6, 0b101100#6, 0b101110#6, 0b000110#6,
      0b111001#6, 0b101111#6, 0b000000#6, 0b000001#6, 0b000011#6, 0b000100#6, 0b010001#6,
      0b010010#6] || Exu.isLoad (op1 ir) || Exu.isStore (op1 ir)

/-- The result of an instruction, unless it is loaded. -/
def result (c : Config) (d : DecodeReg) (sr : TWord) : TWord :=
  match d.exResSel with
  | .alu => aluRes c d sr
  | .shift => Exu.Shift.shifted d.aluIn1 (d.aluIn2.extractLsb' 0 5).toNat d.exShiftMode
  | .mul => d.aluIn1 * d.aluIn2
  | .reg => d.b

/-- The register written; `data` is what is loaded. -/
def written (c : Config) (d : DecodeReg) (sr link data : TWord) : Option (BitVec 5 × TWord) :=
  if d.wbJumpLinked then some (9, link)
  else if d.memLsuLoad then some (d.wbRselD, data)
  else if d.wbSetRegD then some (d.wbRselD, result c d sr)
  else none

def flagEvents (sr sr' : TWord) : List Event := if sr' = sr then [] else [.flags sr']

def requestEvents (d : DecodeReg) (adr : TWord) : List Event :=
  if d.memLsuLoad then [.load d.memLsuWidth d.memLsuExts adr]
  else if d.memLsuStore then [.store d.memLsuWidth adr d.b]
  else []

def writeEvents : Option (BitVec 5 × TWord) → List Event
  | none => []
  | some (rd, v) => [.write rd v]

namespace Arch

variable (c : Config) (mem : WordAdr → TWord) (A : Arch)

/-- R0 always reads as zero. -/
def reg (n : BitVec 5) : TWord := if n = 0 then 0 else A.rf n

/-- The address of the instruction after this one. -/
def following : TWord := A.target.getD (A.pc + 4)

def decode : DecodeReg :=
  let ir := mem (wordOf A.pc)
  let o := decodeOp ir A.sr
  operands c
    { o with
      d := { o.d with
        pc := A.pc
        inDelaySlot := A.target.isSome
        memLsuWidth := lsuWidth ir o.d.memLsuLoad } }
    ir (A.reg o.rselA) (A.reg o.rselB)

def result : TWord := Mexu.result c (A.decode c mem) A.sr

def flags : TWord := aluFlags c (A.decode c mem) A.sr A.sr

/-- A linked jump saves the address after its delay slot. -/
def written (data : TWord) : Option (BitVec 5 × TWord) :=
  Mexu.written c (A.decode c mem) A.sr (A.following + 4) data

def effects (data : TWord) : List Event :=
  flagEvents A.sr (A.flags c mem) ++ requestEvents (A.decode c mem) (A.result c mem) ++
    writeEvents (A.written c mem data)

/-- One instruction. -/
def exec (data : TWord) : Arch where
  pc := A.following
  target := if (A.decode c mem).exOp = .jump then some (A.result c mem) else none
  rf := (A.written c mem data).elim A.rf fun w => Function.update A.rf w.1 w.2
  sr := A.flags c mem
  loads := A.loads + (A.decode c mem).memLsuLoad.toNat

/-- The state after `n` instructions and their events; `data` is what the loads return. -/
def run (data : List TWord) : ℕ → Arch × List Event
  | 0 => (A, [])
  | n + 1 =>
    let (A, es) := run data n
    let w := data.getD A.loads 0
    (A.exec c mem w, es ++ .insn A.pc :: A.effects c mem w)

end Arch

-- ---------------------------------------------------------------------------
-- The unit, observed
-- ---------------------------------------------------------------------------

section Observed

variable (c : Config) (s : State) (i : In)

def lsuRequest : List Event :=
  let l := lsui s.r
  if l.rd then [.load l.width l.exts l.adr]
  else if l.wr then [.store l.width l.adr l.wdata]
  else if l.flush || l.cacheInvalidate || l.cacheWriteback then [.control]
  else []

def rfWrite : Option (BitVec 5 × TWord) :=
  let w := rfi c s.r s.spr i
  if w.wrEn then some (w.wrAddr, w.wrData) else none

/-- What the instruction in the unit does in this cycle; a request is seen when it is
acknowledged. -/
def cycleEffects : List Event :=
  flagEvents s.spr.sr (nextSpr c s.r s.spr i).sr ++ (if i.lsuo.ack then lsuRequest s else []) ++
    writeEvents (rfWrite c s i)

def cycleEvents : List Event :=
  cycleEffects c s i ++ if (ifui s.r s.spr i).nexti then [.insn i.ifuo.pc] else []

/-- The unit with the stream its fetch unit follows and what has been seen of it. -/
structure Observed where
  s : State
  stream : Stream
  trace : List Event
  /-- data that the LSU delivered for loads -/
  loaded : List TWord
  /-- instructions taken over from the fetch unit -/
  taken : ℕ

def Observed.step (o : Observed) : Observed where
  s := Mexu.step c o.s i
  stream := o.stream.step (ifui o.s.r o.s.spr i) i.ifuo.ir
  trace := o.trace ++ cycleEvents c o.s i
  loaded := if o.s.r.e.state = .loadMem then o.loaded ++ [i.lsuo.rdata] else o.loaded
  taken := o.taken + (ifui o.s.r o.s.spr i).nexti.toNat

end Observed

/-- Neither carry, overflow nor flag is set. -/
def Quiet (d : DecodeReg) : Prop := (d.exSetCyOv && addFunc d) = false ∧ d.exSetF = false

/-- No instruction. -/
structure Bubble (d : DecodeReg) : Prop where
  nop : d.exOp = .nop
  halt : d.halt = false
  illOp : d.illOp = false
  sys : d.sys = false
  trap : d.trap = false
  quiet : Quiet d

/-- Shifter and multiplier. -/
structure UnitsIdle (s : State) : Prop where
  shft : s.shft.counting = false
  shftCnt : s.shft.shftCnt = 0
  mul : s.mul.counting = false
  mulCnt : s.mul.mulCnt = 0

/-- A cycle without debugger and exceptions. The fetch unit offers the words of its stream when it
likes, and knows the address after next as soon as an instruction has been taken. -/
structure Env (mem : WordAdr → TWord) (o : Observed) (i : In) : Prop where
  duStall : i.duStall = false
  alignErr : i.lsuo.alignErr = false
  pc : i.ifuo.irValid = true → i.ifuo.pc = o.stream.pc
  ir : i.ifuo.irValid = true → i.ifuo.ir = mem (wordOf o.stream.pc)
  npc : o.stream.last ≠ none → i.ifuo.npc = o.stream.target.getD (o.stream.pc + 4)
  covered : (ifui o.s.r o.s.spr i).nexti = true → covered i.ifuo.ir = true

/-- After reset. -/
structure IsReset (s : State) : Prop where
  xc : s.r.x.state = .init
  state : s.r.e.state = .init
  slot : s.r.fInDelaySlot = false
  bubble : Bubble s.r.d
  units : UnitsIdle s

def Observed.reset (s : State) : Observed := ⟨s, Stream.reset, [], [], 0⟩

def Arch.reset (s : State) : Arch := ⟨Stream.reset.pc, none, s.rf, s.spr.sr, 0⟩

end ParaNut.Mexu
