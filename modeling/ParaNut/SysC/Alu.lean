import ParaNut.Types

/-!
# The ALU of the SystemC model (`exu.cpp`)

`runAlu` is `MExu::RunAlu`: it selects the operands, computes a result with
its flags, and writes back what it is asked to. An assertion that fails is
`none`. Words are assigned from wider values as `sc_uint` does it, by
dropping the upper bits.
-/

namespace ParaNut.SysC.MExu

/-- `EAluFunc` -/
inductive AluFunc
  | add
  | adc
  | sub
  | and
  | or
  | xor
  | mul
  | sxx
  | div
  | divu
  | mulu
  | ext
  | cmov
  | fx1
  | movhi
  deriving DecidableEq

/-- The cast of a function code; 7 and 13 are no enumerators. -/
def AluFunc.ofCode (code : BitVec 4) : Option AluFunc :=
  [some .add, some .adc, some .sub, some .and, some .or, some .xor, some .mul, none, some .sxx,
    some .div, some .divu, some .mulu, some .ext, none, some .cmov, some .fx1][code.toNat]?.join

/-- `EAluASrc` -/
inductive ASrc
  | reg
  | pc
  deriving DecidableEq

/-- `EAluBSrc` -/
inductive BSrc
  | reg
  | imm16s
  | imm16z
  | imm16hi
  | imm162s
  | imm26s
  deriving DecidableEq

/-- The registers of `MExu`. -/
structure Regs where
  regFile : BitVec 5 → TWord
  regEPCR : TWord
  regEEAR : TWord
  regESR : TWord
  regCPUEN : ℕ → TWord
  regLM : ℕ → TWord
  regXT : ℕ → TWord
  regXID : ℕ → TWord
  regIFUADR : TWord
  regCY : Bool
  regOV : Bool
  regF : Bool
  regSUMRA : Bool
  regDSX : Bool
  regICE : Bool
  regDCE : Bool
  regIEE : Bool

/-- `DELAY_ALU` and `DELAY_MUL` -/
def delayAlu : ℕ := 1
def delayMul : ℕ := 3

section RunAlu

variable (r : Regs) (ifuPc insn : TWord)

def inA (aSrc : ASrc) : TWord :=
  match aSrc with
  | .pc => ifuPc
  | .reg => r.regFile (insn.extractLsb' 16 5)

def inB (bSrc : BSrc) : TWord :=
  match bSrc with
  | .imm16z => insn &&& 0xffff#32
  | .imm16s => ((insn &&& 0xffff#32) ^^^ 0x8000#32) - 0x8000#32
  | .imm16hi => (insn &&& 0xffff#32) <<< 16
  | .imm162s =>
    let v := (insn &&& 0x000007ff#32) + ((insn &&& 0x03e00000#32) >>> 10)
    (v ^^^ 0x8000#32) - 0x8000#32
  | .imm26s =>
    let v := insn &&& 0x03ffffff#32
    ((v ^^^ 0x02000000#32) - 0x02000000#32) <<< 2
  | .reg => r.regFile (insn.extractLsb' 11 5)

/-- What an operation yields, and in how many cycles. -/
structure AluOut where
  outRegD : TWord
  outCY : Bool
  outOV : Bool
  outF : Bool
  haveCyOv : Bool
  retDelay : ℕ

/-- A result without flags. -/
def AluOut.plain (w : TWord) : AluOut := ⟨w, false, false, false, false, delayAlu⟩

/-- `('0', w)`: the character is not 0, so the bit on top is set. -/
def withChar (w : TWord) : BitVec 33 := 1#1 ++ w

def signedB (func : AluFunc) (b : TWord) : BitVec 33 :=
  if func = .sub then -withChar b else withChar b

def addResult (func : AluFunc) (a b : TWord) : BitVec 33 :=
  let result := withChar a + signedB func b
  if func = .adc then result + (BitVec.ofBool r.regCY).setWidth 33 else result

/-- The cases `afAdd`, `afAdc` and `afSub`; `d` is the subcode of a comparison. -/
def runAdd (func : AluFunc) (a b : TWord) : AluOut :=
  let d := insn.extractLsb' 21 5
  let outRegD := (addResult r func a b).setWidth 32
  let outCY := (addResult r func a b).getLsbD 32
  let signB := (signedB func b).getLsbD 31
  let zero := outRegD == 0
  let lt :=
    if d.getLsbD 3 then (outCY && !(a.getLsbD 31 ^^ b.getLsbD 31)) || (a.getLsbD 31 && !b.getLsbD 31)
    else outCY
  { outRegD := outRegD
    outCY := outCY
    outOV := (a.getLsbD 31 && signB && !outRegD.getLsbD 31) ||
      (!a.getLsbD 31 && !signB && outRegD.getLsbD 31)
    outF :=
      if d.toNat ≤ 1 then d.getLsbD 0 ^^ zero
      else
        let f := if d.getLsbD 1 then !lt else lt
        if d.getLsbD 1 != d.getLsbD 0 then f ^^ zero else f
    haveCyOv := true
    retDelay := delayAlu }

/-- The case `afSxx`: concatenations of ranges, as wide as they get. -/
def runShift (a : TWord) (n : ℕ) : TWord :=
  let mode := insn.extractLsb' 6 2
  if n = 0 then a
  else if mode = 0 then (a.extractLsb' 0 (32 - n) ++ (0#32).extractLsb' 0 n).setWidth 32
  else if mode = 1 then ((0#32).extractLsb' 0 n ++ a.extractLsb' n (32 - n)).setWidth 32
  else if mode = 2 then
    ((if a.getLsbD 31 then -1#32 else 0#32).extractLsb' 0 n ++ a.extractLsb' n (32 - n)).setWidth 32
  else (a.extractLsb' 0 (32 - n) ++ a.extractLsb' n (32 - n)).setWidth 32

/-- The case `afExt` -/
def runExt (a : TWord) : TWord :=
  let mode := insn.extractLsb' 6 2
  if mode = 0 then ((a &&& 0xffff#32) ^^^ 0x8000#32) - 0x8000#32
  else if mode = 1 then ((a &&& 0xff#32) ^^^ 0x80#32) - 0x80#32
  else if mode = 2 then a &&& 0xffff#32
  else a &&& 0xff#32

def runOp (func : AluFunc) (a b : TWord) : Option AluOut :=
  let product : AluOut :=
    { AluOut.plain ((a.setWidth 64 * b.setWidth 64).setWidth 32) with
      haveCyOv := true, retDelay := delayMul }
  match func with
  | .add | .adc | .sub => some (runAdd r insn func a b)
  | .and => some (.plain (a &&& b))
  | .or => some (.plain (a ||| b))
  | .xor => some (.plain (a ^^^ b))
  | .mulu | .mul => some product
  | .sxx =>
    let n := (b.extractLsb' 0 5).toNat
    some { AluOut.plain (runShift insn a n) with retDelay := max n 1 }
  | .ext => some (.plain (runExt insn a))
  | .movhi => some (.plain b)
  | .cmov => some (.plain (if r.regF then a else b))
  | .div | .divu | .fx1 => none

/-- The write-back at the end of `RunAlu`. -/
def writeBack (o : AluOut) (setRegD setCyOv setF : Bool) : Regs :=
  { r with
    regFile :=
      if setRegD then Function.update r.regFile (insn.extractLsb' 21 5) o.outRegD else r.regFile
    regCY := if setCyOv && o.haveCyOv then o.outCY else r.regCY
    regOV := if setCyOv && o.haveCyOv then o.outOV else r.regOV
    regF := if setF then o.outF else r.regF }

/-- `RunAlu`: the registers, the result and the number of cycles. -/
def runAlu (func : Option AluFunc) (aSrc : ASrc) (bSrc : BSrc) (setRegD setCyOv setF : Bool) :
    Option (Regs × TWord × ℕ) := do
  let o ← runOp r insn (← func) (inA r ifuPc insn aSrc) (inB r insn bSrc)
  return (writeBack r insn o setRegD setCyOv setF, o.outRegD, o.retDelay)

end RunAlu

end ParaNut.SysC.MExu
