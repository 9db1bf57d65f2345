import ParaNut.Memu.Types

/-!
# The read port (`mreadport.vhd`)
-/

namespace ParaNut.Memu.ReadPort

/-- `state_type` -/
inductive State
  | init
  | directWaitBusif
  | readTag
  | readBank
  | missWaitBusif
  | missRequestTag
  | missReadTag
  | missReplace
  deriving DecidableEq

structure Registers where
  state : State
  bankSel : ℕ
  deriving DecidableEq

/-- The inputs of the process: `rpi`, `rpci`, `rpbifi` and `rpai`. -/
structure In where
  rpi : ReadportIn
  bankDataIn : TWord
  tagIn : CacheTag
  busifAdr : TWord
  busifData : TWord
  busifDataValid : ℕ → Bool
  busifBusy : Bool
  gntTagr : Bool
  gntBusif : Bool
  gntBank : ℕ → Bool

/-- The outputs: `rpo`, `rpco`, `rpbifo` and `rpao`. `bankReqRd` stands for `bank_rd`, and for
`req_bank` at the bank of the address. -/
structure Out where
  portAck : Bool
  portData : TWord
  tagRd : Bool
  bankSel : ℕ
  wayOut : ℕ
  busifOp : BusIfOp
  reqTagr : Bool
  reqBusif : Bool
  bankReqRd : Bool

section Comb

variable (c : Config) (r : Registers) (i : In)

def defaults : Out where
  portAck := false
  portData := i.busifData
  tagRd := false
  bankSel := r.bankSel
  wayOut := i.tagIn.way
  busifOp := .nothing
  reqTagr := false
  reqBusif := false
  bankReqRd := false

/-- Does the BusIf hold the word of the port address right now? -/
def busifHit : Bool :=
  i.busifDataValid (bankOf c i.rpi.portAdr) && wordOf i.rpi.portAdr == wordOf i.busifAdr

/-- On a new request, initiate all actions for the first cycle; `o` is what the state puts out
besides. -/
def newRequest (o : Out) : Registers × Out :=
  let v := { r with state := .init }
  if i.rpi.portRd then
    if i.rpi.portDirect then
      let o := { o with busifOp := .directRead, reqBusif := true }
      if i.gntBusif then ({ v with state := .directWaitBusif }, o) else (v, o)
    else if busifHit c i then (v, { o with portAck := true })
    else
      let o := { o with reqTagr := true }
      if i.gntTagr then ({ v with state := .readTag }, { o with tagRd := true }) else (v, o)
  else (v, o)

/-- A tag hit reads the bank, and keeps the tag until the bank is granted. -/
def readHit (o : Out) : Registers × Out :=
  let bank := bankOf c i.rpi.portAdr
  let o := { o with reqTagr := true, bankReqRd := true }
  if i.gntBank bank then
    ({ r with state := .readBank, bankSel := bank }, { o with reqTagr := false, portAck := true })
  else (r, o)

def comb : Registers × Out :=
  let o := defaults r i
  match r.state with
  | .init => newRequest c r i o
  | .directWaitBusif =>
    let o := { o with busifOp := .directRead, reqBusif := true }
    if busifHit c i then ({ r with state := .init }, { o with portAck := true }) else (r, o)
  | .readTag =>
    if i.tagIn.valid then readHit c r i o
    else ({ r with state := .missWaitBusif }, { o with reqTagr := true })
  | .readBank => newRequest c r i { o with portData := i.bankDataIn }
  | .missWaitBusif =>
    let o := { o with reqBusif := true }
    if busifHit c i then ({ r with state := .init }, { o with portAck := true })
    else if i.gntBusif && !i.busifBusy then ({ r with state := .missRequestTag }, o)
    else (r, o)
  | .missRequestTag =>
    let o := { o with reqBusif := true, reqTagr := true }
    if i.gntTagr then ({ r with state := .missReadTag }, { o with tagRd := true }) else (r, o)
  | .missReadTag =>
    let o := { o with reqBusif := true }
    if i.tagIn.valid then readHit c r i o
    else ({ r with state := .missReplace }, { o with reqTagr := true })
  | .missReplace =>
    let o := { o with reqBusif := true, busifOp := .replace }
    if busifHit c i then ({ r with state := .init }, { o with portAck := true }) else (r, o)

end Comb

end ParaNut.Memu.ReadPort
