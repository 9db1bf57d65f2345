import ParaNut.Memu.Types

/-!
# The write port (`mwriteport.vhd`)

`comb` is the process: each branch overrides the default outputs as the
source's case branch does.
-/

namespace ParaNut.Memu.WritePort

/-- `state_type` -/
inductive State
  | init
  | direct
  | requestLinelockOnly
  | readTag
  | haveTagRequestBank
  | readBank
  | writeTag1AndBank
  | writeTag2AndBank
  | writeTag1
  | writeTag2
  | writeBank
  | miss
  | requestBusifOnly
  | recheck
  | recheckReadTag
  | replace
  | replaceWaitBusif
  | specialRequestBusifOnly
  | special
  | specialWaitComplete
  deriving DecidableEq

structure Registers where
  state : State
  tag : CacheTag
  data : TWord
  linkAdr : TWord
  linkValid : Bool
  deriving DecidableEq

/-- The inputs of the process: `wpi`, `wpci`, `wpbifi` and `wpai`. -/
structure In where
  wpi : WriteportIn
  tagIn : CacheTag
  bankDataIn : TWord
  busifBusy : Bool
  gntLinelock : Bool
  gntTagr : Bool
  gntTagw : Bool
  gntBusif : Bool
  gntBank : ℕ → Bool
  snoopStb : Bool
  snoopAdr : TWord

/-- The outputs: `wpo`, `wpco`, `wpbifo` and `wpao`. `bankReqRd` stands for `bank_rd`, and for
`req_bank` at the bank of the address. -/
structure Out where
  portAck : Bool
  portWcondOk : Bool
  busifOp : BusIfOp
  busifNolinelock : Bool
  tagRd : Bool
  tagWr : Bool
  bankWr : Bool
  tagOut : CacheTag
  bankDataOut : TWord
  reqLinelock : Bool
  reqTagr : Bool
  reqTagw : Bool
  reqBusif : Bool
  bankReqRd : Bool

/-- `combine_data`: the selected bytes from `word1`, the others from `word0`. -/
def combineData (bsel : TByteSel) (word0 word1 : TWord) : TWord := Lib.merge bsel word0 word1

section Comb

variable (c : Config) (r : Registers) (i : In)

/-- The default outputs. -/
def defaults : Out where
  portAck := false
  portWcondOk := r.linkValid
  busifOp := .nothing
  busifNolinelock := true
  tagRd := false
  tagWr := false
  bankWr := false
  tagOut := r.tag
  bankDataOut := combineData i.wpi.portBsel r.data i.wpi.portData
  reqLinelock := false
  reqTagr := false
  reqTagw := false
  reqBusif := false
  bankReqRd := false

/-- Update of the link registers, done in every state. -/
def snooped : Registers :=
  if i.snoopStb && i.snoopAdr == r.linkAdr then { r with linkValid := false } else r

/-- The grant for the bank of the port address. -/
def bankGnt : Bool := i.gntBank (bankOf c i.wpi.portAdr)

/-- `S_WP_INIT` -/
def combInit : Registers × Out :=
  let v := snooped r i
  let o := defaults r i
  if i.wpi.portWr then
    if i.wpi.portDirect then
      let o := { o with reqBusif := true, busifOp := .directWrite }
      if i.gntBusif && !i.busifBusy then ({ v with state := .direct }, o) else (v, o)
    else if i.wpi.portRlinkWcond && !r.linkValid then
      -- a store conditional that has failed right away
      (v, { o with portAck := true })
    else
      let o := { o with reqLinelock := true, reqTagr := true }
      if i.gntTagr then
        ({ v with state := if i.gntLinelock then .readTag else .requestLinelockOnly },
          { o with tagRd := true })
      else (v, o)
  else if i.wpi.portWriteback || i.wpi.portInvalidate then
    let o := { o with reqBusif := true, reqLinelock := true }
    if i.gntBusif && !i.busifBusy then ({ v with state := .special }, o)
    else if i.gntLinelock && !i.gntBusif then ({ v with state := .specialRequestBusifOnly }, o)
    else (v, o)
  else if i.wpi.portRlinkWcond then
    -- link the current address
    ({ v with linkAdr := i.wpi.portAdr, linkValid := true }, o)
  else (v, o)

/-- Where a hit with all bytes selected goes on. -/
def writeState (dirty : Bool) : State := if dirty then .writeBank else .writeTag1AndBank

/-- The operation `S_WP_SPECIAL` requests. -/
def specialOp : BusIfOp :=
  if i.wpi.portWriteback && i.wpi.portInvalidate then .flush
  else if i.wpi.portWriteback then .writeback
  else .invalidate

def comb : Registers × Out :=
  let v := snooped r i
  let o := defaults r i
  match r.state with
  | .init => combInit r i
  | .direct =>
    let o := { o with reqBusif := true, busifOp := .directWrite }
    if i.busifBusy then ({ v with state := .init }, { o with portAck := true }) else (v, o)
  | .requestLinelockOnly =>
    -- everything else is released to avoid a deadlock
    (if i.gntLinelock then { v with state := .init } else v, { o with reqLinelock := true })
  | .readTag =>
    let full := i.wpi.portBsel == 15
    let o := { o with reqLinelock := true, bankReqRd := !full, tagOut := i.tagIn }
    let v := { v with tag := i.tagIn }
    if i.tagIn.valid then
      if full then ({ v with state := writeState i.tagIn.dirty }, o)
      else ({ v with state := if bankGnt c i then .readBank else .haveTagRequestBank }, o)
    else ({ v with state := .miss }, o)
  | .haveTagRequestBank =>
    (if bankGnt c i then { v with state := .readBank } else v,
      { o with reqLinelock := true, bankReqRd := true })
  | .readBank =>
    ({ v with data := i.bankDataIn, state := writeState r.tag.dirty },
      { o with reqLinelock := true, bankReqRd := true })
  | .writeTag1AndBank =>
    ({ v with
        state :=
          if bankGnt c i && i.gntTagw then .writeTag2
          else if i.gntTagw then .writeTag2AndBank
          else if bankGnt c i then .writeTag1
          else .writeTag1AndBank },
      { o with
        reqLinelock := true, reqTagw := true, tagOut := { r.tag with dirty := true }
        bankReqRd := true, bankWr := bankGnt c i, tagWr := i.gntTagw })
  | .writeTag2AndBank =>
    let o := { o with
      reqLinelock := true, reqTagw := true, tagWr := true
      tagOut := { r.tag with dirty := true }, bankReqRd := true }
    if bankGnt c i then
      ({ v with state := .init }, { o with reqLinelock := false, bankWr := true, portAck := true })
    else ({ v with state := .writeBank }, o)
  | .writeTag1 =>
    (if i.gntTagw then { v with state := .writeTag2 } else v,
      { o with
        reqLinelock := true, reqTagw := true, tagOut := { r.tag with dirty := true }
        tagWr := i.gntTagw })
  | .writeTag2 =>
    ({ v with state := .init },
      { o with
        reqTagw := true, tagOut := { r.tag with dirty := true }, tagWr := true, portAck := true })
  | .writeBank =>
    let o := { o with reqLinelock := true, bankReqRd := true }
    if bankGnt c i then
      ({ v with state := .init }, { o with reqLinelock := false, bankWr := true, portAck := true })
    else (v, o)
  | .miss =>
    ({ v with
        state :=
          if i.gntBusif && !i.busifBusy && i.gntLinelock then .recheck
          else if !i.gntBusif && i.gntLinelock then .requestBusifOnly
          else .miss },
      { o with reqBusif := true, reqLinelock := true })
  | .requestBusifOnly =>
    -- the line lock is released to avoid deadlocks
    (if i.gntBusif then { v with state := .miss } else v, { o with reqBusif := true })
  | .recheck =>
    let o := { o with reqBusif := true, reqLinelock := true, reqTagr := true }
    if i.gntTagr then ({ v with state := .recheckReadTag }, { o with tagRd := true }) else (v, o)
  | .recheckReadTag =>
    ({ v with
        tag := i.tagIn
        state :=
          if i.tagIn.valid then
            if i.wpi.portBsel == 15 then writeState i.tagIn.dirty else .haveTagRequestBank
          else .replace },
      { o with reqBusif := true, reqLinelock := true })
  | .replace =>
    (if i.busifBusy then { v with state := .replaceWaitBusif } else v,
      { o with reqBusif := true, reqLinelock := true, busifOp := .replace })
  | .replaceWaitBusif =>
    let o := { o with reqBusif := true, reqLinelock := true }
    if i.busifBusy then (v, o)
    else
      ({ v with state := if i.gntTagr then .readTag else .init },
        { o with reqTagr := true, tagRd := i.gntTagr })
  | .specialRequestBusifOnly =>
    (if i.gntBusif then { v with state := .init } else v, { o with reqBusif := true })
  | .special =>
    (if i.busifBusy then { v with state := .specialWaitComplete } else v,
      { o with reqBusif := true, reqLinelock := true, busifOp := specialOp i })
  | .specialWaitComplete =>
    let o := { o with reqBusif := true, reqLinelock := true }
    if i.busifBusy then (v, o)
    else ({ v with state := .init }, { o with reqLinelock := false, portAck := true })

end Comb

end ParaNut.Memu.WritePort
