import ParaNut.Memu.Conditional

/-!
# The write port of the SystemC model (`MWritePort` in `memu.cpp`)

`MainMethod` goes through the states of `mwriteport` in the same way. It
differs in what it reports about a conditional write: the link must be valid,
and for the address of the port.
-/

namespace ParaNut.SysC.MWritePort

open Memu
open Memu.WritePort (State Registers In snooped writeState bankGnt specialOp)

/-- The outputs. `bankDataOut` is `none` where the method does not assign it; `bankReqRd` stands
for `bank_rd`, and for `req_bank` at the bank of the address. -/
structure Out where
  portAck : Bool
  portWcondOk : Bool
  busifOp : BusIfOp
  busifNolinelock : Bool
  tagRd : Bool
  tagWr : Bool
  bankWr : Bool
  tagOut : CacheTag
  bankDataOut : Option TWord
  reqLinelock : Bool
  reqTagr : Bool
  reqTagw : Bool
  reqBusif : Bool
  bankReqRd : Bool

/-- `CombineData` -/
def combineData (bsel : TByteSel) (word0 word1 : TWord) : TWord :=
  if bsel != 0xf then
    (List.range 4).foldl
      (fun ret n =>
        if bsel.getLsbD (3 - n) then ret
        else (ret &&& ~~~(0xff#32 <<< (8 * n))) ||| (word0 &&& (0xff#32 <<< (8 * n))))
      word1
  else word1

section MainMethod

variable (c : Config) (r : Registers) (i : In)

/-- The default outputs. -/
def defaults : Out where
  portAck := false
  portWcondOk := r.linkValid && r.linkAdr == i.wpi.portAdr
  busifOp := .nothing
  busifNolinelock := true
  tagRd := false
  tagWr := false
  bankWr := false
  tagOut := r.tag
  bankDataOut := none
  reqLinelock := false
  reqTagr := false
  reqTagw := false
  reqBusif := false
  bankReqRd := false

/-- `s_wp_init` -/
def init : Registers × Out :=
  let v := snooped r i
  let o := defaults r i
  if i.wpi.portWr then
    if i.wpi.portDirect then
      let o := { o with reqBusif := true, busifOp := .directWrite }
      if i.gntBusif && !i.busifBusy then ({ v with state := .direct }, o) else (v, o)
    else if i.wpi.portRlinkWcond && !r.linkValid then
      -- a failure may still occur later
      (v, { o with portAck := true })
    else
      let o := { o with reqLinelock := true, reqTagr := true, tagRd := true }
      if i.gntTagr then
        ({ v with state := if i.gntLinelock then .readTag else .requestLinelockOnly }, o)
      else (v, o)
  else if i.wpi.portWriteback || i.wpi.portInvalidate then
    let o := { o with reqBusif := true, reqLinelock := true }
    if i.gntBusif && !i.busifBusy then ({ v with state := .special }, o)
    else if i.gntLinelock && !i.gntBusif then ({ v with state := .specialRequestBusifOnly }, o)
    else (v, o)
  else if i.wpi.portRlinkWcond then
    ({ v with linkAdr := i.wpi.portAdr, linkValid := true }, o)
  else (v, o)

/-- `MainMethod`: the `next_` signals and the outputs. -/
def mainMethod : Registers × Out :=
  let v := snooped r i
  let o := defaults r i
  let data := some (combineData i.wpi.portBsel r.data i.wpi.portData)
  match r.state with
  | .init => init r i
  | .direct =>
    let o := { o with reqBusif := true, busifOp := .directWrite }
    if i.busifBusy then ({ v with state := .init }, { o with portAck := true }) else (v, o)
  | .requestLinelockOnly =>
    (if i.gntLinelock then { v with state := .init } else v, { o with reqLinelock := true })
  | .readTag =>
    let o := { o with
      reqLinelock := true, bankReqRd := decide (i.wpi.portBsel < 0xf), tagOut := i.tagIn }
    let v := { v with tag := i.tagIn }
    if i.tagIn.valid then
      if i.wpi.portBsel == 0xf then ({ v with state := writeState i.tagIn.dirty }, o)
      else ({ v with state := if bankGnt c i then .readBank else .haveTagRequestBank }, o)
    else ({ v with state := .miss }, o)
  | .haveTagRequestBank =>
    (if bankGnt c i then { v with state := .readBank } else v,
      { o with reqLinelock := true, bankReqRd := true })
  | .readBank =>
    ({ v with data := i.bankDataIn, state := writeState r.tag.dirty },
      { o with reqLinelock := true, bankReqRd := true })
  | .writeTag1AndBank =>
    ({ v with
        state :=
          if bankGnt c i && i.gntTagw then .writeTag2
          else if i.gntTagw then .writeTag2AndBank
          else if bankGnt c i then .writeTag1
          else .writeTag1AndBank },
      { o with
        reqLinelock := true, reqTagw := true, tagOut := { r.tag with dirty := true }
        bankReqRd := true, bankDataOut := data, bankWr := bankGnt c i, tagWr := i.gntTagw })
  | .writeTag2AndBank =>
    -- no `tag_wr` in this second cycle of the tag write
    let o := { o with
      reqLinelock := true, reqTagw := true, tagOut := { r.tag with dirty := true }
      bankReqRd := true, bankDataOut := data }
    if bankGnt c i then
      ({ v with state := .init }, { o with portAck := true, reqLinelock := false, bankWr := true })
    else ({ v with state := .writeBank }, o)
  | .writeTag1 =>
    (if i.gntTagw then { v with state := .writeTag2 } else v,
      { o with
        reqLinelock := true, reqTagw := true, tagOut := { r.tag with dirty := true }
        tagWr := i.gntTagw })
  | .writeTag2 =>
    ({ v with state := .init },
      { o with
        reqTagw := true, tagOut := { r.tag with dirty := true }, tagWr := true, portAck := true })
  | .writeBank =>
    -- `bank_wr` is set without a grant, too
    let o := { o with reqLinelock := true, bankReqRd := true, bankWr := true, bankDataOut := data }
    if bankGnt c i then
      ({ v with state := .init }, { o with portAck := true, reqLinelock := false })
    else (v, o)
  | .miss =>
    ({ v with
        state :=
          if i.gntBusif && !i.busifBusy && i.gntLinelock then .recheck
          else if !i.gntBusif && i.gntLinelock then .requestBusifOnly
          else .miss },
      { o with reqBusif := true, reqLinelock := true })
  | .requestBusifOnly =>
    (if i.gntBusif then { v with state := .miss } else v, { o with reqBusif := true })
  | .recheck =>
    (if i.gntTagr then { v with state := .recheckReadTag } else v,
      { o with reqBusif := true, reqLinelock := true, reqTagr := true, tagRd := true })
  | .recheckReadTag =>
    ({ v with
        tag := i.tagIn
        state :=
          if i.tagIn.valid then
            if i.wpi.portBsel == 0xf then writeState i.tagIn.dirty else .haveTagRequestBank
          else .replace },
      { o with reqBusif := true, reqLinelock := true })
  | .replace =>
    (if i.busifBusy then { v with state := .replaceWaitBusif } else v,
      { o with reqBusif := true, reqLinelock := true, busifOp := .replace })
  | .replaceWaitBusif =>
    let o := { o with reqBusif := true, reqLinelock := true }
    if i.busifBusy then (v, o)
    else
      ({ v with state := if i.gntTagr then .readTag else .init },
        { o with reqTagr := true, tagRd := true })
  | .specialRequestBusifOnly =>
    (if i.gntBusif then { v with state := .init } else v, { o with reqBusif := true })
  | .special =>
    (if i.busifBusy then { v with state := .specialWaitComplete } else v,
      { o with reqBusif := true, reqLinelock := true, busifOp := specialOp i })
  | .specialWaitComplete =>
    let o := { o with reqBusif := true, reqLinelock := true }
    if i.busifBusy then (v, o)
    else ({ v with state := .init }, { o with portAck := true })

/-- The link that a conditional write needs, as `port_wcond_ok` reports it. -/
def linked (w : WriteportIn) : Bool := r.linkValid && r.linkAdr == w.portAdr

/-- What the port does in a cycle to the cache or the memory: a bank word, a tag, or a direct
write that the BusIf takes. -/
def changes (o : Out) : Bool :=
  o.bankWr || o.tagWr || (o.busifOp == .directWrite && i.gntBusif && !i.busifBusy)

end MainMethod

-- ---------------------------------------------------------------------------
-- What it has in common with `mwriteport`
-- ---------------------------------------------------------------------------

section Agreement

variable {c : Config} {r : Registers} {i : In}

theorem mainMethod_next : (mainMethod c r i).1 = (WritePort.comb c r i).1 := by
  cases hs : r.state <;> simp only [mainMethod, WritePort.comb, hs]
  case init =>
    simp only [init, WritePort.combInit]
    repeat' split
    all_goals rfl
  all_goals
    repeat' split
    all_goals rfl

theorem portAck_eq : (mainMethod c r i).2.portAck = (WritePort.comb c r i).2.portAck := by
  cases hs : r.state <;>
    simp only [mainMethod, WritePort.comb, hs, init, WritePort.combInit, defaults,
      WritePort.defaults]
  all_goals
    repeat' split
    all_goals rfl

/-- The line lock is not given up with the acknowledge of a cache-control operation. -/
theorem reqLinelock_eq : (mainMethod c r i).2.reqLinelock =
    ((WritePort.comb c r i).2.reqLinelock || r.state == .specialWaitComplete) := by
  cases hs : r.state <;>
    simp only [mainMethod, WritePort.comb, hs, init, WritePort.combInit, defaults,
      WritePort.defaults]
  all_goals
    repeat' split
    all_goals rfl

theorem portWcondOk_eq : (mainMethod c r i).2.portWcondOk = linked r i.wpi := by
  cases hs : r.state <;> simp only [mainMethod, hs, init, defaults, linked]
  all_goals
    repeat' split
    all_goals rfl

theorem underWay_of_changes (h : changes i (mainMethod c r i).2 = true) :
    r.state.underWay = true ∨
      (mainMethod c r i).2.portAck = false ∧ (mainMethod c r i).1.state.underWay = true := by
  revert h
  cases hs : r.state <;> simp only [mainMethod, hs, defaults, init, changes]
  all_goals
    repeat' split
    all_goals simp_all [State.underWay, WritePort.specialOp_ne_directWrite]

end Agreement

end ParaNut.SysC.MWritePort
