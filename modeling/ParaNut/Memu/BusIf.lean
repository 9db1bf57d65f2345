import ParaNut.Memu.Types

/-!
# The bus interface (`mbusif.vhd`)

The burst signals `cti_o` and `bte_o` are left out: the memory on the bus
answers each transfer by itself.
-/

namespace ParaNut.Memu.BusIf

/-- `state_type` -/
inductive State
  | idle
  | directRead1
  | directRead2
  | directWrite
  | cacheRequestLlWait
  | cacheRequestRtWait
  | cacheReadTag
  | cacheReplaceReadIdata
  | cacheReadDirtyBanks
  | cacheReplaceInvalidateTag
  | cacheReplaceWriteBanks
  | cacheWriteTag
  | cacheWriteBackVictim
  | cacheAck
  deriving DecidableEq

structure Registers where
  state : State
  op : BusIfOp
  linelock : Bool
  bsel : TByteSel
  adr : TWord
  adrOfs : ℕ
  idata : ℕ → TWord
  odata : ℕ → TWord
  banksLeft : ℕ → Bool
  banksLeftLast : ℕ → Bool
  writeVictim : Bool
  idataValid : ℕ → Bool
  cnt : ℕ
  tag : CacheTag

/-- The inputs of the process: `bifi`, `bifai` and `bifwbi`. -/
structure In where
  busifOp : BusIfOp
  busifNolinelock : Bool
  busifBsel : TByteSel
  adrIn : TWord
  dataIn : ℕ → TWord
  tagIn : CacheTag
  gntLinelock : Bool
  gntTagw : Bool
  gntTagr : Bool
  gntBank : ℕ → Bool
  ackI : Bool
  datI : TWord

/-- The outputs: `bifo`, `bifao` and `bifwbo`; `cyc_o` is `stb_o`. -/
structure Out where
  busifBusy : Bool
  tagRd : Bool
  tagWr : Bool
  bankRd : ℕ → Bool
  bankWr : ℕ → Bool
  tagOut : CacheTag
  reqLinelock : Bool
  reqTagw : Bool
  reqTagr : Bool
  reqBank : ℕ → Bool
  stbO : Bool
  weO : Bool
  selO : TByteSel
  adrO : TWord
  datO : TWord

section Comb

variable (c : Config) (r : Registers) (i : In)

def defaults : Out where
  busifBusy := true
  tagRd := false
  tagWr := false
  bankRd _ := false
  bankWr _ := false
  tagOut := r.tag
  reqLinelock := r.linelock
  reqTagw := false
  reqTagr := false
  reqBank _ := false
  stbO := false
  weO := false
  selO := r.bsel
  adrO := r.adr
  datO := r.odata (bankOf c r.adr)

/-- `unsigned(r.banks_left) = 0` -/
def banksDone : Bool := (List.range c.banks).all fun n => !r.banksLeft n

/-- `r.cnt = CFG_MEMU_CACHE_BANKS-1` -/
def cntLast : Bool := r.cnt == c.banks - 1

/-- The registers with the inputs latched that a requester may release after one clock cycle. -/
def latched : Registers :=
  { r with
    op := i.busifOp
    bsel := i.busifBsel
    adr := i.adrIn
    adrOfs := bankOf c i.adrIn
    odata := i.dataIn
    cnt := 0
    writeVictim := false
    banksLeft := fun _ => true
    banksLeftLast := r.banksLeft }

/-- `S_BIF_IDLE` -/
def combIdle : Registers :=
  let v := latched c r i
  match i.busifOp with
  | .directRead => { v with state := .directRead1 }
  | .directWrite => { v with state := .directWrite }
  | .writeback | .invalidate | .flush | .replace =>
    { v with
      linelock := !i.busifNolinelock
      adr := clearOfs c i.adrIn
      state := if i.busifNolinelock then .cacheRequestRtWait else .cacheRequestLlWait }
  | .nothing => v

/-- The tag `S_BIF_CACHE_WRITE_TAG` writes. -/
def newTag : CacheTag where
  valid :=
    match r.op with
    | .replace => true
    | .flush | .invalidate => false
    | _ => r.tag.valid
  dirty := false
  taddr := tagOf c r.adr
  way := r.tag.way

/-- Count the two cycles of a tag write, and go on to `state` after the second. -/
def tagWritten (v : Registers) (state : State) : Registers :=
  if r.cnt % 2 = 1 then { v with cnt := 0, state := state } else { v with cnt := (r.cnt + 1) % c.banks }

def comb : Registers × Out :=
  let v := { r with banksLeftLast := r.banksLeft }
  let o := defaults c r
  match r.state with
  | .idle => (combIdle c r i, { o with busifBusy := false })
  | .directRead1 =>
    (if i.ackI then
        { v with
          idata := Function.update r.idata (bankOf c r.adr) i.datI
          idataValid := Function.update r.idataValid (bankOf c r.adr) true
          state := .directRead2 }
      else v,
      { o with stbO := true })
  | .directRead2 =>
    -- the data stays one more cycle for the read ports
    ({ v with
        idataValid := Function.update r.idataValid (bankOf c r.adr) false
        state := .idle }, o)
  | .directWrite =>
    (if i.ackI then { v with state := .idle } else v, { o with weO := true, stbO := true })
  | .cacheRequestLlWait =>
    (if i.gntLinelock then { v with state := .cacheRequestRtWait } else v, o)
  | .cacheRequestRtWait =>
    (if i.gntTagr then { v with state := .cacheReadTag } else v,
      { o with reqTagr := true, tagRd := i.gntTagr })
  | .cacheReadTag =>
    ({ v with
        tag := i.tagIn
        state :=
          match r.op with
          | .replace => .cacheReplaceReadIdata
          | .writeback | .flush =>
            if i.tagIn.dirty then .cacheReadDirtyBanks else .cacheWriteTag
          | _ => .cacheWriteTag }, o)
  | .cacheReplaceReadIdata =>
    (if i.ackI then
        let v := { v with
          idata := Function.update r.idata r.adrOfs i.datI
          idataValid := Function.update r.idataValid r.adrOfs true
          adr := setBank c r.adr r.adrOfs }
        if cntLast c r then
          { v with
            cnt := 0
            state := if r.tag.dirty then .cacheReadDirtyBanks else .cacheReplaceInvalidateTag }
        else { v with adrOfs := (r.adrOfs + 1) % c.banks, cnt := (r.cnt + 1) % c.banks }
      else v,
      { o with selO := 15, stbO := true, adrO := setBank c r.adr r.adrOfs })
  | .cacheReadDirtyBanks =>
    -- `bank_rd` is kept up in the cycle after the grant, when the data arrives
    let v := { v with
      writeVictim := true
      odata := fun n => if !r.banksLeft n && r.banksLeftLast n then i.dataIn n else r.odata n
      banksLeft := fun n => r.banksLeft n && !i.gntBank n }
    (if banksDone c r then
        { v with
          banksLeft := fun _ => true
          state := if r.op = .replace then .cacheReplaceInvalidateTag else .cacheWriteTag }
      else v,
      { o with reqBank := r.banksLeft, bankRd := r.banksLeftLast })
  | .cacheReplaceInvalidateTag =>
    (if i.gntTagw then tagWritten c r v .cacheReplaceWriteBanks else v,
      { o with reqTagw := true, tagOut := { r.tag with valid := false }, tagWr := i.gntTagw })
  | .cacheReplaceWriteBanks =>
    (if banksDone c r then { v with banksLeft := fun _ => true, state := .cacheWriteTag }
      else { v with banksLeft := fun n => r.banksLeft n && !i.gntBank n },
      { o with reqBank := r.banksLeft, bankWr := r.banksLeft })
  | .cacheWriteTag =>
    (if i.gntTagw then
        if r.writeVictim then tagWritten c r v .cacheWriteBackVictim
        else if r.cnt % 2 = 1 then
          { tagWritten c r v .cacheAck with idataValid := fun _ => false }
        else tagWritten c r v .cacheAck
      else v,
      { o with reqTagw := true, tagOut := newTag c r, tagWr := i.gntTagw })
  | .cacheWriteBackVictim =>
    (if i.ackI then
        if cntLast c r then { v with idataValid := fun _ => false, state := .cacheAck }
        else { v with cnt := (r.cnt + 1) % c.banks }
      else v,
      { o with
        selO := 15, weO := true, stbO := true
        adrO := makeAdr c r.tag.taddr (indexOf c r.adr) r.cnt, datO := r.odata r.cnt })
  | .cacheAck => ({ v with linelock := false, state := .idle }, { o with busifBusy := false })

end Comb

end ParaNut.Memu.BusIf
