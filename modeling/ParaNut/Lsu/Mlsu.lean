import ParaNut.Types

/-!
# The load/store unit with write buffer (`mlsu.vhd`)

`comb` is the combinational process: from the registers and the inputs of one
cycle it gives the outputs and the registers of the next. The process
assigns its variables in sequence; each definition below is one of them, in
the source's order. Buffer entries are numbered from 0, and entry 0 is the
one the write port works on.
-/

namespace ParaNut.Lsu

/-- `lsu_in_type` of `lsu.vhd`. -/
structure LsuIn where
  rd : Bool
  wr : Bool
  flush : Bool
  cacheWriteback : Bool
  cacheInvalidate : Bool
  width : BitVec 2
  exts : Bool
  adr : TWord
  wdata : TWord
  deriving DecidableEq

/-- `lsu_out_type` without `wcond_ok`, which `mlsu` never drives. -/
structure LsuOut where
  ack : Bool
  alignErr : Bool
  rdata : TWord
  deriving DecidableEq

structure Registers where
  wbufAdr : ℕ → TWord
  wbufData : ℕ → TWord
  wbufValid : ℕ → TByteSel
  wbufDirty0 : Bool

/-- The generics and constants the unit is built with. -/
structure Config where
  /-- `MAX_WBUF_SIZE` -/
  size : ℕ
  /-- `CFG_NUT_MEM_SIZE` -/
  memSize : ℕ
  /-- the value a don't-care (`'-'`) takes -/
  dontCare : TWord

section Process

variable (c : Config) (r : Registers) (lsui : LsuIn) (rpo : ReadportOut) (wpo : WriteportOut)
  (dcacheEnable : Bool)

/-- Does entry `n` hold data for the word at `adr`? -/
def entryHit (adr : TWord) (n : ℕ) : Bool :=
  wordOf (r.wbufAdr n) == wordOf adr && r.wbufValid n != 0

/-- `FindWbufHit`: the entry for `adr`, searched from the last one down. -/
def findWbufHit (adr : TWord) : Option ℕ :=
  (List.range c.size).reverse.find? (entryHit r adr)

/-- `FindEmptyWbufEntry` -/
def findEmptyWbufEntry : Option ℕ := (List.range c.size).find? fun n => r.wbufValid n == 0

def isFlushed : Bool := (List.range c.size).all fun n => r.wbufValid n == 0

/-- The check on the low address bits, before it is masked by `rd` and `wr`. -/
def misaligned : Bool :=
  if lsui.width = 0 then ofsOf lsui.adr != 0
  else if lsui.width = 2 then lsui.adr.getLsbD 0
  else false

def cacheOp : Bool := lsui.cacheWriteback || lsui.cacheInvalidate

def bsel : TByteSel :=
  if cacheOp lsui || misaligned lsui then 0
  else if lsui.width = 0 then 15
  else if lsui.width = 1 then 1#4 <<< (ofsOf lsui.adr).toNat
  else if lsui.width = 2 then 3#4 <<< (ofsOf lsui.adr).toNat
  else 0

/-- The bound of a lane, for definitions that select bytes. -/
theorem lane_lt (n : Fin 4) : n.val < 4 := n.isLt

theorem lanes_neZero : NeZero 4 := ⟨Nat.succ_ne_zero 3⟩

attribute [local instance] lanes_neZero in
def wbdata : TWord :=
  if lsui.width = 0 then if misaligned lsui then c.dontCare else lsui.wdata
  else if lsui.width = 1 then Lib.ofBytes fun _ => Lib.byte lsui.wdata 3
  else if lsui.width = 2 then
    if misaligned lsui then c.dontCare
    else Lib.ofBytes fun n => if n.val % 2 = 0 then Lib.byte lsui.wdata 2 else Lib.byte lsui.wdata 3
  else c.dontCare

/-- The word for a load: the read port's, with the buffered bytes laid over it. -/
def rdataWord : TWord :=
  match findWbufHit c r lsui.adr with
  | some n => Lib.merge (r.wbufValid n) rpo.portData (r.wbufData n)
  | none => rpo.portData

/-- Select the accessed byte or half-word and extend it to a word. -/
def formatRdata (w : TWord) : TWord :=
  if lsui.width = 1 then
    let b := Lib.byte w ⟨(ofsOf lsui.adr).toNat, (ofsOf lsui.adr).isLt⟩
    if lsui.exts && b.msb then b.signExtend 32 else b.setWidth 32
  else if lsui.width = 2 then
    let h := w.extractLsb' (16 - 16 * (lsui.adr.getLsbD 1).toNat) 16
    if lsui.exts && h.msb then h.signExtend 32 else h.setWidth 32
  else w

/-- Can all accessed bytes be taken from the buffer? -/
def fullHit : Bool :=
  match findWbufHit c r lsui.adr with
  | some n => bsel lsui &&& ~~~ r.wbufValid n == 0
  | none => false

def alignErr : Bool := misaligned lsui && (lsui.rd || lsui.wr)

/-- `wbuf_entry_i`, `wbuf_entry_b` and `wbuf_full`. -/
structure Entry where
  i : ℕ
  b : Bool
  full : Bool

/-- Place for a store: the entry it hits, else an empty one, else the last one if the buffer is
full. Without a store the index only must not be 0, to let entries drain. -/
def storeEntry : Entry :=
  if lsui.wr then
    match findWbufHit c r lsui.adr, adrIsSpecial lsui.adr with
    | some n, false => ⟨n, true, false⟩
    | _, _ =>
      match findEmptyWbufEntry c r with
      | some n => ⟨n, true, false⟩
      | none => ⟨c.size - 1, true, true⟩
  else ⟨c.size - 1, false, false⟩

def wbufEntry : Entry :=
  if cacheOp lsui then
    if isFlushed c r then ⟨0, true, false⟩ else { storeEntry c r lsui with b := false }
  else storeEntry c r lsui

def oldData : TWord :=
  if (wbufEntry c r lsui).b && !(wbufEntry c r lsui).full then r.wbufData (wbufEntry c r lsui).i
  else c.dontCare

def oldValid : TByteSel :=
  if (wbufEntry c r lsui).b && !(wbufEntry c r lsui).full then r.wbufValid (wbufEntry c r lsui).i
  else 0

/-- `wbuf_dont_change`: entry 0 is being written while it is read from or stored to. -/
def wbufDontChange : Bool :=
  r.wbufDirty0 && ((lsui.rd && findWbufHit c r lsui.adr == some 0)
    || (lsui.wr && (wbufEntry c r lsui).b && (wbufEntry c r lsui).i == 0))

/-- Is the oldest entry removed in this cycle? -/
def wbufRemove : Bool :=
  !wbufDontChange c r lsui && (!r.wbufDirty0 || wpo.portAck) && (wbufEntry c r lsui).i != 0

/-- The entry index and `wbuf_full` after an eventual removal. -/
def newEntry : Entry :=
  let e := wbufEntry c r lsui
  if wbufRemove c r lsui wpo then
    if e.full then { e with full := false } else { e with i := e.i - 1 }
  else e

/-- Is a store (or the address of a cache operation) taken into the buffer in this cycle? -/
def wbufWrite : Bool :=
  let e := newEntry c r lsui wpo
  e.b && !e.full && !(adrIsSpecial lsui.adr && e.i != 0) && !wbufDontChange c r lsui

def ack : Bool :=
  if wbufWrite c r lsui wpo then true
  else if isFlushed c r && cacheOp lsui then wpo.portAck
  else if lsui.flush && isFlushed c r then true
  else if lsui.rd then if fullHit c r lsui then true else rpo.portAck
  else false

def lsuo : LsuOut where
  ack := ack c r lsui rpo wpo
  alignErr := alignErr lsui
  rdata := formatRdata lsui (rdataWord c r lsui rpo)

def portDirect (adr : TWord) : Bool := !dcacheEnable || !adrIsCached c.memSize adr

def rpi : ReadportIn where
  portRd := lsui.rd && !fullHit c r lsui && !alignErr lsui
  portBsel := bsel lsui
  portDirect := portDirect c dcacheEnable lsui.adr
  portAdr := lsui.adr

def wpi : WriteportIn where
  portWr := if isFlushed c r && cacheOp lsui then false else r.wbufDirty0
  portDirect := portDirect c dcacheEnable (r.wbufAdr 0)
  portBsel := r.wbufValid 0
  portRlinkWcond := false
  portWriteback := lsui.cacheWriteback
  portInvalidate := lsui.cacheInvalidate
  portAdr := r.wbufAdr 0
  portData := r.wbufData 0

/-- Drop entry 0 and move the others down. -/
def Registers.shift : Registers where
  wbufAdr n := if n + 1 < c.size then r.wbufAdr (n + 1) else r.wbufAdr n
  wbufData n := if n + 1 < c.size then r.wbufData (n + 1) else r.wbufData n
  wbufValid n := if n + 1 < c.size then r.wbufValid (n + 1) else 0
  wbufDirty0 := r.wbufValid 1 != 0

/-- Overwrite entry `i`; entry 0 then has to be written to memory. -/
def Registers.store (i : ℕ) (adr data : TWord) (valid : TByteSel) : Registers where
  wbufAdr n := if n = i then adr else r.wbufAdr n
  wbufData n := if n = i then data else r.wbufData n
  wbufValid n := if n = i then valid else r.wbufValid n
  wbufDirty0 := if i = 0 then true else r.wbufDirty0

/-- The registers after the write port's acknowledge and an eventual removal. -/
def drained : Registers :=
  if wbufRemove c r lsui wpo then r.shift c
  else { r with wbufDirty0 := r.wbufDirty0 && !wpo.portAck }

/-- The registers after one cycle without reset. -/
def next : Registers :=
  let v := drained c r lsui wpo
  if wbufWrite c r lsui wpo then
    v.store (newEntry c r lsui wpo).i lsui.adr
      (Lib.merge (bsel lsui) (oldData c r lsui) (wbdata c lsui)) (oldValid c r lsui ||| bsel lsui)
  else v

end Process

/-- Reset clears the valid bits and the in-flight flag and leaves the rest. -/
def Registers.IsReset (r : Registers) : Prop := (∀ n, r.wbufValid n = 0) ∧ r.wbufDirty0 = false

end ParaNut.Lsu
