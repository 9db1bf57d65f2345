import ParaNut.Lib.Sync
import ParaNut.Lsu.Buffer

/-!
# The load/store unit of the SystemC model (`lsu.cpp`)

`outputMethod` is `MLsu::OutputMethod`, evaluated once in a cycle after the
inputs have settled; what it does not assign keeps its value, as a signal
does. `transition` is one pass through the loop of `MLsu::TransitionThread`.
The buffer index is a C `int`: -1 where there is no entry, `MAX_WBUF_SIZE`
for a store to a full buffer.
-/

namespace ParaNut.SysC.MLsu

open Lib
open Lsu (LsuIn Config)

/-- `MAX_WBUF_SIZE` -/
def maxWbufSize : ℕ := 4

structure Input where
  lsui : LsuIn
  rlinkWcond : Bool
  rpAck : Bool
  rpData : TWord
  wpAck : Bool
  wpWcondOk : Bool
  /-- what the local variable `wbdata` holds where no case of the `switch` assigns it -/
  indet : TWord

/-- What `OutputMethod` drives: the output ports and the signals to `TransitionThread`. -/
structure Signals where
  ack : Bool
  alignErr : Bool
  wcondOk : Bool
  rdata : TWord
  rpRd : Bool
  rpBsel : TByteSel
  rpAdr : TWord
  wpWr : Bool
  wpBsel : TByteSel
  wpRlinkWcond : Bool
  wpWriteback : Bool
  wpInvalidate : Bool
  wpAdr : TWord
  wpData : TWord
  sigWbdata : TWord
  sigWbbsel : TByteSel
  sigWbufEntry : ℤ
  sigWbufEntryNew : ℤ
  sigWbufRemove : Bool
  sigWbufWrite : Bool

/-- The buffer, the variable `data` of `TransitionThread`, and the signals. -/
structure State where
  wbuf : Lsu.Registers
  data : TWord
  sig : Signals

/-- `adr & ~3` -/
def wordAdr (adr : TWord) : TWord := adr &&& ~~~ 3#32

/-- `AdrIsSpecial` -/
def adrIsSpecial (adr : TWord) : Bool := adr &&& 0xf0000000 == 0x90000000

/-- The body of the loop over the byte lanes: take lane `n` from `new` if it is in `sel`. -/
def putByte (sel : TByteSel) (new w : TWord) (n : ℕ) : TWord :=
  if sel.getLsbD n then
    (w &&& ~~~ (0xff000000#32 >>> (8 * n))) ||| (new &&& (0xff000000#32 >>> (8 * n)))
  else w

def putBytes (sel : TByteSel) (old new : TWord) : TWord :=
  (List.range 4).foldl (putByte sel new) old

section Methods

variable (r : Lsu.Registers) (i : Input)

/-- The loops over the buffer that return an index or -1. -/
def findEntry (p : ℕ → Bool) : ℤ :=
  match (List.range maxWbufSize).find? p with
  | some n => n
  | none => -1

def findWbufHit (adr : TWord) : ℤ :=
  findEntry fun n => r.wbufAdr n == wordAdr adr && r.wbufValid n != 0

def findEmptyWbufEntry : ℤ := findEntry fun n => r.wbufValid n == 0

def isFlushed : Bool := (List.range maxWbufSize).all fun n => r.wbufValid n == 0

/-- `adr & 3 != 0` and `adr & 1 != 0`, which C reads as `adr & (3 != 0)` and `adr & (1 != 0)`. -/
def alignErr : Bool :=
  if i.lsui.width = 0 || i.lsui.width = 2 then i.lsui.adr.getLsbD 0 else false

def cacheOp : Bool := i.lsui.cacheWriteback || i.lsui.cacheInvalidate

def bsel : TByteSel :=
  if cacheOp i then 0
  else if i.lsui.width = 0 then 15
  else if i.lsui.width = 1 then 1#4 <<< (i.lsui.adr &&& 3).toNat
  else if i.lsui.width = 2 then 3#4 <<< (i.lsui.adr &&& 3).toNat
  else 0

def wbdata : TWord :=
  if i.lsui.width = 0 then i.lsui.wdata
  else if i.lsui.width = 1 then
    let b := i.lsui.wdata &&& 0xff
    b ||| (b <<< 8) ||| (b <<< 16) ||| (b <<< 24)
  else if i.lsui.width = 2 then
    let h := i.lsui.wdata &&& 0xffff
    h ||| (h <<< 16)
  else i.indet

def wbufHit : ℤ := findWbufHit r i.lsui.adr

/-- `rdata_var` before it is formatted. -/
def rdataWord : TWord :=
  if 0 ≤ wbufHit r i then
    putBytes (r.wbufValid (wbufHit r i).toNat) i.rpData (r.wbufData (wbufHit r i).toNat)
  else i.rpData

def formatRdata (w : TWord) : TWord :=
  if i.lsui.width = 1 then
    let b := (w >>> (8 * (~~~ i.lsui.adr &&& 3).toNat)) &&& 0xff
    if i.lsui.exts then (b ^^^ 0x80) - 0x80 else b
  else if i.lsui.width = 2 then
    let h := (w >>> (8 * (~~~ i.lsui.adr &&& 2).toNat)) &&& 0xffff
    if i.lsui.exts then (h ^^^ 0x8000) - 0x8000 else h
  else w

/-- Can all bytes be served from the write buffer? -/
def fullHit : Bool :=
  decide (0 ≤ wbufHit r i) && bsel i &&& ~~~ r.wbufValid (wbufHit r i).toNat == 0

def flushedCacheOp : Bool := isFlushed r && cacheOp i

/-- The place for a new entry. -/
def storeEntry : ℤ :=
  if i.lsui.wr then
    let e := wbufHit r i
    let e := if e < 0 || adrIsSpecial i.lsui.adr then findEmptyWbufEntry r else e
    if e < 0 then maxWbufSize else e
  else -1

def wbufEntry : ℤ :=
  if cacheOp i then if isFlushed r then 0 else -1 else storeEntry r i

def wbufDontChange0 : Bool :=
  r.wbufDirty0 && ((i.lsui.rd && wbufHit r i == 0) || (i.lsui.wr && wbufEntry r i == 0))

def wbufRemove : Bool :=
  !wbufDontChange0 r i && (!r.wbufDirty0 || i.wpAck) && wbufEntry r i != 0

def wbufEntryNew : ℤ := if wbufRemove r i then wbufEntry r i - 1 else wbufEntry r i

def wbufWrite : Bool :=
  decide (0 ≤ wbufEntryNew r i) && decide (wbufEntryNew r i < maxWbufSize) &&
    (!(adrIsSpecial i.lsui.adr && wbufEntryNew r i != 0) && !wbufDontChange0 r i)

/-- `ack` by its assignments in order. -/
def ack : Bool :=
  let a := if i.lsui.rd then if fullHit r i then true else i.rpAck else false
  let a := if i.lsui.flush && isFlushed r then true else a
  let a := if flushedCacheOp r i then i.wpAck else a
  if wbufWrite r i then true else a

def outputMethod (old : Signals) : Signals :=
  let s := { old with
    ack := false
    alignErr := false
    rpRd := false
    rpAdr := wordAdr i.lsui.adr
    wpRlinkWcond := i.rlinkWcond
    wpWriteback := false
    wpInvalidate := false }
  if alignErr i then { s with alignErr := true }
  else
    { s with
      sigWbdata := wbdata i
      sigWbbsel := bsel i
      rdata := formatRdata i (rdataWord r i)
      rpBsel := bsel i
      rpRd := i.lsui.rd && !fullHit r i
      ack := ack r i
      wcondOk := i.wpWcondOk
      wpAdr := r.wbufAdr 0
      wpData := r.wbufData 0
      wpBsel := r.wbufValid 0
      wpWr := if flushedCacheOp r i then false else r.wbufDirty0
      wpWriteback := flushedCacheOp r i && i.lsui.cacheWriteback
      wpInvalidate := flushedCacheOp r i && i.lsui.cacheInvalidate
      sigWbufEntry := wbufEntry r i
      sigWbufEntryNew := wbufEntryNew r i
      sigWbufRemove := wbufRemove r i
      sigWbufWrite := wbufWrite r i }

end Methods

section Thread

variable (s : State) (i : Input)

def oldEntry : Bool := decide (0 ≤ s.sig.sigWbufEntry) && decide (s.sig.sigWbufEntry < maxWbufSize)

def readData : TWord := if oldEntry s then s.wbuf.wbufData s.sig.sigWbufEntry.toNat else s.data

def readValid : TByteSel := if oldEntry s then s.wbuf.wbufValid s.sig.sigWbufEntry.toNat else 0

/-- The buffer after an eventual removal; the signals are read as they were before the clock. -/
def removed : Lsu.Registers :=
  if s.sig.sigWbufRemove then
    { wbufAdr := fun n => if n + 1 < maxWbufSize then s.wbuf.wbufAdr (n + 1) else s.wbuf.wbufAdr n
      wbufData := fun n =>
        if n + 1 < maxWbufSize then s.wbuf.wbufData (n + 1) else s.wbuf.wbufData n
      wbufValid := fun n => if n + 1 < maxWbufSize then s.wbuf.wbufValid (n + 1) else 0
      wbufDirty0 := s.wbuf.wbufValid 1 != 0 }
  else { s.wbuf with wbufDirty0 := if i.wpAck then false else s.wbuf.wbufDirty0 }

/-- The word after the new bytes are put into it. -/
def newData : TWord := putBytes s.sig.sigWbbsel (readData s) s.sig.sigWbdata

def transition : Lsu.Registers :=
  if s.sig.sigWbufWrite then
    let n := s.sig.sigWbufEntryNew.toNat
    { wbufAdr := fun m => if m = n then wordAdr i.lsui.adr else (removed s i).wbufAdr m
      wbufData := fun m => if m = n then newData s else (removed s i).wbufData m
      wbufValid := fun m =>
        if m = n then readValid s ||| s.sig.sigWbbsel else (removed s i).wbufValid m
      wbufDirty0 := if n = 0 then true else (removed s i).wbufDirty0 }
  else removed s i

end Thread

/-- The state once `OutputMethod` has run. -/
def settled (s : State) (i : Input) : State := { s with sig := outputMethod s.wbuf i s.sig }

/-- One cycle: the method, then the thread. -/
def step (s : State) (i : Input) : State :=
  let s := settled s i
  { s with
    wbuf := transition s i
    data := if s.sig.sigWbufWrite then newData s else readData s }

end ParaNut.SysC.MLsu
