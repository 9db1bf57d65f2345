import ParaNut.Memu.TagRam

/-!
# The arbiter (`marbiter.vhd`)

From the grants kept in registers and the request lines of one cycle the
process gives the grants of that cycle. Requesters of banks and tags are
numbered as on the source's buses: data read ports, instruction read ports,
write ports, BusIf.
-/

namespace ParaNut.Memu.Arbiter

structure Registers where
  counter : ℕ
  lfsrCounter : BitVec 16
  gnt : Lines

/-- `arbiter_in_type` -/
structure In where
  wiadrBusif : ℕ × ℕ
  wiadrRp : ℕ → ℕ × ℕ
  adrWp : ℕ → TWord
  wayWp : ℕ → ℕ

section Comb

variable (c : Config) (r : Registers)

/-- `get_prio_cpu` -/
def getPrioCpu : ℕ :=
  if 0 < c.coresLd then
    match c.arbiterMethod with
    | some m => r.counter / 2 ^ m % c.cores
    | none => r.lfsrCounter.toNat % c.cores
  else 0

/-- The CPUs in the order of their priority in this cycle. -/
def prioCpus : List ℕ := (List.range c.cores).map fun n => (n + getPrioCpu c r) % c.cores

/-- `ram_port` -/
def ramPort (n : ℕ) : ℕ :=
  if n = idxBusif c then c.bankRamPorts - 1 else n % c.cores % c.bankRamPorts

variable (req : Lines) (ai : In)

-- ---------------------------------------------------------------------------
-- LineLockMethod
-- ---------------------------------------------------------------------------

def keepLinelock (n : ℕ) : Bool := r.gnt.linelock n && req.linelock n

/-- The BusIf gets the lock unless a write port keeps it for the same index. -/
def gntLinelockBusif : Bool :=
  keepLinelock r req c.wports || (req.linelock c.wports &&
    !(List.range c.wports).any fun n =>
      keepLinelock r req n && indexOf c (ai.adrWp n) == ai.wiadrBusif.2)

/-- One write port gets the lock unless the BusIf has it for the same index. -/
def gntLinelock (n : ℕ) : Bool :=
  if n = c.wports then gntLinelockBusif c r req ai
  else
    keepLinelock r req n || (!(List.range c.wports).any (keepLinelock r req) &&
      (prioCpus c r).find? (fun i => req.linelock i &&
        (!gntLinelockBusif c r req ai || indexOf c (ai.adrWp i) != ai.wiadrBusif.2)) == some n)

-- ---------------------------------------------------------------------------
-- TagMethod
-- ---------------------------------------------------------------------------

def keepTagr (n : ℕ) : Bool := r.gnt.tagr n && req.tagr n
def keepTagw (n : ℕ) : Bool := r.gnt.tagw n && req.tagw n

/-- The CPU whose tag port a requester uses; the BusIf shares that of the last one. -/
def tagPort (n : ℕ) : ℕ := if n = idxBusif c then c.cores - 1 else n % c.cores

/-- Is no grant of tag port `n` kept? -/
def tagPortFree (n : ℕ) : Bool :=
  !(keepTagr r req n || keepTagr r req (n + ipOff c) || keepTagr r req (n + wpOff c)) &&
    (n != c.cores - 1 || !keepTagr r req (idxBusif c))

/-- The requester that gets the free tag port `n`. -/
def tagPortPrio (n : ℕ) : ℕ :=
  if n = c.cores - 1 ∧ req.tagr (idxBusif c) then idxBusif c
  else if req.tagr n then n
  else if req.tagr (n + ipOff c) then n + ipOff c
  else n + wpOff c

/-- New readers are accepted only if no write requests are pending. -/
def gntTagr (n : ℕ) : Bool :=
  keepTagr r req n || (!(List.range (c.wports + 1)).any req.tagw && req.tagr n &&
    tagPortFree c r req (tagPort c n) && tagPortPrio c req (tagPort c n) == n)

/-- A new writer is accepted only if there is no other reader or writer. -/
def gntTagw (n : ℕ) : Bool :=
  keepTagw r req n || (!(List.range (idxBusif c + 1)).any (gntTagr c r req) &&
    !(List.range (c.wports + 1)).any (keepTagw r req) &&
    (if req.tagw c.wports then n == c.wports
      else (prioCpus c r).find? req.tagw == some n))

-- ---------------------------------------------------------------------------
-- BankMethod
-- ---------------------------------------------------------------------------

/-- `wiadr`: way and index addresses of the requesters. -/
def wiadr (n : ℕ) : ℕ × ℕ :=
  if n = idxBusif c then ai.wiadrBusif
  else if wpOff c ≤ n then wayIndexOf c (ai.adrWp (n - wpOff c)) (ai.wayWp (n - wpOff c))
  else ai.wiadrRp n

variable (b : ℕ)

def keepBank (n : ℕ) : Bool := r.gnt.bank b n && req.bank b n

/-- Selected requester of each RAM port, `none` where `sel_port_valid` is 0. -/
abbrev SelPort := ℕ → Option ℕ

/-- Prio -1: already granted ports. -/
def selKept : SelPort := fun p =>
  (List.range (idxBusif c + 1)).reverse.find? fun n => keepBank r req b n && ramPort c n == p

/-- Prio 0: BusIf. -/
def selBusif : SelPort :=
  let sel := selKept c r req b
  if req.bank b (idxBusif c) && (sel (c.bankRamPorts - 1)).isNone then
    Function.update sel (c.bankRamPorts - 1) (some (idxBusif c))
  else sel

/-- Prio 1 to 3 for CPU `i`: data read, instruction read, data write. -/
def selCpu (sel : SelPort) (i : ℕ) : SelPort :=
  if (sel (ramPort c i)).isNone then
    if req.bank b i then Function.update sel (ramPort c i) (some i)
    else if req.bank b (i + ipOff c) then Function.update sel (ramPort c i) (some (i + ipOff c))
    else if req.bank b (i + wpOff c) then Function.update sel (ramPort c i) (some (i + wpOff c))
    else sel
  else sel

def selPort : SelPort := (prioCpus c r).foldl (selCpu c req b) (selBusif c r req b)

/-- `sel_wiadr` -/
def selWiadr (p : ℕ) : ℕ × ℕ :=
  match selPort c r req b p with
  | some n => wiadr c ai n
  | none => (c.ways - 1, c.sets - 1)

/-- All possible grant lines: those for the selected addresses. -/
def preGntBank (n : ℕ) : Bool :=
  keepBank r req b n || ((selPort c r req b (ramPort c n)).isSome && req.bank b n &&
    wiadr c ai n == selWiadr c r req ai b (ramPort c n))

/-- The highest-priority write port that has been pre-granted takes its RAM port, unless the BusIf
has it. -/
def selWriter (sel : SelPort) (i : ℕ) : SelPort :=
  if sel (ramPort c i) != some (idxBusif c) && preGntBank c r req ai b (i + wpOff c) then
    Function.update sel (ramPort c i) (some (i + wpOff c))
  else sel

def selWriters : SelPort := (prioCpus c r).foldl (selWriter c r req ai b) (selPort c r req b)

/-- Among write ports and the BusIf only the selected one keeps its grant. -/
def gntBank (n : ℕ) : Bool :=
  preGntBank c r req ai b n &&
    (decide (n < wpOff c) || selWriters c r req ai b (ramPort c n) == some n)

-- ---------------------------------------------------------------------------
-- BusifMethod
-- ---------------------------------------------------------------------------

def keepBusif (n : ℕ) : Bool := r.gnt.busif n && req.busif n

/-- The port of CPU `i` that gets the BusIf, if any. -/
def busifPrio (i : ℕ) : Option ℕ :=
  if req.busif i then some i
  else if req.busif (i + ipOff c) then some (i + ipOff c)
  else if req.busif (i + wpOff c) then some (i + wpOff c)
  else none

def gntBusif (n : ℕ) : Bool :=
  keepBusif r req n || (!(List.range (idxBusif c)).any (keepBusif r req) &&
    (prioCpus c r).findSome? (busifPrio c req) == some n)

-- ---------------------------------------------------------------------------
-- The grants of one cycle
-- ---------------------------------------------------------------------------

def gnt : Lines where
  linelock := gntLinelock c r req ai
  tagr := gntTagr c r req
  tagw := gntTagw c r req
  bank := gntBank c r req ai
  busif := gntBusif c r req

/-- SnoopMethod: the write port that holds the line lock. -/
def writer (gnt : Lines) : Option ℕ := (List.range c.wports).reverse.find? gnt.linelock

/-- `snoop_stb` for write port `n`: every port but the writer itself is told. -/
def snoopStb (gnt : Lines) (n : ℕ) : Bool :=
  match writer c gnt with
  | some w => w != n
  | none => false

def snoopAdr (gnt : Lines) : TWord :=
  match writer c gnt with
  | some w => ai.adrWp w
  | none => BitVec.allOnes 32

def comb : Registers where
  counter :=
    match c.arbiterMethod with
    | some m => (r.counter + 1) % 2 ^ (max 0 (c.coresLd + m - 1) + 1)
    | none => r.counter
  lfsrCounter :=
    match c.arbiterMethod with
    | some _ => r.lfsrCounter
    | none => getNextLfsrState r.lfsrCounter 0x2d
  gnt := gnt c r req ai

/-- `tagram_ready`: no tag is granted until the tag RAM is ready; the rest is as in `gnt`. -/
def gntReady (ready : Bool) : Lines :=
  if ready then gnt c r req ai
  else { gnt c r req ai with tagr := fun _ => false, tagw := fun _ => false }

def combReady (ready : Bool) : Registers :=
  { comb c r req ai with gnt := gntReady c r req ai ready }

end Comb

end ParaNut.Memu.Arbiter
