import ParaNut.Memu.WritePort
import ParaNut.Memu.ReadPort
import ParaNut.Memu.BusIf
import ParaNut.Memu.Arbiter

/-!
# The memory unit (`mmemu.vhd`)

The units and their interconnect, with the memory on the Wishbone bus. Within
a cycle the ports request, the arbiter grants, and what a port requests may
depend on its bank grant, so the lines settle after two rounds (`grants`).
-/

namespace ParaNut.Memu

structure State where
  wp : ℕ → WritePort.Registers
  rp : ℕ → ReadPort.Registers
  busif : BusIf.Registers
  arb : Arbiter.Registers
  tram : TagRam.Registers
  /-- contents of the bank RAMs, by bank and way-index address -/
  bank : ℕ → ℕ × ℕ → TWord
  /-- `rdata` of the bank RAMs, by bank and port -/
  rdata : ℕ → ℕ → TWord
  rpBusifData : TWord
  /-- the memory on the bus, by word number -/
  mem : ℕ → TWord

/-- Inputs of one cycle. -/
structure Input where
  rpi : ℕ → ReadportIn
  wpi : ℕ → WriteportIn
  ackI : Bool
  /-- which of the two processes of a dual-port bank RAM runs first -/
  portsReversed : Bool

section Interconnect

variable (c : Config) (s : State) (i : Input) (g : Lines)

-- ---------------------------------------------------------------------------
-- Signals of one cycle, for given grants
-- ---------------------------------------------------------------------------

/-- The BusIf's outputs depend on its registers and tag grants only. -/
def bifo : BusIf.Out :=
  (BusIf.comb c s.busif
    { busifOp := .nothing, busifNolinelock := false, busifBsel := 0, adrIn := 0
      dataIn := fun _ => 0, tagIn := s.busif.tag, gntLinelock := false
      gntTagw := g.tagw c.wports, gntTagr := g.tagr (idxBusif c), gntBank := fun _ => false
      ackI := false, datI := 0 }).2

def rpIn (p : ℕ) : ReadPort.In where
  rpi := i.rpi p
  bankDataIn := s.rdata (s.rp p).bankSel (p % c.cores % c.bankRamPorts)
  tagIn := TagRam.tagOut c s.tram (p % c.cores)
  busifAdr := s.busif.adr
  busifData := s.rpBusifData
  busifDataValid := s.busif.idataValid
  busifBusy := (bifo c s g).busifBusy
  gntTagr := g.tagr p
  gntBusif := g.busif p
  gntBank b := g.bank b p

def rpOut (p : ℕ) : ReadPort.Out := (ReadPort.comb c (s.rp p) (rpIn c s i g p)).2

def wpIn (p : ℕ) : WritePort.In where
  wpi := i.wpi p
  tagIn := TagRam.tagOut c s.tram p
  bankDataIn := s.rdata (bankOf c (i.wpi p).portAdr) (p % c.bankRamPorts)
  busifBusy := (bifo c s g).busifBusy
  gntLinelock := g.linelock p
  gntTagr := g.tagr (p + wpOff c)
  gntTagw := g.tagw p
  gntBusif := g.busif (p + wpOff c)
  gntBank b := g.bank b (p + wpOff c)
  snoopStb := (Arbiter.snoopStb c g p)
  snoopAdr := match Arbiter.writer c g with
    | some w => (i.wpi w).portAdr
    | none => BitVec.allOnes 32

def wpOut (p : ℕ) : WritePort.Out := (WritePort.comb c (s.wp p) (wpIn c s i g p)).2

/-- To the arbiter. -/
def arbIn : Arbiter.In where
  wiadrBusif := wayIndexOf c s.busif.adr (bifo c s g).tagOut.way
  wiadrRp p := wayIndexOf c (i.rpi p).portAdr (rpOut c s i g p).wayOut
  adrWp p := (i.wpi p).portAdr
  wayWp p := (wpOut c s i g p).tagOut.way

def requests : Lines where
  linelock n :=
    if n = c.wports then (bifo c s g).reqLinelock else (wpOut c s i g n).reqLinelock
  tagr n :=
    if n = idxBusif c then (bifo c s g).reqTagr
    else if wpOff c ≤ n then (wpOut c s i g (n - wpOff c)).reqTagr
    else (rpOut c s i g n).reqTagr
  tagw n := if n = c.wports then (bifo c s g).reqTagw else (wpOut c s i g n).reqTagw
  bank b n :=
    if n = idxBusif c then (bifo c s g).reqBank b
    else if wpOff c ≤ n then
      bankOf c (i.wpi (n - wpOff c)).portAdr == b && (wpOut c s i g (n - wpOff c)).bankReqRd
    else bankOf c (i.rpi n).portAdr == b && (rpOut c s i g n).bankReqRd
  busif n :=
    if wpOff c ≤ n then (wpOut c s i g (n - wpOff c)).reqBusif else (rpOut c s i g n).reqBusif

def arbitrate : Lines := Arbiter.gnt c s.arb (requests c s i g) (arbIn c s i g)

-- ---------------------------------------------------------------------------
-- Routing
-- ---------------------------------------------------------------------------

def tagRamIn : TagRam.In where
  rd n := (n == c.cores - 1 && (bifo c s g).tagRd) || (rpOut c s i g n).tagRd ||
    (rpOut c s i g (c.cores + n)).tagRd || (wpOut c s i g n).tagRd
  wr n := (n == c.cores - 1 && (bifo c s g).tagWr) || (wpOut c s i g n).tagWr
  addr n :=
    if n = c.cores - 1 ∧ (g.tagr (idxBusif c) || g.tagw c.wports) then s.busif.adr
    else if g.tagr (n + wpOff c) || g.tagw n then (i.wpi n).portAdr
    else if g.tagr n then (i.rpi n).portAdr
    else (i.rpi (n + c.cores)).portAdr
  tagIn n := if n = c.cores - 1 ∧ g.tagw c.wports then (bifo c s g).tagOut
    else (wpOut c s i g n).tagOut

/-- The last CPU linked to RAM port `p` whose write port is granted bank `b`. -/
def bankWriter (b p : ℕ) : Option ℕ :=
  (List.range c.cores).reverse.find? fun cpu =>
    cpu % c.bankRamPorts == p && g.bank b (cpu + wpOff c)

/-- Is the BusIf linked to RAM port `p` of bank `b`? -/
def bankBusif (b p : ℕ) : Bool := p == c.bankRamPorts - 1 && g.bank b (idxBusif c)

/-- `bri(b).wr(p)` -/
def bankWr (b p : ℕ) : Bool :=
  (List.range c.cores).any (fun cpu => cpu % c.bankRamPorts == p && g.bank b (cpu + wpOff c) &&
    (wpOut c s i g cpu).bankWr) || (bankBusif c g b p && (bifo c s g).bankWr b)

/-- `bri(b).wdata(p)` -/
def bankWdata (b p : ℕ) : TWord :=
  if bankBusif c g b p then s.busif.idata b
  else match bankWriter c g b p with
    | some cpu => (wpOut c s i g cpu).bankDataOut
    | none => c.dontCare

/-- `bri(b).wiadr(p)` -/
def bankWiadr (b p : ℕ) : ℕ × ℕ :=
  Arbiter.selWiadr c s.arb (requests c s i g) (arbIn c s i g) b p

/-- One port's process of a bank RAM (`mbankram.vhd`), which reads before it writes. -/
def bankPort (b : ℕ) (ram : (ℕ × ℕ → TWord) × (ℕ → TWord)) (p : ℕ) :
    (ℕ × ℕ → TWord) × (ℕ → TWord) :=
  (if bankWr c s i g b p then
      Function.update ram.1 (bankWiadr c s i g b p) (bankWdata c s i g b p)
    else ram.1,
    Function.update ram.2 p (ram.1 (bankWiadr c s i g b p)))

def bankRam (b : ℕ) : (ℕ × ℕ → TWord) × (ℕ → TWord) :=
  let ports := List.range c.bankRamPorts
  (if i.portsReversed then ports.reverse else ports).foldl (bankPort c s i g b)
    (s.bank b, s.rdata b)

/-- The port the BusIf is granted to. -/
def busifUser : Option ℕ := (List.range (idxBusif c)).reverse.find? g.busif

/-- To the BusIf. -/
def bifIn : BusIf.In where
  busifOp := match busifUser c g with
    | some n => if n < wpOff c then (rpOut c s i g n).busifOp else (wpOut c s i g (n - wpOff c)).busifOp
    | none => .nothing
  busifNolinelock := match busifUser c g with
    | some n => decide (wpOff c ≤ n) && (wpOut c s i g (n - wpOff c)).busifNolinelock
    | none => false
  busifBsel := match busifUser c g with
    | some n => if n < wpOff c then (i.rpi n).portBsel else (i.wpi (n - wpOff c)).portBsel
    | none => 0
  adrIn := match busifUser c g with
    | some n => if n < wpOff c then (i.rpi n).portAdr else (i.wpi (n - wpOff c)).portAdr
    | none => c.dontCare
  dataIn b := match busifUser c g with
    | some n =>
      if wpOff c ≤ n ∧ (bifo c s g).bankRd b = false then (i.wpi (n - wpOff c)).portData
      else s.rdata b (c.bankRamPorts - 1)
    | none => s.rdata b (c.bankRamPorts - 1)
  tagIn := TagRam.tagOut c s.tram (c.cores - 1)
  gntLinelock := g.linelock c.wports
  gntTagw := g.tagw c.wports
  gntTagr := g.tagr (idxBusif c)
  gntBank b := g.bank b (idxBusif c)
  ackI := i.ackI
  datI := s.mem (wordNo (bifo c s g).adrO)

/-- The memory after an eventual write on the bus. -/
def nextMem : ℕ → TWord :=
  let o := bifo c s g
  if o.stbO && o.weO && i.ackI then
    Function.update s.mem (wordNo o.adrO) (Lib.merge o.selO (s.mem (wordNo o.adrO)) o.datO)
  else s.mem

end Interconnect

section Step

variable (c : Config) (s : State) (i : Input)

/-- The grants of one cycle: bank requests do not depend on grants, the others on bank grants. -/
def grants : Lines := arbitrate c s i (arbitrate c s i Lines.none)

def rpo (p : ℕ) : ReadportOut :=
  ⟨(rpOut c s i (grants c s i) p).portAck, (rpOut c s i (grants c s i) p).portData⟩

def wpo (p : ℕ) : WriteportOut :=
  ⟨(wpOut c s i (grants c s i) p).portAck, (wpOut c s i (grants c s i) p).portWcondOk⟩

/-- The state after one cycle. -/
def step : State :=
  let g := grants c s i
  { wp := fun p => (WritePort.comb c (s.wp p) (wpIn c s i g p)).1
    rp := fun p => (ReadPort.comb c (s.rp p) (rpIn c s i g p)).1
    busif := (BusIf.comb c s.busif (bifIn c s i g)).1
    arb := Arbiter.comb c s.arb (requests c s i g) (arbIn c s i g)
    tram := TagRam.comb c s.tram (tagRamIn c s i g)
    bank := fun b => (bankRam c s i g b).1
    rdata := fun b => (bankRam c s i g b).2
    rpBusifData := s.busif.idata (bankOf c s.busif.adr)
    mem := nextMem c s i g }

end Step

/-- The state after a reset of two clocks or more. Registers that are not named keep arbitrary
contents; the tag RAMs are configured with no line valid. -/
structure IsReset (c : Config) (s : State) : Prop where
  wp : ∀ p < c.wports, (s.wp p).state = .init ∧ (s.wp p).linkValid = false
  rp : ∀ p < c.rports, (s.rp p).state = .init
  busif : s.busif.state = .idle ∧ s.busif.linelock = false ∧ s.busif.op = .nothing
  idataValid : ∀ b, s.busif.idataValid b = false
  gnt : s.arb.gnt = Lines.none
  tags : ∀ a w, (s.tram.mem a).valid w = false ∧ (s.tram.mem a).dirty w = false
  tram : s.tram.writeTag = false ∧ ∀ p, s.tram.readTag p = false ∧ s.tram.lruUseWr p = false ∧
    s.tram.rdata p = s.tram.mem (s.tram.iaddr p)

end ParaNut.Memu
