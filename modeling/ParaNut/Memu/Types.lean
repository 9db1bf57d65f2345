import ParaNut.Types

/-!
# The memory unit: configuration and records (`memu_lib.vhd`)

Vectors are functions from numbers, of which the model uses the places below
the generic that bounds them. An address is tag, index, bank and byte offset
from left to right. Reset and the histogram outputs are left out: runs start
in the state that reset leaves.
-/

namespace ParaNut.Memu

/-- The generics of `paranut_config.vhd` the unit is built with, in the ranges given there. -/
structure Config where
  /-- `CFG_NUT_CPU_CORES_LD` -/
  coresLd : ℕ
  /-- `CFG_MEMU_CACHE_BANKS_LD` -/
  banksLd : ℕ
  /-- `CFG_MEMU_CACHE_SETS_LD` -/
  setsLd : ℕ
  /-- `CFG_MEMU_CACHE_WAYS_LD` -/
  waysLd : ℕ
  /-- `CFG_MEMU_BANK_RAM_PORTS` -/
  bankRamPorts : ℕ
  /-- `CFG_MEMU_CACHE_REPLACE_LRU` -/
  replaceLru : Bool
  /-- `CFG_MEMU_ARBITER_METHOD`, `none` for -1 -/
  arbiterMethod : Option ℕ
  /-- the value a don't-care (`'-'`) takes -/
  dontCare : TWord
  banksLd_range : 1 ≤ banksLd ∧ banksLd ≤ 8
  setsLd_range : 1 ≤ setsLd ∧ setsLd ≤ 13
  waysLd_range : waysLd ≤ 2
  bankRamPorts_range : 1 ≤ bankRamPorts ∧ bankRamPorts ≤ 2

theorem one_bankLd : 1 ≤ 1 ∧ 1 ≤ 8 := by decide

theorem one_setLd : 1 ≤ 1 ∧ 1 ≤ 13 := by decide

theorem one_way : 0 ≤ 2 := by decide

theorem one_ramPort : 1 ≤ 1 ∧ 1 ≤ 2 := by decide

namespace Config

variable (c : Config)

def cores : ℕ := 2 ^ c.coresLd
def banks : ℕ := 2 ^ c.banksLd
def sets : ℕ := 2 ^ c.setsLd
def ways : ℕ := 2 ^ c.waysLd

/-- `RPORTS` and `WPORTS`: data read ports, then instruction read ports; write ports. -/
def rports : ℕ := 2 * c.cores
def wports : ℕ := c.cores

theorem cores_pos : 0 < c.cores := Nat.two_pow_pos _
theorem banks_pos : 0 < c.banks := Nat.two_pow_pos _
theorem sets_pos : 0 < c.sets := Nat.two_pow_pos _
theorem ways_pos : 0 < c.ways := Nat.two_pow_pos _

theorem one_lt_banks : 1 < c.banks := Nat.one_lt_two_pow (by have := c.banksLd_range; omega)

end Config

-- ---------------------------------------------------------------------------
-- Addresses
-- ---------------------------------------------------------------------------

/-- Number of a word in memory: bits 31 to 2 of its address. -/
def wordNo (adr : TWord) : ℕ := (wordOf adr).toNat

section Address

variable (c : Config) (adr : TWord)

/-- `BANK_OF_ADDR_RANGE` -/
def bankOf : ℕ := wordNo adr % c.banks

/-- `LINE_OF_ADDR_RANGE` -/
def lineOf : ℕ := wordNo adr / c.banks

/-- `INDEX_OF_ADDR_RANGE` -/
def indexOf : ℕ := lineOf c adr % c.sets

/-- `TAG_OF_ADDR_RANGE` -/
def tagOf : ℕ := lineOf c adr / c.sets

/-- The word address put together from tag, index and bank. -/
def makeAdr (tag index bank : ℕ) : TWord :=
  BitVec.ofNat 32 (((tag * c.sets + index) * c.banks + bank) * 4)

/-- `v.adr(BANK_OF_ADDR_RANGE) := bank` for an address with offset `"00"`. -/
def setBank (bank : ℕ) : TWord := makeAdr c (tagOf c adr) (indexOf c adr) bank

/-- `v.adr(1 downto 0) := "00"` -/
def clearOfs : TWord := makeAdr c (tagOf c adr) (indexOf c adr) (bankOf c adr)

/-- `get_way_index_of_addr`: with one way the index alone. -/
def wayIndexOf (way : ℕ) : ℕ × ℕ := (if c.ways = 1 then 0 else way, indexOf c adr)

end Address

-- ---------------------------------------------------------------------------
-- Records
-- ---------------------------------------------------------------------------

/-- `BUS_IF_OP` -/
inductive BusIfOp
  | nothing
  | writeback
  | invalidate
  | flush
  | replace
  | directRead
  | directWrite
  deriving DecidableEq

/-- The operations that run through `S_BIF_CACHE_*`. -/
def BusIfOp.isCache : BusIfOp → Bool
  | .writeback | .invalidate | .flush | .replace => true
  | .nothing | .directRead | .directWrite => false

/-- `cache_tag_type` -/
structure CacheTag where
  valid : Bool
  dirty : Bool
  taddr : ℕ
  way : ℕ
  deriving DecidableEq

/-- One place for each requester of the arbiter: the data read ports, the instruction read ports,
the write ports, and the BusIf last. -/
def ipOff (c : Config) : ℕ := c.wports
def wpOff (c : Config) : ℕ := c.rports
def idxBusif (c : Config) : ℕ := c.rports + c.wports

/-- Request lines, or grant lines, of the arbiter. `linelock` and `tagw` have a place for each
write port and the BusIf, `tagr` and `bank` for each requester, `busif` for each port. -/
structure Lines where
  linelock : ℕ → Bool
  tagr : ℕ → Bool
  tagw : ℕ → Bool
  bank : ℕ → ℕ → Bool
  busif : ℕ → Bool

def Lines.none : Lines :=
  ⟨fun _ => false, fun _ => false, fun _ => false, fun _ _ => false, fun _ => false⟩

end ParaNut.Memu
