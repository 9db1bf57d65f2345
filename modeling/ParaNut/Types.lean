import ParaNut.Lib.Bytes

/-!
# Global types and port records

`types.vhd` and the port records of `memu_lib.vhd`. A `std_logic` is a
`Bool`; byte `n` of a `TByteSel` selects lane `n` of the word, bits
`31 - 8n` to `24 - 8n`. The histogram fields are left out: no other logic
reads them.
-/

namespace ParaNut

abbrev TWord := BitVec 32
abbrev TByteSel := BitVec 4

/-- A word address: bits 31 to 2 of an address. -/
abbrev WordAdr := BitVec 30

def wordOf (adr : TWord) : WordAdr := adr.extractLsb' 2 30

/-- Bits 1 and 0 of an address. -/
def ofsOf (adr : TWord) : BitVec 2 := adr.extractLsb' 0 2

/-- `adr_is_cached`, `memSize` being `CFG_NUT_MEM_SIZE`. -/
def adrIsCached (memSize : ℕ) (adr : TWord) : Bool := adr.toNat < memSize

/-- `adr_is_special`: I/O addresses. -/
def adrIsSpecial (adr : TWord) : Bool := adr.msb

structure ReadportIn where
  portRd : Bool
  portBsel : TByteSel
  portDirect : Bool
  portAdr : TWord
  deriving DecidableEq

structure ReadportOut where
  portAck : Bool
  portData : TWord
  deriving DecidableEq

structure WriteportIn where
  portWr : Bool
  portDirect : Bool
  portBsel : TByteSel
  /-- LL/SC: link the current address (`wr = 0`), store only when the link is valid (`wr = 1`). -/
  portRlinkWcond : Bool
  portWriteback : Bool
  portInvalidate : Bool
  portAdr : TWord
  portData : TWord
  deriving DecidableEq

structure WriteportOut where
  portAck : Bool
  portWcondOk : Bool
  deriving DecidableEq

end ParaNut
