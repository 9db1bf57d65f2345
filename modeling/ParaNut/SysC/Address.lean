import ParaNut.Memu.AddressParts

/-!
# Parts of an address in the SystemC model (`memu.cpp`)

Shifts and masks where the VHDL has ranges.
-/

namespace ParaNut.SysC.MMemu

open Memu.AddressParts

section Helpers

variable (cacheSetsLd cacheBanksLd : ℕ)

/-- `CACHE_SETS`, `CACHE_BANKS` -/
def cacheSets : ℕ := 2 ^ cacheSetsLd
def cacheBanks : ℕ := 2 ^ cacheBanksLd

def getBankOfAdr (adr : TWord) : TWord :=
  (adr >>> 2) &&& BitVec.ofNat 32 (cacheBanks cacheBanksLd - 1)

def getIndexOfAdr (adr : TWord) : TWord :=
  (adr >>> (cacheBanksLd + 2)) &&& BitVec.ofNat 32 (cacheSets cacheSetsLd - 1)

def getWayIndexOfAdr (adr way : TWord) : TWord :=
  getIndexOfAdr cacheSetsLd cacheBanksLd adr ||| (way <<< cacheSetsLd)

def getIndexOfWayIndex (adr : TWord) : TWord := adr &&& BitVec.ofNat 32 (cacheSets cacheSetsLd - 1)

def getTagOfAdr (adr : TWord) : TWord := adr >>> (cacheSetsLd + cacheBanksLd + 2)

def composeAdress (tadr iadr bank byteNo : TWord) : TWord :=
  (tadr <<< (cacheSetsLd + cacheBanksLd + 2)) ||| (iadr <<< (cacheBanksLd + 2)) ||| (bank <<< 2) |||
    byteNo

end Helpers

variable {cacheSetsLd cacheBanksLd : ℕ} {adr : TWord}

theorem getBankOfAdr_eq : getBankOfAdr cacheBanksLd adr =
    (bankOfAddr cacheBanksLd adr).setWidth 32 :=
  Lib.shift_and_ones adr 2 cacheBanksLd

theorem getIndexOfAdr_eq : getIndexOfAdr cacheSetsLd cacheBanksLd adr =
    (indexOfAddr cacheSetsLd cacheBanksLd adr).setWidth 32 :=
  Lib.shift_and_ones adr (cacheBanksLd + 2) cacheSetsLd

theorem getTagOfAdr_eq : getTagOfAdr cacheSetsLd cacheBanksLd adr =
    (tagOfAddr cacheSetsLd cacheBanksLd adr).setWidth 32 := by
  apply BitVec.eq_of_getLsbD_eq
  intro j hj
  rw [getTagOfAdr, tagOfAddr, BitVec.getLsbD_ushiftRight, BitVec.getLsbD_setWidth,
    BitVec.getLsbD_extractLsb', decide_eq_true hj, Bool.true_and, tagAddrWidth, tagAddrOffset]
  rcases Nat.lt_or_ge j (32 - (cacheSetsLd + cacheBanksLd + 2)) with hin | hout
  · rw [decide_eq_true hin, Bool.true_and]
  · rw [decide_eq_false (by omega), Bool.false_and, BitVec.getLsbD_of_ge _ _ (by omega)]

/-- Composing shifts the parts to where appending puts them. -/
theorem composeAdress_eq (tadr : BitVec (tagAddrWidth cacheSetsLd cacheBanksLd))
    (iadr : BitVec cacheSetsLd) (bank : BitVec cacheBanksLd) (byteNo : BitVec 2) :
    composeAdress cacheSetsLd cacheBanksLd (tadr.setWidth 32) (iadr.setWidth 32)
      (bank.setWidth 32) (byteNo.setWidth 32) = (tadr ++ iadr ++ bank ++ byteNo).setWidth 32 := by
  simp only [composeAdress, BitVec.setWidth_append_eq_shiftLeft_setWidth_or,
    BitVec.shiftLeft_or_distrib, BitVec.shiftLeft_add]

/-- `adr & 3` -/
theorem byteNo_eq (adr : TWord) : adr &&& 3 = (adr.extractLsb' 0 2).setWidth 32 := Lib.and_ones adr 2

/-- The word addresses that `mbusif` puts together are those of `ComposeAdress`. -/
theorem composeAdress_writeBackAdr (taddr : BitVec (tagAddrWidth cacheSetsLd cacheBanksLd))
    (cnt : BitVec cacheBanksLd) :
    composeAdress cacheSetsLd cacheBanksLd (taddr.setWidth 32)
      (getIndexOfAdr cacheSetsLd cacheBanksLd adr) (cnt.setWidth 32) 0 =
      writeBackAdr cacheSetsLd cacheBanksLd adr taddr cnt := by
  rw [getIndexOfAdr_eq]
  exact composeAdress_eq taddr _ cnt 0

theorem getIndexOfWayIndex_eq (way : TWord) :
    getIndexOfWayIndex cacheSetsLd (getWayIndexOfAdr cacheSetsLd cacheBanksLd adr way) =
      getIndexOfAdr cacheSetsLd cacheBanksLd adr := by
  apply BitVec.eq_of_getLsbD_eq
  intro j hj
  rw [getIndexOfWayIndex, getWayIndexOfAdr, getIndexOfAdr, cacheSets, BitVec.getLsbD_and,
    BitVec.getLsbD_or, BitVec.getLsbD_and, Lib.getLsbD_ones, BitVec.getLsbD_shiftLeft]
  rcases Nat.lt_or_ge j cacheSetsLd with hin | hout
  · simp [hin]
  · simp [Nat.not_lt.mpr hout]

/-- The word of an address depends on its tag, index and bank only. -/
theorem wordOf_composeAdress (h : cacheSetsLd + cacheBanksLd + 2 < 32) (adr : TWord) :
    wordOf (composeAdress cacheSetsLd cacheBanksLd (getTagOfAdr cacheSetsLd cacheBanksLd adr)
      (getIndexOfAdr cacheSetsLd cacheBanksLd adr) (getBankOfAdr cacheBanksLd adr) 0) =
      wordOf adr := by
  have happend := congrArg wordOf (append_parts adr h)
  have hzero : (0 : TWord) = (0 : BitVec 2).setWidth 32 := rfl
  rw [getTagOfAdr_eq, getIndexOfAdr_eq, getBankOfAdr_eq, hzero, composeAdress_eq, wordOf_append]
  rwa [wordOf_append] at happend

/-- An address is cut into the same parts by both models, and composed of them again by both; its
index is the one of its way-index addresses; equal parts mean equal words. -/
theorem address_parts (cacheSetsLd cacheBanksLd : ℕ)
    (h : cacheSetsLd + cacheBanksLd + 2 < 32) (adr : TWord) :
    composeAdress cacheSetsLd cacheBanksLd (getTagOfAdr cacheSetsLd cacheBanksLd adr)
        (getIndexOfAdr cacheSetsLd cacheBanksLd adr) (getBankOfAdr cacheBanksLd adr) (adr &&& 3) =
      adr ∧
    writeBackAdr cacheSetsLd cacheBanksLd adr (tagOfAddr cacheSetsLd cacheBanksLd adr)
        (bankOfAddr cacheBanksLd adr) ||| (adr.extractLsb' 0 2).setWidth 32 = adr ∧
    (getTagOfAdr cacheSetsLd cacheBanksLd adr =
        (tagOfAddr cacheSetsLd cacheBanksLd adr).setWidth 32 ∧
      getIndexOfAdr cacheSetsLd cacheBanksLd adr =
        (indexOfAddr cacheSetsLd cacheBanksLd adr).setWidth 32 ∧
      getBankOfAdr cacheBanksLd adr = (bankOfAddr cacheBanksLd adr).setWidth 32) ∧
    (∀ way, getIndexOfWayIndex cacheSetsLd (getWayIndexOfAdr cacheSetsLd cacheBanksLd adr way) =
      getIndexOfAdr cacheSetsLd cacheBanksLd adr) ∧
    (∀ waysLd (way : BitVec waysLd),
      (getWayIndexOfAddr cacheSetsLd cacheBanksLd adr way).extractLsb' 0 cacheSetsLd =
        indexOfAddr cacheSetsLd cacheBanksLd adr) ∧
    (∀ adr', getTagOfAdr cacheSetsLd cacheBanksLd adr = getTagOfAdr cacheSetsLd cacheBanksLd adr' →
      getIndexOfAdr cacheSetsLd cacheBanksLd adr = getIndexOfAdr cacheSetsLd cacheBanksLd adr' →
      getBankOfAdr cacheBanksLd adr = getBankOfAdr cacheBanksLd adr' → wordOf adr = wordOf adr') ∧
    ∀ adr', tagOfAddr cacheSetsLd cacheBanksLd adr = tagOfAddr cacheSetsLd cacheBanksLd adr' →
      indexOfAddr cacheSetsLd cacheBanksLd adr = indexOfAddr cacheSetsLd cacheBanksLd adr' →
      bankOfAddr cacheBanksLd adr = bankOfAddr cacheBanksLd adr' → wordOf adr = wordOf adr' := by
  have happend := append_parts adr h
  refine ⟨?compose, ?writeBack, ⟨getTagOfAdr_eq, getIndexOfAdr_eq, getBankOfAdr_eq⟩,
    getIndexOfWayIndex_eq, fun _ way => index_of_wayIndex way,
    fun adr' htag hindex hbank => ?word, fun _ => wordOf_of_parts h⟩
  case compose =>
    rw [getTagOfAdr_eq, getIndexOfAdr_eq, getBankOfAdr_eq, byteNo_eq, composeAdress_eq]
    exact happend
  case writeBack =>
    rw [BitVec.setWidth_append_eq_shiftLeft_setWidth_or] at happend
    rw [writeBackAdr, BitVec.setWidth_append_eq_shiftLeft_setWidth_or]
    simpa using happend
  case word =>
    rw [← wordOf_composeAdress h adr, ← wordOf_composeAdress h adr', htag, hindex, hbank]

/-- The same at the line size and number of sets of `config.h`. -/
theorem address_parts_config : composeAdress 9 2 (getTagOfAdr 9 2 0x12345678)
    (getIndexOfAdr 9 2 0x12345678) (getBankOfAdr 2 0x12345678) (0x12345678 &&& 3) = 0x12345678 :=
  (address_parts 9 2 (by decide) _).1

end ParaNut.SysC.MMemu
