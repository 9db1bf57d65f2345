import ParaNut.Memu.Address
import ParaNut.Lib.Slice
import Mathlib.Tactic.Ring

/-!
# Addresses as bit ranges (`memu_lib.vhd`, `mbusif.vhd`)

The ranges of `memu_lib` cut an address into tag, index, bank and byte offset,
`mbusif` puts the address of a word to be written back together again. The
memory unit's model counts with the numbers the parts stand for.
-/

namespace ParaNut.Memu

namespace AddressParts

section Ranges

variable (setsLd banksLd : ℕ)

/-- `TAG_ADDR_OFFSET` -/
def tagAddrOffset : ℕ := setsLd + banksLd + 2

/-- `TAG_ADDR_WIDTH` -/
def tagAddrWidth : ℕ := 32 - tagAddrOffset setsLd banksLd

variable (addr : TWord)

/-- `addr(BANK_OF_ADDR_RANGE)` -/
def bankOfAddr : BitVec banksLd := addr.extractLsb' 2 banksLd

/-- `addr(INDEX_OF_ADDR_RANGE)` -/
def indexOfAddr : BitVec setsLd := addr.extractLsb' (banksLd + 2) setsLd

/-- `addr(TAG_OF_ADDR_RANGE)` -/
def tagOfAddr : BitVec (tagAddrWidth setsLd banksLd) :=
  addr.extractLsb' (tagAddrOffset setsLd banksLd) (tagAddrWidth setsLd banksLd)

/-- `get_way_index_of_addr`; the one way there may be has no number. -/
def getWayIndexOfAddr {waysLd : ℕ} (way : BitVec waysLd) : BitVec (waysLd + setsLd) :=
  if 2 ^ waysLd = 1 then (indexOfAddr setsLd banksLd addr).setWidth _
  else way ++ indexOfAddr setsLd banksLd addr

/-- `adr_o` in `S_BIF_CACHE_WRITE_BACK_VICTIM`: tag, index, `cnt` and `"00"`, which are 32 bits. -/
def writeBackAdr (taddr : BitVec (tagAddrWidth setsLd banksLd)) (cnt : BitVec banksLd) : TWord :=
  (taddr ++ indexOfAddr setsLd banksLd addr ++ cnt ++ 0#2).setWidth 32

end Ranges

section Parts

variable {setsLd banksLd : ℕ} {addr : TWord}

/-- The index is at the right end of a way-index address (`INDEX_OF_WAY_INDEX_RANGE`). -/
theorem index_of_wayIndex {waysLd : ℕ} (way : BitVec waysLd) :
    (getWayIndexOfAddr setsLd banksLd addr way).extractLsb' 0 setsLd =
      indexOfAddr setsLd banksLd addr := by
  unfold getWayIndexOfAddr
  split
  · apply BitVec.eq_of_getLsbD_eq
    intro j hj
    have hj' : j < waysLd + setsLd := by omega
    simp [hj, hj']
  · exact BitVec.extractLsb'_append_eq_right

/-- The parts make up the address. -/
theorem append_parts (addr : TWord) (h : setsLd + banksLd + 2 < 32) :
    (tagOfAddr setsLd banksLd addr ++ indexOfAddr setsLd banksLd addr ++
      bankOfAddr banksLd addr ++ addr.extractLsb' 0 2).setWidth 32 = addr := by
  apply BitVec.eq_of_getLsbD_eq
  intro j hj
  rw [BitVec.getLsbD_setWidth, decide_eq_true hj, Bool.true_and, BitVec.getLsbD_append,
    BitVec.getLsbD_append, BitVec.getLsbD_append]
  simp only [tagOfAddr, indexOfAddr, bankOfAddr, BitVec.getLsbD_extractLsb', tagAddrWidth,
    tagAddrOffset]
  split_ifs with hbyte hbank hindex
  · rw [decide_eq_true hbyte, Bool.true_and, Nat.zero_add]
  · rw [decide_eq_true hbank, Bool.true_and, show 2 + (j - 2) = j by omega]
  · rw [decide_eq_true hindex, Bool.true_and, show banksLd + 2 + (j - 2 - banksLd) = j by omega]
  · rw [decide_eq_true (by omega), Bool.true_and,
      show setsLd + banksLd + 2 + (j - 2 - banksLd - setsLd) = j by omega]

theorem wordOf_append {n : ℕ} (x : BitVec n) (y : BitVec 2) :
    wordOf ((x ++ y).setWidth 32) = x.setWidth 30 := by
  apply BitVec.eq_of_getLsbD_eq
  intro j hj
  have hj' : 2 + j < 32 := by omega
  rw [wordOf, BitVec.getLsbD_extractLsb', BitVec.getLsbD_setWidth, BitVec.getLsbD_append,
    BitVec.getLsbD_setWidth, decide_eq_true hj, decide_eq_true hj', if_neg (by omega),
    Nat.add_sub_cancel_left, Bool.true_and]

/-- Two addresses with all parts equal but the byte offset are in one word. -/
theorem wordOf_of_parts (h : setsLd + banksLd + 2 < 32) {addr' : TWord}
    (htag : tagOfAddr setsLd banksLd addr = tagOfAddr setsLd banksLd addr')
    (hindex : indexOfAddr setsLd banksLd addr = indexOfAddr setsLd banksLd addr')
    (hbank : bankOfAddr banksLd addr = bankOfAddr banksLd addr') :
    wordOf addr = wordOf addr' := by
  rw [← append_parts addr h, ← append_parts addr' h, wordOf_append,
    wordOf_append, htag, hindex, hbank]

/-- A word written back has the tag and number given, and the index of the address. -/
theorem parts_writeBackAdr (h : setsLd + banksLd + 2 < 32)
    (taddr : BitVec (tagAddrWidth setsLd banksLd)) (cnt : BitVec banksLd) :
    tagOfAddr setsLd banksLd (writeBackAdr setsLd banksLd addr taddr cnt) = taddr ∧
      indexOfAddr setsLd banksLd (writeBackAdr setsLd banksLd addr taddr cnt) =
        indexOfAddr setsLd banksLd addr ∧
      bankOfAddr banksLd (writeBackAdr setsLd banksLd addr taddr cnt) = cnt := by
  have hbit : ∀ j, j < 32 → (writeBackAdr setsLd banksLd addr taddr cnt).getLsbD j =
      if j < 2 then false
      else if j - 2 < banksLd then cnt.getLsbD (j - 2)
      else if j - 2 - banksLd < setsLd then
        (indexOfAddr setsLd banksLd addr).getLsbD (j - 2 - banksLd)
      else taddr.getLsbD (j - 2 - banksLd - setsLd) := by
    intro j hj
    simp only [writeBackAdr, BitVec.getLsbD_setWidth, BitVec.getLsbD_append, BitVec.getLsbD_zero,
      decide_eq_true hj, Bool.true_and]
  refine ⟨?tag, ?index, ?bank⟩ <;> apply BitVec.eq_of_getLsbD_eq <;> intro j hj
  case tag =>
    have hj' : j < 32 - (setsLd + banksLd + 2) := hj
    rw [tagOfAddr, BitVec.getLsbD_extractLsb', decide_eq_true hj, Bool.true_and, tagAddrOffset,
      hbit _ (by omega), if_neg (by omega), if_neg (by omega), if_neg (by omega)]
    congr 1
    omega
  case index =>
    rw [indexOfAddr, BitVec.getLsbD_extractLsb', decide_eq_true hj, Bool.true_and,
      hbit _ (by omega), if_neg (by omega), if_neg (by omega), if_pos (by omega)]
    congr 1
    omega
  case bank =>
    rw [bankOfAddr, BitVec.getLsbD_extractLsb', decide_eq_true hj, Bool.true_and,
      hbit _ (by omega), if_neg (by omega), if_pos (by omega)]
    congr 1
    omega

end Parts

section Numbers

variable (c : Config) (adr : TWord)

theorem tagAddrOffset_lt : c.setsLd + c.banksLd + 2 < 32 := by
  have hb := c.banksLd_range
  have hs := c.setsLd_range
  omega

theorem toNat_append_add {n m : ℕ} (x : BitVec n) (y : BitVec m) :
    (x ++ y).toNat = x.toNat * 2 ^ m + y.toNat := by
  rw [BitVec.toNat_append, ← Nat.shiftLeft_add_eq_or_of_lt y.isLt, Nat.shiftLeft_eq]

theorem wordNo_eq : wordNo adr = adr.toNat / 4 := by
  have hadr := adr.isLt
  rw [wordNo, wordOf, BitVec.extractLsb'_toNat, Nat.shiftRight_eq_div_pow,
    Nat.mod_eq_of_lt (by omega)]

/-- The model's bank, index and tag are the numbers in these ranges. -/
theorem toNat_bankOfAddr : (bankOfAddr c.banksLd adr).toNat = bankOf c adr := by
  rw [bankOfAddr, BitVec.extractLsb'_toNat, Nat.shiftRight_eq_div_pow, bankOf, wordNo_eq]
  rfl

theorem toNat_indexOfAddr : (indexOfAddr c.setsLd c.banksLd adr).toNat = indexOf c adr := by
  rw [indexOfAddr, BitVec.extractLsb'_toNat, Nat.shiftRight_eq_div_pow, indexOf, lineOf, wordNo_eq,
    Nat.div_div_eq_div_mul, Nat.add_comm c.banksLd, Nat.pow_add]
  rfl

theorem toNat_tagOfAddr : (tagOfAddr c.setsLd c.banksLd adr).toNat = tagOf c adr := by
  have hlt := tagAddrOffset_lt c
  have hpow : 2 ^ tagAddrOffset c.setsLd c.banksLd = 4 * (2 ^ c.banksLd * 2 ^ c.setsLd) := by
    rw [tagAddrOffset, Nat.pow_add, Nat.pow_add]
    ring
  have hfit : adr.toNat / 2 ^ tagAddrOffset c.setsLd c.banksLd <
      2 ^ tagAddrWidth c.setsLd c.banksLd := by
    refine Nat.div_lt_of_lt_mul ?_
    rw [← Nat.pow_add, tagAddrWidth, Nat.add_sub_cancel' (by rw [tagAddrOffset]; omega)]
    exact adr.isLt
  rw [tagOfAddr, BitVec.extractLsb'_toNat, Nat.shiftRight_eq_div_pow, Nat.mod_eq_of_lt hfit, tagOf,
    lineOf, wordNo_eq, Nat.div_div_eq_div_mul, Nat.div_div_eq_div_mul, hpow]
  rfl

theorem writeBackAdr_eq (taddr : BitVec (tagAddrWidth c.setsLd c.banksLd)) (cnt : BitVec c.banksLd) :
    writeBackAdr c.setsLd c.banksLd adr taddr cnt =
      makeAdr c taddr.toNat (indexOf c adr) cnt.toNat := by
  apply BitVec.eq_of_toNat_eq
  rw [writeBackAdr, BitVec.toNat_setWidth, makeAdr, BitVec.toNat_ofNat, ← toNat_indexOfAddr]
  congr 1
  rw [toNat_append_add, toNat_append_add, toNat_append_add]
  rfl

end Numbers

end AddressParts

end ParaNut.Memu
