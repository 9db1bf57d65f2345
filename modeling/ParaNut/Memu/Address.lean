import ParaNut.Memu.Types

/-!
# Address arithmetic

A word is a line and a bank, a line a tag and an index. Lines are numbered
below `lines`; an address put together from the parts of such a line has
these parts.
-/

namespace ParaNut.Memu

variable (c : Config) (adr : TWord)

/-- Number of lines in memory. -/
def Config.lines : ℕ := 2 ^ 30 / c.banks

theorem Config.lines_mul_banks : c.lines * c.banks = 2 ^ 30 := by
  have hb := c.banksLd_range
  refine Nat.div_mul_cancel ⟨2 ^ (30 - c.banksLd), ?_⟩
  rw [Config.banks, ← pow_add, Nat.add_sub_cancel' (by omega)]

theorem wordNo_lt : wordNo adr < 2 ^ 30 := (wordOf adr).isLt

theorem line_add_bank : lineOf c adr * c.banks + bankOf c adr = wordNo adr :=
  Nat.div_add_mod' _ _

theorem tag_add_index : tagOf c adr * c.sets + indexOf c adr = lineOf c adr :=
  Nat.div_add_mod' _ _

theorem bankOf_lt : bankOf c adr < c.banks := Nat.mod_lt _ c.banks_pos

theorem indexOf_lt : indexOf c adr < c.sets := Nat.mod_lt _ c.sets_pos

theorem lineOf_lt : lineOf c adr < c.lines := by
  refine Nat.div_lt_of_lt_mul ?_
  rw [Nat.mul_comm, Config.lines_mul_banks]
  exact wordNo_lt adr

variable {c} {adr}

/-- A word is in one line only. -/
theorem line_bank_inj {l l' b b' : ℕ} (hb : b < c.banks) (hb' : b' < c.banks)
    (h : l * c.banks + b = l' * c.banks + b') : l = l' ∧ b = b' := by
  have hdiv := congrArg (· / c.banks) h
  have hmod := congrArg (· % c.banks) h
  simp only [Nat.add_comm _ b, Nat.add_comm _ b', Nat.add_mul_div_right _ _ c.banks_pos,
    Nat.div_eq_of_lt hb, Nat.div_eq_of_lt hb', Nat.add_mul_mod_self_right, Nat.mod_eq_of_lt hb,
    Nat.mod_eq_of_lt hb', Nat.zero_add] at hdiv hmod
  exact ⟨hdiv, hmod⟩

/-- A line is in one set under one tag only. -/
theorem tag_index_inj {t t' x x' : ℕ} (hx : x < c.sets) (hx' : x' < c.sets)
    (h : t * c.sets + x = t' * c.sets + x') : t = t' ∧ x = x' := by
  have hdiv := congrArg (· / c.sets) h
  have hmod := congrArg (· % c.sets) h
  simp only [Nat.add_comm _ x, Nat.add_comm _ x', Nat.add_mul_div_right _ _ c.sets_pos,
    Nat.div_eq_of_lt hx, Nat.div_eq_of_lt hx', Nat.add_mul_mod_self_right, Nat.mod_eq_of_lt hx,
    Nat.mod_eq_of_lt hx', Nat.zero_add] at hdiv hmod
  exact ⟨hdiv, hmod⟩

theorem wordNo_makeAdr {tag index bank : ℕ} (hl : tag * c.sets + index < c.lines)
    (hb : bank < c.banks) :
    wordNo (makeAdr c tag index bank) = (tag * c.sets + index) * c.banks + bank := by
  have hlt : (tag * c.sets + index) * c.banks + bank < 2 ^ 30 := by
    rw [← Config.lines_mul_banks]
    calc (tag * c.sets + index) * c.banks + bank
        < (tag * c.sets + index) * c.banks + c.banks := Nat.add_lt_add_left hb _
      _ = (tag * c.sets + index).succ * c.banks := (Nat.succ_mul _ _).symm
      _ ≤ c.lines * c.banks := Nat.mul_le_mul_right c.banks hl
  simp only [wordNo, wordOf, makeAdr, BitVec.extractLsb'_toNat, BitVec.toNat_ofNat,
    Nat.shiftRight_eq_div_pow]
  omega

theorem wordNo_setBank {bank : ℕ} (hb : bank < c.banks) :
    wordNo (setBank c adr bank) = lineOf c adr * c.banks + bank := by
  have hl := lineOf_lt c adr
  rw [← tag_add_index] at hl
  rw [setBank, wordNo_makeAdr hl hb, tag_add_index]

theorem setBank_parts {bank : ℕ} (hb : bank < c.banks) :
    lineOf c (setBank c adr bank) = lineOf c adr ∧ bankOf c (setBank c adr bank) = bank := by
  refine line_bank_inj (bankOf_lt c (setBank c adr bank)) hb ?_
  rw [line_add_bank, wordNo_setBank hb]

theorem lineOf_setBank {bank : ℕ} (hb : bank < c.banks) :
    lineOf c (setBank c adr bank) = lineOf c adr := (setBank_parts hb).1

theorem bankOf_setBank {bank : ℕ} (hb : bank < c.banks) :
    bankOf c (setBank c adr bank) = bank := (setBank_parts hb).2

theorem clearOfs_eq : clearOfs c adr = setBank c adr (bankOf c adr) := rfl

theorem wordNo_clearOfs : wordNo (clearOfs c adr) = wordNo adr := by
  rw [clearOfs_eq, wordNo_setBank (bankOf_lt c adr), line_add_bank]

theorem lineOf_clearOfs : lineOf c (clearOfs c adr) = lineOf c adr :=
  lineOf_setBank (bankOf_lt c adr)

/-- Addresses in one line have the same index and tag. -/
theorem indexOf_congr {adr' : TWord} (h : lineOf c adr = lineOf c adr') :
    indexOf c adr = indexOf c adr' := by rw [indexOf, indexOf, h]

theorem tagOf_congr {adr' : TWord} (h : lineOf c adr = lineOf c adr') :
    tagOf c adr = tagOf c adr' := by rw [tagOf, tagOf, h]

end ParaNut.Memu
