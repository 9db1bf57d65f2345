import ParaNut.Lsu.Buffer

/-!
# The plain memory the load/store unit stands for

A byte-addressed, big-endian memory with loads and stores of one, two and
four bytes. The lanes `mlsu` selects for an aligned access are the bytes of
this memory at consecutive addresses.
-/

namespace ParaNut.Lsu

open Lib

abbrev PlainMem := TWord → BitVec 8

namespace PlainMem

attribute [local instance] lanes_neZero in
/-- The bytes a store of the given width writes, in address order. -/
def storeBytes (width : BitVec 2) (wdata : TWord) : List (BitVec 8) :=
  if width = 0 then [byte wdata 0, byte wdata 1, byte wdata 2, byte wdata 3]
  else if width = 1 then [byte wdata 3]
  else [byte wdata 2, byte wdata 3]

/-- Number of bytes of an access. -/
def accessSize (width : BitVec 2) : ℕ := if width = 0 then 4 else if width = 1 then 1 else 2

def store (m : PlainMem) (width : BitVec 2) (adr wdata : TWord) : PlainMem := fun a =>
  (storeBytes width wdata)[(a - adr).toNat]?.getD (m a)

/-- Extend to a word, with the sign or with zeros. -/
def extend {w : ℕ} (exts : Bool) (x : BitVec w) : TWord :=
  if exts then x.signExtend 32 else x.setWidth 32

def load (m : PlainMem) (width : BitVec 2) (exts : Bool) (adr : TWord) : TWord :=
  if width = 0 then ofBytes fun n => m (adr + BitVec.ofNat 32 n.val)
  else if width = 1 then extend exts (m adr)
  else extend exts (m adr ++ m (adr + 1))

/-- The memory by words and lanes. -/
def contents (m : PlainMem) : Contents := fun a n => m (a ++ BitVec.ofNat 2 n.val)

end PlainMem

variable {m : PlainMem} {lsui : LsuIn}

/-- An aligned access of a known width. -/
structure LsuIn.Known (lsui : LsuIn) : Prop where
  width : lsui.width ≠ 3
  aligned : misaligned lsui = false
  noCache : cacheOp lsui = false

/-- An access the unit serves: a known width, aligned, no cache operation, not an I/O address. -/
structure LsuIn.Plain (lsui : LsuIn) : Prop where
  width : lsui.width ≠ 3
  aligned : misaligned lsui = false
  noCache : cacheOp lsui = false
  notSpecial : adrIsSpecial lsui.adr = false

instance : Decidable lsui.Plain :=
  decidable_of_iff (lsui.width ≠ 3 ∧ misaligned lsui = false ∧ cacheOp lsui = false ∧
      adrIsSpecial lsui.adr = false)
    ⟨fun ⟨hw, ha, hc, hs⟩ => ⟨hw, ha, hc, hs⟩, fun ⟨hw, ha, hc, hs⟩ => ⟨hw, ha, hc, hs⟩⟩

theorem LsuIn.Plain.known (h : lsui.Plain) : lsui.Known := ⟨h.width, h.aligned, h.noCache⟩

-- ---------------------------------------------------------------------------
-- Addresses by word and lane
-- ---------------------------------------------------------------------------

theorem toNat_adr (adr : TWord) : adr.toNat = 4 * (wordOf adr).toNat + (ofsOf adr).toNat := by
  simp only [wordOf, ofsOf, BitVec.extractLsb'_toNat, Nat.shiftRight_eq_div_pow]
  have := adr.isLt
  omega

theorem toNat_lane (a : WordAdr) (n : Fin 4) :
    (a ++ BitVec.ofNat 2 n.val : TWord).toNat = 4 * a.toNat + n.val := by
  have hn : n.val < 4 := n.isLt
  rw [BitVec.toNat_append, ← Nat.shiftLeft_add_eq_or_of_lt (BitVec.isLt _)]
  simp [Nat.shiftLeft_eq]
  omega

/-- Byte `j` of an access that stays within the word of `adr` is a lane of that word. -/
theorem lane_add {adr : TWord} {j : ℕ} (h : (ofsOf adr).toNat + j < 4) :
    adr + BitVec.ofNat 32 j =
      (wordOf adr ++ BitVec.ofNat 2 ((⟨(ofsOf adr).toNat + j, h⟩ : Fin 4).val) : TWord) := by
  rw [← BitVec.toNat_inj, toNat_lane, BitVec.toNat_add, toNat_adr adr, BitVec.toNat_ofNat]
  have := (wordOf adr).isLt
  have := adr.isLt
  simp only
  omega

theorem ofsOf_getLsbD_zero (adr : TWord) : adr.getLsbD 0 = (ofsOf adr).getLsbD 0 := by
  simp [ofsOf]

theorem ofsOf_getLsbD_one (adr : TWord) : adr.getLsbD 1 = (ofsOf adr).getLsbD 1 := by
  simp [ofsOf]

/-- Distance of a lane from the address of an access. -/
theorem lane_sub {adr : TWord} (a : WordAdr) (n : Fin 4) {k : ℕ}
    (hk : (ofsOf adr).toNat + k ≤ 4) (hk0 : 0 < k) :
    ((a ++ BitVec.ofNat 2 n.val : TWord) - adr).toNat < k ↔
      a = wordOf adr ∧ (ofsOf adr).toNat ≤ n.val ∧ n.val < (ofsOf adr).toNat + k := by
  rw [BitVec.toNat_sub, toNat_lane, toNat_adr adr, ← BitVec.toNat_inj]
  have := n.isLt
  have := (wordOf adr).isLt
  have := a.isLt
  omega

theorem lane_sub_eq {adr : TWord} {n : Fin 4} (h : (ofsOf adr).toNat ≤ n.val) :
    ((wordOf adr ++ BitVec.ofNat 2 n.val : TWord) - adr).toNat = n.val - (ofsOf adr).toNat := by
  rw [BitVec.toNat_sub, toNat_lane, toNat_adr adr]
  have := n.isLt
  have := (wordOf adr).isLt
  omega

-- ---------------------------------------------------------------------------
-- The lanes of an access
-- ---------------------------------------------------------------------------

theorem LsuIn.Known.width_cases (h : lsui.Known) :
    (lsui.width = 0 ∧ ofsOf lsui.adr = 0) ∨ lsui.width = 1 ∨
      (lsui.width = 2 ∧ (ofsOf lsui.adr).getLsbD 0 = false) := by
  have hal := h.aligned
  have hw : ∀ w : BitVec 2, w ≠ 3 → w = 0 ∨ w = 1 ∨ w = 2 := by decide
  rcases hw _ h.width with hw | hw | hw <;> simp only [misaligned, hw] at hal
  · exact .inl ⟨hw, by simpa using hal⟩
  · exact .inr (.inl hw)
  · refine .inr (.inr ⟨hw, ?_⟩)
    rw [← ofsOf_getLsbD_zero]
    exact hal

theorem LsuIn.Known.size_le (h : lsui.Known) :
    (ofsOf lsui.adr).toNat + PlainMem.accessSize lsui.width ≤ 4 := by
  rcases h.width_cases with ⟨hw, ho⟩ | hw | ⟨hw, ho⟩
  · simp [PlainMem.accessSize, hw, ho]
  · have := (ofsOf lsui.adr).isLt
    simp [PlainMem.accessSize, hw]
    omega
  · have hk : ∀ o : BitVec 2, o.getLsbD 0 = false → o.toNat + 2 ≤ 4 := by decide
    simpa [PlainMem.accessSize, hw] using hk _ ho

/-- The selected lanes are the bytes of the access. -/
theorem LsuIn.Known.bsel_lane (h : lsui.Known) (n : Fin 4) :
    getElem (bsel lsui) n.val n.isLt = true ↔ (ofsOf lsui.adr).toNat ≤ n.val ∧
      n.val < (ofsOf lsui.adr).toNat + PlainMem.accessSize lsui.width := by
  simp only [bsel, h.noCache, h.aligned]
  rcases h.width_cases with ⟨hw, ho⟩ | hw | ⟨hw, ho⟩
  · have hk : ∀ n : Fin 4, (15#4)[n.val] = true ↔ 0 ≤ n.val ∧ n.val < 0 + 4 := by decide
    simpa [hw, ho, PlainMem.accessSize] using hk n
  · simp only [hw, PlainMem.accessSize]
    have hk : ∀ (o : BitVec 2) (n : Fin 4),
        (1#4 <<< o.toNat)[n.val] = true ↔ o.toNat ≤ n.val ∧ n.val < o.toNat + 1 := by decide
    simpa using hk _ n
  · simp only [hw, PlainMem.accessSize]
    have hk : ∀ (o : BitVec 2) (n : Fin 4), o.getLsbD 0 = false →
        ((3#4 <<< o.toNat)[n.val] = true ↔ o.toNat ≤ n.val ∧ n.val < o.toNat + 2) := by decide
    simpa using hk _ n ho

/-- A selected lane carries the byte the store writes there. -/
theorem LsuIn.Known.wbdata_lane (h : lsui.Known) (c : Config) (n : Fin 4)
    (hn : getElem (bsel lsui) n.val n.isLt = true) :
    (PlainMem.storeBytes lsui.width lsui.wdata)[n.val - (ofsOf lsui.adr).toNat]? =
      some (byte (wbdata c lsui) n) := by
  rw [h.bsel_lane] at hn
  simp only [wbdata, h.aligned]
  rcases h.width_cases with ⟨hw, ho⟩ | hw | ⟨hw, ho⟩
  · simp only [hw, ho, PlainMem.storeBytes]
    fin_cases n <;> simp
  · simp only [hw, PlainMem.storeBytes, PlainMem.accessSize] at hn ⊢
    have : n.val - (ofsOf lsui.adr).toNat = 0 := by
      simp at hn
      omega
    simp [this]
  · simp only [hw, PlainMem.storeBytes, PlainMem.accessSize] at hn ⊢
    have hk : ∀ (o : BitVec 2) (n : Fin 4), o.getLsbD 0 = false → o.toNat ≤ n.val →
        n.val < o.toNat + 2 → n.val - o.toNat = n.val % 2 := by decide
    rw [hk _ n ho hn.1 (by simpa using hn.2)]
    fin_cases n <;> simp

theorem storeBytes_length (width : BitVec 2) (wdata : TWord) :
    (PlainMem.storeBytes width wdata).length = PlainMem.accessSize width := by
  unfold PlainMem.storeBytes PlainMem.accessSize
  split_ifs <;> rfl

theorem accessSize_pos (width : BitVec 2) : 0 < PlainMem.accessSize width := by
  unfold PlainMem.accessSize
  split_ifs <;> decide

/-- A store to the plain memory is a masked write of the addressed word. -/
theorem LsuIn.Known.contents_store (h : lsui.Known) (c : Config) (m : PlainMem) :
    (m.store lsui.width lsui.adr lsui.wdata).contents =
      m.contents.write (wordOf lsui.adr) (bsel lsui) (wbdata c lsui) := by
  funext a n
  simp only [PlainMem.contents, PlainMem.store, Contents.write]
  have hsub := lane_sub a n h.size_le (accessSize_pos _)
  by_cases hin : a = wordOf lsui.adr ∧ (bsel lsui)[n.val] = true
  · obtain ⟨rfl, hn⟩ := hin
    have hle := ((h.bsel_lane n).mp hn).1
    rw [if_pos ⟨rfl, hn⟩, lane_sub_eq hle, h.wbdata_lane c n hn, Option.getD_some]
  · rw [if_neg hin, h.bsel_lane, ← hsub] at *
    rw [List.getElem?_eq_none (by rw [storeBytes_length]; omega), Option.getD_none]

/-- Formatting a word whose selected lanes are those of the memory gives the loaded value. -/
theorem LsuIn.Known.formatRdata (h : lsui.Known) (m : PlainMem) {w : TWord}
    (hw : ∀ n : Fin 4, getElem (bsel lsui) n.val n.isLt = true →
      byte w n = m.contents (wordOf lsui.adr) n) :
    formatRdata lsui w = m.load lsui.width lsui.exts lsui.adr := by
  have hlane : ∀ j (hj : (ofsOf lsui.adr).toNat + j < 4), j < PlainMem.accessSize lsui.width →
      m (lsui.adr + BitVec.ofNat 32 j) = byte w ⟨(ofsOf lsui.adr).toNat + j, hj⟩ := by
    intro j hj hlt
    rw [hw _ ((h.bsel_lane _).mpr ⟨by simp, by simpa using hlt⟩), lane_add hj]
    rfl
  have hext : ∀ {k : ℕ} (x : BitVec k),
      (if (lsui.exts && x.msb) = true then x.signExtend 32 else x.setWidth 32) =
        PlainMem.extend lsui.exts x := by
    intro k x
    unfold PlainMem.extend
    cases lsui.exts <;> cases hm : x.msb <;>
      simp [BitVec.signExtend_eq_setWidth_of_msb_false, hm]
  unfold Lsu.formatRdata PlainMem.load
  rcases h.width_cases with ⟨hw0, ho⟩ | hw0 | ⟨hw0, ho⟩
  · simp only [hw0]
    refine ext_byte fun n => ?_
    have := hlane n.val (by simp [ho]) (by simp [hw0, PlainMem.accessSize])
    simp only [ho] at this
    simpa using this.symm
  · have h0 := hlane 0 (by have := (ofsOf lsui.adr).isLt; omega) (by simp [hw0, PlainMem.accessSize])
    simp only [hw0]
    simp only [Nat.add_zero, BitVec.add_zero] at h0
    rw [h0]
    exact hext _
  · have hle := h.size_le
    simp only [hw0, PlainMem.accessSize] at hle
    have h0 := hlane 0 (by simp at hle; omega) (by simp [hw0, PlainMem.accessSize])
    have h1 := hlane 1 (by simp at hle; omega) (by simp [hw0, PlainMem.accessSize])
    have hk : ∀ o : BitVec 2, o.getLsbD 0 = false → o.toNat = 2 * (o.getLsbD 1).toNat := by decide
    have hbit := hk _ ho
    rw [← ofsOf_getLsbD_one] at hbit
    have h21 : ¬(2 : BitVec 2) = 1 := by decide
    have h20 : ¬(2 : BitVec 2) = 0 := by decide
    rw [hw0, if_neg h21, if_pos rfl, if_neg h20, if_neg h21]
    simp only [hbit, Nat.add_zero, BitVec.ofNat_eq_ofNat, BitVec.add_zero] at h0 h1 ⊢
    have hhalf := extract_half w ⟨(lsui.adr.getLsbD 1).toNat, Bool.toNat_lt _⟩
    rw [h0, h1, ← hhalf]
    exact hext _

end ParaNut.Lsu
