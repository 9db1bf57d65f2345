import ParaNut.SysC.Lsu
import ParaNut.Lsu.Order
import Mathlib.Tactic.Tauto

/-!
# Both load/store units agree

`MLsu` and `mlsu` with four entries side by side. They search the buffer in
opposite directions, so they find the same entry only where no two hold the
same word; this is an invariant, because a store to an I/O address is taken
only into an empty buffer. The index of the one stands for the index and the
two flags of the other.
-/

namespace ParaNut.SysC.MLsu

open Lib
open Lsu (LsuIn Config Unique entryHit)

-- ---------------------------------------------------------------------------
-- Words and bytes
-- ---------------------------------------------------------------------------

theorem byte_putByte (sel : TByteSel) (new w : TWord) (m n : Fin 4) :
    byte (putByte sel new w m) n =
      if n = m ∧ getElem sel n.val n.isLt = true then byte new n else byte w n := by
  have hmask : ∀ j < 8, (0xff000000#32 >>> (8 * m.val)).getLsbD (24 - 8 * n.val + j) =
      decide (n = m) := by
    revert m n
    decide
  cases hsel : sel.getLsbD m with
  | false =>
    have hno : ¬ (n = m ∧ sel[n.val] = true) := by
      rintro ⟨rfl, h⟩
      simp [BitVec.getLsbD_eq_getElem, h] at hsel
    rw [putByte, hsel, if_neg hno]
    rfl
  | true =>
    have hiff : (n = m ∧ sel[n.val] = true) ↔ n = m :=
      and_iff_left_of_imp fun h => by simpa [h, BitVec.getLsbD_eq_getElem] using hsel
    simp only [putByte, hsel, if_true, hiff]
    apply BitVec.eq_of_getLsbD_eq
    intro j hj
    have hlt : 24 - 8 * n.val + j < 32 := by omega
    simp only [getLsbD_byte _ _ hj, BitVec.getLsbD_or, BitVec.getLsbD_and, BitVec.getLsbD_not,
      hmask j hj, hlt]
    by_cases hnm : n = m <;> simp only [hnm, if_true, if_false, getLsbD_byte _ _ hj] <;> simp

theorem byte_foldl_putByte (sel : TByteSel) (new : TWord) (n : Fin 4) (ms : List ℕ)
    (hms : ∀ m ∈ ms, m < 4) (w : TWord) :
    byte (ms.foldl (putByte sel new) w) n =
      if n.val ∈ ms ∧ getElem sel n.val n.isLt = true then byte new n else byte w n := by
  induction ms generalizing w with
  | nil => simp
  | cons m ms ih =>
    have hm : m < 4 := hms m (List.mem_cons_self ..)
    rw [List.foldl_cons, ih fun k hk => hms k (List.mem_cons_of_mem _ hk),
      byte_putByte sel new w ⟨m, hm⟩ n, ← ite_or]
    refine if_congr ?_ rfl rfl
    rw [List.mem_cons, Fin.ext_iff]
    tauto

theorem putBytes_eq (sel : TByteSel) (old new : TWord) : putBytes sel old new = merge sel old new :=
  ext_byte fun n => by
    rw [putBytes, byte_foldl_putByte sel new n _ (by simp), byte_merge]
    simp

@[simp] theorem wordOf_wordAdr (adr : TWord) : wordOf (wordAdr adr) = wordOf adr := by
  apply BitVec.eq_of_getLsbD_eq
  intro j hj
  have hmask : ∀ j < 30, (~~~ 3#32).getLsbD (2 + j) = true := by decide
  simp only [wordOf, wordAdr, BitVec.getLsbD_extractLsb', BitVec.getLsbD_and, hmask j hj,
    Bool.and_true]

@[simp] theorem wordAdr_wordAdr (adr : TWord) : wordAdr (wordAdr adr) = wordAdr adr := by
  rw [wordAdr, wordAdr, BitVec.and_assoc, BitVec.and_self]

theorem wordAdr_eq_iff {a b : TWord} : wordAdr a = wordAdr b ↔ wordOf a = wordOf b := by
  constructor
  · intro h
    rw [← wordOf_wordAdr a, h, wordOf_wordAdr]
  · intro h
    apply BitVec.eq_of_getLsbD_eq
    intro j hj
    have hmask : ∀ j < 32, (~~~ 3#32).getLsbD j = decide (2 ≤ j) := by decide
    simp only [wordAdr, BitVec.getLsbD_and, hmask j hj]
    by_cases h2 : 2 ≤ j
    · have hbit := congrArg (·.getLsbD (j - 2)) h
      have hj2 : j - 2 < 30 := by omega
      have hadd : 2 + (j - 2) = j := by omega
      simp only [wordOf, BitVec.getLsbD_extractLsb', hj2, hadd, decide_true, Bool.true_and] at hbit
      rw [hbit]
    · simp [h2]

-- ---------------------------------------------------------------------------
-- Corresponding buffers
-- ---------------------------------------------------------------------------

/-- The VHDL unit with `LSU_WBUF_SIZE_LD = 2`. -/
def vhdl (memSize : ℕ) (dontCare : TWord) : Config := ⟨4, memSize, dontCare⟩

/-- An entry whose address matters: it holds data, or it is being written to memory. -/
def InUse (r : Lsu.Registers) (n : ℕ) : Prop :=
  r.wbufValid n ≠ 0 ∨ (n = 0 ∧ r.wbufDirty0 = true)

def SameWord (r s : Lsu.Registers) (n : ℕ) : Prop :=
  wordOf (s.wbufAdr n) = wordOf (r.wbufAdr n)

/-- Same word addresses, data under valid bytes, valid bits and in-flight flag. -/
structure Corr (r s : Lsu.Registers) : Prop where
  adr : ∀ n < 4, InUse r n → SameWord r s n
  data : ∀ n < 4, ∀ l : Fin 4, getElem (r.wbufValid n) l.val l.isLt = true →
    byte (s.wbufData n) l = byte (r.wbufData n) l
  valid : ∀ n < 4, s.wbufValid n = r.wbufValid n
  dirty0 : s.wbufDirty0 = r.wbufDirty0

/-- `MLsu` stores word addresses only. -/
def WordAligned (s : Lsu.Registers) : Prop :=
  ∀ n < 4, s.wbufValid n ≠ 0 → wordAdr (s.wbufAdr n) = s.wbufAdr n

/-- An aligned load, store or flush, or none, to an address both classify alike. -/
structure Permitted (i : Input) : Prop where
  aligned : Lsu.misaligned i.lsui = false
  noCacheOp : Lsu.cacheOp i.lsui = false
  noLink : i.rlinkWcond = false
  special : adrIsSpecial i.lsui.adr = ParaNut.adrIsSpecial i.lsui.adr

def rpo (i : Input) : ReadportOut := ⟨i.rpAck, i.rpData⟩

def wpo (i : Input) : WriteportOut := ⟨i.wpAck, i.wpWcondOk⟩

variable {memSize : ℕ} {dontCare : TWord} {r s : Lsu.Registers} {i : Input} {adr : TWord}

/-- An index or -1. -/
def intOf (o : Option ℕ) : ℤ :=
  match o with
  | some n => n
  | none => -1

theorem intOf_some_nonneg (n : ℕ) : 0 ≤ intOf (some n) := Int.natCast_nonneg n

@[simp] theorem toNat_intOf_some (n : ℕ) : (intOf (some n)).toNat = n := rfl

theorem findEntry_eq {p q : ℕ → Bool} (h : ∀ n < 4, p n = q n) :
    findEntry p = intOf ((List.range 4).find? q) := by
  rw [findEntry, maxWbufSize, List.find?_congr fun n hn => h n (List.mem_range.mp hn)]
  rfl

theorem findEmptyWbufEntry_eq (memSize : ℕ) (dontCare : TWord) (h : Corr r s) :
    findEmptyWbufEntry s = intOf (Lsu.findEmptyWbufEntry (vhdl memSize dontCare) r) :=
  findEntry_eq fun n hn => by rw [h.valid n hn]

theorem isFlushed_eq (memSize : ℕ) (dontCare : TWord) (h : Corr r s) :
    isFlushed s = Lsu.isFlushed (vhdl memSize dontCare) r := by
  rw [Bool.eq_iff_iff, Lsu.isFlushed_iff, isFlushed, List.all_eq_true]
  constructor
  · intro hall n hn
    rw [← h.valid n hn]
    simpa using hall n (List.mem_range.mpr hn)
  · intro hall n hn
    have hn4 : n < 4 := List.mem_range.mp hn
    rw [h.valid n hn4, hall n hn4]
    rfl

theorem entryHit_eq (h : Corr r s) (ha : WordAligned s) {n : ℕ} (hn : n < 4) :
    (s.wbufAdr n == wordAdr adr && s.wbufValid n != 0) = entryHit r adr n := by
  rw [Bool.eq_iff_iff, Lsu.entryHit_iff, Bool.and_eq_true, beq_iff_eq, bne_iff_ne, h.valid n hn]
  refine and_congr_left fun hv => ?_
  rw [← ha n hn (h.valid n hn ▸ hv), wordAdr_eq_iff, h.adr n hn (.inl hv)]

/-- Where no two entries hold the same word, the direction of the search does not matter. -/
theorem findWbufHit_eq (h : Corr r s) (ha : WordAligned s)
    (hu : Unique (vhdl memSize dontCare) r) :
    findWbufHit s adr = intOf (Lsu.findWbufHit (vhdl memSize dontCare) r adr) := by
  rw [findWbufHit, findEntry_eq fun n hn => entryHit_eq h ha hn]
  congr 1
  cases hup : (List.range 4).find? (entryHit r adr) with
  | none =>
    symm
    rw [Lsu.findWbufHit, List.find?_eq_none]
    intro n hn
    exact List.find?_eq_none.mp hup n (List.mem_reverse.mp hn)
  | some n =>
    have hn : n < 4 := List.mem_range.mp (List.mem_of_find?_eq_some hup)
    obtain ⟨hw, hv⟩ := Lsu.entryHit_iff.mp (List.find?_some hup)
    exact (Lsu.findWbufHit_eq hu hn hw hv).symm

-- ---------------------------------------------------------------------------
-- The place for a store
-- ---------------------------------------------------------------------------

/-- `k` stands for `e`: negative without an entry, 4 for a full buffer, else the index. -/
structure Encodes (e : Lsu.Entry) (k : ℤ) : Prop where
  lt : e.i < 4
  idle : e.b = false → k < 0
  entry : e.b = true → k = if e.full then 4 else (e.i : ℤ)
  full : e.full = true → e.b = true ∧ e.i = 3

/-- The buffers correspond, and what the correspondence rests on. -/
structure Matched (memSize : ℕ) (dontCare : TWord) (r s : Lsu.Registers) : Prop where
  corr : Corr r s
  aligned : WordAligned s
  unique : Unique (vhdl memSize dontCare) r

theorem encodes_index {n : ℕ} (hn : n < 4) : Encodes ⟨n, true, false⟩ n :=
  ⟨hn, nofun, fun _ => rfl, nofun⟩

theorem encodes_found {n : ℕ} (hn : n < 4) :
    Encodes ⟨n, true, false⟩ (if (n : ℤ) < 0 then (maxWbufSize : ℤ) else n) := by
  rw [if_neg (Int.not_lt.mpr (Int.natCast_nonneg n))]
  exact encodes_index hn

/-- Both take an empty entry, or see that the buffer is full. -/
theorem encodes_empty (new : Option ℕ) : (∀ n ∈ new, n < 4) →
    Encodes
      (match new with
        | some n => ⟨n, true, false⟩
        | none => ⟨3, true, true⟩)
      (if intOf new < 0 then (maxWbufSize : ℤ) else intOf new) := by
  intro hnew
  cases new with
  | none => exact ⟨Nat.lt_succ_self 3, nofun, fun _ => rfl, fun _ => ⟨rfl, rfl⟩⟩
  | some n => exact encodes_found (hnew n rfl)

/-- Both choose between the entry hit and an empty one alike. -/
theorem encodes_choice (hit new : Option ℕ) (special : Bool) :
    (∀ n ∈ hit, n < 4) → (∀ n ∈ new, n < 4) →
    Encodes
      (match hit, special with
        | some n, false => ⟨n, true, false⟩
        | _, _ =>
          match new with
          | some n => ⟨n, true, false⟩
          | none => ⟨3, true, true⟩)
      (let e := if decide (intOf hit < 0) || special then intOf new else intOf hit
       if e < 0 then maxWbufSize else e) := by
  intro hhit hnew
  cases hit with
  | none => exact encodes_empty new hnew
  | some n =>
    have hneg : decide (intOf (some n) < 0) = false :=
      decide_eq_false (Int.not_lt.mpr (Int.natCast_nonneg n))
    rw [hneg]
    cases special with
    | true => exact encodes_empty new hnew
    | false => exact encodes_found (hhit n rfl)

section Step

variable (h : Matched memSize dontCare r s) (hp : Permitted i)
include h in
theorem wbufHit_eq : wbufHit s i = intOf (Lsu.findWbufHit (vhdl memSize dontCare) r i.lsui.adr) :=
  findWbufHit_eq h.corr h.aligned h.unique

include h hp in
theorem wbufEntry_encodes :
    Encodes (Lsu.wbufEntry (vhdl memSize dontCare) r i.lsui) (wbufEntry s i) := by
  have hno : cacheOp i = false := hp.noCacheOp
  rw [Lsu.wbufEntry_of_noCache hp.noCacheOp, wbufEntry, hno, storeEntry, Lsu.storeEntry]
  cases hwr : i.lsui.wr with
  | false =>
    exact ⟨Nat.lt_succ_self 3, fun _ => Int.negSucc_lt_zero 0, fun h => absurd h Bool.false_ne_true,
      fun h => absurd h Bool.false_ne_true⟩
  | true =>
    rw [wbufHit_eq h, hp.special,
      findEmptyWbufEntry_eq memSize dontCare h.corr]
    exact encodes_choice _ _ _ (fun n hn => (Lsu.findWbufHit_some hn).1)
      fun n hn => (Lsu.findEmptyWbufEntry_some hn).1

include hp in
theorem wbufEntry_idle (hb : (Lsu.wbufEntry (vhdl memSize dontCare) r i.lsui).b = false) :
    (Lsu.wbufEntry (vhdl memSize dontCare) r i.lsui).i = 3 := by
  rw [Lsu.wbufEntry_of_noCache hp.noCacheOp] at hb ⊢
  cases hwr : i.lsui.wr with
  | false => rw [Lsu.storeEntry_idle hwr]; rfl
  | true =>
    simp only [Lsu.storeEntry, hwr, if_true] at hb
    split at hb
    · cases hb
    · split at hb <;> cases hb

include h hp

/-- Both see alike whether the entry is the oldest one. -/
theorem wbufEntry_zero : (wbufEntry s i == 0) =
    ((Lsu.wbufEntry (vhdl memSize dontCare) r i.lsui).b &&
      (Lsu.wbufEntry (vhdl memSize dontCare) r i.lsui).i == 0) := by
  have he := wbufEntry_encodes h hp
  generalize hE : Lsu.wbufEntry (vhdl memSize dontCare) r i.lsui = e at he
  rw [Bool.eq_iff_iff, beq_iff_eq, Bool.and_eq_true, beq_iff_eq]
  cases hb : e.b with
  | false =>
    have := he.idle hb
    simp only [Bool.false_eq_true, false_and, iff_false]
    omega
  | true =>
    rw [he.entry hb]
    cases hf : e.full with
    | false => simp
    | true => simp [(he.full hf).2]

theorem wbufDontChange_eq :
    wbufDontChange0 s i = Lsu.wbufDontChange (vhdl memSize dontCare) r i.lsui := by
  have hhit : (wbufHit s i == 0) =
      (Lsu.findWbufHit (vhdl memSize dontCare) r i.lsui.adr == some 0) := by
    rw [wbufHit_eq h, Bool.eq_iff_iff, beq_iff_eq, beq_iff_eq]
    cases Lsu.findWbufHit (vhdl memSize dontCare) r i.lsui.adr with
    | none => simp [intOf]
    | some n => simp [intOf]
  rw [wbufDontChange0, Lsu.wbufDontChange, h.corr.dirty0, hhit, wbufEntry_zero h hp, Bool.and_assoc]

theorem wbufRemove_eq :
    wbufRemove s i = Lsu.wbufRemove (vhdl memSize dontCare) r i.lsui (wpo i) := by
  have hzero : (wbufEntry s i != 0) =
      ((Lsu.wbufEntry (vhdl memSize dontCare) r i.lsui).i != 0) := by
    rw [bne, bne, wbufEntry_zero h hp]
    cases hb : (Lsu.wbufEntry (vhdl memSize dontCare) r i.lsui).b with
    | false => rw [wbufEntry_idle hp hb]; rfl
    | true => rw [Bool.true_and]
  rw [wbufRemove, Lsu.wbufRemove, wbufDontChange_eq h hp, h.corr.dirty0, hzero]
  rfl

theorem newEntry_encodes :
    Encodes (Lsu.newEntry (vhdl memSize dontCare) r i.lsui (wpo i)) (wbufEntryNew s i) := by
  have he := wbufEntry_encodes h hp
  rw [Lsu.newEntry, wbufEntryNew, wbufRemove_eq h hp]
  cases hr : Lsu.wbufRemove (vhdl memSize dontCare) r i.lsui (wpo i) with
  | false => exact he
  | true =>
    have hne : (Lsu.wbufEntry (vhdl memSize dontCare) r i.lsui).i ≠ 0 := by
      simp only [Lsu.wbufRemove, Bool.and_eq_true, bne_iff_ne] at hr
      exact hr.2
    generalize Lsu.wbufEntry (vhdl memSize dontCare) r i.lsui = e at he hne
    have hlt := he.lt
    have hidle : e.b = false → wbufEntry s i - 1 < 0 := fun hb => by
      have := he.idle hb
      omega
    simp only [if_true]
    cases hf : e.full with
    | true =>
      refine ⟨hlt, hidle, fun hb => ?_, fun h => absurd h Bool.false_ne_true⟩
      rw [he.entry hb, hf, if_pos rfl, (he.full hf).2]
      rfl
    | false =>
      refine ⟨Nat.lt_of_le_of_lt (Nat.sub_le _ _) hlt, hidle, fun hb => ?_, fun h => ?_⟩
      · have hk := he.entry hb
        simp only [hf] at hk ⊢
        simp only [Bool.false_eq_true, if_false] at hk ⊢
        omega
      · simp at h

theorem wbufWrite_eq :
    wbufWrite s i = Lsu.wbufWrite (vhdl memSize dontCare) r i.lsui (wpo i) := by
  have he := newEntry_encodes h hp
  rw [wbufWrite, Lsu.wbufWrite, wbufDontChange_eq h hp, hp.special]
  generalize Lsu.newEntry (vhdl memSize dontCare) r i.lsui (wpo i) = e at he
  have hlt := he.lt
  cases hb : e.b with
  | false =>
    have hk := he.idle hb
    rw [decide_eq_false (Int.not_le.mpr hk)]
    rfl
  | true =>
    have hk := he.entry hb
    rw [hk]
    cases hf : e.full with
    | true => rfl
    | false =>
      have h0 : ((e.i : ℤ) != 0) = (e.i != 0) := by
        rw [Bool.eq_iff_iff]
        simp
      have h4 : (e.i : ℤ) < (maxWbufSize : ℤ) := Int.ofNat_lt.mpr hlt
      simp [h0, h4]

end Step

-- ---------------------------------------------------------------------------
-- Byte selects and data
-- ---------------------------------------------------------------------------

theorem ofs_toNat (adr : TWord) : (adr &&& 3#32).toNat = (ofsOf adr).toNat := by
  have hmask : adr &&& 3#32 = (adr.extractLsb' 0 2).setWidth 32 := by
    simpa using shift_and_mask adr 0 2
  rw [hmask, BitVec.toNat_setWidth, Nat.mod_eq_of_lt]
  · rfl
  · exact Nat.lt_trans (BitVec.isLt _) (by decide)

theorem bsel_eq (hp : Permitted i) : bsel i = Lsu.bsel i.lsui := by
  have hno : cacheOp i = false := hp.noCacheOp
  rw [bsel, Lsu.bsel, hno, hp.noCacheOp, hp.aligned, ← ofs_toNat]
  rfl

theorem byte_wbdata (hp : Permitted i) (l : Fin 4)
    (hl : getElem (Lsu.bsel i.lsui) l.val l.isLt = true) :
    byte (wbdata i) l = byte (Lsu.wbdata (vhdl memSize dontCare) i.lsui) l := by
  have hbyte : i.lsui.wdata &&& (0xff : TWord) = (i.lsui.wdata.extractLsb' 0 8).setWidth 32 := by
    simpa using shift_and_mask i.lsui.wdata 0 8
  have hhalf : i.lsui.wdata &&& (0xffff : TWord) = (i.lsui.wdata.extractLsb' 0 16).setWidth 32 := by
    simpa using shift_and_mask i.lsui.wdata 0 16
  rw [wbdata, Lsu.wbdata, hp.aligned, hbyte, hhalf]
  by_cases h0 : i.lsui.width = 0
  · rw [if_pos h0, if_pos h0]
    rfl
  by_cases h1 : i.lsui.width = 1
  · rw [if_neg h0, if_neg h0, if_pos h1, if_pos h1, byte_ofBytes]
    exact byte_replicate _ l
  by_cases h2 : i.lsui.width = 2
  · rw [if_neg h0, if_neg h0, if_neg h1, if_neg h1, if_pos h2, if_pos h2, if_neg Bool.false_ne_true,
      byte_ofBytes]
    refine (byte_duplicate _ l).trans ?_
    fin_cases l
    all_goals
      apply BitVec.eq_of_getLsbD_eq
      intro j hj
      simp [byte, hj]
      try omega
  · rw [Lsu.bsel, if_neg h0, if_neg h1, if_neg h2] at hl
    simp at hl

theorem format_sign {k : ℕ} (exts : Bool) (b : BitVec (k + 1)) (hk : k + 1 < 32) :
    (if exts then (b.setWidth 32 ^^^ BitVec.twoPow 32 k) - BitVec.twoPow 32 k
      else b.setWidth 32) =
    if exts && b.msb then b.signExtend 32 else b.setWidth 32 := by
  rw [flip_sub_sign b hk]
  cases hm : b.msb with
  | true => rw [Bool.and_true]
  | false => rw [BitVec.signExtend_eq_setWidth_of_msb_false hm, ite_self, ite_self]

theorem formatRdata_eq (w : TWord) : formatRdata i w = Lsu.formatRdata i.lsui w := by
  have h80 : (0x80 : TWord) = BitVec.twoPow 32 7 := by decide
  have h8000 : (0x8000 : TWord) = BitVec.twoPow 32 15 := by decide
  have hbyte : (w >>> (8 * (~~~ i.lsui.adr &&& 3).toNat)) &&& (0xff : TWord) =
      (byte w ⟨(ofsOf i.lsui.adr).toNat, (ofsOf i.lsui.adr).isLt⟩).setWidth 32 := by
    have hofs : 8 * (~~~ i.lsui.adr &&& 3).toNat = 24 - 8 * (ofsOf i.lsui.adr).toNat := by
      have hnot : ofsOf (~~~ i.lsui.adr) = ~~~ ofsOf i.lsui.adr :=
        BitVec.extractLsb'_not_of_lt (by decide)
      refine (congrArg (8 * ·) (ofs_toNat _)).trans ?_
      rw [hnot]
      generalize ofsOf i.lsui.adr = o
      revert o
      decide
    rw [hofs]
    simpa [byte] using shift_and_mask w (24 - 8 * (ofsOf i.lsui.adr).toNat) 8
  have hhalf : (w >>> (8 * (~~~ i.lsui.adr &&& 2).toNat)) &&& (0xffff : TWord) =
      (w.extractLsb' (16 - 16 * (i.lsui.adr.getLsbD 1).toNat) 16).setWidth 32 := by
    have hofs : 8 * (~~~ i.lsui.adr &&& 2).toNat = 16 - 16 * (i.lsui.adr.getLsbD 1).toNat := by
      have htwo : ~~~ i.lsui.adr &&& (2 : TWord) =
          if (~~~ i.lsui.adr).getLsbD 1 then BitVec.twoPow 32 1 else 0 :=
        BitVec.and_twoPow (~~~ i.lsui.adr) 1
      rw [htwo, BitVec.getLsbD_not]
      cases i.lsui.adr.getLsbD 1 <;> rfl
    rw [hofs]
    simpa using shift_and_mask w (16 - 16 * (i.lsui.adr.getLsbD 1).toNat) 16
  rw [formatRdata, Lsu.formatRdata, hbyte, hhalf, h80, h8000]
  by_cases h1 : i.lsui.width = 1
  · rw [if_pos h1, if_pos h1]
    exact format_sign i.lsui.exts _ (by decide)
  by_cases h2 : i.lsui.width = 2
  · rw [if_neg h1, if_neg h1, if_pos h2, if_pos h2]
    exact format_sign i.lsui.exts _ (by decide)
  · rw [if_neg h1, if_neg h1, if_neg h2, if_neg h2]

-- ---------------------------------------------------------------------------
-- Outputs
-- ---------------------------------------------------------------------------

/-- What both units drive alike; the data of a write only in its selected bytes. -/
structure SameOutputs (memSize : ℕ) (dontCare : TWord) (r : Lsu.Registers) (i : Input)
    (dcache : Bool) (sig : Signals) : Prop where
  ack : sig.ack = (Lsu.lsuo (vhdl memSize dontCare) r i.lsui (rpo i) (wpo i)).ack
  alignErr : sig.alignErr = (Lsu.lsuo (vhdl memSize dontCare) r i.lsui (rpo i) (wpo i)).alignErr
  rdata : sig.rdata = (Lsu.lsuo (vhdl memSize dontCare) r i.lsui (rpo i) (wpo i)).rdata
  rpRd : sig.rpRd = (Lsu.rpi (vhdl memSize dontCare) r i.lsui dcache).portRd
  rpBsel : sig.rpBsel = (Lsu.rpi (vhdl memSize dontCare) r i.lsui dcache).portBsel
  rpAdr : wordOf sig.rpAdr = wordOf (Lsu.rpi (vhdl memSize dontCare) r i.lsui dcache).portAdr
  wpWr : sig.wpWr = (Lsu.wpi (vhdl memSize dontCare) r i.lsui dcache).portWr
  wpBsel : sig.wpBsel = (Lsu.wpi (vhdl memSize dontCare) r i.lsui dcache).portBsel
  wpAdr : sig.wpWr = true →
    wordOf sig.wpAdr = wordOf (Lsu.wpi (vhdl memSize dontCare) r i.lsui dcache).portAdr
  wpData : ∀ l : Fin 4, getElem sig.wpBsel l.val l.isLt = true →
    byte sig.wpData l = byte (Lsu.wpi (vhdl memSize dontCare) r i.lsui dcache).portData l
  wpRlinkWcond :
    sig.wpRlinkWcond = (Lsu.wpi (vhdl memSize dontCare) r i.lsui dcache).portRlinkWcond
  wpWriteback :
    sig.wpWriteback = (Lsu.wpi (vhdl memSize dontCare) r i.lsui dcache).portWriteback
  wpInvalidate :
    sig.wpInvalidate = (Lsu.wpi (vhdl memSize dontCare) r i.lsui dcache).portInvalidate

section Outputs

variable (h : Matched memSize dontCare r s)

include h in
theorem rdataWord_eq :
    rdataWord s i = Lsu.rdataWord (vhdl memSize dontCare) r i.lsui (rpo i) := by
  rw [rdataWord, Lsu.rdataWord, wbufHit_eq h]
  cases hhit : Lsu.findWbufHit (vhdl memSize dontCare) r i.lsui.adr with
  | none => rfl
  | some n =>
    have hn : n < 4 := (Lsu.findWbufHit_some hhit).1
    rw [if_pos (intOf_some_nonneg n), putBytes_eq, toNat_intOf_some, h.corr.valid n hn]
    refine ext_byte fun l => ?_
    rw [byte_merge, byte_merge]
    split
    · exact h.corr.data n hn l ‹_›
    · rfl

include h in
theorem fullHit_eq (hp : Permitted i) :
    fullHit s i = Lsu.fullHit (vhdl memSize dontCare) r i.lsui := by
  rw [fullHit, Lsu.fullHit, wbufHit_eq h, bsel_eq hp]
  cases hhit : Lsu.findWbufHit (vhdl memSize dontCare) r i.lsui.adr with
  | none => rfl
  | some n =>
    have hn : n < 4 := (Lsu.findWbufHit_some hhit).1
    rw [toNat_intOf_some, h.corr.valid n hn, decide_eq_true (intOf_some_nonneg n), Bool.true_and]

include h in
theorem ack_eq (hp : Permitted i) :
    ack s i = Lsu.ack (vhdl memSize dontCare) r i.lsui (rpo i) (wpo i) := by
  have hno : flushedCacheOp s i = false := by
    rw [flushedCacheOp, show cacheOp i = false from hp.noCacheOp, Bool.and_false]
  have hno' : (Lsu.isFlushed (vhdl memSize dontCare) r && Lsu.cacheOp i.lsui) = false := by
    rw [hp.noCacheOp, Bool.and_false]
  rw [ack, Lsu.ack, hno, hno', wbufWrite_eq h hp, fullHit_eq h hp,
    isFlushed_eq memSize dontCare h.corr]
  cases Lsu.wbufWrite (vhdl memSize dontCare) r i.lsui (wpo i) with
  | true => rfl
  | false =>
    cases i.lsui.flush && Lsu.isFlushed (vhdl memSize dontCare) r <;> rfl

theorem alignErr_of_aligned (ha : Lsu.misaligned i.lsui = false) : alignErr i = false := by
  rw [Lsu.misaligned] at ha
  rw [alignErr]
  by_cases h0 : i.lsui.width = 0
  · rw [if_pos h0] at ha
    have hofs : ofsOf i.lsui.adr = 0 := by simpa using ha
    have hbit := congrArg (·.getLsbD 0) hofs
    simpa [ofsOf, h0] using hbit
  · rw [decide_eq_false h0, Bool.false_or]
    by_cases h2 : i.lsui.width = 2
    · rw [if_neg h0, if_pos h2] at ha
      rw [ha, ite_self]
    · rw [decide_eq_false h2, if_neg Bool.false_ne_true]

theorem alignErr_eq (hp : Permitted i) : alignErr i = false := alignErr_of_aligned hp.aligned

include h in
theorem sameOutputs (hp : Permitted i) (dcache : Bool) (old : Signals) :
    SameOutputs memSize dontCare r i dcache (outputMethod s i old) := by
  have hflushed : flushedCacheOp s i = false := by
    rw [flushedCacheOp, show cacheOp i = false from hp.noCacheOp, Bool.and_false]
  have hflushed' : (Lsu.isFlushed (vhdl memSize dontCare) r && Lsu.cacheOp i.lsui) = false := by
    rw [hp.noCacheOp, Bool.and_false]
  have hno : Lsu.alignErr i.lsui = false := by rw [Lsu.alignErr, hp.aligned, Bool.false_and]
  have hcache : i.lsui.cacheWriteback = false ∧ i.lsui.cacheInvalidate = false := by
    simpa [Lsu.cacheOp] using hp.noCacheOp
  rw [outputMethod, alignErr_eq hp, if_neg Bool.false_ne_true]
  constructor
  case ack => exact ack_eq h hp
  case alignErr => exact hno.symm
  case rdata => exact (congrArg (formatRdata i) (rdataWord_eq h)).trans (formatRdata_eq _)
  case rpRd => simp only [Lsu.rpi, fullHit_eq h hp, hno]; simp
  case rpBsel => exact bsel_eq hp
  case rpAdr => exact wordOf_wordAdr _
  case wpWr => simp only [hflushed, Lsu.wpi, hflushed', h.corr.dirty0]
  case wpBsel => exact h.corr.valid 0 (by decide)
  case wpAdr =>
    simp only [hflushed, Bool.false_eq_true, if_false, h.corr.dirty0]
    exact fun hd => h.corr.adr 0 (by decide) (.inr ⟨rfl, hd⟩)
  case wpData =>
    simp only [h.corr.valid 0 (by decide : 0 < 4)]
    exact fun l hl => h.corr.data 0 (by decide) l hl
  case wpRlinkWcond => exact hp.noLink
  case wpWriteback => simp only [hflushed, Lsu.wpi, hcache.1, Bool.false_and]
  case wpInvalidate => simp only [hflushed, Lsu.wpi, hcache.2, Bool.false_and]

end Outputs

-- ---------------------------------------------------------------------------
-- The clocked part
-- ---------------------------------------------------------------------------

section Clocked

variable {st : State}

theorem settled_sig (st : State) (ha : alignErr i = false) :
    (settled st i).sig.sigWbufEntry = wbufEntry st.wbuf i ∧
      (settled st i).sig.sigWbufEntryNew = wbufEntryNew st.wbuf i ∧
      (settled st i).sig.sigWbufRemove = wbufRemove st.wbuf i ∧
      (settled st i).sig.sigWbufWrite = wbufWrite st.wbuf i ∧
      (settled st i).sig.sigWbdata = wbdata i ∧
      (settled st i).sig.sigWbbsel = bsel i := by
  rw [settled, outputMethod, ha, if_neg Bool.false_ne_true]
  exact ⟨rfl, rfl, rfl, rfl, rfl, rfl⟩

theorem removed_of_remove (memSize : ℕ) (dontCare : TWord) (ha : alignErr i = false) (hr : wbufRemove st.wbuf i = true) :
    removed (settled st i) i = st.wbuf.shift (vhdl memSize dontCare) := by
  rw [removed, (settled_sig st ha).2.2.1, hr, if_pos rfl]
  rfl

theorem removed_of_keep (ha : alignErr i = false) (hr : wbufRemove st.wbuf i = false) :
    removed (settled st i) i =
      { st.wbuf with wbufDirty0 := st.wbuf.wbufDirty0 && !i.wpAck } := by
  rw [removed, (settled_sig st ha).2.2.1, hr, if_neg Bool.false_ne_true]
  cases i.wpAck <;> cases hd : st.wbuf.wbufDirty0 <;> simp [settled, hd]

theorem Corr.shift (h : Corr r s) :
    Corr (r.shift (vhdl memSize dontCare)) (s.shift (vhdl memSize dontCare)) where
  adr n hn hu := by
    have hlt : n + 1 < 4 ∧ r.wbufValid (n + 1) ≠ 0 := by
      rcases hu with hv | ⟨rfl, hd⟩
      · exact ⟨(Lsu.shift_valid_ne hv).1, (Lsu.shift_valid_ne hv).2.1⟩
      · exact ⟨by decide, by simpa [Lsu.Registers.shift] using hd⟩
    have hw := h.adr (n + 1) hlt.1 (.inl hlt.2)
    simpa [SameWord, Lsu.Registers.shift, vhdl, hlt.1] using hw
  data n hn l hl := by
    rw [Lsu.shift_wbufValid] at hl
    split at hl
    · rename_i hlt
      have hlt : n + 1 < 4 := hlt
      have hb := h.data (n + 1) hlt l hl
      simpa [Lsu.Registers.shift, vhdl, hlt] using hb
    · simp at hl
  valid n hn := by
    rw [Lsu.shift_wbufValid, Lsu.shift_wbufValid]
    split
    · exact h.valid _ ‹_›
    · rfl
  dirty0 := by simp only [Lsu.Registers.shift, h.valid 1 (by decide : 1 < 4)]

theorem Corr.acked (h : Corr r s) (ack : Bool) :
    Corr { r with wbufDirty0 := r.wbufDirty0 && !ack }
      { s with wbufDirty0 := s.wbufDirty0 && !ack } where
  adr n hn hu := h.adr n hn <| hu.imp_right fun ⟨h0, hd⟩ => ⟨h0, by
    cases hr : r.wbufDirty0
    · simp [hr] at hd
    · rfl⟩
  data := h.data
  valid := h.valid
  dirty0 := by simp only [h.dirty0]

theorem Corr.removed (h : Matched memSize dontCare r st.wbuf) (hp : Permitted i) :
    Corr (Lsu.drained (vhdl memSize dontCare) r i.lsui (wpo i))
      (removed (settled st i) i) := by
  have heq := wbufRemove_eq h hp
  cases hr : wbufRemove st.wbuf i with
  | true =>
    rw [Lsu.drained_of_remove (heq.symm.trans hr), removed_of_remove _ _ (alignErr_eq hp) hr]
    exact h.corr.shift
  | false =>
    rw [Lsu.drained_of_keep (heq.symm.trans hr), removed_of_keep (alignErr_eq hp) hr]
    exact h.corr.acked i.wpAck

theorem oldEntry_eq (h : Matched memSize dontCare r st.wbuf) (hp : Permitted i) :
    oldEntry (settled st i) = ((Lsu.wbufEntry (vhdl memSize dontCare) r i.lsui).b &&
      !(Lsu.wbufEntry (vhdl memSize dontCare) r i.lsui).full) := by
  have he := wbufEntry_encodes h hp
  rw [oldEntry, (settled_sig st (alignErr_eq hp)).1]
  cases hb : (Lsu.wbufEntry (vhdl memSize dontCare) r i.lsui).b with
  | false => rw [decide_eq_false (Int.not_le.mpr (he.idle hb))]; rfl
  | true =>
    rw [he.entry hb]
    cases hf : (Lsu.wbufEntry (vhdl memSize dontCare) r i.lsui).full with
    | true => rfl
    | false => simpa [maxWbufSize] using Int.ofNat_lt.mpr he.lt

theorem readValid_eq (h : Matched memSize dontCare r st.wbuf) (hp : Permitted i) :
    readValid (settled st i) = Lsu.oldValid (vhdl memSize dontCare) r i.lsui := by
  have he := wbufEntry_encodes h hp
  rw [readValid, Lsu.oldValid, oldEntry_eq h hp, (settled_sig st (alignErr_eq hp)).1]
  split
  · rename_i hold
    rw [Bool.and_eq_true, Bool.not_eq_true'] at hold
    rw [he.entry hold.1, hold.2, if_neg Bool.false_ne_true]
    exact h.corr.valid _ he.lt
  · rfl

theorem byte_readData (h : Matched memSize dontCare r st.wbuf) (hp : Permitted i) (l : Fin 4)
    (hl : getElem (Lsu.oldValid (vhdl memSize dontCare) r i.lsui) l.val l.isLt = true) :
    byte (readData (settled st i)) l =
      byte (Lsu.oldData (vhdl memSize dontCare) r i.lsui) l := by
  have he := wbufEntry_encodes h hp
  rw [Lsu.oldValid] at hl
  rw [readData, Lsu.oldData, oldEntry_eq h hp, (settled_sig st (alignErr_eq hp)).1]
  split
  · rename_i hold
    rw [if_pos hold] at hl
    rw [Bool.and_eq_true, Bool.not_eq_true'] at hold
    rw [he.entry hold.1, hold.2, if_neg Bool.false_ne_true]
    exact h.corr.data _ he.lt l hl
  · rename_i hold
    rw [if_neg hold] at hl
    simp at hl

theorem Corr.store {v w : Lsu.Registers} (h : Corr v w) {n : ℕ} {data data' : TWord}
    {valid : TByteSel}
    (hdata : ∀ l : Fin 4, getElem valid l.val l.isLt = true → byte data' l = byte data l) :
    Corr (v.store n adr data valid) (w.store n (wordAdr adr) data' valid) where
  adr m hm hu := by
    by_cases hmn : m = n
    · simp [SameWord, Lsu.Registers.store, hmn]
    · have hu' : InUse v m := by
        rcases hu with hv | ⟨rfl, hd⟩
        · exact .inl (by simpa [Lsu.Registers.store, hmn] using hv)
        · exact .inr ⟨rfl, by simpa [Lsu.Registers.store, Ne.symm hmn] using hd⟩
      simpa [SameWord, Lsu.Registers.store, hmn] using h.adr m hm hu'
  data m hm l hl := by
    by_cases hmn : m = n
    · simp only [Lsu.Registers.store, hmn, if_true] at hl ⊢
      exact hdata l hl
    · simp only [Lsu.Registers.store, hmn, if_false] at hl ⊢
      exact h.data m hm l hl
  valid m hm := by
    simp only [Lsu.Registers.store, h.valid m hm]
  dirty0 := by simp only [Lsu.Registers.store, h.dirty0]

theorem transition_of_write (ha : alignErr i = false) (hw : wbufWrite st.wbuf i = true) :
    transition (settled st i) i =
      (removed (settled st i) i).store (wbufEntryNew st.wbuf i).toNat (wordAdr i.lsui.adr)
        (newData (settled st i)) (readValid (settled st i) ||| bsel i) := by
  obtain ⟨-, hnew, -, hwrite, -, hsel⟩ := settled_sig st ha
  rw [transition, hwrite, hw, if_pos rfl, hnew, hsel]
  rfl

theorem transition_of_not_write (ha : alignErr i = false) (hw : wbufWrite st.wbuf i = false) :
    transition (settled st i) i = removed (settled st i) i := by
  rw [transition, (settled_sig st ha).2.2.2.1, hw, if_neg Bool.false_ne_true]

theorem wbufEntryNew_toNat (h : Matched memSize dontCare r st.wbuf) (hp : Permitted i)
    (hw : wbufWrite st.wbuf i = true) : (wbufEntryNew st.wbuf i).toNat =
      (Lsu.newEntry (vhdl memSize dontCare) r i.lsui (wpo i)).i := by
  have he := newEntry_encodes h hp
  rw [wbufWrite_eq h hp] at hw
  simp only [Lsu.wbufWrite, Bool.and_eq_true, Bool.not_eq_true'] at hw
  obtain ⟨⟨⟨hb, hf⟩, -⟩, -⟩ := hw
  rw [he.entry hb, hf, if_neg Bool.false_ne_true]
  rfl

/-- The clocked parts move to corresponding buffers. -/
theorem Corr.next (h : Matched memSize dontCare r st.wbuf) (hp : Permitted i) :
    Corr (Lsu.next (vhdl memSize dontCare) r i.lsui (wpo i))
      (transition (settled st i) i) := by
  have heq := wbufWrite_eq h hp
  cases hw : wbufWrite st.wbuf i with
  | false =>
    rw [transition_of_not_write (alignErr_eq hp) hw, Lsu.next, heq.symm.trans hw, if_neg Bool.false_ne_true]
    exact Corr.removed h hp
  | true =>
    rw [transition_of_write (alignErr_eq hp) hw, Lsu.next, heq.symm.trans hw, if_pos rfl,
      wbufEntryNew_toNat h hp hw, readValid_eq h hp, bsel_eq hp]
    refine (Corr.removed h hp).store fun l hl => ?_
    rw [newData, (settled_sig st (alignErr_eq hp)).2.2.2.2.1, (settled_sig st (alignErr_eq hp)).2.2.2.2.2, bsel_eq hp, putBytes_eq,
      byte_merge, byte_merge]
    split
    · exact byte_wbdata hp l ‹_›
    · rename_i hsel
      refine byte_readData h hp l ?_
      simpa [hsel] using hl

theorem WordAligned.transition (h : WordAligned st.wbuf) (ha : alignErr i = false) :
    WordAligned (transition (settled st i) i) := by
  have hremoved : WordAligned (removed (settled st i) i) := by
    cases hr : wbufRemove st.wbuf i with
    | false =>
      rw [removed_of_keep ha hr]
      exact h
    | true =>
      rw [removed_of_remove 0 0 ha hr]
      intro n hn hv
      obtain ⟨hlt, hv', ha⟩ := Lsu.shift_valid_ne hv
      rw [ha]
      exact h (n + 1) hlt hv'
  cases hw : wbufWrite st.wbuf i with
  | false =>
    rw [transition_of_not_write ha hw]
    exact hremoved
  | true =>
    rw [transition_of_write ha hw]
    intro n hn hv
    by_cases hne : n = (wbufEntryNew st.wbuf i).toNat
    · simp [Lsu.Registers.store, hne]
    · simp only [Lsu.Registers.store, hne, if_false] at hv ⊢
      exact hremoved n hn hv

/-- Equal word addresses in all entries, also in those out of use, stay equal. -/
theorem sameWord_next (h : Matched memSize dontCare r st.wbuf) (hp : Permitted i)
    (hsame : ∀ n < 4, SameWord r st.wbuf n) {n : ℕ} (hn : n < 4) :
    SameWord (Lsu.next (vhdl memSize dontCare) r i.lsui (wpo i)) (transition (settled st i) i)
      n := by
  have hremoved : SameWord (Lsu.drained (vhdl memSize dontCare) r i.lsui (wpo i))
      (removed (settled st i) i) n := by
    have heq := wbufRemove_eq h hp
    cases hr : wbufRemove st.wbuf i with
    | false =>
      rw [Lsu.drained_of_keep (heq.symm.trans hr), removed_of_keep (alignErr_eq hp) hr]
      exact hsame n hn
    | true =>
      rw [Lsu.drained_of_remove (heq.symm.trans hr),
        removed_of_remove memSize dontCare (alignErr_eq hp) hr]
      simp only [SameWord, Lsu.Registers.shift]
      split
      · exact hsame (n + 1) ‹_›
      · exact hsame n hn
  have heq := wbufWrite_eq h hp
  cases hw : wbufWrite st.wbuf i with
  | false =>
    rw [transition_of_not_write (alignErr_eq hp) hw, Lsu.next, heq.symm.trans hw, if_neg Bool.false_ne_true]
    exact hremoved
  | true =>
    rw [transition_of_write (alignErr_eq hp) hw, Lsu.next, heq.symm.trans hw, if_pos rfl,
      wbufEntryNew_toNat h hp hw]
    simp only [SameWord, Lsu.Registers.store]
    split
    · exact wordOf_wordAdr _
    · exact hremoved

end Clocked

-- ---------------------------------------------------------------------------
-- Runs
-- ---------------------------------------------------------------------------

def vhdlStep (memSize : ℕ) (dontCare : TWord) (r : Lsu.Registers) (i : Input) : Lsu.Registers :=
  Lsu.next (vhdl memSize dontCare) r i.lsui (wpo i)

/-- Reachable from reset by permitted inputs. -/
def VhdlReachable (memSize : ℕ) (dontCare : TWord) (r : Lsu.Registers) : Prop :=
  ∃ r₀ i t, r₀.IsReset ∧ (∀ u < t, Permitted (i u)) ∧ run (vhdlStep memSize dontCare) r₀ i t = r

def Reachable (st : State) : Prop :=
  ∃ st₀ i t, st₀.wbuf.IsReset ∧ (∀ u < t, Permitted (i u)) ∧ run step st₀ i t = st

theorem VhdlReachable.ordered (h : VhdlReachable memSize dontCare r) :
    Lsu.Ordered (vhdl memSize dontCare) ParaNut.adrIsSpecial r := by
  obtain ⟨r₀, i, t, hr, hp, rfl⟩ := h
  exact run_invariant_upto _ (fun _ i => Permitted i) (Lsu.ordered_reset hr)
    (fun _ i _ ho => ho.advance Lsu.special_of_word
      (Lsu.next_advance (Nat.succ_lt_succ (Nat.succ_pos 2)) ho i.lsui (wpo i))) t hp

theorem Reachable.wordAligned {st : State} (h : Reachable st) : WordAligned st.wbuf := by
  obtain ⟨st₀, i, t, hr, hp, rfl⟩ := h
  exact run_invariant_upto (fun st : State => WordAligned st.wbuf)
    (fun _ i => Permitted i) (fun n _ hv => absurd (hr.1 n) hv) (fun _ _ hp ha => ha.transition (alignErr_eq hp)) t hp

theorem corr_reset (hr : r.IsReset) (hs : s.IsReset) : Corr r s where
  adr n _ hu := by
    rcases hu with hv | ⟨-, hd⟩
    · exact absurd (hr.1 n) hv
    · exact absurd (hr.2.symm.trans hd) Bool.false_ne_true
  data n _ l hl := by
    rw [hr.1 n] at hl
    simp at hl
  valid n _ := (hs.1 n).trans (hr.1 n).symm
  dirty0 := hs.2.trans hr.2.symm

/-- One cycle from corresponding states. -/
structure Agree (memSize : ℕ) (dontCare : TWord) (r : Lsu.Registers) (st : State) (i : Input)
    (dcache : Bool) : Prop where
  outputs : SameOutputs memSize dontCare r i dcache (settled st i).sig
  corr : Corr (vhdlStep memSize dontCare r i) (step st i).wbuf
  sameWord : (∀ n < 4, SameWord r st.wbuf n) →
    ∀ n < 4, SameWord (vhdlStep memSize dontCare r i) (step st i).wbuf n

theorem agree_of_reachable {st : State} (hr : VhdlReachable memSize dontCare r)
    (hs : Reachable st) (hc : Corr r st.wbuf) (hp : Permitted i) (dcache : Bool) :
    Agree memSize dontCare r st i dcache :=
  have hm : Matched memSize dontCare r st.wbuf := ⟨hc, hs.wordAligned, hr.ordered.unique⟩
  ⟨sameOutputs hm hp dcache st.sig, Corr.next hm hp, fun hw _ hn => sameWord_next hm hp hw hn⟩

/-- From corresponding reachable states both units drive the same outputs and move to
corresponding states, and so they do in every cycle of every run from reset. -/
theorem mLsu_agrees (memSize : ℕ) (dontCare : TWord) :
    (∀ (r : Lsu.Registers) (st : State) (i : Input) (dcache : Bool),
      VhdlReachable memSize dontCare r → Reachable st → Corr r st.wbuf → Permitted i →
        Agree memSize dontCare r st i dcache) ∧
    ∀ (r : Lsu.Registers) (st : State) (i : ℕ → Input) (dcache : Bool),
      r.IsReset → st.wbuf.IsReset → (∀ t, Permitted (i t)) → ∀ t,
        Corr (run (vhdlStep memSize dontCare) r i t) (run step st i t).wbuf ∧
          Agree memSize dontCare (run (vhdlStep memSize dontCare) r i t) (run step st i t) (i t)
            dcache := by
  refine ⟨fun r st i dcache hr hs hc hp => agree_of_reachable hr hs hc hp dcache,
    fun r st i dcache hr hs hp t => ?_⟩
  have hreach : ∀ t, VhdlReachable memSize dontCare (run (vhdlStep memSize dontCare) r i t) ∧
      Reachable (run step st i t) := fun t =>
    ⟨⟨r, i, t, hr, fun u _ => hp u, rfl⟩, ⟨st, i, t, hs, fun u _ => hp u, rfl⟩⟩
  have hcorr : Corr (run (vhdlStep memSize dontCare) r i t) (run step st i t).wbuf := by
    induction t with
    | zero => exact corr_reset hr hs
    | succ t ih => exact (agree_of_reachable (hreach t).1 (hreach t).2 ih (hp t) dcache).corr
  exact ⟨hcorr, agree_of_reachable (hreach t).1 (hreach t).2 hcorr (hp t) dcache⟩

def idleInput : Input :=
  ⟨⟨false, false, false, false, false, 1, true, 5, 0⟩, false, false, 0, false, false, 0⟩

/-- A word store to 4 and a byte load from 5, answered from the buffer in the cycle after it. -/
def storeLoad : ℕ → Input
  | 0 => { idleInput with lsui := ⟨false, true, false, false, false, 0, false, 4, 0x11a23344⟩ }
  | 1 => { idleInput with lsui := ⟨true, false, false, false, false, 1, true, 5, 0⟩ }
  | _ => idleInput

def emptyBuffer : Lsu.Registers := ⟨fun _ => 0, fun _ => 0, fun _ => 0, false⟩

def resetState : State :=
  ⟨emptyBuffer, 0, ⟨false, false, false, 0, false, 0, 0, false, 0, false, false, false, 0, 0, 0, 0, 0, 0,
    false, false⟩⟩

theorem storeLoad_permitted (t : ℕ) : Permitted (storeLoad t) := by
  have hidle : Permitted idleInput := by constructor <;> decide
  rcases t with _ | _ | t
  · constructor <;> decide
  · constructor <;> decide
  · exact hidle

theorem mLsu_agrees_storeLoad :
    (settled (run step resetState storeLoad 2) (storeLoad 2)).sig.rdata = 0xffffffa2 :=
  (((mLsu_agrees 0x1000 0).2 emptyBuffer resetState storeLoad true ⟨fun _ => rfl, rfl⟩
    ⟨fun _ => rfl, rfl⟩ storeLoad_permitted 2).2.outputs.rdata).trans (by decide)

end ParaNut.SysC.MLsu
