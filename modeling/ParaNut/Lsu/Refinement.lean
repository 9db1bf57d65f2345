import ParaNut.Lib.Sync
import ParaNut.Lsu.PlainMemory

/-!
# The load/store unit refines a plain memory

`mlsu` between one EXU and the two memory ports. The environment chooses the
requests and every acknowledge; memory is written when the write port
acknowledges and delivers read data one cycle after the read port does. The
simulation relation is `Consistent`: buffer over memory shows the plain memory
that all acknowledged stores have been applied to.
-/

namespace ParaNut.Lsu

open Lib

-- ---------------------------------------------------------------------------
-- Taking a store into the buffer
-- ---------------------------------------------------------------------------

section Step

variable {c : Config} {r : Registers} {mem : Mem} {s : Contents} {lsui : LsuIn}
  {rpo : ReadportOut} {wpo : WriteportOut} {dcache : Bool}

theorem Slot.shift {i : ℕ} {adr old : TWord} {oldValid : TByteSel}
    (h : Slot c r adr (i + 1) old oldValid) : Slot c (r.shift c) adr i old oldValid where
  lt := by have := h.lt; omega
  only j hj hw hv := by
    obtain ⟨hj', hv', ha⟩ := shift_valid_ne hv
    have := h.only (j + 1) hj' (ha ▸ hw) hv'
    omega
  word hv := by
    obtain ⟨_, hv', ha⟩ := shift_valid_ne hv
    rw [ha]
    exact h.word hv'
  valid := by simpa [Registers.shift, h.lt] using h.valid
  data h0 := by simpa [Registers.shift, h.lt] using h.data h0

/-- Clearing the in-flight flag does not touch the entries. -/
theorem Slot.setDirty {i : ℕ} {adr old : TWord} {oldValid : TByteSel} {d : Bool}
    (h : Slot c r adr i old oldValid) : Slot c { r with wbufDirty0 := d } adr i old oldValid :=
  ⟨h.lt, h.only, h.word, h.valid, h.data⟩

theorem slot_of_hit {i : ℕ} {adr : TWord} (hu : Unique c r) (h : findWbufHit c r adr = some i) :
    Slot c r adr i (r.wbufData i) (r.wbufValid i) := by
  obtain ⟨hi, hw, hv⟩ := findWbufHit_some h
  exact ⟨hi, fun j hj hwj hvj => hu j i hj hi hvj hv (hwj.trans hw.symm), fun _ => hw, rfl,
    fun _ => rfl⟩

theorem slot_of_empty {i : ℕ} {adr : TWord} (hno : findWbufHit c r adr = none)
    (h : findEmptyWbufEntry c r = some i) : Slot c r adr i (r.wbufData i) (r.wbufValid i) := by
  obtain ⟨hi, hv⟩ := findEmptyWbufEntry_some h
  exact ⟨hi, fun j hj hw hvj => absurd (findWbufHit_none hno hj hw) hvj, fun h0 => absurd hv h0,
    rfl, fun _ => rfl⟩

/-- A removal frees the last entry of a full buffer. -/
theorem slot_of_full {adr old : TWord} (hs : 0 < c.size) (hno : findWbufHit c r adr = none) :
    Slot c (r.shift c) adr (c.size - 1) old 0 where
  lt := by omega
  only j _ hw hv := by
    obtain ⟨hj, hv', ha⟩ := shift_valid_ne hv
    exact absurd (findWbufHit_none hno hj (ha ▸ hw)) hv'
  word hv := by
    obtain ⟨hj, _, _⟩ := shift_valid_ne hv
    omega
  valid := by
    have : ¬ c.size - 1 + 1 < c.size := by omega
    simp [Registers.shift, this]
  data h0 := absurd rfl h0

theorem storeEntry_wr (h : (storeEntry c r lsui).b = true) : lsui.wr = true := by
  by_contra hw
  simp [storeEntry, hw] at h

/-- What the process finds for a store: an entry that may take it, or a full buffer. -/
theorem storeEntry_cases (hu : Unique c r) (hsp : adrIsSpecial lsui.adr = false)
    (hwr : lsui.wr = true) :
    (∃ i, storeEntry c r lsui = ⟨i, true, false⟩ ∧
        Slot c r lsui.adr i (r.wbufData i) (r.wbufValid i)) ∨
      (storeEntry c r lsui = ⟨c.size - 1, true, true⟩ ∧ findWbufHit c r lsui.adr = none) := by
  cases hh : findWbufHit c r lsui.adr with
  | some i => exact .inl ⟨i, by simp [storeEntry, hwr, hh, hsp], slot_of_hit hu hh⟩
  | none =>
    cases he : findEmptyWbufEntry c r with
    | some i => exact .inl ⟨i, by simp [storeEntry, hwr, hh, he], slot_of_empty hh he⟩
    | none => exact .inr ⟨by simp [storeEntry, hwr, hh, he], rfl⟩

theorem wbufEntry_of_noCache (hc : cacheOp lsui = false) :
    wbufEntry c r lsui = storeEntry c r lsui := by
  simp [wbufEntry, hc]

/-- A store that is taken goes to a proper place of the drained buffer. -/
theorem slot_of_wbufWrite (hs : 0 < c.size) (hu : Unique c r) (hc : cacheOp lsui = false)
    (hsp : adrIsSpecial lsui.adr = false) (hw : wbufWrite c r lsui wpo = true) :
    lsui.wr = true ∧ Slot c (drained c r lsui wpo) lsui.adr (newEntry c r lsui wpo).i
      (oldData c r lsui) (oldValid c r lsui) := by
  have hentry : wbufEntry c r lsui = storeEntry c r lsui := wbufEntry_of_noCache hc
  simp only [wbufWrite, Bool.and_eq_true, Bool.not_eq_true'] at hw
  obtain ⟨⟨⟨hb, hfull⟩, -⟩, -⟩ := hw
  have hwr : lsui.wr = true := by
    have hb' : (storeEntry c r lsui).b = true := by
      rw [← hentry]
      simp only [newEntry] at hb
      split_ifs at hb <;> exact hb
    exact storeEntry_wr hb'
  refine ⟨hwr, ?_⟩
  rcases storeEntry_cases hu hsp hwr with ⟨i, he, hslot⟩ | ⟨he, hno⟩
  · rw [he] at hentry
    have hod : oldData c r lsui = r.wbufData i := by simp [oldData, hentry]
    have hov : oldValid c r lsui = r.wbufValid i := by simp [oldValid, hentry]
    rw [hod, hov]
    by_cases hrem : wbufRemove c r lsui wpo = true
    · obtain ⟨k, rfl⟩ : ∃ k, i = k + 1 := by
        have : i ≠ 0 := by
          simp only [wbufRemove, hentry, Bool.and_eq_true, bne_iff_ne] at hrem
          exact hrem.2
        exact ⟨i - 1, by omega⟩
      simp only [drained, newEntry, hrem, hentry, if_true]
      exact hslot.shift
    · simp only [drained, newEntry, hrem, hentry]
      exact hslot.setDirty
  · rw [he] at hentry
    have hov : oldValid c r lsui = 0 := by simp [oldValid, hentry]
    have hrem : wbufRemove c r lsui wpo = true := by
      by_contra hrem
      simp [newEntry, hrem, hentry] at hfull
    simp only [drained, newEntry, hrem, hentry, hov, if_true]
    exact slot_of_full hs hno

-- ---------------------------------------------------------------------------
-- One cycle over memory
-- ---------------------------------------------------------------------------

theorem storeEntry_idle (hwr : lsui.wr = false) :
    storeEntry c r lsui = ⟨c.size - 1, false, false⟩ := by
  simp [storeEntry, hwr]

theorem drained_of_remove (h : wbufRemove c r lsui wpo = true) :
    drained c r lsui wpo = r.shift c := by
  simp [drained, h]

theorem drained_of_keep (h : wbufRemove c r lsui wpo = false) :
    drained c r lsui wpo = { r with wbufDirty0 := r.wbufDirty0 && !wpo.portAck } := by
  simp [drained, h]

/-- The drained buffer over the written memory shows what the buffer showed before. -/
theorem consistent_drained (lsui : LsuIn) (wpo : WriteportOut) {mem' : Mem} (hs : 1 < c.size) (hu : Unique c r)
    (h : Shows c r mem s) (hd : r.wbufDirty0 = false → Written r mem)
    (hwp : wpo.portAck = true → r.wbufDirty0 = true)
    (hmem : mem' = if wpo.portAck then writeMem mem (wpi c r lsui dcache) else mem) :
    Unique c (drained c r lsui wpo) ∧ Shows c (drained c r lsui wpo) mem' s ∧
      ((drained c r lsui wpo).wbufDirty0 = false → Written (drained c r lsui wpo) mem') := by
  have hshows : Shows c r mem' s := by
    rw [hmem]
    split
    · exact h.writeMem (by omega)
    · exact h
  have hwritten : r.wbufDirty0 = false ∨ wpo.portAck = true → Written r mem' := by
    rw [hmem]
    rintro (h0 | hack)
    · rw [if_neg fun hack => by simp [hwp hack] at h0]
      exact hd h0
    · rw [if_pos hack]
      exact written_writeMem
  cases hrem : wbufRemove c r lsui wpo with
  | true =>
    rw [drained_of_remove hrem]
    have hsafe : r.wbufDirty0 = false ∨ wpo.portAck = true := by
      simp only [wbufRemove, Bool.and_eq_true, Bool.or_eq_true, Bool.not_eq_true'] at hrem
      exact hrem.1.2
    exact ⟨hu.shift, hshows.shift (hwritten hsafe), written_shift hs⟩
  | false =>
    rw [drained_of_keep hrem]
    refine ⟨hu, ⟨fun i a n hc => ?_, fun a n hno => ?_⟩, fun h0 => hwritten ?_⟩
    · exact hshows.covered i a n ⟨hc.lt, hc.word, hc.lane⟩
    · exact hshows.uncovered a n fun i hc => hno i ⟨hc.lt, hc.word, hc.lane⟩
    · simpa only [Bool.and_eq_false_iff, Bool.not_eq_false'] using h0

/-- Without a store the registers are the drained ones. -/
theorem next_of_not_wr (hc : cacheOp lsui = false) (hwr : lsui.wr = false) :
    wbufWrite c r lsui wpo = false ∧ next c r lsui wpo = drained c r lsui wpo := by
  have hw : wbufWrite c r lsui wpo = false := by
    simp only [wbufWrite, newEntry, wbufEntry_of_noCache hc, storeEntry_idle hwr]
    split_ifs <;> rfl
  exact ⟨hw, by simp [next, hw]⟩

theorem wr_of_wbufWrite (hc : cacheOp lsui = false) (hw : wbufWrite c r lsui wpo = true) :
    lsui.wr = true := by
  by_contra hwr
  rw [(next_of_not_wr hc (by simpa using hwr)).1] at hw
  cases hw

/-- A store is acknowledged in the cycle that takes it into the buffer. -/
theorem ack_of_wr (hc : cacheOp lsui = false) (hrd : lsui.rd = false) (hfl : lsui.flush = false) :
    ack c r lsui rpo wpo = wbufWrite c r lsui wpo := by
  cases hw : wbufWrite c r lsui wpo <;> simp [ack, hw, hc, hrd, hfl]

theorem ack_of_rd (hc : cacheOp lsui = false) (hwr : lsui.wr = false) (hfl : lsui.flush = false)
    (hrd : lsui.rd = true) : ack c r lsui rpo wpo = (fullHit c r lsui || rpo.portAck) := by
  cases hf : fullHit c r lsui <;> simp [ack, (next_of_not_wr hc hwr).1, hc, hfl, hrd, hf]

theorem ack_of_flush (hc : cacheOp lsui = false) (hwr : lsui.wr = false) (hrd : lsui.rd = false)
    (hack : ack c r lsui rpo wpo = true) : isFlushed c r = true := by
  simp only [ack, (next_of_not_wr hc hwr).1, hc, hrd] at hack
  by_contra hf
  simp [hf] at hack

/-- Entry 0 stays as it is while a load hits it and it is in flight. -/
theorem drained_of_hit_zero (hrd : lsui.rd = true) (hh : findWbufHit c r lsui.adr = some 0)
    (hd : r.wbufDirty0 = true) :
    drained c r lsui wpo = { r with wbufDirty0 := r.wbufDirty0 && !wpo.portAck } := by
  simp [drained, wbufRemove, wbufDontChange, hrd, hh, hd]

/-- Draining drops covered lanes of entry 0 only. -/
theorem covers_drained (lsui : LsuIn) (wpo : WriteportOut) {i : ℕ} {a : WordAdr} {n : Fin 4} (h : Covers c r i a n)
    (h0 : i = 0 → drained c r lsui wpo = { r with wbufDirty0 := r.wbufDirty0 && !wpo.portAck }) :
    ∃ j, Covers c (drained c r lsui wpo) j a n := by
  have hkeep : Covers c { r with wbufDirty0 := r.wbufDirty0 && !wpo.portAck } i a n :=
    ⟨h.lt, h.word, h.lane⟩
  cases i with
  | zero => exact ⟨0, h0 rfl ▸ hkeep⟩
  | succ i =>
    cases hrem : wbufRemove c r lsui wpo with
    | true => exact ⟨i, drained_of_remove hrem ▸ covers_shift.mpr h⟩
    | false => exact ⟨i + 1, drained_of_keep hrem ▸ hkeep⟩

/-- The lanes of a load served by the buffer are covered by the entry it hits. -/
theorem fullHit_covers (h : fullHit c r lsui = true) :
    ∃ i, findWbufHit c r lsui.adr = some i ∧
      ∀ n : Fin 4, getElem (bsel lsui) n.val n.isLt = true → Covers c r i (wordOf lsui.adr) n := by
  unfold fullHit at h
  cases hh : findWbufHit c r lsui.adr with
  | none => simp [hh] at h
  | some i =>
    obtain ⟨hi, hw, _⟩ := findWbufHit_some hh
    simp only [hh, beq_iff_eq] at h
    refine ⟨i, rfl, fun n hn => ⟨hi, hw, ?_⟩⟩
    have hlane := congrArg (·[n.val]) h
    simpa [hn] using hlane

/-- Each lane of the read word is the contents, or comes from the read port. -/
theorem byte_rdataWord (lsui : LsuIn) (rpo : ReadportOut) (hu : Unique c r) (h : Shows c r mem s) (n : Fin 4) :
    byte (rdataWord c r lsui rpo) n = s (wordOf lsui.adr) n ∨
      ((∀ i, ¬ Covers c r i (wordOf lsui.adr) n) ∧
        byte (rdataWord c r lsui rpo) n = byte rpo.portData n) := by
  by_cases hcov : ∃ i, Covers c r i (wordOf lsui.adr) n
  · obtain ⟨i, hi⟩ := hcov
    left
    rw [rdataWord, findWbufHit_eq hu hi.lt hi.word hi.valid_ne]
    simp only [byte_merge, hi.lane, if_true]
    exact h.covered i _ n hi
  · have hno : ∀ i, ¬ Covers c r i (wordOf lsui.adr) n := fun i hi => hcov ⟨i, hi⟩
    refine .inr ⟨hno, ?_⟩
    unfold rdataWord
    cases hh : findWbufHit c r lsui.adr with
    | none => rfl
    | some i =>
      obtain ⟨hi, hw, _⟩ := findWbufHit_some hh
      have hlane : ¬ (r.wbufValid i)[n.val] = true := fun hl => hno i ⟨hi, hw, hl⟩
      simp only [byte_merge, hlane]
      rfl

/-- After draining without a store, entry 0 is valid and not in flight only if a load hit it. -/
theorem drained_settled {adr : TWord} (hs : 1 < c.size) (hc : cacheOp lsui = false)
    (hwr : lsui.wr = false) (hd : (drained c r lsui wpo).wbufDirty0 = false)
    (hh : findWbufHit c (drained c r lsui wpo) adr = some 0) :
    lsui.rd = true ∧
      drained c r lsui wpo = { r with wbufDirty0 := r.wbufDirty0 && !wpo.portAck } := by
  obtain ⟨_, _, hv⟩ := findWbufHit_some hh
  cases hrem : wbufRemove c r lsui wpo with
  | true =>
    rw [drained_of_remove hrem] at hd hv
    simp only [Registers.shift, hs, zero_add, if_true, bne_eq_false_iff_eq] at hd hv
    exact absurd hd hv
  | false =>
    refine ⟨?_, drained_of_keep hrem⟩
    rw [drained_of_keep hrem] at hd
    have hlast : c.size - 1 ≠ 0 := by omega
    have hsafe : (!r.wbufDirty0 || wpo.portAck) = true := by
      simpa only [Bool.and_eq_false_iff, Bool.not_eq_false', Bool.or_eq_true, Bool.not_eq_true']
        using hd
    have hdont : wbufDontChange c r lsui = true := by
      simpa [wbufRemove, wbufEntry_of_noCache hc, storeEntry_idle hwr, hsafe, hlast] using hrem
    simp only [wbufDontChange, hwr, Bool.false_and, Bool.or_false, Bool.and_eq_true] at hdont
    exact hdont.2.1

end Step

-- ---------------------------------------------------------------------------
-- The unit in its environment
-- ---------------------------------------------------------------------------

/-- What the environment chooses in one cycle. -/
structure Cycle where
  lsui : LsuIn
  rpAck : Bool
  wpAck : Bool
  wcondOk : Bool
  /-- `port_data` in a cycle the read port delivers nothing -/
  noData : TWord
  dcacheEnable : Bool

/-- The unit, the memory, and what the read port delivers in this cycle. -/
structure Sys where
  r : Registers
  mem : Mem
  portData : Option TWord

namespace Sys

variable (c : Config) (s : Sys) (i : Cycle)

def rpo : ReadportOut := ⟨i.rpAck, s.portData.getD i.noData⟩

def lsuo : LsuOut := Lsu.lsuo c s.r i.lsui (s.rpo i) ⟨i.wpAck, i.wcondOk⟩

def rpi : ReadportIn := Lsu.rpi c s.r i.lsui i.dcacheEnable

def wpi : WriteportIn := Lsu.wpi c s.r i.lsui i.dcacheEnable

def step : Sys where
  r := next c s.r i.lsui ⟨i.wpAck, i.wcondOk⟩
  mem := if i.wpAck then writeMem s.mem (s.wpi c i) else s.mem
  portData := if i.rpAck then some (s.mem (wordOf (s.rpi c i).portAdr)) else none

/-- The plain memory after an eventual acknowledged store. -/
def commit (m : PlainMem) : PlainMem :=
  if i.lsui.wr && (s.lsuo c i).ack then m.store i.lsui.width i.lsui.adr i.lsui.wdata else m

end Sys

def PlainMem.ofMem (mem : Mem) : PlainMem := fun a =>
  byte (mem (wordOf a)) ⟨(ofsOf a).toNat, (ofsOf a).isLt⟩

/-- The unit's states over a run. -/
def states (c : Config) (s : Sys) (i : ℕ → Cycle) : ℕ → Sys := run (Sys.step c) s i

/-- All stores acknowledged before cycle `t`, applied in order to the initial memory. -/
def acknowledged (c : Config) (s : Sys) (i : ℕ → Cycle) : ℕ → PlainMem
  | 0 => PlainMem.ofMem s.mem
  | t + 1 => (states c s i t).commit c (i t) (acknowledged c s i t)

def LsuIn.request (lsui : LsuIn) : Bool := lsui.rd || lsui.wr || lsui.flush

/-- One EXU that holds each request until its acknowledge, and ports that acknowledge requests. -/
structure Env (c : Config) (s : ℕ → Sys) (i : ℕ → Cycle) : Prop where
  rpAck : ∀ t, (i t).rpAck = true → ((s t).rpi c (i t)).portRd = true
  wpAck : ∀ t, (i t).wpAck = true → ((s t).wpi c (i t)).portWr = true
  noCache : ∀ t, cacheOp (i t).lsui = false
  plain : ∀ t, (i t).lsui.rd = true ∨ (i t).lsui.wr = true → (i t).lsui.Plain
  rdOnly : ∀ t, (i t).lsui.rd = true → (i t).lsui.wr = false ∧ (i t).lsui.flush = false
  wrOnly : ∀ t, (i t).lsui.wr = true → (i t).lsui.flush = false
  held : ∀ t, (i t).lsui.request = true → ((s t).lsuo c (i t)).ack = false →
    (i (t + 1)).lsui = (i t).lsui
  idle : ∀ t, ((s t).lsuo c (i t)).ack = true → (i (t + 1)).lsui.request = false
  /-- after a load the address lines stay for the cycle in which the data arrives -/
  stays : ∀ t, (i t).lsui.rd = true → ((s t).lsuo c (i t)).ack = true →
    (i (t + 1)).lsui.adr = (i t).lsui.adr ∧ (i (t + 1)).lsui.width = (i t).lsui.width ∧
      (i (t + 1)).lsui.exts = (i t).lsui.exts

-- ---------------------------------------------------------------------------
-- The simulation
-- ---------------------------------------------------------------------------

/-- The simulation relation, in a cycle with request `lsui`. -/
structure Consistent (c : Config) (s : Sys) (lsui : LsuIn) (m : PlainMem) : Prop where
  unique : Unique c s.r
  shows : Shows c s.r s.mem m.contents
  written : s.r.wbufDirty0 = false → Written s.r s.mem
  /-- a load that entry 0 can serve never finds that entry about to be removed -/
  inFlight : lsui.rd = true → findWbufHit c s.r lsui.adr = some 0 → fullHit c s.r lsui = true →
    s.r.wbufDirty0 = true

theorem ofMem_contents (mem : Mem) (a : WordAdr) (n : Fin 4) :
    (PlainMem.ofMem mem).contents a n = byte (mem a) n := by
  have hword : wordOf (a ++ BitVec.ofNat 2 n.val : TWord) = a := by
    rw [← BitVec.toNat_inj, wordOf, BitVec.extractLsb'_toNat, toNat_lane,
      Nat.shiftRight_eq_div_pow]
    have := a.isLt
    have := n.isLt
    omega
  have hofs : (ofsOf (a ++ BitVec.ofNat 2 n.val : TWord)).toNat = n.val := by
    rw [ofsOf, BitVec.extractLsb'_toNat, toNat_lane, Nat.shiftRight_eq_div_pow]
    have := n.isLt
    omega
  simp only [PlainMem.contents, PlainMem.ofMem, hword, hofs]

/-- Plain memories are equal when all their words are. -/
theorem PlainMem.ext_contents {m m' : PlainMem} (h : ∀ a n, m.contents a n = m'.contents a n) :
    m = m' := by
  funext a
  have hofs : (ofsOf a).toNat + 0 < 4 := (ofsOf a).isLt
  have ha := lane_add hofs
  rw [BitVec.add_zero] at ha
  rw [ha]
  exact h (wordOf a) _

theorem consistent_reset {c : Config} {s : Sys} (h : s.r.IsReset) (lsui : LsuIn) :
    Consistent c s lsui (PlainMem.ofMem s.mem) where
  unique i _ _ _ hv _ _ := absurd (h.1 i) hv
  shows := {
    covered i _ _ hc := absurd (h.1 i) hc.valid_ne
    uncovered a n _ := (ofMem_contents s.mem a n).symm }
  written _ n hn := by simp [h.1 0] at hn
  inFlight _ hh _ := absurd (h.1 0) (findWbufHit_some hh).2.2

section Simulation

variable {c : Config} {s : Sys} {i : Cycle} {m : PlainMem} {lsui' : LsuIn}

/-- The stored contents after one cycle: those of the plain memory after the commit. -/
theorem step_shows (hs : 1 < c.size) (hc : cacheOp i.lsui = false)
    (hknown : i.lsui.wr = true → i.lsui.Known)
    (hslot : wbufWrite c s.r i.lsui ⟨i.wpAck, i.wcondOk⟩ = true →
      Slot c (drained c s.r i.lsui ⟨i.wpAck, i.wcondOk⟩) i.lsui.adr
        (newEntry c s.r i.lsui ⟨i.wpAck, i.wcondOk⟩).i (oldData c s.r i.lsui)
        (oldValid c s.r i.lsui))
    (hexcl : i.lsui.wr = true → i.lsui.rd = false ∧ i.lsui.flush = false)
    (hwp : i.wpAck = true → s.r.wbufDirty0 = true) (h : Consistent c s i.lsui m) :
    Unique c (s.step c i).r ∧ Shows c (s.step c i).r (s.step c i).mem (s.commit c i m).contents ∧
      ((s.step c i).r.wbufDirty0 = false → Written (s.step c i).r (s.step c i).mem) := by
  obtain ⟨hu, hsh, hwr⟩ := consistent_drained i.lsui ⟨i.wpAck, i.wcondOk⟩ hs h.unique h.shows
    h.written hwp (show (s.step c i).mem = _ from rfl)
  cases hw : wbufWrite c s.r i.lsui ⟨i.wpAck, i.wcondOk⟩ with
  | false =>
    have hcommit : s.commit c i m = m := by
      unfold Sys.commit
      by_cases hst : i.lsui.wr = true
      · have hack : (s.lsuo c i).ack = false := by
          rw [← hw]
          exact ack_of_wr hc (hexcl hst).1 (hexcl hst).2
        simp [hack]
      · simp [hst]
    have hr : (s.step c i).r = drained c s.r i.lsui ⟨i.wpAck, i.wcondOk⟩ := by
      simp [Sys.step, Lsu.next, hw]
    rw [hr, hcommit]
    exact ⟨hu, hsh, hwr⟩
  | true =>
    have hst := wr_of_wbufWrite hc hw
    have hslot := hslot hw
    have hack : (s.lsuo c i).ack = true := by
      rw [← hw]
      exact ack_of_wr hc (hexcl hst).1 (hexcl hst).2
    have hcommit : (s.commit c i m).contents =
        m.contents.write (wordOf i.lsui.adr) (bsel i.lsui) (wbdata c i.lsui) := by
      simp only [Sys.commit, hst, hack, Bool.and_self, if_true]
      exact (hknown hst).contents_store c m
    have hr : (s.step c i).r = (drained c s.r i.lsui ⟨i.wpAck, i.wcondOk⟩).store
        (newEntry c s.r i.lsui ⟨i.wpAck, i.wcondOk⟩).i i.lsui.adr
        (merge (bsel i.lsui) (oldData c s.r i.lsui) (wbdata c i.lsui))
        (oldValid c s.r i.lsui ||| bsel i.lsui) := by
      simp [Sys.step, Lsu.next, hw]
    rw [hr, hcommit]
    refine ⟨hu.store hslot, hsh.store hslot, fun hd => ?_⟩
    -- entry 0 is not the one stored to, or it would have to be written
    have h0 : ¬ 0 = (newEntry c s.r i.lsui ⟨i.wpAck, i.wcondOk⟩).i := by
      intro h0
      simp [Registers.store, ← h0] at hd
    simp only [Registers.store, Ne.symm h0, if_false] at hd
    simpa only [Written, Registers.store, h0, if_false] using hwr hd

/-- The part of the relation that depends on the next request. -/
theorem step_inFlight (hs : 1 < c.size) (hc : cacheOp i.lsui = false)
    (hrd : i.lsui.rd = true → i.lsui.wr = false ∧ i.lsui.flush = false)
    (hheld : i.lsui.request = true → (s.lsuo c i).ack = false → lsui' = i.lsui)
    (hidle : (s.lsuo c i).ack = true → lsui'.request = false) :
    lsui'.rd = true → findWbufHit c (s.step c i).r lsui'.adr = some 0 →
      fullHit c (s.step c i).r lsui' = true → (s.step c i).r.wbufDirty0 = true := by
  intro hnrd hh hf
  by_contra hd
  have hnack : (s.lsuo c i).ack = false := by
    by_contra hack
    have := hidle (by simpa using hack)
    simp [LsuIn.request, hnrd] at this
  have hwr : i.lsui.wr = false := by
    by_contra hwr
    have hnext := hheld (by simp [LsuIn.request, hwr]) hnack
    exact hwr (hrd (hnext ▸ hnrd)).1
  rw [show (s.step c i).r = _ from (next_of_not_wr hc hwr).2] at hh hf hd
  obtain ⟨hird, hkeep⟩ := drained_settled hs hc hwr (by simpa using hd) hh
  have hnext := hheld (by simp [LsuIn.request, hird]) hnack
  rw [hkeep, hnext] at hf
  -- the load would have been acknowledged in this cycle already
  have hack : (s.lsuo c i).ack = true := by
    have hfull : fullHit c s.r i.lsui = true := hf
    rw [show (s.lsuo c i).ack = _ from ack_of_rd hc hwr (hrd hird).2 hird, hfull, Bool.true_or]
  simp [hack] at hnack

/-- A lane the buffer no longer covers after a load's acknowledge holds what the port read. -/
theorem byte_mem_of_uncovered {n : Fin 4} (hs : 0 < c.size) (hu : Unique c s.r)
    (hc : cacheOp i.lsui = false) (hird : i.lsui.rd = true) (hwr : i.lsui.wr = false)
    (hwp : i.wpAck = true → s.r.wbufDirty0 = true)
    (hno : ∀ k, ¬ Covers c (s.step c i).r k (wordOf i.lsui.adr) n) :
    byte ((s.step c i).mem (wordOf i.lsui.adr)) n = byte (s.mem (wordOf i.lsui.adr)) n := by
  simp only [Sys.step]
  split
  · rename_i hack
    rw [Sys.wpi, byte_writeMem, if_neg]
    rintro ⟨hw, hl⟩
    have hcov : Covers c s.r 0 (wordOf i.lsui.adr) n := ⟨hs, hw, hl⟩
    have hh := findWbufHit_eq hu hs hw hcov.valid_ne
    obtain ⟨k, hk⟩ := covers_drained i.lsui ⟨i.wpAck, i.wcondOk⟩ hcov
      fun _ => drained_of_hit_zero hird hh (hwp hack)
    refine hno k ?_
    rw [show (s.step c i).r = _ from (next_of_not_wr hc hwr).2]
    exact hk
  · rfl

/-- The value on `rdata` in the cycle after a load's acknowledge. -/
theorem step_rdata {i' : Cycle} (hs : 1 < c.size) (hc : cacheOp i.lsui = false)
    (hird : i.lsui.rd = true) (hwr : i.lsui.wr = false) (hfl : i.lsui.flush = false)
    (hknown : i.lsui.Known) (hc' : cacheOp i'.lsui = false)
    (hwp : i.wpAck = true → s.r.wbufDirty0 = true) (h : Consistent c s i.lsui m)
    (hack : (s.lsuo c i).ack = true) (hadr : i'.lsui.adr = i.lsui.adr)
    (hwidth : i'.lsui.width = i.lsui.width) (hexts : i'.lsui.exts = i.lsui.exts) :
    ((s.step c i).lsuo c i').rdata = m.load i.lsui.width i.lsui.exts i.lsui.adr := by
  have hmis : misaligned i'.lsui = misaligned i.lsui := by simp only [misaligned, hadr, hwidth]
  have hbsel : bsel i'.lsui = bsel i.lsui := by simp only [bsel, hc, hc', hmis, hadr, hwidth]
  have hknown' : i'.lsui.Known := ⟨hwidth ▸ hknown.width, hmis ▸ hknown.aligned, hc'⟩
  have hcommit : s.commit c i m = m := by simp [Sys.commit, hwr]
  have hno : wbufWrite c s.r i.lsui ⟨i.wpAck, i.wcondOk⟩ = false := (next_of_not_wr hc hwr).1
  obtain ⟨hu, hsh, -⟩ := step_shows hs hc (by simp [hwr]) (by simp [hno]) (by simp [hwr]) hwp h
  rw [hcommit] at hsh
  rw [← hadr, ← hwidth, ← hexts]
  refine hknown'.formatRdata m fun n hn => ?_
  rcases byte_rdataWord i'.lsui ((s.step c i).rpo i') hu hsh n with
    hb | ⟨hno, hb⟩
  · exact hb
  rw [hb, ← hsh.uncovered _ _ hno]
  rw [hadr] at hno ⊢
  cases hf : fullHit c s.r i.lsui with
  | true =>
    -- every lane was covered, and still is
    obtain ⟨k, hk, hcov⟩ := fullHit_covers hf
    obtain ⟨j, hj⟩ := covers_drained i.lsui ⟨i.wpAck, i.wcondOk⟩
      (hcov n (hbsel ▸ hn)) fun h0 =>
        drained_of_hit_zero hird (h0 ▸ hk) (h.inFlight hird (h0 ▸ hk) hf)
    rw [← show (s.step c i).r = _ from (next_of_not_wr hc hwr).2] at hj
    exact absurd hj (hno j)
  | false =>
    have hrp : i.rpAck = true := by
      rw [show (s.lsuo c i).ack = _ from ack_of_rd hc hwr hfl hird, hf, Bool.false_or] at hack
      exact hack
    rw [byte_mem_of_uncovered (by omega) h.unique hc hird hwr hwp hno]
    simp only [Sys.rpo, Sys.step, hrp, if_true, Option.getD_some]
    rfl

end Simulation

-- ---------------------------------------------------------------------------
-- Runs
-- ---------------------------------------------------------------------------

section Runs

variable {c : Config} {s : Sys} {i : ℕ → Cycle}

theorem Env.wpAck_dirty (h : Env c (states c s i) i) (t : ℕ) (hack : (i t).wpAck = true) :
    (states c s i t).r.wbufDirty0 = true := by
  have := h.wpAck t hack
  simpa [Sys.wpi, Lsu.wpi, h.noCache t] using this

theorem states_consistent (hs : 1 < c.size) (hr : s.r.IsReset) (h : Env c (states c s i) i)
    (t : ℕ) : Consistent c (states c s i t) (i t).lsui (acknowledged c s i t) := by
  induction t with
  | zero => exact consistent_reset hr _
  | succ t ih =>
    obtain ⟨hu, hsh, hwr⟩ := step_shows hs (h.noCache t) (fun hw => (h.plain t (.inr hw)).known)
      (fun hw => (slot_of_wbufWrite (by omega) ih.unique (h.noCache t)
        (h.plain t (.inr (wr_of_wbufWrite (h.noCache t) hw))).notSpecial hw).2)
      (fun hw => ⟨by
        by_contra hrd
        have := (h.rdOnly t (by simpa using hrd)).1
        simp [hw] at this, h.wrOnly t hw⟩) (h.wpAck_dirty t) ih
    exact ⟨hu, hsh, hwr, step_inFlight hs (h.noCache t) (h.rdOnly t) (h.held t) (h.idle t)⟩

/-- Every load delivers, in the cycle after its acknowledge, the value the acknowledged stores
give it, and a flush is acknowledged only when all of them are in memory. -/
theorem lsu_refines_plainMemory (hs : 2 ≤ c.size) (hr : s.r.IsReset)
    (h : Env c (states c s i) i) (t : ℕ) (hack : ((states c s i t).lsuo c (i t)).ack = true) :
    ((i t).lsui.rd = true → ((states c s i (t + 1)).lsuo c (i (t + 1))).rdata =
        (acknowledged c s i t).load (i t).lsui.width (i t).lsui.exts (i t).lsui.adr) ∧
      ((i t).lsui.flush = true →
        PlainMem.ofMem (states c s i t).mem = acknowledged c s i t) := by
  have hcons := states_consistent hs hr h t
  constructor
  · intro hrd
    obtain ⟨hwr, hfl⟩ := h.rdOnly t hrd
    obtain ⟨hadr, hwidth, hexts⟩ := h.stays t hrd hack
    exact step_rdata hs (h.noCache t) hrd hwr hfl (h.plain t (.inl hrd)).known (h.noCache (t + 1))
      (h.wpAck_dirty t) hcons hack hadr hwidth hexts
  · intro hfl
    have hrd : (i t).lsui.rd = false := by
      by_contra hrd
      have := (h.rdOnly t (by simpa using hrd)).2
      simp [hfl] at this
    have hwr : (i t).lsui.wr = false := by
      by_contra hwr
      have := h.wrOnly t (by simpa using hwr)
      simp [hfl] at this
    have hflushed := ack_of_flush (h.noCache t) hwr hrd hack
    refine PlainMem.ext_contents fun a n => ?_
    rw [ofMem_contents]
    exact hcons.shows.mem_of_isFlushed hflushed a n

end Runs

/-- A word store to 4, a byte load from 5 while the store is still buffered, and a flush. -/
def storeLoadFlush : ℕ → Cycle
  | 0 => ⟨⟨false, true, false, false, false, 0, false, 4, 0x11a23344⟩, false, false, false, 0, true⟩
  | 2 => ⟨⟨true, false, false, false, false, 1, true, 5, 0⟩, false, false, false, 0, true⟩
  | 3 => ⟨⟨false, false, false, false, false, 1, true, 5, 0⟩, false, true, false, 0, true⟩
  | 4 => ⟨⟨false, false, true, false, false, 0, false, 0, 0⟩, false, false, false, 0, true⟩
  | _ => ⟨⟨false, false, false, false, false, 0, false, 0, 0⟩, false, false, false, 0, true⟩

def twoEntries : Config := ⟨2, 0x1000, 0⟩

def emptySys : Sys := ⟨⟨fun _ => 0, fun _ => 0, fun _ => 0, false⟩, fun _ => 0, none⟩

theorem storeLoadFlush_env :
    Env twoEntries (states twoEntries emptySys storeLoadFlush) storeLoadFlush := by
  constructor <;> rintro (_ | _ | _ | _ | _ | t)
  all_goals first | decide | simp [storeLoadFlush, LsuIn.request, cacheOp]

theorem lsu_refines_plainMemory_storeLoadFlush :
    ((states twoEntries emptySys storeLoadFlush 3).lsuo twoEntries (storeLoadFlush 3)).rdata =
        0xffffffa2 ∧
      PlainMem.ofMem (states twoEntries emptySys storeLoadFlush 4).mem =
        acknowledged twoEntries emptySys storeLoadFlush 4 :=
  ⟨((lsu_refines_plainMemory (by decide) ⟨fun _ => rfl, rfl⟩ storeLoadFlush_env 2 (by decide)).1
      (by decide)).trans (by decide),
    (lsu_refines_plainMemory (by decide) ⟨fun _ => rfl, rfl⟩ storeLoadFlush_env 4 (by decide)).2
      (by decide)⟩

end ParaNut.Lsu
