import ParaNut.Memu.Victim
import Mathlib.Data.List.Intervals

/-!
# Replacement of a line

The BusIf reads the line from the bus, copies a dirty victim, exchanges the
contents of the way under an invalid tag, and writes the victim back at last.
Each of these phases says what is in the buffers, in the banks and on the bus
so far.
-/

namespace ParaNut.Memu

/-- A write that the bus acknowledges in this cycle: address, bytes and data. -/
def wbWrite (c : Config) (s : State) (i : Input) : Option (TWord × TByteSel × TWord) :=
  let o := bifo c s (grants c s i)
  if o.stbO && o.weO && i.ackI then some (o.adrO, o.selO, o.datO) else none

/-- The writes in the cycles from `a` to before `e`. -/
def wbWrites (c : Config) (st : ℕ → State) (i : ℕ → Input) (a e : ℕ) :
    List (TWord × TByteSel × TWord) :=
  (List.Ico a e).flatMap fun t => (wbWrite c (st t) (i t)).toList

/-- What a replacement works on: the line with its words in memory, the tag it has read, and the
words of the victim way. -/
structure Job where
  line : ℕ
  start : ℕ
  word : ℕ → TWord
  tag : CacheTag
  victim : ℕ → TWord

section Phases

variable (c : Config) (j : Job) (s : State)

def Job.index : ℕ := j.line % c.sets

/-- The row of the victim way in each bank. -/
def Job.row : ℕ × ℕ := (if c.ways = 1 then 0 else j.tag.way, j.index c)

/-- The write that brings word `b` of the victim back to memory. -/
def Job.write (b : ℕ) : TWord × TByteSel × TWord :=
  (makeAdr c j.tag.taddr (j.index c) b, 15, j.victim b)

/-- All banks of the victim way hold the new line. -/
def Job.Filled : Prop := ∀ b < c.banks, s.bank b (j.row c) = j.word b

/-- All banks of the victim way still hold the victim. -/
def Job.Old : Prop := ∀ b < c.banks, s.bank b (j.row c) = j.victim b

/-- The way has the tag of the new line, valid and clean. -/
def Job.Tagged : Prop :=
  (s.tram.mem (j.index c)).fields j.tag.way = (true, false, j.line / c.sets)

/-- What all phases share. -/
structure Runs : Prop where
  op : s.busif.op = .replace
  line : lineOf c s.busif.adr = j.line
  tag : s.busif.tag = j.tag
  mem : ∀ b < c.banks, s.mem (j.line * c.banks + b) = j.word b
  shown : ∀ b < c.banks, s.busif.idataValid b = true → s.busif.idata b = j.word b
  other : j.tag.dirty = true → j.tag.taddr * c.sets + j.index c < c.lines ∧
    j.tag.taddr * c.sets + j.index c ≠ j.line

/-- The words of the line have arrived, and those of a dirty victim have been copied. -/
structure Buffered : Prop extends Runs c j s where
  fetched : ∀ b < c.banks, s.busif.idata b = j.word b
  writeVictim : s.busif.writeVictim = j.tag.dirty
  copied : j.tag.dirty = true → ∀ b < c.banks, s.busif.odata b = j.victim b

structure ReadsIdata : Prop extends Runs c j s where
  state : s.busif.state = .cacheReplaceReadIdata
  adrOfs : s.busif.adrOfs = (j.start + s.busif.cnt) % c.banks
  seen : ∀ k < s.busif.cnt, s.busif.idata ((j.start + k) % c.banks) = j.word ((j.start + k) % c.banks)
  writeVictim : s.busif.writeVictim = false
  left : ∀ b, s.busif.banksLeft b = true
  old : j.Old c s

structure ReadsDirtyBanks : Prop extends Runs c j s where
  state : s.busif.state = .cacheReadDirtyBanks
  fetched : ∀ b < c.banks, s.busif.idata b = j.word b
  dirty : j.tag.dirty = true
  arrives : ∀ b < c.banks, s.busif.banksLeft b = false → s.busif.banksLeftLast b = true →
    s.rdata b (c.bankRamPorts - 1) = j.victim b
  copied : ∀ b < c.banks, s.busif.banksLeft b = false → s.busif.banksLeftLast b = false →
    s.busif.odata b = j.victim b
  old : j.Old c s

structure InvalidatesTag : Prop extends Buffered c j s where
  state : s.busif.state = .cacheReplaceInvalidateTag
  left : ∀ b, s.busif.banksLeft b = true

structure WritesBanks : Prop extends Buffered c j s where
  state : s.busif.state = .cacheReplaceWriteBanks
  written : ∀ b < c.banks, s.busif.banksLeft b = false → s.bank b (j.row c) = j.word b

structure WritesTag : Prop extends Buffered c j s where
  state : s.busif.state = .cacheWriteTag
  filled : j.Filled c s

structure WritesBackVictim : Prop extends Buffered c j s where
  state : s.busif.state = .cacheWriteBackVictim
  filled : j.Filled c s
  tagged : j.Tagged c s

structure Done : Prop extends Runs c j s where
  state : s.busif.state = .cacheAck
  filled : j.Filled c s
  tagged : j.Tagged c s

/-- A phase of the replacement, with the writes on the bus so far. -/
inductive Phase : List (TWord × TByteSel × TWord) → Prop
  | readsIdata : ReadsIdata c j s → Phase []
  | readsDirtyBanks : ReadsDirtyBanks c j s → Phase []
  | invalidatesTag : InvalidatesTag c j s → Phase []
  | writesBanks : WritesBanks c j s → Phase []
  | writesTag : WritesTag c j s → Phase []
  | writesBackVictim : WritesBackVictim c j s → j.tag.dirty = true →
    Phase ((List.range s.busif.cnt).map (j.write c))
  | done : Done c j s →
    Phase (if j.tag.dirty then (List.range c.banks).map (j.write c) else [])

end Phases

-- ---------------------------------------------------------------------------
-- The BusIf
-- ---------------------------------------------------------------------------

namespace BusIf

variable {c : Config} {r : Registers} {i : In}

/-- Operation, tag and line stay until the operation is done. -/
theorem usesTag_kept (hw : WellFormed c r) (h : r.state.usesTag = true) :
    (comb c r i).1.op = r.op ∧ (comb c r i).1.tag = r.tag ∧
      lineOf c (comb c r i).1.adr = lineOf c r.adr := by
  have ha := hw.adrOfs
  revert h
  cases hs : r.state <;> simp only [hs, comb, tagWritten] at ha ⊢
  all_goals
    repeat' split
    all_goals simp_all [State.usesTag, State.working, lineOf_setBank]

/-- Only `S_BIF_CACHE_REPLACE_READ_IDATA` brings in data. -/
theorem idata_kept (h : r.state.usesTag = true) (hs : r.state ≠ .cacheReplaceReadIdata) :
    (comb c r i).1.idata = r.idata ∧
      ∀ b, (comb c r i).1.idataValid b = true → r.idataValid b = true := by
  revert h hs
  cases hs : r.state <;> simp only [comb, hs, tagWritten]
  all_goals
    repeat' split
    all_goals simp_all [State.usesTag]

/-- Only `S_BIF_CACHE_READ_DIRTY_BANKS` copies the victim. -/
theorem odata_kept (h : r.state = .cacheReplaceInvalidateTag ∨ r.state = .cacheReplaceWriteBanks ∨
    r.state = .cacheWriteTag ∨ r.state = .cacheWriteBackVictim) :
    (comb c r i).1.odata = r.odata ∧ (comb c r i).1.writeVictim = r.writeVictim := by
  rcases h with hs | hs | hs | hs <;> simp only [comb, hs, tagWritten]
  all_goals
    repeat' split
    all_goals exact ⟨rfl, rfl⟩

theorem weO_next (h : (comb c r i).2.weO = true) :
    r.state = .directWrite ∨ r.state = .cacheWriteBackVictim := by
  revert h
  cases hs : r.state <;> simp [comb, hs, defaults]

end BusIf

-- ---------------------------------------------------------------------------
-- What does not change
-- ---------------------------------------------------------------------------

section Cycle

variable {c : Config} {j : Job} {s : State} {i k : Input} {b : ℕ}

theorem busif_step : (step c s i).busif = (BusIf.comb c s.busif (bifIn c s i (grants c s i))).1 :=
  rfl

/-- The bus is written for direct writes and victims only. -/
theorem wbWrite_none (hdirect : s.busif.state ≠ .directWrite)
    (hvictim : s.busif.state ≠ .cacheWriteBackVictim) :
    wbWrite c s i = none ∧ (step c s i).mem = s.mem := by
  have hwe : (bifo c s (grants c s i)).weO = false := by
    by_contra hwe
    rcases BusIf.weO_next (Bool.of_not_eq_false hwe) with hs | hs
    · exact hdirect hs
    · exact hvictim hs
  constructor
  · simp [wbWrite, hwe]
  · show nextMem c s i (grants c s i) = s.mem
    simp [nextMem, hwe]

namespace Runs

/-- The row of the BusIf is that of the job. -/
theorem row (h : Runs c j s) : bifRow c s i = j.row c := by
  rw [bifRow, show (bifo c s (grants c s i)).tagOut.way = s.busif.tag.way from BusIf.tagOut_way,
    h.tag, wayIndexOf, indexOf, h.line]
  rfl

/-- No write port writes to the row of the job. -/
theorem wpRow_ne (h : Runs c j s) (hd : Orderly c s i) (hs : s.busif.state.usesTag = true)
    {p : ℕ} (hp : WpWrites c s i b p) : wpRow c s i p ≠ j.row c := by
  intro heq
  have hidx := congrArg Prod.snd heq
  refine hd.toReplaceLock.wpWrites_index (BusIf.State.usesTag_working hs) h.op hp ?_
  rw [indexOf, indexOf, h.line]
  exact hidx

/-- A bank that the BusIf does not write keeps the row. -/
theorem bank_kept (h : Runs c j s) (hd : Orderly c s i) (hs : s.busif.state.usesTag = true)
    (hb : ¬ BifWrites c s i b) : (step c s i).bank b (j.row c) = s.bank b (j.row c) :=
  Memu.bank_kept hd.oneWriter ⟨fun _ hp => h.wpRow_ne hd hs hp, fun hw => absurd hw hb⟩

theorem not_bifWrites (hs : s.busif.state ≠ .cacheReplaceWriteBanks) : ¬ BifWrites c s i b :=
  fun hb => hs (BusIf.bankWr_spec hb.wr).1

protected theorem step (h : Runs c j s) (hd : Orderly c s i) (hs : s.busif.state.usesTag = true)
    (hmem : ∀ b < c.banks,
      (step c s i).mem (j.line * c.banks + b) = s.mem (j.line * c.banks + b))
    (hshown : ∀ b < c.banks, (step c s i).busif.idataValid b = true →
      (step c s i).busif.idata b = j.word b) : Runs c j (step c s i) := by
  obtain ⟨hop, htag, hline⟩ := BusIf.usesTag_kept (i := bifIn c s i (grants c s i)) hd.busif hs
  exact ⟨hop.trans h.op, hline.trans h.line, htag.trans h.tag,
    fun b hb => (hmem b hb).trans (h.mem b hb), hshown, h.other⟩

end Runs

/-- While the victim is not written back, memory stays. -/
protected theorem Buffered.step (h : Buffered c j s) (hd : Orderly c s i)
    (hs : s.busif.state = .cacheReplaceInvalidateTag ∨ s.busif.state = .cacheReplaceWriteBanks ∨
      s.busif.state = .cacheWriteTag ∨ s.busif.state = .cacheWriteBackVictim)
    (hmem : ∀ b < c.banks,
      (step c s i).mem (j.line * c.banks + b) = s.mem (j.line * c.banks + b)) :
    Buffered c j (step c s i) := by
  have hu : s.busif.state.usesTag = true := by
    rcases hs with hs | hs | hs | hs <;> rw [hs] <;> rfl
  have hne : s.busif.state ≠ .cacheReplaceReadIdata := by
    rcases hs with hs | hs | hs | hs <;> rw [hs] <;> exact nofun
  obtain ⟨hidata, hvalid⟩ := BusIf.idata_kept (c := c) (i := bifIn c s i (grants c s i)) hu hne
  obtain ⟨hodata, hvictim⟩ := BusIf.odata_kept (c := c) (i := bifIn c s i (grants c s i)) hs
  rw [← busif_step] at hidata hodata hvictim
  refine ⟨h.toRuns.step hd hu hmem fun b hb hv => ?_, ?_, hvictim.trans h.writeVictim, ?_⟩
  · rw [hidata]
    exact h.shown b hb (hvalid b hv)
  · rw [hidata]
    exact h.fetched
  · rw [hodata]
    exact h.copied

-- ---------------------------------------------------------------------------
-- The phases
-- ---------------------------------------------------------------------------

protected theorem InvalidatesTag.step (h : InvalidatesTag c j s) (hd : Orderly c s i) :
    InvalidatesTag c j (step c s i) ∨ WritesBanks c j (step c s i) := by
  have hs := h.state
  obtain ⟨-, hmem⟩ := wbWrite_none (c := c) (i := i) (by rw [hs]; exact nofun)
    (by rw [hs]; exact nofun)
  have hbuf := h.toBuffered.step hd (.inl hs) fun b _ => by rw [hmem]
  have hleft : ∀ b, (step c s i).busif.banksLeft b = true := by
    intro b
    have := h.left b
    rw [busif_step]
    simp only [BusIf.comb, hs, BusIf.tagWritten]
    repeat' split
    all_goals exact this
  have hstate : (step c s i).busif.state = .cacheReplaceInvalidateTag ∨
      (step c s i).busif.state = .cacheReplaceWriteBanks := by
    rw [busif_step]
    simp only [BusIf.comb, hs, BusIf.tagWritten]
    repeat' split
    all_goals simp
  rcases hstate with hstate | hstate
  · exact .inl ⟨hbuf, hstate, hleft⟩
  · refine .inr ⟨hbuf, hstate, fun b _ hb => ?_⟩
    rw [hleft] at hb
    cases hb

protected theorem WritesBanks.step (h : WritesBanks c j s) (hd : Orderly c s i) :
    WritesBanks c j (step c s i) ∨ WritesTag c j (step c s i) := by
  have hs := h.state
  have hu : s.busif.state.usesTag = true := by rw [hs]; rfl
  obtain ⟨-, hmem⟩ := wbWrite_none (c := c) (i := i) (by rw [hs]; exact nofun)
    (by rw [hs]; exact nofun)
  have hbuf := h.toBuffered.step hd (.inr (.inl hs)) fun b _ => by rw [hmem]
  -- a bank that is done is not written again
  have hkept : ∀ b < c.banks, s.busif.banksLeft b = false →
      (step c s i).bank b (j.row c) = j.word b := by
    intro b hb hleft
    rw [h.toRuns.bank_kept hd hu fun hw => ?_, h.written b hb hleft]
    have := (BusIf.bankWr_spec hw.wr).2
    rw [hleft] at this
    cases this
  cases hdone : BusIf.banksDone c s.busif with
  | true =>
    have hleft : ∀ b < c.banks, s.busif.banksLeft b = false := by
      simpa [BusIf.banksDone] using hdone
    refine .inr ⟨hbuf, ?_, fun b hb => hkept b hb (hleft b hb)⟩
    simp [busif_step, BusIf.comb, hs, hdone]
  | false =>
    refine .inl ⟨hbuf, by simp [busif_step, BusIf.comb, hs, hdone], fun b hb hleft' => ?_⟩
    cases hleft : s.busif.banksLeft b with
    | false => exact hkept b hb hleft
    | true =>
      have hg : (grants c s i).bank b (idxBusif c) = true := by
        simpa [busif_step, BusIf.comb, hs, hdone, hleft, bifIn] using hleft'
      have hw : BifWrites c s i b := ⟨hg, by simp [bifo, BusIf.comb, hs, hleft]⟩
      have hwrite := bank_busif hd.oneWriter hw
      rw [h.toRuns.row] at hwrite
      rw [hwrite fun p hp => h.toRuns.wpRow_ne hd hu hp, h.fetched b hb]

theorem Runs.index (h : Runs c j s) : indexOf c s.busif.adr = j.index c := by
  rw [indexOf, h.line]
  rfl

/-- After its second cycle, the tag of the line is there. -/
theorem WritesTag.tagged (h : WritesTag c j s) (hd : Orderly c s i) (hc : s.busif.cnt = 1) :
    j.Tagged c (step c s i) := by
  have hs := h.state
  have hf := hd.fields_busif ⟨by rw [hs]; rfl, hc⟩
  rw [h.toRuns.index, h.tag] at hf
  rw [Job.Tagged, hf]
  simp [bifo, BusIf.comb, hs, BusIf.newTag, h.op, tagOf, h.line]

protected theorem WritesTag.step (h : WritesTag c j s) (hd : Orderly c s i) :
    WritesTag c j (step c s i) ∨
      j.tag.dirty = true ∧ (step c s i).busif.cnt = 0 ∧ WritesBackVictim c j (step c s i) ∨
      j.tag.dirty = false ∧ Done c j (step c s i) := by
  have hs := h.state
  have hu : s.busif.state.usesTag = true := by rw [hs]; rfl
  obtain ⟨-, hmem⟩ := wbWrite_none (c := c) (i := i) (by rw [hs]; exact nofun)
    (by rw [hs]; exact nofun)
  have hbuf := h.toBuffered.step hd (.inr (.inr (.inl hs))) fun b _ => by rw [hmem]
  have hfilled : j.Filled c (step c s i) := fun b hb => by
    rw [h.toRuns.bank_kept hd hu (Runs.not_bifWrites (by rw [hs]; exact nofun)), h.filled b hb]
  have hcnt := hd.busif.cnt_tag (by rw [hs]; rfl)
  have hnext := busif_step (c := c) (s := s) (i := i)
  simp only [BusIf.comb, hs, BusIf.tagWritten, h.writeVictim] at hnext
  by_cases hlast : (bifIn c s i (grants c s i)).gntTagw = true ∧ s.busif.cnt = 1
  · have htagged := h.tagged hd hlast.2
    rw [if_pos hlast.1, hlast.2] at hnext
    cases hdirty : j.tag.dirty with
    | true => exact .inr (.inl ⟨rfl, by simp [hnext, hdirty], hbuf, by simp [hnext, hdirty], hfilled, htagged⟩)
    | false => exact .inr (.inr ⟨rfl, hbuf.toRuns, by simp [hnext, hdirty], hfilled, htagged⟩)
  · refine .inl ⟨hbuf, ?_, hfilled⟩
    rw [hnext]
    split
    · rename_i hg
      have hzero : s.busif.cnt = 0 := by
        have hne : s.busif.cnt ≠ 1 := fun h1 => hlast ⟨hg, h1⟩
        omega
      simp [hzero]
    · rfl

/-- A word of the victim is none of the line. -/
theorem Runs.victim_ne (h : Runs c j s) (hdirty : j.tag.dirty = true) {b b' : ℕ}
    (hb : b < c.banks) (hb' : b' < c.banks) :
    j.line * c.banks + b ≠ wordNo (makeAdr c j.tag.taddr (j.index c) b') := by
  obtain ⟨hlt, hne⟩ := h.other hdirty
  rw [wordNo_makeAdr hlt hb']
  intro heq
  exact hne (line_bank_inj hb hb' heq).1.symm

/-- The tag of the line stays while the victim is written back. -/
theorem WritesBackVictim.tagged_step (h : WritesBackVictim c j s) (hd : Orderly c s i) :
    j.Tagged c (step c s i) := by
  have hs := h.state
  have hkept := hd.toTagCycle.fields_kept (a := j.index c) (w := j.tag.way)
    (fun p hp hsec heq => ?_) fun hsec => ?_
  · rw [Job.Tagged, hkept]
    exact h.tagged
  · have hidx := hd.toReplaceLock.secondTagWrite_index (by rw [hs]; rfl) h.op hp hsec
    rw [h.toRuns.index] at hidx
    exact hidx heq.1
  · have := hsec.1
    rw [hs] at this
    cases this

protected theorem WritesBackVictim.step (h : WritesBackVictim c j s) (hd : Orderly c s i)
    (hdirty : j.tag.dirty = true) :
    wbWrite c s i = none ∧ (step c s i).busif.cnt = s.busif.cnt ∧
        WritesBackVictim c j (step c s i) ∨
      wbWrite c s i = some (j.write c s.busif.cnt) ∧ (s.busif.cnt + 1 < c.banks ∧
          (step c s i).busif.cnt = s.busif.cnt + 1 ∧ WritesBackVictim c j (step c s i) ∨
        s.busif.cnt + 1 = c.banks ∧ Done c j (step c s i)) := by
  have hs := h.state
  have hu : s.busif.state.usesTag = true := by rw [hs]; rfl
  have hcnt := hd.busif.cnt (.inr hs)
  have hmem : ∀ b < c.banks,
      (step c s i).mem (j.line * c.banks + b) = s.mem (j.line * c.banks + b) := by
    intro b hb
    show nextMem c s i (grants c s i) _ = _
    rw [nextMem]
    split
    · refine Function.update_of_ne ?_ ..
      simp only [bifo, BusIf.comb, hs, h.tag, h.toRuns.index]
      exact h.toRuns.victim_ne hdirty hb hcnt
    · rfl
  have hbuf := h.toBuffered.step hd (.inr (.inr (.inr hs))) hmem
  have hfilled : j.Filled c (step c s i) := fun b hb => by
    rw [h.toRuns.bank_kept hd hu (Runs.not_bifWrites (by rw [hs]; decide)), h.filled b hb]
  have htagged := h.tagged_step hd
  have hnext := busif_step (c := c) (s := s) (i := i)
  simp only [BusIf.comb, hs] at hnext
  cases hack : i.ackI with
  | false =>
    have hack' : (bifIn c s i (grants c s i)).ackI = false := hack
    refine .inl ⟨by simp [wbWrite, hack], ?_, hbuf, ?_, hfilled, htagged⟩ <;>
      simp [hnext, hack']
  | true =>
    have hack' : (bifIn c s i (grants c s i)).ackI = true := hack
    refine .inr ⟨?_, ?_⟩
    · simp [wbWrite, bifo, BusIf.comb, hs, hack, h.tag, h.toRuns.index, Job.write,
        h.copied hdirty _ hcnt]
    · rcases Nat.lt_or_ge (s.busif.cnt + 1) c.banks with hlt | hge
      · have hlast : BusIf.cntLast c s.busif = false := by
          simp only [BusIf.cntLast, beq_eq_false_iff_ne]
          omega
        refine .inl ⟨hlt, ?_, hbuf, ?_, hfilled, htagged⟩ <;>
          simp [hnext, hack', hlast, Nat.mod_eq_of_lt hlt]
      · have heq : s.busif.cnt + 1 = c.banks := by omega
        have hlast : BusIf.cntLast c s.busif = true := by
          simp only [BusIf.cntLast, beq_iff_eq]
          omega
        exact .inr ⟨heq, hbuf.toRuns, by simp [hnext, hack', hlast], hfilled, htagged⟩

/-- The words of a granted bank arrive in the next cycle, and are copied in the one after. -/
protected theorem ReadsDirtyBanks.step (h : ReadsDirtyBanks c j s) (hd : Orderly c s i) :
    ReadsDirtyBanks c j (step c s i) ∨ InvalidatesTag c j (step c s i) := by
  have hs := h.state
  have hu : s.busif.state.usesTag = true := by rw [hs]; rfl
  obtain ⟨-, hmem⟩ := wbWrite_none (c := c) (i := i) (by rw [hs]; decide)
    (by rw [hs]; decide)
  obtain ⟨hidata, hvalid⟩ := BusIf.idata_kept (c := c) (i := bifIn c s i (grants c s i)) hu
    (by rw [hs]; decide)
  rw [← busif_step] at hidata hvalid
  have hruns := h.toRuns.step hd hu (fun b _ => by rw [hmem]) fun b hb hv => by
    rw [hidata]
    exact h.shown b hb (hvalid b hv)
  have hnowrite : ∀ b, ¬ BifWrites c s i b :=
    fun b => Runs.not_bifWrites (by rw [hs]; exact nofun)
  have hcopied : ∀ b < c.banks, s.busif.banksLeft b = false →
      (step c s i).busif.odata b = j.victim b := by
    intro b hb hleft
    have hnext : (step c s i).busif.odata b =
        if !s.busif.banksLeft b && s.busif.banksLeftLast b then
          (bifIn c s i (grants c s i)).dataIn b else s.busif.odata b := by
      rw [busif_step]
      simp only [BusIf.comb, hs]
      split <;> rfl
    rw [hnext, hleft]
    cases hlast : s.busif.banksLeftLast b with
    | false => simpa using h.copied b hb hleft hlast
    | true =>
      have hrd : (bifo c s (grants c s i)).bankRd b = true := by
        simpa [bifo, BusIf.comb, hs] using hlast
      have hdata : (bifIn c s i (grants c s i)).dataIn b = s.rdata b (c.bankRamPorts - 1) := by
        simp only [bifIn, hrd]
        split <;> simp
      simpa [hdata] using h.arrives b hb hleft hlast
  have hfetched : ∀ b < c.banks, (step c s i).busif.idata b = j.word b := by
    rw [hidata]
    exact h.fetched
  have hnext := busif_step (c := c) (s := s) (i := i)
  simp only [BusIf.comb, hs] at hnext
  cases hdone : BusIf.banksDone c s.busif with
  | true =>
    have hleft : ∀ b < c.banks, s.busif.banksLeft b = false := by
      simpa [BusIf.banksDone] using hdone
    refine .inr ⟨⟨hruns, hfetched, ?_, fun _ b hb => hcopied b hb (hleft b hb)⟩, ?_, fun b => ?_⟩ <;>
      simp [hnext, hdone, h.dirty, h.op]
  | false =>
    refine .inl ⟨hruns, by simp [hnext, hdone], hfetched, h.dirty, ?arrives, ?copied, ?old⟩
    case arrives =>
      intro b hb hleft' hlast'
      have hleft : s.busif.banksLeft b = true := by simpa [hnext, hdone] using hlast'
      have hg : (grants c s i).bank b (idxBusif c) = true := by
        simpa [hnext, hdone, hleft, bifIn] using hleft'
      rw [rdata_busif hd.oneWriter hg ⟨fun p hp => ?_, fun hw => absurd hw (hnowrite b)⟩]
      · rw [h.toRuns.row]
        exact h.old b hb
      · rw [h.toRuns.row]
        exact h.toRuns.wpRow_ne hd hu hp
    case copied =>
      intro b hb hleft' hlast'
      exact hcopied b hb (by simpa [hnext, hdone] using hlast')
    case old =>
      intro b hb
      rw [h.toRuns.bank_kept hd hu (hnowrite b), h.old b hb]

/-- Any starting word leads around the whole line. -/
theorem exists_offset {n b : ℕ} (start : ℕ) (hb : b < n) : ∃ k < n, (start + k) % n = b := by
  have hn : 0 < n := Nat.zero_lt_of_lt hb
  refine ⟨(b + (n - start % n)) % n, Nat.mod_lt _ hn, ?_⟩
  have hlt := Nat.mod_lt start hn
  calc (start + (b + (n - start % n)) % n) % n
      = (start + (b + (n - start % n))) % n := Nat.add_mod_mod ..
    _ = (start % n + (b + (n - start % n))) % n := (Nat.mod_add_mod ..).symm
    _ = (b + n) % n := by congr 1; omega
    _ = b := by rw [Nat.add_mod_right, Nat.mod_eq_of_lt hb]

/-- The word on the bus is that of the line at the current bank. -/
theorem ReadsIdata.datI (h : ReadsIdata c j s) :
    (bifIn c s i (grants c s i)).datI = j.word s.busif.adrOfs := by
  have hlt : s.busif.adrOfs < c.banks := by
    rw [h.adrOfs]
    exact Nat.mod_lt _ c.banks_pos
  have hadr : (bifo c s (grants c s i)).adrO = setBank c s.busif.adr s.busif.adrOfs := by
    simp [bifo, BusIf.comb, h.state]
  show s.mem (wordNo (bifo c s (grants c s i)).adrO) = _
  rw [hadr, wordNo_setBank hlt, h.line, h.mem _ hlt]

protected theorem ReadsIdata.step (h : ReadsIdata c j s) (hd : Orderly c s i) :
    ReadsIdata c j (step c s i) ∨ ReadsDirtyBanks c j (step c s i) ∨
      InvalidatesTag c j (step c s i) := by
  have hs := h.state
  have hu : s.busif.state.usesTag = true := by rw [hs]; rfl
  have hcnt := hd.busif.cnt (.inl hs)
  obtain ⟨-, hmem⟩ := wbWrite_none (c := c) (i := i) (by rw [hs]; exact nofun)
    (by rw [hs]; exact nofun)
  have hold : j.Old c (step c s i) := fun b hb => by
    rw [h.toRuns.bank_kept hd hu (Runs.not_bifWrites (by rw [hs]; exact nofun)), h.old b hb]
  have hnext := busif_step (c := c) (s := s) (i := i)
  simp only [BusIf.comb, hs] at hnext
  cases hack : i.ackI with
  | false =>
    have hack' : (bifIn c s i (grants c s i)).ackI = false := hack
    rw [hack', if_neg Bool.false_ne_true] at hnext
    have hruns := h.toRuns.step hd hu (fun b _ => by rw [hmem]) (by rw [hnext]; exact h.shown)
    exact .inl ⟨hruns, by rw [hnext], by rw [hnext]; exact h.adrOfs,
      by rw [hnext]; exact h.seen, by rw [hnext]; exact h.writeVictim, by rw [hnext]; exact h.left,
      hold⟩
  | true =>
    have hack' : (bifIn c s i (grants c s i)).ackI = true := hack
    rw [hack', if_pos rfl, h.datI, h.tag] at hnext
    -- a word that was right stays so, and the current one gets right
    have hidata : (step c s i).busif.idata =
        Function.update s.busif.idata s.busif.adrOfs (j.word s.busif.adrOfs) := by
      rw [hnext]
      split <;> rfl
    have hright : ∀ b, s.busif.idata b = j.word b ∨ b = s.busif.adrOfs →
        (step c s i).busif.idata b = j.word b := by
      rintro b (hb | rfl) <;> rw [hidata]
      · rcases eq_or_ne b s.busif.adrOfs with rfl | hne
        · exact Function.update_self ..
        · rw [Function.update_of_ne hne, hb]
      · exact Function.update_self ..
    have hseen : ∀ k < s.busif.cnt + 1, (step c s i).busif.idata ((j.start + k) % c.banks) =
        j.word ((j.start + k) % c.banks) := by
      intro k hk
      rcases Nat.lt_succ_iff_lt_or_eq.mp hk with hlt | rfl
      · exact hright _ (.inl (h.seen k hlt))
      · exact hright _ (.inr h.adrOfs.symm)
    have hruns := h.toRuns.step (i := i) hd hu (fun b _ => by rw [hmem]) fun b hb hv => by
      have hvalid : (step c s i).busif.idataValid =
          Function.update s.busif.idataValid s.busif.adrOfs true := by
        rw [hnext]
        split <;> rfl
      refine hright b ?_
      rcases eq_or_ne b s.busif.adrOfs with rfl | hne
      · exact .inr rfl
      · rw [hvalid, Function.update_of_ne hne] at hv
        exact .inl (h.shown b hb hv)
    rcases Nat.lt_or_ge (s.busif.cnt + 1) c.banks with hlt | hge
    · have hlast : BusIf.cntLast c s.busif = false := by
        simp only [BusIf.cntLast, beq_eq_false_iff_ne]
        omega
      rw [hlast, if_neg Bool.false_ne_true] at hnext
      have hcnt' : (step c s i).busif.cnt = s.busif.cnt + 1 := by
        rw [hnext]
        exact Nat.mod_eq_of_lt hlt
      refine .inl ⟨hruns, by rw [hnext], ?_, by rw [hcnt']; exact hseen,
        by rw [hnext]; exact h.writeVictim, by rw [hnext]; exact h.left, hold⟩
      rw [hcnt', hnext, ← Nat.add_assoc, Nat.add_mod (j.start + s.busif.cnt), ← h.adrOfs,
        Nat.mod_eq_of_lt c.one_lt_banks]
    · have hlast : BusIf.cntLast c s.busif = true := by
        simp only [BusIf.cntLast, beq_iff_eq]
        omega
      rw [hlast, if_pos rfl] at hnext
      have hfetched : ∀ b < c.banks, (step c s i).busif.idata b = j.word b := by
        intro b hb
        obtain ⟨k, hk, rfl⟩ := exists_offset j.start hb
        exact hseen k (by omega)
      have hleft : ∀ b, (step c s i).busif.banksLeft b = true := by
        rw [hnext]
        exact h.left
      cases hdirty : j.tag.dirty with
      | true =>
        refine .inr (.inl ⟨hruns, by simp [hnext, hdirty], hfetched, hdirty, ?_, ?_, hold⟩) <;>
          intro b _ hb <;> rw [hleft] at hb <;> cases hb
      | false =>
        refine .inr (.inr ⟨⟨hruns, hfetched, ?_, fun hd => ?_⟩, by simp [hnext, hdirty], hleft⟩)
        · rw [hnext, hdirty]
          exact h.writeVictim
        · rw [hdirty] at hd
          cases hd

protected theorem Phase.step {ws : List (TWord × TByteSel × TWord)} (h : Phase c j s ws)
    (hd : Orderly c s i) (hack : s.busif.state ≠ .cacheAck) :
    Phase c j (step c s i) (ws ++ (wbWrite c s i).toList) := by
  have hnone : s.busif.state.usesTag = true → s.busif.state ≠ .cacheWriteBackVictim →
      (wbWrite c s i).toList = [] := by
    intro hu hv
    rw [(wbWrite_none (fun hs => by rw [hs] at hu; cases hu) hv).1]
    rfl
  cases h with
  | readsIdata h =>
    rw [hnone (by rw [h.state]; rfl) (by rw [h.state]; exact nofun)]
    rcases h.step hd with h | h | h
    · exact .readsIdata h
    · exact .readsDirtyBanks h
    · exact .invalidatesTag h
  | readsDirtyBanks h =>
    rw [hnone (by rw [h.state]; rfl) (by rw [h.state]; exact nofun)]
    rcases h.step hd with h | h
    · exact .readsDirtyBanks h
    · exact .invalidatesTag h
  | invalidatesTag h =>
    rw [hnone (by rw [h.state]; rfl) (by rw [h.state]; exact nofun)]
    rcases h.step hd with h | h
    · exact .invalidatesTag h
    · exact .writesBanks h
  | writesBanks h =>
    rw [hnone (by rw [h.state]; rfl) (by rw [h.state]; exact nofun)]
    rcases h.step hd with h | h
    · exact .writesBanks h
    · exact .writesTag h
  | writesTag h =>
    rw [hnone (by rw [h.state]; rfl) (by rw [h.state]; exact nofun)]
    rcases h.step hd with h | ⟨hdirty, hcnt, h⟩ | ⟨hdirty, h⟩
    · exact .writesTag h
    · have := Phase.writesBackVictim h hdirty
      rwa [hcnt] at this
    · have := Phase.done h
      rwa [hdirty] at this
  | writesBackVictim h hdirty =>
    rcases h.step hd hdirty with ⟨hw, hcnt, h⟩ | ⟨hw, ⟨-, hcnt, h⟩ | ⟨hcnt, h⟩⟩
    · have := Phase.writesBackVictim h hdirty
      rw [hw, ← hcnt]
      simpa using this
    · have := Phase.writesBackVictim h hdirty
      rw [hcnt, List.range_succ, List.map_append] at this
      rwa [hw]
    · have := Phase.done h
      rw [hdirty, if_pos rfl, ← hcnt, List.range_succ, List.map_append] at this
      rwa [hw]
  | done h => exact absurd h.state hack

-- ---------------------------------------------------------------------------
-- The request and the tag
-- ---------------------------------------------------------------------------

/-- A replacement that has not read its tag yet. -/
structure Requested (c : Config) (adr : TWord) (mem : ℕ → TWord) (s : State) : Prop where
  state : s.busif.state = .cacheRequestLlWait ∨ s.busif.state = .cacheRequestRtWait ∨
    s.busif.state = .cacheReadTag
  op : s.busif.op = .replace
  line : lineOf c s.busif.adr = lineOf c adr
  adrOfs : s.busif.adrOfs = bankOf c adr
  writeVictim : s.busif.writeVictim = false
  left : ∀ b, s.busif.banksLeft b = true
  mem : s.mem = mem

theorem requested_of_op (hs : s.busif.state = .idle)
    (hop : (bifIn c s i (grants c s i)).busifOp = .replace) :
    Requested c (bifIn c s i (grants c s i)).adrIn s.mem (step c s i) := by
  obtain ⟨-, hmem⟩ := wbWrite_none (c := c) (i := i) (by rw [hs]; exact nofun)
    (by rw [hs]; exact nofun)
  have hnext := busif_step (c := c) (s := s) (i := i)
  simp only [BusIf.comb, hs, BusIf.combIdle, BusIf.latched, hop] at hnext
  refine ⟨?_, ?_, ?_, ?_, ?_, fun b => ?_, hmem⟩ <;> rw [hnext]
  · dsimp only
    split
    · exact .inr (.inl rfl)
    · exact .inl rfl
  · exact lineOf_clearOfs

theorem Requested.state_cases {adr : TWord} {mem : ℕ → TWord} (h : Requested c adr mem s) :
    s.busif.state ≠ .directWrite ∧ s.busif.state ≠ .cacheWriteBackVictim ∧
      s.busif.state ≠ .cacheAck := by
  rcases h.state with hs | hs | hs <;> rw [hs] <;> exact ⟨nofun, nofun, nofun⟩

protected theorem Requested.step {adr : TWord} {mem : ℕ → TWord} (h : Requested c adr mem s)
    (hs : s.busif.state ≠ .cacheReadTag) : Requested c adr mem (step c s i) := by
  obtain ⟨hstate, hop, hline, hofs, hvictim, hleft, hm⟩ := h
  have hkept : ∃ v : BusIf.Registers, (step c s i).busif = v ∧ v.op = s.busif.op ∧
      v.adr = s.busif.adr ∧ v.adrOfs = s.busif.adrOfs ∧ v.writeVictim = s.busif.writeVictim ∧
      v.banksLeft = s.busif.banksLeft ∧ (v.state = .cacheRequestLlWait ∨
        v.state = .cacheRequestRtWait ∨ v.state = .cacheReadTag) := by
    refine ⟨_, rfl, ?_⟩
    rw [busif_step]
    rcases hstate with hst | hst | hst <;> simp only [BusIf.comb, hst]
    · split <;> simp
    · split <;> simp
    · exact absurd hst hs
  obtain ⟨v, rfl, ho, ha, hf, hw, hl, hst⟩ := hkept
  obtain ⟨-, hmem⟩ := wbWrite_none (c := c) (s := s) (i := i)
    (by rcases hstate with hs | hs | hs <;> rw [hs] <;> decide)
    (by rcases hstate with hs | hs | hs <;> rw [hs] <;> decide)
  exact ⟨hst, ho.trans hop, by rw [ha, hline], hf.trans hofs, hw.trans hvictim,
    fun b => by rw [hl, hleft], hmem.trans hm⟩

/-- The tag that arrives, and with it the victim. -/
def foundTag (c : Config) (s : State) : CacheTag := TagRam.tagOut c s.tram (c.cores - 1)

/-- No way of its set holds the line of `adr`. -/
def Absent (c : Config) (s : State) (adr : TWord) : Prop :=
  ∀ w < c.ways, (s.tram.mem (indexOf c adr)).valid w = true →
    (s.tram.mem (indexOf c adr)).taddr w ≠ tagOf c adr

def jobOf (c : Config) (s : State) (adr : TWord) : Job where
  line := lineOf c adr
  start := bankOf c adr
  word b := s.mem (lineOf c adr * c.banks + b)
  tag := foundTag c s
  victim b := s.bank b (wayIndexOf c adr (foundTag c s).way)

theorem Absent.miss {adr : TWord} (h : Absent c s adr) (hd : Orderly c s i)
    (hs : s.busif.state = .cacheReadTag) (hline : lineOf c s.busif.adr = lineOf c adr) :
    (foundTag c s).valid = false := by
  obtain ⟨hiadr, htadr⟩ := hd.bifArrives hs
  rw [indexOf_congr hline] at hiadr
  rw [tagOf_congr hline] at htadr
  by_contra hv
  obtain ⟨w, hw⟩ := Option.isSome_iff_exists.mp (Bool.of_not_eq_false hv)
  have hmem := List.mem_of_find?_eq_some hw
  have hfound := List.find?_some hw
  rw [List.mem_reverse, List.mem_range] at hmem
  rw [Bool.and_eq_true, beq_iff_eq, hd.consistent.rdata, hiadr, htadr] at hfound
  exact h w hmem hfound.1 hfound.2

/-- With the tag of a line that is absent, the line is fetched. -/
theorem Requested.found {adr : TWord} {mem : ℕ → TWord} (h : Requested c adr mem s)
    (hd : Orderly c s i) (hs : s.busif.state = .cacheReadTag) (habsent : Absent c s adr) :
    Phase c (jobOf c s adr) (step c s i) [] := by
  have hmiss := habsent.miss hd hs h.line
  obtain ⟨-, hmem⟩ := wbWrite_none (c := c) (i := i) (by rw [hs]; decide)
    (by rw [hs]; decide)
  have hcnt := hd.busif.cnt_zero (.inr (.inr (.inl hs)))
  have hnext := busif_step (c := c) (s := s) (i := i)
  simp only [BusIf.comb, hs, h.op] at hnext
  refine .readsIdata ⟨⟨?op, ?line, ?tag, fun b _ => congrFun hmem _, ?shown, ?other⟩, ?state,
    ?adrOfs, ?seen, ?writeVictim, ?left, ?old⟩
  case op => rw [hnext]
  case line =>
    rw [hnext]
    exact h.line
  case tag => rw [hnext]; rfl
  case shown =>
    intro b _ hv
    rw [hnext] at hv
    rcases hd.shows.valid b hv with ⟨h2, -⟩ | ⟨hu, -⟩
    · rw [hs] at h2
      cases h2
    · rw [hs] at hu
      cases hu
  case other =>
    intro hdirty
    obtain ⟨adr', ht, hi, hne⟩ := hd.victim_other hs hmiss hdirty
    have hindex : (jobOf c s adr).index c = indexOf c adr' := by
      rw [hi, indexOf_congr h.line]
      rfl
    have hline' : (jobOf c s adr).tag.taddr * c.sets + (jobOf c s adr).index c = lineOf c adr' := by
      rw [hindex, ← tag_add_index, ht]
      rfl
    rw [hline']
    refine ⟨lineOf_lt c adr', fun heq => hne ?_⟩
    rw [tagOf_congr h.line]
    exact tagOf_congr heq
  case state => rw [hnext]
  case adrOfs =>
    rw [hnext, hcnt, Nat.add_zero]
    exact h.adrOfs.trans (Nat.mod_eq_of_lt (bankOf_lt c adr)).symm
  case seen =>
    intro k hk
    rw [hnext, hcnt] at hk
    exact absurd hk (Nat.not_lt_zero k)
  case writeVictim =>
    rw [hnext]
    exact h.writeVictim
  case left =>
    rw [hnext]
    exact h.left
  case old =>
    intro b _
    have hrow : (jobOf c s adr).row c = wayIndexOf c adr (foundTag c s).way := rfl
    rw [hrow]
    refine Memu.bank_kept hd.oneWriter ⟨fun p hp heq => ?_, fun hb => ?_⟩
    · refine hd.toReplaceLock.wpWrites_index (by rw [hs]; rfl) h.op hp ?_
      rw [indexOf_congr h.line]
      exact congrArg Prod.snd heq
    · exact absurd hb (Runs.not_bifWrites (by rw [hs]; decide))

-- ---------------------------------------------------------------------------
-- Hits while the line is fetched
-- ---------------------------------------------------------------------------

/-- Read port `p` acknowledges without having read a bank: it takes the word that the BusIf shows,
and delivers it in the next cycle. -/
def TakesHit (c : Config) (s : State) (i : Input) (p : ℕ) : Prop :=
  (rpo c s i p).portAck = true ∧ ((step c s i).rp p).state = .init

theorem ReadPort.hit_of_ack {r : ReadPort.Registers} {x : ReadPort.In}
    (hack : (ReadPort.comb c r x).2.portAck = true)
    (hs : (ReadPort.comb c r x).1.state = .init) : ReadPort.busifHit c x = true := by
  revert hack hs
  cases hst : r.state <;>
    simp only [ReadPort.comb, hst, ReadPort.defaults, ReadPort.newRequest, ReadPort.readHit]
  all_goals
    repeat' split
    all_goals simp_all

/-- What a hit delivers. -/
theorem TakesHit.data {p : ℕ} (h : TakesHit c s i p) :
    s.busif.idataValid (bankOf c s.busif.adr) = true ∧
      wordNo (i.rpi p).portAdr = wordNo s.busif.adr ∧
      (rpo c (step c s i) k p).portData = s.busif.idata (bankOf c s.busif.adr) := by
  have hhit := ReadPort.hit_of_ack h.1 h.2
  rw [ReadPort.busifHit, Bool.and_eq_true, beq_iff_eq] at hhit
  obtain ⟨hvalid, hword⟩ := hhit
  have hno : wordNo (i.rpi p).portAdr = wordNo s.busif.adr := congrArg BitVec.toNat hword
  have hbank : bankOf c (i.rpi p).portAdr = bankOf c s.busif.adr := congrArg (· % c.banks) hno
  refine ⟨?_, hno, ReadPort.portData_init h.2⟩
  rw [← hbank]
  exact hvalid

theorem Phase.runs {ws : List (TWord × TByteSel × TWord)} (h : Phase c j s ws) : Runs c j s := by
  cases h with
  | readsIdata h => exact h.toRuns
  | readsDirtyBanks h => exact h.toRuns
  | invalidatesTag h => exact h.toRuns
  | writesBanks h => exact h.toRuns
  | writesTag h => exact h.toRuns
  | writesBackVictim h => exact h.toRuns
  | done h => exact h.toRuns

/-- A hit delivers a word of the line. -/
theorem Phase.hit {ws : List (TWord × TByteSel × TWord)} (h : Phase c j s ws) {p : ℕ}
    (ht : TakesHit c s i p) : lineOf c (i.rpi p).portAdr = j.line ∧
      (rpo c (step c s i) k p).portData = j.word (bankOf c (i.rpi p).portAdr) := by
  obtain ⟨hvalid, hno, hdata⟩ := ht.data (k := k)
  have hbank : bankOf c (i.rpi p).portAdr = bankOf c s.busif.adr := congrArg (· % c.banks) hno
  have hline : lineOf c (i.rpi p).portAdr = lineOf c s.busif.adr := congrArg (· / c.banks) hno
  refine ⟨hline.trans h.runs.line, ?_⟩
  rw [hdata, hbank]
  exact h.runs.shown _ (bankOf_lt c s.busif.adr) hvalid

theorem Phase.done_of {ws : List (TWord × TByteSel × TWord)} (h : Phase c j s ws)
    (hs : s.busif.state = .cacheAck) :
    Done c j s ∧ ws = if j.tag.dirty then (List.range c.banks).map (j.write c) else [] := by
  cases h with
  | done h => exact ⟨h, rfl⟩
  | readsIdata h | readsDirtyBanks h | invalidatesTag h | writesBanks h | writesTag h =>
    have := h.state
    rw [hs] at this
    cases this
  | writesBackVictim h =>
    have := h.state
    rw [hs] at this
    cases this

theorem Requested.no_hit {adr : TWord} {mem : ℕ → TWord} (h : Requested c adr mem s)
    (hd : Orderly c s i) {p : ℕ} : ¬ TakesHit c s i p := by
  intro ht
  rcases hd.shows.valid _ (ht.data (k := i)).1 with ⟨hs, -⟩ | ⟨hu, -⟩
  · rcases h.state with h | h | h <;> rw [h] at hs <;> cases hs
  · rcases h.state with h | h | h <;> rw [h] at hu <;> cases hu

end Cycle

end ParaNut.Memu
