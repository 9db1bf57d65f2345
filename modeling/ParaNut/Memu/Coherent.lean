import ParaNut.Memu.Exchange

/-!
# Coherence

A line in the cache that is not dirty is as in memory, unless a write port has
written to it and is about to mark it. A write port that merges bytes has the
word as it is in the bank.
-/

namespace ParaNut.Memu

-- ---------------------------------------------------------------------------
-- The write port
-- ---------------------------------------------------------------------------

namespace WritePort

/-- The states between the write to the bank and the end of the tag write. -/
def State.owes : State → Bool
  | .writeTag1 | .writeTag2 => true
  | _ => false

variable {c : Config} {r : Registers} {i : In}

theorem State.usesTag_of_commits {st : State} (h : st.commits = true) : st.usesTag = true := by
  cases st <;> simp_all [State.usesTag, State.commits]

theorem State.usesTag_of_owes {st : State} (h : st.owes = true) : st.usesTag = true := by
  cases st <;> simp_all [State.usesTag, State.owes]

theorem tagOut_way_of_usesTag (h : r.state.usesTag = true) :
    (comb c r i).2.tagOut.way = r.tag.way := by
  revert h
  cases hs : r.state <;> simp only [comb, hs, defaults, State.usesTag]
  all_goals
    repeat' split
    all_goals simp_all

/-- A bank is written alone where the tag is dirty already. -/
theorem writeBank_next (h : (comb c r i).1.state = .writeBank) :
    (comb c r i).1.tag.dirty = true ∨ r.state = .writeBank ∨ r.state = .writeTag2AndBank := by
  revert h
  cases hs : r.state <;>
    simp only [comb, hs, combInit, snooped_state, snooped_tag, writeState]
  all_goals
    repeat' split
    all_goals simp_all

/-- The word of a bank that has been granted arrives. -/
theorem readBank_next (h : (comb c r i).1.state = .readBank) :
    bankGnt c i = true ∧ (comb c r i).2.bankWr = false ∧ r.state.holdsTag = true ∧
      (comb c r i).2.tagOut.way = (comb c r i).1.tag.way := by
  revert h
  cases hs : r.state <;>
    simp only [comb, hs, combInit, defaults, snooped_state, snooped_tag, writeState]
  all_goals
    repeat' split
    all_goals simp_all [State.holdsTag, State.tagArrives, State.usesTag]

/-- A port that is to write has all bytes, has just read the word, or goes on waiting. -/
theorem commits_next (h : (comb c r i).1.state.commits = true) :
    i.wpi.portBsel = 15 ∨ (comb c r i).1.tag = r.tag ∧ (comb c r i).2.bankWr = false ∧
      (r.state = .readBank ∧ (comb c r i).1.data = i.bankDataIn ∨
        r.state.commits = true ∧ (comb c r i).1.data = r.data) := by
  revert h
  cases hs : r.state <;>
    simp only [comb, hs, combInit, defaults, snooped_state, snooped_tag, snooped_data, writeState]
  all_goals
    repeat' split
    all_goals simp_all [State.commits]

/-- After its write a port is done, unless it owes the dirty mark. -/
theorem bankWr_next (h : (comb c r i).2.bankWr = true) :
    (comb c r i).1.tag = r.tag ∧ (r.state = .writeTag1AndBank ∧ (comb c r i).1.state.owes = true ∨
      r.state = .writeTag2AndBank ∨ r.state = .writeBank) := by
  revert h
  cases hs : r.state <;>
    simp only [comb, hs, combInit, defaults, snooped_state, snooped_tag, writeState]
  all_goals
    repeat' split
    all_goals simp_all [State.owes]

theorem owes_next (h : r.state = .writeTag1) :
    (comb c r i).1.state.owes = true ∧ (comb c r i).1.tag = r.tag := by
  simp only [comb, h, snooped_tag]
  split <;> simp [State.owes, h]

theorem owes_cases {st : State} (h : st.owes = true) : st = .writeTag1 ∨ st = .writeTag2 := by
  cases st <;> simp_all [State.owes]

end WritePort

-- ---------------------------------------------------------------------------
-- The memory unit
-- ---------------------------------------------------------------------------

section Statement

variable (c : Config) (s : State) (i : Input)

/-- Write port `p` has written to way `w` of set `a`, and is about to mark it as dirty. -/
structure Owes (a w p : ℕ) : Prop where
  lt : p < c.wports
  owes : (s.wp p).state.owes = true
  index : indexOf c (i.wpi p).portAdr = a
  way : (s.wp p).tag.way = w

/-- The number of word `b` of the line with tag `t` in set `a`. -/
def wordIn (a t b : ℕ) : ℕ := (t * c.sets + a) * c.banks + b

/-- The row of its bank write port `p` works on. -/
def entryRow (p : ℕ) : ℕ × ℕ := wayIndexOf c (i.wpi p).portAdr (s.wp p).tag.way

structure Coherent : Prop extends Replaces c s i where
  clean : ∀ a, ∀ w < c.ways, (s.tram.mem a).valid w = true → (s.tram.mem a).dirty w = false →
    (∃ p, Owes c s i a w p) ∨
      ∀ b < c.banks, s.bank b (w, a) = s.mem (wordIn c a ((s.tram.mem a).taddr w) b)
  wpDirty : ∀ p < c.wports, (s.wp p).state.usesTag = true →
    (s.wp p).tag.dirty = true ∨ (s.wp p).state = .writeBank →
    (s.tram.mem (indexOf c (i.wpi p).portAdr)).dirty (s.wp p).tag.way = true
  wpRead : ∀ p < c.wports, (s.wp p).state = .readBank →
    s.rdata (bankOf c (i.wpi p).portAdr) (p % c.bankRamPorts) =
      s.bank (bankOf c (i.wpi p).portAdr) (entryRow c s i p)
  wpData : ∀ p < c.wports, (s.wp p).state.commits = true → (i.wpi p).portBsel ≠ 15 →
    (s.wp p).data = s.bank (bankOf c (i.wpi p).portAdr) (entryRow c s i p)

end Statement

section Cycle

variable {c : Config} {s : State} {i i' : Input} {a b p w : ℕ}

theorem way_row (hw : w < c.ways) : (if c.ways = 1 then 0 else w) = w := by
  split
  · omega
  · rfl

/-- The rows of the banks are numbered by way and set. -/
theorem wayIndexOf_eq {adr : TWord} (hw : w < c.ways) : wayIndexOf c adr w = (w, indexOf c adr) := by
  rw [wayIndexOf, way_row hw]

namespace Replaces

/-- A valid entry names a line in memory. -/
theorem entry_names (hd : Replaces c s i) (hv : (s.tram.mem a).valid w = true) :
    a < c.sets ∧ (s.tram.mem a).taddr w * c.sets + a < c.lines := by
  obtain ⟨adr, -, ht, hi⟩ := hd.tram.mem a w (.inl hv)
  rw [← ht, ← hi, tag_add_index]
  exact ⟨indexOf_lt c adr, lineOf_lt c adr⟩

/-- A port with the tag of its line is the only one to write to the row. -/
theorem noWrite (hd : Replaces c s i) (hp : p < c.wports) {x : ℕ × ℕ}
    (hs : (s.wp p).state.holdsTag = true) (hlk : (s.wp p).state.writeLocked = true)
    (hno : (wpOut c s i (grants c s i) p).bankWr = false)
    (hx : x.2 = indexOf c (i.wpi p).portAdr) : NoWrite c s i b x := by
  constructor
  · intro q hq
    have hcommits := (WritePort.bankWr_spec hq.wr).1
    obtain rfl := hd.exclusive.linelock q hq.lt p hp
      (hd.write q hq.lt (WritePort.State.commits_locked hcommits)) (hd.write p hp hlk)
    rw [hq.wr] at hno
    cases hno
  · intro hb heq
    have hst := (BusIf.bankWr_spec hb.wr).1
    refine hd.toReplaceLock.holdsTag_index (by rw [hst]; rfl)
      (hd.op_of_working (by rw [hst]; rfl)) hp hs ?_
    rw [← hx, ← heq]
    rfl

/-- A port that is about to write to its row is the only one there. -/
theorem bank_committed (hd : Replaces c s i) (hw : WpWrites c s i b p) :
    (step c s i).bank b (entryRow c s i p) = (wpOut c s i (grants c s i) p).bankDataOut := by
  have hcommits := (WritePort.bankWr_spec hw.wr).1
  have huses := WritePort.State.usesTag_of_commits hcommits
  have hrow : wpRow c s i p = entryRow c s i p := by
    rw [wpRow, wpOut, WritePort.tagOut_way_of_usesTag huses, entryRow]
  rw [← hrow]
  refine bank_wp hd.oneWriter hw (fun q hq hne => ?_) fun hb heq => ?_
  · refine absurd (hd.exclusive.linelock q hq.lt p hw.lt (hd.write q hq.lt
      (WritePort.State.commits_locked (WritePort.bankWr_spec hq.wr).1)) (hd.write p hw.lt
        (WritePort.State.commits_locked hcommits))) hne
  · have hst := (BusIf.bankWr_spec hb.wr).1
    refine hd.toReplaceLock.holdsTag_index (by rw [hst]; rfl) (hd.op_of_working (by rw [hst]; rfl))
      hw.lt (WritePort.State.holdsTag_of_usesTag huses) ?_
    exact (congrArg Prod.snd heq).symm

/-- Memory is written where a victim is written back. -/
theorem mem_step (hd : Replaces c s i) (n : ℕ) :
    (step c s i).mem n = s.mem n ∨ s.busif.state = .cacheWriteBackVictim ∧
      ∃ j ws, Phase c j s ws ∧ Exchange c j s ∧ WritesBackVictim c j s ∧ j.tag.dirty = true ∧
        n = wordIn c (j.index c) j.tag.taddr s.busif.cnt := by
  by_cases hs : s.busif.state = .cacheWriteBackVictim
  · obtain ⟨j, ws, hph, he⟩ := hd.phase (by rw [hs]; rfl)
    have hwb : WritesBackVictim c j s ∧ j.tag.dirty = true := by
      cases hph with
      | writesBackVictim h hdirty => exact ⟨h, hdirty⟩
      | readsIdata h | readsDirtyBanks h | invalidatesTag h | writesBanks h | writesTag h
      | done h =>
        have := h.state
        rw [hs] at this
        cases this
    by_cases hn : n = wordIn c (j.index c) j.tag.taddr s.busif.cnt
    · exact .inr ⟨hs, j, ws, hph, he, hwb.1, hwb.2, hn⟩
    · refine .inl ?_
      show nextMem c s i (grants c s i) n = s.mem n
      rw [nextMem]
      split
      · refine Function.update_of_ne (fun heq => hn ?_) ..
        rw [heq, wordIn, ← wordNo_makeAdr (hwb.1.toRuns.other hwb.2).1 (hd.busif.cnt (.inr hs))]
        simp [bifo, BusIf.comb, hs, hwb.1.tag, hwb.1.toRuns.index]
      · rfl
  · refine .inl (congrFun (wbWrite_none (i := i) ?_ hs).2 n)
    intro hdirect
    have := hd.noDirect
    rw [hdirect] at this
    cases this

/-- An entry that is valid and clean has been so, unless the BusIf has just brought it in. -/
theorem clean_back (hd : Replaces c s i) (hv : ((step c s i).tram.mem a).valid w = true)
    (hclean : ((step c s i).tram.mem a).dirty w = false) :
    ((s.tram.mem a).valid w = true ∧ (s.tram.mem a).dirty w = false ∧
        ((step c s i).tram.mem a).taddr w = (s.tram.mem a).taddr w ∧
        ∀ q < c.wports, (s.wp q).state.secondTagWrite = true →
          ¬ (indexOf c (i.wpi q).portAdr = a ∧ (s.wp q).tag.way = w)) ∨
      BifSecond s ∧ s.busif.state = .cacheWriteTag ∧ indexOf c s.busif.adr = a ∧
        s.busif.tag.way = w := by
  rcases hd.entry_back hv with ⟨hv', ht⟩ | hbif
  swap
  · exact .inr hbif
  have hno : ∀ q < c.wports, (s.wp q).state.secondTagWrite = true →
      ¬ (indexOf c (i.wpi q).portAdr = a ∧ (s.wp q).tag.way = w) := by
    rintro q hq hsec ⟨rfl, rfl⟩
    have hf := hd.fields_wp hq hsec
    simp only [TagRam.Entry.fields, Prod.mk.injEq] at hf
    rw [hf.2.1] at hclean
    cases hclean
  by_cases hb : BifSecond s ∧ indexOf c s.busif.adr = a ∧ s.busif.tag.way = w
  · obtain ⟨hsec, rfl, rfl⟩ := hb
    have hf := hd.fields_busif hsec
    simp only [TagRam.Entry.fields, Prod.mk.injEq] at hf
    rw [hf.1] at hv
    rcases eq_or_ne s.busif.state .cacheWriteTag with hs | hne
    · exact .inr ⟨hsec, hs, rfl, rfl⟩
    · have hs := hsec.1
      revert hs hv hne
      rw [bifo]
      cases hs : s.busif.state <;> simp [BusIf.comb, hs, BusIf.State.writesTag]
  · have hf := hd.fields_kept hno fun hsec heq => hb ⟨hsec, heq⟩
    simp only [TagRam.Entry.fields, Prod.mk.injEq] at hf
    exact .inl ⟨hv', hf.2.1.symm.trans hclean, ht, hno⟩

/-- A dirty mark stays while the BusIf is at another set. -/
theorem dirty_kept (hd : Replaces c s i) (hdirty : (s.tram.mem a).dirty w = true)
    (hbif : BifSecond s → indexOf c s.busif.adr ≠ a) :
    ((step c s i).tram.mem a).dirty w = true := by
  by_cases hq : ∃ q < c.wports, (s.wp q).state.secondTagWrite = true ∧
      indexOf c (i.wpi q).portAdr = a ∧ (s.wp q).tag.way = w
  · obtain ⟨q, hlt, hsec, rfl, rfl⟩ := hq
    have hf := hd.fields_wp hlt hsec
    simp only [TagRam.Entry.fields, Prod.mk.injEq] at hf
    exact hf.2.1
  · have hf := hd.fields_kept (a := a) (w := w) (fun q hlt hsec heq => hq ⟨q, hlt, hsec, heq⟩)
      fun hsec heq => hbif hsec heq.1
    simp only [TagRam.Entry.fields, Prod.mk.injEq] at hf
    exact hf.2.1.trans hdirty

/-- The BusIf is at another set than a port with the tag of its line. -/
theorem second_index (hd : Replaces c s i) (hp : p < c.wports)
    (hs : (s.wp p).state.holdsTag = true) (hsec : BifSecond s) :
    indexOf c s.busif.adr ≠ indexOf c (i.wpi p).portAdr :=
  (hd.toReplaceLock.holdsTag_index (BusIf.State.hasTag_of_writesTag hsec.1)
    (hd.op_of_working (BusIf.State.writesTag_working hsec.1)) hp hs).symm

/-- The line that the BusIf has just brought in is as in memory. -/
theorem clean_brought (hd : Replaces c s i) (hsec : BifSecond s)
    (hs : s.busif.state = .cacheWriteTag) (hw : s.busif.tag.way < c.ways) (hb : b < c.banks) :
    (step c s i).bank b (s.busif.tag.way, indexOf c s.busif.adr) =
      (step c s i).mem (wordIn c (indexOf c s.busif.adr)
        (((step c s i).tram.mem (indexOf c s.busif.adr)).taddr s.busif.tag.way) b) := by
  have hu : s.busif.state.usesTag = true := by rw [hs]; rfl
  obtain ⟨j, ws, hph, -⟩ := hd.phase hu
  have hwrites : WritesTag c j s := by
    cases hph with
    | writesTag h => exact h
    | readsIdata h | readsDirtyBanks h | invalidatesTag h | writesBanks h | done h =>
      have := h.state
      rw [hs] at this
      cases this
    | writesBackVictim h =>
      have := h.state
      rw [hs] at this
      cases this
  have hrow : (s.busif.tag.way, indexOf c s.busif.adr) = j.row c := by
    rw [Job.row, ← hwrites.tag, way_row hw, hwrites.toRuns.index]
  have hmem := (wbWrite_none (c := c) (s := s) (i := i) (by rw [hs]; decide)
    (by rw [hs]; decide)).2
  have hf := hd.fields_busif hsec
  simp only [TagRam.Entry.fields, Prod.mk.injEq] at hf
  have htag : (bifo c s Lines.none).tagOut.taddr = tagOf c s.busif.adr := by
    simp [bifo, BusIf.comb, hs, BusIf.newTag]
  rw [hrow, hwrites.toRuns.bank_kept hd.toOrderly hu (Runs.not_bifWrites (by rw [hs]; decide)),
    hwrites.filled b hb, hf.2.2, htag, wordIn, tag_add_index, hwrites.toRuns.line, hmem,
    hwrites.toRuns.mem b hb]

end Replaces

namespace Coherent

theorem wpDirty_step (hd : Coherent c s i) (hh : Holds c s i i') (hp : p < c.wports)
    (hu : ((step c s i).wp p).state.usesTag = true)
    (h : ((step c s i).wp p).tag.dirty = true ∨ ((step c s i).wp p).state = .writeBank) :
    ((step c s i).tram.mem (indexOf c (i'.wpi p).portAdr)).dirty ((step c s i).wp p).tag.way =
      true := by
  have hne : ((step c s i).wp p).state ≠ .init := by
    intro hs
    rw [hs] at hu
    cases hu
  rw [(hd.held hh hp hne).2]
  rcases WritePort.usesTag_next hu with ⟨hu', ht⟩ | ⟨ha, hv, ht⟩
  · rw [show ((step c s i).wp p).tag = _ from ht] at h ⊢
    have hbif := hd.second_index hp (WritePort.State.holdsTag_of_usesTag hu')
    have hkeep : (s.wp p).tag.dirty = true ∨ (s.wp p).state = .writeBank →
        ((step c s i).tram.mem (indexOf c (i.wpi p).portAdr)).dirty (s.wp p).tag.way = true :=
      fun h' => hd.dirty_kept (hd.wpDirty p hp hu' h') hbif
    rcases h with h | h
    · exact hkeep (.inl h)
    · rcases WritePort.writeBank_next h with hdirty | hs | hs
      · rw [ht] at hdirty
        exact hkeep (.inl hdirty)
      · exact hkeep (.inr hs)
      · have hf := hd.fields_wp hp (by rw [hs]; rfl)
        simp only [TagRam.Entry.fields, Prod.mk.injEq] at hf
        exact hf.2.1
  · have hdirty : (TagRam.tagOut c s.tram p).dirty = true := by
      have htag : ((step c s i).wp p).tag = TagRam.tagOut c s.tram p := ht
      rcases h with h | h
      · rwa [htag] at h
      · rcases WritePort.writeBank_next h with hdirty | hs | hs
        · rwa [ht] at hdirty
        · rw [hs] at ha
          cases ha
        · rw [hs] at ha
          cases ha
    rw [show ((step c s i).wp p).tag = _ from ht]
    refine hd.dirty_kept ?_ (hd.second_index hp (WritePort.State.holdsTag_of_arrives ha))
    rw [← hd.arrives p hp ha, ← hd.consistent.rdata]
    exact hdirty

theorem wpRead_step (hd : Coherent c s i) (hh : Holds c s i i') (hp : p < c.wports)
    (h : ((step c s i).wp p).state = .readBank) :
    (step c s i).rdata (bankOf c (i'.wpi p).portAdr) (p % c.bankRamPorts) =
      (step c s i).bank (bankOf c (i'.wpi p).portAdr) (entryRow c (step c s i) i' p) := by
  have hheld := (hd.held hh hp (by rw [h]; exact nofun)).2
  obtain ⟨hg, hno, hs, hway⟩ := WritePort.readBank_next h
  have hlk : (s.wp p).state.writeLocked = true := by
    revert h hs
    rw [wp_step]
    cases hst : (s.wp p).state <;> simp [WritePort.comb, hst, WritePort.State.holdsTag,
      WritePort.State.tagArrives, WritePort.State.usesTag, WritePort.State.writeLocked]
  have hrow : entryRow c (step c s i) i' p = wpRow c s i p := by
    rw [entryRow, hheld]
    exact congrArg (wayIndexOf c (i.wpi p).portAdr) hway.symm
  have hfree : NoWrite c s i (bankOf c (i.wpi p).portAdr) (wpRow c s i p) :=
    hd.noWrite hp hs hlk hno rfl
  rw [hrow, hheld, bank_kept hd.oneWriter hfree]
  exact rdata_wp hd.oneWriter hp hg hfree

theorem wpData_step (hd : Coherent c s i) (hh : Holds c s i i') (hp : p < c.wports)
    (h : ((step c s i).wp p).state.commits = true) (hsel : (i'.wpi p).portBsel ≠ 15) :
    ((step c s i).wp p).data =
      (step c s i).bank (bankOf c (i'.wpi p).portAdr) (entryRow c (step c s i) i' p) := by
  have hne : ((step c s i).wp p).state ≠ .init := by
    intro hs
    rw [hs] at h
    cases h
  have hheld := (hd.held hh hp hne).2
  rw [hheld] at hsel ⊢
  obtain ⟨htag, hno, hfrom⟩ := (WritePort.commits_next h).resolve_left hsel
  have hs : (s.wp p).state.usesTag = true ∧ (s.wp p).state.writeLocked = true := by
    rcases hfrom with ⟨hs, -⟩ | ⟨hs, -⟩
    · rw [hs]
      exact ⟨rfl, rfl⟩
    · exact ⟨WritePort.State.usesTag_of_commits hs, WritePort.State.commits_locked hs⟩
  have hrow : entryRow c (step c s i) i' p = entryRow c s i p := by
    rw [entryRow, entryRow, hheld, show ((step c s i).wp p).tag = _ from htag]
  rw [hrow, bank_kept hd.oneWriter
    (hd.noWrite hp (WritePort.State.holdsTag_of_usesTag hs.1) hs.2 hno rfl)]
  rcases hfrom with ⟨hst, hdata⟩ | ⟨hst, hdata⟩
  · exact hdata.trans (hd.wpRead p hp hst)
  · exact hdata.trans (hd.wpData p hp hst hsel)

/-- Who owes the dirty mark goes on owing it until it is set. -/
theorem owes_step (hd : Coherent c s i) (hh : Holds c s i i') (ho : Owes c s i a w p)
    (hno : (s.wp p).state.secondTagWrite = false) : Owes c (step c s i) i' a w p := by
  have hs : (s.wp p).state = .writeTag1 := by
    rcases WritePort.owes_cases ho.owes with hs | hs
    · exact hs
    · rw [hs] at hno
      cases hno
  obtain ⟨howes, htag⟩ := WritePort.owes_next (c := c) (i := wpIn c s i (grants c s i) p) hs
  have hne : ((step c s i).wp p).state ≠ .init := by
    intro hs'
    rw [← wp_step, hs'] at howes
    cases howes
  refine ⟨ho.lt, howes, ?_, ?_⟩
  · rw [(hd.held hh ho.lt hne).2, ho.index]
  · rw [show ((step c s i).wp p).tag = _ from htag, ho.way]

/-- A clean line that is written to is owed its mark. -/
theorem owes_of_write (hd : Coherent c s i) (hh : Holds c s i i') (hw : WpWrites c s i b p)
    (hrow : entryRow c s i p = (w, a)) (hclean : (s.tram.mem a).dirty w = false)
    (hno : ∀ q < c.wports, (s.wp q).state.secondTagWrite = true →
      ¬ (indexOf c (i.wpi q).portAdr = a ∧ (s.wp q).tag.way = w)) :
    Owes c (step c s i) i' a w p := by
  have huses := WritePort.State.usesTag_of_commits (WritePort.bankWr_spec hw.wr).1
  have hlt := (hd.wpEntry p hw.lt huses).1
  rw [entryRow, wayIndexOf_eq hlt, Prod.mk.injEq] at hrow
  obtain ⟨rfl, rfl⟩ := hrow
  obtain ⟨htag, ⟨-, howes⟩ | hs | hs⟩ := WritePort.bankWr_next hw.wr
  · have hne : ((step c s i).wp p).state ≠ .init := by
      intro hs'
      rw [← wp_step, hs'] at howes
      cases howes
    refine ⟨hw.lt, howes, ?_, ?_⟩
    · rw [(hd.held hh hw.lt hne).2]
    · rw [show ((step c s i).wp p).tag = _ from htag]
  · exact absurd ⟨rfl, rfl⟩ (hno p hw.lt (by rw [hs]; rfl))
  · rw [hd.wpDirty p hw.lt huses (.inr hs)] at hclean
    cases hclean

theorem clean_step (hd : Coherent c s i) (hh : Holds c s i i') (hw : w < c.ways)
    (hv : ((step c s i).tram.mem a).valid w = true)
    (hclean : ((step c s i).tram.mem a).dirty w = false) :
    (∃ p, Owes c (step c s i) i' a w p) ∨ ∀ b < c.banks, (step c s i).bank b (w, a) =
      (step c s i).mem (wordIn c a (((step c s i).tram.mem a).taddr w) b) := by
  rcases hd.clean_back hv hclean with ⟨hv', hclean', ht, hno⟩ | ⟨hsec, hs, rfl, rfl⟩
  swap
  · exact .inr fun b hb => hd.clean_brought hsec hs hw hb
  rcases hd.clean a w hw hv' hclean' with ⟨p, ho⟩ | hwords
  · refine .inl ⟨p, hd.owes_step hh ho ?_⟩
    by_contra hsec
    exact hno p ho.lt (Bool.of_not_eq_false hsec) ⟨ho.index, ho.way⟩
  by_cases hwrite : ∃ b p, WpWrites c s i b p ∧ entryRow c s i p = (w, a)
  · obtain ⟨b, p, hwp, hrow⟩ := hwrite
    exact .inl ⟨p, hd.owes_of_write hh hwp hrow hclean' hno⟩
  refine .inr fun b hb => ?_
  rw [bank_kept hd.oneWriter ⟨fun p hp hrow => ?_, fun hbif hrow => ?_⟩, hwords b hb, ht]
  · -- memory changes at words of the victim only, and the victim is not here
    rcases hd.mem_step (wordIn c a ((s.tram.mem a).taddr w) b) with
      hmem | ⟨hs, j, ws, -, he, hwb, hdirty, heq⟩
    · exact hmem.symm
    · obtain ⟨ha, -⟩ := hd.entry_names hv'
      have hline := (line_bank_inj hb (hd.busif.cnt (.inr hs)) heq).1
      obtain ⟨htaddr, rfl⟩ := tag_index_inj ha (Nat.mod_lt _ c.sets_pos) hline
      exact absurd htaddr (he.gone (by rw [hs]; rfl) hdirty w hw hv')
  · refine hwrite ⟨b, p, hp, ?_⟩
    rw [← hrow, wpRow, wpOut, WritePort.tagOut_way_of_usesTag
      (WritePort.State.usesTag_of_commits (WritePort.bankWr_spec hp.wr).1), entryRow]
  · have hst := (BusIf.bankWr_spec hbif.wr).1
    obtain ⟨j, ws, hph, he⟩ := hd.phase (by rw [hst]; rfl)
    rw [hph.runs.row, Job.row, way_row he.way, Prod.mk.injEq] at hrow
    rw [← hrow.1, ← hrow.2, he.swapped (by rw [hst]; rfl)] at hv'
    cases hv'

protected theorem step (hd : Coherent c s i) (hh : Holds c s i i') (hc : Cached c i') :
    Coherent c (step c s i) i' where
  toReplaces := hd.toReplaces.step hh hc
  clean _ _ hw hv hclean := hd.clean_step hh hw hv hclean
  wpDirty _ hp hu h := hd.wpDirty_step hh hp hu h
  wpRead _ hp h := hd.wpRead_step hh hp h
  wpData _ hp h hsel := hd.wpData_step hh hp h hsel

end Coherent

theorem IsReset.coherent (h : IsReset c s) (hc : Cached c i) : Coherent c s i where
  toReplaces := h.replaces hc
  clean a w _ hv := by
    rw [(h.tags a w).1] at hv
    cases hv
  wpDirty p hp hu := by
    rw [(h.wp p hp).1] at hu
    cases hu
  wpRead p hp hs := by
    rw [(h.wp p hp).1] at hs
    cases hs
  wpData p hp hs := by
    rw [(h.wp p hp).1] at hs
    cases hs

end Cycle

section Run

variable {c : Config} {s : State} {i : ℕ → Input}

theorem coherent_states (hr : IsReset c s)
    (hh : ∀ t, Holds c (states c s i t) (i t) (i (t + 1))) (hc : ∀ t, Cached c (i t)) (t : ℕ) :
    Coherent c (states c s i t) (i t) :=
  Lib.run_invariant_input (Coherent c) (fun s a b => Holds c s a b ∧ Cached c b)
    (hr.coherent (hc 0)) (fun _ _ _ h hd => hd.step h.1 h.2) (fun t => ⟨hh t, hc (t + 1)⟩) t

end Run

end ParaNut.Memu
