import ParaNut.Memu.Refill

/-!
# The exchange of a line

While the BusIf replaces a line, the victim is in its way until the tag is
invalidated, and nowhere in the cache from then on; the new line is nowhere in
the cache until its tag is written.
-/

namespace ParaNut.Memu

-- ---------------------------------------------------------------------------
-- The BusIf
-- ---------------------------------------------------------------------------

namespace BusIf

/-- The states in which the victim is in its way. -/
def State.holdsVictim : State → Bool
  | .cacheReplaceReadIdata | .cacheReadDirtyBanks | .cacheReplaceInvalidateTag => true
  | _ => false

/-- The states in which the way is not valid. -/
def State.exchanges : State → Bool
  | .cacheReplaceWriteBanks | .cacheWriteTag => true
  | _ => false

/-- The states in which a dirty victim is in the BusIf alone, or partly in memory. -/
def State.carriesVictim : State → Bool
  | .cacheReplaceWriteBanks | .cacheWriteTag | .cacheWriteBackVictim => true
  | _ => false

def State.fills (st : State) : Bool := st.holdsVictim || st.exchanges

variable {c : Config} {r : Registers} {i : In}

/-- The victim is in its way until the tag has been invalidated. -/
theorem holdsVictim_next (hu : r.state.usesTag = true)
    (h : (comb c r i).1.state.holdsVictim = true) : r.state.holdsVictim = true ∧
      ¬ (r.state.writesTag = true ∧ r.cnt = 1 ∧ i.gntTagw = true) := by
  revert hu h
  cases hs : r.state <;> simp only [comb, hs, tagWritten]
  all_goals
    repeat' split
    all_goals simp_all [State.usesTag, State.holdsVictim, State.writesTag]
  all_goals omega

theorem exchanges_next (hw : WellFormed c r) (hop : r.op = .replace) (hu : r.state.usesTag = true)
    (h : (comb c r i).1.state.exchanges = true) :
    r.state = .cacheReplaceInvalidateTag ∧ r.cnt = 1 ∨
      r.state.exchanges = true ∧ ¬ (r.state.writesTag = true ∧ r.cnt = 1 ∧ i.gntTagw = true) := by
  have hc := hw.cnt_tag
  revert hu h
  cases hs : r.state <;> simp only [comb, hs, tagWritten, State.writesTag] at hc ⊢
  all_goals
    repeat' split
    all_goals simp_all [State.usesTag, State.exchanges]
  all_goals omega

theorem carriesVictim_next (hw : WellFormed c r) (hop : r.op = .replace)
    (hu : r.state.usesTag = true) (h : (comb c r i).1.state.carriesVictim = true) :
    r.state = .cacheReplaceInvalidateTag ∧ r.cnt = 1 ∨ r.state.carriesVictim = true := by
  have hc := hw.cnt_tag
  revert hu h
  cases hs : r.state <;> simp only [comb, hs, tagWritten, State.writesTag] at hc ⊢
  all_goals
    repeat' split
    all_goals simp_all [State.usesTag, State.carriesVictim]
  all_goals omega

theorem State.hasTag_of_usesTag {st : State} (h : st.usesTag = true) : st.hasTag = true := by
  cases st <;> simp_all [State.hasTag, State.usesTag]

end BusIf

theorem TagRam.tagOut_way_lt {c : Config} {r : Registers} {p : ℕ} :
    (tagOut c r p).way < c.ways := by
  cases hf : findWay c (r.rdata p) (r.taddr p) with
  | none => simp only [tagOut, hf, Option.getD_none, victimWay_lt]
  | some w => simp only [tagOut, hf, Option.getD_some, (findWay_some hf).1]

-- ---------------------------------------------------------------------------
-- The exchange
-- ---------------------------------------------------------------------------

section Statement

variable (c : Config) (j : Job) (s : State)

/-- The victim of the job is in its way. -/
structure Job.Held : Prop where
  old : j.Old c s
  entry : (s.tram.mem (j.index c)).dirty j.tag.way = j.tag.dirty ∧
    (s.tram.mem (j.index c)).taddr j.tag.way = j.tag.taddr
  valid : j.tag.dirty = true → (s.tram.mem (j.index c)).valid j.tag.way = true

/-- What is in the cache while the job is done. -/
structure Exchange : Prop where
  way : j.tag.way < c.ways
  absent : s.busif.state.fills = true → Absent c s s.busif.adr
  held : s.busif.state.holdsVictim = true → j.Held c s
  swapped : s.busif.state.exchanges = true → (s.tram.mem (j.index c)).valid j.tag.way = false
  gone : s.busif.state.carriesVictim = true → j.tag.dirty = true → ∀ w < c.ways,
    (s.tram.mem (j.index c)).valid w = true → (s.tram.mem (j.index c)).taddr w ≠ j.tag.taddr

/-- The replacement that the BusIf is at, if any. -/
structure Replaces (i : Input) : Prop extends Refills c s i where
  begun : s.busif.state.begins = true → ∃ adr mem, Requested c adr mem s
  phase : s.busif.state.usesTag = true → ∃ j ws, Phase c j s ws ∧ Exchange c j s

end Statement

section Cycle

variable {c : Config} {j : Job} {s : State} {i i' : Input} {w : ℕ}

/-- Nobody but the BusIf writes the tags of its index. -/
theorem Refills.fields_busif_index (hd : Refills c s i) (hb : s.busif.state.hasTag = true)
    (hsec : ¬ BifSecond s) (w : ℕ) :
    ((step c s i).tram.mem (indexOf c s.busif.adr)).fields w =
      (s.tram.mem (indexOf c s.busif.adr)).fields w := by
  refine hd.fields_kept (fun p hp hs heq => ?_) fun hs => absurd hs hsec
  exact hd.toReplaceLock.secondTagWrite_index hb
    (hd.op_of_working (BusIf.State.hasTag_working hb)) hp hs heq.1

/-- A tag write that is in its second cycle is done in this one. -/
theorem TagCycle.second_granted (hd : TagCycle c s i)
    (h : ¬ (s.busif.state.writesTag = true ∧ s.busif.cnt = 1 ∧
      (bifIn c s i (grants c s i)).gntTagw = true)) : ¬ BifSecond s :=
  fun hs => h ⟨hs.1, hs.2, hd.bifTagw_kept hs⟩

/-- What is written when the victim's tag is invalidated. -/
theorem Runs.invalidated (hr : Runs c j s) (hd : TagCycle c s i)
    (hs : s.busif.state = .cacheReplaceInvalidateTag) (hc : s.busif.cnt = 1) :
    ((step c s i).tram.mem (j.index c)).valid j.tag.way = false := by
  have hf := hd.fields_busif ⟨by rw [hs]; rfl, hc⟩
  rw [hr.index, hr.tag] at hf
  simp only [TagRam.Entry.fields, Prod.mk.injEq] at hf
  rw [hf.1]
  simp [bifo, BusIf.comb, hs]

theorem Phase.readsIdata_of {ws : List (TWord × TByteSel × TWord)} (h : Phase c j s ws)
    (hs : s.busif.state = .cacheReplaceReadIdata) : ReadsIdata c j s := by
  cases h with
  | readsIdata h => exact h
  | readsDirtyBanks h | invalidatesTag h | writesBanks h | writesTag h | done h =>
    have := h.state
    rw [hs] at this
    cases this
  | writesBackVictim h =>
    have := h.state
    rw [hs] at this
    cases this

namespace Exchange

variable (he : Exchange c j s) (hr : Runs c j s) (hd : Refills c s i)
  (hu : s.busif.state.usesTag = true)
include he hd hu

theorem absent_step (hf : (step c s i).busif.state.fills = true) :
    Absent c (step c s i) (step c s i).busif.adr := by
  have hop := hd.op_of_working (BusIf.State.usesTag_working hu)
  have hline := (BusIf.usesTag_kept (c := c) (i := bifIn c s i (grants c s i)) hd.busif hu).2.2
  have hfrom : s.busif.state.fills = true ∧ (BifSecond s → s.busif.state ≠ .cacheWriteTag) := by
    rw [BusIf.State.fills, Bool.or_eq_true] at hf
    rcases hf with hf | hf
    · obtain ⟨hv, hno⟩ := BusIf.holdsVictim_next hu hf
      exact ⟨by rw [BusIf.State.fills, hv, Bool.true_or],
        fun hs => absurd hs (hd.second_granted hno)⟩
    · rcases BusIf.exchanges_next hd.busif hop hu hf with ⟨hs, -⟩ | ⟨hx, hno⟩
      · rw [hs]
        exact ⟨rfl, fun _ => nofun⟩
      · exact ⟨by rw [BusIf.State.fills, hx, Bool.or_true],
          fun hs => absurd hs (hd.second_granted hno)⟩
  exact (hd.absent_step (he.absent hfrom.1) hfrom.2).congr hline

include hr

theorem held_step (hf : (step c s i).busif.state.holdsVictim = true) :
    j.Held c (step c s i) := by
  obtain ⟨hv, hno⟩ := BusIf.holdsVictim_next hu hf
  obtain ⟨hold, hentry, hvalid⟩ := he.held hv
  have hkept := hd.fields_busif_index (BusIf.State.hasTag_of_usesTag hu) (hd.second_granted hno)
    j.tag.way
  rw [hr.index] at hkept
  simp only [TagRam.Entry.fields, Prod.mk.injEq] at hkept
  refine ⟨fun b hb => ?_, ⟨hkept.2.1.trans hentry.1, hkept.2.2.trans hentry.2⟩,
    fun hdirty => hkept.1.trans (hvalid hdirty)⟩
  rw [hr.bank_kept hd.toOrderly hu (Runs.not_bifWrites fun hs => ?_), hold b hb]
  rw [hs] at hv
  cases hv

theorem swapped_step (hf : (step c s i).busif.state.exchanges = true) :
    ((step c s i).tram.mem (j.index c)).valid j.tag.way = false := by
  have hop := hd.op_of_working (BusIf.State.usesTag_working hu)
  rcases BusIf.exchanges_next hd.busif hop hu hf with ⟨hs, hc⟩ | ⟨hx, hno⟩
  · exact hr.invalidated hd.toTagCycle hs hc
  · have hkept := hd.fields_busif_index (BusIf.State.hasTag_of_usesTag hu)
      (hd.second_granted hno) j.tag.way
    rw [hr.index] at hkept
    simp only [TagRam.Entry.fields, Prod.mk.injEq] at hkept
    exact hkept.1.trans (he.swapped hx)

theorem gone_step (hf : (step c s i).busif.state.carriesVictim = true)
    (hdirty : j.tag.dirty = true) (hw : w < c.ways)
    (hv : ((step c s i).tram.mem (j.index c)).valid w = true) :
    ((step c s i).tram.mem (j.index c)).taddr w ≠ j.tag.taddr := by
  have hop := hd.op_of_working (BusIf.State.usesTag_working hu)
  intro ht
  rcases BusIf.carriesVictim_next hd.busif hop hu hf with ⟨hs, hc⟩ | hcarry
  · -- the way of the victim is not valid any more, and the victim was in no other
    have hheld := he.held (by rw [hs]; rfl)
    have hback := hd.entry_back hv
    rw [hs] at hback
    obtain ⟨hv', ht'⟩ := hback.resolve_right fun hno => BusIf.State.noConfusion hno.2.1
    have heq := hd.oneWay _ _ w j.tag.way (.ram hw hv' (ht'.symm.trans ht))
      (.ram he.way (hheld.valid hdirty) hheld.entry.2)
    rw [heq, hr.invalidated hd.toTagCycle hs hc] at hv
    cases hv
  · rcases hd.entry_back hv with ⟨hv', ht'⟩ | ⟨hsec, hs, -, hway⟩
    · exact he.gone hcarry hdirty w hw hv' (ht'.symm.trans ht)
    · -- what is brought in is another line
      have hfields := hd.fields_busif hsec
      rw [hr.index, hway] at hfields
      simp only [TagRam.Entry.fields, Prod.mk.injEq] at hfields
      have htag : (bifo c s Lines.none).tagOut.taddr = tagOf c s.busif.adr := by
        simp [bifo, BusIf.comb, hs, BusIf.newTag]
      refine (hr.other hdirty).2 ?_
      rw [← ht, hfields.2.2, htag, ← hr.index, tag_add_index, hr.line]

protected theorem step : Exchange c j (step c s i) where
  way := he.way
  absent := he.absent_step hd hu
  held := he.held_step hr hd hu
  swapped := he.swapped_step hr hd hu
  gone hf hdirty _ hw hv := he.gone_step hr hd hu hf hdirty hw hv

end Exchange

namespace Replaces

theorem begun_step (hd : Replaces c s i) (h : (step c s i).busif.state.begins = true) :
    ∃ adr mem, Requested c adr mem (step c s i) := by
  rcases BusIf.begins_cases h with ⟨hs, -⟩ | ⟨hs, hop, -⟩
  · obtain ⟨adr, mem, hreq⟩ := hd.begun hs
    refine ⟨adr, mem, hreq.step fun hs' => ?_⟩
    have huses := BusIf.State.begins_usesTag h
    rw [busif_step] at huses h
    simp only [BusIf.comb, hs', hd.op (by rw [hs']; decide)] at h
    cases h
  · exact ⟨_, _, requested_of_op hs (hd.busifOp.resolve_left hop)⟩

/-- The tag that is found is that of the victim, in its way. -/
theorem held_of_found (hd : Replaces c s i) {adr : TWord} {mem : ℕ → TWord}
    (hreq : Requested c adr mem s) (hs : s.busif.state = .cacheReadTag) :
    (jobOf c s adr).Held c (step c s i) := by
  have hindex : (jobOf c s adr).index c = indexOf c s.busif.adr := indexOf_congr hreq.line.symm
  have hkept := hd.fields_busif_index (by rw [hs]; rfl) (fun hsec => by
    have := hsec.1
    rw [hs] at this
    cases this) (foundTag c s).way
  rw [← hd.found_rdata hs] at hkept
  simp only [TagRam.Entry.fields, Prod.mk.injEq, ← hindex] at hkept
  refine ⟨?_, ⟨hkept.2.1, hkept.2.2⟩, fun hdirty => hkept.1.trans ?_⟩
  · have habsent := (hd.absent (by rw [hs]; rfl)).congr hreq.line.symm
    refine ((hreq.found hd.toOrderly hs habsent).readsIdata_of ?_).old
    simp [busif_step, BusIf.comb, hs, hreq.op]
  · have hvalid := hd.dirtyValid (indexOf c s.busif.adr) (foundTag c s).way
    rw [← hd.found_rdata hs] at hvalid
    refine (hvalid hdirty).resolve_right fun hno => ?_
    rw [hs] at hno
    cases hno.1

theorem phase_step (hd : Replaces c s i) (h : (step c s i).busif.state.usesTag = true) :
    ∃ j ws, Phase c j (step c s i) ws ∧ Exchange c j (step c s i) := by
  rcases (BusIf.usesTag_next hd.busif h).2 with ⟨hu, -⟩ | ⟨hs, -⟩
  swap
  · obtain ⟨adr, mem, hreq⟩ := hd.begun (by rw [hs]; rfl)
    have habsent := hd.absent (by rw [hs]; rfl)
    have hstate : (step c s i).busif.state = .cacheReplaceReadIdata := by
      rw [busif_step]
      simp [BusIf.comb, hs, hreq.op]
    refine ⟨_, _, hreq.found hd.toOrderly hs (habsent.congr hreq.line.symm),
      ⟨TagRam.tagOut_way_lt, fun _ => ?_, fun _ => hd.held_of_found hreq hs, ?_, ?_⟩⟩
    · have hadr := hd.absent_step habsent (by rw [hs]; exact fun _ => by decide)
      refine hadr.congr ?_
      rw [busif_step]
      simp [BusIf.comb, hs]
    · rw [hstate]
      exact fun h => absurd h (by decide)
    · rw [hstate]
      exact fun h => absurd h (by decide)
  · obtain ⟨j, ws, hp, he⟩ := hd.phase hu
    refine ⟨j, _, hp.step hd.toOrderly fun hs => ?_, he.step hp.runs hd.toRefills hu⟩
    rw [hs] at hu
    cases hu

protected theorem step (hd : Replaces c s i) (hh : Holds c s i i') (hc : Cached c i') :
    Replaces c (step c s i) i' where
  toRefills := hd.toRefills.step hh hc
  begun := hd.begun_step
  phase := hd.phase_step

end Replaces

theorem IsReset.replaces (h : IsReset c s) (hc : Cached c i) : Replaces c s i where
  toRefills := h.refills hc
  begun hs := by
    rw [h.busif.1] at hs
    cases hs
  phase hs := by
    rw [h.busif.1] at hs
    cases hs

end Cycle

end ParaNut.Memu
