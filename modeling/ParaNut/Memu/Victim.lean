import ParaNut.Memu.Replace

/-!
# The victim of a replacement

A tag that is dirty is valid, but for the one that is being replaced. So a
dirty victim is another line than the one that is brought in.
-/

namespace ParaNut.Memu

namespace TagRam

variable {c : Config} {r : Registers} {p : ℕ}

theorem victimWay_lt (e : Entry) : victimWay c r e < c.ways := by
  unfold victimWay
  split
  · rename_i h
    rw [h]
    exact Nat.one_pos
  · split
    · exact Nat.mod_lt _ c.ways_pos
    · exact Nat.mod_lt _ c.ways_pos

/-- On a miss the tag that is read out is that of another line, or not valid. -/
theorem taddr_of_miss (h : (tagOut c r p).valid = false)
    (hv : (r.rdata p).valid (tagOut c r p).way = true) : (tagOut c r p).taddr ≠ r.taddr p := by
  have hnone : findWay c (r.rdata p) (r.taddr p) = none := by
    rw [← Option.isNone_iff_eq_none, ← Option.isSome_eq_false_iff]
    exact h
  simp only [tagOut, hnone, Option.getD_none] at hv ⊢
  intro heq
  rw [findWay, List.find?_eq_none] at hnone
  have hlt : victimWay c r (r.rdata p) < c.ways := victimWay_lt _
  refine hnone _ (List.mem_reverse.mpr (List.mem_range.mpr hlt)) ?_
  rw [hv, heq, beq_self_eq_true, Bool.and_self]

end TagRam

namespace BusIf

/-- The states of a replacement alone. -/
def State.replaces : State → Bool
  | .cacheReplaceReadIdata | .cacheReplaceInvalidateTag | .cacheReplaceWriteBanks => true
  | _ => false

variable {c : Config} {r : Registers} {i : In}

theorem replaces_next (h : r.state.replaces = true → r.op = .replace)
    (hs' : (comb c r i).1.state.replaces = true) : (comb c r i).1.op = .replace := by
  revert hs'
  cases hs : r.state <;> simp only [hs, State.replaces] at h <;>
    simp only [comb, hs, combIdle, latched, tagWritten]
  all_goals
    repeat' split
    all_goals simp_all [State.replaces]

theorem tagOut_writesTag (hs : r.state.writesTag = true) (hd : (comb c r i).2.tagOut.dirty = true) :
    r.state = .cacheReplaceInvalidateTag := by
  revert hs hd
  cases hs : r.state <;> simp [comb, hs, newTag, State.writesTag]

end BusIf

/-- The memory unit with its tags in order. -/
structure Orderly (c : Config) (s : State) (i : Input) : Prop
    extends ReplaceLock c s i, TagCycle c s i, TagsWithin c (Names c fun _ => True) s i where
  oneWriter : Arbiter.OneWriter c s.arb.gnt
  shows : BusIf.ShowsData c s.busif
  replaces : s.busif.state.replaces = true → s.busif.op = .replace
  wpValid : ∀ p < c.wports, (s.wp p).state.usesTag = true → (s.wp p).tag.valid = true
  dirtyValid : ∀ a w, (s.tram.mem a).dirty w = true → (s.tram.mem a).valid w = true ∨
    s.busif.state.replacesTag = true ∧ s.busif.op = .replace ∧ indexOf c s.busif.adr = a ∧
      s.busif.tag.way = w

variable {c : Config} {s : State} {i i' : Input}

namespace Orderly

theorem wpValid_step (hd : Orderly c s i) {p : ℕ} (hp : p < c.wports)
    (h : ((step c s i).wp p).state.usesTag = true) : ((step c s i).wp p).tag.valid = true := by
  rcases WritePort.usesTag_next h with ⟨hu, ht⟩ | ⟨-, hv, ht⟩
  · rw [show ((step c s i).wp p).tag = _ from ht]
    exact hd.wpValid p hp hu
  · rw [show ((step c s i).wp p).tag = _ from ht]
    exact hv

theorem dirtyValid_step (hd : Orderly c s i) {a w : ℕ}
    (hdirty : ((step c s i).tram.mem a).dirty w = true) :
    ((step c s i).tram.mem a).valid w = true ∨
      (step c s i).busif.state.replacesTag = true ∧ (step c s i).busif.op = .replace ∧
        indexOf c (step c s i).busif.adr = a ∧ (step c s i).busif.tag.way = w := by
  by_cases hb : BifSecond s ∧ indexOf c s.busif.adr = a ∧ s.busif.tag.way = w
  · obtain ⟨hsec, rfl, rfl⟩ := hb
    have hf := hd.fields_busif hsec
    simp only [TagRam.Entry.fields, Prod.mk.injEq] at hf
    rw [hf.2.1] at hdirty
    have hs := BusIf.tagOut_writesTag hsec.1 hdirty
    have hop := hd.replaces (by rw [hs]; rfl)
    obtain ⟨ht', hop', hl', hs' | ⟨hs', -⟩⟩ := BusIf.replacesTag_next (c := c)
      (i := bifIn c s i (grants c s i)) hd.busif (by rw [hs]; rfl)
    · exact .inr ⟨hs', hop'.trans hop, indexOf_congr hl', congrArg CacheTag.way ht'⟩
    · rw [hs] at hs'
      cases hs'
  by_cases hp : ∃ p < c.wports, (s.wp p).state.secondTagWrite = true ∧
      indexOf c (i.wpi p).portAdr = a ∧ (s.wp p).tag.way = w
  · obtain ⟨p, hlt, hsec, rfl, rfl⟩ := hp
    have hf := hd.fields_wp hlt hsec
    simp only [TagRam.Entry.fields, Prod.mk.injEq] at hf
    rw [hf.1]
    exact .inl (hd.wpValid p hlt (WritePort.State.usesTag_of_second hsec))
  have hf := hd.fields_kept (a := a) (w := w) (fun p hlt hsec heq => hp ⟨p, hlt, hsec, heq⟩)
    fun hsec heq => hb ⟨hsec, heq⟩
  simp only [TagRam.Entry.fields, Prod.mk.injEq] at hf
  rw [hf.2.1] at hdirty
  rw [hf.1]
  refine (hd.dirtyValid a w hdirty).imp_right ?_
  rintro ⟨hs, hop, rfl, rfl⟩
  obtain ⟨ht', hop', hl', hs' | ⟨hs', hc, -⟩⟩ := BusIf.replacesTag_next (c := c)
    (i := bifIn c s i (grants c s i)) hd.busif hs
  · exact ⟨hs', hop'.trans hop, indexOf_congr hl', congrArg CacheTag.way ht'⟩
  · exact absurd ⟨⟨by rw [hs']; rfl, hc⟩, rfl, rfl⟩ hb

protected theorem step (hd : Orderly c s i) (hh : Holds c s i i') :
    Orderly c (step c s i) i' :=
  { hd.toReplaceLock.step hh, hd.toTagCycle.step hh,
    hd.toTagsWithin.step hh fun _ _ => ⟨s.busif.adr, trivial, rfl, rfl⟩ with
    oneWriter := oneWriter_step
    shows := hd.shows.next
    replaces := BusIf.replaces_next hd.replaces
    wpValid := fun _ hp => hd.wpValid_step hp
    dirtyValid := fun _ _ => hd.dirtyValid_step }

end Orderly

theorem IsReset.orderly (h : IsReset c s) : Orderly c s i :=
  { h.replaceLock, h.tagCycle, h.tagsWithin (L := Names c fun _ => True) with
    oneWriter := h.oneWriter
    shows := h.showsData
    replaces := fun hs => by
      rw [h.busif.1] at hs
      cases hs
    wpValid := fun p hp hs => by
      rw [(h.wp p hp).1] at hs
      cases hs
    dirtyValid := fun a w hdirty => by
      rw [(h.tags a w).2] at hdirty
      cases hdirty }

theorem orderly_states {i : ℕ → Input} (hr : IsReset c s)
    (hh : ∀ t, Holds c (states c s i t) (i t) (i (t + 1))) (t : ℕ) :
    Orderly c (states c s i t) (i t) :=
  Lib.run_invariant_input (Orderly c) (Holds c) hr.orderly (fun _ _ _ h hd => hd.step h) hh t

/-- The tag of a miss: if it is dirty, it is that of another line. -/
theorem Orderly.victim_other (hd : Orderly c s i) (hs : s.busif.state = .cacheReadTag)
    (hmiss : (TagRam.tagOut c s.tram (c.cores - 1)).valid = false)
    (hdirty : (TagRam.tagOut c s.tram (c.cores - 1)).dirty = true) :
    ∃ adr, tagOf c adr = (TagRam.tagOut c s.tram (c.cores - 1)).taddr ∧
      indexOf c adr = indexOf c s.busif.adr ∧ tagOf c adr ≠ tagOf c s.busif.adr := by
  obtain ⟨hiadr, htadr⟩ := hd.bifArrives hs
  obtain ⟨adr, -, ht, hi⟩ := hd.tram.tagOut (c.cores - 1) (.inr hdirty)
  refine ⟨adr, ht, hi.trans hiadr, ?_⟩
  rw [ht, ← htadr]
  refine TagRam.taddr_of_miss hmiss ?_
  have hmem : (s.tram.mem (s.tram.iaddr (c.cores - 1))).dirty
      (TagRam.tagOut c s.tram (c.cores - 1)).way = true := by
    rw [← hd.consistent.rdata]
    exact hdirty
  rw [hd.consistent.rdata]
  rcases hd.dirtyValid _ _ hmem with hv | ⟨hrep, -⟩
  · exact hv
  · rw [hs] at hrep
    cases hrep

end ParaNut.Memu
