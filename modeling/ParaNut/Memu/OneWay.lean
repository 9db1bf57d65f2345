import ParaNut.Memu.Replacement

/-!
# A line is in one way

A tag is in its set, or on its way there: a write port repeats one it has
read, the BusIf writes that of its line. A line that the BusIf brings in has
been looked for, and nobody else holds its tag by then. So no two ways of a
set hold the same tag, whatever the ports are asked for.
-/

namespace ParaNut.Memu

namespace TagRam

variable {c : Config} {r : Registers} {p : ℕ}

/-- "same data stored in two ways" is not reported for port `p`. -/
def NotInTwoWays (c : Config) (r : Registers) (p : ℕ) : Prop :=
  ∀ w < c.ways, ∀ w' < c.ways, (r.rdata p).valid w = true → (r.rdata p).valid w' = true →
    (r.rdata p).taddr w = r.taddr p → (r.rdata p).taddr w' = r.taddr p → w = w'

/-- "multiple tag write signals asserted" is not reported. -/
def OneWrite (c : Config) (i : In) : Prop :=
  ∀ n < c.cores, ∀ n' < c.cores, i.wr n = true → i.wr n' = true → n = n'

theorem findWay_some {e : Entry} {t w : ℕ} (h : findWay c e t = some w) :
    w < c.ways ∧ e.valid w = true ∧ e.taddr w = t := by
  have hmem := List.mem_of_find?_eq_some h
  have hw := List.find?_some h
  rw [List.mem_reverse, List.mem_range] at hmem
  rw [Bool.and_eq_true, beq_iff_eq] at hw
  exact ⟨hmem, hw⟩

theorem findWay_none {e : Entry} {t w : ℕ} (h : findWay c e t = none) (hw : w < c.ways)
    (hv : e.valid w = true) : e.taddr w ≠ t := by
  intro ht
  rw [findWay, List.find?_eq_none] at h
  refine h w (List.mem_reverse.mpr (List.mem_range.mpr hw)) ?_
  rw [hv, ht, beq_self_eq_true, Bool.and_self]

/-- A hit gives a way of the set that was read, with the tag that was asked for. -/
theorem tagOut_hit (h : (tagOut c r p).valid = true) :
    (tagOut c r p).way < c.ways ∧ (r.rdata p).valid (tagOut c r p).way = true ∧
      (r.rdata p).taddr (tagOut c r p).way = r.taddr p := by
  obtain ⟨w, hf⟩ := Option.isSome_iff_exists.mp (show (findWay c (r.rdata p) _).isSome from h)
  have hway : (tagOut c r p).way = w := by
    show (findWay c (r.rdata p) (r.taddr p)).getD _ = w
    rw [hf]
    rfl
  rw [hway]
  exact findWay_some hf

theorem tagOut_miss (h : (tagOut c r p).valid = false) {w : ℕ} (hw : w < c.ways)
    (hv : (r.rdata p).valid w = true) : (r.rdata p).taddr w ≠ r.taddr p := by
  refine findWay_none ?_ hw hv
  rw [← Option.isNone_iff_eq_none, ← Option.isSome_eq_false_iff]
  exact h

end TagRam

section Statement

variable (c : Config) (s : State) (i : Input)

/-- Way `w` of set `a` holds the tag `t`, or is to hold it. -/
inductive HoldsTag (a t w : ℕ) : Prop
  | ram : w < c.ways → (s.tram.mem a).valid w = true → (s.tram.mem a).taddr w = t → HoldsTag a t w
  | wp (p : ℕ) : p < c.wports → (s.wp p).state.usesTag = true → indexOf c (i.wpi p).portAdr = a →
    (s.wp p).tag.taddr = t → (s.wp p).tag.way = w → HoldsTag a t w
  | busif : s.busif.state.usesTag = true → (BusIf.newTag c s.busif).valid = true →
    indexOf c s.busif.adr = a → tagOf c s.busif.adr = t → s.busif.tag.way = w → HoldsTag a t w

/-- The BusIf is about to bring the tag `t` to way `w`. -/
structure Brings (a t w : ℕ) : Prop where
  state : s.busif.state = .cacheReadTag
  op : s.busif.op = .replace
  miss : (foundTag c s).valid = false
  index : indexOf c s.busif.adr = a
  taddr : tagOf c s.busif.adr = t
  way : (foundTag c s).way = w

structure OneWay : Prop extends Orderly c s i where
  oneWay : ∀ a t w w', HoldsTag c s i a t w → HoldsTag c s i a t w' → w = w'

end Statement

-- ---------------------------------------------------------------------------
-- Units
-- ---------------------------------------------------------------------------

namespace BusIf

variable {c : Config} {r : Registers} {i : In}

/-- The tag is latched with the operation that goes on. -/
theorem readTag_usesTag (hs : r.state = .cacheReadTag) :
    (comb c r i).1.op = r.op ∧ (comb c r i).1.tag = i.tagIn := by
  simp [comb, hs]

theorem newTag_congr {r' : Registers} (ho : r'.op = r.op) (ht : r'.tag = r.tag) :
    (newTag c r').valid = (newTag c r).valid := by
  simp only [newTag, ho, ht]

/-- A tag is written as valid for a replacement, or where it has been found. -/
theorem newTag_valid (h : (newTag c r).valid = true) :
    r.op = .replace ∨ r.tag.valid = true := by
  revert h
  cases hop : r.op <;> simp [newTag, hop]

theorem tagOut_valid (hs : r.state.writesTag = true) (hv : (comb c r i).2.tagOut.valid = true) :
    (newTag c r).valid = true ∧ (comb c r i).2.tagOut = newTag c r := by
  revert hs hv
  cases hs : r.state <;> simp [comb, hs, State.writesTag]

theorem State.usesTag_of_writesTag {st : State} (h : st.writesTag = true) : st.usesTag = true := by
  cases st <;> simp_all [State.usesTag, State.writesTag]

end BusIf

theorem WritePort.State.usesTag_cases {st : WritePort.State} (h : st.usesTag = true) :
    st = .writeTag2 ∨ st.writeLocked = true ∧ st.replaces = false := by
  cases st <;> simp_all [WritePort.State.usesTag, State.writeLocked, State.replaces]

-- ---------------------------------------------------------------------------
-- One step
-- ---------------------------------------------------------------------------

section Cycle

variable {c : Config} {s : State} {i i' : Input} {a t w w' p : ℕ}

/-- While the BusIf replaces a line, no write port uses a tag of that set. -/
theorem ReplaceLock.usesTag_index (hd : ReplaceLock c s i) (hb : s.busif.state.hasTag = true)
    (hop : s.busif.op = .replace) (hp : p < c.wports) (hs : (s.wp p).state.usesTag = true) :
    indexOf c (i.wpi p).portAdr ≠ indexOf c s.busif.adr := by
  rcases WritePort.State.usesTag_cases hs with hs | ⟨hlk, hno⟩
  · exact hd.second hb hop p hp hs
  · intro hidx
    rw [hd.replaces_of_index (BusIf.State.hasTag_working hb) hop hp hlk hidx] at hno
    cases hno

namespace Orderly

theorem found_rdata (hd : Orderly c s i) (hs : s.busif.state = .cacheReadTag) :
    s.tram.rdata (c.cores - 1) = s.tram.mem (indexOf c s.busif.adr) := by
  rw [hd.consistent.rdata, (hd.bifArrives hs).1]

/-- A tag that is found is in the RAM. -/
theorem ram_of_found (hd : Orderly c s i) (hs : s.busif.state = .cacheReadTag)
    (hv : (foundTag c s).valid = true) :
    HoldsTag c s i (indexOf c s.busif.adr) (tagOf c s.busif.adr) (foundTag c s).way := by
  obtain ⟨hlt, hvalid, htaddr⟩ := TagRam.tagOut_hit hv
  rw [hd.found_rdata hs] at hvalid htaddr
  exact .ram hlt hvalid (htaddr.trans (hd.bifArrives hs).2)

theorem ram_of_arrives (hd : Orderly c s i) (hp : p < c.wports)
    (hs : (s.wp p).state.tagArrives = true) (hv : (TagRam.tagOut c s.tram p).valid = true) :
    HoldsTag c s i (indexOf c (i.wpi p).portAdr) (TagRam.tagOut c s.tram p).taddr
      (TagRam.tagOut c s.tram p).way := by
  obtain ⟨hlt, hvalid, htaddr⟩ := TagRam.tagOut_hit hv
  rw [hd.consistent.rdata, hd.arrives p hp hs] at hvalid htaddr
  exact .ram hlt hvalid (htaddr.trans (TagRam.taddr_of_hit hv).symm)

/-- A valid tag in the RAM has been there, or was written by one that held it. -/
theorem holdsTag_ram_step (hd : Orderly c s i) (hw : w < c.ways)
    (hv : ((step c s i).tram.mem a).valid w = true) (ht : ((step c s i).tram.mem a).taddr w = t) :
    HoldsTag c s i a t w := by
  by_cases hb : BifSecond s ∧ indexOf c s.busif.adr = a ∧ s.busif.tag.way = w
  · obtain ⟨hsec, rfl, rfl⟩ := hb
    have hf := hd.fields_busif hsec
    simp only [TagRam.Entry.fields, Prod.mk.injEq] at hf
    rw [hf.1] at hv
    rw [hf.2.2] at ht
    obtain ⟨hnew, htag⟩ := BusIf.tagOut_valid hsec.1 hv
    rw [show (bifo c s Lines.none).tagOut = _ from htag] at ht
    exact .busif (BusIf.State.usesTag_of_writesTag hsec.1) hnew rfl ht rfl
  by_cases hp : ∃ p < c.wports, (s.wp p).state.secondTagWrite = true ∧
      indexOf c (i.wpi p).portAdr = a ∧ (s.wp p).tag.way = w
  · obtain ⟨p, hlt, hsec, rfl, rfl⟩ := hp
    have hf := hd.fields_wp hlt hsec
    simp only [TagRam.Entry.fields, Prod.mk.injEq] at hf
    exact .wp p hlt (WritePort.State.usesTag_of_second hsec) rfl (hf.2.2.symm.trans ht) rfl
  have hf := hd.fields_kept (a := a) (w := w) (fun p hlt hsec heq => hp ⟨p, hlt, hsec, heq⟩)
    fun hsec heq => hb ⟨hsec, heq⟩
  simp only [TagRam.Entry.fields, Prod.mk.injEq] at hf
  exact .ram hw (hf.1.symm.trans hv) (hf.2.2.symm.trans ht)

/-- The BusIf keeps its tag, has found it, or brings it in. -/
theorem holdsTag_busif_step (hd : Orderly c s i)
    (hu : (step c s i).busif.state.usesTag = true)
    (hnew : (BusIf.newTag c (step c s i).busif).valid = true)
    (hindex : indexOf c (step c s i).busif.adr = a) (htaddr : tagOf c (step c s i).busif.adr = t)
    (hway : (step c s i).busif.tag.way = w) : HoldsTag c s i a t w ∨ Brings c s a t w := by
  obtain ⟨hline, ⟨hu', htag⟩ | ⟨hs, htag⟩⟩ := BusIf.usesTag_next (c := c)
    (i := bifIn c s i (grants c s i)) hd.busif hu
  · have hkept := BusIf.usesTag_kept (c := c) (i := bifIn c s i (grants c s i)) hd.busif hu'
    rw [busif_step, BusIf.newTag_congr hkept.1 htag] at hnew
    refine .inl (.busif hu' hnew ?_ ?_ ?_)
    · rw [← hindex]
      exact (indexOf_congr hline).symm
    · rw [← htaddr]
      exact (tagOf_congr hline).symm
    · rw [← hway]
      exact (congrArg CacheTag.way htag).symm
  · have hidx : indexOf c s.busif.adr = a := (indexOf_congr hline).symm.trans hindex
    have htad : tagOf c s.busif.adr = t := (tagOf_congr hline).symm.trans htaddr
    have hw : (foundTag c s).way = w := (congrArg CacheTag.way htag).symm.trans hway
    cases hv : (foundTag c s).valid with
    | true =>
      refine .inl ?_
      have hfound := hd.ram_of_found hs hv
      rwa [hidx, htad, hw] at hfound
    | false =>
      refine .inr ⟨hs, ?_, hv, hidx, htad, hw⟩
      rcases BusIf.newTag_valid hnew with hop | hval
      · exact (BusIf.readTag_usesTag (c := c) (i := bifIn c s i (grants c s i)) hs).1.symm.trans hop
      · have hval' : (foundTag c s).valid = true := (congrArg CacheTag.valid htag).symm.trans hval
        rw [hv] at hval'
        cases hval'

/-- Whoever holds a tag has held it, but for a line that is brought in. -/
theorem holdsTag_step (hd : Orderly c s i) (hh : Holds c s i i')
    (h : HoldsTag c (step c s i) i' a t w) : HoldsTag c s i a t w ∨ Brings c s a t w := by
  cases h with
  | ram hw hv ht => exact .inl (hd.holdsTag_ram_step hw hv ht)
  | wp p hp hu hindex htaddr hway =>
    have hne : ((step c s i).wp p).state ≠ .init := by
      intro hs
      rw [hs] at hu
      cases hu
    rw [(hd.held hh hp hne).2] at hindex
    rcases WritePort.usesTag_next hu with ⟨hu', ht⟩ | ⟨ha, hv, ht⟩ <;>
      rw [show ((step c s i).wp p).tag = _ from ht] at htaddr hway
    · exact .inl (.wp p hp hu' hindex htaddr hway)
    · have hram := hd.ram_of_arrives hp ha hv
      rw [hindex] at hram
      refine .inl ?_
      rw [← htaddr, ← hway]
      exact hram
  | busif hu hnew hindex htaddr hway =>
    exact hd.holdsTag_busif_step hu hnew hindex htaddr hway

end Orderly

/-- Nobody holds the tag of a line that is brought in. -/
theorem Brings.alone (hb : Brings c s a t w) (hd : Orderly c s i) : ¬ HoldsTag c s i a t w' := by
  intro h
  cases h with
  | ram hw hv ht =>
    have hmiss := TagRam.tagOut_miss hb.miss hw
    rw [hd.found_rdata hb.state, hb.index, (hd.bifArrives hb.state).2, hb.taddr] at hmiss
    exact hmiss hv ht
  | wp p hp hu hindex =>
    refine hd.toReplaceLock.usesTag_index ?_ hb.op hp hu (hindex.trans hb.index.symm)
    rw [hb.state]
    rfl
  | busif hu =>
    rw [hb.state] at hu
    cases hu

namespace OneWay

protected theorem step (hd : OneWay c s i) (hh : Holds c s i i') : OneWay c (step c s i) i' where
  toOrderly := hd.toOrderly.step hh
  oneWay a t w w' h h' := by
    rcases hd.holdsTag_step hh h with h | hb <;> rcases hd.holdsTag_step hh h' with h' | hb'
    · exact hd.oneWay a t w w' h h'
    · exact absurd h (hb'.alone hd.toOrderly)
    · exact absurd h' (hb.alone hd.toOrderly)
    · exact hb.way.symm.trans hb'.way

theorem notInTwoWays (hd : OneWay c s i) (p : ℕ) : TagRam.NotInTwoWays c s.tram p := by
  intro w hw w' hw' hv hv' ht ht'
  rw [hd.consistent.rdata] at hv hv' ht ht'
  exact hd.oneWay _ _ w w' (.ram hw hv ht) (.ram hw' hv' ht')

end OneWay

theorem Locks.oneWrite (hd : Locks c s i) :
    TagRam.OneWrite c (tagRamIn c s i (grants c s i)) := by
  intro n hn n' hn' hwr hwr'
  have hx := exclusive_grants hd.exclusive
  have hlt : ∀ m < c.cores, m ≤ c.wports ∧ m ≠ c.wports := fun m hm => ⟨hm.le, hm.ne⟩
  rcases hd.tagWr_cases hn hwr with hb | hw <;> rcases hd.tagWr_cases hn' hwr' with hb' | hw'
  · exact hb.last.trans hb'.last.symm
  · exact absurd (hx.tagw _ (Nat.le_refl _) _ (hlt n' hn').1 hb.granted hw'.granted).symm
      (hlt n' hn').2
  · exact absurd (hx.tagw _ (hlt n hn).1 _ (Nat.le_refl _) hw.granted hb'.granted) (hlt n hn).2
  · exact hx.tagw _ (hlt n hn).1 _ (hlt n' hn').1 hw.granted hw'.granted

theorem IsReset.oneWay (h : IsReset c s) : OneWay c s i where
  toOrderly := h.orderly
  oneWay a t w w' hheld := by
    cases hheld with
    | ram _ hv =>
      rw [(h.tags a w).1] at hv
      cases hv
    | wp p hp hu =>
      rw [(h.wp p hp).1] at hu
      cases hu
    | busif hu =>
      rw [h.busif.1] at hu
      cases hu

end Cycle

section Run

variable {c : Config} {s : State} {i : ℕ → Input}

theorem oneWay_states (hr : IsReset c s)
    (hh : ∀ t, Holds c (states c s i t) (i t) (i (t + 1))) (t : ℕ) :
    OneWay c (states c s i t) (i t) :=
  Lib.run_invariant_input (OneWay c) (Holds c) hr.oneWay (fun _ _ _ h hd => hd.step h) hh t

/-- In every run the assertions of the tag RAM hold, no set holds a tag in two ways, and a way that
is marked as dirty is valid unless it is the one a replacement is exchanging. -/
theorem tags_consistent (hr : IsReset c s)
    (hh : ∀ t, Holds c (states c s i t) (i t) (i (t + 1))) (t : ℕ) :
    (∀ p, TagRam.NotInTwoWays c (states c s i t).tram p) ∧
      TagRam.OneWrite c (tagRamIn c (states c s i t) (i t) (grants c (states c s i t) (i t))) ∧
      (∀ a, ∀ w < c.ways, ∀ w' < c.ways, ((states c s i t).tram.mem a).valid w = true →
        ((states c s i t).tram.mem a).valid w' = true →
        ((states c s i t).tram.mem a).taddr w = ((states c s i t).tram.mem a).taddr w' → w = w') ∧
      ∀ a w, ((states c s i t).tram.mem a).dirty w = true →
        ((states c s i t).tram.mem a).valid w = true ∨
          (states c s i t).busif.state.replacesTag = true ∧ (states c s i t).busif.op = .replace ∧
            indexOf c (states c s i t).busif.adr = a ∧ (states c s i t).busif.tag.way = w := by
  have hd := oneWay_states hr hh t
  exact ⟨hd.notInTwoWays, hd.oneWrite,
    fun a w hw w' hw' hv hv' ht => hd.oneWay a _ w w' (.ram hw hv ht) (.ram hw' hv' rfl),
    hd.dirtyValid⟩

/-- The line of a read is there, once. -/
theorem tags_consistent_oneRead :
    ((states oneCore quiet oneRead 17).tram.mem 0).valid 0 = true ∧
      TagRam.NotInTwoWays oneCore (states oneCore quiet oneRead 17).tram 0 :=
  ⟨by decide +kernel, (tags_consistent quiet_isReset_oneCore oneRead_holds 17).1 0⟩

end Run

end ParaNut.Memu
