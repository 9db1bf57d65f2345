import ParaNut.Memu.Tags

/-!
# Tag writes of the memory unit

A write port or the BusIf writes a tag in two cycles, with the grant for tag
writes in both. The tag RAM takes the tag over in the second, and no other
tag changes.
-/

namespace ParaNut.Memu

-- ---------------------------------------------------------------------------
-- Units
-- ---------------------------------------------------------------------------

namespace WritePort

variable {c : Config} {r : Registers} {i : In}

theorem tagWr_first (h : (comb c r i).2.tagWr = true) (hs : r.state.secondTagWrite = false) :
    (comb c r i).1.state.secondTagWrite = true ∧ (comb c r i).1.tag = r.tag := by
  revert h hs
  cases hs : r.state <;> simp only [comb, hs, defaults, combInit, snooped_state, snooped_tag]
  all_goals
    repeat' split
    all_goals simp_all [State.secondTagWrite]

end WritePort

namespace BusIf

variable {c : Config} {r r' : Registers} {i i' : In}

theorem tagWr_of_gnt (hs : r.state.writesTag = true) (hg : i.gntTagw = true) :
    (comb c r i).2.tagWr = true := by
  revert hs
  cases hs : r.state <;> simp [comb, hs, defaults, State.writesTag, hg]

theorem reqTagw_of_writesTag (hs : r.state.writesTag = true) :
    (comb c r i).2.reqTagw = true := by
  revert hs
  cases hs : r.state <;> simp [comb, hs, State.writesTag]

theorem writesTag_of_reqTagw (h : (comb c r i).2.reqTagw = true) : r.state.writesTag = true := by
  revert h
  cases hs : r.state <;> simp [comb, hs, defaults, State.writesTag]

theorem tagOut_congr (hs : r'.state = r.state) (ht : r'.tag = r.tag) (ha : r'.adr = r.adr)
    (ho : r'.op = r.op) : (comb c r' i').2.tagOut = (comb c r i).2.tagOut := by
  cases h : r.state <;> simp [comb, hs.trans h, h, defaults, newTag, ht, ha, ho]

theorem tagOut_way : (comb c r i).2.tagOut.way = r.tag.way := by
  cases hs : r.state <;> simp [comb, hs, defaults, newTag]

/-- The BusIf in the first cycle of a tag write. -/
theorem writesTag_first (hw : WellFormed c r) (hs : r.state.writesTag = true)
    (hc : r.cnt ≠ 1) (hg : i.gntTagw = true) :
    (comb c r i).1.state = r.state ∧ (comb c r i).1.cnt = 1 ∧ (comb c r i).1.tag = r.tag ∧
      (comb c r i).1.adr = r.adr ∧ (comb c r i).1.op = r.op := by
  have hzero : r.cnt = 0 := by
    have := hw.cnt_tag hs
    omega
  have hone : 1 % c.banks = 1 := Nat.mod_eq_of_lt c.one_lt_banks
  revert hs
  cases hs : r.state <;> simp [comb, hs, tagWritten, State.writesTag, hg, hzero, hone]

/-- The second cycle of a tag write comes after the first. -/
theorem writesTag_second (hw : WellFormed c r) (hs : (comb c r i).1.state.writesTag = true)
    (hc : (comb c r i).1.cnt = 1) :
    r.state.writesTag = true ∧ (i.gntTagw = true ∧ r.cnt ≠ 1 ∨ i.gntTagw = false ∧ r.cnt = 1) := by
  have hz := hw.cnt_zero
  have ht := hw.cnt_tag
  revert hs hc
  cases hs : r.state <;> simp only [hs, comb, combIdle, latched, tagWritten] at hz ht ⊢
  all_goals
    repeat' split
    all_goals simp_all [State.writesTag]
  all_goals
    intro
    omega

end BusIf

-- ---------------------------------------------------------------------------
-- The memory unit
-- ---------------------------------------------------------------------------

section Statement

variable (c : Config) (s : State) (i : Input)

/-- The BusIf is in the second cycle of a tag write. -/
def BifSecond : Prop := s.busif.state.writesTag = true ∧ s.busif.cnt = 1

/-- The tag RAM has latched the tag write of port `n`. -/
structure Latches (n : ℕ) (adr : TWord) (tag : CacheTag) : Prop where
  wprt : s.tram.wprt = n
  iaddr : s.tram.iaddr n = indexOf c adr
  wtag : s.tram.wtag = tag

/-- The tag RAM is in the second cycle of a tag write exactly when a write port or the BusIf is. -/
structure TagCycle : Prop extends Locks c s i where
  consistent : TagRam.Consistent c s.tram
  latches : s.tram.writeTag = true →
    (∃ p < c.wports, (s.wp p).state.secondTagWrite = true ∧
      Latches c s p (i.wpi p).portAdr { (s.wp p).tag with dirty := true }) ∨
    BifSecond s ∧ Latches c s (c.cores - 1) s.busif.adr (bifo c s Lines.none).tagOut
  first : (∃ p < c.wports, (s.wp p).state.secondTagWrite = true) ∨ BifSecond s →
    s.tram.writeTag = true
  noRead : s.tram.writeTag = true → ∀ p < c.cores, s.tram.readTag p = false
  bifTagw : BifSecond s → s.arb.gnt.tagw c.wports = true

end Statement

variable {c : Config} {s : State} {i i' : Input} {n p a w : ℕ}

theorem writePort_isSome_of_wr {j : TagRam.In} (hn : n < c.cores) (hwr : j.wr n = true) :
    (TagRam.writePort c j).isSome := by
  rw [TagRam.writePort, List.find?_isSome]
  exact ⟨n, by simpa using hn, hwr⟩

/-- No tag is read while one is written. -/
theorem Locks.noRead_of_tagw (hd : Locks c s i) (hn : n ≤ c.wports)
    (hg : (grants c s i).tagw n = true) (hp : p < c.cores) :
    (tagRamIn c s i (grants c s i)).rd p = false := by
  have hno : ∀ m ≤ idxBusif c, (grants c s i).tagr m = false := by
    intro m hm
    by_contra hr
    exact (exclusive_grants hd.exclusive).tagrw m hm n hn (Bool.of_not_eq_false hr) hg
  have hle := Nat.le_of_lt (wp_lt_idx (c := c) (p := p) hp)
  have hrp : ∀ q < c.rports, (rpOut c s i (grants c s i) q).tagRd = false := by
    intro q hq
    by_contra hr
    have hgnt := ReadPort.tagRd_gnt (Bool.of_not_eq_false hr)
    rw [show (rpIn c s i (grants c s i) q).gntTagr = _ from
      hno q (Nat.le_of_lt (rp_lt_idx hq))] at hgnt
    cases hgnt
  have hwp : (wpOut c s i (grants c s i) p).tagRd = false := by
    by_contra hr
    have hgnt := WritePort.tagRd_gnt (Bool.of_not_eq_false hr)
    rw [show (wpIn c s i (grants c s i) p).gntTagr = _ from hno (p + wpOff c) hle] at hgnt
    cases hgnt
  have hbif : (bifo c s (grants c s i)).tagRd = false := by
    by_contra hr
    have hgnt := BusIf.tagRd_gnt (Bool.of_not_eq_false hr)
    exact absurd hgnt (by rw [hno _ (Nat.le_refl _)]; exact Bool.false_ne_true)
  simp only [tagRamIn]
  have h1 : p < c.rports := by
    simp only [Config.rports]
    omega
  have h2 : c.cores + p < c.rports := by
    simp only [Config.rports]
    omega
  rw [hbif, hrp p h1, hrp (c.cores + p) h2, hwp, Bool.and_false]
  rfl

namespace TagCycle

theorem bifTagw_kept (hd : TagCycle c s i) (h : BifSecond s) :
    (grants c s i).tagw c.wports = true := by
  rw [tagw_eq]
  refine Arbiter.gntTagw_kept (hd.bifTagw h) ?_
  simp only [requests, if_pos]
  exact BusIf.reqTagw_of_writesTag h.1

/-- The one that is in its second cycle has the grant. -/
theorem granted_of_writeTag (hd : TagCycle c s i) (hw : s.tram.writeTag = true) :
    (∃ p < c.wports, (s.wp p).state.secondTagWrite = true ∧ (grants c s i).tagw p = true) ∨
      BifSecond s ∧ (grants c s i).tagw c.wports = true := by
  rcases hd.latches hw with ⟨p, hp, hs, -⟩ | ⟨hb, -⟩
  · exact .inl ⟨p, hp, hs, hd.tagw_kept hp hs⟩
  · exact .inr ⟨hb, hd.bifTagw_kept hb⟩

theorem writes (hd : TagCycle c s i) (hw : s.tram.writeTag = true) :
    TagRam.Writes c s.tram (tagRamIn c s i (grants c s i)) where
  held := by
    rcases hd.latches hw with ⟨p, hp, hs, -⟩ | ⟨hb, -⟩
    · refine writePort_isSome_of_wr hp ?_
      have hwr : (wpOut c s i (grants c s i) p).tagWr = true :=
        (WritePort.secondTagWrite_writes hs).2
      simp only [tagRamIn]
      rw [hwr, Bool.or_true]
    · refine writePort_isSome_of_wr (Nat.sub_lt c.cores_pos Nat.one_pos) ?_
      have hwr : (bifo c s (grants c s i)).tagWr = true :=
        BusIf.tagWr_of_gnt hb.1 (hd.bifTagw_kept hb)
      simp only [tagRamIn]
      rw [hwr, beq_self_eq_true, Bool.and_self, Bool.true_or]
  noRead := hd.noRead hw

/-- Nobody is in the second cycle, so the tag write that is granted is in its first. -/
theorem not_second (hd : TagCycle c s i) (hw : s.tram.writeTag = false) :
    (∀ p < c.wports, (s.wp p).state.secondTagWrite = false) ∧ ¬ BifSecond s := by
  constructor
  · intro p hp
    by_contra hs
    rw [hd.first (.inl ⟨p, hp, Bool.of_not_eq_false hs⟩)] at hw
    cases hw
  · intro hb
    rw [hd.first (.inr hb)] at hw
    cases hw

theorem latches_step (hd : TagCycle c s i) (hh : Holds c s i i')
    (hw' : (step c s i).tram.writeTag = true) :
    (∃ p < c.wports, ((step c s i).wp p).state.secondTagWrite = true ∧
      Latches c (step c s i) p (i'.wpi p).portAdr
        { ((step c s i).wp p).tag with dirty := true }) ∨
    BifSecond (step c s i) ∧ Latches c (step c s i) (c.cores - 1) (step c s i).busif.adr
      (bifo c (step c s i) Lines.none).tagOut := by
  have hwt : ((TagRam.writePort c (tagRamIn c s i (grants c s i))).isSome &&
      !s.tram.writeTag) = true := hw'
  rw [Bool.and_eq_true, Bool.not_eq_true'] at hwt
  obtain ⟨hsome, hw⟩ := hwt
  obtain ⟨n, hn⟩ := Option.isSome_iff_exists.mp hsome
  have hmem := List.mem_of_find?_eq_some hn
  rw [List.mem_reverse, List.mem_range] at hmem
  obtain ⟨hnowp, hnobif⟩ := hd.not_second hw
  have hwprt : (step c s i).tram.wprt = n := by
    show (TagRam.writePort c (tagRamIn c s i (grants c s i))).getD _ = n
    rw [hn]
    rfl
  have hwtag : (step c s i).tram.wtag = (tagRamIn c s i (grants c s i)).tagIn n :=
    TagRam.comb_wtag hn
  have hiaddr : (step c s i).tram.iaddr n =
      indexOf c ((tagRamIn c s i (grants c s i)).addr n) := rfl
  rcases hd.tagWr_cases hmem (List.find?_some hn) with hb | hp
  · have hcnt : s.busif.cnt ≠ 1 := fun hcnt => hnobif ⟨hb.state, hcnt⟩
    obtain ⟨hs', hc', ht', ha', ho'⟩ := BusIf.writesTag_first
      (i := bifIn c s i (grants c s i)) hd.busif hb.state hcnt hb.granted
    refine .inr ⟨⟨?_, hc'⟩, hwprt.trans hb.last, ?_, ?_⟩
    · rw [show (step c s i).busif.state = s.busif.state from hs']
      exact hb.state
    · rw [← hb.last, hiaddr, hb.addr, show (step c s i).busif.adr = s.busif.adr from ha']
    · rw [hwtag, hb.tagIn]
      exact (BusIf.tagOut_congr hs' ht' ha' ho').symm
  · obtain ⟨hs', ht'⟩ := WritePort.tagWr_first hp.wr (hnowp n hmem)
    have hne : ((step c s i).wp n).state ≠ .init := by
      intro hinit
      rw [← wp_step, hinit] at hs'
      cases hs'
    refine .inl ⟨n, hmem, hs', hwprt, ?_, ?_⟩
    · rw [hiaddr, hp.addr, (hd.held hh hmem hne).2]
    · rw [hwtag, hp.tagIn, show ((step c s i).wp n).tag = (s.wp n).tag from ht']

theorem first_step (hd : TagCycle c s i)
    (h : (∃ p < c.wports, ((step c s i).wp p).state.secondTagWrite = true) ∨
      BifSecond (step c s i)) : (step c s i).tram.writeTag = true := by
  show ((TagRam.writePort c (tagRamIn c s i (grants c s i))).isSome && !s.tram.writeTag) = true
  have hx := exclusive_grants hd.exclusive
  rw [Bool.and_eq_true, Bool.not_eq_true']
  rcases h with ⟨p, hp, hs⟩ | ⟨hs, hc⟩
  · obtain ⟨-, hwr, hg, -, hnot⟩ := WritePort.secondTagWrite_next hs
    refine ⟨writePort_isSome_of_wr hp ?_, ?_⟩
    · simp only [tagRamIn]
      rw [show (wpOut c s i (grants c s i) p).tagWr = true from hwr, Bool.or_true]
    · by_contra hw
      rcases hd.granted_of_writeTag (Bool.of_not_eq_false hw) with ⟨q, hq, hsq, hgq⟩ | ⟨-, hgb⟩
      · rw [hx.tagw _ hq.le _ hp.le hgq hg, hnot] at hsq
        cases hsq
      · exact Nat.ne_of_lt hp (hx.tagw _ hp.le _ (Nat.le_refl _) hg hgb)
  · obtain ⟨hs0, ⟨hg, hc0⟩ | ⟨hno, hc0⟩⟩ := BusIf.writesTag_second hd.busif hs hc
    · refine ⟨writePort_isSome_of_wr (Nat.sub_lt c.cores_pos Nat.one_pos) ?_, ?_⟩
      · have hwr : (bifo c s (grants c s i)).tagWr = true := BusIf.tagWr_of_gnt hs0 hg
        simp only [tagRamIn]
        rw [hwr, beq_self_eq_true, Bool.and_self, Bool.true_or]
      · by_contra hw
        rcases hd.granted_of_writeTag (Bool.of_not_eq_false hw) with ⟨q, hq, -, hgq⟩ | ⟨hb, -⟩
        · exact Nat.ne_of_lt hq (hx.tagw _ hq.le _ (Nat.le_refl _) hgq hg)
        · exact hc0 hb.2
    · rw [show (bifIn c s i (grants c s i)).gntTagw = true from
        hd.bifTagw_kept ⟨hs0, hc0⟩] at hno
      cases hno

theorem bifTagw_step (hd : TagCycle c s i) (h : BifSecond (step c s i)) :
    (grants c s i).tagw c.wports = true := by
  obtain ⟨hs0, ⟨hg, -⟩ | ⟨-, hc0⟩⟩ := BusIf.writesTag_second hd.busif h.1 h.2
  · exact hg
  · exact hd.bifTagw_kept ⟨hs0, hc0⟩

theorem noRead_step (hd : TagCycle c s i) (hw' : (step c s i).tram.writeTag = true)
    (hp : p < c.cores) : (step c s i).tram.readTag p = false := by
  have hsome : (TagRam.writePort c (tagRamIn c s i (grants c s i))).isSome = true := by
    have hwt : ((TagRam.writePort c (tagRamIn c s i (grants c s i))).isSome &&
      !s.tram.writeTag) = true := hw'
    rw [Bool.and_eq_true] at hwt
    exact hwt.1
  obtain ⟨n, hn⟩ := Option.isSome_iff_exists.mp hsome
  have hmem := List.mem_of_find?_eq_some hn
  rw [List.mem_reverse, List.mem_range] at hmem
  rcases hd.tagWr_cases hmem (List.find?_some hn) with hb | hw
  · exact hd.noRead_of_tagw (Nat.le_refl _) hb.granted hp
  · exact hd.noRead_of_tagw (Nat.le_of_lt hmem) hw.granted hp

protected theorem step (hd : TagCycle c s i) (hh : Holds c s i i') :
    TagCycle c (step c s i) i' where
  toLocks := hd.toLocks.step hh
  consistent := hd.consistent.step hd.writes
  latches := hd.latches_step hh
  first := hd.first_step
  noRead hw _ hp := hd.noRead_step hw hp
  bifTagw h := by
    rw [arb_step]
    exact hd.bifTagw_step h

-- ---------------------------------------------------------------------------
-- What a cycle does to the tags
-- ---------------------------------------------------------------------------

theorem fields_step (hd : TagCycle c s i) (a w : ℕ) :
    ((step c s i).tram.mem a).fields w =
      if s.tram.writeTag = true ∧ a = s.tram.iaddr s.tram.wprt ∧ w = s.tram.wtag.way then
        (s.tram.wtag.valid, s.tram.wtag.dirty, s.tram.wtag.taddr)
      else (s.tram.mem a).fields w :=
  TagRam.fields_nextMem hd.consistent hd.writes a w

/-- The second cycle of a write port's tag write marks its line as dirty. -/
theorem fields_wp (hd : TagCycle c s i) (hp : p < c.wports)
    (hs : (s.wp p).state.secondTagWrite = true) :
    ((step c s i).tram.mem (indexOf c (i.wpi p).portAdr)).fields (s.wp p).tag.way =
      ((s.wp p).tag.valid, true, (s.wp p).tag.taddr) := by
  have hx := exclusive_grants hd.exclusive
  have hw := hd.first (.inl ⟨p, hp, hs⟩)
  rw [hd.fields_step]
  rcases hd.latches hw with ⟨q, hq, hsq, hl⟩ | ⟨hb, -⟩
  · obtain rfl : q = p := hx.tagw q hq.le p hp.le (hd.tagw_kept hq hsq) (hd.tagw_kept hp hs)
    rw [if_pos ⟨hw, by rw [hl.wprt, hl.iaddr], by rw [hl.wtag]⟩, hl.wtag]
  · exact absurd (hx.tagw p hp.le _ (Nat.le_refl _) (hd.tagw_kept hp hs) (hd.bifTagw_kept hb))
      (Nat.ne_of_lt hp)

/-- The second cycle of a tag write of the BusIf. -/
theorem fields_busif (hd : TagCycle c s i) (hb : BifSecond s) :
    ((step c s i).tram.mem (indexOf c s.busif.adr)).fields s.busif.tag.way =
      ((bifo c s Lines.none).tagOut.valid, (bifo c s Lines.none).tagOut.dirty,
        (bifo c s Lines.none).tagOut.taddr) := by
  have hx := exclusive_grants hd.exclusive
  have hw := hd.first (.inr hb)
  rw [hd.fields_step]
  rcases hd.latches hw with ⟨q, hq, hsq, -⟩ | ⟨-, hl⟩
  · exact absurd (hx.tagw q hq.le _ (Nat.le_refl _) (hd.tagw_kept hq hsq) (hd.bifTagw_kept hb))
      (Nat.ne_of_lt hq)
  · have hway : (bifo c s Lines.none).tagOut.way = s.busif.tag.way := BusIf.tagOut_way
    rw [if_pos ⟨hw, by rw [hl.wprt, hl.iaddr], by rw [hl.wtag, hway]⟩, hl.wtag]

/-- A tag that nobody writes stays. -/
theorem fields_kept (hd : TagCycle c s i)
    (hwp : ∀ p < c.wports, (s.wp p).state.secondTagWrite = true →
      ¬ (indexOf c (i.wpi p).portAdr = a ∧ (s.wp p).tag.way = w))
    (hbif : BifSecond s → ¬ (indexOf c s.busif.adr = a ∧ s.busif.tag.way = w)) :
    ((step c s i).tram.mem a).fields w = (s.tram.mem a).fields w := by
  rw [hd.fields_step, if_neg]
  rintro ⟨hw, hset, hway⟩
  rcases hd.latches hw with ⟨p, hp, hs, hl⟩ | ⟨hb, hl⟩
  · refine hwp p hp hs ⟨?_, ?_⟩
    · rw [hset, hl.wprt, hl.iaddr]
    · rw [hway, hl.wtag]
  · refine hbif hb ⟨?_, ?_⟩
    · rw [hset, hl.wprt, hl.iaddr]
    · rw [hway, hl.wtag]
      exact BusIf.tagOut_way.symm

end TagCycle

theorem IsReset.tagCycle (h : IsReset c s) : TagCycle c s i where
  toLocks := h.locks
  consistent := by
    obtain ⟨hw, hp⟩ := h.tram
    refine ⟨fun p => (hp p).2.2, fun p _ _ hq => ?_⟩
    rw [(hp p).2.1] at hq
    cases hq
  latches hw := by
    rw [h.tram.1] at hw
    cases hw
  first hs := by
    rcases hs with ⟨p, hp, hs⟩ | ⟨hs, -⟩
    · rw [(h.wp p hp).1] at hs
      cases hs
    · rw [h.busif.1] at hs
      cases hs
  noRead hw := by
    rw [h.tram.1] at hw
    cases hw
  bifTagw hb := by
    have hs := hb.1
    rw [h.busif.1] at hs
    cases hs

end ParaNut.Memu
