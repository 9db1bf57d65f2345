import ParaNut.Memu.Coherent

/-!
# What the memory unit contains

A word is in the way that holds its line, or with a victim on its way back, or
in memory. Only a write port that writes a bank changes it: lines are brought
in and replaced, and victims are written back, without a trace.
-/

namespace ParaNut.Memu

section Statement

variable (c : Config) (s : State) (i : Input) (n : ℕ)

/-- The way that holds line `l`. -/
def holdingWay (l : ℕ) : Option ℕ :=
  TagRam.findWay c (s.tram.mem (l % c.sets)) (l / c.sets)

/-- Word `n` is one of the victim, and has not been written back yet. -/
def withVictim : Bool :=
  s.busif.state.carriesVictim && s.busif.writeVictim &&
    s.busif.tag.taddr * c.sets + indexOf c s.busif.adr == n / c.banks &&
    (s.busif.state != .cacheWriteBackVictim || decide (s.busif.cnt ≤ n % c.banks))

/-- Word `n` of the memory that the ports see. -/
def contents : TWord :=
  match holdingWay c s (n / c.banks) with
  | some w => s.bank (n % c.banks) (w, n / c.banks % c.sets)
  | none => if withVictim c s n then s.busif.odata (n % c.banks) else s.mem n

/-- The write port that writes word `n` in this cycle. -/
def writerOf : Option ℕ :=
  (List.range c.wports).find? fun p =>
    (wpOut c s i (grants c s i) p).bankWr && wordNo (i.wpi p).portAdr == n

end Statement

section Cycle

variable {c : Config} {s : State} {i i' : Input} {n l w p : ℕ}

theorem holdingWay_some (h : holdingWay c s l = some w) : w < c.ways ∧
    (s.tram.mem (l % c.sets)).valid w = true ∧ (s.tram.mem (l % c.sets)).taddr w = l / c.sets :=
  TagRam.findWay_some h

theorem holdingWay_eq (hd : OneWay c s i) (hw : w < c.ways)
    (hv : (s.tram.mem (l % c.sets)).valid w = true)
    (ht : (s.tram.mem (l % c.sets)).taddr w = l / c.sets) : holdingWay c s l = some w := by
  cases hf : holdingWay c s l with
  | none => exact absurd ht (TagRam.findWay_none hf hw hv)
  | some w' =>
    obtain ⟨hw', hv', ht'⟩ := holdingWay_some hf
    rw [hd.oneWay _ _ w' w (.ram hw' hv' ht') (.ram hw hv ht)]

theorem holdingWay_none (h : ∀ w < c.ways, (s.tram.mem (l % c.sets)).valid w = true →
    (s.tram.mem (l % c.sets)).taddr w ≠ l / c.sets) : holdingWay c s l = none := by
  rw [← Option.not_isSome_iff_eq_none, Option.isSome_iff_exists]
  rintro ⟨w, hw⟩
  obtain ⟨hlt, hv, ht⟩ := holdingWay_some hw
  exact h w hlt hv ht

theorem withVictim_of_state (h : s.busif.state.carriesVictim = false) :
    withVictim c s n = false := by rw [withVictim, h]; rfl

theorem contents_some (h : holdingWay c s (n / c.banks) = some w) :
    contents c s n = s.bank (n % c.banks) (w, n / c.banks % c.sets) := by rw [contents, h]

theorem contents_none (h : holdingWay c s (n / c.banks) = none) :
    contents c s n = if withVictim c s n then s.busif.odata (n % c.banks) else s.mem n := by
  rw [contents, h]

/-- The words of a line, by tag, set and bank. -/
theorem wordIn_eq (n : ℕ) :
    wordIn c (n / c.banks % c.sets) (n / c.banks / c.sets) (n % c.banks) = n := by
  rw [wordIn, Nat.div_add_mod', Nat.div_add_mod']

-- ---------------------------------------------------------------------------
-- A write
-- ---------------------------------------------------------------------------

/-- A port that writes has its line in the cache. -/
theorem Coherent.holdingWay_wp (hd : Coherent c s i) (hp : p < c.wports)
    (hu : (s.wp p).state.usesTag = true) :
    holdingWay c s (lineOf c (i.wpi p).portAdr) = some (s.wp p).tag.way := by
  obtain ⟨hlt, hv, ht, -⟩ := hd.wpEntry p hp hu
  exact holdingWay_eq hd.toOneWay hlt hv ht

theorem wpWrites_of_bankWr (hp : p < c.wports)
    (hw : (wpOut c s i (grants c s i) p).bankWr = true) :
    WpWrites c s i (bankOf c (i.wpi p).portAdr) p := ⟨hp, (WritePort.bankWr_spec hw).2, hw⟩

/-- What a port writes are its bytes of the word, which it has read if it needs the others. -/
theorem WritePort.bankDataOut {r : WritePort.Registers} {x : WritePort.In} :
    (WritePort.comb c r x).2.bankDataOut =
      Lib.merge x.wpi.portBsel r.data x.wpi.portData := by
  cases hs : r.state <;> simp only [WritePort.comb, hs, WritePort.combInit, WritePort.defaults,
    WritePort.combineData]
  all_goals
    repeat' split
    all_goals rfl

/-- The word that a port puts out is the one that the line has then. -/
theorem Coherent.contents_committed (hd : Coherent c s i) (hd' : Coherent c (step c s i) i')
    (hp : p < c.wports) (hw : (wpOut c s i (grants c s i) p).bankWr = true) :
    contents c (step c s i) (wordNo (i.wpi p).portAdr) =
      (wpOut c s i (grants c s i) p).bankDataOut := by
  have hu := WritePort.State.usesTag_of_commits (WritePort.bankWr_spec hw).1
  obtain ⟨hlt, hv, ht, -⟩ := hd.wpEntry p hp hu
  have hheld : holdingWay c (step c s i) (lineOf c (i.wpi p).portAdr) = some (s.wp p).tag.way := by
    obtain ⟨hv', ht'⟩ := hd.entry_kept hv fun hsec heq =>
      hd.second_index hp (WritePort.State.holdsTag_of_usesTag hu) hsec heq.1
    exact holdingWay_eq hd'.toOneWay hlt hv' (ht'.trans ht)
  have hbank := hd.bank_committed (wpWrites_of_bankWr hp hw)
  rw [entryRow, wayIndexOf_eq hlt] at hbank
  rw [contents_some hheld]
  exact hbank

theorem contents_written (hd : Coherent c s i) (hd' : Coherent c (step c s i) i')
    (hp : p < c.wports) (hw : (wpOut c s i (grants c s i) p).bankWr = true) :
    contents c (step c s i) (wordNo (i.wpi p).portAdr) =
      Lib.merge (i.wpi p).portBsel (contents c s (wordNo (i.wpi p).portAdr))
        (i.wpi p).portData := by
  have hcommits := (WritePort.bankWr_spec hw).1
  have hu := WritePort.State.usesTag_of_commits hcommits
  have hlt := (hd.wpEntry p hp hu).1
  rw [contents_some (hd.holdingWay_wp hp hu)]
  refine (hd.contents_committed hd' hp hw).trans (WritePort.bankDataOut.trans ?_)
  show Lib.merge (i.wpi p).portBsel (s.wp p).data (i.wpi p).portData = _
  by_cases hsel : (i.wpi p).portBsel = 15
  · rw [hsel, Lib.merge_all, Lib.merge_all]
  · rw [hd.wpData p hp hcommits hsel, entryRow, wayIndexOf_eq hlt]
    rfl

-- ---------------------------------------------------------------------------
-- No write
-- ---------------------------------------------------------------------------

/-- A bank that a port is granted is that of its address. -/
theorem WpWrites.bank {b : ℕ} (hw : WpWrites c s i b p) : bankOf c (i.wpi p).portAdr = b := by
  have hg := hw.granted
  rw [bank_eq] at hg
  have hreq := Arbiter.gntBank_req hg
  have hne : p + wpOff c ≠ idxBusif c := Nat.ne_of_lt (wp_lt_idx hw.lt)
  simp only [requests, if_neg hne, if_pos (Nat.le_add_left (wpOff c) p), Nat.add_sub_cancel,
    Bool.and_eq_true, beq_iff_eq] at hreq
  exact hreq.1

/-- Who writes to the row of a valid entry writes to its line. -/
theorem Coherent.wordNo_of_row (hd : Coherent c s i) {b : ℕ} (hw : WpWrites c s i b p)
    (hrow : wpRow c s i p = (w, l % c.sets))
    (ht : (s.tram.mem (l % c.sets)).taddr w = l / c.sets) :
    wordNo (i.wpi p).portAdr = l * c.banks + b := by
  have hu := WritePort.State.usesTag_of_commits (WritePort.bankWr_spec hw.wr).1
  obtain ⟨hlt, -, htaddr, -⟩ := hd.wpEntry p hw.lt hu
  rw [wpRow, wpOut, WritePort.tagOut_way_of_usesTag hu, wayIndexOf_eq hlt, Prod.mk.injEq] at hrow
  obtain ⟨rfl, hindex⟩ := hrow
  rw [hindex, ht] at htaddr
  have hline : lineOf c (i.wpi p).portAdr = l := by
    rw [← tag_add_index, ← htaddr, hindex, Nat.div_add_mod']
  rw [← line_add_bank c, hline, hw.bank]

/-- A valid entry is not the one that is exchanged. -/
theorem Replaces.not_exchanged (hd : Replaces c s i) {a : ℕ} (hv : (s.tram.mem a).valid w = true)
    (hx : s.busif.state.exchanges = true) :
    ¬ (indexOf c s.busif.adr = a ∧ s.busif.tag.way = w) := by
  rintro ⟨rfl, rfl⟩
  obtain ⟨j, ws, hph, he⟩ := hd.phase (by
    revert hx
    cases s.busif.state <;> simp [BusIf.State.exchanges, BusIf.State.usesTag])
  have hno := he.swapped hx
  rw [← hph.runs.index, ← hph.runs.tag, hv] at hno
  cases hno

/-- The row of a valid entry is written by a port that writes to its line, or it stays. -/
theorem Coherent.row_kept (hd : Coherent c s i) {b : ℕ}
    (hv : (s.tram.mem (l % c.sets)).valid w = true)
    (ht : (s.tram.mem (l % c.sets)).taddr w = l / c.sets)
    (hno : ∀ p < c.wports, (wpOut c s i (grants c s i) p).bankWr = true →
      wordNo (i.wpi p).portAdr ≠ l * c.banks + b) :
    (step c s i).bank b (w, l % c.sets) = s.bank b (w, l % c.sets) := by
  refine bank_kept hd.oneWriter ⟨fun p hp hrow => ?_, fun hbif hrow => ?_⟩
  · exact hno p hp.lt hp.wr (hd.wordNo_of_row hp hrow ht)
  · have hst := (BusIf.bankWr_spec hbif.wr).1
    obtain ⟨j, ws, hph, he⟩ := hd.phase (by rw [hst]; rfl)
    refine hd.not_exchanged hv (by rw [hst]; rfl) ?_
    rw [hph.runs.row, Job.row, way_row he.way, Prod.mk.injEq] at hrow
    rw [hph.runs.index, hph.runs.tag]
    exact ⟨hrow.2, hrow.1⟩

/-- A victim whose tag is invalidated is with the BusIf, or as it is in memory. -/
theorem contents_invalidated (hd : Coherent c s i) (hsec : BifSecond s)
    (hs : s.busif.state = .cacheReplaceInvalidateTag)
    (hv : (s.tram.mem (indexOf c s.busif.adr)).valid s.busif.tag.way = true)
    (hindex : indexOf c s.busif.adr = n / c.banks % c.sets)
    (ht : (s.tram.mem (indexOf c s.busif.adr)).taddr s.busif.tag.way = n / c.banks / c.sets) :
    contents c (step c s i) n = s.bank (n % c.banks) (s.busif.tag.way, n / c.banks % c.sets) := by
  have hb : n % c.banks < c.banks := Nat.mod_lt _ c.banks_pos
  obtain ⟨j, ws, hph, he⟩ := hd.phase (by rw [hs]; rfl)
  have hinv : InvalidatesTag c j s := by
    cases hph with
    | invalidatesTag h => exact h
    | readsIdata h | readsDirtyBanks h | writesBanks h | writesTag h | done h =>
      have := h.state
      rw [hs] at this
      cases this
    | writesBackVictim h =>
      have := h.state
      rw [hs] at this
      cases this
  have hheld := he.held (by rw [hs]; rfl)
  have hjt := hinv.toRuns.tag
  have hji : j.index c = n / c.banks % c.sets := hinv.toRuns.index.symm.trans hindex
  rw [hindex, hjt] at hv ht
  have htaddr : j.tag.taddr = n / c.banks / c.sets := by rw [← hheld.entry.2, hji, ht]
  have hrow : j.row c = (j.tag.way, n / c.banks % c.sets) := by rw [Job.row, way_row he.way, hji]
  have hnone : holdingWay c (step c s i) (n / c.banks) = none := by
    refine holdingWay_none fun w hw hvw htw => ?_
    have hback := hd.entry_back hvw
    rw [hs] at hback
    obtain ⟨hv', ht'⟩ := hback.resolve_right fun hno => BusIf.State.noConfusion hno.2.1
    have heq := hd.oneWay _ _ w j.tag.way (.ram hw hv' (ht'.symm.trans htw)) (.ram he.way hv ht)
    have hout := hinv.toRuns.invalidated hd.toTagCycle hs hsec.2
    rw [hji, ← heq, hvw] at hout
    cases hout
  have hwrites : WritesBanks c j (step c s i) := by
    refine (hinv.step hd.toOrderly).resolve_left fun hno => ?_
    have hstate := hno.state
    rw [busif_step] at hstate
    have hgnt : (bifIn c s i (grants c s i)).gntTagw = true := hd.bifTagw_kept hsec
    simp [BusIf.comb, hs, hgnt, BusIf.tagWritten, hsec.2] at hstate
  have hwith : withVictim c (step c s i) n = j.tag.dirty := by
    rw [withVictim, hwrites.state, hwrites.writeVictim, hwrites.toRuns.tag, hwrites.toRuns.index,
      htaddr, hji, Nat.div_add_mod', beq_self_eq_true]
    cases j.tag.dirty <;> rfl
  rw [contents_none hnone, hwith, hjt]
  cases hdirty : j.tag.dirty with
  | true => rw [if_pos rfl, hwrites.copied hdirty _ hb, ← hheld.old _ hb, hrow]
  | false =>
    have hmem := (wbWrite_none (c := c) (s := s) (i := i) (by rw [hs]; decide)
      (by rw [hs]; decide)).2
    have hclean := hheld.entry.1
    rw [hji, hdirty] at hclean
    rw [if_neg Bool.false_ne_true, hmem]
    rcases hd.clean _ _ he.way hv hclean with ⟨p, ho⟩ | hwords
    · refine absurd (ho.index.trans hindex.symm) ?_
      exact hd.toReplaceLock.usesTag_index (by rw [hs]; rfl) (hd.op_of_working (by rw [hs]; rfl))
        ho.lt (WritePort.State.usesTag_of_owes ho.owes)
    · rw [hwords _ hb, ht, wordIn_eq]

/-- A word whose line is in the cache stays, in its way or as that of a victim. -/
theorem contents_kept_some (hd : Coherent c s i) (hd' : Coherent c (step c s i) i')
    (hno : ∀ p < c.wports, (wpOut c s i (grants c s i) p).bankWr = true →
      wordNo (i.wpi p).portAdr ≠ n) (h : holdingWay c s (n / c.banks) = some w) :
    contents c (step c s i) n = contents c s n := by
  obtain ⟨hlt, hv, ht⟩ := holdingWay_some h
  rw [contents_some h]
  by_cases hb : BifSecond s ∧ indexOf c s.busif.adr = n / c.banks % c.sets ∧ s.busif.tag.way = w
  · obtain ⟨hsec, hindex, rfl⟩ := hb
    rw [← hindex] at hv ht
    refine contents_invalidated hd hsec ?_ hv hindex ht
    have hx := hd.not_exchanged hv
    have hs := hsec.1
    revert hs hx
    cases s.busif.state <;> simp [BusIf.State.writesTag, BusIf.State.exchanges]
  · obtain ⟨hv', ht'⟩ := hd.entry_kept hv fun hsec heq => hb ⟨hsec, heq⟩
    rw [contents_some (holdingWay_eq hd'.toOneWay hlt hv' (ht'.trans ht)),
      hd.row_kept hv ht fun p hp hw => ?_]
    rw [Nat.div_add_mod']
    exact hno p hp hw

/-- A word outside the cache. -/
def outside (c : Config) (s : State) (n : ℕ) : TWord :=
  if withVictim c s n then s.busif.odata (n % c.banks) else s.mem n

/-- Word `n` is one of the victim. -/
def Job.isVictim (c : Config) (j : Job) (n : ℕ) : Bool :=
  j.tag.dirty && j.tag.taddr * c.sets + j.index c == n / c.banks

theorem Buffered.outside_eq {j : Job} (hb : Buffered c j s)
    (hs : s.busif.state.carriesVictim = true) : outside c s n =
      if j.isVictim c n && (s.busif.state != .cacheWriteBackVictim ||
        decide (s.busif.cnt ≤ n % c.banks)) then j.victim (n % c.banks) else s.mem n := by
  have hwith : withVictim c s n = (j.isVictim c n && (s.busif.state != .cacheWriteBackVictim ||
      decide (s.busif.cnt ≤ n % c.banks))) := by
    rw [withVictim, hs, hb.writeVictim, hb.toRuns.tag, hb.toRuns.index, Job.isVictim, Bool.true_and]
  rw [outside, hwith]
  split
  · rename_i hv
    have hdirty : j.tag.dirty = true := by
      simp only [Job.isVictim, Bool.and_eq_true] at hv
      exact hv.1.1
    exact hb.copied hdirty _ (Nat.mod_lt _ c.banks_pos)
  · rfl

theorem outside_mem (h : s.busif.state.carriesVictim = false) : outside c s n = s.mem n := by
  rw [outside, withVictim_of_state h, if_neg Bool.false_ne_true]

theorem mem_of_wbWrite {adr dat : TWord} {sel : TByteSel}
    (h : wbWrite c s i = some (adr, sel, dat)) : (step c s i).mem =
      Function.update s.mem (wordNo adr) (Lib.merge sel (s.mem (wordNo adr)) dat) := by
  show nextMem c s i (grants c s i) = _
  simp only [wbWrite] at h
  simp only [nextMem]
  split at h
  · rename_i hstb
    cases h
    rw [if_pos hstb]
  · cases h

theorem mem_of_wbWrite_none (h : wbWrite c s i = none) : (step c s i).mem = s.mem := by
  show nextMem c s i (grants c s i) = _
  simp only [wbWrite] at h
  simp only [nextMem]
  split at h
  · cases h
  · rename_i hstb
    rw [if_neg hstb]

/-- A word of the victim stays while it is written back. -/
theorem outside_writtenBack {j : Job} (h : WritesBackVictim c j s) (hd : Coherent c s i)
    (hdirty : j.tag.dirty = true) : outside c (step c s i) n = outside c s n := by
  have hcarries : s.busif.state.carriesVictim = true := by rw [h.state]; rfl
  have hlines := (h.toRuns.other hdirty).1
  have hcnt := hd.busif.cnt (.inr h.state)
  have hb : n % c.banks < c.banks := Nat.mod_lt _ c.banks_pos
  rw [h.toBuffered.outside_eq hcarries, h.state]
  rcases h.step hd.toOrderly hdirty with ⟨hw, hcnt', h'⟩ | ⟨hw, hnext⟩
  · rw [h'.toBuffered.outside_eq (by rw [h'.state]; rfl), h'.state, hcnt', mem_of_wbWrite_none hw]
  · have hmem := mem_of_wbWrite hw
    rw [wordNo_makeAdr hlines hcnt, Lib.merge_all] at hmem
    -- the word that is written is the one the counter is at
    have hstep : ∀ m, s.busif.cnt < m → m ≤ s.busif.cnt + 1 → (if j.isVictim c n &&
        decide (m ≤ n % c.banks) then j.victim (n % c.banks) else (step c s i).mem n) =
          if j.isVictim c n && decide (s.busif.cnt ≤ n % c.banks) then j.victim (n % c.banks)
          else s.mem n := by
      intro m hlt hle
      cases hv : j.isVictim c n with
      | false =>
        rw [Bool.false_and, Bool.false_and, if_neg Bool.false_ne_true, if_neg Bool.false_ne_true,
          hmem]
        refine Function.update_of_ne (fun heq => ?_) ..
        rw [Job.isVictim, hdirty, Bool.true_and, beq_eq_false_iff_ne] at hv
        refine hv (line_bank_inj hcnt hb ?_).1
        rw [← heq, Nat.div_add_mod']
      | true =>
        rw [Job.isVictim, hdirty, Bool.true_and, beq_iff_eq] at hv
        have hn : (j.tag.taddr * c.sets + j.index c) * c.banks + n % c.banks = n := by
          rw [hv, Nat.div_add_mod']
        rcases Nat.lt_trichotomy s.busif.cnt (n % c.banks) with hb' | hb' | hb'
        · simp only [Bool.true_and, decide_eq_true_eq]
          rw [if_pos (by omega), if_pos hb'.le]
        · simp only [Bool.true_and, decide_eq_true_eq]
          rw [if_neg (by omega), if_pos hb'.le, hmem, hb', hn, Function.update_self]
        · simp only [Bool.true_and, decide_eq_true_eq]
          rw [if_neg (by omega), if_neg (by omega), hmem]
          refine Function.update_of_ne (fun heq => ?_) ..
          rw [← hn] at heq
          have := (line_bank_inj hb hcnt heq).2
          omega
    rcases hnext with ⟨-, hcnt', h'⟩ | ⟨hlast, hdone⟩
    · rw [h'.toBuffered.outside_eq (by rw [h'.state]; rfl), h'.state, hcnt']
      exact hstep _ (Nat.lt_succ_self _) (Nat.le_refl _)
    · rw [outside_mem (by rw [hdone.state]; rfl)]
      have hlt : ¬ c.banks ≤ n % c.banks := Nat.not_le.mpr hb
      have := hstep c.banks (by omega) (by omega)
      simpa only [decide_eq_false hlt, Bool.and_false, Bool.false_eq_true, if_false,
        bne_self_eq_false, Bool.false_or] using this

/-- A line that is brought in is as it was in memory. -/
theorem contents_brought (hd : Coherent c s i) (h : holdingWay c s (n / c.banks) = none)
    (h' : holdingWay c (step c s i) (n / c.banks) = some w) :
    contents c (step c s i) n = outside c s n := by
  have hb : n % c.banks < c.banks := Nat.mod_lt _ c.banks_pos
  obtain ⟨hlt, hv, ht⟩ := holdingWay_some h'
  rcases hd.entry_back hv with ⟨hv', ht'⟩ | ⟨hsec, hs, hindex, rfl⟩
  · exact absurd (ht'.symm.trans ht) (TagRam.findWay_none h hlt hv')
  have hu : s.busif.state.usesTag = true := by rw [hs]; rfl
  obtain ⟨j, ws, hph, -⟩ := hd.phase hu
  have hbuf : Buffered c j s := by
    cases hph with
    | invalidatesTag h => exact h.toBuffered
    | writesBanks h => exact h.toBuffered
    | writesTag h => exact h.toBuffered
    | writesBackVictim h => exact h.toBuffered
    | readsIdata h | readsDirtyBanks h | done h =>
      have := h.state
      rw [hs] at this
      cases this
  have hf := hd.fields_busif hsec
  simp only [TagRam.Entry.fields, Prod.mk.injEq] at hf
  have htag : (bifo c s Lines.none).tagOut.taddr = tagOf c s.busif.adr := by
    simp [bifo, BusIf.comb, hs, BusIf.newTag]
  have hline : j.line = n / c.banks := by
    rw [← hbuf.toRuns.line, ← tag_add_index, ← htag, ← hf.2.2, hindex, ht, Nat.div_add_mod']
  have hno : j.isVictim c n = false := by
    by_contra hvict
    rw [Bool.not_eq_false, Job.isVictim, Bool.and_eq_true, beq_iff_eq] at hvict
    exact (hbuf.toRuns.other hvict.1).2 (hvict.2.trans hline.symm)
  have hmem := (wbWrite_none (c := c) (s := s) (i := i) (by rw [hs]; decide)
    (by rw [hs]; decide)).2
  rw [contents_some h', hbuf.outside_eq (by rw [hs]; rfl), hno, Bool.false_and,
    if_neg Bool.false_ne_true, ← hindex, hd.clean_brought hsec hs hlt hb, hindex, ht, wordIn_eq,
    hmem]

/-- A word whose line is not in the cache stays where it is, or goes from the victim to memory. -/
theorem outside_kept (hd : Coherent c s i) (h : holdingWay c s (n / c.banks) = none) :
    outside c (step c s i) n = outside c s n := by
  by_cases hu : s.busif.state.usesTag = true
  swap
  · have hs : s.busif.state.carriesVictim = false := by
      revert hu
      cases s.busif.state <;> simp [BusIf.State.usesTag, BusIf.State.carriesVictim]
    have hs' : (step c s i).busif.state.carriesVictim = false := by
      by_contra hc
      have huses : (step c s i).busif.state.usesTag = true := by
        revert hc
        cases (step c s i).busif.state <;> simp [BusIf.State.usesTag, BusIf.State.carriesVictim]
      obtain ⟨hu', -⟩ | ⟨hrt, -⟩ := (BusIf.usesTag_next hd.busif huses).2
      · exact hu hu'
      · rw [busif_step] at hc
        simp [BusIf.comb, hrt, hd.op (by rw [hrt]; decide), BusIf.State.carriesVictim] at hc
    rw [outside_mem hs, outside_mem hs', (wbWrite_none (fun hst => ?_) fun hst => ?_).2]
    · have := hd.noDirect
      rw [hst] at this
      cases this
    · rw [hst] at hs
      cases hs
  have hmem : s.busif.state ≠ .cacheWriteBackVictim → (step c s i).mem = s.mem := fun hst =>
    (wbWrite_none (fun hdir => by rw [hdir] at hu; cases hu) hst).2
  obtain ⟨j, ws, hph, he⟩ := hd.phase hu
  cases hph with
  | readsIdata hr =>
    rw [outside_mem (s := s) (by rw [hr.state]; rfl), outside_mem, hmem (by rw [hr.state]; decide)]
    rcases hr.step hd.toOrderly with h' | h' | h' <;> rw [h'.state] <;> rfl
  | readsDirtyBanks hr =>
    rw [outside_mem (s := s) (by rw [hr.state]; rfl), outside_mem, hmem (by rw [hr.state]; decide)]
    rcases hr.step hd.toOrderly with h' | h' <;> rw [h'.state] <;> rfl
  | invalidatesTag hr =>
    rw [outside_mem (s := s) (by rw [hr.state]; rfl), ← hmem (by rw [hr.state]; decide)]
    rcases hr.step hd.toOrderly with h' | h'
    · exact outside_mem (by rw [h'.state]; rfl)
    · -- the victim has been in its way so far
      have hno : j.isVictim c n = false := by
        by_contra hvict
        rw [Bool.not_eq_false, Job.isVictim, Bool.and_eq_true, beq_iff_eq] at hvict
        have hheld := he.held (by rw [hr.state]; rfl)
        have hindex : j.index c < c.sets := Nat.mod_lt _ c.sets_pos
        obtain ⟨hq, hm⟩ := tag_index_inj hindex (Nat.mod_lt (n / c.banks) c.sets_pos)
          (hvict.2.trans (Nat.div_add_mod' _ _).symm)
        have hvalid := hheld.valid hvict.1
        have htaddr := hheld.entry.2
        rw [hm] at hvalid htaddr
        exact TagRam.findWay_none h he.way hvalid (htaddr.trans hq)
      rw [h'.toBuffered.outside_eq (by rw [h'.state]; rfl), hno, Bool.false_and,
        if_neg Bool.false_ne_true]
  | writesBanks hr =>
    have hm := hmem (by rw [hr.state]; decide)
    rw [hr.toBuffered.outside_eq (by rw [hr.state]; rfl), hr.state, ← hm]
    rcases hr.step hd.toOrderly with h' | h' <;>
      rw [h'.toBuffered.outside_eq (by rw [h'.state]; rfl), h'.state] <;> rfl
  | writesTag hr =>
    have hm := hmem (by rw [hr.state]; decide)
    rw [hr.toBuffered.outside_eq (by rw [hr.state]; rfl), hr.state, ← hm]
    rcases hr.step hd.toOrderly with h' | ⟨-, hcnt, h'⟩ | ⟨hclean, h'⟩
    · rw [h'.toBuffered.outside_eq (by rw [h'.state]; rfl), h'.state]
      rfl
    · rw [h'.toBuffered.outside_eq (by rw [h'.state]; rfl), h'.state, hcnt]
      simp
    · rw [outside_mem (by rw [h'.state]; rfl), Job.isVictim, hclean]
      rfl
  | writesBackVictim hr hdirty => exact outside_writtenBack hr hd hdirty
  | done hr =>
    rw [hr.state] at hu
    cases hu

theorem contents_kept_none (hd : Coherent c s i)
    (h : holdingWay c s (n / c.banks) = none) :
    contents c (step c s i) n = contents c s n := by
  rw [contents_none h]
  cases h' : holdingWay c (step c s i) (n / c.banks) with
  | none => exact (contents_none h').trans (outside_kept hd h)
  | some w => exact contents_brought hd h h'

theorem writerOf_some (h : writerOf c s i n = some p) : p < c.wports ∧
    (wpOut c s i (grants c s i) p).bankWr = true ∧ wordNo (i.wpi p).portAdr = n := by
  have hmem := List.mem_of_find?_eq_some h
  have hw := List.find?_some h
  rw [Bool.and_eq_true, beq_iff_eq] at hw
  exact ⟨List.mem_range.mp hmem, hw⟩

theorem writerOf_none (h : writerOf c s i n = none) (hp : p < c.wports)
    (hw : (wpOut c s i (grants c s i) p).bankWr = true) : wordNo (i.wpi p).portAdr ≠ n := by
  intro hn
  rw [writerOf, List.find?_eq_none] at h
  refine h p (List.mem_range.mpr hp) ?_
  rw [hw, hn, beq_self_eq_true, Bool.and_self]

/-- In one cycle, a word changes to what a write port makes of it, or not at all. -/
theorem contents_step (hd : Coherent c s i) (hd' : Coherent c (step c s i) i') (n : ℕ) :
    contents c (step c s i) n = match writerOf c s i n with
      | some p => Lib.merge (i.wpi p).portBsel (contents c s n) (i.wpi p).portData
      | none => contents c s n := by
  cases hw : writerOf c s i n with
  | some p =>
    obtain ⟨hp, hwr, rfl⟩ := writerOf_some hw
    exact contents_written hd hd' hp hwr
  | none =>
    cases h : holdingWay c s (n / c.banks) with
    | some w => exact contents_kept_some hd hd' (fun p hp => writerOf_none hw hp) h
    | none => exact contents_kept_none hd h

theorem IsReset.contents (h : IsReset c s) (n : ℕ) : contents c s n = s.mem n := by
  rw [contents_none (holdingWay_none fun w _ hv => ?_), withVictim_of_state]
  · rfl
  · rw [h.busif.1]
    rfl
  · rw [(h.tags _ w).1] at hv
    cases hv

end Cycle

end ParaNut.Memu
