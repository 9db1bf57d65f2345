import ParaNut.Memu.CachedOnly

/-!
# Only absent lines are brought in

A port that has missed waits for the BusIf and looks for the tag again. From
then on the BusIf waits for it, and nobody else brings in a line. So a line
that is replaced is absent when the BusIf reads its tag, and a read port finds
its word on the BusIf before the replacement ends.
-/

namespace ParaNut.Memu

-- ---------------------------------------------------------------------------
-- Units
-- ---------------------------------------------------------------------------

namespace ReadPort

variable {c : Config} {r : Registers} {i : In}

/-- The states in which the BusIf is granted and waits for the port. -/
def State.rechecks : State → Bool
  | .missRequestTag | .missReadTag => true
  | _ => false

theorem rechecks_next (h : (comb c r i).1.state.rechecks = true) :
    (comb c r i).2.reqBusif = true ∧ (comb c r i).2.busifOp = .nothing ∧
      (r.state.rechecks = true ∨ i.gntBusif = true ∧ i.busifBusy = false) := by
  revert h
  cases hs : r.state <;> simp only [comb, hs, defaults, newRequest, readHit]
  all_goals
    repeat' split
    all_goals simp_all [State.rechecks]

/-- A replacement is asked for after a miss in the recheck, and until the word is there. -/
theorem missReplace_next (h : (comb c r i).1.state = .missReplace) :
    (comb c r i).2.reqBusif = true ∧ (comb c r i).2.portAck = false ∧
      (r.state = .missReadTag ∧ i.tagIn.valid = false ∧ (comb c r i).2.busifOp = .nothing ∨
        r.state = .missReplace ∧ busifHit c i = false ∧ (comb c r i).2.busifOp = .replace) := by
  revert h
  cases hs : r.state <;> simp only [comb, hs, defaults, newRequest, readHit]
  all_goals
    repeat' split
    all_goals simp_all

end ReadPort

namespace WritePort

variable {c : Config} {r : Registers} {i : In}

def State.rechecks : State → Bool
  | .recheck | .recheckReadTag => true
  | _ => false

theorem rechecks_next (h : (comb c r i).1.state.rechecks = true) :
    (comb c r i).2.busifOp = .nothing ∧
      (r.state.rechecks = true ∨ r.state = .miss ∧ i.gntBusif = true ∧ i.busifBusy = false) := by
  revert h
  cases hs : r.state <;> simp only [comb, hs, defaults, combInit, snooped_state, writeState]
  all_goals
    repeat' split
    all_goals simp_all [State.rechecks]

theorem replace_next (h : (comb c r i).1.state = .replace) :
    r.state = .recheckReadTag ∧ i.tagIn.valid = false ∧ (comb c r i).2.busifOp = .nothing ∨
      r.state = .replace ∧ i.busifBusy = false ∧ (comb c r i).2.busifOp = .replace := by
  revert h
  cases hs : r.state <;> simp only [comb, hs, defaults, combInit, snooped_state, writeState]
  all_goals
    repeat' split
    all_goals simp_all

end WritePort

namespace BusIf

variable {c : Config} {r : Registers} {i : In} {adr : TWord}

/-- The states of a replacement before its tag is read. -/
def State.begins : State → Bool
  | .cacheRequestLlWait | .cacheRequestRtWait | .cacheReadTag => true
  | _ => false

theorem State.begins_usesTag {st : State} (h : st.begins = true) : st.usesTag = false := by
  cases st <;> simp_all [State.begins, State.usesTag]

theorem idle_kept (hs : r.state = .idle) (hop : i.busifOp = .nothing) :
    (comb c r i).1.state = .idle := by
  simp [comb, hs, combIdle, hop, latched]

/-- What an idle BusIf does with a request for a replacement. -/
theorem replace_taken (hs : r.state = .idle) (hop : i.busifOp = .replace) :
    (comb c r i).1.state =
        (if i.busifNolinelock then .cacheRequestRtWait else .cacheRequestLlWait) ∧
      lineOf c (comb c r i).1.adr = lineOf c i.adrIn ∧
      (comb c r i).1.adrOfs = bankOf c i.adrIn := by
  simp only [comb, hs, combIdle, hop, latched]
  exact ⟨trivial, lineOf_clearOfs, trivial⟩

theorem begins_cases (h : (comb c r i).1.state.begins = true) :
    r.state.begins = true ∧ (comb c r i).1.adr = r.adr ∨
      r.state = .idle ∧ i.busifOp ≠ .nothing ∧
        lineOf c (comb c r i).1.adr = lineOf c i.adrIn := by
  revert h
  cases hs : r.state <;> simp only [comb, hs, combIdle, latched, tagWritten]
  case idle =>
    cases hop : i.busifOp <;> simp [State.begins, lineOf_clearOfs]
  all_goals
    repeat' split
    all_goals simp_all [State.begins]

/-- The BusIf has not shown the word of `adr` before this cycle. -/
structure Fetches (c : Config) (r : Registers) (adr : TWord) : Prop where
  line : lineOf c r.adr = lineOf c adr
  shows : r.state.begins = true ∧ r.adrOfs = bankOf c adr ∨
    r.state = .cacheReplaceReadIdata ∧ (r.cnt = 0 ∧ r.adrOfs = bankOf c adr ∨
      r.idataValid (bankOf c adr) = true ∧ wordOf r.adr = wordOf adr)

/-- The first word of a line that is read is the one asked for. -/
theorem wordOf_setBank {adr' : TWord} (hline : lineOf c adr' = lineOf c adr) :
    wordOf (setBank c adr' (bankOf c adr)) = wordOf adr := by
  refine BitVec.eq_of_toNat_eq ?_
  show wordNo (setBank c adr' (bankOf c adr)) = wordNo adr
  rw [wordNo_setBank (bankOf_lt c adr), hline, line_add_bank]

theorem Fetches.next (h : Fetches c r adr) (hw : WellFormed c r) (hop : r.op = .replace)
    (hno : ¬ (r.idataValid (bankOf c adr) = true ∧ wordOf r.adr = wordOf adr)) :
    Fetches c (comb c r i).1 adr := by
  obtain ⟨hline, ⟨hb, hofs⟩ | ⟨hs, ⟨hcnt, hofs⟩ | hshown⟩⟩ := h
  · have hzero := hw.cnt_zero
    have hkept : (comb c r i).1.adr = r.adr ∧ (comb c r i).1.adrOfs = r.adrOfs ∧
        ((comb c r i).1.state.begins = true ∨
          (comb c r i).1.state = .cacheReplaceReadIdata ∧ (comb c r i).1.cnt = 0) := by
      cases hs : r.state <;> rw [hs] at hb <;> try cases hb
      all_goals
        simp only [comb, hs, hop]
        repeat' split
        all_goals simp_all [State.begins]
    obtain ⟨hadr, hofs', hstate⟩ := hkept
    refine ⟨by rw [hadr, hline], ?_⟩
    rcases hstate with hb' | ⟨hs', hcnt'⟩
    · exact .inl ⟨hb', hofs'.trans hofs⟩
    · exact .inr ⟨hs', .inl ⟨hcnt', hofs'.trans hofs⟩⟩
  · have h1 := c.one_lt_banks
    have hlast : cntLast c r = false := by
      rw [cntLast, hcnt, beq_eq_false_iff_ne]
      omega
    cases hack : i.ackI with
    | false => exact ⟨by simpa [comb, hs, hack] using hline,
        .inr ⟨by simp [comb, hs, hack], .inl (by simpa [comb, hs, hack] using ⟨hcnt, hofs⟩)⟩⟩
    | true =>
      refine ⟨?_, .inr ⟨by simp [comb, hs, hack, hlast], .inr ⟨?_, ?_⟩⟩⟩
      · simp [comb, hs, hack, hlast, hofs, lineOf_setBank (bankOf_lt c adr), hline]
      · simp [comb, hs, hack, hlast, hofs]
      · simp [comb, hs, hack, hlast, hofs, wordOf_setBank hline]
  · exact absurd hshown hno

theorem Fetches.state_ne (h : Fetches c r adr) : r.state ≠ .idle := by
  intro hs
  rcases h.shows with ⟨hb, -⟩ | ⟨hs', -⟩
  · rw [hs] at hb
    cases hb
  · rw [hs] at hs'
    cases hs'

end BusIf

-- ---------------------------------------------------------------------------
-- The memory unit
-- ---------------------------------------------------------------------------

/-- The ports that have rechecked, and the line that is brought in. -/
structure Refills (c : Config) (s : State) (i : Input) : Prop extends CachedOnly c s i where
  rpRechecks : ∀ p < c.rports, (s.rp p).state.rechecks = true →
    s.arb.gnt.busif p = true ∧ s.busif.state = .idle
  rpReplace : ∀ p < c.rports, (s.rp p).state = .missReplace → s.arb.gnt.busif p = true ∧
    (s.busif.state = .idle ∧ Absent c s (i.rpi p).portAdr ∨
      BusIf.Fetches c s.busif (i.rpi p).portAdr)
  wpRechecks : ∀ p < c.wports, (s.wp p).state.rechecks = true → s.busif.state = .idle
  wpReplace : ∀ p < c.wports, (s.wp p).state = .replace →
    s.busif.state = .idle ∧ Absent c s (i.wpi p).portAdr ∨ s.busif.state = .cacheRequestRtWait
  absent : s.busif.state.begins = true → Absent c s s.busif.adr

section Cycle

variable {c : Config} {s : State} {i i' : Input} {p n : ℕ} {adr adr' : TWord}

theorem Absent.congr (h : Absent c s adr) (hl : lineOf c adr' = lineOf c adr) :
    Absent c s adr' := by
  intro w hw
  rw [indexOf_congr hl, tagOf_congr hl]
  exact h w hw

/-- The tag of a port says that its line is absent. -/
theorem absent_of_miss (hd : Orderly c s i) {x : ℕ}
    (hi : s.tram.iaddr x = indexOf c adr) (ht : s.tram.taddr x = tagOf c adr)
    (hmiss : (TagRam.tagOut c s.tram x).valid = false) : Absent c s adr := by
  intro w hw hv
  have hne := TagRam.tagOut_miss hmiss hw
  rw [hd.consistent.rdata, hi, ht] at hne
  exact hne hv

namespace CachedOnly

/-- A line stays absent while the BusIf does not bring it in. -/
theorem absent_step (hd : CachedOnly c s i) (h : Absent c s adr)
    (hno : BifSecond s → s.busif.state ≠ .cacheWriteTag) : Absent c (step c s i) adr := by
  intro w hw hv ht
  rcases hd.entry_back hv with ⟨hv', ht'⟩ | ⟨hsec, hs, -⟩
  · exact h w hw hv' (ht'.symm.trans ht)
  · exact hno hsec hs

/-- The BusIf takes up what the port asks for that it is granted to. -/
theorem bifIn_user (hd : CachedOnly c s i) (hn : n < idxBusif c)
    (hg : (grants c s i).busif n = true) :
    (bifIn c s i (grants c s i)).busifOp = portOp c s i n ∧
      (bifIn c s i (grants c s i)).adrIn = portAdr c i n := by
  have hu := bifIn_of_user (busifUser_eq (exclusive_grants hd.exclusive) hn hg)
  exact ⟨hu.1, hu.2.1⟩

theorem idle_step (hd : CachedOnly c s i) (hn : n < idxBusif c)
    (hg : (grants c s i).busif n = true) (hop : portOp c s i n = .nothing)
    (hfree : s.busif.state = .idle ∨ s.busif.state = .cacheAck) :
    (step c s i).busif.state = .idle := by
  rcases hfree with hs | hs
  · exact BusIf.idle_kept hs ((hd.bifIn_user hn hg).1.trans hop)
  · exact BusIf.cacheAck_next hs

end CachedOnly

namespace Refills

theorem rp_granted (hd : Refills c s i) (hp : p < c.rports)
    (hs : (s.rp p).state.rechecks = true ∨ (s.rp p).state = .missReplace)
    (hreq : (rpOut c s i (grants c s i) p).reqBusif = true) : (grants c s i).busif p = true := by
  refine rp_busif_kept hp ?_ hreq
  rcases hs with hs | hs
  · exact (hd.rpRechecks p hp hs).1
  · exact (hd.rpReplace p hp hs).1

theorem rpRechecks_step (hd : Refills c s i) (hp : p < c.rports)
    (h : ((step c s i).rp p).state.rechecks = true) :
    (grants c s i).busif p = true ∧ (step c s i).busif.state = .idle := by
  obtain ⟨hreq, hop, hfrom⟩ := ReadPort.rechecks_next h
  have hg : (grants c s i).busif p = true := by
    rcases hfrom with hs | ⟨hg, -⟩
    · exact hd.rp_granted hp (.inl hs) hreq
    · exact hg
  refine ⟨hg, hd.idle_step (Nat.lt_add_right _ hp) hg ((portOp_rp hp).trans hop) ?_⟩
  rcases hfrom with hs | ⟨-, hfree⟩
  · exact .inl (hd.rpRechecks p hp hs).2
  · exact BusIf.idle_of_not_busy hfree

theorem rpReplace_step (hd : Refills c s i) (hh : Holds c s i i') (hp : p < c.rports)
    (h : ((step c s i).rp p).state = .missReplace) : (grants c s i).busif p = true ∧
      ((step c s i).busif.state = .idle ∧ Absent c (step c s i) (i'.rpi p).portAdr ∨
        BusIf.Fetches c (step c s i).busif (i'.rpi p).portAdr) := by
  obtain ⟨hreq, hack, hfrom⟩ := ReadPort.missReplace_next h
  have hlt : p < idxBusif c := Nat.lt_add_right _ hp
  have hg : (grants c s i).busif p = true := by
    refine hd.rp_granted hp ?_ hreq
    rcases hfrom with ⟨hs, -⟩ | ⟨hs, -⟩
    · exact .inl (by rw [hs]; rfl)
    · exact .inr hs
  have hrd : (i.rpi p).portRd = true := by
    have hasks := hd.rp p hp
    rcases hfrom with ⟨hs, -⟩ | ⟨hs, -⟩ <;> rw [hs] at hasks <;>
      exact (Bool.and_eq_true _ _ ▸ hasks).1
  rw [hh.rp p hp hrd hack]
  refine ⟨hg, ?_⟩
  rcases hfrom with ⟨hs, hmiss, hop⟩ | ⟨hs, hhit, hop⟩
  · have hidle := (hd.rpRechecks p hp (by rw [hs]; rfl)).2
    obtain ⟨-, hi, ht⟩ := hd.rpTag p hp (by rw [hs]; rfl)
    refine .inl ⟨hd.idle_step hlt hg ((portOp_rp hp).trans hop) (.inl hidle), ?_⟩
    exact hd.absent_step (absent_of_miss hd.toOrderly hi ht hmiss) (by rw [hidle]; exact fun _ => nofun)
  · refine .inr ?_
    rcases (hd.rpReplace p hp hs).2 with ⟨hidle, -⟩ | hf
    · obtain ⟨hbop, hadr⟩ := hd.bifIn_user hlt hg
      rw [portOp_rp hp] at hbop
      rw [portAdr_rp hp] at hadr
      obtain ⟨hs', hline, hofs⟩ := BusIf.replace_taken (c := c) hidle (hbop.trans hop)
      rw [hadr] at hline hofs
      refine ⟨hline, .inl ⟨?_, hofs⟩⟩
      rw [show (step c s i).busif.state = _ from hs']
      split <;> rfl
    · refine hf.next hd.busif (hd.op hf.state_ne) fun hshown => ?_
      rw [ReadPort.busifHit, Bool.and_eq_false_iff] at hhit
      rcases hhit with hno | hno
      · exact Bool.false_ne_true (hno.symm.trans hshown.1)
      · rw [beq_eq_false_iff_ne] at hno
        exact hno hshown.2.symm

theorem wpRechecks_step (hd : Refills c s i) (hp : p < c.wports)
    (h : ((step c s i).wp p).state.rechecks = true) : (step c s i).busif.state = .idle := by
  obtain ⟨hop, hfrom⟩ := WritePort.rechecks_next h
  have hg : (grants c s i).busif (p + wpOff c) = true := by
    refine hd.ownsBusif_step hp ?_
    revert h
    cases ((step c s i).wp p).state <;> simp [WritePort.State.rechecks, WritePort.State.ownsBusif]
  refine hd.idle_step (wp_lt_idx hp) hg (portOp_wp.trans hop) ?_
  rcases hfrom with hs | ⟨-, -, hfree⟩
  · exact .inl (hd.wpRechecks p hp hs)
  · exact BusIf.idle_of_not_busy hfree

theorem wpReplace_step (hd : Refills c s i) (hh : Holds c s i i') (hp : p < c.wports)
    (h : ((step c s i).wp p).state = .replace) :
    (step c s i).busif.state = .idle ∧ Absent c (step c s i) (i'.wpi p).portAdr ∨
      (step c s i).busif.state = .cacheRequestRtWait := by
  have hg : (grants c s i).busif (p + wpOff c) = true :=
    hd.ownsBusif_step hp (by rw [h]; rfl)
  rw [(hd.held hh hp (by rw [h]; exact nofun)).2]
  rcases WritePort.replace_next h with ⟨hs, hmiss, hop⟩ | ⟨hs, hbusy, hop⟩
  · have hidle := hd.wpRechecks p hp (by rw [hs]; rfl)
    have harr : (s.wp p).state.tagArrives = true := by rw [hs]; rfl
    refine .inl ⟨hd.idle_step (wp_lt_idx hp) hg (portOp_wp.trans hop) (.inl hidle), ?_⟩
    exact hd.absent_step (absent_of_miss hd.toOrderly (hd.arrives p hp harr) (hd.wpTag p hp harr)
      hmiss) (by rw [hidle]; exact fun _ => nofun)
  · rcases hd.wpReplace p hp hs with ⟨hidle, -⟩ | hwait
    · have hbop := (hd.bifIn_user (wp_lt_idx hp) hg).1
      rw [portOp_wp] at hbop
      refine .inr ((BusIf.replace_taken (c := c) hidle (hbop.trans hop)).1.trans ?_)
      have hu := busifUser_eq (exclusive_grants hd.exclusive) (wp_lt_idx hp) hg
      simp only [bifIn, hu, Nat.le_add_left, decide_true, Bool.true_and, Nat.add_sub_cancel]
      exact if_pos WritePort.busifNolinelock
    · rw [show (wpIn c s i (grants c s i) p).busifBusy = true from
        bifo_busy_of_working _ (by rw [hwait]; rfl)] at hbusy
      cases hbusy

theorem absent_of_op (hd : Refills c s i) (hs : s.busif.state = .idle)
    (hop : (bifIn c s i (grants c s i)).busifOp = .replace) :
    Absent c s (bifIn c s i (grants c s i)).adrIn := by
  obtain ⟨n, hn, hg, -⟩ := user_of_op (by rw [hop]; exact nofun)
  obtain ⟨hbop, hadr⟩ := hd.bifIn_user hn hg
  rw [hop] at hbop
  rw [hadr]
  rcases port_kind hn with hp | ⟨p, hp, rfl⟩
  · rw [portOp_rp hp] at hbop
    rw [portAdr_rp hp]
    rcases (hd.rpReplace n hp (ReadPort.busifOp_replace hbop.symm)).2 with ⟨-, ha⟩ | hf
    · exact ha
    · exact absurd hs hf.state_ne
  · rw [portOp_wp] at hbop
    rw [portAdr_wp]
    rcases hd.wpReplace p hp (WritePort.busifOp_replace hbop.symm) with ⟨-, ha⟩ | hwait
    · exact ha
    · rw [hs] at hwait
      cases hwait

theorem begins_step (hd : Refills c s i) (h : (step c s i).busif.state.begins = true) :
    Absent c (step c s i) (step c s i).busif.adr := by
  rcases BusIf.begins_cases h with ⟨hs, hadr⟩ | ⟨hs, hop, hline⟩
  · rw [show (step c s i).busif.adr = s.busif.adr from hadr]
    exact hd.absent_step (hd.absent hs) fun _ hs' => by rw [hs'] at hs; cases hs
  · have habsent := hd.absent_of_op hs (hd.busifOp.resolve_left hop)
    exact (hd.absent_step habsent (by rw [hs]; exact fun _ => nofun)).congr hline

protected theorem step (hd : Refills c s i) (hh : Holds c s i i') (hc : Cached c i') :
    Refills c (step c s i) i' where
  toCachedOnly := hd.toCachedOnly.step hh hc
  rpRechecks p hp h := by
    rw [arb_step]
    exact hd.rpRechecks_step hp h
  rpReplace p hp h := by
    rw [arb_step]
    exact hd.rpReplace_step hh hp h
  wpRechecks _ hp h := hd.wpRechecks_step hp h
  wpReplace _ hp h := hd.wpReplace_step hh hp h
  absent := hd.begins_step

end Refills

theorem IsReset.refills (h : IsReset c s) (hc : Cached c i) : Refills c s i where
  toCachedOnly := h.cachedOnly hc
  rpRechecks p hp hs := by
    rw [h.rp p hp] at hs
    cases hs
  rpReplace p hp hs := by
    rw [h.rp p hp] at hs
    cases hs
  wpRechecks p hp hs := by
    rw [(h.wp p hp).1] at hs
    cases hs
  wpReplace p hp hs := by
    rw [(h.wp p hp).1] at hs
    cases hs
  absent hs := by
    rw [h.busif.1] at hs
    cases hs

end Cycle

end ParaNut.Memu
