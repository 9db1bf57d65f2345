import ParaNut.Lib.Atomic
import ParaNut.Memu.Conditional
import ParaNut.Memu.Contents

/-!
# The memory unit is an atomic memory

Whatever the ports do through the cache, a word takes one write at a time, an
acknowledged write is one of them, and an acknowledged read delivers the word
as it is in the cycle of the acknowledge or the next.
-/

namespace ParaNut.Memu

-- ---------------------------------------------------------------------------
-- The ports
-- ---------------------------------------------------------------------------

namespace ReadPort

variable {c : Config} {r : Registers} {i : In}

/-- A read is acknowledged with a word that the BusIf shows, or with the bank of a tag hit. -/
theorem ack_cases (h : (comb c r i).2.portAck = true) :
    (comb c r i).1.state = .init ∨ r.state.tagArrives = true ∧ i.tagIn.valid = true ∧
      i.gntBank (bankOf c i.rpi.portAdr) = true ∧ (comb c r i).2.wayOut = i.tagIn.way ∧
      (comb c r i).1 = ⟨.readBank, bankOf c i.rpi.portAdr⟩ := by
  revert h
  cases hs : r.state <;> simp only [comb, hs, defaults, newRequest, readHit]
  all_goals
    repeat' split
    all_goals simp_all [State.tagArrives]

theorem portRd_of_ack (h : (comb c r i).2.portAck = true) (hs : r.state.asks i.rpi = true) :
    i.rpi.portRd = true := by
  revert h hs
  cases hst : r.state <;> simp only [comb, hst, defaults, newRequest, readHit, State.asks]
  all_goals
    repeat' split
    all_goals simp_all

theorem portData_readBank (h : r.state = .readBank) : (comb c r i).2.portData = i.bankDataIn := by
  simp only [comb, h, newRequest, defaults]
  repeat' split
  all_goals rfl

end ReadPort

namespace WritePort

variable {c : Config} {r : Registers} {i : In}

/-- A write through the cache that is acknowledged has written its bank, unless it is a conditional
write that has failed. -/
theorem ack_cases (h : (comb c r i).2.portAck = true) (haside : r.state.aside = false)
    (hdirect : i.wpi.portWr = true → i.wpi.portDirect = false)
    (hok : i.wpi.portRlinkWcond = true → (comb c r i).2.portWcondOk = true) :
    (comb c r i).2.bankWr = true ∨ r.state.owes = true := by
  rw [portWcondOk_eq] at hok
  revert h haside
  cases hs : r.state <;> simp only [comb, hs, defaults, combInit]
  all_goals
    repeat' split
    all_goals simp_all [State.aside, State.owes]

/-- Until its acknowledge, a port that has written owes the dirty mark. -/
theorem owes_iff : (comb c r i).1.state.owes = true ↔
    (comb c r i).2.portAck = false ∧ ((comb c r i).2.bankWr = true ∨ r.state.owes = true) := by
  cases hs : r.state <;>
    simp only [comb, hs, defaults, combInit, snooped_state, writeState]
  all_goals
    repeat' split
    all_goals simp_all [State.owes]

theorem not_bankWr_of_owes (h : r.state.owes = true) : (comb c r i).2.bankWr = false := by
  revert h
  cases hs : r.state <;> simp [comb, hs, defaults, State.owes]

end WritePort

section Cycle

variable {c : Config} {s : State} {i k : Input} {p b : ℕ}

-- ---------------------------------------------------------------------------
-- Reads
-- ---------------------------------------------------------------------------

/-- A word that the BusIf shows is what the unit contains. -/
theorem Coherent.contents_shown (hd : Coherent c s i)
    (hv : s.busif.idataValid (bankOf c s.busif.adr) = true) :
    contents c s (wordNo s.busif.adr) = s.busif.idata (bankOf c s.busif.adr) := by
  have hb := bankOf_lt c s.busif.adr
  have hu : s.busif.state.usesTag = true := by
    rcases hd.shows.valid _ hv with ⟨hs, -⟩ | ⟨hu, -⟩
    · have := hd.noDirect
      rw [hs] at this
      cases this
    · exact hu
  obtain ⟨j, ws, hph, he⟩ := hd.phase hu
  have hr := hph.runs
  have hword : wordNo s.busif.adr / c.banks = j.line := hr.line
  rw [hr.shown _ hb hv]
  cases hf : s.busif.state.fills with
  | true =>
    have hnone : holdingWay c s (wordNo s.busif.adr / c.banks) = none :=
      holdingWay_none (he.absent hf)
    have hmem : s.mem (wordNo s.busif.adr) = j.word (bankOf c s.busif.adr) := by
      rw [← hr.mem _ hb, ← hr.line, line_add_bank]
    rw [contents_none hnone]
    show outside c s (wordNo s.busif.adr) = _
    by_cases hc : s.busif.state.carriesVictim = true
    · have hbuf : Buffered c j s := by
        cases hph with
        | invalidatesTag h => exact h.toBuffered
        | writesBanks h => exact h.toBuffered
        | writesTag h => exact h.toBuffered
        | writesBackVictim h => exact h.toBuffered
        | readsIdata h | readsDirtyBanks h | done h =>
          rw [h.state] at hc
          cases hc
      have hno : j.isVictim c (wordNo s.busif.adr) = false := by
        by_contra hvict
        rw [Bool.not_eq_false, Job.isVictim, Bool.and_eq_true, beq_iff_eq, hword] at hvict
        exact (hr.other hvict.1).2 hvict.2
      rw [hbuf.outside_eq hc, hno, Bool.false_and, if_neg Bool.false_ne_true, hmem]
    · rw [outside_mem (Bool.not_eq_true _ ▸ hc), hmem]
  | false =>
    have hwb : j.Filled c s ∧ j.Tagged c s := by
      cases hph with
      | writesBackVictim h => exact ⟨h.filled, h.tagged⟩
      | readsIdata h | readsDirtyBanks h | invalidatesTag h | writesBanks h | writesTag h =>
        rw [h.state] at hf
        cases hf
      | done h =>
        rw [h.state] at hu
        cases hu
    obtain ⟨hfilled, htagged⟩ := hwb
    simp only [Job.Tagged, TagRam.Entry.fields, Prod.mk.injEq] at htagged
    have hsome : holdingWay c s (wordNo s.busif.adr / c.banks) = some j.tag.way := by
      rw [hword]
      exact holdingWay_eq hd.toOneWay he.way htagged.1 htagged.2.2
    rw [contents_some hsome, hword, ← hfilled _ hb, Job.row, way_row he.way]
    rfl

/-- A read port has a bank for the one cycle in which it goes on to deliver the word. -/
def RpBanks (c : Config) (s : State) : Prop :=
  ∀ b, ∀ p < c.rports, s.arb.gnt.bank b p = true → (s.rp p).state = .readBank

theorem rpBanks_step : RpBanks c (step c s i) := by
  intro b p hp hg
  rw [arb_step] at hg
  have hreq := Arbiter.gntBank_req (bank_eq ▸ hg)
  have hne : p ≠ idxBusif c := Nat.ne_of_lt (rp_lt_idx hp)
  have hlt : ¬ wpOff c ≤ p := Nat.not_le.mpr hp
  simp only [requests, if_neg hne, if_neg hlt, Bool.and_eq_true, beq_iff_eq] at hreq
  obtain ⟨rfl, hbank⟩ := hreq
  exact ReadPort.readBank_of_bankReqRd hbank hg

theorem ramPort_rp (hp : p < c.rports) :
    Arbiter.ramPort c p = p % c.cores % c.bankRamPorts :=
  if_neg (Nat.ne_of_lt (rp_lt_idx hp))

/-- A read port that is newly granted a bank is at its own row. -/
theorem bankWiadr_rp (hb : RpBanks c s) (hp : p < c.rports)
    (hs : (s.rp p).state ≠ .readBank) (hg : (grants c s i).bank b p = true) :
    bankWiadr c s i (grants c s i) b (p % c.cores % c.bankRamPorts) =
      wayIndexOf c (i.rpi p).portAdr (rpOut c s i (grants c s i) p).wayOut := by
  rw [bank_eq] at hg
  simp only [Arbiter.gntBank, Arbiter.preGntBank, Arbiter.keepBank, Bool.and_eq_true,
    Bool.or_eq_true, beq_iff_eq] at hg
  have hnew := hg.1.resolve_left fun hk => hs (hb b p hp hk.1)
  have hlt : ¬ wpOff c ≤ p := Nat.not_le.mpr hp
  rw [bankWiadr, ← ramPort_rp hp, ← hnew.2, Arbiter.wiadr,
    if_neg (Nat.ne_of_lt (rp_lt_idx hp)), if_neg hlt]
  rfl

/-- What a read of the banks delivers is what the unit contains before or after the cycle. -/
theorem Coherent.contents_read (hd : Coherent c s i) (hd' : Coherent c (step c s i) k)
    (hb : RpBanks c s) (hp : p < c.rports) (hs : (s.rp p).state.tagArrives = true)
    (hv : (TagRam.tagOut c s.tram (p % c.cores)).valid = true)
    (hg : (grants c s i).bank (bankOf c (i.rpi p).portAdr) p = true)
    (hway : (rpOut c s i (grants c s i) p).wayOut =
      (TagRam.tagOut c s.tram (p % c.cores)).way) :
    ∃ s' ∈ [s, step c s i], (step c s i).rdata (bankOf c (i.rpi p).portAdr)
      (p % c.cores % c.bankRamPorts) = contents c s' (wordNo (i.rpi p).portAdr) := by
  obtain ⟨-, hi, ht⟩ := hd.rpTag p hp hs
  obtain ⟨hlt, hvalid, htaddr⟩ := TagRam.tagOut_hit hv
  rw [hd.consistent.rdata, hi] at hvalid htaddr
  rw [ht] at htaddr
  have hrow := bankWiadr_rp (i := i) hb hp
    (fun h => by rw [h] at hs; cases hs) hg
  rw [hway, wayIndexOf_eq hlt] at hrow
  have hport : p % c.cores % c.bankRamPorts < c.bankRamPorts :=
    Nat.mod_lt _ c.bankRamPorts_range.1
  have hsome := holdingWay_eq (l := lineOf c (i.rpi p).portAdr) hd.toOneWay hlt hvalid htaddr
  have hadr : (bankPorts c s i (bankOf c (i.rpi p).portAdr)).adr
      (p % c.cores % c.bankRamPorts) = _ := hrow
  rw [rdata_step]
  rcases Lib.Ram.cycle_read_cases (bankPorts c s i (bankOf c (i.rpi p).portAdr))
      (s.bank (bankOf c (i.rpi p).portAdr), s.rdata (bankOf c (i.rpi p).portAdr))
      (mem_portOrder.mpr hport) nodup_portOrder with hold | ⟨q, -, hwr, hq, hnew⟩
  · refine ⟨s, List.mem_cons_self, ?_⟩
    rw [hold, hadr, contents_some hsome]
    rfl
  · rw [hadr] at hq
    rcases bankWr_cases hd.oneWriter hwr with ⟨w, hw, rfl, hrow'⟩ | ⟨hbif, -, hrow'⟩
    · -- the write of a port to the very word
      refine ⟨step c s i, List.mem_cons_of_mem _ List.mem_cons_self, ?_⟩
      have hword := hd.wordNo_of_row hw (hrow'.symm.trans hq) htaddr
      rw [line_add_bank] at hword
      obtain ⟨hnobif, hwriter⟩ := writer_unique hw.lt hw.granted
      have hdat : (bankPorts c s i (bankOf c (i.rpi p).portAdr)).dat (w % c.bankRamPorts) =
          (wpOut c s i (grants c s i) w).bankDataOut := by
        show bankWdata c s i (grants c s i) _ _ = _
        rw [bankWdata, hnobif, if_neg Bool.false_ne_true, hwriter]
      rw [hnew, hdat, ← hword, hd.contents_committed hd' hw.lt hw.wr]
    · have hst := (BusIf.bankWr_spec hbif.wr).1
      obtain ⟨j, ws, hph, he⟩ := hd.phase (by rw [hst]; rfl)
      refine absurd ?_ (hd.not_exchanged hvalid (by rw [hst]; rfl))
      have heq := hrow'.symm.trans hq
      rw [hph.runs.row, Job.row, way_row he.way, Prod.mk.injEq] at heq
      rw [hph.runs.index, hph.runs.tag]
      exact ⟨heq.2, heq.1⟩

/-- What an acknowledged read delivers is what the unit contains before or after the cycle. -/
theorem Coherent.delivered (hd : Coherent c s i) (hd' : Coherent c (step c s i) k)
    (hb : RpBanks c s) (hp : p < c.rports) (hack : (rpo c s i p).portAck = true) :
    ∃ s' ∈ [s, step c s i],
      (rpo c (step c s i) k p).portData = contents c s' (wordNo (i.rpi p).portAdr) := by
  rcases ReadPort.ack_cases hack with hs | ⟨hs, hv, hg, hway, hnext⟩
  · obtain ⟨hvalid, hno, hdata⟩ := TakesHit.data (k := k) ⟨hack, hs⟩
    refine ⟨s, List.mem_cons_self, ?_⟩
    rw [hno, hd.contents_shown hvalid]
    exact hdata
  · obtain ⟨s', hs', heq⟩ := hd.contents_read hd' hb hp hs hv hg hway
    refine ⟨s', hs', Eq.trans ?_ heq⟩
    have hregs : (step c s i).rp p = ⟨.readBank, bankOf c (i.rpi p).portAdr⟩ := hnext
    refine (ReadPort.portData_readBank (by rw [hregs])).trans ?_
    simp only [rpIn, hregs]

/-- In one cycle one port writes. -/
theorem Coherent.writerOf_eq (hd : Coherent c s i) (hp : p < c.wports)
    (hw : (wpOut c s i (grants c s i) p).bankWr = true) :
    writerOf c s i (wordNo (i.wpi p).portAdr) = some p := by
  cases hq : writerOf c s i (wordNo (i.wpi p).portAdr) with
  | none => exact absurd rfl (writerOf_none hq hp hw)
  | some q =>
    obtain ⟨hlt, hw', -⟩ := writerOf_some hq
    exact congrArg some (hd.exclusive.linelock q hlt p hp
      (hd.write q hlt (WritePort.State.commits_locked (WritePort.bankWr_spec hw').1))
      (hd.write p hp (WritePort.State.commits_locked (WritePort.bankWr_spec hw).1)))

end Cycle

-- ---------------------------------------------------------------------------
-- Runs
-- ---------------------------------------------------------------------------

section Statement

variable (c : Config) (st : ℕ → State) (i : ℕ → Input)

/-- Write port `p` writes its bank in cycle `t`. -/
def Commits (p t : ℕ) : Prop := (wpOut c (st t) (i t) (grants c (st t) (i t)) p).bankWr = true

/-- What is written to word `n` in cycle `t`: the selected bytes of the data. -/
def writeAt (n t : ℕ) : Option (TByteSel × TWord) :=
  (writerOf c (st t) (i t) n).map fun p => (((i t).wpi p).portBsel, ((i t).wpi p).portData)

/-- Word `n` after the writes of the first `t` cycles. -/
def written (n t : ℕ) : TWord :=
  (Lib.Atomic.writes (writeAt c st i n) t).foldl (fun w x => Lib.merge x.1 w x.2) ((st 0).mem n)

/-- Each acknowledge of write port `p` is that of one write to its bank, made since the acknowledge
before with the same inputs; a conditional write that fails has none to show. -/
structure WritesOnce (p : ℕ) : Prop where
  acked : ∀ e, (wpo c (st e) (i e) p).portAck = true →
    (((i e).wpi p).portRlinkWcond = true → (wpo c (st e) (i e) p).portWcondOk = true) →
    ∃ t ≤ e, Commits c st i p t ∧ (i t).wpi p = (i e).wpi p ∧
      ∀ v, t ≤ v → v < e → (wpo c (st v) (i v) p).portAck = false
  between : ∀ t t', t < t' → Commits c st i p t → Commits c st i p t' →
    ∃ v, t ≤ v ∧ v < t' ∧ (wpo c (st v) (i v) p).portAck = true
  alone : ∀ t, Commits c st i p t →
    writeAt c st i (wordNo ((i t).wpi p).portAdr) t =
      some (((i t).wpi p).portBsel, ((i t).wpi p).portData)

end Statement

section Run

variable {c : Config} {s : State} {i : ℕ → Input} {p : ℕ}

theorem contents_states (hr : IsReset c s)
    (hh : ∀ t, Holds c (states c s i t) (i t) (i (t + 1))) (hc : ∀ t, Cached c (i t)) (n t : ℕ) :
    contents c (states c s i t) n = written c (states c s i) i n t := by
  have hd := coherent_states hr hh hc
  have hstart : contents c (states c s i 0) n = (states c s i 0).mem n := hr.contents n
  rw [written, ← hstart]
  refine Lib.Atomic.value_eq _ (fun t => contents c (states c s i t) n) (fun t => ?_) t
  refine (contents_step (hd t) (hd (t + 1)) n).trans ?_
  rw [writeAt]
  cases writerOf c (states c s i t) (i t) n <;> rfl

theorem IsReset.rpBanks (hr : IsReset c s) : RpBanks c s := by
  intro b p _ hg
  rw [hr.gnt] at hg
  cases hg

/-- A read that begins one cycle after reset is not acknowledged at once. -/
theorem IsReset.not_ack (hr : IsReset c s) {j k : Input} (hp : p < c.rports)
    (hrd : (j.rpi p).portRd = false) : (rpo c (step c s j) k p).portAck = false := by
  have hvalid : ∀ b, (step c s j).busif.idataValid b = false := fun b => by
    simp only [step, BusIf.comb, hr.busif.1, BusIf.combIdle, BusIf.latched]
    split <;> exact hr.idataValid b
  have hinit : ((step c s j).rp p).state = .init := by
    simp only [step, ReadPort.comb, hr.rp p hp, ReadPort.newRequest, rpIn, hrd]
    rfl
  by_contra hack
  rw [Bool.not_eq_false] at hack
  rcases ReadPort.ack_cases hack with hs | ⟨ht, -⟩
  · have hhit := ReadPort.hit_of_ack hack hs
    rw [ReadPort.busifHit, Bool.and_eq_true] at hhit
    exact Bool.false_ne_true ((hvalid _).symm.trans hhit.1)
  · rw [hinit] at ht
    cases ht

theorem rpBanks_states (hr : IsReset c s) (t : ℕ) : RpBanks c (states c s i t) := by
  cases t with
  | zero => exact hr.rpBanks
  | succ t => exact rpBanks_step

/-- A read that is acknowledged delivers its word as the writes so far have left it, with or without
that of the cycle. -/
theorem atomic_reads (hr : IsReset c s)
    (hh : ∀ t, Holds c (states c s i t) (i t) (i (t + 1))) (hc : ∀ t, Cached c (i t))
    (hp : p < c.rports) (t : ℕ) (hack : (rpo c (states c s i t) (i t) p).portAck = true) :
    ∃ u, (u = t ∨ u = t + 1) ∧ (rpo c (states c s i (t + 1)) (i (t + 1)) p).portData =
      written c (states c s i) i (wordNo ((i t).rpi p).portAdr) u := by
  have hd := coherent_states hr hh hc
  simp only [← contents_states hr hh hc]
  obtain ⟨s', hs', heq⟩ := (hd t).delivered (hd (t + 1)) (rpBanks_states hr t) hp hack
  rcases List.mem_cons.mp hs' with rfl | hs'
  · exact ⟨t, .inl rfl, heq⟩
  · obtain rfl := List.mem_singleton.mp hs'
    exact ⟨t + 1, .inr rfl, heq⟩

theorem oneRead_cached (t : ℕ) : Cached oneCore (oneRead t) := by
  refine ⟨fun p _ h => ?_, fun p _ h => ?_, fun p _ => ?_⟩ <;> simp only [oneRead] at *
  · split <;> rfl
  · split at h <;> cases h
  · split <;> exact ⟨rfl, rfl⟩

theorem atomic_reads_oneRead :
    ∃ u, (u = 10 ∨ u = 11) ∧
      (rpo oneCore (states oneCore quiet oneRead 11) (oneRead 11) 0).portData =
        written oneCore (states oneCore quiet oneRead) oneRead 0 u :=
  atomic_reads quiet_isReset_oneCore oneRead_holds oneRead_cached (by decide) 10
    (by decide +kernel)

/-- A port that goes on holds its inputs. -/
theorem wpi_held (hh : ∀ t, Holds c (states c s i t) (i t) (i (t + 1))) (hp : p < c.wports)
    {t e : ℕ} (hte : t ≤ e) (hreq : WritePort.requested ((i t).wpi p) = true)
    (hno : ∀ v, t ≤ v → v < e → (wpo c (states c s i v) (i v) p).portAck = false) :
    (i e).wpi p = (i t).wpi p := by
  induction e, hte using Nat.le_induction with
  | base => rfl
  | succ e hte ih =>
    have hsame := ih fun v hv hve => hno v hv (Nat.lt_succ_of_lt hve)
    rw [(hh e).wp p hp (by rw [hsame, hreq]) (hno e hte (Nat.lt_succ_self e)), hsame]

theorem once_states (hr : IsReset c s) (hp : p < c.wports) : Lib.Atomic.Once
      (fun t => (wpo c (states c s i t) (i t) p).portAck = true)
      (Commits c (states c s i) i p) (fun t => ((states c s i t).wp p).state.owes = true) where
  start h := by
    rw [show ((states c s i 0).wp p).state = .init from (hr.wp p hp).1] at h
    cases h
  next t := by
    rw [Bool.not_eq_true]
    exact WritePort.owes_iff
  once t h hw := by
    rw [Commits, wpOut, WritePort.not_bankWr_of_owes h] at hw
    cases hw

/-- Each write that is acknowledged is written once, conditional writes that fail apart. -/
theorem atomic_writes (hr : IsReset c s)
    (hh : ∀ t, Holds c (states c s i t) (i t) (i (t + 1))) (hc : ∀ t, Cached c (i t))
    (hp : p < c.wports) : WritesOnce c (states c s i) i p where
  acked e hack hok := by
    have hd := coherent_states hr hh hc e
    obtain ⟨t, hte, hw, hno⟩ := (once_states hr hp).exists_write
      (WritePort.ack_cases hack (hd.aside hp) (hd.cached.write p hp) hok)
    have hno' : ∀ v, t ≤ v → v < e → (wpo c (states c s i v) (i v) p).portAck = false :=
      fun v hv hve => Bool.eq_false_of_not_eq_true (hno v hv hve)
    have hreq : WritePort.requested ((i t).wpi p) = true := by
      refine (coherent_states hr hh hc t).requested p hp fun hs => ?_
      have hcommits := (WritePort.bankWr_spec hw).1
      rw [hs] at hcommits
      cases hcommits
    exact ⟨t, hte, hw, (wpi_held hh hp hte hreq hno').symm, hno'⟩
  between t t' hlt hw hw' := (once_states hr hp).ack_between hlt hw hw'
  alone t hw := by rw [writeAt, (coherent_states hr hh hc t).writerOf_eq hp hw]; rfl

/-- Write port 0 writes 7 at 0, again and again. -/
def writesSeven : Input :=
  { noRequest with
    wpi := fun p => ⟨p == 0, false, 15, false, false, false, 0, 7⟩
    ackI := true }

theorem atomic_writes_seven :
    WritesOnce oneCore (states oneCore quiet fun _ => writesSeven) (fun _ => writesSeven) 0 :=
  atomic_writes quiet_isReset_oneCore (fun _ => ⟨fun _ _ _ _ => rfl, fun _ _ _ _ => rfl⟩)
    (fun _ => ⟨fun _ _ _ => rfl, fun _ _ _ => rfl, fun _ _ => ⟨rfl, rfl⟩⟩) (by decide)

end Run

end ParaNut.Memu
