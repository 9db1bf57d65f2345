import ParaNut.Memu.LineLock
import ParaNut.SysC.Arbiter
import ParaNut.SysC.WritePort

/-!
# Conditional writes that fail, in the SystemC model

The write ports with their line lock and the snooping between them; what the
rest of the memory unit answers is arbitrary. A method runs when a signal it
is sensitive to has changed, and what it has written stays until then:
`MainMethod` does not follow the link registers alone.
-/

namespace ParaNut.SysC.WritePorts

open Memu
open Memu.WritePort (State Registers In requested conditional goesOn)
open MWritePort (Out mainMethod linked changes)

structure State where
  wp : ℕ → Registers
  /-- the outputs that each `MainMethod` has written last; what it has written to the `next_`
  signals is in the registers by the next cycle -/
  out : ℕ → Out
  linelockReg : ℕ → Bool

/-- Inputs of one cycle: those of the ports, what is granted and read apart from the line lock, and
which methods run. -/
structure Input where
  wpi : ℕ → WriteportIn
  mainRuns : ℕ → Bool
  lineLockRuns : Bool
  counterReg : TWord
  reqBusifLinelock : Bool
  wiadrBusif : TWord
  busifBusy : Bool
  tagIn : ℕ → CacheTag
  bankDataIn : ℕ → TWord
  gntTagr : ℕ → Bool
  gntTagw : ℕ → Bool
  gntBusif : ℕ → Bool
  gntBank : ℕ → ℕ → Bool

section Cycle

variable (c : Config) (method : ℕ) (s : State) (i : Input)

/-- The line locks as lines of the arbiter; `SnoopMethod` reads no others. -/
def lockLines (g : ℕ → Bool) : Lines := { Lines.none with linelock := g }

/-- The inputs of `MainMethod`, under the line locks `g`. -/
def portIn (g : ℕ → Bool) (p : ℕ) : In where
  wpi := i.wpi p
  tagIn := i.tagIn p
  bankDataIn := i.bankDataIn p
  busifBusy := i.busifBusy
  gntLinelock := g p
  gntTagr := i.gntTagr p
  gntTagw := i.gntTagw p
  gntBusif := i.gntBusif p
  gntBank := i.gntBank p
  snoopStb := Arbiter.snoopStb c (lockLines g) p
  snoopAdr := match Arbiter.writer c (lockLines g) with
    | some w => (i.wpi w).portAdr
    | none => 0xffffffff

/-- What `MainMethod` of port `p` has written by the end of the cycle. -/
def writtenFor (g : ℕ → Bool) (p : ℕ) : Registers × Out :=
  if i.mainRuns p then mainMethod c (s.wp p) (portIn c i g p) else (s.wp p, s.out p)

/-- The requests for the line lock do not depend on the grants. -/
def reqLinelock (n : ℕ) : Bool :=
  if n = c.wports then i.reqBusifLinelock
  else (writtenFor c s i (fun _ => false) n).2.reqLinelock

/-- `next_linelock_reg` -/
def linelock : ℕ → Bool :=
  if i.lineLockRuns then
    MArbiter.lineLockMethod c method ⟨i.counterReg, lockLines s.linelockReg⟩
      (lockLines (reqLinelock c s i))
      ⟨i.wiadrBusif, fun _ => 0, fun p => (i.wpi p).portAdr, fun _ => 0⟩
  else s.linelockReg

def wpIn (p : ℕ) : In := portIn c i (linelock c method s i) p

def written (p : ℕ) : Registers × Out := writtenFor c s i (linelock c method s i) p

/-- The state after one cycle. -/
def step : State where
  wp p := (written c method s i p).1
  out p := (written c method s i p).2
  linelockReg := linelock c method s i

/-- A conditional write of port `p` is acknowledged without success. -/
def Failed (p : ℕ) : Prop :=
  conditional (i.wpi p) = true ∧ (written c method s i p).2.portAck = true ∧
    (written c method s i p).2.portWcondOk = false

/-- Port `p` writes a bank word or a tag, or has its direct write taken by the BusIf. -/
def Changes (p : ℕ) : Prop := changes (wpIn c method s i p) (written c method s i p).2 = true

/-- Where a conditional write goes on to write, the link is valid and for its address. -/
def GoesOnLinked (p : ℕ) : Prop :=
  conditional (i.wpi p) = true → goesOn (s.wp p) (wpIn c method s i p) = true →
    linked (s.wp p) (i.wpi p) = true

/-- Each requester holds its inputs until they are acknowledged, and a method that does not run has
seen its inputs and its state in the cycle before. -/
structure Next (i' : Input) : Prop where
  holds : ∀ p < c.wports, requested (i.wpi p) = true → (written c method s i p).2.portAck = false →
    i'.wpi p = i.wpi p
  sensitive : ∀ p < c.wports, i'.mainRuns p = false →
    wpIn c method (step c method s i) i' p = wpIn c method s i p ∧
      ((step c method s i).wp p).state = (s.wp p).state

end Cycle

/-- The state after a reset. -/
structure IsReset (c : Config) (s : State) : Prop where
  wp : ∀ p < c.wports, (s.wp p).state = .init ∧ (s.wp p).linkValid = false
  linelockReg : ∀ n, s.linelockReg n = false

-- ---------------------------------------------------------------------------
-- The line lock
-- ---------------------------------------------------------------------------

section LineLock

variable {c : Config} {method : ℕ} {r : MArbiter.Registers} {req : Lines} {ai : MArbiter.In}

theorem lineLockBusif_wport {g : ℕ → Bool} {n : ℕ} (hn : n < c.wports) :
    MArbiter.lineLockBusif c req ai g n = g n := by
  have hne : n ≠ c.wports := Nat.ne_of_lt hn
  unfold MArbiter.lineLockBusif
  split
  · refine List.foldlRecOn (motive := fun g' : ℕ → Bool => g' n = g n) _ _
      (Function.update_of_ne hne _ _) fun g' hg' k _ => ?_
    split
    · rwa [Function.update_of_ne hne]
    · exact hg'
  · rfl

/-- Grants are kept while they are requested, and no two write ports have one. -/
theorem lineLockMethod_kept
    (hr : ∀ m < c.wports, ∀ n < c.wports, r.gnt.linelock m = true → r.gnt.linelock n = true →
      m = n) :
    (∀ n < c.wports, r.gnt.linelock n = true → req.linelock n = true →
        MArbiter.lineLockMethod c method r req ai n = true) ∧
      ∀ m < c.wports, ∀ n < c.wports, MArbiter.lineLockMethod c method r req ai m = true →
        MArbiter.lineLockMethod c method r req ai n = true → m = n := by
  unfold MArbiter.lineLockMethod
  refine List.foldlRecOn (motive := fun g : ℕ → Bool =>
    (∀ n < c.wports, r.gnt.linelock n = true → req.linelock n = true → g n = true) ∧
      ∀ m < c.wports, ∀ n < c.wports, g m = true → g n = true → m = n) _ _ ⟨?_, ?_⟩ ?_
  · intro n hn hg hreq
    rw [lineLockBusif_wport hn, hg, hreq]
    rfl
  · intro m hm n hn hgm hgn
    rw [lineLockBusif_wport hm, Bool.and_eq_true] at hgm
    rw [lineLockBusif_wport hn, Bool.and_eq_true] at hgn
    exact hr m hm n hn hgm.1 hgn.1
  · rintro g ⟨hkept, halone⟩ k -
    split
    · exact ⟨hkept, halone⟩
    · next hnone =>
      rw [Bool.not_eq_true, Arbiter.any_range_eq_false] at hnone
      split
      · refine ⟨fun n hn hg hreq => ?_, fun m hm n hn hgm hgn => ?_⟩
        · have hgn := hkept n hn hg hreq
          rw [hnone n hn] at hgn
          cases hgn
        · have honly : ∀ l < c.wports, Function.update g k true l = true → l = k := by
            intro l hl hgl
            by_contra hne
            rw [Function.update_of_ne hne, hnone l hl] at hgl
            cases hgl
          rw [honly m hm hgm, honly n hn hgn]
      · exact ⟨hkept, halone⟩

end LineLock

-- ---------------------------------------------------------------------------
-- One cycle
-- ---------------------------------------------------------------------------

section Step

variable {c : Config} {method : ℕ} {s : State} {i i' : Input} {p : ℕ}

theorem written_runs (h : i.mainRuns p = true) :
    written c method s i p = mainMethod c (s.wp p) (wpIn c method s i p) := by
  rw [written, writtenFor, if_pos h]
  rfl

theorem written_stays (h : i.mainRuns p = false) :
    written c method s i p = (s.wp p, s.out p) := by
  rw [written, writtenFor, if_neg (by simp [h])]

theorem reqLinelock_wport (hp : p < c.wports) :
    reqLinelock c s i p = (written c method s i p).2.reqLinelock := by
  rw [reqLinelock, if_neg (Nat.ne_of_lt hp), written, writtenFor, writtenFor]
  split
  · rw [MWritePort.reqLinelock_eq, MWritePort.reqLinelock_eq]
    have h := WritePort.comb_requests (c := c) (r := s.wp p) (portIn c i (fun _ => false) p)
      (portIn c i (linelock c method s i) p) rfl rfl rfl
    rw [h.1]
  · rfl

/-- What a port shows is what `MainMethod` has made of the inputs and the state of the cycle. -/
def Shown (c : Config) (method : ℕ) (s : State) (i : Input) (p : ℕ) : Prop :=
  ∃ r : Registers, r.state = (s.wp p).state ∧
    (mainMethod c r (wpIn c method s i p)).1.state = (written c method s i p).1.state ∧
    (mainMethod c r (wpIn c method s i p)).2 = (written c method s i p).2

theorem shown_of_runs (h : i.mainRuns p = true) : Shown c method s i p := by
  refine ⟨s.wp p, rfl, ?_⟩
  rw [written_runs h]
  exact ⟨rfl, rfl⟩

/-- Who holds the line lock, and what the ports show. -/
structure Locks (c : Config) (method : ℕ) (s : State) (i : Input) : Prop where
  alone : ∀ m < c.wports, ∀ n < c.wports, s.linelockReg m = true → s.linelockReg n = true → m = n
  write : ∀ p < c.wports, (s.wp p).state.writeLocked = true → s.linelockReg p = true
  requested : ∀ p < c.wports, (s.wp p).state ≠ .init → requested (i.wpi p) = true
  shown : ∀ p < c.wports, Shown c method s i p

theorem Locks.linelock_spec (h : Locks c method s i) :
    (∀ n < c.wports, s.linelockReg n = true → (written c method s i n).2.reqLinelock = true →
        linelock c method s i n = true) ∧
      ∀ m < c.wports, ∀ n < c.wports, linelock c method s i m = true →
        linelock c method s i n = true → m = n := by
  unfold linelock
  split
  · obtain ⟨hkept, halone⟩ := @lineLockMethod_kept c method
      ⟨i.counterReg, lockLines s.linelockReg⟩ (lockLines (reqLinelock c s i))
      ⟨i.wiadrBusif, fun _ => 0, fun p => (i.wpi p).portAdr, fun _ => 0⟩ h.alone
    exact ⟨fun n hn hg hreq => hkept n hn hg ((reqLinelock_wport hn).trans hreq), halone⟩
  · exact ⟨fun n _ hg _ => hg, h.alone⟩

theorem Shown.init_of_ack (h : Shown c method s i p)
    (hack : (written c method s i p).2.portAck = true) :
    (written c method s i p).1.state = .init := by
  obtain ⟨r, -, hnext, hout⟩ := h
  rw [← hnext, MWritePort.mainMethod_next]
  rw [← hout, MWritePort.portAck_eq] at hack
  exact WritePort.init_of_ack hack

theorem Locks.held (h : Locks c method s i) (hn : Next c method s i i') (hp : p < c.wports)
    (hs : (written c method s i p).1.state ≠ .init) :
    WritePort.requested (i.wpi p) = true ∧ i'.wpi p = i.wpi p := by
  have hreq : WritePort.requested (i.wpi p) = true := by
    by_cases hinit : (s.wp p).state = .init
    · obtain ⟨r, hr, hnext, -⟩ := h.shown p hp
      rw [← hnext, MWritePort.mainMethod_next] at hs
      exact WritePort.requested_of_leaves (i := wpIn c method s i p) (hr.trans hinit) hs
    · exact h.requested p hp hinit
  refine ⟨hreq, hn.holds p hp hreq ?_⟩
  by_contra hack
  exact hs ((h.shown p hp).init_of_ack (Bool.of_not_eq_false hack))

/-- A port has its lock in the cycle in which it enters a locked state. -/
theorem Locks.write_step (h : Locks c method s i) (hp : p < c.wports)
    (hs : (written c method s i p).1.state.writeLocked = true) :
    linelock c method s i p = true := by
  obtain ⟨r, hr, hnext, hout⟩ := h.shown p hp
  rw [← hnext, MWritePort.mainMethod_next] at hs
  obtain ⟨hreq, hlk | hg⟩ := WritePort.writeLocked_next hs
  · refine h.linelock_spec.1 p hp (h.write p hp (hr ▸ hlk)) ?_
    rw [← hout, MWritePort.reqLinelock_eq, hreq, Bool.true_or]
  · exact hg

theorem Locks.shown_step (h : Locks c method s i) (hn : Next c method s i i') (hp : p < c.wports) :
    Shown c method (step c method s i) i' p := by
  cases hruns : i'.mainRuns p with
  | true => exact shown_of_runs hruns
  | false =>
    obtain ⟨hin, hstate⟩ := hn.sensitive p hp hruns
    obtain ⟨r, hr, hnext, hout⟩ := h.shown p hp
    refine ⟨r, hr.trans hstate.symm, ?_, ?_⟩ <;> rw [hin, written_stays hruns]
    · exact hnext
    · exact hout

theorem Locks.step (h : Locks c method s i) (hn : Next c method s i i') :
    Locks c method (step c method s i) i' where
  alone := h.linelock_spec.2
  write _ hp hs := h.write_step hp hs
  requested p hp hs := by
    obtain ⟨hreq, hheld⟩ := h.held hn hp hs
    rwa [hheld]
  shown _ hp := h.shown_step hn hp

/-- A conditional write that is decided has its link. -/
def Tested (s : State) (i : Input) (p : ℕ) : Prop :=
  conditional (i.wpi p) = true → (s.wp p).state.decided = true → linked (s.wp p) (i.wpi p) = true

theorem Locks.tested_step (h : Locks c method s i) (hn : Next c method s i i') (hp : p < c.wports)
    (hgo : GoesOnLinked c method s i p) (ht : Tested s i p) :
    Tested (WritePorts.step c method s i) i' p := by
  intro hcond hdec
  have hne : (written c method s i p).1.state ≠ .init := by
    intro hs
    have hdec' : (written c method s i p).1.state.decided = true := hdec
    simp [hs, State.decided] at hdec'
  have hheld : i'.wpi p = i.wpi p := (h.held hn hp hne).2
  rw [hheld] at hcond ⊢
  cases hruns : i.mainRuns p with
  | false =>
    -- the registers have not changed either
    have hwp : (WritePorts.step c method s i).wp p = s.wp p :=
      congrArg Prod.fst (written_stays hruns)
    rw [hwp] at hdec ⊢
    exact ht hcond hdec
  | true =>
    have hwp : (WritePorts.step c method s i).wp p =
        (WritePort.comb c (s.wp p) (wpIn c method s i p)).1 := by
      rw [← MWritePort.mainMethod_next, ← written_runs hruns]
      rfl
    rw [hwp] at hdec ⊢
    obtain ⟨hreq, hlock, hbranch⟩ := WritePort.decided_next hdec
    have hg : linelock c method s i p = true := by
      rcases hlock with hlk | hg
      · refine h.linelock_spec.1 p hp (h.write p hp hlk) ?_
        rw [written_runs hruns, MWritePort.reqLinelock_eq, hreq, Bool.true_or]
      · exact hg
    have hsnoop : (wpIn c method s i p).snoopStb = false :=
      Arbiter.snoopStb_of_linelock hp hg fun q hq hgq => h.linelock_spec.2 q hq p hp hgq hg
    have hlink : linked (s.wp p) (i.wpi p) = true := by
      rcases hbranch with hs | hs
      · exact ht hcond hs
      · exact hgo hcond hs
    obtain ⟨hvalid, hadr⟩ := WritePort.link_decided hdec hsnoop
    rwa [linked, hvalid, hadr]

/-- An acknowledge ends the state, so `MainMethod` has run. -/
theorem Locks.runs_of_ack (h : Locks c method s i) (hp : p < c.wports)
    (hs : (s.wp p).state ≠ .init) (hack : (written c method s i p).2.portAck = true) :
    i.mainRuns p = true := by
  by_contra hruns
  have hstate := (h.shown p hp).init_of_ack hack
  rw [written_stays (Bool.eq_false_of_not_eq_true hruns)] at hstate
  exact hs hstate

theorem Locks.not_failed (h : Locks c method s i) (hp : p < c.wports) (ht : Tested s i p)
    (hgo : GoesOnLinked c method s i p) (hs : (s.wp p).state.underWay = true) :
    ¬Failed c method s i p := by
  rintro ⟨hcond, hack, hok⟩
  have hlink : linked (s.wp p) (i.wpi p) = true := by
    rcases State.underWay_cases hs with hd | hd
    · exact hgo hcond (by rw [goesOn, hd])
    · exact ht hcond hd
  have hne : (s.wp p).state ≠ .init := by
    intro hinit
    simp [hinit, State.underWay] at hs
  rw [written_runs (h.runs_of_ack hp hne hack), MWritePort.portWcondOk_eq] at hok
  rw [show linked (s.wp p) (i.wpi p) = false from hok] at hlink
  cases hlink

end Step

-- ---------------------------------------------------------------------------
-- Runs
-- ---------------------------------------------------------------------------

section Run

variable (c : Config) (method : ℕ) (s : State) (i : ℕ → Input)

def states : ℕ → State := Lib.run (step c method) s i

/-- No conditional write of port `p` that fails has done anything. -/
def FailsIntact (p : ℕ) : Prop :=
  Lib.FailsIntact (fun t => (written c method (states c method s i t) (i t) p).2.portAck = true)
    (fun t => Failed c method (states c method s i t) (i t) p)
    (fun t => Changes c method (states c method s i t) (i t) p)

end Run

theorem IsReset.locks {c : Config} {method : ℕ} {s : State} {i : Input} (h : IsReset c s)
    (hruns : ∀ p < c.wports, i.mainRuns p = true) : Locks c method s i where
  alone m _ n _ hm := by simp [h.linelockReg m] at hm
  write p hp hs := by simp [(h.wp p hp).1, State.writeLocked] at hs
  requested p hp hs := absurd (h.wp p hp).1 hs
  shown p hp := shown_of_runs (hruns p hp)

theorem failsIntact_of_goesOnLinked {c : Config} {method : ℕ} {s : State} {i : ℕ → Input} {p : ℕ}
    (hp : p < c.wports) (hr : IsReset c s) (hruns : ∀ p < c.wports, (i 0).mainRuns p = true)
    (hn : ∀ t, Next c method (states c method s i t) (i t) (i (t + 1)))
    (hgo : ∀ t, GoesOnLinked c method (states c method s i t) (i t) p) :
    FailsIntact c method s i p := by
  have hinv : ∀ t, Locks c method (states c method s i t) (i t) ∧
      Tested (states c method s i t) (i t) p :=
    Lib.run_invariant_input (fun s i => Locks c method s i ∧ Tested s i p)
      (fun s i i' => Next c method s i i' ∧ GoesOnLinked c method s i p)
      ⟨hr.locks hruns, fun _ hd => by simp [(hr.wp p hp).1, State.decided] at hd⟩
      (fun _ _ _ henv hinv =>
        ⟨hinv.1.step henv.1, hinv.1.tested_step henv.1 hp henv.2 hinv.2⟩)
      fun t => ⟨hn t, hgo t⟩
  refine Lib.failsIntact_of_underWay
    (fun t => ((states c method s i t).wp p).state.underWay = true) (fun t h => h.2.1)
    (fun t h => ?_) (fun t h hack => ?_)
    fun t h => (hinv t).1.not_failed hp (hinv t).2 (hgo t) h
  · obtain ⟨r, hr, hnext, hout⟩ := (hinv t).1.shown p hp
    rw [Changes, ← hout] at h
    rcases MWritePort.underWay_of_changes h with hs | ⟨hack, hs⟩
    · exact .inl (hr ▸ hs)
    · refine .inr ⟨by simp [← hout, hack], ?_⟩
      rw [hnext] at hs
      exact hs
  · obtain ⟨r, hr, hnext, hout⟩ := (hinv t).1.shown p hp
    rw [Bool.not_eq_true, ← hout, MWritePort.portAck_eq] at hack
    have hs := WritePort.underWay_kept (hr ▸ h) hack
    rw [← MWritePort.mainMethod_next, hnext] at hs
    exact hs

-- ---------------------------------------------------------------------------
-- Both memory units
-- ---------------------------------------------------------------------------

/-- In the hardware and in the model, a failing conditional write does nothing in a run in which
the port goes on to write with its link only. -/
theorem conditional_intact {c : Config} {p : ℕ} (hp : p < c.wports) :
    (∀ (s : Memu.State) (i : ℕ → Memu.Input), Memu.IsReset c s →
      (∀ t, Holds c (Memu.states c s i t) (i t) (i (t + 1))) →
      (∀ t, Memu.GoesOnLinked c (Memu.states c s i t) (i t) p) → Memu.FailsIntact c s i p) ∧
    ∀ (method : ℕ) (s : State) (i : ℕ → Input), IsReset c s →
      (∀ p < c.wports, (i 0).mainRuns p = true) →
      (∀ t, Next c method (states c method s i t) (i t) (i (t + 1))) →
      (∀ t, GoesOnLinked c method (states c method s i t) (i t) p) → FailsIntact c method s i p :=
  ⟨fun _ _ hr hh hgo => Memu.failsIntact_of_goesOnLinked hp hr hh hgo,
    fun _ _ _ hr hruns hn hgo => failsIntact_of_goesOnLinked hp hr hruns hn hgo⟩

/-- The inputs of a write port. -/
def conditionalWrite (direct : Bool) (adr data : TWord) : WriteportIn :=
  ⟨true, direct, 15, true, false, false, adr, data⟩

def noWrite : WriteportIn := ⟨false, false, 0, false, false, false, 0, 0⟩

/-- Inputs of the hardware, from those of write port 0. -/
def inputVhdl (w : ℕ → WriteportIn) (t : ℕ) : Memu.Input where
  rpi _ := ⟨false, 0, false, 0⟩
  wpi p := if p = 0 then w t else noWrite
  ackI := true
  portsReversed := false

/-- Inputs of the model: every request is granted, and every line is cached and dirty. -/
def inputSysC (w : ℕ → WriteportIn) (t : ℕ) : Input where
  wpi p := if p = 0 then w t else noWrite
  mainRuns _ := true
  lineLockRuns := true
  counterReg := 0
  reqBusifLinelock := false
  wiadrBusif := 0
  busifBusy := false
  tagIn _ := ⟨true, true, 0, 0⟩
  bankDataIn _ := 0
  gntTagr _ := true
  gntTagw _ := true
  gntBusif _ := true
  gntBank _ _ := true

def quietSysC : State where
  wp _ := ⟨.init, ⟨false, false, 0, 0⟩, 0, 0, false⟩
  out _ := MWritePort.defaults ⟨.init, ⟨false, false, 0, 0⟩, 0, 0, false⟩
    ⟨noWrite, ⟨false, false, 0, 0⟩, 0, false, false, false, false, false, fun _ => false, false, 0⟩
  linelockReg _ := false

theorem quietSysC_isReset : IsReset twoCores quietSysC where
  wp _ _ := ⟨rfl, rfl⟩
  linelockReg _ := rfl

theorem holds_inputVhdl {c : Config} {s : Memu.State} {w : ℕ → WriteportIn} {t : ℕ}
    (h : requested (w t) = true → (wpo c s (inputVhdl w t) 0).portAck = false → w (t + 1) = w t) :
    Holds c s (inputVhdl w t) (inputVhdl w (t + 1)) where
  rp _ _ hreq := by cases hreq
  wp p _ hreq hack := by
    rcases eq_or_ne p 0 with rfl | hp
    · simpa [inputVhdl] using h hreq hack
    · simp [inputVhdl, hp]

theorem next_inputSysC {c : Config} {method : ℕ} {s : State} {w : ℕ → WriteportIn} {t : ℕ}
    (h : requested (w t) = true → (written c method s (inputSysC w t) 0).2.portAck = false →
      w (t + 1) = w t) : Next c method s (inputSysC w t) (inputSysC w (t + 1)) where
  holds p _ hreq hack := by
    rcases eq_or_ne p 0 with rfl | hp
    · simpa [inputSysC] using h hreq hack
    · simp [inputSysC, hp]
  sensitive _ _ hruns := by cases hruns

/-- A conditional write without a link. -/
def unlinkedOnce (t : ℕ) : WriteportIn := if t = 0 then conditionalWrite false 0 7 else noWrite

theorem conditional_intact_unlinked :
    (Memu.Failed twoCores quiet (inputVhdl unlinkedOnce 0) 0 ∧
      Memu.FailsIntact twoCores quiet (inputVhdl unlinkedOnce) 0) ∧
    Failed twoCores 0 quietSysC (inputSysC unlinkedOnce 0) 0 ∧
      FailsIntact twoCores 0 quietSysC (inputSysC unlinkedOnce) 0 := by
  obtain ⟨hvhdl, hsysc⟩ := conditional_intact (c := twoCores) (p := 0) (by decide)
  have hlater : ∀ t : ℕ, unlinkedOnce (t + 1) = noWrite := fun _ => rfl
  refine ⟨⟨⟨by decide +kernel, by decide +kernel, by decide +kernel⟩,
    hvhdl quiet _ quiet_isReset (fun t => holds_inputVhdl fun hreq hack => ?_)
      fun t hcond hgo => ?_⟩,
    ⟨by decide +kernel, by decide +kernel, by decide +kernel⟩,
    hsysc 0 quietSysC _ quietSysC_isReset (fun _ _ => rfl)
      (fun t => next_inputSysC fun hreq hack => ?_) fun t hcond hgo => ?_⟩
  all_goals cases t with
  | zero => ?_
  | succ t => ?_
  · exact absurd hack (by decide +kernel)
  · rw [hlater] at hreq
    cases hreq
  · exact absurd hgo (by decide +kernel)
  · cases hcond
  · exact absurd hack (by decide +kernel)
  · rw [hlater] at hreq
    cases hreq
  · exact absurd hgo (by decide +kernel)
  · cases hcond

/-- A direct conditional write without a link. -/
def unlinkedDirect (t : ℕ) : WriteportIn := if t < 2 then conditionalWrite true 0 7 else noWrite

/-- A link for address 0, and a conditional write at address 4. -/
def linkedElsewhere (t : ℕ) : WriteportIn :=
  if t = 0 then ⟨false, false, 0, true, false, false, 0, 0⟩
  else if t < 4 then conditionalWrite false 4 7
  else noWrite

/-- The memory takes the direct write, and the cache the write at the other address, but both are
acknowledged as failed. -/
theorem conditional_not_intact :
    (IsReset twoCores quietSysC ∧
      (∀ p < twoCores.wports, (inputSysC linkedElsewhere 0).mainRuns p = true) ∧
      (∀ t, Next twoCores 0 (states twoCores 0 quietSysC (inputSysC linkedElsewhere) t)
        (inputSysC linkedElsewhere t) (inputSysC linkedElsewhere (t + 1))) ∧
      ¬FailsIntact twoCores 0 quietSysC (inputSysC linkedElsewhere) 0) ∧
    Memu.IsReset twoCores quiet ∧
      (∀ t, Holds twoCores (Memu.states twoCores quiet (inputVhdl unlinkedDirect) t)
        (inputVhdl unlinkedDirect t) (inputVhdl unlinkedDirect (t + 1))) ∧
      (Memu.states twoCores quiet (inputVhdl unlinkedDirect) 3).mem 0 = 7 ∧
      ¬Memu.FailsIntact twoCores quiet (inputVhdl unlinkedDirect) 0 := by
  refine ⟨⟨quietSysC_isReset, fun _ _ => rfl, fun t => next_inputSysC fun hreq hack => ?_,
    fun h => ?_⟩, quiet_isReset, fun t => holds_inputVhdl fun hreq hack => ?_, ?_, fun h => ?_⟩
  · match t with
    | 0 => cases hreq
    | 1 | 2 => rfl
    | 3 => exact absurd hack (by decide +kernel)
    | t + 4 => cases hreq
  · exact h 3 ⟨by decide +kernel, by decide +kernel, by decide +kernel⟩ 3 le_rfl
      (fun v hv hlt => absurd hlt (Nat.not_lt.mpr hv)) (by unfold Changes; decide +kernel)
  · match t with
    | 0 => rfl
    | 1 => exact absurd hack (by decide +kernel)
    | t + 2 => cases hreq
  · decide +kernel
  · refine h 1 ⟨by decide +kernel, by decide +kernel, by decide +kernel⟩ 0 (Nat.zero_le 1)
      (fun v _ hlt => ?_) (by unfold Memu.Changes; decide +kernel)
    obtain rfl : v = 0 := Nat.lt_one_iff.mp hlt
    decide +kernel

end ParaNut.SysC.WritePorts
