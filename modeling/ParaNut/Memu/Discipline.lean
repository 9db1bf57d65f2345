import ParaNut.Lib.Sync
import ParaNut.Memu.Cycle
import ParaNut.Memu.Units

/-!
# Who holds what

The grants exclude each other in every cycle, each port holds the lines its
state relies on, and the BusIf works on a line under the line lock, which it
holds itself or the write port it runs for. The last is not so when a write
port enters `S_WP_SPECIAL` from `S_WP_INIT` without its line lock.
-/

namespace ParaNut.Memu

/-- The state in cycle `t` of a run. -/
def states (c : Config) (s : State) (i : ℕ → Input) : ℕ → State := Lib.run (step c) s i

/-- Each requester holds its inputs until they are acknowledged. -/
structure Holds (c : Config) (s : State) (i i' : Input) : Prop where
  rp : ∀ p < c.rports, (i.rpi p).portRd = true → (rpo c s i p).portAck = false →
    i'.rpi p = i.rpi p
  wp : ∀ p < c.wports, WritePort.requested (i.wpi p) = true → (wpo c s i p).portAck = false →
    i'.wpi p = i.wpi p

/-- No write port starts a cache-control operation without the line lock. -/
def SpecialLocked (c : Config) (s : State) (i : Input) : Prop :=
  ∀ p < c.wports, WritePort.unlockedSpecial (s.wp p) (wpIn c s i (grants c s i) p) = false

/-- The write port the BusIf works for, when it has no line lock of its own. -/
structure User (c : Config) (s : State) (i : Input) (p : ℕ) : Prop where
  lt : p < c.wports
  busif : s.arb.gnt.busif (p + wpOff c) = true
  served : (s.wp p).state.served = true
  line : lineOf c (i.wpi p).portAdr = lineOf c s.busif.adr

/-- The grants each unit relies on, whatever the ports are asked for. -/
structure Locks (c : Config) (s : State) (i : Input) : Prop where
  exclusive : Arbiter.Exclusive c s.arb.gnt (fun p => indexOf c (i.wpi p).portAdr)
    (indexOf c s.busif.adr)
  busif : BusIf.WellFormed c s.busif
  requested : ∀ p < c.wports, (s.wp p).state ≠ .init → WritePort.requested (i.wpi p) = true
  write : ∀ p < c.wports, (s.wp p).state.writeLocked = true → s.arb.gnt.linelock p = true
  ownsBusif : ∀ p < c.wports, (s.wp p).state.ownsBusif = true →
    s.arb.gnt.busif (p + wpOff c) = true
  tagw : ∀ p < c.wports, (s.wp p).state.secondTagWrite = true → s.arb.gnt.tagw p = true

/-- With the line lock for cache-control operations, too. -/
structure Discipline (c : Config) (s : State) (i : Input) : Prop extends Locks c s i where
  special : ∀ p < c.wports, (s.wp p).state.atSpecial = true → s.arb.gnt.linelock p = true
  owner : s.busif.state.working = true →
    s.busif.linelock = true ∧ s.arb.gnt.linelock c.wports = true ∨
      s.busif.linelock = false ∧ ∃ p, User c s i p
  second : s.busif.state.modifying = true → ∀ p < c.wports, (s.wp p).state = .writeTag2 →
    indexOf c (i.wpi p).portAdr ≠ indexOf c s.busif.adr

-- ---------------------------------------------------------------------------
-- Requests and grants of one cycle
-- ---------------------------------------------------------------------------

section Cycle

variable {c : Config} {s : State} {i i' : Input} {g : Lines} {p : ℕ}

theorem rp_lt_idx (hp : p < c.rports) : p < idxBusif c := Nat.lt_add_right _ hp

theorem wp_lt_idx (hp : p < c.wports) : p + wpOff c < idxBusif c := by
  simp only [idxBusif, wpOff]
  omega

theorem requests_linelock (hp : p < c.wports) :
    (requests c s i g).linelock p = (wpOut c s i g p).reqLinelock := by
  simp [requests, hp.ne]

theorem requests_linelock_busif : (requests c s i g).linelock c.wports = s.busif.linelock := by
  simp [requests, bifo, BusIf.reqLinelock_eq]

theorem requests_tagw (hp : p < c.wports) :
    (requests c s i g).tagw p = (wpOut c s i g p).reqTagw := by simp [requests, hp.ne]

theorem requests_busif : (requests c s i g).busif (p + wpOff c) = (wpOut c s i g p).reqBusif := by
  simp [requests]

theorem requests_tagr (hp : p < c.wports) :
    (requests c s i g).tagr (p + wpOff c) = (wpOut c s i g p).reqTagr := by
  have hne : p + wpOff c ≠ idxBusif c := by simp only [wpOff, idxBusif]; omega
  simp [requests, hne]

/-- The grants are what the arbiter answers to the requests they lead to. -/
theorem grants_eq : grants c s i =
    Arbiter.gnt c s.arb (requests c s i (grants c s i)) (arbIn c s i (grants c s i)) :=
  (grants_settled c s i).symm

theorem linelock_eq : (grants c s i).linelock = Arbiter.gntLinelock c s.arb
    (requests c s i (grants c s i)) (arbIn c s i (grants c s i)) :=
  congrArg Lines.linelock grants_eq

theorem tagr_eq : (grants c s i).tagr =
    Arbiter.gntTagr c s.arb (requests c s i (grants c s i)) :=
  congrArg Lines.tagr grants_eq

theorem tagw_eq : (grants c s i).tagw =
    Arbiter.gntTagw c s.arb (requests c s i (grants c s i)) :=
  congrArg Lines.tagw grants_eq

theorem busif_eq : (grants c s i).busif =
    Arbiter.gntBusif c s.arb (requests c s i (grants c s i)) :=
  congrArg Lines.busif grants_eq

/-- A write port gets no lock it does not ask for. -/
theorem reqLinelock_of_grant (hp : p < c.wports) (h : (grants c s i).linelock p = true) :
    (wpOut c s i (grants c s i) p).reqLinelock = true := by
  rw [← requests_linelock hp]
  rw [linelock_eq] at h
  exact Arbiter.gntLinelock_req h

/-- Grants that exclude each other are not given together. -/
theorem exclusive_grants (h : Arbiter.Exclusive c s.arb.gnt (fun p => indexOf c (i.wpi p).portAdr)
      (indexOf c s.busif.adr)) :
    Arbiter.Exclusive c (grants c s i) (fun p => indexOf c (i.wpi p).portAdr)
      (indexOf c s.busif.adr) := by
  rw [grants_eq]
  exact Arbiter.exclusive_gnt h

end Cycle

-- ---------------------------------------------------------------------------
-- One step
-- ---------------------------------------------------------------------------

section Step

variable {c : Config} {s : State} {i i' : Input} {p q : ℕ}

theorem arb_step : (step c s i).arb.gnt = grants c s i := grants_settled c s i

theorem wp_step : (step c s i).wp p =
    (WritePort.comb c (s.wp p) (wpIn c s i (grants c s i) p)).1 := rfl

/-- A write port on its way has its inputs held. -/
theorem Locks.held (hd : Locks c s i) (hh : Holds c s i i') (hp : p < c.wports)
    (h : ((step c s i).wp p).state ≠ .init) :
    WritePort.requested (i.wpi p) = true ∧ i'.wpi p = i.wpi p := by
  have hreq : WritePort.requested (i.wpi p) = true := by
    by_cases hs : (s.wp p).state = .init
    · exact WritePort.requested_of_leaves (i := wpIn c s i (grants c s i) p) hs h
    · exact hd.requested p hp hs
  refine ⟨hreq, hh.wp p hp hreq ?_⟩
  by_contra hack
  exact h (WritePort.init_of_ack (Bool.of_not_eq_false hack))

theorem Locks.held_of_linelock (hd : Locks c s i) (hh : Holds c s i i')
    (hp : p < c.wports) (h : (grants c s i).linelock p = true) : i'.wpi p = i.wpi p := by
  have hll := reqLinelock_of_grant hp h
  refine hh.wp p hp ?_ (WritePort.ack_eq_false_of_reqLinelock hll)
  by_cases hs : (s.wp p).state = .init
  · exact WritePort.reqLinelock_requested (i := wpIn c s i (grants c s i) p) hs hll
  · exact hd.requested p hp hs

/-- A registered grant goes on while the request does. -/
theorem linelock_kept (hp : p < c.wports) (hg : s.arb.gnt.linelock p = true)
    (h : (wpOut c s i (grants c s i) p).reqLinelock = true) :
    (grants c s i).linelock p = true := by
  rw [linelock_eq]
  exact Arbiter.gntLinelock_kept hg (by rwa [requests_linelock hp])

theorem busif_kept (hg : s.arb.gnt.busif (p + wpOff c) = true)
    (h : (wpOut c s i (grants c s i) p).reqBusif = true) :
    (grants c s i).busif (p + wpOff c) = true := by
  rw [busif_eq]
  exact Arbiter.gntBusif_kept hg (by rwa [requests_busif])

theorem linelock_busif_kept (hg : s.arb.gnt.linelock c.wports = true)
    (h : s.busif.linelock = true) : (grants c s i).linelock c.wports = true := by
  rw [linelock_eq]
  exact Arbiter.gntLinelock_kept hg (by rwa [requests_linelock_busif])

/-- The BusIf has the lock in this cycle only if it wants it. -/
theorem busif_linelock_of_grant (h : (grants c s i).linelock c.wports = true) :
    s.busif.linelock = true := by
  rw [linelock_eq] at h
  rw [← requests_linelock_busif (c := c) (i := i)]
  exact Arbiter.gntLinelock_req h

theorem Locks.exclusive_step (hd : Locks c s i) (hh : Holds c s i i') :
    Arbiter.Exclusive c (step c s i).arb.gnt (fun p => indexOf c (i'.wpi p).portAdr)
      (indexOf c (step c s i).busif.adr) := by
  rw [arb_step]
  refine (exclusive_grants hd.exclusive).congr fun n hn hgn hgb => ⟨?_, ?_⟩
  · rw [hd.held_of_linelock hh hn hgn]
  · exact indexOf_congr (BusIf.lineOf_adr_next hd.busif (busif_linelock_of_grant hgb))

theorem Locks.write_step (hd : Locks c s i) (hp : p < c.wports)
    (h : ((step c s i).wp p).state.writeLocked = true) : (grants c s i).linelock p = true := by
  obtain ⟨hreq, hlk | hg⟩ := WritePort.writeLocked_next h
  · exact linelock_kept hp (hd.write p hp hlk) hreq
  · exact hg

theorem Locks.ownsBusif_step (hd : Locks c s i) (hp : p < c.wports)
    (h : ((step c s i).wp p).state.ownsBusif = true) :
    (grants c s i).busif (p + wpOff c) = true := by
  obtain ⟨hreq, ho | hg⟩ := WritePort.ownsBusif_next h
  · exact busif_kept (hd.ownsBusif p hp ho) hreq
  · exact hg

/-- A write port in the second cycle of a tag write keeps its grant. -/
theorem Locks.tagw_kept (hd : Locks c s i) {q : ℕ} (hq : q < c.wports)
    (h : (s.wp q).state.secondTagWrite = true) : (grants c s i).tagw q = true := by
  rw [tagw_eq]
  refine Arbiter.gntTagw_kept (hd.tagw q hq h) ?_
  rw [requests_tagw hq]
  exact (WritePort.secondTagWrite_writes h).1

theorem Locks.step (hd : Locks c s i) (hh : Holds c s i i') : Locks c (step c s i) i' where
  exclusive := hd.exclusive_step hh
  busif := BusIf.wellFormed_next hd.busif
  requested p hp h := by
    obtain ⟨hreq, hheld⟩ := hd.held hh hp h
    rwa [hheld]
  write p hp h := by
    rw [arb_step]
    exact hd.write_step hp h
  ownsBusif p hp h := by
    rw [arb_step]
    exact hd.ownsBusif_step hp h
  tagw p hp h := by
    rw [arb_step]
    exact (WritePort.secondTagWrite_next h).2.2.1

theorem IsReset.locks (h : IsReset c s) : Locks c s i where
  exclusive := by
    rw [h.gnt]
    constructor <;> simp [Lines.none]
  busif := by
    obtain ⟨hs, hl, -⟩ := h.busif
    constructor <;> simp [hs, hl, BusIf.State.working, BusIf.State.writesTag]
  requested p hp hs := absurd (h.wp p hp).1 hs
  write p hp hs := by simp [(h.wp p hp).1, WritePort.State.writeLocked] at hs
  ownsBusif p hp hs := by simp [(h.wp p hp).1, WritePort.State.ownsBusif] at hs
  tagw p hp hs := by simp [(h.wp p hp).1, WritePort.State.secondTagWrite] at hs

theorem Discipline.special_step (hd : Discipline c s i) (hsp : SpecialLocked c s i)
    (hp : p < c.wports) (h : ((Memu.step c s i).wp p).state.atSpecial = true) :
    (grants c s i).linelock p = true := by
  obtain ⟨hreq, hlk | hg | hspecial⟩ := WritePort.atSpecial_next h
  · exact linelock_kept hp (hd.special p hp hlk) hreq
  · exact hg
  · simp [hsp p hp] at hspecial

/-- Whom the BusIf may run for has the line lock. -/
theorem Discipline.served (hd : Discipline c s i) (hp : p < c.wports)
    (h : (s.wp p).state.served = true) : s.arb.gnt.linelock p = true := by
  rcases (WritePort.State.served_locked h).1 with hw | hs
  · exact hd.write p hp hw
  · exact hd.special p hp hs

theorem bifo_busy_of_working (g : Lines) (h : s.busif.state.working = true) :
    (bifo c s g).busifBusy = true := BusIf.working_busy h

/-- The write port the BusIf works for stays so while the BusIf works. -/
theorem Discipline.user_step (hd : Discipline c s i) (hh : Holds c s i i')
    (hu : User c s i p) (hw : s.busif.state.working = true)
    (hl : lineOf c (step c s i).busif.adr = lineOf c s.busif.adr) :
    User c (step c s i) i' p := by
  have hbusy := bifo_busy_of_working (c := c) (grants c s i) hw
  have hserved : ((step c s i).wp p).state.served = true :=
    WritePort.served_next hu.served hbusy
  have hne : ((step c s i).wp p).state ≠ .init := by
    intro hs
    simp [hs, WritePort.State.served] at hserved
  refine ⟨hu.lt, ?_, hserved, ?_⟩
  · rw [arb_step]
    exact hd.ownsBusif_step hu.lt (WritePort.State.served_locked hserved).2
  · rw [(hd.held hh hu.lt hne).2, hl, hu.line]

theorem busifUser_some {g : Lines} {n : ℕ} (h : busifUser c g = some n) :
    n < idxBusif c ∧ g.busif n = true := by
  have hmem := List.mem_of_find?_eq_some h
  have hg := List.find?_some h
  exact ⟨by simpa using hmem, hg⟩

/-- A cache operation without a lock of the BusIf is one of the write port the BusIf is granted
to. -/
theorem user_of_bifIn (hop : (bifIn c s i (grants c s i)).busifOp.isCache = true)
    (hno : (bifIn c s i (grants c s i)).busifNolinelock = true) :
    ∃ p < c.wports, (grants c s i).busif (p + wpOff c) = true ∧
      (wpOut c s i (grants c s i) p).busifOp.isCache = true ∧
      (bifIn c s i (grants c s i)).adrIn = (i.wpi p).portAdr := by
  cases hu : busifUser c (grants c s i) with
  | none => simp [bifIn, hu] at hno
  | some n =>
    obtain ⟨hn, hg⟩ := busifUser_some hu
    simp only [bifIn, hu, Bool.and_eq_true, decide_eq_true_eq] at hop hno ⊢
    obtain ⟨p, rfl⟩ := Nat.exists_eq_add_of_le' hno.1
    have hlt : ¬ p + wpOff c < wpOff c := by omega
    simp only [hlt, if_false, Nat.add_sub_cancel] at hop ⊢
    exact ⟨p, by simp only [idxBusif, wpOff] at hn; omega, hg, hop, rfl⟩

theorem Discipline.owner_step (hd : Discipline c s i) (hh : Holds c s i i')
    (h : (step c s i).busif.state.working = true) :
    (step c s i).busif.linelock = true ∧ (grants c s i).linelock c.wports = true ∨
      (step c s i).busif.linelock = false ∧ ∃ p, User c (step c s i) i' p := by
  obtain ⟨hline, ⟨hw, hl⟩ | ⟨-, hg, hl⟩ | ⟨hidle, hop, hno, hl⟩⟩ := BusIf.working_next hd.busif h
  · have hne : s.busif.state ≠ .idle := by
      intro hs
      simp [hs, BusIf.State.working] at hw
    rw [if_neg hne] at hline
    rcases hd.owner hw with ⟨hlock, hg⟩ | ⟨hlock, p, hu⟩
    · exact .inl ⟨hl.trans hlock, linelock_busif_kept hg hlock⟩
    · exact .inr ⟨hl.trans hlock, p, hd.user_step hh hu hw hline⟩
  · exact .inl ⟨hl, hg⟩
  · rw [if_pos hidle] at hline
    obtain ⟨p, hp, hg, hpop, hadr⟩ := user_of_bifIn hop hno
    have hserved : ((step c s i).wp p).state.served = true :=
      (WritePort.busifOp_isCache hpop).2
    have hne : ((step c s i).wp p).state ≠ .init := by
      intro hs
      simp [hs, WritePort.State.served] at hserved
    refine .inr ⟨hl, p, hp, ?_, hserved, ?_⟩
    · rwa [arb_step]
    · rw [(hd.held hh hp hne).2, ← hadr]
      exact hline.symm

theorem Discipline.second_step (hd : Discipline c s i) (hh : Holds c s i i')
    (hb : (step c s i).busif.state.modifying = true) (hp : p < c.wports)
    (h : ((step c s i).wp p).state = .writeTag2) :
    indexOf c (i'.wpi p).portAdr ≠ indexOf c (step c s i).busif.adr := by
  have hsecond : ((step c s i).wp p).state.secondTagWrite = true := by rw [h]; rfl
  obtain ⟨-, -, hg, hlk, -⟩ := WritePort.secondTagWrite_next hsecond
  rcases BusIf.modifying_next hb with hm | ⟨-, htagr⟩
  · have hw := BusIf.State.modifying_working hm
    have hne : s.busif.state ≠ .idle := by
      intro hs
      simp [hs, BusIf.State.working] at hw
    have hline := (BusIf.working_next hd.busif (BusIf.State.modifying_working hb)).1
    rw [if_neg hne] at hline
    rw [(hd.held hh hp (by rw [h]; simp)).2]
    rcases hd.owner hw with ⟨-, hgb⟩ | ⟨-, q, hu⟩
    · rw [show indexOf c (step c s i).busif.adr = indexOf c s.busif.adr from indexOf_congr hline]
      exact hd.exclusive.index p hp (hd.write p hp hlk) hgb
    · -- the port the BusIf works for is the only one with a lock, and it does not write
      obtain rfl := hd.exclusive.linelock p hp q hu.lt (hd.write p hp hlk)
        (hd.served hu.lt hu.served)
      have := WritePort.served_next (c := c) (i := wpIn c s i (grants c s i) p) hu.served
        (bifo_busy_of_working (c := c) _ hw)
      rw [← wp_step, h] at this
      cases this
  · exact ((exclusive_grants hd.exclusive).tagrw _ le_rfl p hp.le htagr hg).elim

theorem Discipline.step (hd : Discipline c s i) (hh : Holds c s i i')
    (hsp : SpecialLocked c s i) : Discipline c (step c s i) i' where
  toLocks := hd.toLocks.step hh
  special p hp h := by
    rw [arb_step]
    exact hd.special_step hsp hp h
  owner h := by
    rw [arb_step]
    exact hd.owner_step hh h
  second hb p hp h := hd.second_step hh hb hp h

theorem IsReset.discipline (h : IsReset c s) : Discipline c s i where
  toLocks := h.locks
  special p hp hs := by simp [(h.wp p hp).1, WritePort.State.atSpecial] at hs
  owner hs := by simp [h.busif.1, BusIf.State.working] at hs
  second hs := by simp [h.busif.1, BusIf.State.modifying] at hs

end Step

section Run

variable {c : Config} {s : State} {i : ℕ → Input}

theorem locks_states (hr : IsReset c s)
    (hh : ∀ t, Holds c (states c s i t) (i t) (i (t + 1))) (t : ℕ) :
    Locks c (states c s i t) (i t) :=
  Lib.run_invariant_input (Locks c) (Holds c) hr.locks
    (fun _ _ _ h hd => hd.step h) hh t

theorem discipline_states (hr : IsReset c s)
    (hh : ∀ t, Holds c (states c s i t) (i t) (i (t + 1)))
    (hsp : ∀ t, SpecialLocked c (states c s i t) (i t)) (t : ℕ) :
    Discipline c (states c s i t) (i t) :=
  Lib.run_invariant_input (Discipline c)
    (fun s a b => Holds c s a b ∧ SpecialLocked c s a) hr.discipline
    (fun _ _ _ h hd => hd.step h.1 h.2) (fun t => ⟨hh t, hsp t⟩) t

end Run

end ParaNut.Memu
