import ParaNut.Memu.AtomicMemory
import ParaNut.Memu.Uncached

/-!
# The memory unit with the caches off

As after a reset, all accesses go to the bus. A write is acknowledged when the
BusIf has taken it up, before it is in memory. Still reads and writes are
those of an atomic memory, since the BusIf does one after the other.
-/

namespace ParaNut.Memu

/-- All accesses of a cycle are direct, and no cache-control operation is asked for. -/
structure CachesOff (c : Config) (i : Input) : Prop where
  read : ∀ p < c.rports, (i.rpi p).portRd = true → (i.rpi p).portDirect = true
  write : ∀ p < c.wports, (i.wpi p).portWr = true → (i.wpi p).portDirect = true
  control : ∀ p < c.wports, (i.wpi p).portWriteback = false ∧ (i.wpi p).portInvalidate = false

theorem CachesOff.apart {c : Config} {i : Input} (h : CachesOff c i) :
    Apart c (fun _ => ¬ False) i where
  read p hp hrd := ⟨fun _ => not_false, fun _ => h.read p hp hrd⟩
  write p hp hwr := ⟨fun _ => not_false, fun _ => h.write p hp hwr⟩

/-- The write to word `n` that the BusIf takes up in a cycle. -/
def takenUp (c : Config) (s : State) (i : Input) (n : ℕ) : Option (TByteSel × TWord) :=
  let b := bifIn c s i (grants c s i)
  if s.busif.state = .idle ∧ b.busifOp = .directWrite ∧ wordNo b.adrIn = n then
    some (b.busifBsel, b.dataIn (bankOf c b.adrIn))
  else none

/-- Word `n` with the write that the BusIf does. -/
def posted (c : Config) (s : State) (n : ℕ) : TWord :=
  if s.busif.state = .directWrite ∧ wordNo s.busif.adr = n then
    Lib.merge s.busif.bsel (s.mem n) (s.busif.odata (bankOf c s.busif.adr))
  else s.mem n

-- ---------------------------------------------------------------------------
-- Units
-- ---------------------------------------------------------------------------

namespace ReadPort

variable {c : Config} {r : Registers} {i : In}

theorem busifOp_direct (hs : r.state.asks i.rpi = true)
    (hd : i.rpi.portRd = true → i.rpi.portDirect = true) :
    (comb c r i).2.busifOp.isCache = false := by
  revert hs
  cases hst : r.state <;> simp only [comb, hst, defaults, newRequest, readHit, State.asks]
  all_goals
    repeat' split
    all_goals simp_all [BusIfOp.isCache]

end ReadPort

namespace WritePort

variable {c : Config} {r : Registers} {i : In}

theorem busifOp_direct (hs : r.state.asks i.wpi = true)
    (hd : i.wpi.portWr = true → i.wpi.portDirect = true)
    (hno : i.wpi.portWriteback = false ∧ i.wpi.portInvalidate = false) :
    (comb c r i).2.busifOp.isCache = false := by
  revert hs
  cases hst : r.state <;> simp only [comb, hst, defaults, combInit, State.asks]
  all_goals
    repeat' split
    all_goals simp_all [BusIfOp.isCache]

theorem direct_of_ack (hs : r.state.asks i.wpi = true)
    (hd : i.wpi.portWr = true → i.wpi.portDirect = true)
    (hno : i.wpi.portWriteback = false ∧ i.wpi.portInvalidate = false)
    (hack : (comb c r i).2.portAck = true) : r.state = .direct := by
  revert hs hack
  cases hst : r.state <;> simp only [comb, hst, defaults, combInit, State.asks]
  all_goals
    repeat' split
    all_goals simp_all

end WritePort

namespace BusIf

variable {c : Config} {r : Registers} {i : In}

theorem atDirect_next (hd : r.state ≠ .idle → r.state.atDirect = true)
    (hi : i.busifOp.isCache = false) :
    (comb c r i).1.state ≠ .idle → (comb c r i).1.state.atDirect = true := by
  cases hs : r.state <;> simp only [hs] at hd
  case idle =>
    cases hop : i.busifOp <;> rw [hop] at hi <;>
      simp [comb, hs, combIdle, latched, hop, State.atDirect, BusIfOp.isCache] at hi ⊢
  case directRead1 | directRead2 | directWrite =>
    simp only [comb, hs]
    repeat' split
    all_goals simp_all [State.atDirect]
  all_goals exact absurd (hd (by decide)) Bool.false_ne_true

end BusIf

-- ---------------------------------------------------------------------------
-- The memory unit
-- ---------------------------------------------------------------------------

/-- The invariant of runs with the caches off. -/
structure DirectOnly (c : Config) (s : State) (i : Input) : Prop
    extends Serves c (fun _ => False) s i where
  off : CachesOff c i
  direct : s.busif.state ≠ .idle → s.busif.state.atDirect = true
  shown : s.busif.state = .directRead2 →
    s.busif.idata (bankOf c s.busif.adr) = s.mem (wordNo s.busif.adr)
  waits : ∀ p < c.wports, (s.wp p).state = .direct → s.busif.state = .directWrite

section Cycle

variable {c : Config} {s : State} {i i' : Input} {n p q : ℕ}

namespace DirectOnly

theorem busifOp (hd : DirectOnly c s i) :
    (bifIn c s i (grants c s i)).busifOp.isCache = false := by
  cases hu : busifUser c (grants c s i) with
  | none =>
    simp only [bifIn, hu]
    rfl
  | some n =>
    obtain ⟨hn, -⟩ := busifUser_some hu
    rw [(bifIn_of_user hu).1]
    rcases port_kind hn with hp | ⟨p, hp, rfl⟩
    · rw [portOp_rp hp]
      exact ReadPort.busifOp_direct (hd.rp n hp) (hd.off.read n hp)
    · rw [portOp_wp]
      exact WritePort.busifOp_direct (hd.wp p hp) (hd.off.write p hp) (hd.off.control p hp)

/-- A port goes on to its acknowledge when its write is taken up. -/
theorem taken_of_waits (hd : DirectOnly c s i) (hp : p < c.wports)
    (h : ((step c s i).wp p).state = .direct) : s.busif.state = .idle ∧
      (grants c s i).busif (p + wpOff c) = true ∧
      (wpOut c s i (grants c s i) p).busifOp = .directWrite := by
  obtain ⟨hbusy, -, hreq, hop, hfrom⟩ := WritePort.direct_next h
  refine ⟨?_, ?_, hop⟩
  · rcases BusIf.idle_of_not_busy hbusy with hidle | hack
    · exact hidle
    · have hat := hd.direct (by rw [hack]; exact nofun)
      rw [hack] at hat
      cases hat
  · rcases hfrom with hs | ⟨hg, -⟩
    · exact busif_kept (hd.ownsBusif p hp (by rw [hs]; rfl)) hreq
    · exact hg

/-- The BusIf sees the request of the port. -/
theorem bifIn_taken (hd : DirectOnly c s i) (hp : p < c.wports)
    (h : ((step c s i).wp p).state = .direct) : s.busif.state = .idle ∧
      (bifIn c s i (grants c s i)).busifOp = .directWrite ∧
      (bifIn c s i (grants c s i)).adrIn = (i.wpi p).portAdr ∧
      (bifIn c s i (grants c s i)).busifBsel = (i.wpi p).portBsel ∧
      ∀ b, (bifIn c s i (grants c s i)).dataIn b = (i.wpi p).portData := by
  obtain ⟨hidle, hg, hop⟩ := hd.taken_of_waits hp h
  have hu := busifUser_eq (exclusive_grants hd.exclusive) (wp_lt_idx hp) hg
  obtain ⟨hbop, hadr, hbsel⟩ := bifIn_of_user hu
  refine ⟨hidle, ?_, ?_, ?_, fun b => ?_⟩
  · rw [hbop, portOp_wp, hop]
  · rw [hadr, portAdr_wp]
  · rw [hbsel, portBsel_wp]
  · simp only [bifIn, hu]
    rw [if_pos ⟨Nat.le_add_left _ _, bankRd_idle _ hidle _⟩, Nat.add_sub_cancel]

theorem takenUp_of_waits (hd : DirectOnly c s i) (hp : p < c.wports)
    (h : ((step c s i).wp p).state = .direct) : takenUp c s i n =
      if wordNo (i.wpi p).portAdr = n then some ((i.wpi p).portBsel, (i.wpi p).portData)
      else none := by
  obtain ⟨hidle, hop, hadr, hbsel, hdata⟩ := hd.bifIn_taken hp h
  simp only [takenUp, hidle, hop, hadr, hbsel, hdata, true_and]

/-- What is taken up is the write of a port. -/
theorem waits_of_takenUp (hd : DirectOnly c s i) {x : TByteSel × TWord}
    (h : takenUp c s i n = some x) : ∃ p < c.wports, ((step c s i).wp p).state = .direct ∧
      wordNo (i.wpi p).portAdr = n ∧ x = ((i.wpi p).portBsel, (i.wpi p).portData) := by
  have htaken := h
  simp only [takenUp, Option.ite_none_right_eq_some] at htaken
  obtain ⟨⟨hidle, hop, -⟩, -⟩ := htaken
  obtain ⟨m, hm, hg, hu⟩ := user_of_op (by rw [hop]; exact nofun)
  have hpop : portOp c s i m = .directWrite := (bifIn_of_user hu).1.symm.trans hop
  rcases port_kind hm with hlt | ⟨p, hp, rfl⟩
  · rw [portOp_rp hlt] at hpop
    exact absurd hpop ReadPort.busifOp_ne_directWrite
  · rw [portOp_wp] at hpop
    have hbusy : (bifo c s (grants c s i)).busifBusy = false := by
      simp [bifo, BusIf.comb, hidle]
    have hs := ((WritePort.directWrite_spec hpop (hd.wp p hp)).2.2 hg hbusy).1
    refine ⟨p, hp, hs, ?_⟩
    rw [hd.takenUp_of_waits hp hs, Option.ite_none_right_eq_some] at h
    exact ⟨h.1, (Option.some.inj h.2).symm⟩

theorem mem_kept (hd : DirectOnly c s i) (hs : s.busif.state ≠ .directWrite) :
    (step c s i).mem = s.mem := by
  refine (wbWrite_none hs fun hv => ?_).2
  have hat := hd.direct (by rw [hv]; exact nofun)
  rw [hv] at hat
  cases hat

/-- The memory changes when the BusIf takes up a write. -/
theorem posted_step (hd : DirectOnly c s i) (n : ℕ) : posted c (step c s i) n =
    match takenUp c s i n with
      | some x => Lib.merge x.1 (posted c s n) x.2
      | none => posted c s n := by
  by_cases hs : s.busif.state = .directWrite
  · -- the write of an earlier cycle goes on, or gets into memory
    have hnone : takenUp c s i n = none := by simp [takenUp, hs]
    rw [hnone]
    have hmem : (step c s i).mem = nextMem c s i (grants c s i) := rfl
    have hbif : (step c s i).busif = (BusIf.comb c s.busif (bifIn c s i (grants c s i))).1 := rfl
    rw [posted, posted, hmem, hbif]
    cases ha : i.ackI with
    | false =>
      simp [nextMem, bifo, BusIf.comb, hs, ha, show (bifIn c s i (grants c s i)).ackI = _ from ha]
    | true =>
      simp only [nextMem, bifo, BusIf.comb, hs, ha,
        show (bifIn c s i (grants c s i)).ackI = _ from ha, BusIf.defaults, Bool.and_self, if_true,
        Function.update_apply]
      simp only [reduceCtorEq, false_and, true_and, if_false, eq_comm (a := n)]
      split
      · rename_i hn
        rw [hn]
      · rfl
  · have hmem := hd.mem_kept (i := i) hs
    rw [posted, posted, hmem, if_neg (c := s.busif.state = _ ∧ _) fun h => hs h.1]
    by_cases ht : s.busif.state = .idle ∧ (bifIn c s i (grants c s i)).busifOp = .directWrite
    · obtain ⟨hs', hl⟩ := BusIf.directWrite_latched (c := c) ht.1 ht.2
      have hadr : (step c s i).busif.adr = (bifIn c s i (grants c s i)).adrIn := hl.adr
      have hbsel : (step c s i).busif.bsel = (bifIn c s i (grants c s i)).busifBsel := hl.bsel
      have hdata : (step c s i).busif.odata = (bifIn c s i (grants c s i)).dataIn := hl.odata
      have hs' : (step c s i).busif.state = .directWrite := hs'
      simp only [takenUp, ht, hs', hadr, hbsel, hdata, true_and]
      split <;> rfl
    · have hnone : takenUp c s i n = none := if_neg fun h => ht ⟨h.1, h.2.1⟩
      rw [hnone]
      refine if_neg fun h => ?_
      rcases BusIf.directWrite_next h.1 with ⟨hidle, hop, -⟩ | ⟨hs', -⟩
      · exact ht ⟨hidle, hop⟩
      · exact hs hs'

theorem shown_step (hd : DirectOnly c s i) (h : (step c s i).busif.state = .directRead2) :
    (step c s i).busif.idata (bankOf c (step c s i).busif.adr) =
      (step c s i).mem (wordNo (step c s i).busif.adr) := by
  obtain ⟨hs, -, hadr, -, hdata⟩ := BusIf.directRead2_next h
  have hadr : (step c s i).busif.adr = s.busif.adr := hadr
  rw [hadr, hd.mem_kept (by rw [hs]; exact nofun)]
  refine Eq.trans hdata ?_
  simp [bifIn, bifo, BusIf.comb, hs, BusIf.defaults]

theorem waits_step (hd : DirectOnly c s i) (hp : p < c.wports)
    (h : ((step c s i).wp p).state = .direct) : (step c s i).busif.state = .directWrite := by
  obtain ⟨hidle, hop, -⟩ := hd.bifIn_taken hp h
  exact (BusIf.directWrite_latched hidle hop).1

protected theorem step (hd : DirectOnly c s i) (hh : Holds c s i i') (ho : CachesOff c i') :
    DirectOnly c (step c s i) i' :=
  { hd.toServes.step hh ho.apart with
    off := ho
    direct := BusIf.atDirect_next hd.direct hd.busifOp
    shown := hd.shown_step
    waits := fun _ hp h => hd.waits_step hp h }

/-- A read that is acknowledged delivers the word as it is. -/
theorem delivered (hd : DirectOnly c s i) {k : Input} (hp : p < c.rports)
    (hack : (rpo c s i p).portAck = true) :
    (rpo c (step c s i) k p).portData = posted c s (wordNo (i.rpi p).portAdr) := by
  have hrd := ReadPort.portRd_of_ack hack (hd.rp p hp)
  obtain ⟨hs, hhit, hnext⟩ := (ReadPort.direct_requests (hd.rp p hp) hrd (hd.off.read p hp hrd)).2
    hack
  have hs2 := hd.read2_of_hit hp hs hhit
  rw [ReadPort.busifHit, Bool.and_eq_true, beq_iff_eq] at hhit
  have hword : wordNo (i.rpi p).portAdr = wordNo s.busif.adr := by
    rw [wordNo, wordNo]
    exact congrArg BitVec.toNat hhit.2
  have hdata : (rpo c (step c s i) k p).portData = s.busif.idata (bankOf c s.busif.adr) :=
    ReadPort.portData_init hnext
  rw [hdata, hd.shown hs2, hword, posted, hs2, if_neg fun h => absurd h.1 (by decide)]

/-- A write is acknowledged in the cycle after it has been taken up. -/
theorem ack_iff (hd : DirectOnly c s i) (hp : p < c.wports) :
    (wpo c s i p).portAck = true ↔ (s.wp p).state = .direct := by
  refine ⟨WritePort.direct_of_ack (hd.wp p hp) (hd.off.write p hp) (hd.off.control p hp),
    fun hs => WritePort.direct_acks hs ?_⟩
  exact wb_busy (i := i) (.inr (.inr (hd.waits p hp hs)))

end DirectOnly

theorem IsReset.directOnly (h : IsReset c s) (ho : CachesOff c i) : DirectOnly c s i :=
  { (h.serves ho.apart : Serves c (fun _ => False) s i) with
    off := ho
    direct := fun hs => absurd h.busif.1 hs
    shown := fun hs => by
      rw [h.busif.1] at hs
      cases hs
    waits := fun p hp hs => by
      rw [(h.wp p hp).1] at hs
      cases hs }

theorem IsReset.posted (h : IsReset c s) (n : ℕ) : posted c s n = s.mem n :=
  if_neg fun hs => by
    rw [h.busif.1] at hs
    cases hs.1

end Cycle

-- ---------------------------------------------------------------------------
-- Runs
-- ---------------------------------------------------------------------------

section Statement

variable (c : Config) (st : ℕ → State) (i : ℕ → Input)

/-- Word `n` after the writes that are taken up in the first `t` cycles. -/
def stored (n t : ℕ) : TWord :=
  (Lib.Atomic.writes (fun t => takenUp c (st t) (i t) n) t).foldl (fun w x => Lib.merge x.1 w x.2)
    ((st 0).mem n)

/-- A write is taken up in the cycle before its acknowledge, one at a time, and a read delivers what
the writes taken up before its acknowledge have left. -/
structure InTurn : Prop where
  read : ∀ p < c.rports, ∀ t, (rpo c (st t) (i t) p).portAck = true →
    (rpo c (st (t + 1)) (i (t + 1)) p).portData =
      stored c st i (wordNo ((i t).rpi p).portAdr) t
  write : ∀ p < c.wports, ∀ e, (wpo c (st e) (i e) p).portAck = true →
    ∃ t, e = t + 1 ∧ (i e).wpi p = (i t).wpi p ∧
      takenUp c (st t) (i t) (wordNo ((i t).wpi p).portAdr) =
        some (((i t).wpi p).portBsel, ((i t).wpi p).portData)
  acked : ∀ t n x, takenUp c (st t) (i t) n = some x → ∃ p < c.wports,
    (wpo c (st (t + 1)) (i (t + 1)) p).portAck = true ∧ wordNo ((i t).wpi p).portAdr = n ∧
      x = (((i t).wpi p).portBsel, ((i t).wpi p).portData)
  alone : ∀ p < c.wports, ∀ q < c.wports, ∀ e, (wpo c (st e) (i e) p).portAck = true →
    (wpo c (st e) (i e) q).portAck = true → p = q

end Statement

section Run

variable {c : Config} {s : State} {i : ℕ → Input}

theorem directOnly_states (hr : IsReset c s)
    (hh : ∀ t, Holds c (states c s i t) (i t) (i (t + 1))) (ho : ∀ t, CachesOff c (i t)) (t : ℕ) :
    DirectOnly c (states c s i t) (i t) :=
  Lib.run_invariant_input (DirectOnly c) (fun s a b => Holds c s a b ∧ CachesOff c b)
    (hr.directOnly (ho 0)) (fun _ _ _ henv hd => hd.step henv.1 henv.2)
    (fun t => ⟨hh t, ho (t + 1)⟩) t

theorem posted_states (hr : IsReset c s)
    (hh : ∀ t, Holds c (states c s i t) (i t) (i (t + 1))) (ho : ∀ t, CachesOff c (i t)) (n t : ℕ) :
    posted c (states c s i t) n = stored c (states c s i) i n t := by
  have hstart : posted c (states c s i 0) n = (states c s i 0).mem n := hr.posted n
  rw [stored, ← hstart]
  refine Lib.Atomic.value_eq _ (fun t => posted c (states c s i t) n) (fun t => ?_) t
  refine ((directOnly_states hr hh ho t).posted_step n).trans ?_
  cases takenUp c (states c s i t) (i t) n <;> rfl

/-- With the caches off, as after a reset, the unit does accesses in turn. -/
theorem caches_off_in_turn (hr : IsReset c s)
    (hh : ∀ t, Holds c (states c s i t) (i t) (i (t + 1))) (ho : ∀ t, CachesOff c (i t)) :
    InTurn c (states c s i) i where
  read p hp t hack := by
    rw [← posted_states hr hh ho]
    exact (directOnly_states hr hh ho t).delivered hp hack
  write p hp e hack := by
    have hs := ((directOnly_states hr hh ho e).ack_iff hp).mp hack
    cases e with
    | zero =>
      rw [show states c s i 0 = s from rfl, (hr.wp p hp).1] at hs
      cases hs
    | succ t =>
      have hd := directOnly_states hr hh ho t
      have hs : ((step c (states c s i t) (i t)).wp p).state = .direct := hs
      refine ⟨t, rfl, hd.wp_held (hh t) hp hs, ?_⟩
      rw [hd.takenUp_of_waits hp hs, if_pos rfl]
  acked t n x hx := by
    obtain ⟨p, hp, hs, hn, hx⟩ := (directOnly_states hr hh ho t).waits_of_takenUp hx
    exact ⟨p, hp, ((directOnly_states hr hh ho (t + 1)).ack_iff hp).mpr hs, hn, hx⟩
  alone p hp q hq e hack hack' := by
    have hd := directOnly_states hr hh ho e
    refine Nat.add_right_cancel (hd.exclusive.busif _ (wp_lt_idx hp) _ (wp_lt_idx hq)
      (hd.ownsBusif p hp ?_) (hd.ownsBusif q hq ?_))
    · rw [(hd.ack_iff hp).mp hack]
      rfl
    · rw [(hd.ack_iff hq).mp hack']
      rfl

/-- Port 0 writes 7 at 0, and then reads it. -/
def directSeven (t : ℕ) : Input :=
  { noRequest with
    rpi := fun p => ⟨p == 0 && decide (2 ≤ t), 15, true, 0⟩
    wpi := fun p => ⟨p == 0 && decide (t < 2), true, 15, false, false, false, 0, 7⟩
    ackI := true }

theorem directSeven_holds (t : ℕ) :
    Holds oneCore (states oneCore quiet directSeven t) (directSeven t) (directSeven (t + 1)) where
  rp p _ hrd _ := by
    simp only [directSeven, Bool.and_eq_true, decide_eq_true_eq] at hrd ⊢
    simp [hrd.2, Nat.le_succ_of_le hrd.2]
  wp p hp hreq hack := by
    simp only [directSeven, WritePort.requested, Bool.or_false, Bool.and_eq_true,
      decide_eq_true_eq] at hreq ⊢
    obtain rfl : p = 0 := Nat.lt_one_iff.mp hp
    obtain rfl | rfl : t = 0 ∨ t = 1 := by omega
    · rfl
    · exact absurd hack (by decide +kernel)

/-- The read delivers 7. -/
theorem caches_off_in_turn_seven :
    (rpo oneCore (states oneCore quiet directSeven 5) (directSeven 5) 0).portData =
      stored oneCore (states oneCore quiet directSeven) directSeven 0 4 :=
  (caches_off_in_turn quiet_isReset_oneCore directSeven_holds
    fun _ => ⟨fun _ _ _ => rfl, fun _ _ _ => rfl, fun _ _ => ⟨rfl, rfl⟩⟩).read 0 (by decide) 4
    (by decide +kernel)

end Run

end ParaNut.Memu
