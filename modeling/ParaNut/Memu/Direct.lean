import ParaNut.Memu.Discipline

/-!
# Direct accesses

A direct access goes through the BusIf alone: the BusIf latches the request of
the port that has its grant, runs one Wishbone cycle for it, and shows a word
that was read in one cycle, in which the port takes it. A word that a line
fill shows belongs to a cached line, so no direct read takes that.
-/

namespace ParaNut.Memu

/-- Addresses are accessed directly if they are `uncached`, and else through the cache. -/
structure Apart (c : Config) (uncached : TWord → Prop) (i : Input) : Prop where
  read : ∀ p < c.rports, (i.rpi p).portRd = true →
    ((i.rpi p).portDirect = true ↔ uncached (i.rpi p).portAdr)
  write : ∀ p < c.wports, (i.wpi p).portWr = true →
    ((i.wpi p).portDirect = true ↔ uncached (i.wpi p).portAdr)

-- ---------------------------------------------------------------------------
-- Units
-- ---------------------------------------------------------------------------

namespace ReadPort

/-- What a port in a state is being asked. -/
def State.asks (q : ReadportIn) : State → Bool
  | .init | .readBank => true
  | .directWaitBusif => q.portRd && q.portDirect
  | .readTag | .missWaitBusif | .missRequestTag | .missReadTag | .missReplace =>
    q.portRd && !q.portDirect

variable {c : Config} {r : Registers} {i : In}

theorem asks_next {q : ReadportIn} (h : r.state.asks i.rpi = true)
    (hq : i.rpi.portRd = true → (comb c r i).2.portAck = false → q = i.rpi) :
    (comb c r i).1.state.asks q = true := by
  revert hq
  cases hs : r.state <;> simp only [hs, State.asks] at h <;>
    simp only [comb, hs, defaults, newRequest, readHit]
  all_goals
    repeat' split
    all_goals simp_all [State.asks]

theorem directWait_next (h : (comb c r i).1.state = .directWaitBusif) :
    (comb c r i).2.portAck = false ∧ (comb c r i).2.reqBusif = true ∧
      (r.state = .directWaitBusif ∨
        i.gntBusif = true ∧ i.rpi.portRd = true ∧ i.rpi.portDirect = true) := by
  revert h
  cases hs : r.state <;> simp only [comb, hs, defaults, newRequest, readHit]
  all_goals
    repeat' split
    all_goals simp_all

/-- A direct read that is granted the BusIf waits for it. -/
theorem directRead_spec (h : (comb c r i).2.busifOp = .directRead) (hs : r.state.asks i.rpi = true) :
    i.rpi.portRd = true ∧ i.rpi.portDirect = true ∧
      (i.gntBusif = true → (r.state = .directWaitBusif → busifHit c i = false) →
        (comb c r i).1.state = .directWaitBusif ∧ (comb c r i).2.portAck = false) := by
  revert h
  cases hst : r.state <;>
    simp only [comb, hst, defaults, newRequest, readHit, State.asks] at hs ⊢
  all_goals
    repeat' split
    all_goals simp_all

theorem directWait_waits (h : r.state = .directWaitBusif) (hhit : busifHit c i = false) :
    (comb c r i).1.state = .directWaitBusif ∧ (comb c r i).2.portAck = false := by
  simp [comb, h, hhit, defaults]

theorem busifOp_replace (h : (comb c r i).2.busifOp = .replace) : r.state = .missReplace := by
  revert h
  cases hs : r.state <;> simp only [comb, hs, defaults, newRequest, readHit]
  all_goals
    repeat' split
    all_goals simp_all

theorem busifOp_ne_directWrite : (comb c r i).2.busifOp ≠ .directWrite := by
  cases hs : r.state <;> simp only [comb, hs, defaults, newRequest, readHit]
  all_goals
    repeat' split
    all_goals simp_all

/-- A direct request is put to the BusIf at once, or finds a word there. -/
theorem direct_requests (hs : r.state.asks i.rpi = true) (hrd : i.rpi.portRd = true)
    (hd : i.rpi.portDirect = true) :
    (comb c r i).2.busifOp = .directRead ∧
      ((comb c r i).2.portAck = true → r.state = .directWaitBusif ∧ busifHit c i = true ∧
        (comb c r i).1.state = .init) := by
  cases hst : r.state <;>
    simp only [comb, hst, defaults, newRequest, readHit, State.asks] at hs ⊢
  all_goals
    repeat' split
    all_goals simp_all

theorem portData_init (h : r.state = .init) : (comb c r i).2.portData = i.busifData := by
  simp only [comb, h, newRequest, defaults]
  repeat' split
  all_goals rfl

end ReadPort

namespace WritePort

/-- What a port in a state is being asked. -/
def State.asks (q : WriteportIn) : State → Bool
  | .init => true
  | .direct => q.portWr && q.portDirect
  | .specialRequestBusifOnly | .special | .specialWaitComplete =>
    !q.portWr && (q.portWriteback || q.portInvalidate)
  | _ => q.portWr && !q.portDirect

variable {c : Config} {r : Registers} {i : In}

theorem asks_next {q : WriteportIn} (h : r.state.asks i.wpi = true)
    (hq : requested i.wpi = true → (comb c r i).2.portAck = false → q = i.wpi) :
    (comb c r i).1.state.asks q = true := by
  revert hq
  cases hs : r.state <;> simp only [hs, State.asks] at h <;>
    simp only [comb, hs, defaults, combInit, snooped_state, writeState]
  all_goals
    repeat' split
    all_goals simp_all [State.asks, requested]

theorem direct_next (h : (comb c r i).1.state = .direct) :
    i.busifBusy = false ∧ (comb c r i).2.portAck = false ∧ (comb c r i).2.reqBusif = true ∧
      (comb c r i).2.busifOp = .directWrite ∧
      (r.state = .direct ∨ i.gntBusif = true ∧ r.state = .init) := by
  revert h
  cases hs : r.state <;> simp only [comb, hs, defaults, combInit, snooped_state, writeState]
  all_goals
    repeat' split
    all_goals simp_all

theorem directWrite_spec (h : (comb c r i).2.busifOp = .directWrite)
    (hs : r.state.asks i.wpi = true) : i.wpi.portWr = true ∧ i.wpi.portDirect = true ∧
      (i.gntBusif = true → i.busifBusy = false → (comb c r i).1.state = .direct ∧
        (comb c r i).2.portAck = false) := by
  revert h
  cases hst : r.state <;>
    simp only [comb, hst, defaults, combInit, snooped_state, specialOp, State.asks] at hs ⊢
  all_goals
    repeat' split
    all_goals simp_all

theorem busifOp_replace (h : (comb c r i).2.busifOp = .replace) : r.state = .replace := by
  revert h
  cases hs : r.state <;> simp only [comb, hs, defaults, combInit, specialOp]
  all_goals
    repeat' split
    all_goals simp_all

theorem busifOp_ne_directRead : (comb c r i).2.busifOp ≠ .directRead := by
  cases hs : r.state <;> simp only [comb, hs, defaults, combInit, specialOp]
  all_goals
    repeat' split
    all_goals simp_all

theorem direct_requests (hs : r.state.asks i.wpi = true) (hwr : i.wpi.portWr = true)
    (hd : i.wpi.portDirect = true) :
    (comb c r i).2.busifOp = .directWrite ∧
      ((comb c r i).2.portAck = true → r.state = .direct ∧ i.busifBusy = true ∧
        (comb c r i).1.state = .init) := by
  cases hst : r.state <;>
    simp only [comb, hst, defaults, combInit, snooped_state, State.asks] at hs ⊢
  all_goals
    repeat' split
    all_goals simp_all

end WritePort

namespace BusIf

variable {c : Config} {r : Registers} {i : In}

/-- When the BusIf shows data words: the one just read, or the line it replaces. -/
structure ShowsData (c : Config) (r : Registers) : Prop where
  valid : ∀ b, r.idataValid b = true →
    r.state = .directRead2 ∧ b = bankOf c r.adr ∨ r.state.usesTag = true ∧ r.op = .replace
  read : r.state = .directRead2 → r.idataValid (bankOf c r.adr) = true
  replace : r.state = .cacheReplaceReadIdata → r.op = .replace

theorem ShowsData.next (h : ShowsData c r) : ShowsData c (comb c r i).1 where
  valid b := by
    have hv := h.valid b
    have hr := h.replace
    cases hs : r.state <;> simp only [hs, State.usesTag] at hv hr <;>
      simp only [comb, hs, combIdle, latched, tagWritten]
    case directRead2 =>
      intro hb
      rcases eq_or_ne b (bankOf c r.adr) with rfl | hne
      · simp at hb
      · rw [Function.update_of_ne hne] at hb
        exact absurd (by simpa using hv hb) hne
    all_goals
      repeat' split
      all_goals simp_all [State.usesTag, Function.update_apply]
  read hs' := by
    revert hs'
    cases hs : r.state <;> simp only [comb, hs, combIdle, latched, tagWritten]
    all_goals
      repeat' split
      all_goals simp_all
  replace hs' := by
    have hr := h.replace
    revert hs'
    cases hs : r.state <;> simp only [hs] at hr <;>
      simp only [comb, hs, combIdle, latched, tagWritten]
    all_goals
      repeat' split
      all_goals simp_all

/-- No word is shown while the BusIf takes a request or waits for the bus. -/
theorem ShowsData.none (h : ShowsData c r)
    (hs : r.state = .idle ∨ r.state = .directRead1 ∨ r.state = .directWrite) (b : ℕ) :
    r.idataValid b = false := by
  by_contra hv
  rcases h.valid b (Bool.of_not_eq_false hv) with ⟨h2, -⟩ | ⟨hw, -⟩
  · rcases hs with hs | hs | hs <;> rw [hs] at h2 <;> cases h2
  · rcases hs with hs | hs | hs <;> rw [hs] at hw <;> cases hw

/-- The request a direct access was started with. -/
structure Latched (c : Config) (r : Registers) (i : In) : Prop where
  adr : r.adr = i.adrIn
  bsel : r.bsel = i.busifBsel
  odata : r.odata = i.dataIn

theorem directRead1_next (h : (comb c r i).1.state = .directRead1) :
    r.state = .idle ∧ i.busifOp = .directRead ∧ Latched c (comb c r i).1 i ∨
      r.state = .directRead1 ∧ i.ackI = false ∧ (comb c r i).1.adr = r.adr ∧
        (comb c r i).1.bsel = r.bsel := by
  revert h
  cases hs : r.state <;> simp only [comb, hs, combIdle, latched, tagWritten]
  case idle =>
    cases hop : i.busifOp
    case directRead => exact fun _ => .inl ⟨trivial, rfl, rfl, rfl, rfl⟩
    all_goals simp
    all_goals split <;> simp
  all_goals
    repeat' split
    all_goals simp_all

theorem directRead2_next (h : (comb c r i).1.state = .directRead2) :
    r.state = .directRead1 ∧ i.ackI = true ∧ (comb c r i).1.adr = r.adr ∧
      (comb c r i).1.bsel = r.bsel ∧ (comb c r i).1.idata (bankOf c r.adr) = i.datI := by
  revert h
  cases hs : r.state <;> simp only [comb, hs, combIdle, latched, tagWritten]
  case idle =>
    cases hop : i.busifOp <;> simp
    all_goals split <;> simp
  all_goals
    repeat' split
    all_goals simp_all

theorem directWrite_next (h : (comb c r i).1.state = .directWrite) :
    r.state = .idle ∧ i.busifOp = .directWrite ∧ Latched c (comb c r i).1 i ∨
      r.state = .directWrite ∧ i.ackI = false ∧ (comb c r i).1.adr = r.adr ∧
        (comb c r i).1.bsel = r.bsel ∧ (comb c r i).1.odata = r.odata := by
  revert h
  cases hs : r.state <;> simp only [comb, hs, combIdle, latched, tagWritten]
  case idle =>
    cases hop : i.busifOp
    case directWrite => exact fun _ => .inl ⟨trivial, rfl, rfl, rfl, rfl⟩
    all_goals simp
    all_goals split <;> simp
  all_goals
    repeat' split
    all_goals simp_all

theorem directWrite_latched (hs : r.state = .idle) (hop : i.busifOp = .directWrite) :
    (comb c r i).1.state = .directWrite ∧ Latched c (comb c r i).1 i := by
  simp only [comb, hs, combIdle, hop]
  exact ⟨trivial, rfl, rfl, rfl⟩

theorem directRead_latched (hs : r.state = .idle) (hop : i.busifOp = .directRead) :
    (comb c r i).1.state = .directRead1 ∧ Latched c (comb c r i).1 i := by
  simp only [comb, hs, combIdle, hop]
  exact ⟨trivial, rfl, rfl, rfl⟩

theorem idle_of_not_busy (h : (comb c r i).2.busifBusy = false) :
    r.state = .idle ∨ r.state = .cacheAck := by
  revert h
  cases hs : r.state <;> simp [comb, hs, defaults]

theorem cacheAck_next (hs : r.state = .cacheAck) : (comb c r i).1.state = .idle := by
  simp [comb, hs]

/-- A cache operation keeps its line until it is done. -/
theorem cacheOp_next (hw : WellFormed c r) (h : (comb c r i).1.state = .cacheRequestLlWait ∨
      (comb c r i).1.state.working = true) :
    (r.state = .cacheRequestLlWait ∨ r.state.working = true) ∧ (comb c r i).1.op = r.op ∧
        lineOf c (comb c r i).1.adr = lineOf c r.adr ∨
      r.state = .idle ∧ (comb c r i).1.op = i.busifOp ∧
        lineOf c (comb c r i).1.adr = lineOf c i.adrIn := by
  have ha := hw.adrOfs
  revert h
  cases hs : r.state <;> simp only [hs, comb, combIdle, latched, tagWritten] at ha ⊢
  all_goals
    repeat' split
    all_goals simp_all [State.working, lineOf_clearOfs, lineOf_setBank]

end BusIf

-- ---------------------------------------------------------------------------
-- The ports of the BusIf
-- ---------------------------------------------------------------------------

section Ports

variable (c : Config) (s : State) (i : Input) (n : ℕ)

/-- Port `n` of the BusIf asks for a direct access. -/
def direct : Bool :=
  if n < wpOff c then (i.rpi n).portRd && (i.rpi n).portDirect
  else (i.wpi (n - wpOff c)).portWr && (i.wpi (n - wpOff c)).portDirect

def portAdr : TWord := if n < wpOff c then (i.rpi n).portAdr else (i.wpi (n - wpOff c)).portAdr

def portBsel : TByteSel :=
  if n < wpOff c then (i.rpi n).portBsel else (i.wpi (n - wpOff c)).portBsel

def portAck : Bool :=
  if n < wpOff c then (rpo c s i n).portAck else (wpo c s i (n - wpOff c)).portAck

/-- The operation port `n` requests. -/
def portOp : BusIfOp :=
  if n < wpOff c then (rpOut c s i (grants c s i) n).busifOp
  else (wpOut c s i (grants c s i) (n - wpOff c)).busifOp

/-- The BusIf has latched the request of port `n`. -/
structure Carries (r : BusIf.Registers) : Prop where
  adr : r.adr = portAdr c i n
  bsel : r.bsel = portBsel c i n
  odata : wpOff c ≤ n → r.odata (bankOf c r.adr) = (i.wpi (n - wpOff c)).portData

/-- Who has the BusIf for a direct access, and where its data belongs. -/
structure Serves (cached : ℕ → Prop) (s : State) (i : Input) : Prop extends Locks c s i where
  apart : Apart c (fun a => ¬ cached (lineOf c a)) i
  shows : BusIf.ShowsData c s.busif
  rp : ∀ p < c.rports, (s.rp p).state.asks (i.rpi p) = true
  wp : ∀ p < c.wports, (s.wp p).state.asks (i.wpi p) = true
  fill : s.busif.state = .cacheRequestLlWait ∨ s.busif.state.working = true →
    s.busif.op = .replace → cached (lineOf c s.busif.adr)
  rpBusif : ∀ p < c.rports, (s.rp p).state = .directWaitBusif → s.arb.gnt.busif p = true
  reads : s.busif.state = .directRead1 ∨ s.busif.state = .directRead2 →
    ∃ p < c.rports, (s.rp p).state = .directWaitBusif ∧ Carries c i p s.busif
  writes : ∀ p < c.wports, (s.wp p).state = .direct →
    s.busif.state = .idle ∨ s.busif.state = .directWrite ∧ Carries c i (p + wpOff c) s.busif

end Ports

section Cycle

variable {c : Config} {cached : ℕ → Prop} {s : State} {i i' : Input} {n p : ℕ}

/-- A port of the BusIf is a read port or a write port. -/
theorem port_kind (hn : n < idxBusif c) : n < c.rports ∨ ∃ p < c.wports, n = p + wpOff c := by
  rcases Nat.lt_or_ge n c.rports with hlt | hge
  · exact .inl hlt
  · refine .inr ⟨n - wpOff c, ?_, (Nat.sub_add_cancel hge).symm⟩
    simp only [idxBusif, wpOff] at hn hge ⊢
    omega

theorem wp_not_lt : ¬ p + wpOff c < wpOff c := Nat.not_lt.mpr (Nat.le_add_left _ _)

theorem direct_rp (hp : p < c.rports) :
    direct c i p = ((i.rpi p).portRd && (i.rpi p).portDirect) := if_pos hp

@[simp] theorem direct_wp :
    direct c i (p + wpOff c) = ((i.wpi p).portWr && (i.wpi p).portDirect) := by
  rw [direct, if_neg wp_not_lt, Nat.add_sub_cancel]

theorem portAdr_rp (hp : p < c.rports) : portAdr c i p = (i.rpi p).portAdr := if_pos hp

@[simp] theorem portAdr_wp : portAdr c i (p + wpOff c) = (i.wpi p).portAdr := by
  rw [portAdr, if_neg wp_not_lt, Nat.add_sub_cancel]

theorem portBsel_rp (hp : p < c.rports) : portBsel c i p = (i.rpi p).portBsel := if_pos hp

@[simp] theorem portBsel_wp : portBsel c i (p + wpOff c) = (i.wpi p).portBsel := by
  rw [portBsel, if_neg wp_not_lt, Nat.add_sub_cancel]

theorem portAck_rp (hp : p < c.rports) : portAck c s i p = (rpo c s i p).portAck := if_pos hp

@[simp] theorem portAck_wp : portAck c s i (p + wpOff c) = (wpo c s i p).portAck := by
  rw [portAck, if_neg wp_not_lt, Nat.add_sub_cancel]

theorem portOp_rp (hp : p < c.rports) :
    portOp c s i p = (rpOut c s i (grants c s i) p).busifOp := if_pos hp

@[simp] theorem portOp_wp :
    portOp c s i (p + wpOff c) = (wpOut c s i (grants c s i) p).busifOp := by
  rw [portOp, if_neg wp_not_lt, Nat.add_sub_cancel]

theorem rp_step : (step c s i).rp p =
    (ReadPort.comb c (s.rp p) (rpIn c s i (grants c s i) p)).1 := rfl

theorem busifUser_eq (hx : Arbiter.Exclusive c (grants c s i)
      (fun p => indexOf c (i.wpi p).portAdr) (indexOf c s.busif.adr))
    (hn : n < idxBusif c) (hg : (grants c s i).busif n = true) :
    busifUser c (grants c s i) = some n := by
  cases hu : busifUser c (grants c s i) with
  | none =>
    rw [busifUser, List.find?_eq_none] at hu
    exact absurd hg (hu n (by simpa using hn))
  | some m =>
    obtain ⟨hm, hgm⟩ := busifUser_some hu
    rw [hx.busif m hm n hn hgm hg]

/-- The BusIf sees the request of the port it is granted to. -/
theorem bifIn_of_user (hu : busifUser c (grants c s i) = some n) :
    (bifIn c s i (grants c s i)).busifOp = portOp c s i n ∧
      (bifIn c s i (grants c s i)).adrIn = portAdr c i n ∧
      (bifIn c s i (grants c s i)).busifBsel = portBsel c i n := by
  simp only [bifIn, hu]
  exact ⟨rfl, rfl, rfl⟩

theorem user_of_op (hop : (bifIn c s i (grants c s i)).busifOp ≠ .nothing) :
    ∃ n < idxBusif c, (grants c s i).busif n = true ∧
      busifUser c (grants c s i) = some n := by
  cases hu : busifUser c (grants c s i) with
  | none => exact absurd (by simp only [bifIn, hu]) hop
  | some n =>
    obtain ⟨hn, hg⟩ := busifUser_some hu
    exact ⟨n, hn, hg, rfl⟩

theorem bankRd_idle (g : Lines) (hs : s.busif.state = .idle) (b : ℕ) :
    (bifo c s g).bankRd b = false := by
  simp [bifo, BusIf.comb, hs, BusIf.defaults]

/-- A request that is latched is carried. -/
theorem carries_of_latched {r : BusIf.Registers} (hs : s.busif.state = .idle)
    (hu : busifUser c (grants c s i) = some n)
    (hl : BusIf.Latched c r (bifIn c s i (grants c s i))) : Carries c i n r := by
  obtain ⟨-, hadr, hbsel⟩ := bifIn_of_user hu
  refine ⟨hl.adr.trans hadr, hl.bsel.trans hbsel, fun hn => ?_⟩
  rw [hl.odata]
  simp only [bifIn, hu]
  rw [if_pos ⟨hn, bankRd_idle _ hs _⟩]

theorem rp_busif_kept (hp : p < c.rports) (hg : s.arb.gnt.busif p = true)
    (h : (rpOut c s i (grants c s i) p).reqBusif = true) : (grants c s i).busif p = true := by
  rw [busif_eq]
  refine Arbiter.gntBusif_kept hg ?_
  have hlt : ¬ wpOff c ≤ p := Nat.not_le.mpr hp
  simpa only [requests, if_neg hlt] using h

namespace Serves

theorem rp_held (hd : Serves c cached s i) (hh : Holds c s i i') (hp : p < c.rports)
    (h : ((step c s i).rp p).state = .directWaitBusif) : i'.rpi p = i.rpi p := by
  obtain ⟨hack, -, hs | ⟨-, hrd, -⟩⟩ := ReadPort.directWait_next h
  · have hasks := hd.rp p hp
    rw [hs, ReadPort.State.asks, Bool.and_eq_true] at hasks
    exact hh.rp p hp hasks.1 hack
  · exact hh.rp p hp hrd hack

theorem wp_held (hd : Serves c cached s i) (hh : Holds c s i i') (hp : p < c.wports)
    (h : ((step c s i).wp p).state = .direct) : i'.wpi p = i.wpi p :=
  (hd.held hh hp (by rw [h]; exact nofun)).2

/-- A port that waits for a word takes no word of a line. -/
theorem read2_of_hit (hd : Serves c cached s i) (hp : p < c.rports)
    (hs : (s.rp p).state = .directWaitBusif)
    (hhit : ReadPort.busifHit c (rpIn c s i (grants c s i) p) = true) :
    s.busif.state = .directRead2 := by
  rw [ReadPort.busifHit, Bool.and_eq_true, beq_iff_eq] at hhit
  obtain ⟨hvalid, hword⟩ := hhit
  rcases hd.shows.valid _ hvalid with ⟨hs2, -⟩ | ⟨hw, hop⟩
  · exact hs2
  · have hasks := hd.rp p hp
    rw [hs, ReadPort.State.asks, Bool.and_eq_true] at hasks
    have hline : lineOf c (i.rpi p).portAdr = lineOf c s.busif.adr := by
      rw [lineOf, lineOf, wordNo, wordNo, show wordOf (i.rpi p).portAdr = wordOf s.busif.adr from hword]
    have hcached := hd.fill (.inr (BusIf.State.usesTag_working hw)) hop
    rw [← hline] at hcached
    exact absurd hcached ((hd.apart.read p hp hasks.1).mp hasks.2)

/-- The word read for a port is taken by it. -/
theorem hit_of_read2 (hd : Serves c cached s i) (hs : s.busif.state = .directRead2)
    (hc : Carries c i p s.busif) (hp : p < c.rports) :
    ReadPort.busifHit c (rpIn c s i (grants c s i) p) = true := by
  have hadr : s.busif.adr = (i.rpi p).portAdr := hc.adr.trans (portAdr_rp hp)
  rw [ReadPort.busifHit, Bool.and_eq_true, beq_iff_eq]
  constructor
  · show s.busif.idataValid (bankOf c (i.rpi p).portAdr) = true
    rw [← hadr]
    exact hd.shows.read hs
  · show wordOf (i.rpi p).portAdr = wordOf s.busif.adr
    rw [hadr]

theorem cached_of_replace (hd : Serves c cached s i) (hn : n < idxBusif c)
    (hop : portOp c s i n = .replace) : cached (lineOf c (portAdr c i n)) := by
  rcases port_kind hn with hp | ⟨p, hp, rfl⟩
  · rw [portOp_rp hp] at hop
    have hasks := hd.rp n hp
    rw [ReadPort.busifOp_replace hop] at hasks
    simp only [ReadPort.State.asks, Bool.and_eq_true, Bool.not_eq_true'] at hasks
    rw [portAdr_rp hp]
    by_contra hno
    simp [(hd.apart.read n hp hasks.1).mpr hno] at hasks
  · rw [portOp_wp] at hop
    have hasks := hd.wp p hp
    rw [WritePort.busifOp_replace hop] at hasks
    simp only [WritePort.State.asks, Bool.and_eq_true, Bool.not_eq_true'] at hasks
    rw [portAdr_wp]
    by_contra hno
    simp [(hd.apart.write p hp hasks.1).mpr hno] at hasks

theorem fill_step (hd : Serves c cached s i)
    (hs : (step c s i).busif.state = .cacheRequestLlWait ∨
      (step c s i).busif.state.working = true) (hop : (step c s i).busif.op = .replace) :
    cached (lineOf c (step c s i).busif.adr) := by
  rcases BusIf.cacheOp_next hd.busif hs with ⟨hs', hop', hline⟩ | ⟨-, hop', hline⟩
  · rw [show lineOf c (step c s i).busif.adr = _ from hline]
    exact hd.fill hs' (hop'.symm.trans hop)
  · have hbif : (bifIn c s i (grants c s i)).busifOp = .replace := hop'.symm.trans hop
    obtain ⟨n, hn, -, hu⟩ := user_of_op (by rw [hbif]; exact nofun)
    obtain ⟨hpop, hadr, -⟩ := bifIn_of_user hu
    rw [show lineOf c (step c s i).busif.adr = _ from hline, hadr]
    exact hd.cached_of_replace hn (hpop.symm.trans hbif)

theorem rpBusif_step (hd : Serves c cached s i) (hp : p < c.rports)
    (h : ((step c s i).rp p).state = .directWaitBusif) : (grants c s i).busif p = true := by
  obtain ⟨-, hreq, hs | ⟨hg, -⟩⟩ := ReadPort.directWait_next h
  · exact rp_busif_kept hp (hd.rpBusif p hp hs) hreq
  · exact hg

theorem carries_held {r : BusIf.Registers} (hp : p < c.rports) (hq : i'.rpi p = i.rpi p)
    (h : Carries c i p r) : Carries c i' p r := by
  refine ⟨?_, ?_, fun hle => absurd hp (Nat.not_lt.mpr hle)⟩
  · rw [h.adr, portAdr_rp hp, portAdr_rp hp, hq]
  · rw [h.bsel, portBsel_rp hp, portBsel_rp hp, hq]

theorem carries_held_wp {r : BusIf.Registers} (hq : i'.wpi p = i.wpi p)
    (h : Carries c i (p + wpOff c) r) : Carries c i' (p + wpOff c) r := by
  refine ⟨?_, ?_, fun hle => ?_⟩
  · rw [h.adr, portAdr_wp, portAdr_wp, hq]
  · rw [h.bsel, portBsel_wp, portBsel_wp, hq]
  · rw [h.odata hle, Nat.add_sub_cancel, hq]

theorem reads_step (hd : Serves c cached s i) (hh : Holds c s i i')
    (h : (step c s i).busif.state = .directRead1 ∨ (step c s i).busif.state = .directRead2) :
    ∃ p < c.rports, ((step c s i).rp p).state = .directWaitBusif ∧
      Carries c i' p (step c s i).busif := by
  have hwaits : s.busif.state = .directRead1 → (step c s i).busif.adr = s.busif.adr →
      (step c s i).busif.bsel = s.busif.bsel → ∃ p < c.rports,
        ((step c s i).rp p).state = .directWaitBusif ∧ Carries c i' p (step c s i).busif := by
    intro hs1 hadr hbsel
    obtain ⟨p, hp, hs, hc⟩ := hd.reads (.inl hs1)
    have hhit : ReadPort.busifHit c (rpIn c s i (grants c s i) p) = false := by
      by_contra hhit
      have h2 := hd.read2_of_hit hp hs (Bool.of_not_eq_false hhit)
      rw [hs1] at h2
      cases h2
    have hs' : ((step c s i).rp p).state = .directWaitBusif :=
      (ReadPort.directWait_waits hs hhit).1
    have hc' : Carries c i p (step c s i).busif :=
      ⟨hadr.trans hc.adr, hbsel.trans hc.bsel, fun hle => absurd hp (Nat.not_lt.mpr hle)⟩
    exact ⟨p, hp, hs', carries_held hp (hd.rp_held hh hp hs') hc'⟩
  rcases h with h | h
  · rcases BusIf.directRead1_next h with ⟨hidle, hop, hl⟩ | ⟨hs1, -, hadr, hbsel⟩
    · obtain ⟨n, hn, hg, hu⟩ := user_of_op (by rw [hop]; exact nofun)
      have hpop : portOp c s i n = .directRead := (bifIn_of_user hu).1.symm.trans hop
      rcases port_kind hn with hlt | ⟨p, -, rfl⟩
      swap
      · exact absurd (portOp_wp.symm.trans hpop) WritePort.busifOp_ne_directRead
      rw [portOp_rp hlt] at hpop
      have hs' : ((step c s i).rp n).state = .directWaitBusif := by
        refine ((ReadPort.directRead_spec hpop (hd.rp n hlt)).2.2 hg fun _ => ?_).1
        show (s.busif.idataValid _ && _) = false
        rw [hd.shows.none (.inl hidle), Bool.false_and]
      exact ⟨n, hlt, hs', carries_held hlt (hd.rp_held hh hlt hs') (carries_of_latched hidle hu hl)⟩
    · exact hwaits hs1 hadr hbsel
  · obtain ⟨hs1, -, hadr, hbsel, -⟩ := BusIf.directRead2_next h
    exact hwaits hs1 hadr hbsel

theorem writes_step (hd : Serves c cached s i) (hh : Holds c s i i') (hp : p < c.wports)
    (h : ((step c s i).wp p).state = .direct) :
    (step c s i).busif.state = .idle ∨
      (step c s i).busif.state = .directWrite ∧ Carries c i' (p + wpOff c) (step c s i).busif := by
  obtain ⟨hbusy, -, hreq, hop, hfrom⟩ := WritePort.direct_next h
  have hg : (grants c s i).busif (p + wpOff c) = true := by
    rcases hfrom with hs | ⟨hg, -⟩
    · exact busif_kept (hd.ownsBusif p hp (by rw [hs]; rfl)) hreq
    · exact hg
  rcases BusIf.idle_of_not_busy hbusy with hidle | hack
  · have hu := busifUser_eq (exclusive_grants hd.exclusive) (wp_lt_idx hp) hg
    have hbif : (bifIn c s i (grants c s i)).busifOp = .directWrite := by
      rw [(bifIn_of_user hu).1, portOp_wp]
      exact hop
    obtain ⟨hs', hl⟩ := BusIf.directWrite_latched hidle hbif
    exact .inr ⟨hs', carries_held_wp (hd.wp_held hh hp h) (carries_of_latched hidle hu hl)⟩
  · exact .inl (BusIf.cacheAck_next hack)

protected theorem step (hd : Serves c cached s i) (hh : Holds c s i i')
    (ha : Apart c (fun a => ¬ cached (lineOf c a)) i') :
    Serves c cached (step c s i) i' where
  toLocks := hd.toLocks.step hh
  apart := ha
  shows := hd.shows.next
  rp p hp := ReadPort.asks_next (hd.rp p hp) (hh.rp p hp)
  wp p hp := WritePort.asks_next (hd.wp p hp) (hh.wp p hp)
  fill := hd.fill_step
  rpBusif p hp h := by
    rw [arb_step]
    exact hd.rpBusif_step hp h
  reads := hd.reads_step hh
  writes p hp := hd.writes_step hh hp

end Serves

theorem IsReset.showsData (h : IsReset c s) : BusIf.ShowsData c s.busif := by
  obtain ⟨hs, -⟩ := h.busif
  refine ⟨fun b hb => ?_, fun h2 => ?_, fun h2 => ?_⟩
  · rw [h.idataValid] at hb
    cases hb
  · rw [hs] at h2
    cases h2
  · rw [hs] at h2
    cases h2

theorem IsReset.serves (h : IsReset c s) (ha : Apart c (fun a => ¬ cached (lineOf c a)) i) :
    Serves c cached s i where
  toLocks := h.locks
  apart := ha
  shows := h.showsData
  rp p hp := by
    rw [h.rp p hp]
    rfl
  wp p hp := by
    rw [(h.wp p hp).1]
    rfl
  fill hs := by
    rw [h.busif.1] at hs
    rcases hs with hs | hs <;> cases hs
  rpBusif p hp hs := by
    rw [h.rp p hp] at hs
    cases hs
  reads hs := by
    rw [h.busif.1] at hs
    rcases hs with hs | hs <;> cases hs
  writes p hp hs := by
    rw [(h.wp p hp).1] at hs
    cases hs

end Cycle

end ParaNut.Memu
