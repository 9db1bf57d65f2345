import ParaNut.Cpu.Core
import ParaNut.Lsu.Order

/-!
# The requests of the CPU on its memory ports

Execution unit, fetch unit and load/store unit together. What stands at a
port is a function of the registers only, so it does not depend on the
acknowledges of the same cycle. The ports latch nothing: a request must stay
until it is acknowledged.
-/

namespace ParaNut.Cpu

open Ifu (arrival bufSize isJump)
open Lsu (LsuIn LsuOut)

/-- The generics of the three units. -/
structure Config where
  exu : Mexu.Config
  lsu : Lsu.Config
  /-- `IFU_BUF_SIZE_LD` -/
  ld : ℕ

structure State where
  core : Core
  lsu : Lsu.Registers

/-- What the three ports answer, and the debug unit. -/
structure In where
  ifuRpo : ReadportOut
  rpo : ReadportOut
  wpo : WriteportOut
  duStall : Bool

section Definitions

variable (c : Config) (s : State) (i : In)

def icacheEnable : Bool := s.core.exu.spr.sr.getLsbD Mexu.ice

def dcacheEnable : Bool := s.core.exu.spr.sr.getLsbD Mexu.dce

def lsui : LsuIn := Mexu.lsui s.core.exu.r

def ifuRpi : ReadportIn where
  portRd := s.core.ifu.rpRd
  portBsel := 15
  portDirect := !icacheEnable s || !adrIsCached c.lsu.memSize s.core.ifu.rpAdr
  portAdr := s.core.ifu.rpAdr

def rpi : ReadportIn := Lsu.rpi c.lsu s.lsu (lsui s) (dcacheEnable s)

def wpi : WriteportIn := Lsu.wpi c.lsu s.lsu (lsui s) (dcacheEnable s)

def coreIn : CoreIn :=
  ⟨i.ifuRpo.portAck, i.ifuRpo.portData, Lsu.lsuo c.lsu s.lsu (lsui s) i.rpo i.wpo, i.duStall⟩

def step : State where
  core := s.core.step c.exu c.ld (coreIn c s i)
  lsu := Lsu.next c.lsu s.lsu (lsui s) i.wpo

end Definitions

/-- Requests that are not acknowledged are held. -/
structure Held (c : Config) (s : State) (i : In) (s' : State) : Prop where
  fetch : (ifuRpi c s).portRd = true → i.ifuRpo.portAck = false → ifuRpi c s' = ifuRpi c s
  read : (rpi c s).portRd = true → i.rpo.portAck = false → rpi c s' = rpi c s
  write : ((wpi c s).portWr || (wpi c s).portWriteback || (wpi c s).portInvalidate) = true →
    i.wpo.portAck = false → wpi c s' = wpi c s

/-- Bit `n` of the supervision register is changed as a whole by `MTSPR` or `RFE`. -/
def switches (s : State) (n : ℕ) : Bool :=
  let r := s.core.exu.r
  let spr := s.core.exu.spr
  (r.e.state == .sprWb1 &&
      (Mexu.setSpr (r.e.wbResult.extractLsb' 0 16) r.d.b spr).sr.getLsbD n != spr.sr.getLsbD n) ||
    (r.e.state == .init && r.d.exOp == .rfe && spr.esr.getLsbD n != spr.sr.getLsbD n)

/-- The cycles in which the units keep a request that waits. -/
structure Orderly (c : Config) (s : State) (i : In) : Prop where
  /-- a cache operation, which is presented for one cycle, is acknowledged in it -/
  cacheOp : Lsu.cacheOp (lsui s) = true → i.wpo.portAck = true
  /-- and finds the port free -/
  beforeCacheOp : s.core.exu.r.e.state = .cacheInvalidate1 →
    (s.core.exu.r.d.memLsuCacheInvalidate || s.core.exu.r.d.memLsuCacheWriteback) = true →
      s.lsu.wbufDirty0 = true → i.wpo.portAck = true
  /-- caches are not switched on or off while a request for a cached address waits -/
  icache : (ifuRpi c s).portRd = true → i.ifuRpo.portAck = false →
    adrIsCached c.lsu.memSize s.core.ifu.rpAdr = true → switches s Mexu.ice = false
  dcache : s.lsu.wbufDirty0 = true → i.wpo.portAck = false →
    adrIsCached c.lsu.memSize (s.lsu.wbufAdr 0) = true → switches s Mexu.dce = false
  inTime : InTime s.core (coreIn c s i)

-- ---------------------------------------------------------------------------
-- The fetch unit
-- ---------------------------------------------------------------------------

section Fetch

variable {ld : ℕ} {c : Mexu.Config} {s : Core} {i : CoreIn} {st : Ifu.Stream}

/-- In the cycle of a jump only the delay slot is still asked for. -/
theorem place_of_waiting (h : Fetch ld s st) (hc : Control s) (ht : InTime s i)
    (hrd : s.ifu.rpRd = true) (hj : (s.ifui i).jump = true) :
    s.ifu.insnTop + s.ifu.lastRpAck.toNat ≤ 1 := by
  have hknown : isJump (s.ifu.insnBuf 0) = true → 1 ≤ s.ifu.insnTop →
      s.ifu.insnTop + s.ifu.lastRpAck.toNat ≤ 1 := by
    intro hjmp hpos
    have := h.halts 0 hpos hjmp
    rw [hrd, Bool.toNat_true] at this
    omega
  rcases hc.jump_known hj with hx | ⟨hpos, hjmp⟩
  · rcases ht.exception hx with hjmp | hle
    · exact hknown hjmp (hc.exception (by rw [(xcJump_iff.mp hx).1]; decide)).1
    · omega
  · exact hknown hjmp hpos

/-- A request that waits stays, for the same address. -/
theorem fetch_held (h2 : 2 ≤ ld) (h : Fetch ld s st) (hc : Control s) (ht : InTime s i)
    (hrd : s.ifu.rpRd = true) (hack : i.rpAck = false) :
    (s.step c ld i).ifu.rpRd = true ∧ (s.step c ld i).ifu.rpAdr = s.ifu.rpAdr := by
  obtain ⟨hlt, hroom, hplace⟩ := h.request hrd
  simp only [Core.step, hack]
  exact Ifu.request_held h2 h.queue h.halts hc.nexti_le hroom hlt hplace hrd fun hj =>
    ⟨hc.apart hj, place_of_waiting h hc ht hrd hj⟩

end Fetch

-- ---------------------------------------------------------------------------
-- The load/store unit
-- ---------------------------------------------------------------------------

section LoadStore

variable {c : Config} {s : State} {i : In}

/-- The address of an access that has begun. -/
def Addressed (r : Mexu.Registers) : Prop :=
  r.e.state = .lsMemStall → r.e.wbResult = r.d.aluIn1 + r.d.aluIn2

theorem aluRes_sum {c : Mexu.Config} {d : Mexu.DecodeReg} (h : d.aluFunc = 0) (sr : TWord) :
    Mexu.aluRes c d sr = d.aluIn1 + d.aluIn2 := by
  have hadd : Mexu.addFunc d = true := by rw [Mexu.addFunc, h]; rfl
  have hsum : Mexu.resAdd d sr = d.aluIn1.setWidth 33 + d.aluIn2.setWidth 33 + 0#33 := by
    rw [Mexu.resAdd, h]
    rfl
  rw [Mexu.aluRes, if_pos hadd, hsum, BitVec.add_zero, BitVec.setWidth_add _ _ (by decide),
    BitVec.setWidth_setWidth_of_le _ (by decide), BitVec.setWidth_setWidth_of_le _ (by decide),
    BitVec.setWidth_eq, BitVec.setWidth_eq]

/-- How an access gets to wait for the memory. -/
theorem stall_cases {c : Mexu.Config} {r : Mexu.Registers} {i : Mexu.In} {x : Exu.ShiftOut}
    {y : Exu.MulOut} (h : Mexu.nextState c r i x y = .lsMemStall) :
    (r.e.state = .init ∧ r.d.exOp = .ls) ∨
      (r.e.state = .lsMemStall ∧ i.lsuo.ack = false ∧ i.lsuo.alignErr = false) := by
  unfold Mexu.nextState at h
  cases hs : r.e.state with
  | init =>
    rw [hs] at h
    simp only at h
    split at h
    · cases h
    · cases hop : r.d.exOp <;> rw [hop] at h <;> simp only at h
      case ls => exact .inl ⟨rfl, rfl⟩
      case shift => split at h <;> cases h
      all_goals cases h
  | lsMemStall =>
    rw [hs] at h
    cases hack : i.lsuo.ack with
    | true =>
      simp only [hack, if_true] at h
      split_ifs at h
    | false =>
      cases herr : i.lsuo.alignErr with
      | true => simp [hack, herr] at h
      | false => exact .inr ⟨rfl, rfl, rfl⟩
  | shiftStall | mulStall | cacheInvalidate2 =>
    rw [hs] at h
    simp only at h
    split at h <;> cases h
  | _ =>
    rw [hs] at h
    cases h

theorem addressed_step (c : Mexu.Config) (s : Core) (i : CoreIn) (hc : Control s) :
    Addressed (Mexu.step c s.exu (s.exuIn i)).r := by
  intro hs
  have hop : s.exu.r.d.exOp = .ls ∧ Mexu.exNexti s.exu.r (s.exuIn i) = false := by
    rcases stall_cases hs with ⟨hinit, hop⟩ | ⟨hstall, -⟩
    · exact ⟨hop, by simp [Mexu.exNexti, hinit, hop]⟩
    · have hst := hc.state_of hstall
      refine ⟨?_, by rw [Mexu.exNexti, hstall]⟩
      cases hop : s.exu.r.d.exOp <;> rw [hop] at hst <;> first | rfl | cases hst
  obtain ⟨hop, hn⟩ := hop
  obtain ⟨hsel, hfunc, -⟩ := hc.kind.access hop
  have hd : (Mexu.step c s.exu (s.exuIn i)).r.d = s.exu.r.d := if_neg (by rw [hn]; decide)
  rw [hd, ← aluRes_sum hfunc s.exu.spr.sr]
  exact Mexu.exResult_alu hsel _ _

/-- The accesses of an instruction exclude each other. -/
theorem one_access {d : Mexu.DecodeReg}
    (h : [d.memLsuLoad, d.memLsuStore, d.memLsuFlush].count true = 1) (hload : d.memLsuLoad = true) :
    d.memLsuStore = false ∧ d.memLsuFlush = false := by
  rw [hload] at h
  cases hs : d.memLsuStore <;> cases hf : d.memLsuFlush <;> rw [hs, hf] at h <;>
    first | exact ⟨rfl, rfl⟩ | cases h

/-- A load that the buffer cannot serve now cannot be served by it later. -/
theorem fullHit_next {c : Lsu.Config} {r : Lsu.Registers} {lsui : LsuIn} {wpo : WriteportOut}
    (hc : Lsu.cacheOp lsui = false) (hwr : lsui.wr = false) (h : Lsu.fullHit c r lsui = false) :
    Lsu.fullHit c (Lsu.next c r lsui wpo) lsui = false := by
  rw [(Lsu.next_of_not_wr hc hwr).2]
  cases hrem : Lsu.wbufRemove c r lsui wpo with
  | false =>
    rw [Lsu.drained_of_keep hrem]
    exact h
  | true =>
    rw [Lsu.drained_of_remove hrem]
    cases hf : Lsu.findWbufHit c (r.shift c) lsui.adr with
    | none => simp only [Lsu.fullHit, hf]
    | some n =>
      have hold := Lsu.findWbufHit_shift lsui.adr hf
      have hlt := (Lsu.findWbufHit_some hold).1
      have hv : (r.shift c).wbufValid n = r.wbufValid (n + 1) := if_pos hlt
      simp only [Lsu.fullHit, hold] at h
      simp only [Lsu.fullHit, hf, hv]
      exact h

/-- The load/store unit holds its read request. -/
theorem read_held (hc : Control s.core) (ha : Addressed s.core.exu.r)
    (hrd : (rpi c s).portRd = true) (hack : i.rpo.portAck = false) :
    rpi c (step c s i) = rpi c s := by
  simp only [rpi, Lsu.rpi, Bool.and_eq_true, Bool.not_eq_true'] at hrd
  obtain ⟨⟨hl, hfull⟩, herr⟩ := hrd
  have hst : s.core.exu.r.e.state = .lsMemStall ∧ s.core.exu.r.d.memLsuLoad = true := by
    simpa [lsui, Mexu.lsui] using hl
  obtain ⟨hs, hload⟩ := hst
  have hop : s.core.exu.r.d.exOp = .ls := by
    have hst := hc.state_of hs
    cases hop : s.core.exu.r.d.exOp <;> rw [hop] at hst <;> first | rfl | cases hst
  obtain ⟨hstore, hflush⟩ := one_access (hc.kind.access hop).2.2 hload
  have hwr : (lsui s).wr = false := by simp [lsui, Mexu.lsui, hstore]
  have hfl : (lsui s).flush = false := by simp [lsui, Mexu.lsui, hflush]
  have hno : Lsu.cacheOp (lsui s) = false := by simp [Lsu.cacheOp, lsui, Mexu.lsui, hs]
  have hnack : Lsu.ack c.lsu s.lsu (lsui s) i.rpo i.wpo = false := by
    rw [Lsu.ack_of_rd hno hwr hfl hl, hfull, hack]
    rfl
  -- the execute stage waits
  have hs' : (step c s i).core.exu.r.e.state = .lsMemStall := by
    have : (step c s i).core.exu.r.e.state =
        Mexu.nextState c.exu s.core.exu.r (s.core.exuIn (coreIn c s i)) _ _ := rfl
    rw [this, Mexu.nextState, hs]
    simp only [Core.exuIn, coreIn, Lsu.lsuo, hnack, herr, Bool.false_eq_true, if_false]
  have hn : Mexu.exNexti s.core.exu.r (s.core.exuIn (coreIn c s i)) = false := by
    rw [Mexu.exNexti, hs]
  have hd : (step c s i).core.exu.r.d = s.core.exu.r.d := if_neg (by rw [hn]; decide)
  have hwb : (step c s i).core.exu.r.e.wbResult = s.core.exu.r.e.wbResult := by
    have := addressed_step c.exu s.core (coreIn c s i) hc hs'
    rw [ha hs, ← hd]
    exact this
  have hsame : lsui (step c s i) = lsui s := by
    simp only [lsui, Mexu.lsui, hs', hd, hwb, hs]
  have hdce : dcacheEnable (step c s i) = dcacheEnable s := by
    refine srBit_kept ?_ (by rw [hs]; decide) (by rw [hop]; decide) (by decide) (by decide) (by decide)
    exact Bool.eq_false_iff.mpr fun hx => by
      rw [(xcJump_iff.mp hx).2] at hs
      cases hs
  rw [rpi, rpi, hsame, hdce, Lsu.rpi, Lsu.rpi]
  rw [show (step c s i).lsu = Lsu.next c.lsu s.lsu (lsui s) i.wpo from rfl,
    fullHit_next hno hwr hfull, hfull]

/-- `ICE` and `DCE` change as a whole only. -/
theorem srBit_of_switches {n : ℕ} (h : switches s n = false)
    (hn : n ∉ [Mexu.cy, Mexu.ov, Mexu.flag, Mexu.iee, Mexu.tee, Mexu.dsx]) :
    (step c s i).core.exu.spr.sr.getLsbD n = s.core.exu.spr.sr.getLsbD n := by
  simp only [List.mem_cons, List.not_mem_nil, or_false, not_or] at hn
  obtain ⟨hcy, hov, hf, hiee, htee, hdsx⟩ := hn
  simp only [switches, Bool.or_eq_false_iff, Bool.and_eq_false_imp, bne_eq_false_iff_eq,
    beq_iff_eq] at h
  obtain ⟨hset, hrfe⟩ := h
  have hsave : ∀ v : Mexu.Spr, v = (if Mexu.xcJump s.core.exu.r then
      Mexu.exceptionSaveRegisters s.core.exu.r s.core.exu.spr (s.core.exuIn (coreIn c s i)).ifuo
        else s.core.exu.spr) → v.sr.getLsbD n = s.core.exu.spr.sr.getLsbD n := by
    rintro v rfl
    split
    · simp only [Mexu.exceptionSaveRegisters, Mexu.getLsbD_setBit _ (show Mexu.iee < 32 by decide),
        Mexu.getLsbD_setBit _ (show Mexu.tee < 32 by decide),
        Mexu.getLsbD_setBit _ (show Mexu.dsx < 32 by decide), hiee, htee, hdsx, if_false]
    · rfl
  change (Mexu.nextSpr _ _ _ _).sr.getLsbD n = _
  simp only [Mexu.nextSpr]
  rw [Mexu.getLsbD_aluFlags hcy hov hf]
  cases hs : s.core.exu.r.e.state with
  | init =>
    simp only
    split
    · rename_i hr
      simp only [Mexu.exRfeJump, Bool.and_eq_true] at hr
      exact hrfe (by rw [hs, hr.2]; rfl)
    · exact hsave _ rfl
  | sprWb1 => exact hset hs
  | _ => exact hsave _ rfl

/-- A cache operation that begins in the next cycle is one that is about to be presented. -/
theorem cacheOp_next (hno : Lsu.cacheOp (lsui s) = false)
    (h : Lsu.cacheOp (lsui (step c s i)) = true) :
    s.core.exu.r.e.state = .cacheInvalidate1 ∧
      (s.core.exu.r.d.memLsuCacheInvalidate || s.core.exu.r.d.memLsuCacheWriteback) = true := by
  have hs' : (step c s i).core.exu.r.e.state = .cacheInvalidate2 := by
    simp only [Lsu.cacheOp, lsui, Mexu.lsui, Bool.or_eq_true, Bool.and_eq_true, beq_iff_eq] at h
    rcases h with h | h <;> exact h.1
  have hfrom : s.core.exu.r.e.state = .cacheInvalidate1 ∨
      s.core.exu.r.e.state = .cacheInvalidate2 := by
    have hnext : Mexu.nextState c.exu s.core.exu.r (s.core.exuIn (coreIn c s i)) _ _ =
      .cacheInvalidate2 := hs'
    unfold Mexu.nextState at hnext
    cases hs : s.core.exu.r.e.state <;> rw [hs] at hnext <;> simp only at hnext <;>
      first
      | exact .inl rfl
      | exact .inr rfl
      | (cases hop : s.core.exu.r.d.exOp <;> rw [hop] at hnext <;> split_ifs at hnext)
      | split_ifs at hnext
      | cases hnext
  have hn : Mexu.exNexti s.core.exu.r (s.core.exuIn (coreIn c s i)) = false := by
    rcases hfrom with hs | hs <;> rw [Mexu.exNexti, hs]
  have hd : (step c s i).core.exu.r.d = s.core.exu.r.d := if_neg (by rw [hn]; decide)
  simp only [Lsu.cacheOp, lsui, Mexu.lsui, hs', hd, beq_self_eq_true, Bool.true_and] at h
  rw [Bool.or_comm] at h
  rcases hfrom with hs | hs
  · exact ⟨hs, h⟩
  · simp only [Lsu.cacheOp, lsui, Mexu.lsui, hs, beq_self_eq_true, Bool.true_and] at hno
    rw [Bool.or_comm, h] at hno
    cases hno

theorem write_held (ho : Orderly c s i)
    (hwr : ((wpi c s).portWr || (wpi c s).portWriteback || (wpi c s).portInvalidate) = true)
    (hack : i.wpo.portAck = false) : wpi c (step c s i) = wpi c s := by
  have hno : Lsu.cacheOp (lsui s) = false := by
    by_contra hop
    rw [ho.cacheOp (by simpa using hop)] at hack
    cases hack
  have hops := hno
  simp only [Lsu.cacheOp, Bool.or_eq_false_iff] at hops
  have hd : s.lsu.wbufDirty0 = true := by simpa [wpi, Lsu.wpi, hno, hops.1, hops.2] using hwr
  have hno' : Lsu.cacheOp (lsui (step c s i)) = false := by
    by_contra hop
    obtain ⟨hs, hfl⟩ := cacheOp_next hno (by simpa using hop)
    rw [ho.beforeCacheOp hs hfl hd] at hack
    cases hack
  have hops' := hno'
  simp only [Lsu.cacheOp, Bool.or_eq_false_iff] at hops'
  obtain ⟨hd', ha', hdata, hv⟩ := Lsu.entry_zero_kept (c := c.lsu) hd hack (.inl hno)
  have hdirect : Lsu.portDirect c.lsu (dcacheEnable (step c s i)) (s.lsu.wbufAdr 0) =
      Lsu.portDirect c.lsu (dcacheEnable s) (s.lsu.wbufAdr 0) := by
    cases hcached : adrIsCached c.lsu.memSize (s.lsu.wbufAdr 0) with
    | false => simp [Lsu.portDirect, hcached]
    | true =>
      have hdce : dcacheEnable (step c s i) = dcacheEnable s :=
        srBit_of_switches (ho.dcache hd hack hcached) (by decide)
      rw [hdce]
  have hlsu : (step c s i).lsu = Lsu.next c.lsu s.lsu (lsui s) i.wpo := rfl
  simp only [wpi, Lsu.wpi, hlsu, hno, hno', hops, hops', hd, hd', ha', hdata, hv, hdirect,
    Bool.and_false]

end LoadStore

-- ---------------------------------------------------------------------------
-- Runs
-- ---------------------------------------------------------------------------

section Runs

variable (c : Config) (s : State) (i : ℕ → In)

def run : ℕ → State := Lib.run (step c) s i

/-- The memory unit answers requests only. -/
def AnswersRequests : Prop :=
  ∀ t, (i t).ifuRpo.portAck = true → (ifuRpi c (run c s i t)).portRd = true

variable {c s i}

theorem run_succ (t : ℕ) : run c s i (t + 1) = step c (run c s i t) (i t) := rfl

/-- Execution unit and fetch unit of the run. -/
theorem coreRun_eq (t : ℕ) :
    coreRun c.exu c.ld s.core (fun t => coreIn c (run c s i t) (i t)) t = (run c s i t).core := by
  induction t with
  | zero => rfl
  | succ t ih => rw [coreRun_succ, ih, run_succ, step]

theorem alignsAccesses (s : State) (i : In) : AlignsAccesses s.core (coreIn c s i) := by
  intro h
  have h : (Lsu.misaligned (lsui s) && ((lsui s).rd || (lsui s).wr)) = true := h
  simp only [Bool.and_eq_true, Bool.or_eq_true] at h
  exact h.2

/-- At reset nothing is asked for. -/
theorem held_at_reset (hr : AtReset s.core) (hl : s.lsu.IsReset) (i : In) (s' : State) :
    Held c s i s' := by
  have hs : s.core.exu.r.e.state = .init := hr.exu.state
  refine ⟨fun h => ?_, fun h => ?_, fun h => ?_⟩
  · exact absurd (hr.ifu.rpRd.symm.trans h) Bool.false_ne_true
  · simp [rpi, Lsu.rpi, lsui, Mexu.lsui, hs] at h
  · simp [wpi, Lsu.wpi, lsui, Mexu.lsui, hs, hl.2] at h

/-- In every orderly run each request is held until it is acknowledged. -/
theorem cpu_keeps_requests (h2 : 2 ≤ c.ld) (hr : AtReset s.core) (hl : s.lsu.IsReset)
    (henv : AnswersRequests c s i) (horderly : ∀ t, Orderly c (run c s i t) (i t)) (t : ℕ) :
    Held c (run c s i t) (i t) (run c s i (t + 1)) := by
  cases t with
  | zero => exact held_at_reset hr hl _ _
  | succ t =>
    have hcore : ∀ t, coreRun c.exu c.ld s.core (fun t => coreIn c (run c s i t) (i t)) t =
        (run c s i t).core := coreRun_eq
    have hcenv : CoreEnv c.exu c.ld s.core fun t => coreIn c (run c s i t) (i t) := by
      refine ⟨fun t => ?_, fun t => ?_⟩
      · rw [hcore]
        exact henv t
      · rw [hcore]
        exact alignsAccesses _ _
    have htime : ∀ t, InTime (coreRun c.exu c.ld s.core (fun t => coreIn c (run c s i t) (i t)) t)
        (coreIn c (run c s i t) (i t)) := by
      intro t
      rw [hcore]
      exact (horderly t).inTime
    obtain ⟨hf, hc⟩ := fetch_run h2 hr hcenv htime t
    rw [hcore] at hf hc
    have haddressed : Addressed (run c s i (t + 1)).core.exu.r := by
      cases t with
      | zero =>
        intro hs
        have hstall : Mexu.nextState c.exu s.core.exu.r _ _ _ = .lsMemStall := hs
        rcases stall_cases hstall with ⟨-, hop⟩ | ⟨hs, -⟩
        · rw [hr.exu.bubble.nop] at hop
          cases hop
        · rw [hr.exu.state] at hs
          cases hs
      | succ t =>
        have hc := (fetch_run h2 hr hcenv htime t).2
        rw [hcore] at hc
        exact addressed_step c.exu _ _ hc
    have ho := horderly (t + 1)
    refine ⟨fun hrd hack => ?_, fun hrd hack => read_held hc haddressed hrd hack,
      fun hwr hack => write_held ho hwr hack⟩
    obtain ⟨hrd', hadr'⟩ := fetch_held (c := c.exu) (i := coreIn c _ (i (t + 1))) h2 hf hc ho.inTime
      hrd hack
    have hdirect : (!icacheEnable (step c (run c s i (t + 1)) (i (t + 1))) ||
          !adrIsCached c.lsu.memSize (run c s i (t + 1)).core.ifu.rpAdr) =
        (!icacheEnable (run c s i (t + 1)) ||
          !adrIsCached c.lsu.memSize (run c s i (t + 1)).core.ifu.rpAdr) := by
      cases hcached : adrIsCached c.lsu.memSize (run c s i (t + 1)).core.ifu.rpAdr with
      | false => simp only [Bool.not_false, Bool.or_true]
      | true =>
        have hice : icacheEnable (step c (run c s i (t + 1)) (i (t + 1))) =
            icacheEnable (run c s i (t + 1)) :=
          srBit_of_switches (ho.icache hrd hack hcached) (by decide)
        rw [hice]
    have hrd'' : (run c s i (t + 1 + 1)).core.ifu.rpRd = true := hrd'
    have hadr'' : (run c s i (t + 1 + 1)).core.ifu.rpAdr = (run c s i (t + 1)).core.ifu.rpAdr := hadr'
    have hrd : (run c s i (t + 1)).core.ifu.rpRd = true := hrd
    rw [ifuRpi, ifuRpi, hrd'', hadr'', hrd]
    exact congrArg (fun d => (⟨true, 15, d, (run c s i (t + 1)).core.ifu.rpAdr⟩ : ReadportIn)) hdirect

end Runs

-- ---------------------------------------------------------------------------
-- A program of stores, and one of cache flushes
-- ---------------------------------------------------------------------------

def portsConfig : Config := ⟨Mexu.plainConfig, ⟨4, 0x1000, 0⟩, 2⟩

def programReset (w : TWord) : State where
  core :=
    { exu := Mexu.resetState
      ifu := ⟨fun _ => w, fun n => if n = 0 then 0xfc else 0x100, 1, 1, false, false, 0⟩ }
  lsu := ⟨fun _ => 0, fun _ => 0, fun _ => 0, false⟩

/-- All words are the instruction `w`, of which three are fetched. -/
def programPort (w : TWord) (t : ℕ) : In :=
  ⟨⟨decide (t ∈ [4, 8, 12]), w⟩, ⟨false, 0⟩, ⟨decide (t = 14), true⟩, false⟩

theorem programReset_atReset (w : TWord) :
    AtReset (programReset w).core ∧ (programReset w).lsu.IsReset :=
  ⟨⟨⟨rfl, rfl, rfl, ⟨rfl, rfl, rfl, rfl, rfl, rfl, rfl⟩, ⟨rfl, rfl, rfl, rfl⟩⟩,
    ⟨rfl, rfl, rfl, rfl, rfl, rfl⟩⟩, fun _ => rfl, rfl⟩

def storeWord : TWord := 0xd4001000  -- l.sw 0(r0),r2

/-- Nothing but stores, without exceptions. -/
structure Storing (s : State) : Prop where
  words : ∀ n, s.core.ifu.insnBuf n = storeWord
  iee : s.core.exu.spr.sr.getLsbD Mexu.iee = false
  xc : s.core.exu.r.x.state = .init
  op : s.core.exu.r.d.exOp = .nop ∨ s.core.exu.r.d.exOp = .ls
  flush : s.core.exu.r.d.exOp = .ls → s.core.exu.r.d.memLsuFlush = false
  state : s.core.exu.r.e.state ∈ [.init, .lsMemStall, .loadMem, .lsWb]
  access : s.core.exu.r.e.state = .lsMemStall → s.core.exu.r.d.exOp = .ls

theorem insnBuf_next {ld : ℕ} {r : Ifu.Registers} {w : TWord} (h : ∀ n, r.insnBuf n = w)
    (i : Ifu.IfuIn) (ack : Bool) (n : ℕ) : (Ifu.next ld r i ack w).insnBuf n = w := by
  have hshifted : ∀ n, (Ifu.shifted ld r i).insnBuf n = w := by
    intro n
    unfold Ifu.shifted
    split_ifs <;> simp only [h, ite_self]
  have haddressed : (Ifu.addressed ld r i).insnBuf = (Ifu.shifted ld r i).insnBuf := by
    simp only [Ifu.addressed]
    split_ifs <;> rfl
  have hjumped : ∀ n, (Ifu.jumped ld r i).insnBuf n = w := by
    intro n
    simp only [Ifu.jumped]
    split_ifs <;> simp only [haddressed, hshifted]
  have hstored : ∀ n, (Ifu.stored ld r i ack w).insnBuf n = w := by
    intro n
    simp only [Ifu.stored]
    split_ifs <;> simp only [hjumped, ite_self]
  unfold Ifu.next
  split_ifs <;> exact hstored n

theorem Storing.next {c : Config} {s : State} {i : In} (h : Storing s)
    (hw : i.ifuRpo.portData = storeWord) : Storing (step c s i) := by
  have hstate := h.state
  simp only [List.mem_cons, List.not_mem_nil, or_false] at hstate
  have hspr : s.core.exu.r.e.state ≠ .sprWb1 := by
    rintro hs
    simp [hs] at hstate
  have hid : (Mexu.detected s.core.exu.r s.core.exu.spr (s.core.exuIn (coreIn c s i))).id = 0 := by
    simp [Mexu.detected, Mexu.exceptionDetect, h.iee]
  have hd : ((step c s i).core.exu.r.d.exOp = .nop ∨ (step c s i).core.exu.r.d.exOp = .ls) ∧
      ((step c s i).core.exu.r.d.exOp = .ls → (step c s i).core.exu.r.d.memLsuFlush = false) := by
    cases fate c.exu s.core (coreIn c s i) with
    | kept _ hkept =>
      have heq : (step c s i).core.exu.r.d = s.core.exu.r.d := hkept
      rw [heq]
      exact ⟨h.op, h.flush⟩
    | bubble _ hb _ => exact ⟨.inl hb.nop, fun hls => nomatch hb.nop.symm.trans hls⟩
    | taken hn hv _ _ =>
      have heq : ∃ a b, (step c s i).core.exu.r.d = Mexu.operands c.exu
          (Mexu.decoded s.core.exu.r s.core.exu.spr (s.core.exuIn (coreIn c s i)))
          (s.core.ifu.insnBuf 1) a b := ⟨_, _, if_pos hn⟩
      obtain ⟨a, b, heq⟩ := heq
      rw [Mexu.decoded, hv] at heq
      have hir : (s.core.exuIn (coreIn c s i)).ifuo.ir = storeWord := h.words 1
      rw [heq]
      simp only [Mexu.operands, Mexu.insnDecode, Bool.false_eq_true, if_false, hir]
      exact ⟨.inr rfl, fun _ => rfl⟩
  refine ⟨?_, ?_, xc_idle h.xc hid, hd.1, hd.2, ?_, ?_⟩
  · rw [← hw]
    exact insnBuf_next (fun n => (h.words n).trans hw.symm) _ _
  · have hx : Mexu.xcJump s.core.exu.r = false := by simp [Mexu.xcJump, h.xc]
    have hrfe : s.core.exu.r.d.exOp ≠ .rfe := by
      rcases h.op with hop | hop <;> rw [hop] <;> decide
    have hkept := srBit_kept (c := c.exu) (i := coreIn c s i) hx hspr hrfe (n := Mexu.iee)
      (by decide) (by decide) (by decide)
    exact hkept.trans h.iee
  · change Mexu.nextState _ _ _ _ _ ∈ _
    unfold Mexu.nextState
    rcases hstate with hs | hs | hs | hs
    · rcases h.op with hop | hop <;> simp only [hs, hop] <;> split_ifs <;> decide
    · simp only [hs, h.flush (h.access hs), Bool.false_eq_true, if_false]
      split_ifs <;> decide
    · simp only [hs]
      decide
    · simp only [hs]
      decide
  · intro hs
    have hop : s.core.exu.r.d.exOp = .ls ∧
        Mexu.exNexti s.core.exu.r (s.core.exuIn (coreIn c s i)) = false := by
      rcases stall_cases hs with ⟨hinit, hop⟩ | ⟨hstall, -⟩
      · exact ⟨hop, by simp [Mexu.exNexti, hinit, hop]⟩
      · exact ⟨h.access hstall, by rw [Mexu.exNexti, hstall]⟩
    have heq : (step c s i).core.exu.r.d = s.core.exu.r.d := if_neg (by rw [hop.2]; decide)
    rw [heq]
    exact hop.1

theorem storing_run (t : ℕ) :
    Storing (run portsConfig (programReset storeWord) (programPort storeWord) t) := by
  induction t with
  | zero =>
    exact ⟨fun _ => rfl, rfl, rfl, .inl rfl, nofun, List.mem_cons_self, nofun⟩
  | succ t ih => exact ih.next rfl

theorem Storing.orderly {c : Config} {s : State} {i : In} (h : Storing s)
    (hfirst : s.core.ifu.adrTop = 2 → i.ifuRpo.portAck = false) : Orderly c s i := by
  have hstate := h.state
  simp only [List.mem_cons, List.not_mem_nil, or_false] at hstate
  have hswitch : ∀ n, switches s n = false := by
    intro n
    have hspr : (s.core.exu.r.e.state == .sprWb1) = false := by
      rcases hstate with hs | hs | hs | hs <;> rw [hs] <;> rfl
    have hrfe : (s.core.exu.r.d.exOp == .rfe) = false := by
      rcases h.op with hop | hop <;> rw [hop] <;> rfl
    simp [switches, hspr, hrfe]
  refine ⟨fun hop => ?_, fun hs => ?_, fun _ _ _ => hswitch _, fun _ _ _ => hswitch _, hfirst,
    fun hx => ?_⟩
  · simp only [Lsu.cacheOp, lsui, Mexu.lsui] at hop
    rcases hstate with hs | hs | hs | hs <;> simp [hs] at hop
  · simp [hs] at hstate
  · cases (xcJump_iff.mp hx).1.symm.trans h.xc

/-- The requests of the stores stand for as long as they wait. -/
theorem cpu_keeps_requests_stores :
    (wpi portsConfig (run portsConfig (programReset storeWord) (programPort storeWord) 10)).portWr =
        true ∧
      ∀ t, Held portsConfig (run portsConfig (programReset storeWord) (programPort storeWord) t)
        (programPort storeWord t)
        (run portsConfig (programReset storeWord) (programPort storeWord) (t + 1)) := by
  have hacks : ∀ t, (programPort storeWord t).ifuRpo.portAck = true → t = 4 ∨ t = 8 ∨ t = 12 := by
    intro t h
    simpa [programPort] using h
  refine ⟨by decide +kernel, cpu_keeps_requests (by decide) (programReset_atReset _).1
    (programReset_atReset _).2 (fun t h => ?_) fun t => (storing_run t).orderly fun htwo => ?_⟩
  · rcases hacks t h with rfl | rfl | rfl <;> decide +kernel
  · by_contra h
    rcases hacks t (by simpa using h) with rfl | rfl | rfl <;> revert htwo <;> decide +kernel

def flushWord : TWord := 0xf8001800  -- cust7: flush the cache line at r0

/-- A cache flush is withdrawn without having been acknowledged. -/
theorem cacheFlush_not_held :
    AtReset (programReset flushWord).core ∧ (programReset flushWord).lsu.IsReset ∧
      AnswersRequests portsConfig (programReset flushWord) (programPort flushWord) ∧
      ¬ ∀ t, Held portsConfig (run portsConfig (programReset flushWord) (programPort flushWord) t)
        (programPort flushWord t)
        (run portsConfig (programReset flushWord) (programPort flushWord) (t + 1)) := by
  refine ⟨(programReset_atReset _).1, (programReset_atReset _).2, fun t h => ?_, fun h => ?_⟩
  · have hack : t = 4 ∨ t = 8 ∨ t = 12 := by simpa [programPort] using h
    rcases hack with rfl | rfl | rfl <;> decide +kernel
  · have hheld := (h 10).write (by decide +kernel) (by decide +kernel)
    revert hheld
    decide +kernel

end ParaNut.Cpu
