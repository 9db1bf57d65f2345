import ParaNut.Nut.Handover
import ParaNut.Ifu.Mifu

/-!
# The fetch units on the memory unit (`mparanut.vhd`)

Load/store units and fetch units of all CPUs share the memory unit. What a
fetch unit offers is the program, if that is not stored to: the memory unit
delivers it, and the first fetch after a reset is a miss, so that the second
address is known in time.
-/

namespace ParaNut.Nut.Program

open Ifu (IfuIn Stream bufSize isJump ifuo)
open Lsu (LsuIn)

structure Config where
  nut : Nut.Config
  /-- `IFU_BUF_SIZE_LD` -/
  ld : ℕ

abbrev Config.cores (c : Config) : ℕ := c.nut.cores

structure State where
  nut : Nut.State
  ifu : ℕ → Ifu.Registers

/-- What the EXUs ask for, and the bus. -/
structure In where
  lsui : ℕ → LsuIn
  ifui : ℕ → IfuIn
  icacheEnable : Bool
  dcacheEnable : Bool
  ackI : Bool
  portsReversed : Bool

section Definitions

variable (c : Config) (s : State) (i : In)

/-- `rpi` of fetch unit `n` -/
def ifuRpi (n : ℕ) : ReadportIn where
  portRd := (s.ifu n).rpRd
  portBsel := 15
  portDirect := !i.icacheEnable || !adrIsCached c.nut.lsu.memSize (s.ifu n).rpAdr
  portAdr := (s.ifu n).rpAdr

/-- The inputs of load/store units and memory unit. -/
def ni : Nut.In := ⟨i.lsui, ifuRpi c s i, i.dcacheEnable, i.ackI, i.portsReversed⟩

def ifuRpo (n : ℕ) : ReadportOut := Nut.rpo c.nut s.nut (ni c s i) (c.cores + n)

def step : State where
  nut := Nut.step c.nut s.nut (ni c s i)
  ifu n := Ifu.next c.ld (s.ifu n) (i.ifui n) (ifuRpo c s i n).portAck (ifuRpo c s i n).portData

/-- A cycle as fetch unit `n` has it. -/
def cycle (n : ℕ) : Ifu.Cycle := ⟨i.ifui n, (ifuRpo c s i n).portAck, (ifuRpo c s i n).portData⟩

/-- The program that is in memory. -/
def program (a : WordAdr) : TWord := s.nut.memu.mem a.toNat

end Definitions

/-- EXUs that hold their requests to the load/store units. -/
structure Holds (c : Config) (s : State) (i i' : In) : Prop where
  held : ∀ p < c.cores, (i.lsui p).request = true →
    (lsuo c.nut s.nut (ni c s i) p).ack = false → i'.lsui p = i.lsui p
  idle : ∀ p < c.cores, (lsuo c.nut s.nut (ni c s i) p).ack = true → (i'.lsui p).request = false
  stays : ∀ p < c.cores, (i.lsui p).rd = true → (lsuo c.nut s.nut (ni c s i) p).ack = true →
    (i'.lsui p).adr = (i.lsui p).adr ∧ (i'.lsui p).width = (i.lsui p).width ∧
      (i'.lsui p).exts = (i.lsui p).exts

-- ---------------------------------------------------------------------------
-- A fetch unit
-- ---------------------------------------------------------------------------

/-- A fetch unit on the stream, in a cycle in which its port answers `ack` and `data`. -/
structure OnStream (ld : ℕ) (mem : WordAdr → TWord) (r : Ifu.Registers) (ack : Bool)
    (data : TWord) (st : Stream) : Prop where
  tracks : Ifu.Tracks (bufSize ld) mem r data st
  request : r.rpRd = true → r.insnTop + r.lastRpAck.toNat < r.adrTop ∧
    r.insnTop + r.lastRpAck.toNat < bufSize ld ∧
      r.rpAdr = r.adrBuf (r.insnTop + r.lastRpAck.toNat)
  ahead : Ifu.Ahead (bufSize ld) r ack.toNat
  halts : Ifu.HaltsBehindJumps r

section Fetch

variable {ld : ℕ} {mem : WordAdr → TWord} {r : Ifu.Registers} {i : IfuIn} {ack ack' : Bool}
  {data data' : TWord} {st : Stream}

namespace OnStream

theorem first (h2 : 2 ≤ ld) (hf : Ifu.FirstFetch r) (hh : Ifu.HaltsBehindJumps r) (data : TWord) :
    OnStream ld mem r false data Stream.reset where
  tracks := hf.tracks (Ifu.four_le_bufSize h2) data
  request _ := by
    have h4 := Ifu.four_le_bufSize h2
    rw [hf.insnTop, hf.adrTop, hf.lastRpAck, hf.rpAdr, Bool.toNat_false, hf.adr]
    exact ⟨by decide, by omega, rfl⟩
  ahead := .inr (by rw [hf.insnTop, hf.adrTop, hf.lastRpAck]; decide)
  halts := hh

/-- A jump is executed while its instruction is at place 0. -/
theorem place_of_jump (h : OnStream ld mem r ack data st)
    (hd : Ifu.Disciplined isJump st (ifuo r) i) (hapart : i.jump = true → i.nexti = false)
    (hj : i.jump = true) : r.insnTop + r.lastRpAck.toNat + r.rpRd.toNat ≤ 2 := by
  have hjump := hd.jump hj
  rw [hapart hj, if_neg Bool.false_ne_true] at hjump
  obtain ⟨w, hw, hjw⟩ := hjump
  have h0 := h.halts 0 h.tracks.pos (by rw [h.tracks.last w hw]; exact hjw)
  rwa [Nat.zero_add] at h0

protected theorem step (h2 : 2 ≤ ld) (h : OnStream ld mem r ack data st)
    (hd : Ifu.Disciplined isJump st (ifuo r) i) (hapart : i.jump = true → i.nexti = false)
    (hrd : ack = true → r.rpRd = true) (hdata : ack = true → data' = mem (wordOf r.rpAdr))
    (hrd' : ack' = true → (Ifu.next ld r i ack data).rpRd = true) :
    OnStream ld mem (Ifu.next ld r i ack data) ack' data' (st.step i (ifuo r).ir) := by
  have hN := Ifu.four_le_bufSize h2
  have hle := h.tracks.next_le hd
  have hq := h.tracks.toQueue
  have hst : Ifu.Steps isJump (bufSize ld) r i ack data (Ifu.next ld r i ack data) :=
    Ifu.next_steps h2 hq hle
  have hj := h.halts.jumpsInTime h.tracks hd hapart hrd
  have hasked : ack = true → r.insnTop + r.lastRpAck.toNat < r.adrTop ∧
      r.insnTop + r.lastRpAck.toNat < bufSize ld := fun ha =>
    ⟨(h.request (hrd ha)).1, (h.request (hrd ha)).2.1⟩
  have hreq : ack = true → Ifu.Requests (bufSize ld) mem r := fun _ hr => by
    obtain ⟨hlt, hroom, hadr⟩ := h.request hr
    exact ⟨hlt, hroom, by rw [hadr]⟩
  have hplace := fun hjmp => hst.request_of_jump h.tracks hd hjmp
  exact
    { tracks := h.tracks.step hN hst hd hj hrd hreq hdata
      request := hst.request_adr hN hq hle hj hasked hplace h.ahead
      ahead := (hst.ahead hN hq hle hj hasked hplace h.ahead).mono (by
        cases ack' with
        | false => exact Nat.zero_le _
        | true => rw [hrd' rfl])
      halts := Ifu.haltsBehindJumps_next h2 h.halts hq hle hj hrd }

/-- The unit holds its request. -/
theorem held (h2 : 2 ≤ ld) (h : OnStream ld mem r ack data st)
    (hd : Ifu.Disciplined isJump st (ifuo r) i) (hapart : i.jump = true → i.nexti = false)
    (hrd : r.rpRd = true) (hack : ack = false) :
    (Ifu.next ld r i ack data).rpRd = true ∧ (Ifu.next ld r i ack data).rpAdr = r.rpAdr := by
  obtain ⟨hlt, hroom, hadr⟩ := h.request hrd
  rw [hack]
  refine Ifu.request_held h2 h.tracks.toQueue h.halts (h.tracks.next_le hd) hroom hlt hadr hrd
    fun hj => ⟨hapart hj, ?_⟩
  have := h.place_of_jump hd hapart hj
  rw [hrd, Bool.toNat_true] at this
  omega

end OnStream

end Fetch

-- ---------------------------------------------------------------------------
-- A cycle
-- ---------------------------------------------------------------------------

section Cycle

variable {c : Config} {s : State} {i i' : In} {p : ℕ} {W : WordAdr → Prop}
  {mem : WordAdr → TWord}

/-- No CPU has a store to region `W` on its way, and the memory unit contains `mem` there. -/
structure Contains (c : Nut.Config) (s : Nut.State) (W : WordAdr → Prop) (mem : WordAdr → TWord) :
    Prop where
  clear : ∀ p < c.cores, Clear c s p W
  view : ∀ a, W a → view c s a = mem a

theorem cores_pos (c : Nut.Config) : 0 < c.cores := c.memu.cores_pos

protected theorem Contains.step {c : Nut.Config} {s : Nut.State} {i i' : Nut.In}
    (h : Contains c s W mem) (hg : Good c s i) (hg' : Good c (Nut.step c s i) i')
    (hs : 2 ≤ c.lsu.size)
    (hst : ∀ p < c.cores, (i.lsui p).wr = true → ¬ W (wordOf (i.lsui p).adr)) :
    Contains c (Nut.step c s i) W mem where
  clear p hp := hg.plain.requests.clear_step hs hp (h.clear p hp) (hst p hp)
  view a ha := by
    have hpos := cores_pos c
    rw [hg.view_step hg' hpos (fun q hq _ => h.clear q hq) (Nat.lt_of_succ_lt hs) ha, h.view a ha]
    refine if_neg ?_
    rintro ⟨hw, hadr⟩
    refine (h.clear 0 hpos).adr (Nat.lt_of_succ_lt hs) (hg.dirty_of_written hpos (.inl hw)) ?_
    rw [hadr]
    exact ha

theorem fetch_port (c : Config) (hp : p < c.cores) : c.cores + p < c.nut.memu.rports := by
  simp only [Memu.Config.rports, Config.cores, Nut.Config.cores] at *
  omega

theorem rpi_fetch (c : Config) (s : State) (i : In) (p : ℕ) :
    (mi c.nut s.nut (ni c s i)).rpi (c.cores + p) = ifuRpi c s i p := by
  rw [mi_rpi_fetch (Nat.not_lt.mpr (Nat.le_add_right _ _)), Nat.add_sub_cancel_left]
  rfl

/-- Only requests are acknowledged. -/
theorem rpRd_of_ack (hg : Good c.nut s.nut (ni c s i)) (hp : p < c.cores)
    (hack : (ifuRpo c s i p).portAck = true) : (s.ifu p).rpRd = true := by
  have h := Memu.ReadPort.portRd_of_ack hack (hg.memu.rp _ (fetch_port c hp))
  simp only [Memu.rpIn, rpi_fetch] at h
  exact h

/-- The word that is delivered is that of the program. -/
theorem fetched (hg : Good c.nut s.nut (ni c s i))
    (hg' : Good c.nut (step c s i).nut (ni c (step c s i) i')) (hk : Contains c.nut s.nut W mem)
    (hk' : Contains c.nut (step c s i).nut W mem) (hp : p < c.cores)
    (hack : (ifuRpo c s i p).portAck = true) (hW : W (wordOf (s.ifu p).rpAdr)) :
    (ifuRpo c (step c s i) i' p).portData = mem (wordOf (s.ifu p).rpAdr) := by
  obtain ⟨s', hs', hdata⟩ := hg.memu.delivered hg'.memu hg.rpBanks (fetch_port c hp) hack
  rw [rpi_fetch] at hdata
  refine Eq.trans hdata ?_
  rcases List.mem_cons.mp hs' with rfl | hs'
  · exact hk.view _ hW
  · obtain rfl := List.mem_singleton.mp hs'
    exact hk'.view _ hW

end Cycle

-- ---------------------------------------------------------------------------
-- Runs
-- ---------------------------------------------------------------------------

section Run

def run (c : Config) (s : State) (i : ℕ → In) : ℕ → State := Lib.run (step c) s i

/-- The cycles of a run as fetch unit `p` has them. -/
def cycles (c : Config) (s : State) (i : ℕ → In) (p t : ℕ) : Ifu.Cycle :=
  cycle c (run c s i t) (i t) p

/-- The stream of CPU `p`. -/
def stream (c : Config) (s : State) (i : ℕ → In) (p : ℕ) : ℕ → Stream :=
  Ifu.stream (Ifu.next c.ld) (s.ifu p) (cycles c s i p)

/-- A run from a reset, with accesses through the caches and a program that is not stored to. -/
structure Runs (c : Config) (s : State) (i : ℕ → In) (W : WordAdr → Prop) : Prop where
  size : 2 ≤ c.nut.lsu.size
  ld : 2 ≤ c.ld
  reset : IsReset c.nut s.nut
  ifu : ∀ p < c.cores, Ifu.IsReset (s.ifu p)
  plain : ∀ t, Plain c.nut (ni c (run c s i t) (i t))
  holds : ∀ t, Holds c (run c s i t) (i t) (i (t + 1))
  exu : ∀ p < c.cores, ∀ t,
    Ifu.Disciplined isJump (stream c s i p t) (ifuo ((run c s i t).ifu p)) ((i t).ifui p)
  apart : ∀ p < c.cores, ∀ t, ((i t).ifui p).jump = true → ((i t).ifui p).nexti = false
  fetch : ∀ t, ∀ p < c.cores, ((run c s i t).ifu p).rpRd = true →
    W (wordOf ((run c s i t).ifu p).rpAdr)
  store : ∀ t, ∀ p < c.cores, ((i t).lsui p).wr = true → ¬ W (wordOf ((i t).lsui p).adr)

variable {c : Config} {s : State} {i : ℕ → In} {W : WordAdr → Prop} {p : ℕ}

theorem states_ifu (t : ℕ) :
    Ifu.states (Ifu.next c.ld) (s.ifu p) (cycles c s i p) t = (run c s i t).ifu p := by
  induction t with
  | zero => rfl
  | succ t ih =>
    rw [Ifu.states, Lib.run_succ, ← Ifu.states, ih]
    rfl

theorem stream_succ (t : ℕ) : stream c s i p (t + 1) =
    (stream c s i p t).step ((i t).ifui p) (ifuo ((run c s i t).ifu p)).ir := by
  rw [stream, Ifu.stream, states_ifu]
  rfl

/-- The invariant of a run. -/
structure Inv (c : Config) (s : State) (i : In) (W : WordAdr → Prop) (mem : WordAdr → TWord)
    (st : ℕ → Stream) : Prop where
  good : Good c.nut s.nut (ni c s i)
  contains : Contains c.nut s.nut W mem
  ifu : ∀ p < c.cores, OnStream c.ld mem (s.ifu p) (ifuRpo c s i p).portAck
    (ifuRpo c s i p).portData (st p)

/-- With the fetch units, the memory unit has its requests held. -/
theorem holds_nut {i i' : In} (hh : Holds c s i i') (hp : Plain c.nut (ni c s i))
    (hp' : Plain c.nut (ni c (step c s i) i'))
    (hf : ∀ p < c.cores, (s.ifu p).rpRd = true → (ifuRpo c s i p).portAck = false →
      ((step c s i).ifu p).rpRd = true ∧ ((step c s i).ifu p).rpAdr = (s.ifu p).rpAdr) :
    Nut.Holds c.nut s.nut (ni c s i) (ni c (step c s i) i') where
  fetch p hlt hrd hack := by
    obtain ⟨hrd', hadr⟩ := hf p hlt hrd hack
    have hdirect := hp.icache p hlt hrd
    have hdirect' := hp'.icache p hlt hrd'
    simp only [ni, ifuRpi] at hrd hdirect hdirect' ⊢
    rw [hdirect, hdirect', hrd, hrd', hadr]
  held := hh.held
  idle := hh.idle
  stays := hh.stays

protected theorem Inv.step {i i' : In} {mem : WordAdr → TWord} {st : ℕ → Stream}
    (h : Inv c s i W mem st) (hs : 2 ≤ c.nut.lsu.size) (h2 : 2 ≤ c.ld) (hh : Holds c s i i')
    (hplain : Plain c.nut (ni c (step c s i) i'))
    (hexu : ∀ p < c.cores, Ifu.Disciplined isJump (st p) (ifuo (s.ifu p)) (i.ifui p))
    (hapart : ∀ p < c.cores, (i.ifui p).jump = true → (i.ifui p).nexti = false)
    (hW : ∀ p < c.cores, (s.ifu p).rpRd = true → W (wordOf (s.ifu p).rpAdr))
    (hst : ∀ p < c.cores, (i.lsui p).wr = true → ¬ W (wordOf (i.lsui p).adr)) :
    Inv c (Program.step c s i) i' W mem
      (fun p => (st p).step (i.ifui p) (ifuo (s.ifu p)).ir) := by
  have hnut := holds_nut hh h.good.plain hplain fun p hp hrd hack =>
    (h.ifu p hp).held h2 (hexu p hp) (hapart p hp) hrd hack
  have hg' := h.good.step hs hnut hplain
  have hk' := h.contains.step h.good hg' hs hst
  refine ⟨hg', hk', fun p hp => ?_⟩
  exact (h.ifu p hp).step h2 (hexu p hp) (hapart p hp) (rpRd_of_ack h.good hp)
    (fun hack => fetched h.good hg' h.contains hk' hp hack (hW p hp (rpRd_of_ack h.good hp hack)))
    (rpRd_of_ack hg' hp)

/-- One cycle after the reset the first words are asked for. -/
theorem Runs.first (h : Runs c s i W) :
    Inv c (run c s i 1) (i 1) W (program s) (fun p => stream c s i p 1) := by
  have hl : ∀ p < c.cores, Lsu.Holding c.nut.lsu c.nut.Caches (s.nut.lsu p) := fun p hp =>
    Lsu.holding_reset (h.reset.lsu p hp)
  have hg : Good c.nut s.nut (ni c s (i 0)) :=
    ⟨h.plain 0, h.reset.memu.coherent ((h.plain 0).cached (Nat.lt_of_succ_lt h.size) hl),
      h.reset.memu.rpBanks, hl⟩
  have hidle : ∀ p < c.cores, (s.ifu p).rpRd = false := fun p hp => (h.ifu p hp).rpRd
  have hnut : Nut.Holds c.nut s.nut (ni c s (i 0)) (ni c (step c s (i 0)) (i 1)) :=
    holds_nut (h.holds 0) (h.plain 0) (h.plain 1) fun p hp hrd =>
      absurd ((hidle p hp).symm.trans hrd) Bool.false_ne_true
  have hg' : Good c.nut (step c s (i 0)).nut (ni c (step c s (i 0)) (i 1)) :=
    hg.step h.size hnut (h.plain 1)
  have hk : Contains c.nut s.nut W (program s) :=
    ⟨fun p hp => Lsu.holding_reset (h.reset.lsu p hp), fun a _ => h.reset.memu.contents _⟩
  refine ⟨hg', hk.step hg hg' h.size (h.store 0), fun p hp => ?_⟩
  obtain ⟨hn, hj⟩ := Ifu.idle_of_reset (h.exu p hp 0) (h.ifu p hp).insnTop
  have hack : (ifuRpo c s (i 0) p).portAck = false := by
    by_contra hack
    exact Bool.false_ne_true ((hidle p hp).symm.trans (rpRd_of_ack hg hp (by simpa using hack)))
  have hack' : (ifuRpo c (step c s (i 0)) (i 1) p).portAck = false := by
    refine h.reset.memu.not_ack (fetch_port c hp) ?_
    rw [rpi_fetch]
    exact hidle p hp
  obtain ⟨hfirst, hhalts⟩ := Ifu.firstFetch h.ld (h.ifu p hp) hn hj (ifuRpo c s (i 0) p).portData
  have hifu : (run c s i 1).ifu p =
      Ifu.next c.ld (s.ifu p) ((i 0).ifui p) false (ifuRpo c s (i 0) p).portData := by
    rw [← hack]
    rfl
  have hstream : stream c s i p 1 = Stream.reset := by
    rw [stream_succ]
    simp [Stream.step, hn, hj, stream, Ifu.stream]
  rw [hstream, hifu, show (ifuRpo c (run c s i 1) (i 1) p).portAck = false from hack']
  exact OnStream.first h.ld hfirst hhalts _

theorem Runs.inv (h : Runs c s i W) (t : ℕ) (ht : 1 ≤ t) :
    Inv c (run c s i t) (i t) W (program s) (fun p => stream c s i p t) := by
  induction t, ht using Nat.le_induction with
  | base => exact h.first
  | succ t _ ih =>
    simp only [stream_succ]
    exact ih.step h.size h.ld (h.holds t) (h.plain (t + 1)) (fun p hp => h.exu p hp t)
      (fun p hp => h.apart p hp t) (h.fetch t) (h.store t)

/-- Every fetch unit offers the program that was in memory at reset. -/
theorem fetches_program (h : Runs c s i W) (hp : p < c.cores) :
    Ifu.StreamCorrect (Ifu.next c.ld) (program s) (s.ifu p) (cycles c s i p) (bufSize c.ld) := by
  refine Ifu.streamCorrect_of_tracks (Ifu.four_le_bufSize h.ld)
    ⟨(h.ifu p hp).insnTop, (h.ifu p hp).adrTop⟩ fun t ht => ?_
  rw [Ifu.TracksAt, states_ifu]
  exact ((h.inv t ht).ifu p hp).tracks

end Run

-- ---------------------------------------------------------------------------
-- CPUs that wait
-- ---------------------------------------------------------------------------

def twoWaiting : Config := ⟨twoCpus, 2⟩

def waitingReset : State where
  nut := Nut.quiet
  ifu _ := ⟨fun _ => 0, fun n => 0xfc + BitVec.ofNat 32 (4 * n), 1, 1, false, false, 0⟩

/-- The EXUs take no instruction. -/
def waits : In where
  lsui _ := ⟨false, false, false, false, false, 0, false, 0, 0⟩
  ifui _ := ⟨false, false, 0⟩
  icacheEnable := true
  dcacheEnable := true
  ackI := true
  portsReversed := false

/-- The queue is filled with the first addresses. -/
structure Waiting (r : Ifu.Registers) : Prop where
  adr : ∀ n, r.adrBuf n = 0xfc + BitVec.ofNat 32 (4 * n)
  pos : 1 ≤ r.adrTop
  le : r.adrTop ≤ 4
  rpAdr : r.rpRd = true → adrIsCached 0x1000 r.rpAdr = true

theorem Waiting.next {r : Ifu.Registers} (h : Waiting r) (ack : Bool) (data : TWord) :
    Waiting (Ifu.next 2 r (waits.ifui 0) ack data) := by
  have hadd : (Ifu.addressed 2 r (waits.ifui 0)).adrBuf = r.adrBuf ∧
      1 ≤ (Ifu.addressed 2 r (waits.ifui 0)).adrTop ∧
      (Ifu.addressed 2 r (waits.ifui 0)).adrTop ≤ 4 := by
    have hshift : Ifu.shifted 2 r (waits.ifui 0) = r := rfl
    simp only [Ifu.addressed, hshift, Ifu.full, bufSize, decide_eq_true_eq]
    split
    · exact ⟨rfl, h.pos, h.le⟩
    · rename_i hlt
      have hpos := h.pos
      refine ⟨funext fun n => ?_, ?_, ?_⟩
      · simp only
        split
        · rename_i hn
          -- the new address is there already
          obtain ⟨m, hm⟩ : ∃ m, r.adrTop = m + 1 := ⟨r.adrTop - 1, by omega⟩
          have hmod : r.adrTop % 2 ^ 2 = m + 1 := by omega
          have hprev : m + 1 - (!(waits.ifui 0).nexti).toNat = m := rfl
          rw [hn, hmod, hprev, h.adr, h.adr, BitVec.add_assoc, Nat.mul_succ, BitVec.ofNat_add]
          rfl
        · rfl
      · simp only
        omega
      · simp only
        omega
  have hadr : (Ifu.next 2 r (waits.ifui 0) ack data).adrBuf = r.adrBuf := by
    rw [← hadd.1]
    simp only [Ifu.next]
    split <;> exact Ifu.stored_adrBuf
  have htop : (Ifu.next 2 r (waits.ifui 0) ack data).adrTop =
      (Ifu.addressed 2 r (waits.ifui 0)).adrTop := by
    simp only [Ifu.next]
    split <;> exact Ifu.stored_adrTop
  refine ⟨fun n => by rw [hadr, h.adr], by rw [htop]; exact hadd.2.1, by rw [htop]; exact hadd.2.2,
    fun hrd => ?_⟩
  simp only [Ifu.next] at hrd ⊢
  split at hrd
  · rename_i hissue
    rw [if_pos hissue]
    simp only [h.adr]
    have hlt : Ifu.nextInsnTopOfs 2 r (waits.ifui 0) ack data % bufSize 2 < 4 :=
      Nat.mod_lt _ (by decide)
    generalize Ifu.nextInsnTopOfs 2 r (waits.ifui 0) ack data % bufSize 2 = n at hlt
    revert n
    decide
  · cases hrd

theorem waiting_run (t p : ℕ) : Waiting ((run twoWaiting waitingReset (fun _ => waits) t).ifu p) := by
  induction t with
  | zero => exact ⟨fun _ => rfl, Nat.le_refl 1, (by decide : 1 ≤ 4), fun h => by cases h⟩
  | succ t ih => exact ih.next _ _

theorem waits_runs : Runs twoWaiting waitingReset (fun _ => waits) fun _ => True where
  size := Nat.le_refl 2
  ld := Nat.le_refl 2
  reset := ⟨Memu.quiet_isReset, fun _ _ => ⟨fun _ => rfl, rfl⟩⟩
  ifu _ _ := ⟨rfl, rfl, rfl, rfl, rfl, rfl⟩
  plain t :=
    { dcache := rfl
      icache := fun p _ hrd => by
        have hcached := (waiting_run t p).rpAdr hrd
        simp only [ni, ifuRpi]
        rw [show twoWaiting.nut.lsu.memSize = 0x1000 from rfl, hcached]
        rfl
      noCache := fun _ _ => rfl
      access := fun _ _ h => by rcases h with h | h <;> cases h
      rdOnly := fun _ _ h => by cases h
      wrOnly := fun _ _ h => by cases h }
  holds _ := ⟨fun _ _ _ _ => rfl, fun _ _ _ => rfl, fun _ _ _ _ => ⟨rfl, rfl, rfl⟩⟩
  exu _ _ _ := ⟨nofun, nofun⟩
  apart _ _ _ := nofun
  fetch _ _ _ _ := trivial
  store _ _ _ h := by cases h

/-- Both fetch units fill their queues with the program. -/
theorem fetches_program_waiting :
    Ifu.StreamCorrect (Ifu.next twoWaiting.ld) (program waitingReset) (waitingReset.ifu 1)
      (cycles twoWaiting waitingReset (fun _ => waits) 1) (bufSize twoWaiting.ld) :=
  fetches_program waits_runs (by decide)

end ParaNut.Nut.Program
