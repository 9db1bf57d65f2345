import ParaNut.Cpu.Ports
import ParaNut.Lsu.Entries
import ParaNut.Memu.AtomicMemory

/-!
# The load/store units on the memory unit (`mparanut.vhd`)

The load/store unit of each CPU has the read port and the write port of its
number, the fetch units have the read ports behind those. What execution
units and fetch units ask for comes from outside.
-/

namespace ParaNut.Nut

open Lsu (LsuIn LsuOut)

structure Config where
  memu : Memu.Config
  lsu : Lsu.Config

/-- `CFG_NUT_CPU_CORES` -/
def Config.cores (c : Config) : ℕ := c.memu.cores

abbrev Config.Caches (c : Config) (adr : TWord) : Prop := adrIsCached c.lsu.memSize adr = true

structure State where
  memu : Memu.State
  lsu : ℕ → Lsu.Registers

/-- What the EXUs and IFUs ask for, and the bus. -/
structure In where
  lsui : ℕ → LsuIn
  ifuRpi : ℕ → ReadportIn
  dcacheEnable : Bool
  ackI : Bool
  portsReversed : Bool

section Definitions

variable (c : Config) (s : State) (i : In)

/-- The inputs of the memory unit. -/
def mi : Memu.Input where
  rpi n := if n < c.cores then Lsu.rpi c.lsu (s.lsu n) (i.lsui n) i.dcacheEnable
    else i.ifuRpi (n - c.cores)
  wpi n := Lsu.wpi c.lsu (s.lsu n) (i.lsui n) i.dcacheEnable
  ackI := i.ackI
  portsReversed := i.portsReversed

def rpo (n : ℕ) : ReadportOut := Memu.rpo c.memu s.memu (mi c s i) n

def wpo (n : ℕ) : WriteportOut := Memu.wpo c.memu s.memu (mi c s i) n

def lsuo (n : ℕ) : LsuOut := Lsu.lsuo c.lsu (s.lsu n) (i.lsui n) (rpo c s i n) (wpo c s i n)

/-- Does port `n` write its bank? -/
def writes (n : ℕ) : Bool :=
  (Memu.wpOut c.memu s.memu (mi c s i) (Memu.grants c.memu s.memu (mi c s i)) n).bankWr

def step : State where
  memu := Memu.step c.memu s.memu (mi c s i)
  lsu n := Lsu.next c.lsu (s.lsu n) (i.lsui n) (wpo c s i n)

end Definitions

/-- The requests of one cycle: aligned accesses, one for each CPU. -/
structure Requests (c : Config) (i : In) : Prop where
  noCache : ∀ p < c.cores, Lsu.cacheOp (i.lsui p) = false
  access : ∀ p < c.cores, (i.lsui p).rd = true ∨ (i.lsui p).wr = true → (i.lsui p).Plain
  rdOnly : ∀ p < c.cores, (i.lsui p).rd = true → (i.lsui p).wr = false ∧ (i.lsui p).flush = false
  wrOnly : ∀ p < c.cores, (i.lsui p).wr = true → (i.lsui p).flush = false

/-- Aligned accesses through the caches, one for each CPU. -/
structure Plain (c : Config) (i : In) : Prop where
  dcache : i.dcacheEnable = true
  icache : ∀ p < c.cores, (i.ifuRpi p).portRd = true → (i.ifuRpi p).portDirect = false
  noCache : ∀ p < c.cores, Lsu.cacheOp (i.lsui p) = false
  access : ∀ p < c.cores, (i.lsui p).rd = true ∨ (i.lsui p).wr = true →
    (i.lsui p).Plain ∧ c.Caches (i.lsui p).adr
  rdOnly : ∀ p < c.cores, (i.lsui p).rd = true → (i.lsui p).wr = false ∧ (i.lsui p).flush = false
  wrOnly : ∀ p < c.cores, (i.lsui p).wr = true → (i.lsui p).flush = false

/-- EXUs and IFUs that hold their requests until the acknowledge. -/
structure Holds (c : Config) (s : State) (i i' : In) : Prop where
  fetch : ∀ p < c.cores, (i.ifuRpi p).portRd = true → (rpo c s i (c.cores + p)).portAck = false →
    i'.ifuRpi p = i.ifuRpi p
  held : ∀ p < c.cores, (i.lsui p).request = true → (lsuo c s i p).ack = false →
    i'.lsui p = i.lsui p
  idle : ∀ p < c.cores, (lsuo c s i p).ack = true → (i'.lsui p).request = false
  /-- after a load the address lines stay for the cycle in which the data arrives -/
  stays : ∀ p < c.cores, (i.lsui p).rd = true → (lsuo c s i p).ack = true →
    (i'.lsui p).adr = (i.lsui p).adr ∧ (i'.lsui p).width = (i.lsui p).width ∧
      (i'.lsui p).exts = (i.lsui p).exts

/-- The memory unit is coherent, and the write buffers hold what it caches. -/
structure Good (c : Config) (s : State) (i : In) : Prop where
  plain : Plain c i
  memu : Memu.Coherent c.memu s.memu (mi c s i)
  rpBanks : Memu.RpBanks c.memu s.memu
  lsu : ∀ p < c.cores, Lsu.Holding c.lsu c.Caches (s.lsu p)

section Cycle

variable {c : Config} {s : State} {i i' : In} {p : ℕ}

theorem Plain.requests (h : Plain c i) : Requests c i :=
  ⟨h.noCache, fun p hp ha => (h.access p hp ha).1, h.rdOnly, h.wrOnly⟩

theorem Requests.known (h : Requests c i) (hp : p < c.cores)
    (ha : (i.lsui p).rd = true ∨ (i.lsui p).wr = true) : (i.lsui p).Known :=
  (h.access p hp ha).known

@[simp] theorem mi_rpi (hp : p < c.cores) :
    (mi c s i).rpi p = Lsu.rpi c.lsu (s.lsu p) (i.lsui p) i.dcacheEnable := if_pos hp

theorem mi_rpi_fetch (hp : ¬ p < c.cores) : (mi c s i).rpi p = i.ifuRpi (p - c.cores) := if_neg hp

theorem fetch_lt (h : p < c.memu.rports) (hp : ¬ p < c.cores) : p - c.cores < c.cores := by
  simp only [Memu.Config.rports, Config.cores] at *
  omega

/-- A port is asked to write entry 0, and nothing else. -/
theorem Requests.wpi (h : Requests c i) (hp : p < c.cores) : (mi c s i).wpi p =
    { portWr := (s.lsu p).wbufDirty0
      portDirect := Lsu.portDirect c.lsu i.dcacheEnable ((s.lsu p).wbufAdr 0)
      portBsel := (s.lsu p).wbufValid 0
      portRlinkWcond := false
      portWriteback := false
      portInvalidate := false
      portAdr := (s.lsu p).wbufAdr 0
      portData := (s.lsu p).wbufData 0 } := by
  have hno := h.noCache p hp
  have hops := hno
  simp only [Lsu.cacheOp, Bool.or_eq_false_iff] at hops
  simp only [mi, Lsu.wpi, hno, hops, Bool.and_false, Bool.false_eq_true, if_false]

theorem Plain.wpi (h : Plain c i) (hp : p < c.cores) : (mi c s i).wpi p =
    { portWr := (s.lsu p).wbufDirty0
      portDirect := Lsu.portDirect c.lsu true ((s.lsu p).wbufAdr 0)
      portBsel := (s.lsu p).wbufValid 0
      portRlinkWcond := false
      portWriteback := false
      portInvalidate := false
      portAdr := (s.lsu p).wbufAdr 0
      portData := (s.lsu p).wbufData 0 } := by
  rw [h.requests.wpi hp, h.dcache]

/-- An entry that is on its way stays until it is acknowledged. -/
theorem Requests.entry_kept (h : Requests c i) (hp : p < c.cores)
    (hd : (s.lsu p).wbufDirty0 = true) (hack : (wpo c s i p).portAck = false) :
    ((step c s i).lsu p).wbufDirty0 = true ∧
      ((step c s i).lsu p).wbufAdr 0 = (s.lsu p).wbufAdr 0 ∧
      ((step c s i).lsu p).wbufData 0 = (s.lsu p).wbufData 0 ∧
      ((step c s i).lsu p).wbufValid 0 = (s.lsu p).wbufValid 0 :=
  Lsu.entry_zero_kept hd hack (.inl (h.noCache p hp))

theorem Plain.cached (h : Plain c i) (hs : 0 < c.lsu.size)
    (hl : ∀ p < c.cores, Lsu.Holding c.lsu c.Caches (s.lsu p)) : Memu.Cached c.memu (mi c s i) where
  read p hp hrd := by
    by_cases hlt : p < c.cores
    · rw [mi_rpi hlt] at hrd ⊢
      simp only [Lsu.rpi, Bool.and_eq_true] at hrd
      simp [Lsu.rpi, Lsu.portDirect, h.dcache, (h.access p hlt (.inl hrd.1.1)).2]
    · rw [mi_rpi_fetch hlt] at hrd ⊢
      exact h.icache _ (fetch_lt hp hlt) hrd
  write p hp hwr := by
    rw [h.wpi hp] at hwr ⊢
    simp [Lsu.portDirect, (hl p hp).adr hs hwr]
  control p hp := by
    rw [h.wpi hp]
    exact ⟨rfl, rfl⟩

/-- A read port is asked by a load that the buffer cannot serve. -/
theorem portRd_lsu (hp : p < c.cores) (h : ((mi c s i).rpi p).portRd = true) :
    (i.lsui p).rd = true ∧ Lsu.fullHit c.lsu (s.lsu p) (i.lsui p) = false := by
  rw [mi_rpi hp] at h
  simp only [Lsu.rpi, Bool.and_eq_true, Bool.not_eq_true'] at h
  exact h.1

/-- Requests of EXUs and IFUs that are held are so at the memory unit. -/
theorem Requests.holds (h : Requests c i) (hh : Holds c s i i') (hc : Requests c i')
    (hd : i'.dcacheEnable = i.dcacheEnable) :
    Memu.Holds c.memu s.memu (mi c s i) (mi c (step c s i) i') where
  rp p hp hrd hack := by
    by_cases hlt : p < c.cores
    · obtain ⟨hl, hfull⟩ := portRd_lsu hlt hrd
      obtain ⟨hwr, hfl⟩ := h.rdOnly p hlt hl
      have hno := h.noCache p hlt
      have hnack : (lsuo c s i p).ack = false := by
        refine (Lsu.ack_of_rd hno hwr hfl hl).trans ?_
        rw [hfull]
        exact hack
      have hsame := hh.held p hlt (by simp [LsuIn.request, hl]) hnack
      rw [mi_rpi hlt, mi_rpi hlt, hsame, hd, Lsu.rpi, Lsu.rpi,
        show (step c s i).lsu p = Lsu.next c.lsu (s.lsu p) (i.lsui p) (wpo c s i p) from rfl,
        Cpu.fullHit_next hno hwr hfull, hfull]
    · have hge : c.cores + (p - c.cores) = p := Nat.add_sub_cancel' (Nat.not_lt.mp hlt)
      rw [mi_rpi_fetch hlt] at hrd
      rw [mi_rpi_fetch hlt, mi_rpi_fetch hlt]
      refine hh.fetch _ (fetch_lt hp hlt) hrd ?_
      rw [hge]
      exact hack
  wp p hp hreq hack := by
    rw [h.wpi hp] at hreq
    have hdirty : (s.lsu p).wbufDirty0 = true := by simpa [Memu.WritePort.requested] using hreq
    obtain ⟨hdirty', ha, hdata, hv⟩ := h.entry_kept hp hdirty hack
    rw [hc.wpi hp, h.wpi hp, hd, hdirty', ha, hdata, hv, hdirty]

theorem Good.holds (hg : Good c s i) (hh : Holds c s i i') (hc : Plain c i') :
    Memu.Holds c.memu s.memu (mi c s i) (mi c (step c s i) i') :=
  hg.plain.requests.holds hh hc.requests (hc.dcache.trans hg.plain.dcache.symm)

protected theorem Good.step (hg : Good c s i) (hs : 1 < c.lsu.size) (hh : Holds c s i i')
    (hc : Plain c i') : Good c (step c s i) i' := by
  have hlsu : ∀ p < c.cores, Lsu.Holding c.lsu c.Caches ((step c s i).lsu p) := fun p hp =>
    (hg.lsu p hp).next hs (hg.plain.noCache p hp) fun hwr =>
      ⟨(hg.plain.access p hp (.inr hwr)).2, hg.plain.requests.known hp (.inr hwr)⟩
  exact ⟨hc, hg.memu.step (hg.holds hh hc) (hc.cached (Nat.lt_of_succ_lt hs) hlsu),
    Memu.rpBanks_step, hlsu⟩

/-- A write port that is busy has entry 0 to write. -/
theorem Requests.dirty_of_busy (h : Requests c i) (hm : Memu.Locks c.memu s.memu (mi c s i))
    (hp : p < c.cores) (hs : (s.memu.wp p).state ≠ .init) : (s.lsu p).wbufDirty0 = true := by
  have hreq := hm.requested p hp hs
  rw [h.wpi hp] at hreq
  simpa [Memu.WritePort.requested] using hreq

/-- What is acknowledged has been written. -/
theorem Good.written_of_ack (hg : Good c s i) (hp : p < c.cores)
    (hack : (wpo c s i p).portAck = true) :
    writes c s i p = true ∨ (s.memu.wp p).state.owes = true := by
  have hwr := hg.memu.cached.write p hp
  refine Memu.WritePort.ack_cases hack (hg.memu.aside hp) hwr fun hcond => ?_
  simp only [Memu.wpIn, hg.plain.wpi hp] at hcond
  cases hcond

theorem Good.dirty_of_written (hg : Good c s i) (hp : p < c.cores)
    (h : writes c s i p = true ∨ (s.memu.wp p).state.owes = true) :
    (s.lsu p).wbufDirty0 = true := by
  refine hg.plain.requests.dirty_of_busy hg.memu.toLocks hp fun hs => ?_
  rcases h with hw | ho
  · have hcommits := (Memu.WritePort.bankWr_spec hw).1
    rw [hs] at hcommits
    cases hcommits
  · rw [hs] at ho
    cases ho

end Cycle

-- ---------------------------------------------------------------------------
-- Runs
-- ---------------------------------------------------------------------------

section Run

def run (c : Config) (s : State) (i : ℕ → In) : ℕ → State := Lib.run (step c) s i

/-- The state after a reset. -/
structure IsReset (c : Config) (s : State) : Prop where
  memu : Memu.IsReset c.memu s.memu
  lsu : ∀ p < c.cores, (s.lsu p).IsReset

/-- A run that starts at a reset and has requests as the memory unit expects them. -/
structure Runs (c : Config) (s : State) (i : ℕ → In) : Prop where
  size : 2 ≤ c.lsu.size
  reset : IsReset c s
  plain : ∀ t, Plain c (i t)
  holds : ∀ t, Holds c (run c s i t) (i t) (i (t + 1))

variable {c : Config} {s : State} {i : ℕ → In}

theorem Runs.good (h : Runs c s i) (t : ℕ) : Good c (run c s i t) (i t) := by
  have hl : ∀ p < c.cores, Lsu.Holding c.lsu c.Caches (s.lsu p) := fun p hp =>
    Lsu.holding_reset (h.reset.lsu p hp)
  exact Lib.run_invariant_input (Good c) (fun s a b => Holds c s a b ∧ Plain c b)
    ⟨h.plain 0, h.reset.memu.coherent ((h.plain 0).cached (Nat.lt_of_succ_lt h.size) hl),
      h.reset.memu.rpBanks, hl⟩
    (fun _ _ _ henv hg => hg.step h.size henv.1 henv.2) (fun t => ⟨h.holds t, h.plain (t + 1)⟩) t

end Run

end ParaNut.Nut
