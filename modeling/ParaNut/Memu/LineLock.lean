import ParaNut.Memu.Discipline

/-!
# The line-lock discipline

While the BusIf works on a tag, the line lock for its index is held, by the
BusIf or by the write port it runs for, and nobody else writes to a line of
that index.
-/

namespace ParaNut.Memu

section Statement

variable (c : Config) (s : State) (i : Input)

/-- The BusIf reads the tag of a cache operation in this cycle, or has read it and not yet written
it for the last time. -/
def AccessesTag : Prop :=
  s.busif.state = .cacheRequestRtWait ∧ (grants c s i).tagr (idxBusif c) = true ∨
    s.busif.state.modifying = true

/-- The BusIf itself, or the write port on whose behalf it runs without a lock of its own. -/
def Responsible (n : ℕ) : Prop :=
  n = c.wports ∧ s.busif.linelock = true ∨
    n < c.wports ∧ s.busif.linelock = false ∧ (grants c s i).busif (n + wpOff c) = true ∧
      indexOf c (i.wpi n).portAdr = indexOf c s.busif.adr

/-- Who is responsible holds the lock, and no other write port holds it for the same index or
writes there. -/
def LineLockHeld : Prop :=
  ∃ n, Responsible c s i n ∧ (grants c s i).linelock n = true ∧
    ∀ q < c.wports, q ≠ n → indexOf c (i.wpi q).portAdr = indexOf c s.busif.adr →
      (grants c s i).linelock q = false ∧ (wpOut c s i (grants c s i) q).bankWr = false ∧
        (wpOut c s i (grants c s i) q).tagWr = false

end Statement

variable {c : Config} {s : State} {i : Input}

theorem AccessesTag.working (h : AccessesTag c s i) : s.busif.state.working = true := by
  rcases h with ⟨hs, -⟩ | hm
  · rw [hs]; rfl
  · exact BusIf.State.modifying_working hm

/-- A write port that writes has the line lock, or is in the last cycle of its tag write. -/
theorem writes_locked {q : ℕ}
    (h : (wpOut c s i (grants c s i) q).bankWr = true ∨
      (wpOut c s i (grants c s i) q).tagWr = true) :
    (s.wp q).state.writeLocked = true ∨ (s.wp q).state = .writeTag2 := by
  rcases h with h | h
  · exact .inl (WritePort.State.commits_locked (WritePort.bankWr_spec h).1)
  · obtain ⟨-, -, ⟨hs | hs, -⟩ | hs⟩ := WritePort.tagWr_spec h
    · exact .inl (by rw [hs]; rfl)
    · exact .inl (by rw [hs]; rfl)
    · cases hst : (s.wp q).state <;> simp [hst, WritePort.State.secondTagWrite] at hs
      · exact .inl rfl
      · exact .inr rfl

theorem Discipline.not_writeTag2 (hd : Discipline c s i) (ha : AccessesTag c s i) {q : ℕ}
    (hq : q < c.wports) (hidx : indexOf c (i.wpi q).portAdr = indexOf c s.busif.adr) :
    (s.wp q).state ≠ .writeTag2 := by
  intro hs
  rcases ha with ⟨-, hg⟩ | hm
  · exact (exclusive_grants hd.exclusive).tagrw _ le_rfl q hq.le hg
      (hd.tagw_kept hq (by rw [hs]; rfl))
  · exact hd.second hm q hq hs hidx

theorem Discipline.lineLockHeld (hd : Discipline c s i) (ha : AccessesTag c s i) :
    LineLockHeld c s i := by
  have hx := exclusive_grants hd.exclusive
  have hw := ha.working
  have hnot : ∀ q < c.wports, indexOf c (i.wpi q).portAdr = indexOf c s.busif.adr →
      (s.wp q).state.writeLocked = false → (wpOut c s i (grants c s i) q).bankWr = false ∧
        (wpOut c s i (grants c s i) q).tagWr = false := by
    intro q hq hidx hunlocked
    by_contra hwr
    rw [not_and_or, Bool.not_eq_false, Bool.not_eq_false] at hwr
    rcases writes_locked hwr with hlk | hs
    · simp [hunlocked] at hlk
    · exact hd.not_writeTag2 ha hq hidx hs
  rcases hd.owner hw with ⟨hlock, hg⟩ | ⟨hlock, p, hu⟩
  · have hgb := linelock_busif_kept (i := i) hg hlock
    refine ⟨c.wports, .inl ⟨rfl, hlock⟩, hgb, fun q hq _ hidx => ⟨?_, hnot q hq hidx ?_⟩⟩
    · by_contra hgq
      exact hx.index q hq (Bool.of_not_eq_false hgq) hgb hidx
    · by_contra hlk
      exact hd.exclusive.index q hq (hd.write q hq (Bool.of_not_eq_false hlk)) hg hidx
  · obtain ⟨hreq, hbusif, -⟩ := WritePort.served_requests (c := c)
      (i := wpIn c s i (grants c s i) p) hu.served (bifo_busy_of_working (c := c) _ hw)
    have hlp := hd.served hu.lt hu.served
    have hgp := linelock_kept hu.lt hlp hreq
    refine ⟨p, .inr ⟨hu.lt, hlock, busif_kept hu.busif hbusif, indexOf_congr hu.line⟩, hgp,
      fun q hq hne hidx => ⟨?_, hnot q hq hidx ?_⟩⟩
    · by_contra hgq
      exact hne (hx.linelock q hq p hu.lt (Bool.of_not_eq_false hgq) hgp)
    · by_contra hlk
      exact hne (hd.exclusive.linelock q hq p hu.lt
        (hd.write q hq (Bool.of_not_eq_false hlk)) hlp)

-- ---------------------------------------------------------------------------
-- Runs
-- ---------------------------------------------------------------------------

/-- In a run in which no write port starts a cache-control operation without its line lock, the
line-lock discipline holds in every cycle. -/
theorem lineLock_held {s : State} {i : ℕ → Input} (hr : IsReset c s)
    (hh : ∀ t, Holds c (states c s i t) (i t) (i (t + 1)))
    (hsp : ∀ t, SpecialLocked c (states c s i t) (i t)) (t : ℕ)
    (ha : AccessesTag c (states c s i t) (i t)) : LineLockHeld c (states c s i t) (i t) :=
  (discipline_states hr hh hsp t).lineLockHeld ha

/-- Two cores, and a cache of one way with two sets and two banks. -/
def twoCores : Config :=
  ⟨1, 1, 1, 0, 1, false, some 0, 0, one_bankLd, one_setLd, one_way, one_ramPort⟩

/-- An empty cache over a memory of zeros. -/
def quiet : State where
  wp _ := ⟨.init, ⟨false, false, 0, 0⟩, 0, 0, false⟩
  rp _ := ⟨.init, 0⟩
  busif := ⟨.idle, .nothing, false, 0, 0, 0, fun _ => 0, fun _ => 0, fun _ => true, fun _ => true,
    false, fun _ => false, 0, ⟨false, false, 0, 0⟩⟩
  arb := ⟨0, 0, Lines.none⟩
  tram := ⟨0, fun _ => false, fun _ => 0, fun _ => ⟨fun _ => false, fun _ => false, fun _ => 0, 0⟩,
    fun _ => 0, fun _ => 0, fun _ => false, false, 0, ⟨false, false, 0, 0⟩,
    fun _ => ⟨fun _ => false, fun _ => false, fun _ => 0, 0⟩,
    fun _ => ⟨fun _ => false, fun _ => false, fun _ => 0, 0⟩⟩
  bank _ _ := 0
  rdata _ _ := 0
  rpBusifData := 0
  mem _ := 0

theorem quiet_isReset : IsReset twoCores quiet where
  wp _ _ := ⟨rfl, rfl⟩
  rp _ _ := rfl
  busif := ⟨rfl, rfl, rfl⟩
  idataValid _ := rfl
  gnt := rfl
  tags _ _ := ⟨rfl, rfl⟩
  tram := ⟨rfl, fun _ => ⟨rfl, rfl, rfl⟩⟩

/-- Write port 1 asks for a write-back of the line at 0. -/
def writeback : Input where
  rpi _ := ⟨false, 0, false, 0⟩
  wpi p := ⟨false, false, 0, false, p == 1, false, 0, 0⟩
  ackI := false
  portsReversed := false

def noRequest : Input := { writeback with wpi := fun _ => ⟨false, false, 0, false, false, false, 0, 0⟩ }

/-- A write-back that is acknowledged in cycle 6. -/
def writebackOnce (t : ℕ) : Input := if t < 7 then writeback else noRequest

theorem lineLock_held_writeback :
    LineLockHeld twoCores (states twoCores quiet writebackOnce 3) (writebackOnce 3) := by
  refine lineLock_held quiet_isReset (fun t => ?_) (fun t => ?_) 3 (.inr (by decide +kernel))
  · refine ⟨fun p _ h => ?_, fun p hp h hack => ?_⟩
    · simp only [writebackOnce] at h
      split at h <;> cases h
    · obtain rfl | rfl : p = 0 ∨ p = 1 := by
        simp only [Config.wports, Config.cores, twoCores] at hp
        omega
      · simp only [writebackOnce] at h
        split at h <;> cases h
      · rcases Nat.lt_trichotomy t 6 with ht | rfl | ht
        · simp [writebackOnce, ht.trans, show t + 1 < 7 by omega]
        · exact absurd hack (by decide +kernel)
        · simp [writebackOnce, show ¬ t < 7 by omega] at h
          cases h
  · by_cases ht : t < 7
    · exact (by decide +kernel : ∀ t < 7, ∀ p < twoCores.wports, WritePort.unlockedSpecial
        ((states twoCores quiet writebackOnce t).wp p) (wpIn twoCores
          (states twoCores quiet writebackOnce t) (writebackOnce t)
          (grants twoCores (states twoCores quiet writebackOnce t) (writebackOnce t)) p) = false) t ht
    · intro p _
      simp [WritePort.unlockedSpecial, wpIn, writebackOnce, ht, noRequest]

/-- The same while the first read port reads and write port 0 writes at 0. -/
def contendedWriteback : Input :=
  { writeback with
    rpi := fun p => ⟨p == 0, 15, false, 0⟩
    wpi := fun p => ⟨p == 0, false, 15, false, p == 1, false, 0, 0⟩ }

/-- Write port 0 holds the line lock while the BusIf has the tag for write port 1. -/
theorem lineLock_taken : IsReset twoCores quiet ∧
    (∀ t, Holds twoCores (states twoCores quiet (fun _ => contendedWriteback) t)
      contendedWriteback contendedWriteback) ∧
    AccessesTag twoCores (states twoCores quiet (fun _ => contendedWriteback) 3)
      contendedWriteback ∧
    ¬ LineLockHeld twoCores (states twoCores quiet (fun _ => contendedWriteback) 3)
      contendedWriteback := by
  refine ⟨quiet_isReset, fun t => ⟨fun _ _ _ _ => rfl, fun _ _ _ _ => rfl⟩,
    .inr (by decide +kernel), ?_⟩
  rintro ⟨n, ⟨-, hl⟩ | ⟨hn, -, hg, -⟩, hlock, -⟩
  · exact absurd hl (by decide +kernel)
  · obtain rfl | rfl : n = 0 ∨ n = 1 := by
      simp only [Config.wports, Config.cores, twoCores] at hn
      omega
    · exact absurd hg (by decide +kernel)
    · exact absurd hlock (by decide +kernel)

end ParaNut.Memu
