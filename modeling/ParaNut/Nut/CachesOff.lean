import ParaNut.Memu.CachesOff
import ParaNut.Nut.Handover

/-!
# The load/store units with the caches off

As after a reset. The write port acknowledges entry 0 before it is in memory,
so what a load/store unit relies on is memory with the write of the BusIf.
-/

namespace ParaNut.Nut

open Lsu (PlainMem landed landed_false)

/-- Requests with the caches off. -/
structure Uncached (c : Config) (i : In) : Prop extends Requests c i where
  dcache : i.dcacheEnable = false
  icache : ∀ p < c.cores, (i.ifuRpi p).portRd = true → (i.ifuRpi p).portDirect = true

/-- Memory by words, with the write that the BusIf does. -/
def posted (c : Config) (s : State) : Lsu.Mem := fun a => Memu.posted c.memu s.memu a.toNat

/-- Entry 0 of CPU `p` is taken up, and about to be acknowledged. -/
def owes (s : State) (p : ℕ) : Bool := (s.memu.wp p).state == .direct

/-- The memory unit does accesses in turn. -/
structure InTurn (c : Config) (s : State) (i : In) : Prop where
  requests : Uncached c i
  memu : Memu.DirectOnly c.memu s.memu (mi c s i)

/-- No CPU has a store to region `W` on its way, and memory contains `mem` there. -/
structure Keeps (c : Config) (s : State) (W : WordAdr → Prop) (mem : WordAdr → TWord) : Prop where
  clear : ∀ p < c.cores, Clear c s p W
  posted : ∀ a, W a → posted c s a = mem a

section Cycle

variable {c : Config} {s : State} {i i' : In} {p : ℕ} {W : WordAdr → Prop}
  {mem : WordAdr → TWord}

theorem Uncached.cachesOff (h : Uncached c i) : Memu.CachesOff c.memu (mi c s i) where
  read p hp hrd := by
    by_cases hlt : p < c.cores
    · rw [mi_rpi hlt]
      simp [Lsu.rpi, Lsu.portDirect, h.dcache]
    · rw [mi_rpi_fetch hlt] at hrd ⊢
      exact h.icache _ (fetch_lt hp hlt) hrd
  write p hp _ := by
    rw [h.wpi hp]
    simp [Lsu.portDirect, h.dcache]
  control p hp := by
    rw [h.wpi hp]
    exact ⟨rfl, rfl⟩

namespace InTurn

protected theorem step (hg : InTurn c s i) (hh : Holds c s i i') (hc : Uncached c i') :
    InTurn c (step c s i) i' where
  requests := hc
  memu := hg.memu.step (hg.requests.holds hh hc.toRequests
    (hc.dcache.trans hg.requests.dcache.symm)) hc.cachesOff

theorem dirty_of_taken (hg : InTurn c s i) (hp : p < c.cores)
    (h : owes (Nut.step c s i) p = true) : (s.lsu p).wbufDirty0 = true := by
  obtain ⟨-, -, hop⟩ := hg.memu.taken_of_waits hp (beq_iff_eq.mp h)
  have hwr := (Memu.WritePort.directWrite_spec hop (hg.memu.wp p hp)).1
  simp only [Memu.wpIn, hg.requests.wpi hp] at hwr
  exact hwr

theorem dirty_of_owes (hg : InTurn c s i) (hp : p < c.cores) (h : owes s p = true) :
    (s.lsu p).wbufDirty0 = true := by
  refine hg.requests.dirty_of_busy hg.memu.toLocks hp fun hs => ?_
  rw [owes, hs] at h
  cases h

theorem owes_step (hg : InTurn c s i) (hp : p < c.cores) : owes (Nut.step c s i) p =
    (!(wpo c s i p).portAck && (owes (Nut.step c s i) p || owes s p)) := by
  have hack : (wpo c s i p).portAck = owes s p := by
    rw [Bool.eq_iff_iff, owes, beq_iff_eq]
    exact hg.memu.ack_iff hp
  rw [hack]
  cases ho : owes s p with
  | false => rw [Bool.not_false, Bool.true_and, Bool.or_false]
  | true =>
    have hinit : ((Nut.step c s i).memu.wp p).state = .init :=
      Memu.WritePort.init_of_ack (hack.trans ho)
    rw [owes, hinit]
    rfl

/-- In the region of CPU `p` memory takes the writes of its port alone. -/
theorem posted_step (hg : InTurn c s i) (hp : p < c.cores)
    (ho : ∀ q < c.cores, q ≠ p → Clear c s q W) (hs : 0 < c.lsu.size) {a : WordAdr} (ha : W a) :
    posted c (Nut.step c s i) a =
      landed (s.lsu p) (owes (Nut.step c s i) p) a (posted c s a) := by
  refine (hg.memu.posted_step a.toNat).trans ?_
  cases ht : Memu.takenUp c.memu s.memu (mi c s i) a.toNat with
  | none =>
    refine (if_neg ?_).symm
    rintro ⟨htaken, hadr⟩
    rw [hg.memu.takenUp_of_waits hp (beq_iff_eq.mp htaken), hg.requests.wpi hp,
      if_pos (wordNo_eq_toNat.mpr hadr)] at ht
    cases ht
  | some x =>
    obtain ⟨q, hq, hstate, hadr, rfl⟩ := hg.memu.waits_of_takenUp ht
    rw [hg.requests.wpi hq] at hadr ⊢
    have hadr := wordNo_eq_toNat.mp hadr
    have htaken : owes (Nut.step c s i) q = true := beq_iff_eq.mpr hstate
    obtain rfl : q = p := by
      by_contra hne
      refine (ho q hq hne).adr hs (hg.dirty_of_taken hq htaken) ?_
      rw [hadr]
      exact ha
    exact (if_pos ⟨htaken, hadr⟩).symm

theorem rp_lt (hp : p < c.cores) : p < c.memu.rports := by
  simp only [Memu.Config.rports, Config.cores] at *
  omega

theorem answers (hg : InTurn c s i) (hp : p < c.cores)
    (ho : ∀ q < c.cores, q ≠ p → Clear c s q W) (hs : 0 < c.lsu.size) :
    Lsu.Answers (s.lsu p) (i.lsui p) (rpo c s i p).portAck (wpo c s i p).portAck W (posted c s)
      (posted c (Nut.step c s i)) (owes s p) (owes (Nut.step c s i) p)
      (rpo c (Nut.step c s i) i' p).portData where
  dirty := hg.dirty_of_owes hp
  write := by
    refine ⟨_, hg.dirty_of_taken hp, fun hack => .inr ?_, hg.owes_step hp,
      fun a ha => hg.posted_step hp ho hs ha⟩
    rw [owes, beq_iff_eq]
    exact (hg.memu.ack_iff hp).mp hack
  read hack _ := by
    have hdata := hg.memu.delivered (k := mi c (Nut.step c s i) i') (rp_lt hp) hack
    rw [mi_rpi hp] at hdata
    exact .inl hdata

end InTurn

protected theorem Keeps.step (h : Keeps c s W mem) (hg : InTurn c s i) (hs : 2 ≤ c.lsu.size)
    (hst : ∀ p < c.cores, (i.lsui p).wr = true → ¬ W (wordOf (i.lsui p).adr)) :
    Keeps c (step c s i) W mem where
  clear p hp := hg.requests.clear_step hs hp (h.clear p hp) (hst p hp)
  posted a ha := by
    have hpos : 0 < c.cores := c.memu.cores_pos
    rw [hg.posted_step hpos (fun q hq _ => h.clear q hq) (Nat.lt_of_succ_lt hs) ha, h.posted a ha]
    refine if_neg ?_
    rintro ⟨htaken, hadr⟩
    refine (h.clear 0 hpos).adr (Nat.lt_of_succ_lt hs) (hg.dirty_of_taken hpos htaken) ?_
    rw [hadr]
    exact ha

theorem IsReset.inTurn (hr : IsReset c s) (hc : Uncached c i) : InTurn c s i :=
  ⟨hc, hr.memu.directOnly hc.cachesOff⟩

theorem IsReset.keeps (hr : IsReset c s) (W : WordAdr → Prop) :
    Keeps c s W fun a => s.memu.mem a.toNat :=
  ⟨fun p hp => Lsu.holding_reset (hr.lsu p hp), fun _ _ => hr.memu.posted _⟩

end Cycle

-- ---------------------------------------------------------------------------
-- What a CPU sees
-- ---------------------------------------------------------------------------

/-- In region `W` CPU `p` sees the plain memory `m`, and no other CPU has a store to it on its
way. -/
structure SeesPosted (c : Config) (s : State) (i : In) (p : ℕ) (W : WordAdr → Prop)
    (m : PlainMem) : Prop where
  sees : Lsu.Sees c.lsu (s.lsu p) (i.lsui p) W (owes s p) (posted c s) m
  clear : ∀ q < c.cores, q ≠ p → Clear c s q W

namespace SeesPosted

variable {c : Config} {s : State} {i i' : In} {p : ℕ} {W : WordAdr → Prop} {m : PlainMem}

protected theorem step (h : SeesPosted c s i p W m) (hg : InTurn c s i) (hc : Uncached c i')
    (hh : Holds c s i i') (hs : 2 ≤ c.lsu.size) (hp : p < c.cores)
    (hst : ∀ q < c.cores, (i.lsui q).wr = true → W (wordOf (i.lsui q).adr) → q = p) :
    SeesPosted c (Nut.step c s i) i' p W (commit c s i p m) where
  sees := Lsu.Sees.step h.sees hs (hg.requests.asked hc.toRequests hh hp)
    (@InTurn.answers c s i i' p W hg hp h.clear (Nat.lt_of_succ_lt hs))
  clear q hq hne :=
    hg.requests.clear_step hs hq (h.clear q hq hne) fun hwr ha => hne (hst q hq hwr ha)

theorem load (h : SeesPosted c s i p W m) (hg : InTurn c s i) (hc : Uncached c i')
    (hh : Holds c s i i') (hs : 2 ≤ c.lsu.size) (hp : p < c.cores) (hrd : (i.lsui p).rd = true)
    (hack : (lsuo c s i p).ack = true) (hW : W (wordOf (i.lsui p).adr)) :
    (lsuo c (Nut.step c s i) i' p).rdata =
      m.load (i.lsui p).width (i.lsui p).exts (i.lsui p).adr :=
  Lsu.Sees.load h.sees hs (hg.requests.asked hc.toRequests hh hp)
    (hg.answers hp h.clear (Nat.lt_of_succ_lt hs)) hrd hack hW

theorem reset (hr : IsReset c s) (hp : p < c.cores) :
    SeesPosted c s i p W (PlainMem.ofMem fun a => s.memu.mem a.toNat) where
  sees := by
    refine ⟨fun a => s.memu.mem a.toNat, _, Lsu.consistent_reset (hr.lsu p hp) _,
      fun a _ => ⟨?_, fun _ => rfl⟩⟩
    have hidle : owes s p = false := by
      rw [owes, (hr.memu.wp p hp).1]
      rfl
    rw [hidle, landed_false]
    exact hr.memu.posted _
  clear q hq _ := Lsu.holding_reset (hr.lsu q hq)

end SeesPosted

section Run

variable {c : Config} {s : State} {i : ℕ → In} {p : ℕ} {W : WordAdr → Prop}

/-- A run from a reset with the caches off. -/
structure UncachedRuns (c : Config) (s : State) (i : ℕ → In) : Prop where
  size : 2 ≤ c.lsu.size
  reset : IsReset c s
  requests : ∀ t, Uncached c (i t)
  holds : ∀ t, Holds c (run c s i t) (i t) (i (t + 1))

/-- CPU `p` alone stores to region `W`. -/
def StoresAlone (c : Config) (i : ℕ → In) (p : ℕ) (W : WordAdr → Prop) : Prop :=
  ∀ t, ∀ q < c.cores, ((i t).lsui q).wr = true → W (wordOf ((i t).lsui q).adr) → q = p

theorem UncachedRuns.inTurn (h : UncachedRuns c s i) (t : ℕ) : InTurn c (run c s i t) (i t) := by
  induction t with
  | zero => exact h.reset.inTurn (h.requests 0)
  | succ t ih => exact ih.step (h.holds t) (h.requests (t + 1))

theorem UncachedRuns.sees (h : UncachedRuns c s i) (hp : p < c.cores)
    (hst : StoresAlone c i p W) (t : ℕ) :
    SeesPosted c (run c s i t) (i t) p W (stored c (run c s i) i (fun _ => p) t) := by
  induction t with
  | zero => exact .reset h.reset hp
  | succ t ih => exact ih.step (h.inTurn t) (h.requests (t + 1)) (h.holds t) h.size hp (hst t)

/-- With the caches off, a load from a region that no other CPU stores to delivers what the
CPU's stores so far have left there, and a region that nobody stores to stays as it was. -/
theorem uncached_sees_stores (h : UncachedRuns c s i) (t : ℕ) :
    (p < c.cores → StoresAlone c i p W → ((i t).lsui p).rd = true →
      (lsuo c (run c s i t) (i t) p).ack = true → W (wordOf ((i t).lsui p).adr) →
      (lsuo c (run c s i (t + 1)) (i (t + 1)) p).rdata =
        (stored c (run c s i) i (fun _ => p) t).load ((i t).lsui p).width ((i t).lsui p).exts
          ((i t).lsui p).adr) ∧
      ((∀ t, ∀ q < c.cores, ((i t).lsui q).wr = true → ¬ W (wordOf ((i t).lsui q).adr)) →
        ∀ a, W a → posted c (run c s i t) a = s.memu.mem a.toNat) := by
  refine ⟨fun hp hst hrd hack hW => ?_, fun hst a ha => ?_⟩
  · exact (h.sees hp hst t).load (h.inTurn t) (h.requests (t + 1)) (h.holds t) h.size hp hrd hack
      hW
  · have hkeeps : Keeps c (run c s i t) W fun a => s.memu.mem a.toNat := by
      induction t with
      | zero => exact h.reset.keeps W
      | succ t ih => exact ih.step (h.inTurn t) h.size (hst t)
    exact hkeeps.posted a ha

end Run

/-- CPU 0 stores 7 at address 0, and loads it in cycle 2. -/
def storeThenLoad (t : ℕ) : In where
  lsui p := ⟨decide (p = 0 ∧ t = 2), decide (p = 0 ∧ t = 0), false, false, false, 0, false, 0, 7⟩
  ifuRpi _ := ⟨false, 0, false, 0⟩
  dcacheEnable := false
  ackI := true
  portsReversed := false

theorem storeThenLoad_holds (t : ℕ) : Holds twoCpus (run twoCpus quiet storeThenLoad t)
    (storeThenLoad t) (storeThenLoad (t + 1)) where
  fetch _ _ h := by cases h
  held p _ hreq hack := by
    simp only [storeThenLoad, Lsu.LsuIn.request, Bool.or_false, Bool.or_eq_true,
      decide_eq_true_eq] at hreq
    rcases hreq with ⟨rfl, rfl⟩ | ⟨rfl, rfl⟩ <;> exact absurd hack (by decide +kernel)
  idle p _ hack := by
    by_contra hreq
    simp only [storeThenLoad, Lsu.LsuIn.request, Bool.or_false, Bool.not_eq_false, Bool.or_eq_true,
      decide_eq_true_eq] at hreq
    rcases hreq with ⟨rfl, h2⟩ | ⟨-, h0⟩
    · obtain rfl : t = 1 := Nat.succ.inj h2
      exact absurd hack (by decide +kernel)
    · cases h0
  stays _ _ _ _ := ⟨rfl, rfl, rfl⟩

theorem storeThenLoad_runs : UncachedRuns twoCpus quiet storeThenLoad where
  size := Nat.le_refl 2
  reset := ⟨Memu.quiet_isReset, fun _ _ => ⟨fun _ => rfl, rfl⟩⟩
  requests t :=
    { dcache := rfl
      icache := fun _ _ h => by cases h
      noCache := fun _ _ => rfl
      access := fun _ _ _ => ⟨show (0 : BitVec 2) ≠ 3 by decide, rfl, rfl,
        (by decide : adrIsSpecial 0 = false)⟩
      rdOnly := fun p _ h => by
        simp only [storeThenLoad, decide_eq_true_eq] at h
        simp [storeThenLoad, h.2]
      wrOnly := fun _ _ _ => rfl }
  holds := storeThenLoad_holds

/-- CPU 0 loads what it has stored, and the other words stay 0. -/
theorem uncached_sees_stores_storeThenLoad :
    (lsuo twoCpus (run twoCpus quiet storeThenLoad 3) (storeThenLoad 3) 0).rdata =
        (stored twoCpus (run twoCpus quiet storeThenLoad) storeThenLoad (fun _ => 0) 2).load
          0 false 0 ∧
      ∀ t a, a ≠ 0 → posted twoCpus (run twoCpus quiet storeThenLoad t) a = 0 := by
  have halone : StoresAlone twoCpus storeThenLoad 0 fun _ => True := by
    intro t q _ hwr _
    simp only [storeThenLoad, decide_eq_true_eq] at hwr
    exact hwr.1
  refine ⟨(uncached_sees_stores storeThenLoad_runs 2).1 (by decide) halone rfl (by decide +kernel)
    trivial, fun t => (uncached_sees_stores (p := 0) storeThenLoad_runs t).2 fun _ _ _ _ h => ?_⟩
  exact h (show wordOf (0 : TWord) = 0 by decide)

end ParaNut.Nut
