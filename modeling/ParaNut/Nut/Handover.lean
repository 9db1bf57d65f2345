import ParaNut.Nut.Mparanut
import ParaNut.Lsu.Shared

/-!
# Memory that is handed from CPU to CPU

A region of memory belongs to one CPU at a time, which alone stores to it, and
passes to another one when the owner has had its write buffer flushed. Then a
load of the owner delivers what the stores of all owners so far, in the order
of their acknowledges, have left there, whatever the caches do.
-/

namespace ParaNut.Nut

open Lsu (PlainMem landed landed_false)

section Statement

variable (c : Config) (s : State) (i : In) (p : ℕ)

/-- A plain memory after an eventual acknowledged store of CPU `p`. -/
def commit (m : PlainMem) : PlainMem :=
  if (i.lsui p).wr && (lsuo c s i p).ack then
    m.store (i.lsui p).width (i.lsui p).adr (i.lsui p).wdata
  else m

/-- Memory by words, as the memory unit contains it. -/
def view : Lsu.Mem := fun a => Memu.contents c.memu s.memu a.toNat

/-- In region `W` CPU `p` sees the plain memory `m`. -/
def Sees (W : WordAdr → Prop) (m : PlainMem) : Prop :=
  Lsu.Sees c.lsu (s.lsu p) (i.lsui p) W (s.memu.wp p).state.owes (view c s) m

/-- CPU `p` has no store to region `W` on its way. -/
abbrev Clear (W : WordAdr → Prop) : Prop := Lsu.Holding c.lsu (fun a => ¬ W (wordOf a)) (s.lsu p)

end Statement

section Cycle

variable {c : Config} {s : State} {i i' : In} {p q : ℕ} {W : WordAdr → Prop} {m : PlainMem}

theorem wordNo_eq_toNat {adr : TWord} {a : WordAdr} : Memu.wordNo adr = a.toNat ↔ wordOf adr = a :=
  BitVec.toNat_inj

/-- In the region of CPU `p` the memory unit takes the writes of its port alone. -/
theorem Good.view_step (hg : Good c s i) (hg' : Good c (step c s i) i') (hp : p < c.cores)
    (ho : ∀ q < c.cores, q ≠ p → Clear c s q W) (hs : 0 < c.lsu.size) {a : WordAdr} (ha : W a) :
    view c (step c s i) a = landed (s.lsu p) (writes c s i p) a (view c s a) := by
  have hstep := Memu.contents_step hg.memu hg'.memu a.toNat
  have hword : ∀ q < c.cores, Memu.wordNo ((mi c s i).wpi q).portAdr = a.toNat ↔
      wordOf ((s.lsu q).wbufAdr 0) = a := fun q hq => by
    rw [hg.plain.wpi hq]
    exact wordNo_eq_toNat
  cases hw : Memu.writerOf c.memu s.memu (mi c s i) a.toNat with
  | none =>
    rw [hw] at hstep
    refine Eq.trans hstep (if_neg ?_).symm
    rintro ⟨hwr, hadr⟩
    exact Memu.writerOf_none hw hp hwr ((hword p hp).mpr hadr)
  | some q =>
    obtain ⟨hq, hwr, hadr⟩ := Memu.writerOf_some hw
    have hadr := (hword q hq).mp hadr
    rw [hw] at hstep
    obtain rfl : q = p := by
      by_contra hne
      refine (ho q hq hne).adr hs (hg.dirty_of_written hq (.inl hwr)) ?_
      rw [hadr]
      exact ha
    simp only [hg.plain.wpi hq] at hstep
    exact Eq.trans hstep (if_pos ⟨hwr, hadr⟩).symm

/-- What the load/store unit relies on. -/
theorem Requests.asked (h : Requests c i) (hc : Requests c i') (hh : Holds c s i i')
    (hp : p < c.cores) :
    Lsu.Asked c.lsu (s.lsu p) (rpo c s i p) (wpo c s i p) (i.lsui p) (i'.lsui p) where
  noCache := h.noCache p hp
  noCache' := hc.noCache p hp
  access := h.access p hp
  rdOnly := h.rdOnly p hp
  wrOnly := h.wrOnly p hp
  held := hh.held p hp
  idle := hh.idle p hp
  stays := hh.stays p hp

theorem Good.asked (hg : Good c s i) (hg' : Good c (step c s i) i') (hh : Holds c s i i')
    (hp : p < c.cores) :
    Lsu.Asked c.lsu (s.lsu p) (rpo c s i p) (wpo c s i p) (i.lsui p) (i'.lsui p) :=
  hg.plain.requests.asked hg'.plain.requests hh hp

theorem Good.answers (hg : Good c s i) (hg' : Good c (step c s i) i') (hp : p < c.cores)
    (ho : ∀ q < c.cores, q ≠ p → Clear c s q W) (hs : 0 < c.lsu.size) :
    Lsu.Answers (s.lsu p) (i.lsui p) (rpo c s i p).portAck (wpo c s i p).portAck W (view c s)
      (view c (step c s i)) (s.memu.wp p).state.owes ((step c s i).memu.wp p).state.owes
      (rpo c (step c s i) i' p).portData where
  dirty h := hg.dirty_of_written hp (.inr h)
  write := by
    refine ⟨writes c s i p, fun h => hg.dirty_of_written hp (.inl h), hg.written_of_ack hp, ?_,
      fun a ha => hg.view_step hg' hp ho hs ha⟩
    rw [Bool.eq_iff_iff, Bool.and_eq_true, Bool.or_eq_true, Bool.not_eq_true']
    exact Memu.WritePort.owes_iff
  read hack _ := by
    have hlt : p < c.memu.rports := by
      simp only [Memu.Config.rports, Config.cores] at *
      omega
    obtain ⟨s', hs', hdata⟩ := hg.memu.delivered hg'.memu hg.rpBanks hlt hack
    rw [mi_rpi hp] at hdata
    rcases List.mem_cons.mp hs' with rfl | hs'
    · exact .inl hdata
    · obtain rfl := List.mem_singleton.mp hs'
      exact .inr hdata

-- ---------------------------------------------------------------------------
-- What a CPU sees
-- ---------------------------------------------------------------------------

namespace Sees

protected theorem step (hv : Sees c s i p W m) (hg : Good c s i) (hg' : Good c (step c s i) i')
    (hh : Holds c s i i') (hs : 2 ≤ c.lsu.size) (hp : p < c.cores)
    (ho : ∀ q < c.cores, q ≠ p → Clear c s q W) :
    Sees c (Nut.step c s i) i' p W (commit c s i p m) :=
  Lsu.Sees.step hv hs (hg.asked hg' hh hp) (hg.answers hg' hp ho (Nat.lt_of_succ_lt hs))

theorem forget (hv : Sees c s i p W m) : Sees c s i p (fun _ => False) m := by
  obtain ⟨mem, m', hc, -⟩ := hv
  exact ⟨mem, m', hc, fun _ h => h.elim⟩

/-- A load that is acknowledged delivers what its CPU sees. -/
theorem load (hv : Sees c s i p W m) (hg : Good c s i) (hg' : Good c (Nut.step c s i) i')
    (hh : Holds c s i i') (hs : 2 ≤ c.lsu.size) (hp : p < c.cores)
    (ho : ∀ q < c.cores, q ≠ p → Clear c s q W) (hrd : (i.lsui p).rd = true)
    (hack : (lsuo c s i p).ack = true) (hW : W (wordOf (i.lsui p).adr)) :
    (lsuo c (Nut.step c s i) i' p).rdata =
      m.load (i.lsui p).width (i.lsui p).exts (i.lsui p).adr :=
  Lsu.Sees.load hv hs (hg.asked hg' hh hp) (hg.answers hg' hp ho (Nat.lt_of_succ_lt hs)) hrd hack
    hW

end Sees

-- ---------------------------------------------------------------------------
-- Handing over
-- ---------------------------------------------------------------------------

open Classical in
/-- Plain memory `m` in region `W`, and `m'` elsewhere. -/
noncomputable def overlay (W : WordAdr → Prop) (m m' : PlainMem) : PlainMem := fun adr =>
  if W (wordOf adr) then m adr else m' adr

theorem overlay_inside (m m' : PlainMem) {a : WordAdr} (ha : W a) (n : Fin 4) :
    (overlay W m m').contents a n = m.contents a n :=
  if_pos (by rwa [Lsu.wordOf_lane])

theorem overlay_outside (m m' : PlainMem) {a : WordAdr} (ha : ¬ W a) (n : Fin 4) :
    (overlay W m m').contents a n = m'.contents a n :=
  if_neg (by rwa [Lsu.wordOf_lane])

theorem Requests.clear_step (h : Requests c i) (hs : 2 ≤ c.lsu.size) (hp : p < c.cores)
    (hc : Clear c s p W) (hwr : (i.lsui p).wr = true → ¬ W (wordOf (i.lsui p).adr)) :
    Clear c (step c s i) p W :=
  Lsu.Holding.next hc hs (h.noCache p hp) fun hw => ⟨hwr hw, h.known hp (.inr hw)⟩

/-- A flush that is acknowledged. -/
def Flushed (c : Config) (s : State) (i : In) (p : ℕ) : Prop :=
  (i.lsui p).flush = true ∧ (lsuo c s i p).ack = true

/-- Then there is no store, and nothing on its way. -/
theorem Good.flushed (hg : Good c s i) (hs : 2 ≤ c.lsu.size) (hp : p < c.cores)
    (hf : Flushed c s i p) : (i.lsui p).wr = false ∧ Lsu.isFlushed c.lsu (s.lsu p) = true ∧
      (s.lsu p).wbufDirty0 = false ∧ Clear c s p W := by
  have hwr : (i.lsui p).wr = false := by
    by_contra hwr
    have hfl := hf.1
    rw [hg.plain.wrOnly p hp (by simpa using hwr)] at hfl
    cases hfl
  have hrd : (i.lsui p).rd = false := by
    by_contra hrd
    have hfl := hf.1
    rw [(hg.plain.rdOnly p hp (by simpa using hrd)).2] at hfl
    cases hfl
  have hflushed := Lsu.ack_of_flush (hg.plain.noCache p hp) hwr hrd hf.2
  obtain ⟨hclear, hd⟩ := Lsu.holding_flushed (P := fun a => ¬ W (wordOf a))
    (Nat.lt_of_succ_lt hs) hflushed (hg.lsu p hp).inFlight
  exact ⟨hwr, hflushed, hd, hclear⟩

/-- After the flush of its owner a region is in the memory unit. -/
theorem Sees.flushed (hv : Sees c s i p W m) (hg : Good c s i) (hg' : Good c (step c s i) i')
    (hs : 2 ≤ c.lsu.size) (hp : p < c.cores) (ho : ∀ q < c.cores, q ≠ p → Clear c s q W)
    (hf : Flushed c s i p) {a : WordAdr} (ha : W a) (n : Fin 4) :
    Lib.byte (view c (step c s i) a) n = m.contents a n := by
  obtain ⟨mem, m', hc, hw⟩ := hv
  obtain ⟨hview, hm⟩ := hw a ha
  obtain ⟨-, hflushed, hd, -⟩ := hg.flushed (W := W) hs hp hf
  have hidle : ∀ k, (k = true → (s.lsu p).wbufDirty0 = true) → k = false := fun k hk => by
    by_contra hne
    have hdirty := hk (by simpa using hne)
    rw [hd] at hdirty
    cases hdirty
  rw [hg.view_step hg' hp ho (Nat.lt_of_succ_lt hs) ha,
    hidle _ fun h => hg.dirty_of_written hp (.inl h), landed_false, hview,
    hidle _ fun h => hg.dirty_of_written hp (.inr h), landed_false, ← hm n]
  exact hc.shows.mem_of_isFlushed hflushed a n

/-- A CPU with no store to a region on its way sees there what the memory unit contains. -/
theorem Sees.gain (hv : Sees c s i p (fun _ => False) m) (hg : Good c s i) (hp : p < c.cores)
    (hs : 0 < c.lsu.size) (hc : Clear c s p W) {m₀ : PlainMem}
    (hmem : ∀ a, W a → ∀ n, Lib.byte (view c s a) n = m₀.contents a n) : Sees c s i p W m₀ := by
  classical
  obtain ⟨mem, m', hcons, -⟩ := hv
  have hout : ∀ j a n, Lsu.Covers c.lsu (s.lsu p) j a n → ¬ W a := fun j a n hj => by
    rw [← hj.word]
    exact hc.entry j hj.lt hj.valid_ne
  refine ⟨fun a => if W a then view c s a else mem a, overlay W m₀ m',
    ⟨hcons.unique, ⟨fun j a n hj => ?_, fun a n hno => ?_⟩, fun hd n hn => ?_, hcons.inFlight⟩,
    fun a ha => ⟨?_, overlay_inside m₀ m' ha⟩⟩
  · rw [overlay_outside _ _ (hout j a n hj)]
    exact hcons.shows.covered j a n hj
  · by_cases ha : W a
    · rw [overlay_inside _ _ ha]
      simp only [if_pos ha]
      exact hmem a ha n
    · rw [overlay_outside _ _ ha]
      simp only [if_neg ha]
      exact hcons.shows.uncovered a n hno
  · have ha := hout 0 _ n ⟨hs, rfl, hn⟩
    simp only [if_neg ha]
    exact hcons.written hd n hn
  · simp only [if_pos ha]
    refine (if_neg ?_).symm
    rintro ⟨howes, hadr⟩
    refine hc.adr hs (hg.dirty_of_written hp (.inr howes)) ?_
    rw [hadr]
    exact ha

-- ---------------------------------------------------------------------------
-- Who owns a region
-- ---------------------------------------------------------------------------

/-- CPU `p` sees `m` in region `W`, and no other CPU has a store to it on its way. -/
structure Owns (c : Config) (s : State) (i : In) (p : ℕ) (W : WordAdr → Prop) (m : PlainMem) :
    Prop where
  lt : p < c.cores
  sees : Sees c s i p W m
  clear : ∀ q < c.cores, q ≠ p → Clear c s q W
  others : ∀ q < c.cores, ∃ m', Sees c s i q (fun _ => False) m'

namespace Owns

theorem others_step (hw : Owns c s i p W m) (hg : Good c s i) (hg' : Good c (step c s i) i')
    (hh : Holds c s i i') (hs : 2 ≤ c.lsu.size) (hq : q < c.cores) :
    ∃ m', Sees c (step c s i) i' q (fun _ => False) m' := by
  obtain ⟨m', hv⟩ := hw.others q hq
  exact ⟨_, hv.step hg hg' hh hs hq fun r hr _ => (hg.lsu r hr).mono fun _ _ => not_false⟩

protected theorem step (hw : Owns c s i p W m) (hg : Good c s i) (hg' : Good c (step c s i) i')
    (hh : Holds c s i i') (hs : 2 ≤ c.lsu.size)
    (hst : ∀ q < c.cores, (i.lsui q).wr = true → W (wordOf (i.lsui q).adr) → q = p) :
    Owns c (Nut.step c s i) i' p W (commit c s i p m) where
  lt := hw.lt
  sees := hw.sees.step hg hg' hh hs hw.lt hw.clear
  clear q hq hne :=
    hg.plain.requests.clear_step hs hq (hw.clear q hq hne) fun hwr ha => hne (hst q hq hwr ha)
  others _ hq := hw.others_step hg hg' hh hs hq

/-- The owner has its buffer flushed, and another CPU takes the region. -/
theorem handed (hw : Owns c s i p W m) (hg : Good c s i) (hg' : Good c (Nut.step c s i) i')
    (hh : Holds c s i i') (hs : 2 ≤ c.lsu.size)
    (hst : ∀ q < c.cores, (i.lsui q).wr = true → W (wordOf (i.lsui q).adr) → q = p)
    (hf : Flushed c s i p) (hq : q < c.cores) (hne : q ≠ p) :
    Owns c (Nut.step c s i) i' q W m := by
  have hclear : ∀ r < c.cores, Clear c (Nut.step c s i) r W := by
    intro r hr
    rcases eq_or_ne r p with rfl | hrp
    · obtain ⟨hwr, -, -, hc⟩ := hg.flushed (W := W) hs hr hf
      exact hg.plain.requests.clear_step hs hr hc fun h =>
        absurd (hwr.symm.trans h) Bool.false_ne_true
    · exact hg.plain.requests.clear_step hs hr (hw.clear r hr hrp) fun hwr ha =>
        hrp (hst r hr hwr ha)
  obtain ⟨m', hv⟩ := hw.others_step hg hg' hh hs hq
  exact ⟨hq, hv.gain hg' hq (Nat.lt_of_succ_lt hs) (hclear q hq)
      fun a ha n => hw.sees.flushed hg hg' hs hw.lt hw.clear hf ha n,
    fun r hr _ => hclear r hr, fun r hr => hw.others_step hg hg' hh hs hr⟩

end Owns

end Cycle

-- ---------------------------------------------------------------------------
-- Runs
-- ---------------------------------------------------------------------------

section Run

variable {c : Config} {s : State} {i : ℕ → In} {W : WordAdr → Prop} {own : ℕ → ℕ}

/-- The initial memory after the stores of all owners that were acknowledged before cycle `t`. -/
def stored (c : Config) (st : ℕ → State) (i : ℕ → In) (own : ℕ → ℕ) : ℕ → PlainMem
  | 0 => PlainMem.ofMem fun a => (st 0).memu.mem a.toNat
  | t + 1 => commit c (st t) (i t) (own t) (stored c st i own t)

/-- In each cycle CPU `own t` alone stores to region `W`, and it has its buffer flushed before
another CPU takes over. -/
structure HandsOver (c : Config) (st : ℕ → State) (i : ℕ → In) (W : WordAdr → Prop)
    (own : ℕ → ℕ) : Prop where
  lt : ∀ t, own t < c.cores
  store : ∀ t, ∀ q < c.cores, ((i t).lsui q).wr = true → W (wordOf ((i t).lsui q).adr) → q = own t
  release : ∀ t, own (t + 1) ≠ own t → Flushed c (st t) (i t) (own t)

theorem Runs.owns_reset (h : Runs c s i) (hw : HandsOver c (run c s i) i W own) :
    Owns c s (i 0) (own 0) W (stored c (run c s i) i own 0) := by
  have hsees : ∀ q < c.cores, ∀ V : WordAdr → Prop,
      Sees c s (i 0) q V (stored c (run c s i) i own 0) := by
    intro q hq V
    refine ⟨fun a => s.memu.mem a.toNat, _, Lsu.consistent_reset (h.reset.lsu q hq) _,
      fun a _ => ⟨?_, fun _ => rfl⟩⟩
    have hidle : (s.memu.wp q).state.owes = false := by
      rw [(h.reset.memu.wp q hq).1]
      rfl
    rw [hidle, landed_false]
    exact h.reset.memu.contents _
  exact ⟨hw.lt 0, hsees _ (hw.lt 0) W, fun q hq _ => Lsu.holding_reset (h.reset.lsu q hq),
    fun q hq => ⟨_, hsees q hq _⟩⟩

theorem Runs.owns (h : Runs c s i) (hw : HandsOver c (run c s i) i W own) (t : ℕ) :
    Owns c (run c s i t) (i t) (own t) W (stored c (run c s i) i own t) := by
  induction t with
  | zero => exact h.owns_reset hw
  | succ t ih =>
    by_cases hsame : own (t + 1) = own t
    · rw [hsame]
      exact ih.step (h.good t) (h.good (t + 1)) (h.holds t) h.size (hw.store t)
    · have hf := hw.release t hsame
      have hcommit : stored c (run c s i) i own (t + 1) = stored c (run c s i) i own t := by
        have hwr := ((h.good t).flushed (W := W) h.size (hw.lt t) hf).1
        rw [stored, commit, hwr, Bool.false_and, if_neg Bool.false_ne_true]
      rw [hcommit]
      exact ih.handed (h.good t) (h.good (t + 1)) (h.holds t) h.size (hw.store t) hf
        (hw.lt (t + 1)) hsame

/-- A load from the region that its owner is acknowledged delivers what the stores of all owners so
far have left there, and when a flush is acknowledged the memory unit contains it. -/
theorem owner_sees_stores (h : Runs c s i) (hw : HandsOver c (run c s i) i W own) (t : ℕ)
    (hack : (lsuo c (run c s i t) (i t) (own t)).ack = true) :
    (((i t).lsui (own t)).rd = true → W (wordOf ((i t).lsui (own t)).adr) →
      (lsuo c (run c s i (t + 1)) (i (t + 1)) (own t)).rdata =
        (stored c (run c s i) i own t).load ((i t).lsui (own t)).width ((i t).lsui (own t)).exts
          ((i t).lsui (own t)).adr) ∧
      (((i t).lsui (own t)).flush = true → ∀ a, W a → ∀ n,
        Lib.byte (view c (run c s i (t + 1)) a) n =
          (stored c (run c s i) i own t).contents a n) := by
  have howns := h.owns hw t
  refine ⟨fun hrd hW => ?_, fun hfl a ha n => ?_⟩
  · exact howns.sees.load (h.good t) (h.good (t + 1)) (h.holds t) h.size howns.lt howns.clear hrd
      hack hW
  · exact howns.sees.flushed (h.good t) (h.good (t + 1)) h.size howns.lt howns.clear ⟨hfl, hack⟩
      ha n

end Run

def twoCpus : Config := ⟨Memu.twoCores, ⟨2, 0x1000, 0⟩⟩

def quiet : State := ⟨Memu.quiet, fun _ => ⟨fun _ => 0, fun _ => 0, fun _ => 0, false⟩⟩

/-- CPU 0 at first, and then CPU 1. -/
def firstThenSecond (t : ℕ) : ℕ := if t = 0 then 0 else 1

/-- A flush of CPU 0, and then a load of CPU 1 that is acknowledged in cycle 11. -/
def flushThenLoad (t : ℕ) : In where
  lsui p := ⟨decide (p = 1 ∧ 1 ≤ t ∧ t < 12), false, decide (p = 0 ∧ t = 0), false, false, 0, false,
    0, 0⟩
  ifuRpi _ := ⟨false, 0, false, 0⟩
  dcacheEnable := true
  ackI := true
  portsReversed := false

theorem flushThenLoad_holds (t : ℕ) : Holds twoCpus (run twoCpus quiet flushThenLoad t)
    (flushThenLoad t) (flushThenLoad (t + 1)) where
  fetch _ _ h := by cases h
  held p _ hreq hack := by
    simp only [flushThenLoad, Lsu.LsuIn.request, Bool.or_false, Bool.or_eq_true,
      decide_eq_true_eq] at hreq
    rcases hreq with ⟨rfl, hlo, hhi⟩ | ⟨rfl, rfl⟩
    · rcases Nat.lt_succ_iff_lt_or_eq.mp hhi with hlt | rfl
      · simp [flushThenLoad, hlo, hhi, Nat.succ_lt_succ hlt]
      · exact absurd hack (by decide +kernel)
    · exact absurd hack (by decide +kernel)
  idle p _ hack := by
    by_contra hreq
    simp only [flushThenLoad, Lsu.LsuIn.request, Bool.or_false, Bool.not_eq_false, Bool.or_eq_true,
      decide_eq_true_eq] at hreq
    rcases hreq with ⟨rfl, -, hhi⟩ | ⟨-, h0⟩
    · have hno : ∀ t < 11, (lsuo twoCpus (run twoCpus quiet flushThenLoad t)
          (flushThenLoad t) 1).ack = false := by decide +kernel
      rw [hno t (Nat.lt_of_succ_lt_succ hhi)] at hack
      cases hack
    · cases h0
  stays _ _ _ _ := ⟨rfl, rfl, rfl⟩

theorem flushThenLoad_runs : Runs twoCpus quiet flushThenLoad where
  size := Nat.le_refl 2
  reset := ⟨Memu.quiet_isReset, fun _ _ => ⟨fun _ => rfl, rfl⟩⟩
  plain t :=
    { dcache := rfl
      icache := fun _ _ h => by cases h
      noCache := fun _ _ => rfl
      access := fun _ _ _ => ⟨⟨nofun, rfl, rfl, (by decide : adrIsSpecial 0 = false)⟩, rfl⟩
      rdOnly := fun p _ h => by
        simp only [flushThenLoad, decide_eq_true_eq] at h
        simp [flushThenLoad, h.1]
      wrOnly := fun _ _ h => by cases h }
  holds := flushThenLoad_holds

/-- CPU 1 takes all of memory after the flush, and loads. -/
theorem owner_sees_stores_flushThenLoad :
    (lsuo twoCpus (run twoCpus quiet flushThenLoad 12) (flushThenLoad 12) 1).rdata =
      (stored twoCpus (run twoCpus quiet flushThenLoad) flushThenLoad firstThenSecond 11).load
        0 false 0 := by
  have hands : HandsOver twoCpus (run twoCpus quiet flushThenLoad) flushThenLoad (fun _ => True)
      firstThenSecond := by
    refine ⟨fun t => ?_, fun _ _ _ h => ?_, fun t hne => ?_⟩
    · unfold firstThenSecond
      split <;> decide
    · cases h
    · obtain rfl : t = 0 := by
        by_contra h0
        exact hne (by simp [firstThenSecond, h0])
      exact ⟨by decide, by decide +kernel⟩
  exact (owner_sees_stores flushThenLoad_runs hands 11 (by decide +kernel)).1 (by decide) trivial

end ParaNut.Nut
