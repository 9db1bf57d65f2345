import ParaNut.Types
import ParaNut.Lib.Sync
import Mathlib.Logic.Function.Basic
import Mathlib.Order.Bounds.Basic

/-!
# Histograms of the cycles that events take (`mhistogram.vhd`)

A start pulse opens an event and a stop pulse completes it. The registers hold
the totals over the completed events, and the memory a bin for every number of
cycles, the last one for all that are too long.
-/

namespace ParaNut.Exu.Histogram

open Lib (run run_succ)

structure HistCtrl where
  start : Bool
  stop : Bool
  abort : Bool
  deriving DecidableEq

structure HistIn where
  enable : Bool
  ctrl : HistCtrl
  addr : TWord
  deriving DecidableEq

structure Registers where
  state : Bool
  cnt : TWord
  min : TWord
  max : TWord
  totCnt : TWord
  totClks : TWord
  deriving DecidableEq

/-- The registers and `hist_data`, with `ld` for `HIST_BINS_LD`. -/
structure State (ld : ℕ) where
  r : Registers
  mem : BitVec ld → TWord

/-- `mem_waddr` and `mem_raddr`. The bound is the square of `HIST_BINS_LD`, as in the source. -/
def memAdr (ld : ℕ) (cnt : TWord) : BitVec ld :=
  if cnt.toNat < ld ^ 2 then cnt.setWidth ld else BitVec.allOnes ld

/-- The process `comb`: `rin` and `mem_we`. -/
def comb (reset : Bool) (r : Registers) (hi : HistIn) : Registers × Bool :=
  let v := if r.state then { r with cnt := r.cnt + 1 } else r
  let v := if hi.ctrl.start && hi.enable then { v with state := true, cnt := r.cnt + 1 } else v
  let (v, memWe) :=
    if v.state && hi.enable then
      if hi.ctrl.abort then ({ v with state := false, cnt := 0 }, false)
      else if hi.ctrl.stop then
        let v := { v with
          state := false
          cnt := 0
          min := if r.cnt < r.min then r.cnt else v.min
          max := if r.max < r.cnt then r.cnt else v.max
          totCnt := r.totCnt + 1
          totClks := r.totClks + r.cnt + 1 }
        (if r.state && hi.ctrl.start then { v with state := true, cnt := 1 } else v, true)
      else (v, false)
    else (v, false)
  (if reset then
    { state := false, min := BitVec.allOnes 32, max := 0, cnt := 0, totCnt := 0, totClks := 0 }
  else v, memWe)

variable {ld : ℕ}

/-- One clock edge. -/
def next (reset : Bool) (s : State ld) (hi : HistIn) : State ld :=
  let (rin, memWe) := comb reset s.r hi
  let adr := memAdr ld s.r.cnt
  { r := rin, mem := if memWe then Function.update s.mem adr (s.mem adr + 1) else s.mem }

/-- `ho.data`; `aw` is `ADDR_WIDTH`. -/
def data (aw : ℕ) (s : State ld) (addr : TWord) : TWord :=
  if ld ≠ 0 ∧ addr.extractLsb' 2 (aw - 2) ≠ BitVec.allOnes (aw - 2) then s.mem (addr.setWidth ld)
  else if addr.extractLsb' 0 2 = 0 then s.r.min
  else if addr.extractLsb' 0 2 = 1 then s.r.max
  else if addr.extractLsb' 0 2 = 2 then s.r.totCnt
  else s.r.totClks

/-! ## The events of a stream of pulses -/

/-- An event by the cycles of its start pulse and of its stop pulse. -/
structure Event where
  first : ℕ
  last : ℕ
  deriving DecidableEq

def Event.cycles (e : Event) : ℕ := e.last - e.first

structure Timeline where
  /-- the cycle of the start pulse of the event that is under way -/
  opened : Option ℕ
  completed : List Event
  deriving DecidableEq

/-- The pulses of cycle `t`. An abort wins over a stop, and an event that is stopped may be
followed at once by the next. -/
def Timeline.step (tl : Timeline) (t : ℕ) (p : HistCtrl) : Timeline :=
  match tl.opened <|> (if p.start then some t else none) with
  | none => tl
  | some first =>
    if p.abort then { tl with opened := none }
    else if p.stop then
      { opened := if tl.opened.isSome && p.start then some t else none
        completed := ⟨first, t⟩ :: tl.completed }
    else { tl with opened := some first }

/-- The events before cycle `t`. -/
def timeline (p : ℕ → HistCtrl) : ℕ → Timeline
  | 0 => ⟨none, []⟩
  | t + 1 => (timeline p t).step t (p t)

/-- The cycles of each completed event. -/
def Timeline.cycles (tl : Timeline) : List ℕ := tl.completed.map Event.cycles

/-- An event that began in cycle `first` is still under way in cycle `t`. -/
structure Runs (p : ℕ → HistCtrl) (first t : ℕ) : Prop where
  started : (p first).start = true
  le : first ≤ t
  goesOn : ∀ u, first < u → u < t → (p u).stop = false ∧ (p u).abort = false

structure Completes (p : ℕ → HistCtrl) (e : Event) : Prop where
  runs : Runs p e.first e.last
  stopped : (p e.last).stop = true
  notAborted : (p e.last).abort = false

variable {p : ℕ → HistCtrl} {t first : ℕ} {tl : Timeline}

theorem Runs.refl (h : (p t).start = true) : Runs p t t :=
  ⟨h, Nat.le_refl t, fun _ hlt hgt => absurd hlt (Nat.not_lt_of_gt hgt)⟩

theorem Runs.succ (h : Runs p first t) (hon : first < t → (p t).stop = false ∧ (p t).abort = false) :
    Runs p first (t + 1) := by
  refine ⟨h.started, Nat.le_succ_of_le h.le, fun u hfirst hu => ?_⟩
  obtain rfl | hlt := Nat.eq_or_lt_of_le (Nat.le_of_lt_succ hu)
  · exact hon hfirst
  · exact h.goesOn u hfirst hlt

/-- The event that a cycle belongs to, if any. -/
def Timeline.current (tl : Timeline) (t : ℕ) (p : HistCtrl) : Option ℕ :=
  tl.opened <|> (if p.start then some t else none)

/-- What one cycle does to the events. -/
inductive Timeline.Step (tl : Timeline) (t : ℕ) (p : HistCtrl) : Timeline → Prop
  | idle (h : tl.current t p = none) : Step tl t p tl
  | abort {f : ℕ} (h : tl.current t p = some f) (ha : p.abort = true) :
      Step tl t p { tl with opened := none }
  | stop {f : ℕ} (h : tl.current t p = some f) (ha : p.abort = false) (hs : p.stop = true) :
      Step tl t p {
        opened := if tl.opened.isSome && p.start then some t else none
        completed := ⟨f, t⟩ :: tl.completed }
  | run {f : ℕ} (h : tl.current t p = some f) (ha : p.abort = false) (hs : p.stop = false) :
      Step tl t p { tl with opened := some f }

theorem Timeline.step_cases (tl : Timeline) (t : ℕ) (p : HistCtrl) :
    tl.Step t p (tl.step t p) := by
  unfold step
  split
  · rename_i h
    exact .idle h
  · rename_i first h
    cases ha : p.abort with
    | true => exact .abort h ha
    | false =>
      cases hs : p.stop with
      | true => exact .stop h ha hs
      | false => exact .run h ha hs

theorem Timeline.current_cases {q : HistCtrl} (h : tl.current t q = some first) :
    tl.opened = some first ∨ tl.opened = none ∧ first = t ∧ q.start = true := by
  unfold current at h
  cases ho : tl.opened with
  | some f => simpa [ho] using h
  | none =>
    cases hs : q.start <;> simp_all

theorem Runs.current (hopened : ∀ f ∈ tl.opened, Runs p f t)
    (h : tl.current t (p t) = some first) : Runs p first t := by
  obtain ho | ⟨_, rfl, hs⟩ := Timeline.current_cases h
  · exact hopened first ho
  · exact .refl hs

/-- The events are those of the pulses. -/
theorem timeline_completes (p : ℕ → HistCtrl) (t : ℕ) :
    (∀ f ∈ (timeline p t).opened, Runs p f t) ∧
      ∀ e ∈ (timeline p t).completed, Completes p e := by
  induction t with
  | zero => exact ⟨by rintro f ⟨⟩, by rintro e ⟨⟩⟩
  | succ t ih =>
    obtain ⟨hopened, hcompleted⟩ := ih
    have hstep := (timeline p t).step_cases t (p t)
    rw [timeline]
    generalize (timeline p t).step t (p t) = tl at hstep ⊢
    cases hstep with
    | idle h =>
      refine ⟨fun f hf => ?_, hcompleted⟩
      unfold Timeline.current at h
      simp [Option.mem_def.mp hf] at h
    | abort h ha => exact ⟨by rintro f ⟨⟩, hcompleted⟩
    | stop h ha hs =>
      have hruns := Runs.current hopened h
      refine ⟨fun f hf => ?_, fun e he => ?_⟩
      · obtain ⟨hboth, rfl⟩ : ((timeline p t).opened.isSome && (p t).start) = true ∧ t = f := by
          simpa using hf
        exact (Runs.refl (Bool.and_elim_right hboth)).succ fun hlt => absurd hlt (Nat.lt_irrefl t)
      · obtain rfl | he := List.mem_cons.mp he
        · exact ⟨hruns, hs, ha⟩
        · exact hcompleted e he
    | run h ha hs =>
      refine ⟨?_, hcompleted⟩
      rintro f ⟨⟩
      exact (Runs.current hopened h).succ fun _ => ⟨hs, ha⟩

/-! ## The totals -/

/-- The sum of the cycles from the start pulse up to and including the stop pulse. -/
def clks (cs : List ℕ) : ℕ := (cs.map (· + 1)).sum

/-- What the registers and the memory hold after events of `cs` cycles, from the bins `mem`. The
sums are modulo 2^32; the least and the greatest are right as long as the cycles fit. -/
structure Tallied (mem : BitVec ld → TWord) (s : State ld) (cs : List ℕ) : Prop where
  totCnt : s.r.totCnt = BitVec.ofNat 32 cs.length
  totClks : s.r.totClks = BitVec.ofNat 32 (clks cs)
  min : clks cs < 2 ^ 32 → IsLeast (insert (2 ^ 32 - 1) {c | c ∈ cs}) s.r.min.toNat
  max : clks cs < 2 ^ 32 → IsGreatest (insert 0 {c | c ∈ cs}) s.r.max.toNat
  bin : ∀ k, s.mem k =
    mem k + BitVec.ofNat 32 (cs.countP fun c => decide (memAdr ld (BitVec.ofNat 32 c) = k))

/-- The registers after the stop pulse. -/
def Registers.completed (r : Registers) (start : Bool) : Registers where
  state := r.state && start
  cnt := if r.state && start then 1 else 0
  min := if r.cnt < r.min then r.cnt else r.min
  max := if r.max < r.cnt then r.cnt else r.max
  totCnt := r.totCnt + 1
  totClks := r.totClks + r.cnt + 1

variable {s : State ld} {hi : HistIn} {mem : BitVec ld → TWord} {cs : List ℕ} {c : ℕ}

theorem next_idle (he : hi.enable = true) (hb : (s.r.state || hi.ctrl.start) = false) :
    next false s hi = s := by
  obtain ⟨hs, hp⟩ := Bool.or_eq_false_iff.mp hb
  simp [next, comb, he, hs, hp]

theorem next_abort (he : hi.enable = true) (hb : (s.r.state || hi.ctrl.start) = true)
    (ha : hi.ctrl.abort = true) :
    next false s hi = { s with r := { s.r with state := false, cnt := 0 } } := by
  cases hs : s.r.state <;> cases hp : hi.ctrl.start <;> simp_all [next, comb]

theorem next_run (he : hi.enable = true) (hb : (s.r.state || hi.ctrl.start) = true)
    (ha : hi.ctrl.abort = false) (hst : hi.ctrl.stop = false) :
    next false s hi = { s with r := { s.r with state := true, cnt := s.r.cnt + 1 } } := by
  cases hs : s.r.state <;> cases hp : hi.ctrl.start <;> simp_all [next, comb]

theorem next_stop (he : hi.enable = true) (hb : (s.r.state || hi.ctrl.start) = true)
    (ha : hi.ctrl.abort = false) (hst : hi.ctrl.stop = true) :
    next false s hi = {
      r := s.r.completed hi.ctrl.start
      mem := Function.update s.mem (memAdr ld s.r.cnt) (s.mem (memAdr ld s.r.cnt) + 1) } := by
  cases hs : s.r.state <;> cases hp : hi.ctrl.start <;>
    simp_all [next, comb, Registers.completed]

theorem clks_cons : clks (c :: cs) = c + 1 + clks cs := by
  simp [clks]

theorem lt_clks (h : c ∈ cs) : c < clks cs := by
  induction h with
  | head cs =>
    rw [clks_cons]
    omega
  | tail a _ ih =>
    rw [clks_cons]
    omega

theorem length_le_clks (cs : List ℕ) : cs.length ≤ clks cs := by
  induction cs with
  | nil => exact Nat.zero_le _
  | cons c cs ih =>
    rw [clks_cons, List.length_cons]
    omega

theorem setOf_mem_cons (a : ℕ) :
    insert a {b | b ∈ c :: cs} = insert c (insert a {b | b ∈ cs}) := by
  have hcons : {b | b ∈ c :: cs} = insert c {b | b ∈ cs} := by
    ext b
    simp
  rw [hcons, Set.insert_comm]

theorem Registers.toNat_min_completed (r : Registers) (start : Bool) :
    (r.completed start).min.toNat = Min.min r.cnt.toNat r.min.toNat := by
  simp only [Registers.completed, BitVec.lt_def]
  split <;> omega

theorem Registers.toNat_max_completed (r : Registers) (start : Bool) :
    (r.completed start).max.toNat = Max.max r.cnt.toNat r.max.toNat := by
  simp only [Registers.completed, BitVec.lt_def]
  split <;> omega

/-- What one more event adds to the totals. -/
theorem Tallied.cons (h : Tallied mem s cs) (hc : s.r.cnt = BitVec.ofNat 32 c) (start : Bool) :
    Tallied mem {
      r := s.r.completed start
      mem := Function.update s.mem (memAdr ld s.r.cnt) (s.mem (memAdr ld s.r.cnt) + 1) }
      (c :: cs) := by
  have hcnt (hfit : clks (c :: cs) < 2 ^ 32) : s.r.cnt.toNat = c ∧ clks cs < 2 ^ 32 := by
    rw [clks_cons] at hfit
    rw [hc, BitVec.toNat_ofNat]
    omega
  refine ⟨?_, ?_, fun hfit => ?_, fun hfit => ?_, fun k => ?_⟩
  · simp [Registers.completed, h.totCnt, BitVec.ofNat_add]
  · simp only [Registers.completed, h.totClks, hc, clks_cons, BitVec.ofNat_add]
    ac_rfl
  · obtain ⟨hcnt, hle⟩ := hcnt hfit
    rw [setOf_mem_cons, s.r.toNat_min_completed, hcnt]
    exact (h.min hle).insert c
  · obtain ⟨hcnt, hle⟩ := hcnt hfit
    rw [setOf_mem_cons, s.r.toNat_max_completed, hcnt]
    exact (h.max hle).insert c
  · have hbin := h.bin k
    rw [hc]
    by_cases hk : memAdr ld (BitVec.ofNat 32 c) = k
    · subst hk
      simp [hbin, BitVec.ofNat_add, BitVec.add_assoc]
    · simp [Function.update_of_ne (Ne.symm hk), hk, hbin]

/-- The cycles of the event under way. -/
def Timeline.running (tl : Timeline) (t : ℕ) : ℕ := tl.opened.elim 0 (t - ·)

/-- The module in cycle `t`. -/
structure Tracks (mem : BitVec ld → TWord) (s : State ld) (tl : Timeline) (t : ℕ) : Prop where
  state : s.r.state = tl.opened.isSome
  cnt : s.r.cnt = BitVec.ofNat 32 (tl.running t)
  le : ∀ f ∈ tl.opened, f ≤ t
  tallied : Tallied mem s tl.cycles

theorem Tracks.begun (h : Tracks mem s tl t) :
    (s.r.state || hi.ctrl.start) = (tl.current t hi.ctrl).isSome := by
  rw [h.state]
  unfold Timeline.current
  cases tl.opened <;> cases hi.ctrl.start <;> rfl

/-- The counter holds the cycles since the start pulse, also in the cycle of that pulse. -/
theorem Tracks.current (h : Tracks mem s tl t) (hc : tl.current t hi.ctrl = some first) :
    s.r.cnt = BitVec.ofNat 32 (t - first) ∧ first ≤ t := by
  rw [h.cnt]
  unfold Timeline.running
  obtain ho | ⟨ho, rfl, _⟩ := Timeline.current_cases hc
  · exact ⟨by rw [ho]; rfl, h.le first ho⟩
  · simp [ho]

theorem Tracks.step (h : Tracks mem s tl t) (he : hi.enable = true) :
    Tracks mem (next false s hi) (tl.step t hi.ctrl) (t + 1) := by
  have hbegun : (s.r.state || hi.ctrl.start) = (tl.current t hi.ctrl).isSome := h.begun
  have hstep := tl.step_cases t hi.ctrl
  generalize tl.step t hi.ctrl = tl' at hstep ⊢
  cases hstep with
  | idle hc =>
    rw [hc] at hbegun
    rw [next_idle he hbegun]
    have ho : tl.opened = none := by
      simpa [h.state] using (Bool.or_eq_false_iff.mp hbegun).1
    exact ⟨h.state, by rw [h.cnt]; simp [Timeline.running, ho], by simp [ho], h.tallied⟩
  | abort hc ha =>
    rw [hc] at hbegun
    rw [next_abort he hbegun ha]
    exact ⟨rfl, rfl, by simp, { h.tallied with }⟩
  | @stop f hc ha hs =>
    rw [hc] at hbegun
    rw [next_stop he hbegun ha hs]
    obtain ⟨hcnt, hle⟩ := h.current hc
    have htallied := h.tallied.cons hcnt hi.ctrl.start
    rw [← h.state]
    cases hb : s.r.state && hi.ctrl.start with
    | true =>
      refine ⟨by simp [Registers.completed, hb], ?_, by simp, htallied⟩
      simp [Registers.completed, Timeline.running, hb]
    | false =>
      refine ⟨by simp [Registers.completed, hb], ?_, by simp, htallied⟩
      simp [Registers.completed, Timeline.running, hb]
  | @run f hc ha hs =>
    rw [hc] at hbegun
    rw [next_run he hbegun ha hs]
    obtain ⟨hcnt, hle⟩ := h.current hc
    refine ⟨rfl, ?_, ?_, { h.tallied with }⟩
    · rw [hcnt]
      simp [Timeline.running, Nat.succ_sub hle, BitVec.ofNat_add]
    · rintro _ ⟨⟩
      exact Nat.le_succ_of_le hle

/-- The module after a reset, whatever it did before. -/
theorem Tracks.reset (s : State ld) (hi : HistIn) :
    Tracks (next true s hi).mem (next true s hi) ⟨none, []⟩ 0 where
  state := rfl
  cnt := rfl
  le := by simp
  tallied := {
    totCnt := rfl
    totClks := rfl
    min _ := by simp [Timeline.cycles, next, comb]
    max _ := by simp [Timeline.cycles, next, comb]
    bin k := by simp [Timeline.cycles] }

theorem run_tracks {i : ℕ → HistIn} (h : Tracks mem s ⟨none, []⟩ 0)
    (he : ∀ t, (i t).enable = true) (t : ℕ) :
    Tracks mem (run (next false) s i t) (timeline (fun u => (i u).ctrl) t) t := by
  induction t with
  | zero => exact h
  | succ t ih =>
    rw [run_succ]
    exact ih.step (he t)

/-! ## The bins -/

/-- The laws of the histogram for completed events of `cs` cycles, from the bins `mem`. -/
structure Laws (mem : BitVec ld → TWord) (s : State ld) (cs : List ℕ) : Prop where
  totCnt : s.r.totCnt.toNat = cs.length
  totClks : s.r.totClks.toNat = clks cs
  min : cs ≠ [] → IsLeast {c | c ∈ cs} s.r.min.toNat
  max : cs ≠ [] → IsGreatest {c | c ∈ cs} s.r.max.toNat
  bin : ∀ k : BitVec ld, k.toNat < 2 ^ ld - 1 →
    s.mem k = mem k + BitVec.ofNat 32 (cs.count k.toNat)
  last : s.mem (BitVec.allOnes ld) =
    mem (BitVec.allOnes ld) + BitVec.ofNat 32 (cs.countP fun c => decide (2 ^ ld - 1 ≤ c))

/-- Events of `c` cycles are on the right side of the bound that `memAdr` compares with. -/
def Binned (ld c : ℕ) : Prop := (c < ld ^ 2 → c < 2 ^ ld) ∧ (ld ^ 2 ≤ c → 2 ^ ld - 1 ≤ c)

instance (ld c : ℕ) : Decidable (Binned ld c) := inferInstanceAs (Decidable (_ ∧ _))

theorem toNat_memAdr (hc : c < 2 ^ 32) :
    (memAdr ld (BitVec.ofNat 32 c)).toNat = if c < ld ^ 2 then c % 2 ^ ld else 2 ^ ld - 1 := by
  unfold memAdr
  rw [BitVec.toNat_ofNat, Nat.mod_eq_of_lt hc]
  split
  · rw [BitVec.toNat_setWidth, BitVec.toNat_ofNat, Nat.mod_eq_of_lt hc]
  · exact BitVec.toNat_allOnes

theorem square_le_pow (n : ℕ) : (n + 4) ^ 2 ≤ 2 ^ (n + 4) := by
  induction n with
  | zero => exact Nat.le_refl 16
  | succ n ih =>
    calc (n + 1 + 4) ^ 2 ≤ 2 * (n + 4) ^ 2 := by grind
      _ ≤ 2 * 2 ^ (n + 4) := Nat.mul_le_mul_left 2 ih
      _ = 2 ^ (n + 1 + 4) := Nat.pow_succ'.symm

/-- The bound is too small for the last bin, or too great in a memory of eight bins. -/
theorem square_cases : ∀ ld : ℕ, ld ^ 2 ≤ 2 ^ ld ∨ ld = 3
  | 0 => .inl (Nat.zero_le _)
  | 1 => .inl (by decide)
  | 2 => .inl (by decide)
  | 3 => .inr rfl
  | n + 4 => .inl (square_le_pow n)

theorem memAdr_eq_iff (hc : c < 2 ^ 32) (k : BitVec ld) :
    memAdr ld (BitVec.ofNat 32 c) = k ↔
      (if c < ld ^ 2 then c % 2 ^ ld else 2 ^ ld - 1) = k.toNat := by
  rw [← BitVec.toNat_inj, toNat_memAdr hc]

theorem Binned.memAdr (h : Binned ld c) (hc : c < 2 ^ 32) (k : BitVec ld) :
    memAdr ld (BitVec.ofNat 32 c) = k ↔ Min.min c (2 ^ ld - 1) = k.toNat := by
  rw [memAdr_eq_iff hc]
  obtain ⟨hlow, hhigh⟩ := h
  obtain hlt | hge := Nat.lt_or_ge c (ld ^ 2)
  · have hpow := hlow hlt
    rw [if_pos hlt, Nat.mod_eq_of_lt hpow, Nat.min_eq_left (by omega)]
  · rw [if_neg (Nat.not_lt_of_ge hge), Nat.min_eq_right (hhigh hge)]

/-- The events in the last bin tell whether all are binned right. -/
theorem binned_iff (hc : c < 2 ^ 32) :
    Binned ld c ↔ (memAdr ld (BitVec.ofNat 32 c) = BitVec.allOnes ld ↔ 2 ^ ld - 1 ≤ c) := by
  constructor
  · intro h
    rw [h.memAdr hc, BitVec.toNat_allOnes]
    omega
  · intro h
    rw [memAdr_eq_iff hc, BitVec.toNat_allOnes] at h
    refine ⟨fun hlt => ?_, fun hge => ?_⟩
    · obtain hsq | rfl := square_cases ld
      · exact Nat.lt_of_lt_of_le hlt hsq
      · rw [if_pos hlt] at h
        omega
    · rw [if_neg (Nat.not_lt_of_ge hge)] at h
      exact h.mp rfl

/-- With eight bins an event may be missing from the last bin; otherwise too many may be there. -/
theorem last_cases (ld : ℕ) :
    (∀ c < 2 ^ 32, 2 ^ ld - 1 ≤ c → memAdr ld (BitVec.ofNat 32 c) = BitVec.allOnes ld) ∨
      ∀ c < 2 ^ 32, memAdr ld (BitVec.ofNat 32 c) = BitVec.allOnes ld → 2 ^ ld - 1 ≤ c := by
  obtain hsq | rfl := square_cases ld
  · refine .inl fun c hc hle => (memAdr_eq_iff hc _).mpr ?_
    rw [BitVec.toNat_allOnes]
    split
    · rw [Nat.mod_eq_of_lt (by omega)]
      omega
    · rfl
  · refine .inr fun c hc h => ?_
    rw [memAdr_eq_iff hc, BitVec.toNat_allOnes] at h
    split at h <;> omega

/-- Two predicates, one stronger than the other, that count the same are the same. -/
theorem forall_of_countP_eq {p q : ℕ → Bool} (hpq : ∀ c ∈ cs, p c = true → q c = true)
    (hcount : cs.countP p = cs.countP q) : ∀ c ∈ cs, q c = true → p c = true := by
  induction cs with
  | nil => simp
  | cons a cs ih =>
    obtain ⟨ha, hcs⟩ := List.forall_mem_cons.mp hpq
    have hle : cs.countP p ≤ cs.countP q := List.countP_mono_left hcs
    rw [List.countP_cons, List.countP_cons] at hcount
    have hsame : (p a = true ↔ q a = true) ∧ cs.countP p = cs.countP q := by
      split at hcount <;> split at hcount <;> grind
    exact List.forall_mem_cons.mpr ⟨hsame.1.mpr, ih hcs hsame.2⟩

theorem Tallied.laws (h : Tallied mem s cs) (hfit : clks cs < 2 ^ 32)
    (hb : ∀ c ∈ cs, Binned ld c) : Laws mem s cs where
  totCnt := by
    rw [h.totCnt, BitVec.toNat_ofNat]
    exact Nat.mod_eq_of_lt (Nat.lt_of_le_of_lt (length_le_clks cs) hfit)
  totClks := by rw [h.totClks, BitVec.toNat_ofNat, Nat.mod_eq_of_lt hfit]
  min hne := by
    obtain ⟨c, hc⟩ := List.exists_mem_of_ne_nil cs hne
    obtain ⟨hmem, hle⟩ := h.min hfit
    refine ⟨(Set.mem_insert_iff.mp hmem).resolve_left fun heq => ?_, fun b hb => hle (.inr hb)⟩
    have hmin := hle (Set.mem_insert_of_mem _ hc)
    have hlt := lt_clks hc
    omega
  max hne := by
    obtain ⟨c, hc⟩ := List.exists_mem_of_ne_nil cs hne
    obtain ⟨hmem, hge⟩ := h.max hfit
    refine ⟨?_, fun b hb => hge (.inr hb)⟩
    obtain heq | hmem := Set.mem_insert_iff.mp hmem
    · have hzero : c = 0 := Nat.le_zero.mp (heq ▸ hge (Set.mem_insert_of_mem _ hc))
      rw [heq]
      exact hzero ▸ hc
    · exact hmem
  bin k hk := by
    rw [h.bin k, List.count_eq_countP]
    congr 2
    refine List.countP_congr fun c hc => ?_
    rw [decide_eq_true_iff, (hb c hc).memAdr (Nat.lt_trans (lt_clks hc) hfit), beq_iff_eq]
    omega
  last := by
    rw [h.bin]
    congr 2
    refine List.countP_congr fun c hc => ?_
    rw [decide_eq_true_iff, decide_eq_true_iff]
    exact (binned_iff (Nat.lt_trans (lt_clks hc) hfit)).mp (hb c hc)

/-- What a bin's address reads, below the words of the totals. -/
theorem Laws.data {aw : ℕ} {addr : TWord} (h : Laws mem s cs) (hld : ld ≠ 0)
    (haddr : addr.extractLsb' 2 (aw - 2) ≠ BitVec.allOnes (aw - 2))
    (hk : addr.toNat % 2 ^ ld < 2 ^ ld - 1) :
    data aw s addr =
      mem (addr.setWidth ld) + BitVec.ofNat 32 (cs.count (addr.toNat % 2 ^ ld)) := by
  have hbin := h.bin (addr.setWidth ld) (by rwa [BitVec.toNat_setWidth])
  rw [BitVec.toNat_setWidth] at hbin
  rw [Histogram.data, if_pos ⟨hld, haddr⟩, hbin]

theorem Tallied.binned (h : Tallied mem s cs) (hfit : clks cs < 2 ^ 32) (hl : Laws mem s cs) :
    ∀ c ∈ cs, Binned ld c := by
  have hcount (p : ℕ → Bool) : (BitVec.ofNat 32 (cs.countP p)).toNat = cs.countP p := by
    rw [BitVec.toNat_ofNat]
    exact Nat.mod_eq_of_lt (Nat.lt_of_le_of_lt
      (Nat.le_trans List.countP_le_length (length_le_clks cs)) hfit)
  have hlast := (h.bin _).symm.trans hl.last
  rw [BitVec.add_right_inj, ← BitVec.toNat_inj, hcount, hcount] at hlast
  intro c hc
  have hlt {b : ℕ} (hb : b ∈ cs) : b < 2 ^ 32 := Nat.lt_trans (lt_clks hb) hfit
  rw [binned_iff (hlt hc)]
  obtain hall | hall := last_cases ld
  · refine ⟨fun hmem => ?_, hall c (hlt hc)⟩
    exact of_decide_eq_true (forall_of_countP_eq
      (fun b hb hle => decide_eq_true (hall b (hlt hb) (of_decide_eq_true hle))) hlast.symm c hc
      (decide_eq_true hmem))
  · refine ⟨hall c (hlt hc), fun hle => ?_⟩
    exact of_decide_eq_true (forall_of_countP_eq
      (fun b hb hmem => decide_eq_true (hall b (hlt hb) (of_decide_eq_true hmem))) hlast c hc
      (decide_eq_true hle))

/-- In every run after a reset the laws of the histogram hold exactly as long as the cycles of all
completed events are on the right side of the bound. -/
theorem laws_iff_binned (s : State ld) (first : HistIn) (i : ℕ → HistIn)
    (he : ∀ t, (i t).enable = true) (t : ℕ)
    (hfit : clks (timeline (fun u => (i u).ctrl) t).cycles < 2 ^ 32) :
    Laws (next true s first).mem (run (next false) (next true s first) i t)
        (timeline (fun u => (i u).ctrl) t).cycles ↔
      ∀ c ∈ (timeline (fun u => (i u).ctrl) t).cycles, Binned ld c := by
  have h := (run_tracks (.reset s first) he t).tallied
  exact ⟨h.binned hfit, h.laws hfit⟩

/-- One event: a start pulse in cycle 0 and a stop pulse in cycle `n`. -/
def pulses (n t : ℕ) : HistIn where
  enable := true
  ctrl := { start := t == 0, stop := t == n, abort := false }
  addr := 0

def powerUp (ld : ℕ) : State ld where
  r := { state := false, cnt := 0, min := 0, max := 0, totCnt := 0, totClks := 0 }
  mem _ := 0

theorem laws_iff_binned_short :
    Laws (next true (powerUp 6) (pulses 3 0)).mem
      (run (next false) (next true (powerUp 6) (pulses 3 0)) (pulses 3) 9)
      (timeline (fun u => (pulses 3 u).ctrl) 9).cycles :=
  (laws_iff_binned (powerUp 6) (pulses 3 0) (pulses 3) (fun _ => rfl) 9 (by decide)).mpr
    (by decide)

/-- Of 64 bins those from 36 to 62 are never used: an event of 40 cycles is in the last one. -/
theorem long_event_misplaced :
    ¬ ∀ ld, 1 ≤ ld → ∀ (s : State ld) (first : HistIn) (i : ℕ → HistIn),
      (∀ t, (i t).enable = true) → ∀ t,
      clks (timeline (fun u => (i u).ctrl) t).cycles < 2 ^ 32 →
      Laws (next true s first).mem (run (next false) (next true s first) i t)
        (timeline (fun u => (i u).ctrl) t).cycles := by
  intro h
  have hlaws := h 6 (by decide) (powerUp 6) (pulses 40 0) (pulses 40) (fun _ => rfl) 41
    (by decide +kernel)
  have hbin := hlaws.bin 40#6 (by decide)
  revert hbin
  decide +kernel

end ParaNut.Exu.Histogram
