import ParaNut.Exu.LoadStore
import ParaNut.Lib.Sync
import ParaNut.Memu.WritePort

/-!
# Cache-control instructions

Execute stage, load/store unit and write port together. A cache-control
operation is to be kept up for the write port until it acknowledges; but the
logic that copies its address into the write buffer also acknowledges it, so
the execute stage withdraws it after one cycle.
-/

namespace ParaNut.Exu.CacheControl

/-- The generics of the three units. -/
structure Config where
  shiftImpl : ℕ
  lsu : Lsu.Config
  memu : Memu.Config

structure State where
  exu : Registers
  lsu : Lsu.Registers
  wp : Memu.WritePort.Registers

/-- What the rest of the system answers in one cycle; `wp.wpi` is not used. -/
structure Input where
  exu : In
  dcacheEnable : Bool
  rpo : ReadportOut
  wp : Memu.WritePort.In

section Step

variable (c : Config) (s : State) (i : Input)

def wpi : WriteportIn := Lsu.wpi c.lsu s.lsu (lsui s.exu) i.dcacheEnable

def wpComb : Memu.WritePort.Registers × Memu.WritePort.Out :=
  Memu.WritePort.comb c.memu s.wp { i.wp with wpi := wpi c s i }

def wpo : WriteportOut := ⟨(wpComb c s i).2.portAck, (wpComb c s i).2.portWcondOk⟩

def lsuo : Lsu.LsuOut := Lsu.lsuo c.lsu s.lsu (lsui s.exu) i.rpo (wpo c s i)

def step : State where
  exu := next c.shiftImpl s.exu i.exu (lsuo c s i)
  lsu := Lsu.next c.lsu s.lsu (lsui s.exu) (wpo c s i)
  wp := (wpComb c s i).1

end Step

structure IsReset (s : State) : Prop where
  exu : s.exu.IsReset
  lsu : s.lsu.IsReset
  wp : s.wp.state = .init ∧ s.wp.linkValid = false

section Run

variable (c : Config) (s : State) (i : ℕ → Input)

def states : ℕ → State := Lib.run (step c) s i

/-- A cache-control operation is executed in cycle `t`. -/
def Executes (t : ℕ) : Prop :=
  (states c s i t).exu.state = .cacheInvalidate2 ∧ Lsu.cacheOp (lsui (states c s i t).exu) = true

/-- The write port is presented exactly the operation and the address of the instruction. -/
def Presented (t : ℕ) : Prop :=
  let lsui := lsui (states c s i t).exu
  let wpi := wpi c (states c s i t) (i t)
  wpi.portWr = false ∧ wpi.portWriteback = lsui.cacheWriteback ∧
    wpi.portInvalidate = lsui.cacheInvalidate ∧ wpi.portAdr = lsui.adr

/-- The write port, idle in cycle `a`, has been presented the operation since, and acknowledges it
in cycle `t`. -/
def Served (a t : ℕ) : Prop :=
  (states c s i a).wp.state = .init ∧
    (∀ u, a ≤ u → u ≤ t → Executes c s i u ∧ Presented c s i u) ∧
    (states c s i t).wp.state = .specialWaitComplete ∧
    (wpo c (states c s i t) (i t)).portAck = true

/-- The load/store unit acknowledges a cache-control operation only when the write port does so,
after it has been presented the operation from start to end. -/
def Intact : Prop :=
  ∀ t, Executes c s i t → (lsuo c (states c s i t) (i t)).ack = true → ∃ a ≤ t, Served c s i a t

end Run

-- ---------------------------------------------------------------------------
-- The write buffer while cache control is executed
-- ---------------------------------------------------------------------------

section Buffer

open Lsu (LsuIn cacheOp)

variable {c : Lsu.Config} {r : Lsu.Registers} {lsui : LsuIn} {rpo : ReadportOut}
  {wpo : WriteportOut}

/-- Without a store, nothing but a cache operation on a flushed buffer has a place in it. -/
theorem wbufEntry_b (hwr : lsui.wr = false) :
    (Lsu.wbufEntry c r lsui).b = (cacheOp lsui && Lsu.isFlushed c r) := by
  cases hop : cacheOp lsui <;> cases hf : Lsu.isFlushed c r <;>
    simp [Lsu.wbufEntry, Lsu.storeEntry, hop, hf, hwr]

theorem wbufWrite_of_no_request (hwr : lsui.wr = false) (hop : cacheOp lsui = false) :
    Lsu.wbufWrite c r lsui wpo = false := by
  have hb : (Lsu.newEntry c r lsui wpo).b = false := by
    simp only [Lsu.newEntry, apply_ite Lsu.Entry.b, wbufEntry_b hwr, hop]
    simp
  simp [Lsu.wbufWrite, hb]

/-- A flush is acknowledged when the buffer is flushed. -/
theorem isFlushed_of_flush_ack (hrd : lsui.rd = false) (hwr : lsui.wr = false)
    (hop : cacheOp lsui = false) (h : Lsu.ack c r lsui rpo wpo = true) :
    Lsu.isFlushed c r = true := by
  by_contra hf
  simp [Lsu.ack, wbufWrite_of_no_request hwr hop, hrd, hf] at h

/-- A flushed buffer stays flushed in a cycle without store and cache operation. -/
theorem isFlushed_next (hwr : lsui.wr = false) (hop : cacheOp lsui = false)
    (h : Lsu.isFlushed c r = true) : Lsu.isFlushed c (Lsu.next c r lsui wpo) = true := by
  simp only [Lsu.isFlushed, List.all_eq_true, List.mem_range, beq_iff_eq] at h ⊢
  intro n hn
  simp only [Lsu.next, wbufWrite_of_no_request hwr hop, Lsu.drained, Bool.false_eq_true, if_false]
  split
  · simp only [Lsu.Registers.shift]
    split
    · exact h (n + 1) ‹_›
    · rfl
  · exact h n hn

/-- The copy of the address acknowledges a cache operation on a flushed buffer right away. -/
theorem ack_of_cacheOp (hrd : lsui.rd = false) (hwr : lsui.wr = false)
    (hop : cacheOp lsui = true) (hf : Lsu.isFlushed c r = true) :
    Lsu.ack c r lsui rpo wpo = true := by
  have hentry : Lsu.wbufEntry c r lsui = ⟨0, true, false⟩ := by simp [Lsu.wbufEntry, hop, hf]
  simp [Lsu.ack, Lsu.wbufWrite, Lsu.newEntry, Lsu.wbufRemove, Lsu.wbufDontChange, hentry, hrd, hwr]

end Buffer

-- ---------------------------------------------------------------------------
-- Runs
-- ---------------------------------------------------------------------------

variable {c : Config} {s : State} {i : ℕ → Input}

/-- The buffer is flushed from the acknowledge of the flush until the operation is executed. -/
structure Invariant (c : Config) (s : State) : Prop where
  exu : Exu.Invariant s.exu
  flushed : s.exu.state = .cacheInvalidate1 ∨ s.exu.state = .cacheInvalidate2 ∧
    Lsu.cacheOp (lsui s.exu) = true → Lsu.isFlushed c.lsu s.lsu = true

theorem cacheOp_eq_false {r : Registers} (h : r.state ≠ .cacheInvalidate2) :
    Lsu.cacheOp (lsui r) = false := by simp [Lsu.cacheOp, lsui, h]

/-- Where the execute stage comes from when it is in one of the two states. -/
theorem nextState_cacheInvalidate {shiftImpl : ℕ} {r : Registers} {e : In} {o : Lsu.LsuOut}
    (h : nextState shiftImpl r e o = .cacheInvalidate1 ∨
      nextState shiftImpl r e o = .cacheInvalidate2) :
    (r.state = .lsMemStall ∧ o.ack = true ∧ r.d.memLsuFlush = true) ∨
      r.state = .cacheInvalidate1 ∨ (r.state = .cacheInvalidate2 ∧ o.ack = false) := by
  cases hr : r.state
  case init =>
    simp only [nextState, hr] at h
    cases hd : e.duStall <;> cases ho : r.d.exOp <;> simp [hd, ho] at h
    split at h <;> simp at h
  case lsMemStall =>
    simp only [nextState, hr] at h
    cases ha : o.ack <;> cases hf : r.d.memLsuFlush <;> simp [ha, hf] at h ⊢
    all_goals split at h <;> simp at h
  case cacheInvalidate1 => exact .inr (.inl rfl)
  case cacheInvalidate2 =>
    simp only [nextState, hr] at h
    cases ha : o.ack <;> simp [ha] at h ⊢
  all_goals
    simp only [nextState, hr] at h
    first | (simp at h) | (split at h <;> simp at h)

theorem step_invariant (h : Invariant c s) (i : Input) : Invariant c (step c s i) where
  exu := next_invariant h.exu i.exu _
  flushed hstate := by
    rcases nextState_cacheInvalidate (hstate.imp_right And.left) with ⟨hr, hack, hfl⟩ | hr | ⟨hr, hack⟩
    · obtain ⟨hload, hstore⟩ := h.exu.wellFormed (h.exu.ls (by simp [hr])) hfl
      have hrd : (lsui s.exu).rd = false := by simp [lsui, hload]
      have hwr : (lsui s.exu).wr = false := by simp [lsui, hstore]
      have hop := cacheOp_eq_false (r := s.exu) (by simp [hr])
      exact isFlushed_next hwr hop (isFlushed_of_flush_ack hrd hwr hop hack)
    · have hwr : (lsui s.exu).wr = false := by simp [lsui, hr]
      exact isFlushed_next hwr (cacheOp_eq_false (by simp [hr])) (h.flushed (.inl hr))
    · -- without an operation the execute stage waits here for ever
      have hrd : (lsui s.exu).rd = false := by simp [lsui, hr]
      have hwr : (lsui s.exu).wr = false := by simp [lsui, hr]
      have hd : (step c s i).exu.d = s.exu.d := by simp [step, next, exNexti, hr]
      have hst : (step c s i).exu.state = .cacheInvalidate2 := by
        simp [step, next, nextState, hr, hack]
      have hop : Lsu.cacheOp (lsui s.exu) = true := by
        have := (hstate.resolve_left (by simp [hst])).2
        simpa [Lsu.cacheOp, lsui, hst, hd, hr] using this
      have hlsu : Lsu.ack c.lsu s.lsu (lsui s.exu) i.rpo (wpo c s i) = true :=
        ack_of_cacheOp hrd hwr hop (h.flushed (.inr ⟨hr, hop⟩))
      simp [lsuo, Lsu.lsuo, hlsu] at hack

theorem IsReset.invariant (h : IsReset s) : Invariant c s where
  exu := h.exu.invariant
  flushed hs := by simp [h.exu.1] at hs

theorem invariant_states (h : IsReset s) (t : ℕ) : Invariant c (states c s i t) :=
  Lib.run_invariant h.invariant (fun _ i (_ : True) hs => step_invariant hs i) (fun _ => trivial) t

/-- A cache-control operation is acknowledged in the first cycle it is executed in. -/
theorem ack_of_executes (h : IsReset s) {t : ℕ} (ht : Executes c s i t) :
    (lsuo c (states c s i t) (i t)).ack = true := by
  obtain ⟨hr, hop⟩ := ht
  exact ack_of_cacheOp (by simp [lsui, hr]) (by simp [lsui, hr]) hop
    ((invariant_states h t).flushed (.inr ⟨hr, hop⟩))

theorem not_executes_succ (h : IsReset s) {t : ℕ} (ht : Executes c s i t) :
    ¬ Executes c s i (t + 1) := by
  rintro ⟨hs, -⟩
  have hnext : (states c s i (t + 1)).exu.state = nextState c.shiftImpl (states c s i t).exu
      (i t).exu (lsuo c (states c s i t) (i t)) := rfl
  rw [hnext, nextState, ht.1] at hs
  simp [ack_of_executes h ht] at hs

/-- No cache-control instruction reaches the cache intact: each is acknowledged at once, before
the write port can have carried it out. -/
theorem cacheControl_not_intact (h : IsReset s) (t : ℕ) (ht : Executes c s i t) :
    (lsuo c (states c s i t) (i t)).ack = true ∧ ¬ ∃ a ≤ t, Served c s i a t := by
  refine ⟨ack_of_executes h ht, ?_⟩
  rintro ⟨a, hat, hidle, hkeeps, hwait, -⟩
  rcases hat.eq_or_lt with rfl | hlt
  · simp [hidle] at hwait
  · exact not_executes_succ h (hkeeps a le_rfl hat).1 (hkeeps (a + 1) (by omega) hlt).1

/-- One core with two banks, two sets and one way, and a write buffer of two entries. -/
def smallConfig : Config where
  shiftImpl := 2
  lsu := ⟨2, 2 ^ 20, 0⟩
  memu := ⟨0, 1, 1, 0, 1, false, some 0, 0, Memu.one_bankLd, Memu.one_setLd, Memu.one_way,
    Memu.one_ramPort⟩

/-- Everything reset, registers without a reset at 0. -/
def quietReset : State where
  exu := ⟨.init, 0, ⟨0, 0, 0, .nop, 0, false, false, false, false, false, false, false⟩⟩
  lsu := ⟨fun _ => 0, fun _ => 0, fun _ => 0, false⟩
  wp := ⟨.init, ⟨false, false, 0, 0⟩, 0, 0, false⟩

theorem quietReset_isReset : IsReset quietReset :=
  ⟨⟨rfl, rfl, rfl⟩, ⟨fun _ => rfl, rfl⟩, rfl, rfl⟩

/-- The BusIf and the line lock are granted whenever they are asked for. -/
def idleMemu : Memu.WritePort.In where
  wpi := ⟨false, false, 0, false, false, false, 0, 0⟩
  tagIn := ⟨false, false, 0, 0⟩
  bankDataIn := 0
  busifBusy := false
  gntLinelock := true
  gntTagr := true
  gntTagw := true
  gntBusif := true
  gntBank _ := true
  snoopStb := false
  snoopAdr := 0

/-- A cache flush at address 0x100 as the first instruction. -/
def flushProgram : ℕ → Input
  | 0 => ⟨⟨0b111110#6 ++ 0#13 ++ 3#2 ++ 0#11, false, false, 0x100, 0, false, true, true, 0⟩, true,
      ⟨false, 0⟩, idleMemu⟩
  | _ => ⟨⟨0, true, false, 0, 0, false, true, true, 0⟩, true, ⟨false, 0⟩, idleMemu⟩

theorem flushProgram_executes : Executes smallConfig quietReset flushProgram 4 := by
  unfold Executes
  decide

theorem cacheControl_not_intact_flush :
    (lsuo smallConfig (states smallConfig quietReset flushProgram 4) (flushProgram 4)).ack = true ∧
      ¬ ∃ a ≤ 4, Served smallConfig quietReset flushProgram a 4 :=
  cacheControl_not_intact quietReset_isReset 4 flushProgram_executes

/-- The flush is acknowledged while the write port still waits for it. -/
theorem flush_acknowledged_at_once :
    IsReset quietReset ∧ ¬ Intact smallConfig quietReset flushProgram := by
  refine ⟨quietReset_isReset, fun h => ?_⟩
  obtain ⟨a, -, -, -, hwait, -⟩ := h 4 flushProgram_executes (by decide)
  exact absurd hwait (by decide)

end ParaNut.Exu.CacheControl
