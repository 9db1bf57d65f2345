import ParaNut.Lib.Sync
import Mathlib.Data.BitVec
import Mathlib.Logic.Function.Basic

/-!
# The synchronisation word (`paranut.c`)

`pn_sync_set` and `pn_sync_unset` change one bit of the shared word by a load
and a store. Any number of CPUs make their calls one after the other, each
access of the word is atomic, and a schedule says whose access is next.
-/

namespace ParaNut.Sw.Sync

inductive Call
  | pnSyncSet (cpuId : ℕ)
  | pnSyncUnset (cpuId : ℕ)
  deriving DecidableEq

namespace Call

def cpuId : Call → ℕ
  | pnSyncSet i => i
  | pnSyncUnset i => i

/-- What the call makes of its bit. -/
def sets : Call → Bool
  | pnSyncSet _ => true
  | pnSyncUnset _ => false

/-- `sync |= 0x1 << cpu_id`, `sync &= ~(0x1 << cpu_id)`: the word stored for the word loaded. -/
def update : Call → BitVec 32 → BitVec 32
  | pnSyncSet i, sync => sync ||| 1#32 <<< i
  | pnSyncUnset i, sync => sync &&& ~~~(1#32 <<< i)

theorem getLsbD_update (c : Call) (sync : BitVec 32) {i : ℕ} (hi : i < 32) :
    (c.update sync).getLsbD i = if i = c.cpuId then c.sets else sync.getLsbD i := by
  cases c with
  | pnSyncSet k =>
    rcases Nat.lt_trichotomy i k with h | rfl | h
    · simp [update, cpuId, h, Nat.ne_of_lt h]
    · simp [update, cpuId, sets, hi]
    · have hne : ¬ i - k = 0 := Nat.sub_ne_zero_of_lt h
      simp [update, cpuId, hne, Nat.ne_of_gt h]
  | pnSyncUnset k =>
    rcases Nat.lt_trichotomy i k with h | rfl | h
    · simp [update, cpuId, hi, h, Nat.ne_of_lt h]
    · simp [update, cpuId, sets, hi]
    · have hne : ¬ i - k = 0 := Nat.sub_ne_zero_of_lt h
      simp [update, cpuId, hi, hne, Nat.ne_of_gt h]

end Call

/-- `wait_for_cpu` loops until the bit is set in the word that it loads. -/
def waitForCpu (cpuId : ℕ) (sync : BitVec 32) : Bool := sync &&& 1#32 <<< cpuId != 0

theorem waitForCpu_eq (sync : BitVec 32) {i : ℕ} (hi : i < 32) :
    waitForCpu i sync = sync.getLsbD i := by
  have hbit : sync &&& 1#32 <<< i = 0 ↔ sync.getLsbD i = false := by
    constructor
    · intro h
      have hi' := congrArg (fun w => w.getLsbD i) h
      simpa [hi] using hi'
    · intro h
      apply BitVec.eq_of_getLsbD_eq
      intro k hk
      rcases Nat.lt_trichotomy k i with hki | rfl | hki
      · simp [hki]
      · simp [h]
      · have hne : ¬ k - i = 0 := Nat.sub_ne_zero_of_lt hki
        simp [hne]
  cases h : sync.getLsbD i with
  | false => simpa [waitForCpu] using hbit.mpr h
  | true => simpa [waitForCpu, h] using hbit.not

variable {P : Type*}

/-- One CPU: how many of its calls have finished, and the word that the current one has loaded. -/
structure Cpu where
  finished : ℕ
  loaded : Option (BitVec 32)

structure State (P : Type*) where
  sync : BitVec 32
  cpu : P → Cpu

def start (sync₀ : BitVec 32) : State P := ⟨sync₀, fun _ => ⟨0, none⟩⟩

section Specification

variable (calls : P → List Call)

/-- All calls have returned. -/
def Finished (s : State P) : Prop := ∀ p, (s.cpu p).finished = (calls p).length

/-- Calls of different CPUs are on different ids, and each id is a bit of the word. -/
structure DistinctIds : Prop where
  distinct : ∀ p q, p ≠ q → ∀ c ∈ calls p, ∀ d ∈ calls q, c.cpuId ≠ d.cpuId
  inWord : ∀ p, ∀ c ∈ calls p, c.cpuId < 32

/-- The bit that the calls `cs` leave behind: that of the last one on this id. -/
def outcome (bit : Bool) (cs : List Call) (i : ℕ) : Bool :=
  cs.foldl (fun b c => if i = c.cpuId then c.sets else b) bit

/-- Bit `i` is as the finished calls on it have left it. -/
structure ExactBit (sync₀ : BitVec 32) (s : State P) (i : ℕ) : Prop where
  called : ∀ p, ∀ c ∈ calls p, c.cpuId = i →
    s.sync.getLsbD i = outcome (sync₀.getLsbD i) ((calls p).take (s.cpu p).finished) i
  untouched : (∀ p, ∀ c ∈ calls p, c.cpuId ≠ i) → s.sync.getLsbD i = sync₀.getLsbD i

/-- Every bit is as the finished calls have left it. -/
def Exact (sync₀ : BitVec 32) (s : State P) : Prop := ∀ i < 32, ExactBit calls sync₀ s i

/-- Every bit that was called for is as the last call on it wants it, all others as they were. -/
structure NoneLost (sync₀ : BitVec 32) (s : State P) : Prop where
  last : ∀ p, ∀ i < 32, (∃ c ∈ calls p, c.cpuId = i) →
    s.sync.getLsbD i = outcome (sync₀.getLsbD i) (calls p) i
  others : ∀ i < 32, (∀ p, ∀ c ∈ calls p, c.cpuId ≠ i) →
    s.sync.getLsbD i = sync₀.getLsbD i

end Specification

variable {calls : P → List Call} {sync₀ : BitVec 32} {s : State P} {p : P}

theorem Exact.noneLost (h : Exact calls sync₀ s) (hf : Finished calls s) :
    NoneLost calls sync₀ s := by
  constructor
  · rintro p i hi ⟨c, hc, hid⟩
    have hbit := (h i hi).called p c hc hid
    rwa [hf p, List.take_length] at hbit
  · exact fun i hi hno => (h i hi).untouched hno

theorem exact_start : Exact calls sync₀ (start sync₀ : State P) := by
  intro i _
  exact ⟨fun _ _ _ _ => rfl, fun _ => rfl⟩

/-- If CPU `p` is about to store, the other bits of the word are still as it has loaded them. -/
def StillCurrent (calls : P → List Call) (s : State P) (p : P) : Prop :=
  ∀ c ∈ (calls p)[(s.cpu p).finished]?, ∀ word ∈ (s.cpu p).loaded,
    ∀ i < 32, i ≠ c.cpuId → word.getLsbD i = s.sync.getLsbD i

/-- Nothing is stale if the word is as it was loaded. -/
theorem stillCurrent_of_loaded
    (h : (s.cpu p).loaded = none ∨ (s.cpu p).loaded = some s.sync) : StillCurrent calls s p := by
  intro c _ word hw i _ _
  rcases h with h | h
  · rw [h] at hw; cases hw
  · rw [h] at hw; cases hw; rfl

variable [DecidableEq P]

/-- The next access of CPU `p`: the load of its current call, or the store that finishes it. -/
def step (calls : P → List Call) (s : State P) (p : P) : State P :=
  match (calls p)[(s.cpu p).finished]? with
  | none => s
  | some c =>
    match (s.cpu p).loaded with
    | none =>
      { s with cpu := Function.update s.cpu p ⟨(s.cpu p).finished, some s.sync⟩ }
    | some word =>
      { sync := c.update word
        cpu := Function.update s.cpu p ⟨(s.cpu p).finished + 1, none⟩ }

/-- What one access of CPU `p` can do. -/
theorem step_cases (calls : P → List Call) (s : State P) (p : P) :
    ((calls p)[(s.cpu p).finished]? = none ∧ step calls s p = s) ∨
    (∃ c, (calls p)[(s.cpu p).finished]? = some c ∧ (s.cpu p).loaded = none ∧
      step calls s p =
        { s with cpu := Function.update s.cpu p ⟨(s.cpu p).finished, some s.sync⟩ }) ∨
    (∃ c word, (calls p)[(s.cpu p).finished]? = some c ∧ (s.cpu p).loaded = some word ∧
      step calls s p =
        { sync := c.update word
          cpu := Function.update s.cpu p ⟨(s.cpu p).finished + 1, none⟩ }) := by
  cases hc : (calls p)[(s.cpu p).finished]? with
  | none => exact .inl ⟨rfl, by simp [step, hc]⟩
  | some c =>
    cases hl : (s.cpu p).loaded with
    | none => exact .inr (.inl ⟨c, rfl, rfl, by simp [step, hc, hl]⟩)
    | some word => exact .inr (.inr ⟨c, word, rfl, rfl, by simp [step, hc, hl]⟩)

theorem outcome_append (bit : Bool) (cs : List Call) (c : Call) (i : ℕ) :
    outcome bit (cs ++ [c]) i = if i = c.cpuId then c.sets else outcome bit cs i := by
  simp [outcome, List.foldl_append]

/-- The calls that CPU `q` has finished after a store of CPU `p`. -/
theorem take_finished_store {c : Call} (hc : (calls p)[(s.cpu p).finished]? = some c) (q : P) :
    (calls q).take (Function.update s.cpu p ⟨(s.cpu p).finished + 1, none⟩ q).finished =
      (calls q).take (s.cpu q).finished ++ if q = p then [c] else [] := by
  rcases eq_or_ne q p with rfl | hqp
  · simp [List.take_add_one, hc]
  · simp [hqp]

/-- A load leaves the word and the finished calls as they are. -/
theorem exactBit_load {i : ℕ} {word : Option (BitVec 32)} :
    ExactBit calls sync₀
      { s with cpu := Function.update s.cpu p ⟨(s.cpu p).finished, word⟩ } i ↔
      ExactBit calls sync₀ s i := by
  have hsame : ∀ q, (Function.update s.cpu p ⟨(s.cpu p).finished, word⟩ q).finished =
      (s.cpu q).finished := by
    intro q
    rcases eq_or_ne q p with rfl | hqp
    · simp
    · rw [Function.update_of_ne hqp]
  constructor
  · rintro ⟨hcalled, huntouched⟩
    exact ⟨fun q c hc hid => by simpa only [hsame] using hcalled q c hc hid, huntouched⟩
  · rintro ⟨hcalled, huntouched⟩
    exact ⟨fun q c hc hid => by simpa only [hsame] using hcalled q c hc hid, huntouched⟩

/-- The bit of the call itself comes out right, whatever has been loaded. -/
theorem exactBit_store_self (hd : DistinctIds calls) {c : Call} {word : BitVec 32}
    (hc : (calls p)[(s.cpu p).finished]? = some c) :
    ExactBit calls sync₀
      { sync := c.update word
        cpu := Function.update s.cpu p ⟨(s.cpu p).finished + 1, none⟩ } c.cpuId := by
  have hmem := List.mem_of_getElem? hc
  have hlt := hd.inWord p c hmem
  constructor
  · intro q d hq hid
    have hqp : q = p := by
      by_contra hne
      exact hd.distinct q p hne d hq c hmem hid
    rw [take_finished_store hc q, if_pos hqp, outcome_append, Call.getLsbD_update c word hlt]
    simp
  · intro hno
    exact absurd rfl (hno p c hmem)

/-- Any other bit is written back as it was loaded. -/
theorem exactBit_store_other {c : Call} {word : BitVec 32} {i : ℕ} (hi : i < 32)
    (hne : i ≠ c.cpuId) (hc : (calls p)[(s.cpu p).finished]? = some c)
    (h : ExactBit calls sync₀ s i) :
    ExactBit calls sync₀
      { sync := c.update word
        cpu := Function.update s.cpu p ⟨(s.cpu p).finished + 1, none⟩ } i ↔
      word.getLsbD i = s.sync.getLsbD i := by
  have hbit : (c.update word).getLsbD i = word.getLsbD i := by
    rw [Call.getLsbD_update c word hi, if_neg hne]
  have hout : ∀ q, outcome (sync₀.getLsbD i)
      ((calls q).take (Function.update s.cpu p ⟨(s.cpu p).finished + 1, none⟩ q).finished) i =
      outcome (sync₀.getLsbD i) ((calls q).take (s.cpu q).finished) i := by
    intro q
    rw [take_finished_store hc q]
    split
    · rw [outcome_append, if_neg hne]
    · rw [List.append_nil]
  constructor
  · intro h'
    by_cases hex : ∃ q, ∃ d ∈ calls q, d.cpuId = i
    · obtain ⟨q, d, hq, hid⟩ := hex
      rw [← hbit, h'.called q d hq hid, h.called q d hq hid, hout q]
    · have hno : ∀ q, ∀ d ∈ calls q, d.cpuId ≠ i := fun q d hq hid => hex ⟨q, d, hq, hid⟩
      rw [← hbit, h'.untouched hno, h.untouched hno]
  · intro heq
    constructor
    · intro q d hq hid
      simp only [hbit, heq, hout q]
      exact h.called q d hq hid
    · intro hno
      simp only [hbit, heq]
      exact h.untouched hno

/-- An access keeps the word exact if and only if it writes no stale bit back. -/
theorem exact_step_iff (hd : DistinctIds calls) (h : Exact calls sync₀ s) :
    Exact calls sync₀ (step calls s p) ↔ StillCurrent calls s p := by
  obtain ⟨hc, hs⟩ | ⟨c, hc, hl, hs⟩ | ⟨c, word, hc, hl, hs⟩ := step_cases calls s p
  · simp [hs, h, StillCurrent, hc]
  · simp only [hs, Exact, exactBit_load, StillCurrent, hc, hl]
    exact ⟨fun _ => by simp, fun _ => h⟩
  · rw [hs]
    constructor
    · intro h' d hd' w hw i hi hne
      obtain rfl : c = d := by simpa [hc] using hd'
      obtain rfl : word = w := by simpa [hl] using hw
      exact (exactBit_store_other hi hne hc (h i hi)).mp (h' i hi)
    · intro hcur i hi
      rcases eq_or_ne i c.cpuId with rfl | hne
      · exact exactBit_store_self hd hc
      · exact (exactBit_store_other hi hne hc (h i hi)).mpr (hcur c hc word hl i hi hne)

/-- The word is exact all along if and only if no access writes a stale bit back; then no bit is
lost when all calls have finished. -/
theorem exact_iff_stillCurrent (hd : DistinctIds calls) (sync₀ : BitVec 32) (schedule : ℕ → P) :
    ((∀ t, Exact calls sync₀ (Lib.run (step calls) (start sync₀) schedule t)) ↔
      ∀ t, StillCurrent calls (Lib.run (step calls) (start sync₀) schedule t) (schedule t)) ∧
    ((∀ t, StillCurrent calls (Lib.run (step calls) (start sync₀) schedule t) (schedule t)) →
      ∀ t, Finished calls (Lib.run (step calls) (start sync₀) schedule t) →
        NoneLost calls sync₀ (Lib.run (step calls) (start sync₀) schedule t)) := by
  have hall : (∀ t, StillCurrent calls (Lib.run (step calls) (start sync₀) schedule t)
      (schedule t)) →
      ∀ t, Exact calls sync₀ (Lib.run (step calls) (start sync₀) schedule t) :=
    Lib.run_invariant exact_start fun s p hcur h => (exact_step_iff hd h).mpr hcur
  refine ⟨⟨fun h t => ?_, hall⟩, fun hcur t hf => (hall hcur t).noneLost hf⟩
  exact (exact_step_iff hd (h t)).mp (h (t + 1))

section Lost

/-- CPUs 1 and 2 report that they have finished their part. -/
def twoReports : Bool → List Call
  | false => [.pnSyncSet 1]
  | true => [.pnSyncSet 2]

theorem distinctIds_twoReports : DistinctIds twoReports := by
  constructor
  · decide
  · decide

/-- First one call, then the other. -/
def inTurn (t : ℕ) : Bool := decide (2 ≤ t)

theorem finished_inTurn (t : ℕ) :
    Finished twoReports (Lib.run (step twoReports) (start 0) inTurn (t + 4)) := by
  induction t with
  | zero =>
    intro p
    cases p <;> decide
  | succ t ih =>
    have hstep : step twoReports (Lib.run (step twoReports) (start 0) inTurn (t + 4))
        (inTurn (t + 4)) = Lib.run (step twoReports) (start 0) inTurn (t + 4) := by
      rw [step, List.getElem?_eq_none (Nat.le_of_eq (ih _).symm)]
    rw [Nat.add_right_comm, Lib.run_succ, hstep]
    exact ih

theorem exact_iff_stillCurrent_inTurn :
    NoneLost twoReports 0 (Lib.run (step twoReports) (start 0) inTurn 4) := by
  refine (exact_iff_stillCurrent distinctIds_twoReports 0 inTurn).2 (fun t => ?_) 4
    (finished_inTurn 0)
  match t with
  | 0 => exact stillCurrent_of_loaded (by decide)
  | 1 => exact stillCurrent_of_loaded (by decide)
  | 2 => exact stillCurrent_of_loaded (by decide)
  | 3 => exact stillCurrent_of_loaded (by decide)
  | t + 4 =>
    intro c hc
    rw [List.getElem?_eq_none (Nat.le_of_eq (finished_inTurn t _).symm)] at hc
    cases hc

/-- Both CPUs load the word before either stores it: the bit of CPU 1 is lost. -/
theorem report_lost :
    ¬ ∀ (calls : Bool → List Call) (sync₀ : BitVec 32) (schedule : ℕ → Bool) (t : ℕ),
      DistinctIds calls →
      Finished calls (Lib.run (step calls) (start sync₀) schedule t) →
      NoneLost calls sync₀ (Lib.run (step calls) (start sync₀) schedule t) := by
  intro h
  have hfin : Finished twoReports
      (Lib.run (step twoReports) (start 0) (fun t => t % 2 == 1) 4) := by
    intro p
    cases p <;> decide
  have hlost := (h twoReports 0 (fun t => t % 2 == 1) 4 distinctIds_twoReports hfin).last
    false 1 (by decide) ⟨_, List.mem_singleton.mpr rfl, rfl⟩
  exact absurd hlost (by decide)

end Lost

end ParaNut.Sw.Sync
