import ParaNut.Exu.Pipeline
import ParaNut.Lib.Handshake
import Mathlib.Data.Nat.Log

/-!
# The multiplier and who waits for it (`mult32x32s.vhd`, `mexu.vhd`)

The pipeline of the multiplier runs freely, and a counter tells when the
product of what was asked for is at its end. The execute stage waits for the
counter and writes the product to the destination register.
-/

namespace ParaNut.Exu.Mul

open Lib (run run_succ)
open Lib.Handshake (Counted)

/-- `log2x`: the number of bits for `n` values -/
def log2x (n : ℕ) : ℕ := Nat.clog 2 n

section Unit

variable (stages : ℕ) (r : Registers) (i : ℕ → MulIn)

def served (t : ℕ) : MulOut := out stages (run (next stages) r i t)

variable {stages r i}

/-- The count is 0 between the multiplications, and never above the number of stages. -/
theorem run_count (hstages : 1 ≤ stages) (hcnt : r.mulCnt = 0) (t : ℕ) :
    (run (next stages) r i t).mulCnt ≤ stages ∧
      ((run (next stages) r i t).counting = false → (run (next stages) r i t).mulCnt = 0) := by
  induction t with
  | zero => exact ⟨by rw [Lib.run_zero, hcnt]; exact Nat.zero_le _, fun _ => hcnt⟩
  | succ t ih =>
    obtain ⟨hle, hidle⟩ := ih
    rw [run_succ]
    cases hc : (run (next stages) r i t).counting with
    | false =>
      have hzero := hidle hc
      cases hs : (i t).start <;> simp [next, hc, hs, hzero, hstages]
    | true =>
      by_cases hlast : (run (next stages) r i t).mulCnt = stages
      · simp [next, hc, hlast]
      · have hlt : (run (next stages) r i t).mulCnt + 1 ≤ stages := by omega
        simp [next, hc, hlast, hlt]

theorem run_count_fits (hstages : 1 ≤ stages) (hcnt : r.mulCnt = 0) (t : ℕ) :
    (run (next stages) r i t).mulCnt < 2 ^ log2x (stages + 1) :=
  Nat.lt_of_lt_of_le (Nat.lt_succ_of_le (run_count hstages hcnt t).1)
    (Nat.le_pow_clog Nat.one_lt_two (stages + 1))

theorem counted (hstages : 1 ≤ stages) (hidle : r.counting = false) (hcnt : r.mulCnt = 0) :
    Counted (fun t => (i t).start) (fun t => (served stages r i t).rdy) 1
      (fun t => (run (next stages) r i t).counting) (fun t => (run (next stages) r i t).mulCnt)
      (fun _ => stages) where
  init := hidle
  rdy_eq _ := rfl
  counting_succ _ := rfl
  count_start t hc hs := by
    have hzero := (run_count (i := i) hstages hcnt t).2 hc
    simp [run_succ, next, hc, hs, hzero]
  count_succ t hc hlt := by simp [run_succ, next, hc, Nat.ne_of_lt hlt]
  held _ _ := rfl
  first_le _ := hstages

/-- What goes into the pipeline is `n + 1` cycles later in its register `n`. -/
theorem run_pipeRegs (t n : ℕ) :
    (run (next stages) r i (t + 1 + n)).pipeRegs n = multRes (i t) := by
  induction n with
  | zero => rfl
  | succ n ih => exact ih

theorem served_product (hstages : 1 ≤ stages) (t : ℕ) :
    (served stages r i (t + stages)).p = (i t).a * (i t).b := by
  have h : (run (next stages) r i (t + 1 + (stages - 1))).pipeRegs (stages - 1) = multRes (i t) :=
    run_pipeRegs t (stages - 1)
  rw [show t + 1 + (stages - 1) = t + stages by omega] at h
  rw [served, out, h, multRes_low]

end Unit

end ParaNut.Exu.Mul

namespace ParaNut.Mexu

open Exu (op1)
open Lib (run run_succ)
open Lib.Handshake (busy issued Serves)

-- ---------------------------------------------------------------------------
-- Decoding
-- ---------------------------------------------------------------------------

/-- A multiplication is written back as such. -/
def MulSelects (d : DecodeReg) : Prop :=
  d.exOp = .mul → d.exResSel = .mul ∧ d.wbWdataSel = .exRes ∧ d.wbJumpLinked = false

theorem MulSelects.of_ne {d : DecodeReg} (h : d.exOp ≠ .mul) : MulSelects d := fun hop =>
  absurd hop h

theorem MulSelects.ite {p : Prop} [Decidable p] {o o' : Decoded} (h : p → MulSelects o.d)
    (h' : ¬ p → MulSelects o'.d) : MulSelects (if p then o else o').d := by
  split_ifs with hp
  · exact h hp
  · exact h' hp

theorem decodeOp_mulSelects (ir sr : TWord) : MulSelects (decodeOp ir sr).d := by
  unfold decodeOp
  refine .ite (fun _ => ?alu) fun _ => .ite (fun _ => ?addi) fun _ => .ite (fun _ => ?muli) fun _ =>
    .ite (fun _ => ?setf) fun _ => .ite (fun _ => ?srli) fun _ => .ite (fun _ => ?setfi) fun _ =>
    .ite (fun _ => ?movhi) fun _ => .ite (fun _ => ?load) fun _ => .ite (fun _ => ?store) fun _ =>
    .ite (fun _ => ?cust7) fun _ => .ite (fun _ => ?jump) fun _ => .ite (fun _ => ?nop) fun _ =>
    .ite (fun _ => ?other) fun _ => .ite (fun _ => ?rfe) fun _ => .ite (fun _ => ?mfspr) fun _ =>
    .ite (fun _ => ?mtspr) fun _ => ?illegal
  case alu =>
    refine .ite (fun _ => ?mulu) fun _ => .ite (fun _ => ?mul) fun _ => .ite (fun _ => ?shift)
      fun _ => ?others
    case mulu | mul => exact fun _ => ⟨rfl, rfl, rfl⟩
    case shift | others => exact .of_ne nofun
  case muli => exact fun _ => ⟨rfl, rfl, rfl⟩
  case jump =>
    refine .ite (fun _ => ?_) fun _ => .of_ne nofun
    by_cases hreg : 0b010001#6 ≤ op1 ir <;>
      by_cases hlink : op1 ir = 0b000001#6 ∨ op1 ir = 0b010010#6 <;>
      simp only [hreg, hlink, if_true, if_false] <;> exact .of_ne nofun
  case nop => refine .ite (fun _ => ?_) fun _ => ?_ <;> exact .of_ne nofun
  case other =>
    refine .ite (fun _ => ?_) fun _ => .ite (fun _ => ?_) fun _ => ?_ <;> exact .of_ne nofun
  case addi | setf | srli | setfi | movhi | load | store | cust7 | rfe | mfspr | mtspr | illegal =>
    exact .of_ne nofun

-- ---------------------------------------------------------------------------
-- The execute stage
-- ---------------------------------------------------------------------------

/-- The multiplier counts as long as the execute stage waits for it. -/
structure MulWaits (s : State) : Prop where
  selects : MulSelects s.r.d
  counting : s.mul.counting = (s.r.e.state == .mulStall)

section Cycle

variable {c : Config} {s : State} {i : In}

theorem muli_start_iff : (muli s.r i).start = true ↔
    s.r.e.state = .init ∧ i.duStall = false ∧ s.r.d.exOp = .mul := by
  simp [muli, and_assoc]

/-- The state in which it waits is entered with `start`, and left with `rdy`. -/
theorem nextState_mulStall (r : Registers) (shfto : Exu.ShiftOut) (mulo : Exu.MulOut) :
    (nextState c r i shfto mulo == .mulStall) =
      if r.e.state = .mulStall then !mulo.rdy else (muli r i).start := by
  unfold nextState muli
  cases hs : r.e.state with
  | init =>
    cases i.duStall <;> cases r.d.exOp <;>
      first | rfl | by_cases himpl : c.shiftImpl = 0 <;> simp only [himpl] <;> rfl
  | mulStall => cases mulo.rdy <;> rfl
  | lsMemStall =>
    cases i.lsuo.ack <;> cases i.lsuo.alignErr <;> cases r.d.memLsuFlush <;>
      cases r.d.memLsuLoad <;> rfl
  | cacheInvalidate2 => cases i.lsuo.ack <;> rfl
  | shiftStall => cases shfto.rdy <;> rfl
  | _ => rfl

theorem step_d (h : exNexti s.r i = false) : (step c s i).r.d = s.r.d := by
  simp [step, next, h]

theorem insnDecode_mulSelects (r : Registers) (spr : Spr) (ifuo : Ifu.IfuOut) (invalid : Bool) :
    MulSelects (insnDecode r spr ifuo invalid).d := by
  cases invalid with
  | true => exact .of_ne nofun
  | false => exact decodeOp_mulSelects ifuo.ir spr.sr

theorem MulWaits.step (h : MulWaits s) : MulWaits (step c s i) where
  selects := by
    cases hn : exNexti s.r i with
    | false =>
      rw [step_d hn]
      exact h.selects
    | true =>
      have hd : (Mexu.step c s i).r.d = operands c (decoded s.r s.spr i) i.ifuo.ir
          (rfo c s i (decoded s.r s.spr i).rselA) (rfo c s i (decoded s.r s.spr i).rselB) := by
        simp [Mexu.step, next, hn]
      rw [hd]
      exact insnDecode_mulSelects s.r s.spr i.ifuo (idNextiInvalid s.r s.spr i)
  counting := by
    have hmul : (Mexu.step c s i).mul.counting =
        if s.mul.counting then s.mul.mulCnt != c.mulStages else (muli s.r i).start := rfl
    have hstate : (Mexu.step c s i).r.e.state = nextState c s.r i (shfto c s i) (mulo c s) := rfl
    have hrdy : (mulo c s).rdy = (s.mul.counting && s.mul.mulCnt == c.mulStages) := rfl
    rw [hmul, hstate, nextState_mulStall, hrdy, h.counting]
    by_cases hs : s.r.e.state = .mulStall
    · rw [if_pos (beq_iff_eq.mpr hs), if_pos hs, beq_iff_eq.mpr hs, Bool.true_and]
      rfl
    · rw [if_neg (by rwa [beq_iff_eq]), if_neg hs]

/-- The product is registered with the answer. -/
theorem step_mulRdy (hs : s.r.e.state = .mulStall) (hrdy : (mulo c s).rdy = true)
    (hsel : s.r.d.exResSel = .mul) : (step c s i).r.e = ⟨.mulWb, (mulo c s).p⟩ := by
  simp [Mexu.step, next, nextState, exResult, hs, hrdy, hsel]

/-- It is written in the cycle after. -/
theorem step_mulWb (hs : s.r.e.state = .mulWb) (hwdata : s.r.d.wbWdataSel = .exRes)
    (hlink : s.r.d.wbJumpLinked = false) :
    (step c s i).rf s.r.d.wbRselD = s.r.e.wbResult := by
  simp [Mexu.step, rfi, exRfWrite, hs, hwdata, hlink]

end Cycle

section Run

variable (c : Config) (s : State) (i : ℕ → In)

/-- The request and the answer in cycle `t`. -/
def mulStart (t : ℕ) : Bool := (muli (run (step c) s i t).r (i t)).start

def mulRdy (t : ℕ) : Bool := (mulo c (run (step c) s i t)).rdy

variable {c s i}

/-- The multiplier of the run is a multiplier fed by the execute stage. -/
theorem run_mul (t : ℕ) : (run (step c) s i t).mul =
    run (Exu.Mul.next c.mulStages) s.mul (fun u => muli (run (step c) s i u).r (i u)) t := by
  induction t with
  | zero => rfl
  | succ t ih =>
    exact congrArg (Exu.Mul.next c.mulStages · (muli (run (step c) s i t).r (i t))) ih

theorem mulo_eq (t : ℕ) : mulo c (run (step c) s i t) =
    Exu.Mul.served c.mulStages s.mul (fun u => muli (run (step c) s i u).r (i u)) t := by
  rw [mulo, run_mul]
  rfl

section Reset

variable (hstages : 1 ≤ c.mulStages) (hstate : s.r.e.state = .init) (hop : s.r.d.exOp = .nop)
  (hidle : UnitsIdle s)

include hstate hop hidle in
theorem mulWaits_run (t : ℕ) : MulWaits (run (step c) s i t) := by
  induction t with
  | zero => exact ⟨.of_ne (by rw [Lib.run_zero, hop]; nofun),
      by rw [Lib.run_zero, hidle.mul, hstate]; rfl⟩
  | succ t ih => exact ih.step

include hstages hidle in
theorem mulCounted : Lib.Handshake.Counted (mulStart c s i) (mulRdy c s i) 1
    (fun t => (run (step c) s i t).mul.counting) (fun t => (run (step c) s i t).mul.mulCnt)
    (fun _ => c.mulStages) := by
  have h := Exu.Mul.counted (i := fun u => muli (run (step c) s i u).r (i u)) hstages hidle.mul
    hidle.mulCnt
  simp only [← run_mul, ← mulo_eq] at h
  exact h

include hstages hstate hop hidle in
/-- The unit is never asked while it is at work. -/
theorem mulStart_issued {t : ℕ} (hstart : mulStart c s i t = true) :
    issued (mulStart c s i) (mulRdy c s i) t = true := by
  refine Lib.Handshake.issued_iff.mpr ⟨?_, hstart⟩
  obtain ⟨hinit, -, -⟩ := muli_start_iff.mp hstart
  rw [(mulCounted hstages hidle).busy_eq, (mulWaits_run hstate hop hidle t).counting, hinit]
  rfl

include hstages hstate hop hidle in
/-- The instruction stays in the execute stage until the answer. -/
theorem mulStall_upto {t : ℕ} (hstart : mulStart c s i t = true) {k : ℕ} (hk : k < c.mulStages) :
    (run (step c) s i (t + 1 + k)).r.e.state = .mulStall ∧
      (run (step c) s i (t + 1 + k)).r.d = (run (step c) s i t).r.d := by
  have hissued := mulStart_issued hstages hstate hop hidle hstart
  have hstall : ∀ k < c.mulStages, (run (step c) s i (t + 1 + k)).r.e.state = .mulStall := by
    intro k hk
    obtain ⟨hc, -, -⟩ := (mulCounted hstages hidle).counts hissued (k := k) (by omega)
    exact beq_iff_eq.mp ((mulWaits_run hstate hop hidle _).counting.symm.trans hc)
  refine ⟨hstall k hk, ?_⟩
  induction k with
  | zero =>
    obtain ⟨hinit, -, hmul⟩ := muli_start_iff.mp hstart
    exact step_d (by simp [exNexti, hinit, hmul])
  | succ k ih =>
    have hs := hstall k (by omega)
    exact (step_d (by simp [exNexti, hs])).trans (ih (by omega))

include hstages hstate hop hidle in
/-- The cycle of the answer and the two after it. -/
theorem mul_written {t : ℕ} (hstart : mulStart c s i t = true) :
    let d := (run (step c) s i t).r.d
    (mulo c (run (step c) s i (t + c.mulStages))).p = d.aluIn1 * d.aluIn2 ∧
      (run (step c) s i (t + c.mulStages + 2)).rf d.wbRselD = d.aluIn1 * d.aluIn2 := by
  intro d
  have hp : (mulo c (run (step c) s i (t + c.mulStages))).p = d.aluIn1 * d.aluIn2 := by
    rw [mulo_eq, Exu.Mul.served_product hstages]
    rfl
  refine ⟨hp, ?_⟩
  have hlast : t + 1 + (c.mulStages - 1) = t + c.mulStages := by omega
  obtain ⟨hstall, hd⟩ := mulStall_upto hstages hstate hop hidle hstart (k := c.mulStages - 1)
    (by omega)
  have hrdy : mulRdy c s i (t + c.mulStages) = true := by
    rw [← hlast]
    exact (mulCounted hstages hidle).serves.answers t
      (mulStart_issued hstages hstate hop hidle hstart)
  rw [hlast] at hstall hd
  obtain ⟨hsel, hwdata, hlink⟩ := (mulWaits_run hstate hop hidle t).selects
    (muli_start_iff.mp hstart).2.2
  have hwb : (run (step c) s i (t + c.mulStages + 1)).r.e =
      ⟨.mulWb, (mulo c (run (step c) s i (t + c.mulStages))).p⟩ :=
    step_mulRdy hstall hrdy (by rw [hd]; exact hsel)
  have hd' : (run (step c) s i (t + c.mulStages + 1)).r.d = d :=
    (step_d (by simp [exNexti, hstall])).trans hd
  have hwrite : (run (step c) s i (t + c.mulStages + 2)).rf
      (run (step c) s i (t + c.mulStages + 1)).r.d.wbRselD =
        (run (step c) s i (t + c.mulStages + 1)).r.e.wbResult :=
    step_mulWb (congrArg ExecuteReg.state hwb) (by rw [hd']; exact hwdata)
      (by rw [hd']; exact hlink)
  rw [hd', hwb, hp] at hwrite
  exact hwrite

end Reset

end Run

/-- Every multiplication is answered once, with its own product, which is then in the destination
register; its operands are held meanwhile, and the counter stays in its range. -/
theorem mul_handshake (c : Config) (s : State) (i : ℕ → In) (hstages : 1 ≤ c.mulStages)
    (hstate : s.r.e.state = .init) (hop : s.r.d.exOp = .nop) (hidle : UnitsIdle s) :
    Serves (mulStart c s i) (mulRdy c s i) (fun _ => c.mulStages - 1) ∧
    (∀ t, Nat.count (mulStart c s i · = true) t =
      Nat.count (mulRdy c s i · = true) t + (busy (mulStart c s i) (mulRdy c s i) t).toNat) ∧
    (∀ t, mulRdy c s i t = true →
      ∃ u, mulStart c s i u = true ∧ t = u + c.mulStages ∧
        let d := (run (step c) s i u).r.d
        (∀ k ≤ c.mulStages, (run (step c) s i (u + k)).r.d = d) ∧
          (mulo c (run (step c) s i t)).p = d.aluIn1 * d.aluIn2 ∧
          (run (step c) s i (t + 2)).rf d.wbRselD = d.aluIn1 * d.aluIn2) ∧
    ∀ t, (run (step c) s i t).mul.mulCnt < 2 ^ Exu.Mul.log2x (c.mulStages + 1) := by
  have hserves := (mulCounted (i := i) hstages hidle).serves
  have hissued : ∀ t, issued (mulStart c s i) (mulRdy c s i) t = mulStart c s i t := fun t =>
    Bool.eq_iff_iff.mpr ⟨fun h => (Lib.Handshake.issued_iff.mp h).2,
      mulStart_issued hstages hstate hop hidle⟩
  refine ⟨hserves, fun t => ?_, fun t hrdy => ?_, fun t => ?_⟩
  · simpa only [hissued] using hserves.count_eq t
  · obtain ⟨u, hu, ht⟩ := (hserves.rdy_iff t).mp hrdy
    have hlast : t = u + c.mulStages := by omega
    rw [hissued] at hu
    refine ⟨u, hu, hlast, fun k hk => ?_, ?_⟩
    · rcases Nat.eq_zero_or_pos k with rfl | hpos
      · rfl
      · rw [show u + k = u + 1 + (k - 1) by omega]
        exact (mulStall_upto hstages hstate hop hidle hu (by omega)).2
    · rw [hlast]
      exact mul_written hstages hstate hop hidle hu
  · rw [run_mul]
    exact Exu.Mul.run_count_fits hstages hidle.mulCnt t

/-- `l.mul r4,r3,r3`, again and again. -/
def mulInput : In :=
  ⟨⟨0xe0831b06, 0, 0x100, 0x104, true, true⟩, ⟨false, false, 0⟩, false⟩

theorem mul_handshake_square : mulRdy plainConfig resetState (fun _ => mulInput) 4 = true ∧
    (run (step plainConfig) resetState (fun _ => mulInput) 6).rf 4 = 25 := by
  obtain ⟨hserves, -, hwritten, -⟩ := mul_handshake plainConfig resetState (fun _ => mulInput)
    (by decide) rfl rfl ⟨rfl, rfl, rfl, rfl⟩
  have hrdy := hserves.answers 1 (by decide)
  obtain ⟨u, -, hu, -, -, hrf⟩ := hwritten 4 hrdy
  have hone : u = 1 := Nat.add_right_cancel (m := 3) hu.symm
  subst hone
  exact ⟨hrdy, hrf⟩

end ParaNut.Mexu
