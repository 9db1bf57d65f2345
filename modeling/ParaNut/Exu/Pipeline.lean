import ParaNut.Exu.Sequential

/-!
# The execution unit runs its instructions one after the other

An instruction that has been taken is in one phase of its execution: `Phase`
gives the state of the execute stage with the effects the instruction has had
so far. In its last cycle the next instruction is decoded.
-/

namespace ParaNut.Mexu

open Exu (op1)
open Ifu (Stream IfuOut)

-- ---------------------------------------------------------------------------
-- What the decoder selects
-- ---------------------------------------------------------------------------

/-- The selectors of a covered instruction, by its operation. -/
def Selects (d : DecodeReg) : Prop :=
  match d.exOp with
  | .nop =>
    Quiet d ∧ d.wbJumpLinked = false ∧ d.memLsuLoad = false ∧ d.memLsuStore = false ∧
      d.wbSetRegD = false
  | .jump =>
    Quiet d ∧ (d.wbJumpLinked = true → d.wbWdataSel = .npc) ∧ d.memLsuLoad = false ∧
      d.memLsuStore = false ∧ d.wbSetRegD = false ∧ (d.exResSel = .alu ∨ d.exResSel = .reg)
  | .alu =>
    d.exResSel = .alu ∧ d.wbWdataSel = .exRes ∧ d.wbJumpLinked = false ∧ d.memLsuLoad = false ∧
      d.memLsuStore = false
  | .shift =>
    Quiet d ∧ d.exResSel = .shift ∧ d.wbWdataSel = .exRes ∧ d.wbJumpLinked = false ∧
      d.memLsuLoad = false ∧ d.memLsuStore = false ∧ d.wbSetRegD = true
  | .mul =>
    Quiet d ∧ d.exResSel = .mul ∧ d.wbWdataSel = .exRes ∧ d.wbJumpLinked = false ∧
      d.memLsuLoad = false ∧ d.memLsuStore = false ∧ d.wbSetRegD = true
  | .ls =>
    Quiet d ∧ d.exResSel = .alu ∧ d.wbJumpLinked = false ∧ d.memLsuStore = !d.memLsuLoad ∧
      d.wbSetRegD = d.memLsuLoad ∧ (d.memLsuLoad = true → d.wbWdataSel = .load)
  | .setspr | .rfe => False

/-- No exception, no cache control, and a sum never takes the carry in. -/
structure Plain (d : DecodeReg) : Prop where
  illOp : d.illOp = false
  sys : d.sys = false
  trap : d.trap = false
  halt : d.halt = false
  flush : d.memLsuFlush = false
  adc : d.aluFunc ≠ 1
  selects : Selects d

theorem covered_cases {ir : TWord} (h : covered ir = true) :
    (op1 ir = 0b111000#6 ∧ ir.extractLsb' 0 4 ∈ [0#4, 2#4, 3#4, 4#4, 5#4, 6#4, 8#4, 11#4]) ∨
      (op1 ir = 0b000101#6 ∧ ir.extractLsb' 0 16 ≠ 1#16) ∨
      op1 ir ∈ [0b100111#6, 0b101001#6, 0b101010#6, 0b101011#6, 0b101100#6, 0b101110#6, 0b000110#6,
        0b111001#6, 0b101111#6, 0b100001#6, 0b100010#6, 0b100011#6, 0b100100#6, 0b100101#6,
        0b100110#6, 0b110101#6, 0b110110#6, 0b110111#6] ∨
      op1 ir ∈ [0b000000#6, 0b000001#6, 0b000011#6, 0b000100#6, 0b010001#6, 0b010010#6] := by
  unfold covered at h
  split_ifs at h with ha hn
  · exact .inl ⟨ha, of_decide_eq_true h⟩
  · exact .inr (.inl ⟨hn, of_decide_eq_true h⟩)
  · refine .inr (.inr ?_)
    simp only [Exu.isLoad, Exu.isStore, Bool.or_eq_true, decide_eq_true_eq, List.mem_cons,
      List.not_mem_nil, or_false] at h ⊢
    tauto

/-- Only a jump that is taken has its next instruction in the delay slot. -/
theorem decodeOp_plain {ir : TWord} (h : covered ir = true) (sr : TWord) :
    Plain (decodeOp ir sr).d ∧
      (decodeOp ir sr).nextInDelaySlot = decide ((decodeOp ir sr).d.exOp = .jump) := by
  rcases covered_cases h with ⟨hop, h3⟩ | ⟨hop, hk⟩ | hop | hop
  · simp only [List.mem_cons, List.not_mem_nil, or_false] at h3
    rcases h3 with h3 | h3 | h3 | h3 | h3 | h3 | h3 | h3 <;>
      exact ⟨by constructor <;> simp [decodeOp, hop, h3, decodeDefault, Selects, Quiet, addFunc],
        by simp [decodeOp, hop, h3, decodeDefault]⟩
  · exact ⟨by constructor <;> simp [decodeOp, hop, hk, decodeDefault, Selects, Quiet, Exu.isLoad,
        Exu.isStore, Exu.isCust7],
      by simp [decodeOp, hop, hk, decodeDefault, Exu.isLoad, Exu.isStore, Exu.isCust7]⟩
  · simp only [List.mem_cons, List.not_mem_nil, or_false] at hop
    rcases hop with hop | hop | hop | hop | hop | hop | hop | hop | hop | hop | hop | hop | hop |
      hop | hop | hop | hop | hop <;>
      exact ⟨by constructor <;> simp [decodeOp, hop, decodeDefault, Selects, Quiet, addFunc,
          Exu.isLoad, Exu.isStore],
        by simp [decodeOp, hop, decodeDefault, Exu.isLoad, Exu.isStore]⟩
  · simp only [List.mem_cons, List.not_mem_nil, or_false] at hop
    cases htaken : jumpTaken ir sr <;> rcases hop with hop | hop | hop | hop | hop | hop <;>
      exact ⟨by constructor <;> simp [decodeOp, hop, htaken, decodeDefault, Selects, Quiet,
          Exu.isLoad, Exu.isStore, Exu.isCust7],
        by simp [decodeOp, hop, htaken, decodeDefault, Exu.isLoad, Exu.isStore, Exu.isCust7]⟩

-- ---------------------------------------------------------------------------
-- Flags
-- ---------------------------------------------------------------------------

theorem getLsbD_setBit (w : TWord) {n : ℕ} (hn : n < 32) (v : Bool) (j : ℕ) :
    (setBit w n v).getLsbD j = if j = n then v else w.getLsbD j := by
  have hbit : (BitVec.twoPow 32 n).getLsbD j = decide (j = n) := by
    rw [BitVec.getLsbD_twoPow, decide_eq_true hn, Bool.true_and]
    exact decide_eq_decide.mpr eq_comm
  have hhigh : ¬ j < 32 → w.getLsbD j = false := fun h => BitVec.getLsbD_of_ge w j (by omega)
  unfold setBit
  cases v with
  | true =>
    rw [if_pos rfl, BitVec.getLsbD_or, hbit]
    by_cases hj : j = n <;> simp [hj]
  | false =>
    rw [if_neg (by decide), BitVec.getLsbD_and, BitVec.getLsbD_not, hbit]
    by_cases hj : j = n
    · simp [hj]
    · by_cases hlt : j < 32
      · simp [hj, hlt]
      · simp [hj, hhigh hlt]

theorem aluFlags_quiet {c : Config} {d : DecodeReg} (h : Quiet d) (sr vs : TWord) :
    aluFlags c d sr vs = vs := by
  simp only [aluFlags, h.1, h.2, Bool.false_eq_true, if_false]

theorem getLsbD_aluFlags {c : Config} {d : DecodeReg} {sr vs : TWord} {n : ℕ} (hcy : n ≠ cy)
    (hov : n ≠ ov) (hf : n ≠ flag) : (aluFlags c d sr vs).getLsbD n = vs.getLsbD n := by
  simp only [aluFlags]
  split_ifs <;>
    simp only [getLsbD_setBit _ (show flag < 32 by decide), getLsbD_setBit _ (show ov < 32 by decide),
      getLsbD_setBit _ (show cy < 32 by decide), if_neg hcy, if_neg hov, if_neg hf]

/-- Without the carry in, the flags do not depend on the supervision register. -/
theorem resAdd_congr {d : DecodeReg} (h : d.aluFunc ≠ 1) (sr sr' : TWord) :
    resAdd d sr = resAdd d sr' := by
  simp only [resAdd, if_neg h]

/-- Setting the flags again in the write-back cycle changes nothing. -/
theorem aluFlags_again {c : Config} {d : DecodeReg} (h : d.aluFunc ≠ 1) (sr : TWord) :
    aluFlags c d (aluFlags c d sr sr) (aluFlags c d sr sr) = aluFlags c d sr sr := by
  have hadd := resAdd_congr h (aluFlags c d sr sr) sr
  have hcy : outCy d (aluFlags c d sr sr) = outCy d sr := by simp only [outCy, hadd]
  have hov : outOv d (aluFlags c d sr sr) = outOv d sr := by simp only [outOv, hadd]
  have hf : outF c d (aluFlags c d sr sr) = outF c d sr := by simp only [outF, hadd, hcy]
  have hset : aluFlags c d (aluFlags c d sr sr) (aluFlags c d sr sr) =
      aluFlags c d sr (aluFlags c d sr sr) := by
    rw [aluFlags, hcy, hov, hf]
    rfl
  rw [hset]
  apply BitVec.eq_of_getLsbD_eq
  intro j _
  simp only [aluFlags]
  split_ifs <;>
    simp only [getLsbD_setBit _ (show flag < 32 by decide), getLsbD_setBit _ (show ov < 32 by decide),
      getLsbD_setBit _ (show cy < 32 by decide)] <;> split_ifs <;> rfl

-- ---------------------------------------------------------------------------
-- What one cycle shows
-- ---------------------------------------------------------------------------

section Cycle

variable {c : Config} {s : State} {i : In}

/-- The states of a covered instruction: no cache control, no `MTSPR`, no `RFE`. -/
def Usual : Exu.State → Prop
  | .cacheInvalidate1 | .cacheInvalidate2 | .sprWb1 | .sprWb2 | .rfe => False
  | _ => True

theorem detected_none (hill : s.r.d.illOp = false) (hsys : s.r.d.sys = false)
    (htrap : s.r.d.trap = false) (ha : i.lsuo.alignErr = false) : (detected s.r s.spr i).id = 0 := by
  unfold detected exceptionDetect
  rw [hill, hsys, htrap, ha]
  cases s.spr.sr.getLsbD iee <;> rfl

/-- Only the flags of the instruction change the register, unless it is written as a whole. -/
theorem nextSpr_sr (hx : xcJump s.r = false) (hspr : s.r.e.state ≠ .sprWb1)
    (hrfe : s.r.d.exOp ≠ .rfe) :
    (nextSpr c s.r s.spr i).sr = aluFlags c s.r.d s.spr.sr s.spr.sr := by
  have hr : exRfeJump s.r i = false := by simp [exRfeJump, hrfe]
  unfold nextSpr
  rw [hx, hr]
  cases hs : s.r.e.state <;> first | rfl | exact absurd hs hspr

theorem xcJump_init (h : s.r.x.state = .init) : xcJump s.r = false := by
  rw [xcJump, h]
  rfl

theorem Usual.not_spr (hu : Usual s.r.e.state) : s.r.e.state ≠ .sprWb1 := by
  intro hs
  rw [hs] at hu
  exact hu

theorem step_rf : (step c s i).rf =
    (rfWrite c s i).elim s.rf fun w => Function.update s.rf w.1 w.2 := by
  funext a
  simp only [step, rfWrite]
  cases (rfi c s.r s.spr i).wrEn with
  | false => rfl
  | true =>
    by_cases ha : (rfi c s.r s.spr i).wrAddr = a
    · simp [ha]
    · simp [ha, Function.update_of_ne (Ne.symm ha)]

theorem rfo_eq (a : BitVec 5) : rfo c s i a = (step c s i).rf a := rfl

theorem rfWrite_none (h : exRfWrite s.r i = false) : rfWrite c s i = none := by
  simp only [rfWrite, rfi, h, Bool.false_eq_true, if_false]

theorem rfWrite_some (h : exRfWrite s.r i = true) :
    rfWrite c s i = some ((rfi c s.r s.spr i).wrAddr, (rfi c s.r s.spr i).wrData) :=
  if_pos h

theorem lsuRequest_none (h : s.r.e.state ≠ .lsMemStall) (hu : Usual s.r.e.state) :
    lsuRequest s = [] := by
  unfold lsuRequest lsui
  cases hs : s.r.e.state <;> first | rfl | exact absurd hs h | exact (hs ▸ hu).elim

theorem lsuRequest_eq (h : s.r.e.state = .lsMemStall) (hf : s.r.d.memLsuFlush = false) :
    lsuRequest s = requestEvents s.r.d s.r.e.wbResult := by
  unfold lsuRequest lsui requestEvents
  rw [h, hf]
  cases s.r.d.memLsuLoad <;> cases s.r.d.memLsuStore <;> rfl

/-- A unit that is not started stays idle. -/
theorem units_idle (h : UnitsIdle s) (hs : (shfti c s.r i).start = false)
    (hm : (muli s.r i).start = false) : UnitsIdle (step c s i) where
  shft := by simp only [step, Exu.Shift.next, h.shft, hs, Bool.false_eq_true, if_false]
  shftCnt := by simp only [step, Exu.Shift.next, h.shft, hs, Bool.false_eq_true, if_false, h.shftCnt]
  mul := by simp only [step, Exu.Mul.next, h.mul, hm, Bool.false_eq_true, if_false]
  mulCnt := by simp only [step, Exu.Mul.next, h.mul, hm, Bool.false_eq_true, if_false, h.mulCnt]

theorem shfti_start (h : s.r.e.state ≠ .init ∨ s.r.d.exOp ≠ .shift ∨ c.shiftImpl ≠ 0) :
    (shfti c s.r i).start = false := by
  unfold shfti
  rcases h with h | h | h <;> simp [h]

theorem muli_start (h : s.r.e.state ≠ .init ∨ s.r.d.exOp ≠ .mul) :
    (muli s.r i).start = false := by
  unfold muli
  rcases h with h | h <;> simp [h]

end Cycle

-- ---------------------------------------------------------------------------
-- The phases of an instruction
-- ---------------------------------------------------------------------------

/-- How far the instruction at `A` is, and the effects it has had. -/
inductive Phase (c : Config) (mem : WordAdr → TWord) (A : Arch) (s : State) : List Event → Prop
  | init (state : s.r.e.state = .init) (units : UnitsIdle s) : Phase c mem A s []
  | aluWb (op : (A.decode c mem).exOp = .alu) (state : s.r.e.state = .aluWb)
      (res : s.r.e.wbResult = A.result c mem) (units : UnitsIdle s) :
      Phase c mem A s (flagEvents A.sr (A.flags c mem))
  | jump (op : (A.decode c mem).exOp = .jump) (state : s.r.e.state = .jump)
      (res : s.r.e.wbResult = A.result c mem) (units : UnitsIdle s) :
      Phase c mem A s (writeEvents (A.written c mem 0))
  | memStall (op : (A.decode c mem).exOp = .ls) (state : s.r.e.state = .lsMemStall)
      (res : s.r.e.wbResult = A.result c mem) (units : UnitsIdle s) : Phase c mem A s []
  | loadMem (op : (A.decode c mem).exOp = .ls) (load : (A.decode c mem).memLsuLoad = true)
      (state : s.r.e.state = .loadMem) (units : UnitsIdle s) :
      Phase c mem A s (requestEvents (A.decode c mem) (A.result c mem))
  | lsWb (op : (A.decode c mem).exOp = .ls) (load : (A.decode c mem).memLsuLoad = false)
      (state : s.r.e.state = .lsWb) (units : UnitsIdle s) :
      Phase c mem A s (requestEvents (A.decode c mem) (A.result c mem))
  | shiftStall (op : (A.decode c mem).exOp = .shift) (state : s.r.e.state = .shiftStall)
      (impl : c.shiftImpl = 0) (counting : s.shft.counting = true)
      (val : s.shft.shftVal = Exu.Shift.shifted (A.decode c mem).aluIn1 s.shft.shftCnt.toNat
        (A.decode c mem).exShiftMode)
      (cnt : s.shft.shftCnt.toNat ≤ ((A.decode c mem).aluIn2.extractLsb' 0 5).toNat)
      (mul : s.mul.counting = false ∧ s.mul.mulCnt = 0) : Phase c mem A s []
  | shiftWb (op : (A.decode c mem).exOp = .shift) (state : s.r.e.state = .shiftWb)
      (res : s.r.e.wbResult = A.result c mem) (units : UnitsIdle s) : Phase c mem A s []
  | mulStall (op : (A.decode c mem).exOp = .mul) (state : s.r.e.state = .mulStall)
      (counting : s.mul.counting = true) (pos : 0 < s.mul.mulCnt)
      (cnt : s.mul.mulCnt ≤ c.mulStages)
      (pipe : ∀ n < s.mul.mulCnt,
        (s.mul.pipeRegs n).setWidth 32 = (A.decode c mem).aluIn1 * (A.decode c mem).aluIn2)
      (shft : s.shft.counting = false ∧ s.shft.shftCnt = 0) : Phase c mem A s []
  | mulWb (op : (A.decode c mem).exOp = .mul) (state : s.r.e.state = .mulWb)
      (res : s.r.e.wbResult = A.result c mem) (units : UnitsIdle s) : Phase c mem A s []

/-- The unit executes the instruction at `A`. -/
structure Busy (c : Config) (mem : WordAdr → TWord) (A : Arch) (o : Observed) (es : List Event) :
    Prop where
  plain : Plain (A.decode c mem)
  d : o.s.r.d = A.decode c mem
  xc : o.s.r.x.state = .init
  sr : o.s.spr.sr = if o.s.r.e.state = .init then A.sr else A.flags c mem
  rf : o.s.rf = if o.s.r.e.state = .jump then (A.exec c mem 0).rf else A.rf
  pc : o.stream.pc = A.following
  target : o.stream.target = none
  last : o.stream.last ≠ none
  slot : o.s.r.fInDelaySlot = decide ((A.decode c mem).exOp = .jump)
  loads : A.loads = o.loaded.length
  phase : Phase c mem A o.s es

/-- In this cycle the effects of the instructions before `A` are complete. -/
structure Ready (c : Config) (A : Arch) (o : Observed) (i : In) : Prop where
  nexti : exNexti o.s.r i = true
  state : nextState c o.s.r i (shfto c o.s i) (mulo c o.s) = .init
  xc : o.s.r.x.state = .init
  plain : (detected o.s.r o.s.spr i).id = 0
  rfe : exRfeJump o.s.r i = false ∧ exSkipDelaySlot o.s.r = false
  sr : o.s.spr.sr = A.sr
  srNext : (step c o.s i).spr.sr = A.sr
  rf : (step c o.s i).rf = A.rf
  pc : o.stream.pc = A.pc
  target : A.target = if exJump o.s.r then some o.s.r.e.wbResult else o.stream.target
  slot : o.s.r.fInDelaySlot = A.target.isSome
  units : UnitsIdle (step c o.s i)
  loads : A.loads = (o.step c i).loaded.length

/-- Nothing is executed, and all effects before `A` are complete. -/
structure Waiting (A : Arch) (o : Observed) : Prop where
  bubble : Bubble o.s.r.d
  state : o.s.r.e.state = .init
  xc : o.s.r.x.state = .init
  sr : o.s.spr.sr = A.sr
  rf : o.s.rf = A.rf
  pc : o.stream.pc = A.pc
  target : o.stream.target = A.target
  slot : o.s.r.fInDelaySlot = A.target.isSome
  units : UnitsIdle o.s
  loads : A.loads = o.loaded.length

-- ---------------------------------------------------------------------------
-- Taking the next instruction
-- ---------------------------------------------------------------------------

section Next

variable {c : Config} {mem : WordAdr → TWord} {A : Arch} {o : Observed} {i : In}

theorem Ready.xcAssert (h : Ready c A o i) : xcAssert o.s.r o.s.spr i = false := by
  simp only [Mexu.xcAssert, h.xc, h.plain, bne_self_eq_false]

theorem Ready.nextXc (h : Ready c A o i) : (nextXc o.s.r o.s.spr i).state = .init := by
  simp only [Mexu.nextXc, h.xc, h.plain, bne_self_eq_false, Bool.false_eq_true, if_false]

theorem Ready.invalid (h : Ready c A o i) :
    idNextiInvalid o.s.r o.s.spr i = (!i.ifuo.irValid || exJump o.s.r) := by
  simp only [idNextiInvalid, h.xcAssert, h.rfe.2, Bool.or_false]

theorem Ready.ifui (h : Ready c A o i) : ifui o.s.r o.s.spr i =
    ⟨i.ifuo.irValid && !exJump o.s.r, exJump o.s.r, o.s.r.e.wbResult⟩ := by
  have hx := xcJump_init h.xc
  have hd : xcSkipDelaySlot o.s.r = false := by rw [xcSkipDelaySlot, h.xc]; rfl
  simp only [Mexu.ifui, h.invalid, hx, hd, h.rfe.1, h.rfe.2, h.nexti, Bool.false_or, Bool.true_and,
    Bool.false_eq_true, if_false]
  cases i.ifuo.irValid <;> cases exJump o.s.r <;> rfl

theorem operands_reg (o : Decoded) (ir : TWord) :
    operands c o ir (A.reg o.rselA) (A.reg o.rselB) =
      operands c o ir (A.rf o.rselA) (A.rf o.rselB) := by
  unfold operands Arch.reg
  split_ifs <;> rfl

/-- The next instruction is decoded with all that the earlier ones left. -/
theorem Ready.decoded (h : Ready c A o i) (henv : Env mem o i)
    (hn : (Mexu.ifui o.s.r o.s.spr i).nexti = true) :
    (step c o.s i).r.d = A.decode c mem ∧
      (step c o.s i).r.fInDelaySlot = (decodeOp (mem (wordOf A.pc)) A.sr).nextInDelaySlot := by
  rw [h.ifui] at hn
  obtain ⟨hv, hj⟩ : i.ifuo.irValid = true ∧ exJump o.s.r = false := by simpa using hn
  have hinv : idNextiInvalid o.s.r o.s.spr i = false := by rw [h.invalid, hv, hj]; rfl
  have hir : i.ifuo.ir = mem (wordOf A.pc) := (henv.ir hv).trans (congrArg (mem ∘ wordOf) h.pc)
  have hpc : i.ifuo.pc = A.pc := (henv.pc hv).trans h.pc
  have hd : Mexu.decoded o.s.r o.s.spr i =
      let ir := mem (wordOf A.pc)
      let q := decodeOp ir A.sr
      { q with
        d := { q.d with
          pc := A.pc
          inDelaySlot := A.target.isSome
          memLsuWidth := lsuWidth ir q.d.memLsuLoad } } := by
    rw [Mexu.decoded, hinv, insnDecode, hir, hpc, h.sr, h.slot]
    rfl
  constructor
  · have hrd : ∀ a, rfo c o.s i a = A.rf a := fun a => (rfo_eq a).trans (congrFun h.rf a)
    rw [Arch.decode, operands_reg, ← hd, ← hir, ← hrd, ← hrd]
    exact if_pos h.nexti
  · simp only [step, next, h.nexti, if_true, hd]

/-- If an instruction is taken, it is the one at `A`; else there is a bubble. -/
theorem Ready.next (h : Ready c A o i) (henv : Env mem o i) :
    if (Mexu.ifui o.s.r o.s.spr i).nexti then
      i.ifuo.pc = A.pc ∧ Busy c mem A (o.step c i) []
    else Waiting A (o.step c i) := by
  have hstate : (step c o.s i).r.e.state = .init := h.state
  have hxc : (step c o.s i).r.x.state = .init := by
    simp only [step, Mexu.next]
    split <;> exact h.nextXc
  split_ifs with hn
  · obtain ⟨hd, hslot⟩ := h.decoded henv hn
    have hcov := henv.covered hn
    rw [h.ifui] at hn
    obtain ⟨hv, hj⟩ : i.ifuo.irValid = true ∧ exJump o.s.r = false := by simpa using hn
    have hir : i.ifuo.ir = mem (wordOf A.pc) := (henv.ir hv).trans (congrArg (mem ∘ wordOf) h.pc)
    rw [hir] at hcov
    obtain ⟨hplain, hnext⟩ := decodeOp_plain hcov A.sr
    have htgt : A.target = o.stream.target := by rw [h.target, hj]; rfl
    have hst : (o.step c i).stream = o.stream.consume i.ifuo.ir := by
      simp only [Observed.step, h.ifui, Stream.step, hv, hj, Bool.not_false, Bool.and_self, if_true,
        Bool.false_eq_true, if_false]
    refine ⟨(henv.pc hv).trans h.pc, ?_⟩
    exact
      { plain := ⟨hplain.illOp, hplain.sys, hplain.trap, hplain.halt, hplain.flush, hplain.adc,
          hplain.selects⟩
        d := hd
        xc := hxc
        sr := by rw [show (o.step c i).s.r.e.state = .init from hstate, if_pos rfl]; exact h.srNext
        rf := by
          rw [show (o.step c i).s.r.e.state = .init from hstate, if_neg (by decide)]; exact h.rf
        pc := by rw [hst, Arch.following, htgt, ← h.pc]; rfl
        target := by rw [hst]; rfl
        last := by rw [hst]; simp [Stream.consume]
        slot := hslot.trans hnext
        loads := h.loads
        phase := .init hstate h.units }
  · have hinv : idNextiInvalid o.s.r o.s.spr i = true := by
      rw [h.ifui] at hn
      rw [h.invalid]
      cases hv : i.ifuo.irValid <;> cases hj : exJump o.s.r <;> simp [hv, hj] at hn ⊢
    have hst : (o.step c i).stream = if exJump o.s.r then
        { o.stream with target := some o.s.r.e.wbResult } else o.stream := by
      rw [h.ifui] at hn
      simp only [Observed.step, h.ifui, Stream.step, hn, Bool.false_eq_true, if_false]
    have hd : (step c o.s i).r.d = operands c (insnDecode o.s.r o.s.spr i.ifuo true) i.ifuo.ir
        (rfo c o.s i (insnDecode o.s.r o.s.spr i.ifuo true).rselA)
        (rfo c o.s i (insnDecode o.s.r o.s.spr i.ifuo true).rselB) := by
      simp only [step, Mexu.next, h.nexti, if_true, Mexu.decoded, hinv]
    exact
      { bubble := by
          rw [show (o.step c i).s.r.d = _ from hd]
          exact ⟨rfl, rfl, rfl, rfl, rfl, rfl, rfl⟩
        state := hstate
        xc := hxc
        sr := h.srNext
        rf := h.rf
        pc := by rw [hst]; split <;> exact h.pc
        target := by rw [hst, h.target]; split <;> rfl
        slot := by
          have hs : (step c o.s i).r.fInDelaySlot = o.s.r.fInDelaySlot := by
            simp only [step, Mexu.next, h.nexti, if_true, Mexu.decoded, hinv]
            rfl
          exact hs.trans h.slot
        units := h.units
        loads := h.loads }

/-- A bubble has no effect, and the next instruction can be taken at once. -/
theorem Waiting.ready (h : Waiting A o) (henv : Env mem o i) :
    Ready c A o i ∧ cycleEffects c o.s i = [] ∧ (o.step c i).loaded = o.loaded := by
  have hu : Usual o.s.r.e.state := by rw [h.state]; trivial
  have hne : o.s.r.e.state ≠ .lsMemStall := by rw [h.state]; decide
  have hsr : (nextSpr c o.s.r o.s.spr i).sr = o.s.spr.sr := by
    rw [nextSpr_sr (xcJump_init h.xc) hu.not_spr (by rw [h.bubble.nop]; decide), aluFlags_quiet h.bubble.quiet]
  have hw : rfWrite c o.s i = none := by
    apply rfWrite_none
    rw [exRfWrite, h.state, h.bubble.nop]
    simp
  have hl : (o.step c i).loaded = o.loaded := by
    simp only [Observed.step, h.state]
    rfl
  refine ⟨?_, ?_, hl⟩
  · exact
      { nexti := by rw [exNexti, h.state, h.bubble.nop, h.bubble.halt, henv.duStall]; rfl
        state := by simp only [nextState, h.state, h.bubble.nop, henv.duStall]; rfl
        xc := h.xc
        plain := detected_none h.bubble.illOp h.bubble.sys h.bubble.trap henv.alignErr
        rfe := by simp [exRfeJump, exSkipDelaySlot, h.state, h.bubble.nop]
        sr := h.sr
        srNext := hsr.trans h.sr
        rf := by rw [step_rf, hw]; exact h.rf
        pc := h.pc
        target := by simp [exJump, h.state, h.target]
        slot := h.slot
        units := units_idle h.units (shfti_start (.inr (.inl (by rw [h.bubble.nop]; decide))))
          (muli_start (.inr (by rw [h.bubble.nop]; decide)))
        loads := by rw [hl]; exact h.loads }
  · simp only [cycleEffects, hsr, flagEvents, if_true, lsuRequest_none hne hu, ite_self, hw,
      writeEvents, List.append_nil]

end Next

-- ---------------------------------------------------------------------------
-- One cycle of an instruction
-- ---------------------------------------------------------------------------

section Step

variable {c : Config} {mem : WordAdr → TWord} {A : Arch} {o : Observed} {i : In} {es : List Event}

theorem Phase.usual {s : State} (h : Phase c mem A s es) : Usual s.r.e.state := by
  cases h <;> (rename_i h; try rw [‹s.r.e.state = _›]; trivial)

theorem Busy.detected (h : Busy c mem A o es) (henv : Env mem o i) :
    (detected o.s.r o.s.spr i).id = 0 :=
  detected_none (h.d ▸ h.plain.illOp) (h.d ▸ h.plain.sys) (h.d ▸ h.plain.trap) henv.alignErr

theorem Plain.not_rfe {d : DecodeReg} (h : Plain d) : d.exOp ≠ .rfe := by
  intro hop
  have hs := h.selects
  simp only [Selects, hop] at hs

/-- Only `alu` instructions change flags. -/
theorem Plain.quiet {d : DecodeReg} (h : Plain d) (hop : d.exOp ≠ .alu) : Quiet d := by
  have hs := h.selects
  unfold Selects at hs
  cases hd : d.exOp with
  | alu => exact absurd hd hop
  | setspr | rfe => rw [hd] at hs; exact hs.elim
  | nop | jump | shift | mul | ls => rw [hd] at hs; exact hs.1

theorem Busy.flags_quiet (h : Busy c mem A o es) (hop : (A.decode c mem).exOp ≠ .alu) :
    A.flags c mem = A.sr :=
  aluFlags_quiet (h.plain.quiet hop) _ _

theorem Busy.nextSr (h : Busy c mem A o es) :
    (nextSpr c o.s.r o.s.spr i).sr = A.flags c mem := by
  rw [nextSpr_sr (xcJump_init h.xc) h.phase.usual.not_spr (h.d ▸ h.plain.not_rfe), h.d, h.sr]
  split
  · rfl
  · exact aluFlags_again h.plain.adc A.sr

/-- Flags are set in the first cycle. -/
theorem Busy.flagEvents_eq (h : Busy c mem A o es) :
    flagEvents o.s.spr.sr (nextSpr c o.s.r o.s.spr i).sr =
      if o.s.r.e.state = .init then flagEvents A.sr (A.flags c mem) else [] := by
  rw [h.nextSr, h.sr]
  split
  · rfl
  · exact if_pos rfl

theorem Busy.effects_eq (h : Busy c mem A o es) : cycleEffects c o.s i =
    (if o.s.r.e.state = .init then flagEvents A.sr (A.flags c mem) else []) ++
      (if i.lsuo.ack = true ∧ o.s.r.e.state = .lsMemStall then
        requestEvents (A.decode c mem) o.s.r.e.wbResult else []) ++
      writeEvents (rfWrite c o.s i) := by
  rw [cycleEffects, h.flagEvents_eq]
  congr 2
  by_cases hs : o.s.r.e.state = .lsMemStall
  · rw [lsuRequest_eq hs (h.d ▸ h.plain.flush), h.d]
    simp [hs]
  · rw [lsuRequest_none hs h.phase.usual]
    simp [hs]

/-- The instruction goes on. -/
theorem Busy.goesOn (h : Busy c mem A o es) (hn : exNexti o.s.r i = false)
    (hjump : o.s.r.e.state ≠ .jump) (hload : o.s.r.e.state ≠ .loadMem)
    (hinit : (step c o.s i).r.e.state ≠ .init)
    (hrf : (step c o.s i).rf =
      if (step c o.s i).r.e.state = .jump then (A.exec c mem 0).rf else A.rf)
    (henv : Env mem o i) {es' : List Event} (hphase : Phase c mem A (step c o.s i) es') :
    Busy c mem A (o.step c i) es' ∧ (ifui o.s.r o.s.spr i).nexti = false ∧
      (o.step c i).loaded = o.loaded ∧ (o.step c i).s.r.e.state ≠ .init := by
  have hx := xcJump_init h.xc
  have hk : xcSkipDelaySlot o.s.r = false := by rw [xcSkipDelaySlot, h.xc]; rfl
  have hj : exJump o.s.r = false := beq_eq_false_iff_ne.mpr hjump
  have hu := h.phase.usual
  have hk' : exSkipDelaySlot o.s.r = false := by
    refine beq_eq_false_iff_ne.mpr fun hr => ?_
    rw [hr] at hu
    exact hu
  have hr : exRfeJump o.s.r i = false := by simp [exRfeJump, h.d, h.plain.not_rfe]
  have hnexti : (ifui o.s.r o.s.spr i).nexti = false := by simp only [ifui, hk, hk', hn]; rfl
  have hjmp : (ifui o.s.r o.s.spr i).jump = false := by simp only [ifui, hx, hr, hj]; rfl
  have hst : (o.step c i).stream = o.stream := by
    simp only [Observed.step, Stream.step, hnexti, hjmp, Bool.false_eq_true, if_false]
  have hl : (o.step c i).loaded = o.loaded := if_neg hload
  refine ⟨?_, hnexti, hl, hinit⟩
  exact
    { plain := h.plain
      d := by
        rw [← h.d]
        exact if_neg (by rw [hn]; decide)
      xc := by
        have hnx : (nextXc o.s.r o.s.spr i) = o.s.r.x := by
          simp only [nextXc, h.xc, h.detected henv, bne_self_eq_false, Bool.false_eq_true, if_false]
        simp only [Observed.step, step, next, hn, hnx, Bool.false_and, Bool.false_eq_true, if_false]
        exact h.xc
      sr := h.nextSr.trans (if_neg hinit).symm
      rf := hrf
      pc := by rw [hst]; exact h.pc
      target := by rw [hst]; exact h.target
      last := by rw [hst]; exact h.last
      slot := by
        rw [← h.slot]
        exact if_neg (by rw [hn]; decide)
      loads := by rw [hl]; exact h.loads
      phase := hphase }

/-- The instruction has its last cycle. -/
theorem Busy.ends (h : Busy c mem A o es) (henv : Env mem o i) (hn : exNexti o.s.r i = true)
    (hfirst : o.s.r.e.state = .init → (A.decode c mem).exOp = .nop)
    (hstate : nextState c o.s.r i (shfto c o.s i) (mulo c o.s) = .init)
    (hjump : (A.decode c mem).exOp = .jump ↔ o.s.r.e.state = .jump)
    (hres : o.s.r.e.state = .jump → o.s.r.e.wbResult = A.result c mem)
    (hunits : UnitsIdle (step c o.s i)) {data : TWord}
    (hrf : (step c o.s i).rf = (A.exec c mem data).rf)
    (hloaded : (o.step c i).loaded =
      o.loaded ++ if (A.decode c mem).memLsuLoad then [data] else []) :
    Ready c (A.exec c mem data) o i where
  nexti := hn
  state := hstate
  xc := h.xc
  plain := h.detected henv
  rfe := by
    have hu := h.phase.usual
    refine ⟨by simp [exRfeJump, h.d, h.plain.not_rfe], beq_eq_false_iff_ne.mpr fun hr => ?_⟩
    rw [hr] at hu
    exact hu
  sr := by
    rw [h.sr]
    split_ifs with hs
    · exact (h.flags_quiet (by rw [hfirst hs]; decide)).symm
    · rfl
  srNext := h.nextSr
  rf := hrf
  pc := h.pc
  target := by
    by_cases hs : o.s.r.e.state = .jump
    · rw [Arch.exec, if_pos (hjump.mpr hs), exJump, hs, hres hs]
      rfl
    · rw [Arch.exec, if_neg fun ho => hs (hjump.mp ho), exJump, beq_eq_false_iff_ne.mpr hs, h.target]
      rfl
  slot := by
    rw [h.slot, Arch.exec]
    by_cases ho : (A.decode c mem).exOp = .jump
    · simp [ho]
    · simp [ho]
  units := hunits
  loads := by
    rw [hloaded, Arch.exec, h.loads, List.length_append]
    cases (A.decode c mem).memLsuLoad <;> rfl

/-- What a cycle does to an instruction with the effects `es`. -/
def Outcome (c : Config) (mem : WordAdr → TWord) (A : Arch) (o : Observed) (i : In)
    (es : List Event) : Prop :=
  (Busy c mem A (o.step c i) (es ++ cycleEffects c o.s i) ∧
    (ifui o.s.r o.s.spr i).nexti = false ∧ (o.step c i).loaded = o.loaded ∧
    (o.step c i).s.r.e.state ≠ .init) ∨
  ∃ data, Ready c (A.exec c mem data) o i ∧
    es ++ cycleEffects c o.s i = A.effects c mem data ∧
    (o.step c i).loaded = o.loaded ++ if (A.decode c mem).memLsuLoad then [data] else []

/-- What is written, with the selectors of the instruction. -/
theorem rfWrite_eq {c : Config} {s : State} {i : In} : rfWrite c s i =
    if exRfWrite s.r i then some ((rfi c s.r s.spr i).wrAddr, (rfi c s.r s.spr i).wrData)
    else none := rfl

theorem flagEvents_self (sr : TWord) : flagEvents sr sr = [] := if_pos rfl

theorem Arch.rf_of_written {A : Arch} {s : State} {data : TWord} (hw : rfWrite c s i = A.written c mem data)
    (hrf : s.rf = A.rf) : (Mexu.step c s i).rf = (A.exec c mem data).rf := by
  rw [step_rf, hw, hrf, Arch.exec]

theorem Arch.rf_of_none {A : Arch} {s : State} (hw : rfWrite c s i = none)
    (hrf : s.rf = A.rf) : (Mexu.step c s i).rf = A.rf := by
  rw [step_rf, hw, hrf]
  rfl

/-- The first cycle of an instruction that goes on and writes no register meanwhile. -/
theorem Busy.init_goesOn (h : Busy c mem A o []) (henv : Env mem o i)
    (hs : o.s.r.e.state = .init) (hnop : (A.decode c mem).exOp ≠ .nop)
    (hjump : (A.decode c mem).exOp ≠ .jump)
    (hnext : (step c o.s i).r.e.state ≠ .init ∧ (step c o.s i).r.e.state ≠ .jump)
    (hphase : Phase c mem A (step c o.s i) (flagEvents A.sr (A.flags c mem))) :
    Outcome c mem A o i [] := by
  have hw : rfWrite c o.s i = none := rfWrite_none (by simp [exRfWrite, hs, h.d, hjump])
  have hn : exNexti o.s.r i = false := by simp [exNexti, hs, h.d, hnop]
  have hrf : o.s.rf = A.rf := by rw [h.rf, if_neg (by rw [hs]; decide)]
  left
  have hev : cycleEffects c o.s i = flagEvents A.sr (A.flags c mem) := by
    rw [h.effects_eq, hs, hw, if_pos rfl, if_neg (by rintro ⟨-, ⟨⟩⟩)]
    simp only [writeEvents, List.append_nil]
  rw [hev]
  exact h.goesOn hn (by rw [hs]; decide) (by rw [hs]; decide) hnext.1
    (by rw [if_neg hnext.2]; exact Arch.rf_of_none hw hrf) henv hphase

theorem Busy.nextState_init (hs : o.s.r.e.state = .init) (henv : Env mem o i) :
    (step c o.s i).r.e.state =
      match o.s.r.d.exOp with
      | .jump => .jump
      | .ls => .lsMemStall
      | .alu => .aluWb
      | .shift => if c.shiftImpl = 0 then .shiftStall else .shiftWb
      | .mul => .mulStall
      | .setspr => .sprWb1
      | .rfe => .rfe
      | .nop => .init := by
  have hnext : (step c o.s i).r.e.state = nextState c o.s.r i (shfto c o.s i) (mulo c o.s) := rfl
  rw [hnext, nextState, hs]
  exact if_neg (by rw [henv.duStall]; decide)

theorem exResult_alu {c : Config} {r : Registers} {spr : Spr} (h : r.d.exResSel = .alu)
    (x : Exu.ShiftOut) (y : Exu.MulOut) : exResult c r spr x y = aluRes c r.d spr.sr := by
  rw [exResult, h]

theorem Busy.wbResult (h : Busy c mem A o es) (hsr : o.s.spr.sr = A.sr)
    (hsel : (A.decode c mem).exResSel = .alu ∨ (A.decode c mem).exResSel = .reg) :
    (step c o.s i).r.e.wbResult = A.result c mem := by
  simp only [step, next, exResult, Arch.result, result, h.d, hsr]
  rcases hsel with hsel | hsel <;> rw [hsel]

theorem Busy.step_init (h : Busy c mem A o []) (henv : Env mem o i) (hstages : 1 ≤ c.mulStages)
    (hs : o.s.r.e.state = .init) (hu : UnitsIdle o.s) : Outcome c mem A o i [] := by
  have hnext := Busy.nextState_init (c := c) hs henv
  have hsr : o.s.spr.sr = A.sr := by rw [h.sr, if_pos hs]
  have hrf : o.s.rf = A.rf := by rw [h.rf, if_neg (by rw [hs]; decide)]
  have hsel := h.plain.selects
  have hflags : (A.decode c mem).exOp ≠ .alu → flagEvents A.sr (A.flags c mem) = [] :=
    fun hop => (h.flags_quiet hop).symm ▸ flagEvents_self A.sr
  rw [h.d] at hnext
  have hunits : (A.decode c mem).exOp ≠ .shift → (A.decode c mem).exOp ≠ .mul →
      UnitsIdle (step c o.s i) := fun hsh hmu =>
    units_idle hu (shfti_start (.inr (.inl (h.d ▸ hsh)))) (muli_start (.inr (h.d ▸ hmu)))
  cases hop : (A.decode c mem).exOp with
  | nop =>
    simp only [Selects, hop] at hnext hsel
    obtain ⟨-, hlink, hload, hstore, hset⟩ := hsel
    have hw : A.written c mem 0 = none := by simp [Arch.written, written, hlink, hload, hset]
    have hw' : rfWrite c o.s i = none := rfWrite_none (by simp [exRfWrite, hs, h.d, hop])
    have hl : (o.step c i).loaded = o.loaded := if_neg (by rw [hs]; decide)
    refine .inr ⟨0, h.ends henv ?_ (fun _ => hop) hnext (by simp [hop, hs]) (by simp [hs])
      (hunits (by simp [hop]) (by simp [hop])) (Arch.rf_of_written (hw'.trans hw.symm) hrf) ?_, ?_, ?_⟩
    · simp [exNexti, hs, h.d, hop, henv.duStall, h.plain.halt]
    · simp [hl, hload]
    · rw [h.effects_eq, hs, hw', Arch.effects, hw, hflags (by simp [hop])]
      simp [requestEvents, hload, hstore]
    · simp [hl, hload]
  | jump =>
    simp only [Selects, hop] at hnext hsel
    obtain ⟨-, hnpc, hload, -, hset, hres⟩ := hsel
    have hw : rfWrite c o.s i = A.written c mem 0 := by
      rw [rfWrite_eq, Arch.written, written]
      cases hlink : (A.decode c mem).wbJumpLinked with
      | false => simp [exRfWrite, hs, h.d, hop, hlink, hload, hset]
      | true =>
        have hl : i.ifuo.npc = A.following + 4 := by
          rw [henv.npc h.last, h.target, h.pc]
          rfl
        simp [exRfWrite, hs, h.d, hop, hlink, henv.duStall, rfi, hnpc hlink, hl]
    have hev : cycleEffects c o.s i = writeEvents (A.written c mem 0) := by
      rw [h.effects_eq, hs, hw, hflags (by simp [hop])]
      simp
    left
    rw [hev]
    refine h.goesOn ?_ (by simp [hs]) (by simp [hs]) (by simp [hnext]) ?_ henv
      (.jump hop hnext (h.wbResult hsr hres) (hunits (by simp [hop]) (by simp [hop])))
    · simp [exNexti, hs, h.d, hop]
    · rw [if_pos hnext]
      exact Arch.rf_of_written hw hrf
  | alu =>
    simp only [Selects, hop] at hnext hsel
    refine h.init_goesOn henv hs (by simp [hop]) (by simp [hop]) (by simp [hnext]) ?_
    exact .aluWb hop hnext (h.wbResult hsr (.inl hsel.1)) (hunits (by simp [hop]) (by simp [hop]))
  | ls =>
    simp only [Selects, hop] at hnext hsel
    refine h.init_goesOn henv hs (by simp [hop]) (by simp [hop]) (by simp [hnext]) ?_
    rw [hflags (by simp [hop])]
    exact .memStall hop hnext (h.wbResult hsr (.inl hsel.2.1))
      (hunits (by simp [hop]) (by simp [hop]))
  | shift =>
    simp only [Selects, hop] at hnext hsel
    have hmul : (muli o.s.r i).start = false := muli_start (.inr (by simp [h.d, hop]))
    have hm : (step c o.s i).mul.counting = false ∧ (step c o.s i).mul.mulCnt = 0 := by
      simp [step, Exu.Mul.next, hu.mul, hu.mulCnt, hmul]
    by_cases himpl : c.shiftImpl = 0
    · rw [if_pos himpl] at hnext
      have hstart : (shfti c o.s.r i).start = true := by
        simp [shfti, hs, h.d, hop, henv.duStall, himpl]
      have hshft : (step c o.s i).shft = ⟨true, 0, (A.decode c mem).aluIn1⟩ := by
        rw [← h.d, ← hu.shftCnt]
        simp only [step, Exu.Shift.next, hu.shft, hstart, Bool.false_eq_true, if_false, if_true]
        rfl
      refine h.init_goesOn henv hs (by simp [hop]) (by simp [hop]) (by simp [hnext]) ?_
      rw [hflags (by simp [hop])]
      refine .shiftStall hop hnext himpl (by rw [hshft]) ?_ (by rw [hshft]; exact Nat.zero_le _) hm
      rw [hshft]
      exact (Exu.Shift.shifted_zero _ _).symm
    · rw [if_neg himpl] at hnext
      refine h.init_goesOn henv hs (by simp [hop]) (by simp [hop]) (by simp [hnext]) ?_
      rw [hflags (by simp [hop])]
      refine .shiftWb hop hnext ?_ (units_idle hu (shfti_start (.inr (.inr himpl))) hmul)
      simp only [step, next, exResult, h.d, hsel.2.1, Arch.result, result]
      rw [shfto, Exu.Shift.out_dout himpl, shfti, h.d]
  | mul =>
    simp only [Selects, hop] at hnext hsel
    have hstart : (muli o.s.r i).start = true := by simp [muli, hs, h.d, hop, henv.duStall]
    have hmul : (step c o.s i).mul.counting = true ∧ (step c o.s i).mul.mulCnt = 1 ∧
        (step c o.s i).mul.pipeRegs 0 = Exu.Mul.multRes (muli o.s.r i) := by
      simp [step, Exu.Mul.next, hu.mul, hu.mulCnt, hstart]
    refine h.init_goesOn henv hs (by simp [hop]) (by simp [hop]) (by simp [hnext]) ?_
    rw [hflags (by simp [hop])]
    refine .mulStall hop hnext hmul.1 (by simp [hmul.2.1]) (by rw [hmul.2.1]; exact hstages) ?_ ?_
    · intro n hn
      obtain rfl : n = 0 := by omega
      rw [hmul.2.2, Exu.Mul.multRes_low, muli, h.d]
    · have hsh : (shfti c o.s.r i).start = false := shfti_start (.inr (.inl (by simp [h.d, hop])))
      simp [step, Exu.Shift.next, hu.shft, hu.shftCnt, hsh]
  | setspr | rfe =>
    simp only [Selects, hop] at hsel

theorem Busy.nextState_eq : (step c o.s i).r.e.state =
    nextState c o.s.r i (shfto c o.s i) (mulo c o.s) := rfl

/-- The last cycle of an instruction, after its first. -/
theorem Busy.ends_later (h : Busy c mem A o es) (data : TWord) (henv : Env mem o i)
    (hn : exNexti o.s.r i = true)
    (hinit : o.s.r.e.state ≠ .init) (hmem : o.s.r.e.state ≠ .lsMemStall)
    (hstate : nextState c o.s.r i (shfto c o.s i) (mulo c o.s) = .init)
    (hjump : (A.decode c mem).exOp = .jump ↔ o.s.r.e.state = .jump)
    (hres : o.s.r.e.state = .jump → o.s.r.e.wbResult = A.result c mem)
    (hunits : UnitsIdle o.s)
    (hrf : (step c o.s i).rf = (A.exec c mem data).rf)
    (hev : es ++ writeEvents (rfWrite c o.s i) = A.effects c mem data)
    (hloaded : (o.step c i).loaded =
      o.loaded ++ if (A.decode c mem).memLsuLoad then [data] else []) :
    Outcome c mem A o i es := by
  refine .inr ⟨data, h.ends henv hn (fun hs => absurd hs hinit) hstate hjump hres
    (units_idle hunits (shfti_start (.inl hinit)) (muli_start (.inl hinit))) hrf hloaded, ?_, hloaded⟩
  rw [h.effects_eq, if_neg hinit, if_neg fun ha => hmem ha.2]
  exact hev

/-- Write back of a result. -/
theorem Busy.rfWrite_result (h : Busy c mem A o es)
    (hw : exRfWrite o.s.r i = (A.decode c mem).wbSetRegD)
    (hlink : (A.decode c mem).wbJumpLinked = false) (hload : (A.decode c mem).memLsuLoad = false)
    (hsel : (A.decode c mem).wbWdataSel = .exRes) (hres : o.s.r.e.wbResult = A.result c mem) :
    rfWrite c o.s i = A.written c mem 0 := by
  rw [rfWrite_eq, Arch.written, written, hw, hlink, hload, rfi, h.d, hlink, hsel, hres]
  rfl

theorem Busy.rf_eq (h : Busy c mem A o es) (hs : o.s.r.e.state ≠ .jump) : o.s.rf = A.rf := by
  rw [h.rf, if_neg hs]

theorem Busy.step_wb (h : Busy c mem A o es) (henv : Env mem o i)
    (hs : o.s.r.e.state = .aluWb ∨ o.s.r.e.state = .shiftWb ∨ o.s.r.e.state = .mulWb)
    (hw : exRfWrite o.s.r i = (A.decode c mem).wbSetRegD)
    (hop : (A.decode c mem).exOp ≠ .jump)
    (hlink : (A.decode c mem).wbJumpLinked = false) (hload : (A.decode c mem).memLsuLoad = false)
    (hstore : (A.decode c mem).memLsuStore = false)
    (hsel : (A.decode c mem).wbWdataSel = .exRes) (hres : o.s.r.e.wbResult = A.result c mem)
    (hunits : UnitsIdle o.s) (hes : es = flagEvents A.sr (A.flags c mem)) :
    Outcome c mem A o i es := by
  have hwr := h.rfWrite_result hw hlink hload hsel hres
  have hjump : o.s.r.e.state ≠ .jump := by rcases hs with hs | hs | hs <;> simp [hs]
  have hl : (o.step c i).loaded = o.loaded := if_neg (by rcases hs with hs | hs | hs <;> simp [hs])
  refine h.ends_later 0 henv ?_ ?_ ?_ ?_ (iff_of_false hop hjump) (fun hj => absurd hj hjump)
    hunits (Arch.rf_of_written hwr (h.rf_eq hjump)) ?_ ?_
  · rcases hs with hs | hs | hs <;> simp [exNexti, hs]
  · rcases hs with hs | hs | hs <;> simp [hs]
  · rcases hs with hs | hs | hs <;> simp [hs]
  · rcases hs with hs | hs | hs <;> simp [nextState, hs]
  · rw [hwr, hes, Arch.effects]
    simp [requestEvents, hload, hstore]
  · simp [hl, hload]

theorem Busy.step_jump (h : Busy c mem A o (writeEvents (A.written c mem 0))) (henv : Env mem o i)
    (hop : (A.decode c mem).exOp = .jump) (hs : o.s.r.e.state = .jump)
    (hres : o.s.r.e.wbResult = A.result c mem) (hunits : UnitsIdle o.s) :
    Outcome c mem A o i (writeEvents (A.written c mem 0)) := by
  have hsel := h.plain.selects
  simp only [Selects, hop] at hsel
  obtain ⟨-, -, hload, hstore, -, -⟩ := hsel
  have hw : rfWrite c o.s i = none := rfWrite_none (by simp [exRfWrite, hs])
  have hl : (o.step c i).loaded = o.loaded := if_neg (by simp [hs])
  refine h.ends_later 0 henv (by simp [exNexti, hs]) (by simp [hs]) (by simp [hs])
    (by simp [nextState, hs]) (iff_of_true hop hs) (fun _ => hres) hunits ?_ ?_ ?_
  · rw [step_rf, hw, h.rf, if_pos hs]
    rfl
  · rw [hw, Arch.effects, h.flags_quiet (by simp [hop]), flagEvents_self]
    simp [requestEvents, hload, hstore, writeEvents]
  · simp [hl, hload]

/-- A request waits for its acknowledge. -/
theorem Busy.step_memStall (h : Busy c mem A o []) (henv : Env mem o i)
    (hop : (A.decode c mem).exOp = .ls) (hs : o.s.r.e.state = .lsMemStall)
    (hres : o.s.r.e.wbResult = A.result c mem) (hunits : UnitsIdle o.s) :
    Outcome c mem A o i [] := by
  have hsel := h.plain.selects
  simp only [Selects, hop] at hsel
  have hw : rfWrite c o.s i = none := rfWrite_none (by simp [exRfWrite, hs])
  have hn : exNexti o.s.r i = false := by simp [exNexti, hs]
  have hu := units_idle hunits (shfti_start (c := c) (i := i) (.inl (by simp [hs])))
    (muli_start (.inl (by simp [hs])))
  have hrf := Arch.rf_of_none hw (h.rf_eq (by simp [hs]))
  have hnext : (step c o.s i).r.e.state = if i.lsuo.ack then
      if (A.decode c mem).memLsuLoad then .loadMem else .lsWb else .lsMemStall := by
    simp [Busy.nextState_eq, nextState, hs, h.d, h.plain.flush, henv.alignErr]
  have hwb : (step c o.s i).r.e.wbResult = A.result c mem := by
    refine h.wbResult ?_ (.inl hsel.2.1)
    rw [h.sr, if_neg (by simp [hs]), h.flags_quiet (by simp [hop])]
  have hev : cycleEffects c o.s i =
      if i.lsuo.ack then requestEvents (A.decode c mem) (A.result c mem) else [] := by
    rw [h.effects_eq, hs, hw, hres]
    simp [writeEvents]
  left
  rw [hev]
  cases hack : i.lsuo.ack with
  | false =>
    rw [hack] at hnext
    exact h.goesOn hn (by simp [hs]) (by simp [hs]) (by simp [hnext]) (by simp [hnext, hrf]) henv
      (.memStall hop hnext hwb hu)
  | true =>
    rw [hack] at hnext
    cases hload : (A.decode c mem).memLsuLoad with
    | true =>
      rw [hload] at hnext
      exact h.goesOn hn (by simp [hs]) (by simp [hs]) (by simp [hnext]) (by simp [hnext, hrf]) henv
        (.loadMem hop hload hnext hu)
    | false =>
      rw [hload] at hnext
      exact h.goesOn hn (by simp [hs]) (by simp [hs]) (by simp [hnext]) (by simp [hnext, hrf]) henv
        (.lsWb hop hload hnext hu)

/-- The data of a load arrive in the cycle after the acknowledge. -/
theorem Busy.step_loadMem (h : Busy c mem A o (requestEvents (A.decode c mem) (A.result c mem)))
    (henv : Env mem o i) (hop : (A.decode c mem).exOp = .ls)
    (hload : (A.decode c mem).memLsuLoad = true) (hs : o.s.r.e.state = .loadMem)
    (hunits : UnitsIdle o.s) :
    Outcome c mem A o i (requestEvents (A.decode c mem) (A.result c mem)) := by
  have hsel := h.plain.selects
  simp only [Selects, hop] at hsel
  obtain ⟨-, -, hlink, -, hset, hdata⟩ := hsel
  have hw : rfWrite c o.s i = A.written c mem i.lsuo.rdata := by
    rw [rfWrite_eq, Arch.written, written, exRfWrite, hs, rfi, h.d, hlink, hset, hdata hload, hload]
    rfl
  refine h.ends_later i.lsuo.rdata henv (by simp [exNexti, hs]) (by simp [hs])
    (by simp [hs]) (by simp [nextState, hs]) (by simp [hop, hs]) (by simp [hs]) hunits
    (Arch.rf_of_written hw (h.rf_eq (by simp [hs]))) ?_ ?_
  · rw [hw, Arch.effects, h.flags_quiet (by simp [hop]), flagEvents_self]
    rfl
  · rw [hload]
    exact if_pos hs

theorem Busy.step_lsWb (h : Busy c mem A o (requestEvents (A.decode c mem) (A.result c mem)))
    (henv : Env mem o i) (hop : (A.decode c mem).exOp = .ls)
    (hload : (A.decode c mem).memLsuLoad = false) (hs : o.s.r.e.state = .lsWb)
    (hunits : UnitsIdle o.s) :
    Outcome c mem A o i (requestEvents (A.decode c mem) (A.result c mem)) := by
  have hsel := h.plain.selects
  simp only [Selects, hop] at hsel
  obtain ⟨-, -, hlink, -, hset, -⟩ := hsel
  have hw : rfWrite c o.s i = none := rfWrite_none (by simp [exRfWrite, hs])
  have hw' : A.written c mem 0 = none := by simp [Arch.written, written, hlink, hset, hload]
  have hl : (o.step c i).loaded = o.loaded := if_neg (by simp [hs])
  refine h.ends_later 0 henv (by simp [exNexti, hs]) (by simp [hs]) (by simp [hs])
    (by simp [nextState, hs]) (by simp [hop, hs]) (by simp [hs]) hunits
    (Arch.rf_of_written (hw.trans hw'.symm) (h.rf_eq (by simp [hs]))) ?_ (by simp [hl, hload])
  rw [hw, Arch.effects, h.flags_quiet (by simp [hop]), flagEvents_self, hw']
  rfl

/-- The count of the shift in the unit. -/
def shiftCount (d : DecodeReg) : BitVec 5 := d.aluIn2.extractLsb' 0 5

/-- The serial shifter shifts by one more place, or is ready. -/
theorem Busy.shift_next (h : Busy c mem A o es) (hs : o.s.r.e.state = .shiftStall)
    (himpl : c.shiftImpl = 0) (hcount : o.s.shft.counting = true) :
    shfto c o.s i = ⟨o.s.shft.shftVal, o.s.shft.shftCnt == shiftCount (A.decode c mem)⟩ ∧
      (step c o.s i).r.e.state =
        (if o.s.shft.shftCnt = shiftCount (A.decode c mem) then .shiftWb else .shiftStall) ∧
      (step c o.s i).shft =
        if o.s.shft.shftCnt = shiftCount (A.decode c mem) then ⟨false, 0, o.s.shft.shftVal⟩
        else ⟨true, o.s.shft.shftCnt + 1,
          Exu.Shift.shiftGeneric o.s.shft.shftVal 1 (A.decode c mem).exShiftMode⟩ := by
  have hout : shfto c o.s i =
      ⟨o.s.shft.shftVal, o.s.shft.shftCnt == shiftCount (A.decode c mem)⟩ := by
    rw [shfto, Exu.Shift.out, if_pos himpl, hcount, shfti, h.d]
    rfl
  refine ⟨hout, ?_, ?_⟩
  · simp [Busy.nextState_eq, nextState, hs, hout]
  · simp only [step, Exu.Shift.next, hcount, shfti, h.d, if_true]
    rfl

/-- The count after one more place. -/
theorem succ_toNat {n m : BitVec 5} (hle : n.toNat ≤ m.toNat) (hne : n ≠ m) :
    (n + 1).toNat = n.toNat + 1 ∧ n.toNat + 1 ≤ m.toNat := by
  have hlt := m.isLt
  have hne' : n.toNat ≠ m.toNat := fun heq => hne (BitVec.eq_of_toNat_eq heq)
  refine ⟨?_, by omega⟩
  rw [BitVec.toNat_add]
  exact Nat.mod_eq_of_lt (show n.toNat + 1 < 32 by omega)

theorem Busy.step_shiftStall (h : Busy c mem A o []) (henv : Env mem o i)
    (hop : (A.decode c mem).exOp = .shift) (hs : o.s.r.e.state = .shiftStall)
    (himpl : c.shiftImpl = 0) (hcount : o.s.shft.counting = true)
    (hval : o.s.shft.shftVal = Exu.Shift.shifted (A.decode c mem).aluIn1 o.s.shft.shftCnt.toNat
      (A.decode c mem).exShiftMode)
    (hcnt : o.s.shft.shftCnt.toNat ≤ ((A.decode c mem).aluIn2.extractLsb' 0 5).toNat)
    (hmul : o.s.mul.counting = false ∧ o.s.mul.mulCnt = 0) : Outcome c mem A o i [] := by
  have hsel := h.plain.selects
  simp only [Selects, hop] at hsel
  have hw : rfWrite c o.s i = none := rfWrite_none (by simp [exRfWrite, hs])
  have hn : exNexti o.s.r i = false := by simp [exNexti, hs]
  have hrf := Arch.rf_of_none hw (h.rf_eq (by simp [hs]))
  have hst : (muli o.s.r i).start = false := muli_start (.inl (by simp [hs]))
  have hm : (step c o.s i).mul.counting = false ∧ (step c o.s i).mul.mulCnt = 0 := by
    simp [step, Exu.Mul.next, hmul.1, hmul.2, hst]
  have hev : cycleEffects c o.s i = [] := by
    rw [h.effects_eq, hs, hw]
    simp [writeEvents]
  obtain ⟨hout, hnext, hshft⟩ := h.shift_next (i := i) hs himpl hcount
  left
  rw [hev]
  by_cases hlast : o.s.shft.shftCnt = shiftCount (A.decode c mem)
  · rw [if_pos hlast] at hnext hshft
    refine h.goesOn hn (by simp [hs]) (by simp [hs]) (by simp [hnext]) (by simp [hnext, hrf]) henv
      (.shiftWb hop hnext ?_ ⟨by rw [hshft], by rw [hshft], hm.1, hm.2⟩)
    simp only [step, next, exResult, h.d, hsel.2.1, Arch.result, result]
    rw [hout, hval, hlast]
    rfl
  · rw [if_neg hlast] at hnext hshft
    obtain ⟨hsucc, hle⟩ := succ_toNat hcnt hlast
    have hlt := (shiftCount (A.decode c mem)).isLt
    refine h.goesOn hn (by simp [hs]) (by simp [hs]) (by simp [hnext]) (by simp [hnext, hrf]) henv
      (.shiftStall hop hnext himpl (by rw [hshft]) ?_ (by rw [hshft, hsucc]; exact hle) hm)
    rw [hshft, hsucc, hval, Exu.Shift.shiftGeneric_eq, Exu.Shift.shifted_succ _ (by omega)]
    rfl

/-- The multiplier counts its stages. -/
theorem Busy.mul_next (hs : o.s.r.e.state = .mulStall) (hcount : o.s.mul.counting = true) :
    (step c o.s i).r.e.state =
        (if o.s.mul.mulCnt = c.mulStages then .mulWb else .mulStall) ∧
      (step c o.s i).mul.counting = decide (o.s.mul.mulCnt ≠ c.mulStages) ∧
      (step c o.s i).mul.mulCnt =
        if o.s.mul.mulCnt = c.mulStages then 0 else o.s.mul.mulCnt + 1 := by
  have hrdy : (mulo c o.s).rdy = decide (o.s.mul.mulCnt = c.mulStages) := by
    simp only [mulo, Exu.Mul.out, hcount, Bool.true_and]
    rfl
  refine ⟨by simp [Busy.nextState_eq, nextState, hs, hrdy], ?_, ?_⟩
  · by_cases hlast : o.s.mul.mulCnt = c.mulStages <;> simp [step, Exu.Mul.next, hcount, hlast]
  · simp [step, Exu.Mul.next, hcount]

/-- The product moves through the pipeline. -/
theorem Busy.step_mulStall (h : Busy c mem A o []) (henv : Env mem o i)
    (hop : (A.decode c mem).exOp = .mul) (hs : o.s.r.e.state = .mulStall)
    (hcount : o.s.mul.counting = true) (hpos : 0 < o.s.mul.mulCnt)
    (hcnt : o.s.mul.mulCnt ≤ c.mulStages)
    (hpipe : ∀ n < o.s.mul.mulCnt,
      (o.s.mul.pipeRegs n).setWidth 32 = (A.decode c mem).aluIn1 * (A.decode c mem).aluIn2)
    (hshft : o.s.shft.counting = false ∧ o.s.shft.shftCnt = 0) : Outcome c mem A o i [] := by
  have hsel := h.plain.selects
  simp only [Selects, hop] at hsel
  have hw : rfWrite c o.s i = none := rfWrite_none (by simp [exRfWrite, hs])
  have hn : exNexti o.s.r i = false := by simp [exNexti, hs]
  have hrf := Arch.rf_of_none hw (h.rf_eq (by simp [hs]))
  have hst : (shfti c o.s.r i).start = false := shfti_start (.inl (by simp [hs]))
  have hsh : (step c o.s i).shft.counting = false ∧ (step c o.s i).shft.shftCnt = 0 := by
    simp [step, Exu.Shift.next, hshft.1, hshft.2, hst]
  have hev : cycleEffects c o.s i = [] := by
    rw [h.effects_eq, hs, hw]
    simp [writeEvents]
  obtain ⟨hnext, hc, hk⟩ := Busy.mul_next (c := c) (i := i) hs hcount
  left
  rw [hev]
  by_cases hlast : o.s.mul.mulCnt = c.mulStages
  · rw [if_pos hlast] at hnext hk
    refine h.goesOn hn (by simp [hs]) (by simp [hs]) (by simp [hnext]) (by simp [hnext, hrf]) henv
      (.mulWb hop hnext ?_ ⟨hsh.1, hsh.2, by simp [hc, hlast], hk⟩)
    simp only [step, next, exResult, h.d, hsel.2.1, Arch.result, result]
    exact hpipe (c.mulStages - 1) (by omega)
  · rw [if_neg hlast] at hnext hk
    refine h.goesOn hn (by simp [hs]) (by simp [hs]) (by simp [hnext]) (by simp [hnext, hrf]) henv
      (.mulStall hop hnext (by simp [hc, hlast]) (by omega) (by omega) ?_ hsh)
    intro n hlt
    cases n with
    | zero =>
      simp only [step, Exu.Mul.next, if_true]
      rw [Exu.Mul.multRes_low, muli, h.d]
    | succ n =>
      simp only [step, Exu.Mul.next, Nat.succ_ne_zero, if_false, Nat.add_sub_cancel]
      exact hpipe n (by omega)

/-- One cycle of the instruction in the unit. -/
theorem Busy.outcome (h : Busy c mem A o es) (henv : Env mem o i) (hstages : 1 ≤ c.mulStages) :
    Outcome c mem A o i es := by
  have hsel := h.plain.selects
  cases h.phase with
  | init hs hu => exact h.step_init henv hstages hs hu
  | aluWb hop hs hres hu =>
    simp only [Selects, hop] at hsel
    obtain ⟨-, hwd, hlink, hload, hstore⟩ := hsel
    exact h.step_wb henv (.inl hs) (by simp [exRfWrite, hs, h.d]) (by simp [hop]) hlink hload hstore
      hwd hres hu rfl
  | jump hop hs hres hu => exact h.step_jump henv hop hs hres hu
  | memStall hop hs hres hu => exact h.step_memStall henv hop hs hres hu
  | loadMem hop hload hs hu => exact h.step_loadMem henv hop hload hs hu
  | lsWb hop hload hs hu => exact h.step_lsWb henv hop hload hs hu
  | shiftStall hop hs himpl hcount hval hcnt hmul =>
    exact h.step_shiftStall henv hop hs himpl hcount hval hcnt hmul
  | shiftWb hop hs hres hu =>
    simp only [Selects, hop] at hsel
    obtain ⟨-, -, hwd, hlink, hload, hstore, hset⟩ := hsel
    exact h.step_wb henv (.inr (.inl hs)) (by simp [exRfWrite, hs, hset]) (by simp [hop]) hlink
      hload hstore hwd hres hu
      (by rw [h.flags_quiet (by simp [hop]), flagEvents_self])
  | mulStall hop hs hcount hpos hcnt hpipe hshft =>
    exact h.step_mulStall henv hop hs hcount hpos hcnt hpipe hshft
  | mulWb hop hs hres hu =>
    simp only [Selects, hop] at hsel
    obtain ⟨-, -, hwd, hlink, hload, hstore, hset⟩ := hsel
    exact h.step_wb henv (.inr (.inr hs)) (by simp [exRfWrite, hs, hset]) (by simp [hop]) hlink
      hload hstore hwd hres hu
      (by rw [h.flags_quiet (by simp [hop]), flagEvents_self])

end Step

-- ---------------------------------------------------------------------------
-- Whole runs
-- ---------------------------------------------------------------------------

section Run

variable {c : Config} {mem : WordAdr → TWord} {A₀ A : Arch} {o : Observed} {i : In}

@[simp] theorem Arch.run_succ (data : List TWord) (n : ℕ) : A₀.run c mem data (n + 1) =
    ((A₀.run c mem data n).1.exec c mem (data.getD (A₀.run c mem data n).1.loads 0),
      (A₀.run c mem data n).2 ++ .insn (A₀.run c mem data n).1.pc ::
        (A₀.run c mem data n).1.effects c mem (data.getD (A₀.run c mem data n).1.loads 0)) := rfl

/-- Only loads depend on the data. -/
theorem Arch.data_irrelevant (h : (A.decode c mem).memLsuLoad = false) (x y : TWord) :
    A.exec c mem x = A.exec c mem y ∧ A.effects c mem x = A.effects c mem y := by
  have hw : A.written c mem x = A.written c mem y := by simp [Arch.written, Mexu.written, h]
  simp only [Arch.exec, Arch.effects, hw, and_self]

theorem Arch.loads_le (data : List TWord) (n : ℕ) :
    (A₀.run c mem data n).1.loads ≤ (A₀.run c mem data (n + 1)).1.loads :=
  Nat.le_add_right _ _

/-- Data that no load has asked for yet do not matter. -/
theorem Arch.run_append (data more : List TWord) {n : ℕ}
    (h : (A₀.run c mem data n).1.loads ≤ data.length) :
    A₀.run c mem (data ++ more) n = A₀.run c mem data n := by
  induction n with
  | zero => rfl
  | succ n ih =>
    have hn := ih (Nat.le_trans (Arch.loads_le data n) h)
    rw [Arch.run_succ, Arch.run_succ, hn]
    cases hl : ((A₀.run c mem data n).1.decode c mem).memLsuLoad with
    | false =>
      obtain ⟨hx, he⟩ := Arch.data_irrelevant hl
        ((data ++ more).getD (A₀.run c mem data n).1.loads 0)
        (data.getD (A₀.run c mem data n).1.loads 0)
      rw [hx, he]
    | true =>
      have hlt : (A₀.run c mem data n).1.loads < data.length := by
        rw [Arch.run_succ, Arch.exec, hl] at h
        exact h
      have hget : (data ++ more).getD (A₀.run c mem data n).1.loads 0 =
          data.getD (A₀.run c mem data n).1.loads 0 := by
        simp only [List.getD_eq_getElem?_getD, List.getElem?_append_left hlt]
      rw [hget]

/-- The run so far is the one of the instructions taken, the last of them perhaps unfinished. -/
inductive Agrees (c : Config) (mem : WordAdr → TWord) (A₀ : Arch) (o : Observed) : Prop
  | waiting (h : Waiting (A₀.run c mem o.loaded o.taken).1 o)
      (trace : o.trace = (A₀.run c mem o.loaded o.taken).2)
  | busy (n : ℕ) (taken : o.taken = n + 1) (es : List Event)
      (h : Busy c mem (A₀.run c mem o.loaded n).1 o es)
      (trace : o.trace =
        (A₀.run c mem o.loaded n).2 ++ .insn (A₀.run c mem o.loaded n).1.pc :: es)

/-- When all effects before `A` are complete, the next instruction is taken or awaited. -/
theorem Ready.agrees {n : ℕ} (h : Ready c A o i) (henv : Env mem o i) (htaken : o.taken = n)
    (hrun : A₀.run c mem (o.step c i).loaded n =
      (A, o.trace ++ cycleEffects c o.s i)) : Agrees c mem A₀ (o.step c i) := by
  have hnext := h.next henv
  split_ifs at hnext with hn
  · obtain ⟨hpc, hbusy⟩ := hnext
    refine .busy n ?_ [] (by rw [hrun]; exact hbusy) ?_
    · simp only [Observed.step, hn, htaken, Bool.toNat_true]
    · rw [hrun, ← hpc]
      simp only [Observed.step, cycleEvents, hn, if_true, List.append_assoc]
  · have ht : (o.step c i).taken = n := by
      simp only [Observed.step, hn, htaken]
      rfl
    refine .waiting ?_ ?_
    · rw [ht, hrun]
      exact hnext
    · rw [ht, hrun]
      simp only [Observed.step, cycleEvents, hn, Bool.false_eq_true, if_false, List.append_nil]

theorem Agrees.step (hstages : 1 ≤ c.mulStages) (h : Agrees c mem A₀ o) (henv : Env mem o i) :
    Agrees c mem A₀ (o.step c i) := by
  cases h with
  | waiting h htrace =>
    obtain ⟨hready, hev, hloaded⟩ := h.ready (c := c) henv
    refine hready.agrees henv rfl ?_
    rw [hloaded, hev, List.append_nil, htrace]
  | busy n htaken es h htrace =>
    rcases h.outcome henv hstages with ⟨hbusy, hn, hloaded, -⟩ | ⟨data, hready, hev, hloaded⟩
    · refine .busy n ?_ (es ++ cycleEffects c o.s i) (by rw [hloaded]; exact hbusy) ?_
      · simp only [Observed.step, hn, htaken]
        rfl
      · rw [hloaded]
        simp only [Observed.step, cycleEvents, hn, htrace, List.append_assoc, List.cons_append]
        simp
    · refine hready.agrees henv htaken ?_
      have hle : (A₀.run c mem o.loaded n).1.loads ≤ o.loaded.length := h.loads.le
      rw [hloaded, Arch.run_succ, Arch.run_append _ _ hle, htrace, List.append_assoc,
        List.cons_append, hev]
      cases hl : ((A₀.run c mem o.loaded n).1.decode c mem).memLsuLoad with
      | false =>
        obtain ⟨hx, he⟩ := Arch.data_irrelevant hl data
          ((o.loaded ++ []).getD (A₀.run c mem o.loaded n).1.loads 0)
        rw [hx, he]
        rfl
      | true =>
        simp [h.loads]

variable {s : State} {i : ℕ → In}

/-- Cycle `t` of a run from reset. -/
def observed (c : Config) (s : State) (i : ℕ → In) (t : ℕ) : Observed :=
  Lib.run (fun o i => Observed.step c i o) (Observed.reset s) i t

theorem agrees_reset (hr : IsReset s) : Agrees c mem (Arch.reset s) (Observed.reset s) :=
  .waiting ⟨hr.bubble, hr.state, hr.xc, rfl, rfl, rfl, rfl, hr.slot, hr.units, rfl⟩ rfl

theorem agrees_run (hstages : 1 ≤ c.mulStages) (hr : IsReset s)
    (henv : ∀ t, Env mem (observed c s i t) (i t)) (t : ℕ) :
    Agrees c mem (Arch.reset s) (observed c s i t) :=
  Lib.run_invariant (agrees_reset hr) (fun _ _ he ha => ha.step hstages he) henv t

/-- The effects of an instruction that changes no flag. -/
theorem Plain.effects_quiet (hp : Plain (A.decode c mem)) (hop : (A.decode c mem).exOp ≠ .alu)
    (data : TWord) : A.effects c mem data =
      requestEvents (A.decode c mem) (A.result c mem) ++ writeEvents (A.written c mem data) := by
  have hflags : A.flags c mem = A.sr := aluFlags_quiet (hp.quiet hop) _ _
  rw [Arch.effects, hflags, flagEvents_self, List.nil_append]

/-- An instruction had its effects in order. -/
theorem Phase.effects_prefix {s : State} {es : List Event} (h : Phase c mem A s es)
    (hp : Plain (A.decode c mem)) (data : TWord) : es <+: A.effects c mem data := by
  have hsel := hp.selects
  cases h with
  | init | memStall | shiftStall | shiftWb | mulStall | mulWb => exact List.nil_prefix
  | aluWb => exact (List.prefix_append _ _).trans (List.prefix_append _ _)
  | jump hop =>
    simp only [Selects, hop] at hsel
    obtain ⟨-, -, hload, hstore, -, -⟩ := hsel
    have hw : A.written c mem 0 = A.written c mem data := by simp [Arch.written, written, hload]
    rw [hp.effects_quiet (by simp [hop]), hw]
    simp [requestEvents, hload, hstore]
  | loadMem hop | lsWb hop =>
    rw [hp.effects_quiet (by simp [hop])]
    exact List.prefix_append _ _

/-- So is a request that waits for its acknowledge. -/
theorem Busy.request_prefix {es : List Event} (h : Busy c mem A o es) (data : TWord) :
    es ++ lsuRequest o.s <+: A.effects c mem data := by
  by_cases hs : o.s.r.e.state = .lsMemStall
  · cases h.phase with
    | memStall hop _ hres _ =>
      rw [lsuRequest_eq hs (h.d ▸ h.plain.flush), h.d, hres, h.plain.effects_quiet (by simp [hop])]
      exact List.prefix_append _ _
    | init hs' | aluWb _ hs' | jump _ hs' | loadMem _ _ hs' | lsWb _ _ hs' | shiftStall _ hs'
    | shiftWb _ hs' | mulStall _ hs' | mulWb _ hs' =>
      rw [hs] at hs'
      cases hs'
  · rw [lsuRequest_none hs h.phase.usual, List.append_nil]
    exact h.phase.effects_prefix h.plain data

/-- What was seen, and the request that waits, is what the instructions taken do one after the
other; all but the last of them have finished. -/
theorem Agrees.between (h : Agrees c mem A₀ o) :
    (A₀.run c mem o.loaded (o.taken - 1)).2 <+: o.trace ∧
      o.trace ++ lsuRequest o.s <+: (A₀.run c mem o.loaded o.taken).2 := by
  cases h with
  | waiting h htrace =>
    have hreq : lsuRequest o.s = [] :=
      lsuRequest_none (by rw [h.state]; decide) (by rw [h.state]; trivial)
    rw [hreq, htrace, List.append_nil]
    refine ⟨?_, List.prefix_refl _⟩
    cases o.taken with
    | zero => exact List.prefix_refl _
    | succ n => exact List.prefix_append _ _
  | busy n htaken es h htrace =>
    rw [htaken, htrace, Nat.add_sub_cancel]
    refine ⟨List.prefix_append _ _, ?_⟩
    rw [Arch.run_succ, List.append_assoc, List.prefix_append_right_inj, List.cons_append,
      List.cons_prefix_cons]
    exact ⟨rfl, h.request_prefix _⟩

-- ---------------------------------------------------------------------------
-- Every instruction comes to its end
-- ---------------------------------------------------------------------------

/-- A bound on the cycles an instruction still needs, waiting for the memory apart. -/
def remaining (c : Config) (s : State) : ℕ :=
  match s.r.e.state with
  | .init => 40 + c.mulStages
  | .lsMemStall => 1
  | .shiftStall => 33 - s.shft.shftCnt.toNat
  | .mulStall => 1 + c.mulStages - s.mul.mulCnt
  | _ => 0

theorem remaining_wb {s : State} (h : s.r.e.state = .shiftWb ∨ s.r.e.state = .mulWb) :
    remaining c s = 0 := by
  unfold remaining
  rcases h with h | h <;> rw [h]

theorem remaining_wait {s : State} (h : s.r.e.state = .lsMemStall) : remaining c s = 1 := by
  rw [remaining, h]

theorem remaining_le {s : State} (h : s.r.e.state ≠ .init) : remaining c s ≤ 33 + c.mulStages := by
  unfold remaining
  cases hs : s.r.e.state with
  | init => exact absurd hs h
  | _ => simp only; omega

theorem Busy.remaining_lt {i : In} {es : List Event} (h : Busy c mem A o es)
    (hgoes : (step c o.s i).r.e.state ≠ .init)
    (hack : o.s.r.e.state = .lsMemStall → i.lsuo.ack = true) :
    remaining c (step c o.s i) < remaining c o.s := by
  have hlast : nextState c o.s.r i (shfto c o.s i) (mulo c o.s) ≠ .init := hgoes
  cases h.phase with
  | init hs _ =>
    have hle := remaining_le (c := c) hgoes
    rw [show remaining c o.s = 40 + c.mulStages by rw [remaining, hs]]
    omega
  | aluWb _ hs | jump _ hs | loadMem _ _ hs | lsWb _ _ hs | shiftWb _ hs | mulWb _ hs =>
    exact absurd (by rw [nextState, hs]) hlast
  | memStall _ hs =>
    have hnext : (step c o.s i).r.e.state =
        if (A.decode c mem).memLsuLoad then .loadMem else .lsWb := by
      simp [Busy.nextState_eq, nextState, hs, h.d, h.plain.flush, hack hs]
    rw [remaining, hnext, remaining, hs]
    cases (A.decode c mem).memLsuLoad <;> exact Nat.zero_lt_one
  | shiftStall _ hs himpl hcount _ hcnt _ =>
    obtain ⟨-, hnext, hshft⟩ := h.shift_next (i := i) hs himpl hcount
    have hlt := (shiftCount (A.decode c mem)).isLt
    have hle : o.s.shft.shftCnt.toNat ≤ (shiftCount (A.decode c mem)).toNat := hcnt
    rw [show remaining c o.s = 33 - o.s.shft.shftCnt.toNat by rw [remaining, hs]]
    by_cases hl : o.s.shft.shftCnt = shiftCount (A.decode c mem)
    · rw [if_pos hl] at hnext
      rw [remaining_wb (.inl hnext)]
      omega
    · rw [if_neg hl] at hnext hshft
      obtain ⟨hsucc, hle'⟩ := succ_toNat hle hl
      rw [remaining, hnext, hshft]
      simp only [hsucc]
      omega
  | mulStall _ hs hcount hpos hcnt _ _ =>
    obtain ⟨hnext, -, hk⟩ := Busy.mul_next (c := c) (i := i) hs hcount
    rw [show remaining c o.s = 1 + c.mulStages - o.s.mul.mulCnt by rw [remaining, hs]]
    by_cases hl : o.s.mul.mulCnt = c.mulStages
    · rw [if_pos hl] at hnext
      rw [remaining_wb (.inr hnext)]
      omega
    · rw [if_neg hl] at hnext hk
      rw [remaining, hnext, hk]
      simp only
      omega

theorem observed_succ (t : ℕ) : observed c s i (t + 1) = (observed c s i t).step c (i t) := rfl

/-- Another instruction is taken later. -/
def TakesLater (c : Config) (s : State) (i : ℕ → In) (t : ℕ) : Prop :=
  ∃ u, (observed c s i t).taken < (observed c s i u).taken

theorem TakesLater.of_succ {t : ℕ} (h : (observed c s i (t + 1)).taken = (observed c s i t).taken)
    (hl : TakesLater c s i (t + 1)) : TakesLater c s i t := by
  obtain ⟨u, hu⟩ := hl
  exact ⟨u, h ▸ hu⟩

/-- The fetch unit offers an instruction after `k` more cycles. -/
theorem Waiting.takesLater (henv : ∀ t, Env mem (observed c s i t) (i t)) (k : ℕ) :
    ∀ {t : ℕ} {A : Arch}, Waiting A (observed c s i t) → (i (t + k)).ifuo.irValid = true →
      TakesLater c s i t := by
  induction k with
  | zero =>
    intro t A h hv
    obtain ⟨hready, -, -⟩ := h.ready (c := c) (henv t)
    have hj : exJump (observed c s i t).s.r = false := by rw [exJump, h.state]; rfl
    refine ⟨t + 1, ?_⟩
    rw [observed_succ, Observed.step, hready.ifui, hj, show (i t).ifuo.irValid = true from hv]
    exact Nat.lt_succ_self _
  | succ k ih =>
    intro t A h hv
    obtain ⟨hready, -, -⟩ := h.ready (c := c) (henv t)
    have hnext := hready.next (henv t)
    split_ifs at hnext with hn
    · refine ⟨t + 1, ?_⟩
      rw [observed_succ, Observed.step, hn]
      exact Nat.lt_succ_self _
    · refine TakesLater.of_succ ?_ (ih (A := A) hnext ?_)
      · simp only [observed_succ, Observed.step, hn]
        rfl
      · rw [show t + 1 + k = t + (k + 1) by omega]
        exact hv

theorem Ready.takesLater (henv : ∀ t, Env mem (observed c s i t) (i t))
    (hvalid : ∀ t, ∃ u ≥ t, (i u).ifuo.irValid = true) {t : ℕ}
    (h : Ready c A (observed c s i t) (i t)) : TakesLater c s i t := by
  have hnext := h.next (henv t)
  split_ifs at hnext with hn
  · refine ⟨t + 1, ?_⟩
    rw [observed_succ, Observed.step, hn]
    exact Nat.lt_succ_self _
  · obtain ⟨u, hu, hv⟩ := hvalid (t + 1)
    obtain ⟨k, rfl⟩ := Nat.exists_eq_add_of_le hu
    refine TakesLater.of_succ ?_ (Waiting.takesLater henv k (A := A) hnext hv)
    simp only [observed_succ, Observed.step, hn]
    rfl

/-- Without an acknowledge a request goes on waiting. -/
theorem stays {i : In} (henv : Env mem o i)
    (hs : o.s.r.e.state = .lsMemStall) (hack : i.lsuo.ack = false) :
    (step c o.s i).r.e.state = .lsMemStall := by
  simp [Busy.nextState_eq, nextState, hs, henv.alignErr, hack]

/-- An instruction ends, with an acknowledge after `k` more cycles if it waits for one. -/
theorem Busy.takesLater (hstages : 1 ≤ c.mulStages)
    (henv : ∀ t, Env mem (observed c s i t) (i t))
    (hvalid : ∀ t, ∃ u ≥ t, (i u).ifuo.irValid = true)
    (hack : ∀ t, ∃ u ≥ t, (i u).lsuo.ack = true) (m : ℕ) :
    ∀ (k : ℕ) {t : ℕ} {A : Arch} {es : List Event}, Busy c mem A (observed c s i t) es →
      remaining c (observed c s i t).s < m →
      ((observed c s i t).s.r.e.state = .lsMemStall → (i (t + k)).lsuo.ack = true) →
      TakesLater c s i t := by
  induction m with
  | zero => exact fun k t A es _ hlt => absurd hlt (Nat.not_lt_zero _)
  | succ m ihm =>
    -- the next cycle brings the instruction closer to its end, unless it waits
    have hgoes : ∀ {t : ℕ} {A : Arch} {es : List Event}, Busy c mem A (observed c s i t) es →
        remaining c (observed c s i t).s < m + 1 →
        ((observed c s i t).s.r.e.state = .lsMemStall → (i t).lsuo.ack = true) →
        TakesLater c s i t := by
      intro t A es h hlt hnow
      rcases h.outcome (henv t) hstages with ⟨hbusy, hn, -, hstate⟩ | ⟨_, hready, -, -⟩
      · have hdec := h.remaining_lt hstate hnow
        obtain ⟨u, hu, hacku⟩ := hack (t + 1)
        obtain ⟨k, rfl⟩ := Nat.exists_eq_add_of_le hu
        refine TakesLater.of_succ ?_ (ihm k hbusy (Nat.lt_of_lt_of_le hdec (Nat.le_of_lt_succ hlt))
          fun _ => hacku)
        simp only [observed_succ, Observed.step, hn]
        rfl
      · exact hready.takesLater henv hvalid
    intro k
    induction k with
    | zero => exact fun h hlt hnow => hgoes h hlt hnow
    | succ k ihk =>
      intro t A es h hlt hlater
      by_cases hnow : (observed c s i t).s.r.e.state = .lsMemStall → (i t).lsuo.ack = true
      · exact hgoes h hlt hnow
      · push Not at hnow
        obtain ⟨hs, hna⟩ := hnow
        have hstays := stays (c := c) (henv t) hs (Bool.eq_false_iff.mpr hna)
        rcases h.outcome (henv t) hstages with ⟨hbusy, hn, -, -⟩ | ⟨_, hready, -, -⟩
        · refine TakesLater.of_succ ?_ (ihk hbusy ?_ fun _ => ?_)
          · simp only [observed_succ, Observed.step, hn]
            rfl
          · rw [remaining_wait hs] at hlt
            exact (remaining_wait hstays).trans_lt hlt
          · rw [show t + 1 + k = t + (k + 1) by omega]
            exact hlater hs
        · exact hready.takesLater henv hvalid

/-- The next instruction is always taken in the end. -/
theorem takesLater_run (hstages : 1 ≤ c.mulStages) (hr : IsReset s)
    (henv : ∀ t, Env mem (observed c s i t) (i t))
    (hvalid : ∀ t, ∃ u ≥ t, (i u).ifuo.irValid = true)
    (hack : ∀ t, ∃ u ≥ t, (i u).lsuo.ack = true) (t : ℕ) : TakesLater c s i t := by
  cases agrees_run hstages hr henv t with
  | waiting h =>
    obtain ⟨u, hu, hv⟩ := hvalid t
    obtain ⟨k, rfl⟩ := Nat.exists_eq_add_of_le hu
    exact h.takesLater henv k hv
  | busy n _ es h =>
    obtain ⟨u, hu, ha⟩ := hack t
    obtain ⟨k, rfl⟩ := Nat.exists_eq_add_of_le hu
    exact h.takesLater hstages henv hvalid hack _ k (Nat.lt_succ_self _) fun _ => ha

end Run

/-- Surroundings that never make the unit wait. -/
def prompt (mem : WordAdr → TWord) (o : Observed) : In where
  ifuo := ⟨mem (wordOf o.stream.pc), 0, o.stream.pc, o.stream.target.getD (o.stream.pc + 4), true,
    true⟩
  lsuo := ⟨true, false, 0x12345678⟩
  duStall := false

def promptRun (c : Config) (mem : WordAdr → TWord) (s : State) (t : ℕ) : Observed :=
  (fun o => o.step c (prompt mem o))^[t] (Observed.reset s)

theorem observed_prompt (c : Config) (mem : WordAdr → TWord) (s : State) (t : ℕ) :
    observed c s (fun t => prompt mem (promptRun c mem s t)) t = promptRun c mem s t := by
  induction t with
  | zero => rfl
  | succ t ih =>
    rw [observed_succ, ih, promptRun, promptRun, Function.iterate_succ_apply']

/-- Adds and subtracts, compares, branches back over the loop and stores in the delay slot. -/
def loopMem (a : WordAdr) : TWord :=
  if a = 0x40 then 0x9c210003  -- l.addi r1,r1,3
  else if a = 0x41 then 0xe0411000  -- l.add r2,r1,r2
  else if a = 0x42 then 0xe4811800  -- l.sfltu r1,r3
  else if a = 0x43 then 0x13fffffd  -- l.bf -3
  else if a = 0x44 then 0xd4001000  -- l.sw 0(r0),r2
  else 0x15000000  -- l.nop

def plainConfig : Config := ⟨0, 3, 4, 8, 2, 1, 0, 0⟩

def resetState : State where
  r :=
    { x := ⟨.init, 0, 0, .execute, false, false⟩
      e := ⟨.init, 0⟩
      d := (decodeDefault 0).d
      fInDelaySlot := false }
  spr := ⟨0, 0, 0, 0x8001⟩
  rf n := if n = 3 then 5 else 0
  shft := ⟨false, 0, 0⟩
  mul := ⟨false, 0, fun _ => 0⟩

theorem loopMem_covered (a : WordAdr) : covered (loopMem a) = true := by
  unfold loopMem
  split_ifs <;> decide

example : (promptRun plainConfig loopMem resetState 15).trace =
    [.insn 0x100, .write 1 3, .insn 0x104, .write 2 3, .insn 0x108, .flags 0x8201, .insn 0x10c,
      .insn 0x110, .store 0 0 3, .insn 0x100, .write 1 6, .insn 0x104] := by decide +kernel

end ParaNut.Mexu
