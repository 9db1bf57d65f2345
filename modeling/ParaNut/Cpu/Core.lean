import ParaNut.Exu.Pipeline
import ParaNut.Ifu.Mifu

/-!
# Execution unit and fetch unit together (`paranut.vhd`)

The fetch unit only knows about jumps. It relies on what the execution unit
never does: consume a word that has not arrived, or jump while words from
behind the delay slot are on their way. `Control` states what the execution
unit guarantees for every program; what it does not guarantee for the jump of
an exception is `InTime`.
-/

namespace ParaNut.Cpu

open Exu (ExOp op1)
open Ifu (IfuIn Stream bufSize isJump arrival)
open Lsu (LsuIn LsuOut)

structure Core where
  exu : Mexu.State
  ifu : Ifu.Registers

/-- The fetch unit's read port and the load/store unit. -/
structure CoreIn where
  rpAck : Bool
  rpData : TWord
  lsuo : LsuOut
  duStall : Bool

section Definitions

variable (c : Mexu.Config) (ld : ℕ) (s : Core) (i : CoreIn)

def Core.exuIn : Mexu.In := ⟨Ifu.ifuo s.ifu, i.lsuo, i.duStall⟩

def Core.ifui : IfuIn := Mexu.ifui s.exu.r s.exu.spr (s.exuIn i)

def Core.step : Core where
  exu := Mexu.step c s.exu (s.exuIn i)
  ifu := Ifu.next ld s.ifu (s.ifui i) i.rpAck i.rpData

end Definitions

/-- Does the execute stage get into the state with the operation? -/
def ofOp : ExOp → Exu.State → Bool
  | _, .init => true
  | .alu, .aluWb => true
  | .ls, .lsMemStall | .ls, .loadMem | .ls, .lsWb => true
  | .ls, .cacheInvalidate1 | .ls, .cacheInvalidate2 => true
  | .jump, .jump => true
  | .shift, .shiftStall | .shift, .shiftWb => true
  | .mul, .mulStall | .mul, .mulWb => true
  | .setspr, .sprWb1 | .setspr, .sprWb2 => true
  | .rfe, .rfe => true
  | _, _ => false

/-- The instruction raises an exception of its own. -/
def faults (d : Mexu.DecodeReg) : Bool := d.illOp || d.sys || d.trap

/-- What the control flow and the load/store unit rely on. -/
structure Kind (d : Mexu.DecodeReg) : Prop where
  fault : faults d = true → d.exOp = .nop
  /-- one kind of access, to the sum of two operands -/
  access : d.exOp = .ls → d.exResSel = .alu ∧ d.aluFunc = 0 ∧
    [d.memLsuLoad, d.memLsuStore, d.memLsuFlush].count true = 1

/-- The state of the execution unit, with the words the fetch unit has. -/
structure Control (s : Core) : Prop where
  kind : Kind s.exu.r.d
  state : ofOp s.exu.r.d.exOp s.exu.r.e.state = true
  /-- a jump is still at place 0 -/
  jump : s.exu.r.d.exOp = .jump ∨ s.exu.r.d.exOp = .rfe →
    1 ≤ s.ifu.insnTop ∧ isJump (s.ifu.insnBuf 0) = true ∧ s.exu.r.x.state = .init
  exception : s.exu.r.x.state ≠ .init →
    1 ≤ s.ifu.insnTop ∧ (s.exu.r.d.exOp = .nop ∨ s.exu.r.d.exOp = .ls)
  entered : s.exu.r.x.state = .jump → s.exu.spr.sr.getLsbD Mexu.iee = false
  /-- a skipped word has not arrived -/
  skipped : s.ifu.insnTop = 0 → s.exu.r.x.state = .init ∧
    ((s.exu.r.d.exOp = .nop ∧ faults s.exu.r.d = false) ∨
      ((s.exu.r.d.exOp = .nop ∨ s.exu.r.d.exOp = .ls) ∧ s.exu.spr.sr.getLsbD Mexu.iee = false))

-- ---------------------------------------------------------------------------
-- Decoding
-- ---------------------------------------------------------------------------

theorem isJump_of_op1 {ir : TWord} (h : op1 ir ∈ [0b000000#6, 0b000001#6, 0b000100#6, 0b000011#6,
    0b010001#6, 0b010010#6, 0b001001#6, 0b001000#6]) : isJump ir = true := by
  unfold isJump
  rw [show ir.extractLsb' 26 6 = op1 ir from rfl]
  simp only [List.mem_cons, List.not_mem_nil, or_false] at h
  rcases h with h | h | h | h | h | h | h | h <;> rw [h] <;> rfl

/-- What holds of the instruction `o` that the decoder makes of `ir`. -/
structure Kinded (ir : TWord) (o : Mexu.Decoded) : Prop where
  kind : Kind o.d
  jump : o.d.exOp = .jump ∨ o.d.exOp = .rfe → isJump ir = true

section

variable {ir : TWord} {o a b : Mexu.Decoded}

theorem Kinded.ite {p : Prop} [Decidable p] (ha : p → Kinded ir a) (hb : ¬ p → Kinded ir b) :
    Kinded ir (if p then a else b) := by
  split
  · exact ha ‹_›
  · exact hb ‹_›

theorem Kinded.plain (hf : faults o.d = false) (hls : o.d.exOp ≠ .ls)
    (hj : o.d.exOp = .jump ∨ o.d.exOp = .rfe → isJump ir = true) : Kinded ir o :=
  ⟨⟨fun h => absurd (hf.symm.trans h) Bool.false_ne_true, fun h => absurd h hls⟩, hj⟩

theorem Kinded.access (hf : faults o.d = false) (hop : o.d.exOp = .ls)
    (ha : o.d.exResSel = .alu ∧ o.d.aluFunc = 0 ∧
      [o.d.memLsuLoad, o.d.memLsuStore, o.d.memLsuFlush].count true = 1) : Kinded ir o :=
  ⟨⟨fun h => absurd (hf.symm.trans h) Bool.false_ne_true, fun _ => ha⟩, fun h =>
    h.elim (fun h => nomatch hop.symm.trans h) fun h => nomatch hop.symm.trans h⟩

theorem Kinded.fault (hop : o.d.exOp = .nop) : Kinded ir o :=
  ⟨⟨fun _ => hop, fun h => nomatch hop.symm.trans h⟩, fun h =>
    h.elim (fun h => nomatch hop.symm.trans h) fun h => nomatch hop.symm.trans h⟩

end

theorem decodeOp_kinded (ir sr : TWord) : Kinded ir (Mexu.decodeOp ir sr) := by
  unfold Mexu.decodeOp
  refine .ite (fun _ => ?alu) fun _ => .ite (fun _ => ?addi) fun _ => .ite (fun _ => ?muli) fun _ =>
    .ite (fun _ => ?setf) fun _ => .ite (fun _ => ?srli) fun _ => .ite (fun _ => ?setfi) fun _ =>
    .ite (fun _ => ?movhi) fun _ => .ite (fun _ => ?load) fun _ => .ite (fun _ => ?store) fun _ =>
    .ite (fun _ => ?cust7) fun _ => .ite (fun hop => ?jump) fun _ => .ite (fun _ => ?nop) fun _ =>
    .ite (fun _ => ?other) fun _ => .ite (fun hop => ?rfe) fun _ => .ite (fun _ => ?mfspr) fun _ =>
    .ite (fun _ => ?mtspr) fun _ => ?illegal
  case alu =>
    refine .ite (fun _ => ?_) fun _ => .ite (fun _ => ?_) fun _ => .ite (fun _ => ?_) fun _ => ?_ <;>
      exact .plain rfl nofun fun h => h.elim nofun nofun
  case addi | muli | setf | srli | setfi | movhi | mfspr | mtspr =>
    exact .plain rfl nofun fun h => h.elim nofun nofun
  case load | store | cust7 => exact .access rfl rfl ⟨rfl, rfl, rfl⟩
  case jump =>
    have hj : isJump ir = true := by
      apply isJump_of_op1
      simp only [List.mem_cons, List.not_mem_nil, or_false] at hop ⊢
      tauto
    refine .ite (fun _ => ?_) fun _ => .plain rfl nofun fun _ => hj
    by_cases hreg : 0b010001#6 ≤ op1 ir <;>
      by_cases hlink : op1 ir = 0b000001#6 ∨ op1 ir = 0b010010#6 <;>
      simp only [hreg, hlink, if_true, if_false] <;> exact .plain rfl nofun fun _ => hj
  case nop =>
    refine .ite (fun _ => ?_) fun _ => ?_ <;> exact .plain rfl nofun fun h => h.elim nofun nofun
  case other =>
    refine .ite (fun _ => ?_) fun _ => .ite (fun _ => ?_) fun _ => ?_ <;> exact .fault rfl
  case rfe =>
    have hj : isJump ir = true := by
      apply isJump_of_op1
      rw [hop]
      decide
    exact .plain rfl nofun fun _ => hj
  case illegal => exact .fault rfl

-- ---------------------------------------------------------------------------
-- One cycle of the execution unit
-- ---------------------------------------------------------------------------

section Cycle

variable {c : Mexu.Config} {ld : ℕ} {s : Core} {i : CoreIn}

/-- The load/store unit finds fault with accesses only. -/
def AlignsAccesses (s : Core) (i : CoreIn) : Prop :=
  i.lsuo.alignErr = true → (Mexu.lsui s.exu.r).rd = true ∨ (Mexu.lsui s.exu.r).wr = true

theorem nextState_of_nexti {r : Mexu.Registers} {i : Mexu.In} (h : Mexu.exNexti r i = true)
    (x : Exu.ShiftOut) (y : Exu.MulOut) : Mexu.nextState c r i x y = .init := by
  unfold Mexu.exNexti at h
  unfold Mexu.nextState
  cases hs : r.e.state with
  | init =>
    rw [hs] at h
    cases hop : r.d.exOp <;> cases hd : i.duStall <;> simp [hop, hd] at h ⊢
  | lsMemStall | cacheInvalidate1 | cacheInvalidate2 | shiftStall | mulStall | sprWb1 =>
    rw [hs] at h
    cases h
  | aluWb | loadMem | lsWb | jump | mulWb | shiftWb | sprWb2 | rfe => rfl

theorem ofOp_nextState {r : Mexu.Registers} {i : Mexu.In} (h : ofOp r.d.exOp r.e.state = true)
    (x : Exu.ShiftOut) (y : Exu.MulOut) :
    ofOp r.d.exOp (Mexu.nextState c r i x y) = true := by
  unfold Mexu.nextState
  cases hs : r.e.state <;> cases hop : r.d.exOp <;> rw [hs, hop] at h <;>
    first
    | cases h; done
    | rfl
    | (simp only; split_ifs <;> rfl)

/-- The states an operation cannot be in. -/
theorem Control.state_of {st : Exu.State} (h : Control s) (hs : s.exu.r.e.state = st) :
    ofOp s.exu.r.d.exOp st = true := hs ▸ h.state

theorem Control.not_flow (h : Control s)
    (hop : s.exu.r.d.exOp = .nop ∨ s.exu.r.d.exOp = .ls) :
    s.exu.r.e.state ≠ .jump ∧ s.exu.r.e.state ≠ .rfe ∧ s.exu.r.e.state ≠ .sprWb1 := by
  have hst := h.state
  refine ⟨fun hs => ?_, fun hs => ?_, fun hs => ?_⟩ <;>
    rcases hop with hop | hop <;> rw [hs, hop] at hst <;> cases hst

/-- An access is under way when its address is checked. -/
theorem Control.access (h : Control s) (ha : AlignsAccesses s i) (herr : i.lsuo.alignErr = true) :
    s.exu.r.d.exOp = .ls := by
  have hs : s.exu.r.e.state = .lsMemStall := by
    rcases ha herr with hl | hl <;> exact beq_iff_eq.mp (Bool.and_eq_true_iff.mp hl).1
  have hst := h.state_of hs
  cases hop : s.exu.r.d.exOp <;> rw [hop] at hst <;> first | rfl | cases hst

/-- What can be detected. -/
theorem Control.detected (h : Control s) (ha : AlignsAccesses s i)
    (hid : (Mexu.detected s.exu.r s.exu.spr (s.exuIn i)).id ≠ 0) :
    s.exu.spr.sr.getLsbD Mexu.iee = true ∧
      (faults s.exu.r.d = true ∧ s.exu.r.d.exOp = .nop ∨
        i.lsuo.alignErr = true ∧ s.exu.r.d.exOp = .ls) := by
  unfold Mexu.detected Mexu.exceptionDetect at hid
  cases hiee : s.exu.spr.sr.getLsbD Mexu.iee with
  | false => simp [hiee] at hid
  | true =>
    refine ⟨rfl, ?_⟩
    by_cases hf : faults s.exu.r.d = true
    · exact .inl ⟨hf, h.kind.fault hf⟩
    · simp only [faults, Bool.or_eq_true, not_or, Bool.not_eq_true] at hf
      obtain ⟨⟨hill, hsys⟩, htrap⟩ := hf
      cases herr : i.lsuo.alignErr with
      | true => exact .inr ⟨rfl, h.access ha herr⟩
      | false => simp [hiee, hill, hsys, htrap, Core.exuIn, herr] at hid

/-- What becomes of the instruction in the unit. -/
inductive Fate (c : Mexu.Config) (s : Core) (i : CoreIn) : Prop
  /-- it goes on, or the unit waits -/
  | kept (nexti : Mexu.exNexti s.exu.r (s.exuIn i) = false)
      (d : (Mexu.step c s.exu (s.exuIn i)).r.d = s.exu.r.d)
  | bubble (invalid : Mexu.idNextiInvalid s.exu.r s.exu.spr (s.exuIn i) = true)
      (d : Mexu.Bubble (Mexu.step c s.exu (s.exuIn i)).r.d)
      (kind : Kind (Mexu.step c s.exu (s.exuIn i)).r.d)
  | taken (nexti : Mexu.exNexti s.exu.r (s.exuIn i) = true)
      (valid : Mexu.idNextiInvalid s.exu.r s.exu.spr (s.exuIn i) = false)
      (kind : Kind (Mexu.step c s.exu (s.exuIn i)).r.d)
      (jump : (Mexu.step c s.exu (s.exuIn i)).r.d.exOp = .jump ∨
        (Mexu.step c s.exu (s.exuIn i)).r.d.exOp = .rfe → isJump (s.ifu.insnBuf 1) = true)

theorem fate (c : Mexu.Config) (s : Core) (i : CoreIn) : Fate c s i := by
  cases hn : Mexu.exNexti s.exu.r (s.exuIn i) with
  | false => exact .kept hn (if_neg (by rw [hn]; decide))
  | true =>
    have hd : ∃ a b, (Mexu.step c s.exu (s.exuIn i)).r.d =
        Mexu.operands c (Mexu.decoded s.exu.r s.exu.spr (s.exuIn i)) (s.exuIn i).ifuo.ir a b :=
      ⟨_, _, if_pos hn⟩
    obtain ⟨a, b, hd⟩ := hd
    cases hv : Mexu.idNextiInvalid s.exu.r s.exu.spr (s.exuIn i) with
    | true =>
      rw [Mexu.decoded, hv] at hd
      refine .bubble hv ?_ ?_ <;> rw [hd]
      · exact ⟨rfl, rfl, rfl, rfl, rfl, rfl, rfl⟩
      · exact ⟨fun _ => rfl, fun h => absurd (show ExOp.nop = .ls from h) (by decide)⟩
    | false =>
      have hk := decodeOp_kinded (s.ifu.insnBuf 1) s.exu.spr.sr
      rw [Mexu.decoded, hv] at hd
      refine .taken hn hv ?_ ?_ <;> rw [hd]
      · exact ⟨hk.kind.fault, hk.kind.access⟩
      · exact hk.jump

theorem xcAssert_of_exception (h : s.exu.r.x.state ≠ .init) :
    Mexu.xcAssert s.exu.r s.exu.spr (s.exuIn i) = true := by
  unfold Mexu.xcAssert
  cases hx : s.exu.r.x.state with
  | init => exact absurd hx h
  | flushPipl | jump => rfl

/-- What a valid next instruction excludes. -/
theorem init_of_valid (hv : Mexu.idNextiInvalid s.exu.r s.exu.spr (s.exuIn i) = false) :
    s.exu.r.x.state = .init ∧
      (Mexu.detected s.exu.r s.exu.spr (s.exuIn i)).id = 0 ∧ s.exu.r.e.state ≠ .jump ∧
        s.exu.r.e.state ≠ .rfe ∧ 1 < s.ifu.insnTop := by
  simp only [Mexu.idNextiInvalid, Bool.or_eq_false_iff, Bool.not_eq_false'] at hv
  obtain ⟨⟨⟨hir, hx⟩, hskip⟩, hjump⟩ := hv
  have hxc : s.exu.r.x.state = .init := by
    by_contra hne
    exact absurd hx (by rw [xcAssert_of_exception hne]; decide)
  refine ⟨hxc, ?_, beq_eq_false_iff_ne.mp hjump, beq_eq_false_iff_ne.mp hskip,
    of_decide_eq_true hir⟩
  simpa [Mexu.xcAssert, hxc] using hx

/-- When the fetch unit is told to go on, and why. -/
theorem nexti_cases (hn : (s.ifui i).nexti = true) :
    s.exu.r.x.state = .jump ∨ s.exu.r.e.state = .rfe ∨
      (Mexu.exNexti s.exu.r (s.exuIn i) = true ∧
        Mexu.idNextiInvalid s.exu.r s.exu.spr (s.exuIn i) = false) := by
  simp only [Core.ifui, Mexu.ifui, Mexu.xcSkipDelaySlot, Mexu.exSkipDelaySlot, Bool.or_eq_true,
    beq_iff_eq, Bool.and_eq_true, Bool.not_eq_true'] at hn
  rcases hn with (hn | hn) | ⟨⟨hn, -⟩, hv⟩
  · exact .inl hn
  · exact .inr (.inl hn)
  · exact .inr (.inr ⟨hn, hv⟩)

theorem jump_cases (hj : (s.ifui i).jump = true) :
    Mexu.xcJump s.exu.r = true ∨ (s.exu.r.e.state = .init ∧ s.exu.r.d.exOp = .rfe) ∨
      s.exu.r.e.state = .jump := by
  simp only [Core.ifui, Mexu.ifui, Mexu.exRfeJump, Mexu.exJump, Bool.or_eq_true, beq_iff_eq,
    Bool.and_eq_true] at hj
  rcases hj with (hj | ⟨⟨hs, -⟩, hop⟩) | hj
  · exact .inl hj
  · exact .inr (.inl ⟨hs, hop⟩)
  · exact .inr (.inr hj)

theorem xcJump_iff : Mexu.xcJump s.exu.r = true ↔
    s.exu.r.x.state = .flushPipl ∧ s.exu.r.e.state = .init := by
  simp [Mexu.xcJump]

theorem op_of_jump (h : Control s) (hs : s.exu.r.e.state = .jump) : s.exu.r.d.exOp = .jump := by
  have := h.state_of hs
  cases hop : s.exu.r.d.exOp <;> rw [hop] at this <;> first | rfl | cases this

theorem op_of_rfe (h : Control s) (hs : s.exu.r.e.state = .rfe) : s.exu.r.d.exOp = .rfe := by
  have := h.state_of hs
  cases hop : s.exu.r.d.exOp <;> rw [hop] at this <;> first | rfl | cases this

/-- Nothing is consumed or skipped that is not there. -/
theorem Control.nexti_le (h : Control s) : (s.ifui i).nexti.toNat ≤ s.ifu.insnTop := by
  cases hn : (s.ifui i).nexti with
  | false => exact Nat.zero_le _
  | true =>
    rcases nexti_cases hn with hx | hs | ⟨-, hv⟩
    · exact (h.exception (by rw [hx]; decide)).1
    · exact (h.jump (.inr (op_of_rfe h hs))).1
    · exact Nat.le_of_lt (init_of_valid hv).2.2.2.2

/-- A jump is never together with `nexti`. -/
theorem Control.apart (h : Control s) (hj : (s.ifui i).jump = true) : (s.ifui i).nexti = false := by
  by_contra hn
  rcases nexti_cases (by simpa using hn) with hx | hs | ⟨hn, hv⟩
  · have hop := (h.exception (by rw [hx]; decide)).2
    rcases jump_cases hj with hj | ⟨-, hop'⟩ | hj
    · rw [xcJump_iff, hx] at hj
      exact absurd hj.1 (by decide)
    · rw [hop'] at hop
      exact absurd hop (by decide)
    · exact (h.not_flow hop).1 hj
  · have hop := op_of_rfe h hs
    have hx := (h.jump (.inr hop)).2.2
    rcases jump_cases hj with hj | ⟨hs', -⟩ | hj
    · rw [xcJump_iff, hx] at hj
      exact absurd hj.1 (by decide)
    · rw [hs] at hs'
      exact absurd hs' (by decide)
    · rw [hs] at hj
      exact absurd hj (by decide)
  · obtain ⟨hx, -, hjs, -, -⟩ := init_of_valid hv
    rcases jump_cases hj with hj | ⟨hs', hop⟩ | hj
    · rw [xcJump_iff, hx] at hj
      exact absurd hj.1 (by decide)
    · simp [Mexu.exNexti, hs', hop] at hn
    · exact hjs hj

/-- A jump other than an exception's is the one of the instruction at place 0. -/
theorem Control.jump_known (h : Control s) (hj : (s.ifui i).jump = true) :
    Mexu.xcJump s.exu.r = true ∨ (1 ≤ s.ifu.insnTop ∧ isJump (s.ifu.insnBuf 0) = true) := by
  rcases jump_cases hj with hj | ⟨-, hop⟩ | hj
  · exact .inl hj
  · exact .inr ⟨(h.jump (.inr hop)).1, (h.jump (.inr hop)).2.1⟩
  · exact .inr ⟨(h.jump (.inl (op_of_jump h hj))).1, (h.jump (.inl (op_of_jump h hj))).2.1⟩

/-- The words behind the delay slot of a known jump are never in the way. -/
theorem Control.jumpsInTime (hc : Control s) (hh : Ifu.HaltsBehindJumps s.ifu)
    (hrd : i.rpAck = true → s.ifu.rpRd = true)
    (hx : Mexu.xcJump s.exu.r = true → isJump (s.ifu.insnBuf 0) = true ∨
      Ifu.JumpsInTime s.ifu (s.ifui i) i.rpAck) : Ifu.JumpsInTime s.ifu (s.ifui i) i.rpAck := by
  intro hj
  have hn := hc.apart hj
  have hknown : isJump (s.ifu.insnBuf 0) = true → 1 ≤ s.ifu.insnTop →
      (s.ifu.lastRpAck = true → s.ifu.insnTop - (s.ifui i).nexti.toNat ≤ 1) ∧
        (i.rpAck = true →
          s.ifu.insnTop - (s.ifui i).nexti.toNat + s.ifu.lastRpAck.toNat ≤ 1) := by
    intro hjmp hpos
    have hle := hh 0 hpos hjmp
    rw [hn, Bool.toNat_false, Nat.sub_zero]
    refine ⟨fun hl => ?_, fun ha => ?_⟩
    · rw [hl, Bool.toNat_true] at hle
      omega
    · rw [hrd ha, Bool.toNat_true] at hle
      omega
  rcases hc.jump_known hj with hxc | ⟨hpos, hjmp⟩
  · rcases hx hxc with hjmp | htime
    · exact hknown hjmp (hc.exception (by rw [(xcJump_iff.mp hxc).1]; decide)).1
    · exact htime hj
  · exact hknown hjmp hpos

/-- In the cycle of an exception's jump the fetch unit has no word, and gets none, from behind the
instruction after the one at place 0, unless that one is of the class it waits for anyway; and the
first request after reset is not acknowledged at once. -/
structure InTime (s : Core) (i : CoreIn) : Prop where
  first : s.ifu.adrTop = 2 → i.rpAck = false
  exception : Mexu.xcJump s.exu.r = true → isJump (s.ifu.insnBuf 0) = true ∨
    s.ifu.insnTop + s.ifu.lastRpAck.toNat + i.rpAck.toNat ≤ 1

/-- What the fetch unit holds and asks for. -/
structure Fetch (ld : ℕ) (s : Core) (st : Stream) : Prop where
  queue : Ifu.Queue (bufSize ld) s.ifu st
  request : s.ifu.rpRd = true →
    s.ifu.insnTop + s.ifu.lastRpAck.toNat < s.ifu.adrTop ∧
      s.ifu.insnTop + s.ifu.lastRpAck.toNat < bufSize ld ∧
      s.ifu.rpAdr = s.ifu.adrBuf (s.ifu.insnTop + s.ifu.lastRpAck.toNat)
  ahead : s.ifu.adrTop = 2 ∧ s.ifu.insnTop + s.ifu.lastRpAck.toNat = 1 ∨
    Ifu.Ahead (bufSize ld) s.ifu s.ifu.rpRd.toNat
  halts : Ifu.HaltsBehindJumps s.ifu

section Fetch

variable {st : Stream}

theorem Fetch.steps (h2 : 2 ≤ ld) (h : Fetch ld s st) (hc : Control s) :
    Ifu.Steps isJump (bufSize ld) s.ifu (s.ifui i) i.rpAck i.rpData (s.step c ld i).ifu :=
  Ifu.next_steps h2 h.queue hc.nexti_le

theorem Fetch.jumpsInTime (h : Fetch ld s st) (hc : Control s) (ht : InTime s i)
    (hrd : i.rpAck = true → s.ifu.rpRd = true) : Ifu.JumpsInTime s.ifu (s.ifui i) i.rpAck := by
  refine hc.jumpsInTime h.halts hrd fun hx => (ht.exception hx).imp_right fun hle hj => ?_
  rw [hc.apart hj, Bool.toNat_false, Nat.sub_zero]
  refine ⟨fun hl => ?_, fun ha => ?_⟩
  · rw [hl, Bool.toNat_true] at hle
    omega
  · rw [ha, Bool.toNat_true] at hle
    omega

/-- No request for the target of a jump is issued before the jump is known. -/
theorem Fetch.place_of_jump (h2 : 2 ≤ ld) (h : Fetch ld s st) (hc : Control s)
    (ht : InTime s i) (hj : (s.ifui i).jump = true) (hrd : (s.step c ld i).ifu.rpRd = true) :
    (s.step c ld i).ifu.insnTop + i.rpAck.toNat ≤ 1 := by
  have hst := h.steps (c := c) (i := i) h2 hc
  have hn := hc.apart hj
  obtain ⟨hlt, -, -, hjumps⟩ := hst.request hrd
  rw [hst.adrTop, if_pos hj] at hlt
  have hknown : isJump (s.ifu.insnBuf 0) = true →
      (s.step c ld i).ifu.insnTop + i.rpAck.toNat ≤ 1 := by
    intro hjmp
    by_contra hgt
    have h2 : (s.step c ld i).ifu.insnTop + i.rpAck.toNat = 2 := by omega
    have hno := hjumps (by omega)
    rw [h2, hn, show 2 + false.toNat - 2 = 0 from rfl, hjmp] at hno
    cases hno
  rcases hc.jump_known hj with hx | ⟨-, hjmp⟩
  · rcases ht.exception hx with hjmp | hle
    · exact hknown hjmp
    · have htop := hst.insnTop
      rw [Ifu.arrival_of_jump hj, hn, Bool.toNat_false] at htop
      omega
  · exact hknown hjmp

theorem Fetch.asked (h : Fetch ld s st) (hrd : i.rpAck = true → s.ifu.rpRd = true)
    (ha : i.rpAck = true) : s.ifu.insnTop + s.ifu.lastRpAck.toNat < s.ifu.adrTop ∧
      s.ifu.insnTop + s.ifu.lastRpAck.toNat < bufSize ld :=
  ⟨(h.request (hrd ha)).1, (h.request (hrd ha)).2.1⟩

theorem Fetch.step (h2 : 2 ≤ ld) (h : Fetch ld s st) (hc : Control s) (ht : InTime s i)
    (hrd : i.rpAck = true → s.ifu.rpRd = true) :
    Fetch ld (s.step c ld i) (st.step (s.ifui i) (s.ifu.insnBuf 1)) := by
  have hst := h.steps (c := c) (i := i) h2 hc
  have hN := Ifu.four_le_bufSize h2
  have hj := h.jumpsInTime hc ht hrd
  have hah : Ifu.Ahead (bufSize ld) s.ifu i.rpAck.toNat := by
    rcases h.ahead with ⟨htwo, hplace⟩ | hah
    · rw [ht.first htwo]
      exact .inr (by rw [hplace, htwo, Bool.toNat_false])
    · refine hah.mono ?_
      cases ha : i.rpAck with
      | false => exact Nat.zero_le _
      | true => rw [hrd ha]
  have hplace := h.place_of_jump (c := c) h2 hc ht
  exact
    { queue := h.queue.step hN hst hc.nexti_le hj (h.asked hrd) _
      request := hst.request_adr hN h.queue hc.nexti_le hj (h.asked hrd) hplace hah
      ahead := .inr (hst.ahead hN h.queue hc.nexti_le hj (h.asked hrd) hplace hah)
      halts := Ifu.haltsBehindJumps_next h2 h.halts h.queue hc.nexti_le hj hrd }

end Fetch

-- ---------------------------------------------------------------------------
-- The control flow is kept
-- ---------------------------------------------------------------------------

/-- Place 0 and the number of words after a cycle that consumes nothing. -/
theorem place_zero_kept {r : Ifu.Registers}
    (hst : Ifu.Steps isJump (bufSize ld) s.ifu (s.ifui i) i.rpAck i.rpData r)
    (hn : (s.ifui i).nexti = false) (hpos : 1 ≤ s.ifu.insnTop) :
    1 ≤ r.insnTop ∧ r.insnBuf 0 = s.ifu.insnBuf 0 := by
  have htop := hst.insnTop
  have harr : 1 ≤ arrival s.ifu (s.ifui i) := by
    unfold arrival
    rw [hn, Bool.toNat_false]
    split <;> omega
  refine ⟨by omega, ?_⟩
  rw [hst.insn 0 (by omega), if_neg (by omega), hn]
  rfl

theorem nextXc_state : (Mexu.step c s.exu (s.exuIn i)).r.x.state =
    (Mexu.nextXc s.exu.r s.exu.spr (s.exuIn i)).state := by
  simp only [Mexu.step, Mexu.next]
  split <;> rfl

/-- Nothing is detected, nothing happens. -/
theorem xc_idle (hx : s.exu.r.x.state = .init)
    (hid : (Mexu.detected s.exu.r s.exu.spr (s.exuIn i)).id = 0) :
    (Mexu.step c s.exu (s.exuIn i)).r.x.state = .init := by
  rw [nextXc_state]
  simp [Mexu.nextXc, hx, hid]

/-- Interrupt enable, and the bits that select the caches, change with an exception, `RFE` and
`MTSPR` only. -/
theorem srBit_kept (hx : Mexu.xcJump s.exu.r = false) (hspr : s.exu.r.e.state ≠ .sprWb1)
    (hrfe : s.exu.r.d.exOp ≠ .rfe) {n : ℕ} (hcy : n ≠ Mexu.cy) (hov : n ≠ Mexu.ov)
    (hf : n ≠ Mexu.flag) :
    (Mexu.step c s.exu (s.exuIn i)).spr.sr.getLsbD n = s.exu.spr.sr.getLsbD n := by
  have hsr : (Mexu.step c s.exu (s.exuIn i)).spr.sr = _ :=
    Mexu.nextSpr_sr (c := c) (i := s.exuIn i) hx hspr hrfe
  rw [hsr, Mexu.getLsbD_aluFlags hcy hov hf]

theorem Control.iee_kept (h : Control s) (hx : s.exu.r.x.state ≠ .flushPipl)
    (hop : s.exu.r.d.exOp = .nop ∨ s.exu.r.d.exOp = .ls) :
    (Mexu.step c s.exu (s.exuIn i)).spr.sr.getLsbD Mexu.iee = s.exu.spr.sr.getLsbD Mexu.iee := by
  refine srBit_kept ?_ (h.not_flow hop).2.2 ?_ (by decide) (by decide) (by decide)
  · exact Bool.eq_false_iff.mpr fun hj => hx (xcJump_iff.mp hj).1
  · rcases hop with hop | hop <;> rw [hop] <;> decide

/-- The exception's jump disables further exceptions. -/
theorem Control.iee_entered (h : Control s) (hj : Mexu.xcJump s.exu.r = true) :
    (Mexu.step c s.exu (s.exuIn i)).spr.sr.getLsbD Mexu.iee = false := by
  obtain ⟨hx, hs⟩ := xcJump_iff.mp hj
  have hop := (h.exception (by rw [hx]; decide)).2
  have hr : Mexu.exRfeJump s.exu.r (s.exuIn i) = false := by
    rcases hop with hop | hop <;> simp [Mexu.exRfeJump, hop]
  simp only [Mexu.step, Mexu.nextSpr, hj, hs, hr, if_true, Bool.false_eq_true, if_false]
  rw [Mexu.getLsbD_aluFlags (by decide) (by decide) (by decide), Mexu.exceptionSaveRegisters,
    Mexu.getLsbD_setBit _ (by decide), if_neg (by decide), Mexu.getLsbD_setBit _ (by decide),
    if_neg (by decide), Mexu.getLsbD_setBit _ (by decide), if_pos rfl]

theorem Control.no_fault (h : Control s) (ha : AlignsAccesses s i) (hx : s.exu.r.x.state = .init)
    (hno : s.exu.spr.sr.getLsbD Mexu.iee = false ∨
      (faults s.exu.r.d = false ∧ s.exu.r.d.exOp ≠ .ls)) :
    (Mexu.step c s.exu (s.exuIn i)).r.x.state = .init := by
  refine xc_idle hx ?_
  by_contra hid
  obtain ⟨hiee, hf⟩ := h.detected ha hid
  rcases hno with hno | ⟨hno, hls⟩
  · rw [hno] at hiee
    cases hiee
  · rcases hf with ⟨hf, -⟩ | ⟨-, hf⟩
    · rw [hno] at hf
      cases hf
    · exact hls hf

theorem faults_eq_false (h : Kind s.exu.r.d) (hop : s.exu.r.d.exOp ≠ .nop) :
    faults s.exu.r.d = false :=
  Bool.eq_false_iff.mpr fun hf => hop (h.fault hf)

section Kept

variable {r : Ifu.Registers}
  (hst : Ifu.Steps isJump (bufSize ld) s.ifu (s.ifui i) i.rpAck i.rpData r)
  (h : Control s) (ha : AlignsAccesses s i)
include hst h ha

/-- What is to be shown of the jump at place 0. -/
theorem Control.step_jump (hop : (Mexu.step c s.exu (s.exuIn i)).r.d.exOp = .jump ∨
      (Mexu.step c s.exu (s.exuIn i)).r.d.exOp = .rfe) :
    1 ≤ r.insnTop ∧ isJump (r.insnBuf 0) = true ∧
      (Mexu.step c s.exu (s.exuIn i)).r.x.state = .init := by
  cases fate c s i with
  | kept hn hd =>
    rw [hd] at hop
    obtain ⟨hpos, hjmp, hx⟩ := h.jump hop
    have hnop : s.exu.r.d.exOp ≠ .nop ∧ s.exu.r.d.exOp ≠ .ls := by
      rcases hop with hop | hop <;> rw [hop] <;> decide
    have hnexti : (s.ifui i).nexti = false := by
      by_contra hne
      rcases nexti_cases (by simpa using hne) with hx' | hs | ⟨hn', -⟩
      · rw [hx] at hx'
        cases hx'
      · rw [Mexu.exNexti, hs] at hn
        cases hn
      · rw [hn] at hn'
        cases hn'
    obtain ⟨hpos', h0⟩ := place_zero_kept hst hnexti hpos
    exact ⟨hpos', h0 ▸ hjmp, h.no_fault ha hx (.inr ⟨faults_eq_false h.kind hnop.1, hnop.2⟩)⟩
  | bubble _ hd _ =>
    rw [hd.nop] at hop
    exact absurd hop (by decide)
  | taken hn hv _ hjmp =>
    obtain ⟨hx, hid, hsj, hsr, htop⟩ := init_of_valid hv
    have hnexti : (s.ifui i).nexti = true := by
      have hj : Mexu.exJump s.exu.r = false := beq_eq_false_iff_ne.mpr hsj
      simp [Core.ifui, Mexu.ifui, hn, hv, hj]
    have hjump : (s.ifui i).jump = false := by
      by_contra hj
      have := h.apart (by simpa using hj)
      rw [hnexti] at this
      cases this
    have harr : arrival s.ifu (s.ifui i) = s.ifu.insnTop - 1 := by
      rw [Ifu.arrival_of_not_jump hjump, hnexti]
      rfl
    have htop' := hst.insnTop
    refine ⟨by omega, ?_, xc_idle hx hid⟩
    rw [hst.insn 0 (by omega), if_neg (by omega), hnexti]
    exact hjmp hop

theorem Control.step_exception (hx' : (Mexu.step c s.exu (s.exuIn i)).r.x.state ≠ .init) :
    1 ≤ r.insnTop ∧ ((Mexu.step c s.exu (s.exuIn i)).r.d.exOp = .nop ∨
      (Mexu.step c s.exu (s.exuIn i)).r.d.exOp = .ls) := by
  have hold : 1 ≤ s.ifu.insnTop ∧ (s.exu.r.d.exOp = .nop ∨ s.exu.r.d.exOp = .ls) ∧
      Mexu.xcAssert s.exu.r s.exu.spr (s.exuIn i) = true ∧ s.exu.r.x.state ≠ .jump := by
    cases hx : s.exu.r.x.state with
    | init =>
      have hid : (Mexu.detected s.exu.r s.exu.spr (s.exuIn i)).id ≠ 0 := fun hid =>
        hx' (xc_idle hx hid)
      obtain ⟨hiee, hf⟩ := h.detected ha hid
      refine ⟨?_, ?_, by simpa [Mexu.xcAssert, hx] using hid, by decide⟩
      · by_contra hzero
        obtain ⟨-, ⟨hop, hnf⟩ | ⟨-, hoff⟩⟩ := h.skipped (by omega)
        · rcases hf with ⟨hf, -⟩ | ⟨-, hls⟩
          · rw [hnf] at hf
            cases hf
          · rw [hop] at hls
            cases hls
        · rw [hiee] at hoff
          cases hoff
      · exact hf.imp And.right And.right
    | flushPipl =>
      have hne : s.exu.r.x.state ≠ .init := by rw [hx]; decide
      exact ⟨(h.exception hne).1, (h.exception hne).2, xcAssert_of_exception hne, by decide⟩
    | jump =>
      rw [nextXc_state] at hx'
      exact absurd (by simp [Mexu.nextXc, hx]) hx'
  obtain ⟨hpos, hop, hassert, hxj⟩ := hold
  have hinv : Mexu.idNextiInvalid s.exu.r s.exu.spr (s.exuIn i) = true := by
    simp [Mexu.idNextiInvalid, hassert]
  have hnexti : (s.ifui i).nexti = false := by
    by_contra hne
    rcases nexti_cases (by simpa using hne) with hx | hs | ⟨-, hv⟩
    · exact hxj hx
    · exact (h.not_flow hop).2.1 hs
    · rw [hinv] at hv
      cases hv
  refine ⟨(place_zero_kept hst hnexti hpos).1, ?_⟩
  cases fate c s i with
  | kept _ hd => rw [hd]; exact hop
  | bubble _ hd _ => exact .inl hd.nop
  | taken _ hv _ _ =>
    rw [hinv] at hv
    cases hv

theorem Control.step_skipped (hzero : r.insnTop = 0) :
    (Mexu.step c s.exu (s.exuIn i)).r.x.state = .init ∧
      (((Mexu.step c s.exu (s.exuIn i)).r.d.exOp = .nop ∧
          faults (Mexu.step c s.exu (s.exuIn i)).r.d = false) ∨
        (((Mexu.step c s.exu (s.exuIn i)).r.d.exOp = .nop ∨
            (Mexu.step c s.exu (s.exuIn i)).r.d.exOp = .ls) ∧
          (Mexu.step c s.exu (s.exuIn i)).spr.sr.getLsbD Mexu.iee = false)) := by
  have hempty : ∀ {d : Mexu.DecodeReg}, Mexu.Bubble d → d.exOp = .nop ∧ faults d = false :=
    fun hd => ⟨hd.nop, by rw [faults, hd.illOp, hd.sys, hd.trap]; rfl⟩
  have htop := hst.insnTop
  have hle := h.nexti_le (i := i)
  have hgone : s.ifu.insnTop - (s.ifui i).nexti.toNat = 0 := by
    unfold arrival at htop
    split at htop <;> omega
  by_cases hz : s.ifu.insnTop = 0
  · obtain ⟨hx, hd⟩ := h.skipped hz
    have hop : s.exu.r.d.exOp = .nop ∨ s.exu.r.d.exOp = .ls := hd.elim (fun hd => .inl hd.1) And.left
    refine ⟨h.no_fault ha hx (hd.elim (fun hd => .inr ⟨hd.2, by rw [hd.1]; decide⟩) fun hd =>
      .inl hd.2), ?_⟩
    cases fate c s i with
    | kept _ hkept =>
      rw [hkept, h.iee_kept (by rw [hx]; decide) hop]
      exact hd
    | bubble _ hd _ => exact .inl (hempty hd)
    | taken _ hv _ _ =>
      have := (init_of_valid hv).2.2.2.2
      omega
  · have hnexti : (s.ifui i).nexti = true := by
      by_contra hne
      rw [Bool.eq_false_iff.mpr hne, Bool.toNat_false] at hgone
      omega
    rw [hnexti, Bool.toNat_true] at hgone
    rcases nexti_cases hnexti with hx | hs | ⟨-, hv⟩
    · have hop := (h.exception (by rw [hx]; decide)).2
      refine ⟨by rw [nextXc_state]; simp [Mexu.nextXc, hx], ?_⟩
      cases fate c s i with
      | kept _ hkept =>
        rw [hkept, h.iee_kept (by rw [hx]; decide) hop]
        exact .inr ⟨hop, h.entered hx⟩
      | bubble _ hd _ => exact .inl (hempty hd)
      | taken _ hv _ _ =>
        rw [(init_of_valid hv).1] at hx
        cases hx
    · have hop := op_of_rfe h hs
      have hx := (h.jump (.inr hop)).2.2
      refine ⟨h.no_fault ha hx (.inr ⟨faults_eq_false h.kind ?_, ?_⟩), ?_⟩
      · rw [hop]
        decide
      · rw [hop]
        decide
      · cases fate c s i with
        | kept hn _ =>
          rw [Mexu.exNexti, hs] at hn
          cases hn
        | bubble _ hd _ => exact .inl (hempty hd)
        | taken _ hv _ _ => exact absurd hs (init_of_valid hv).2.2.2.1
    · have := (init_of_valid hv).2.2.2.2
      omega

end Kept

theorem Control.next (h : Control s) (ha : AlignsAccesses s i)
    (hst : Ifu.Steps isJump (bufSize ld) s.ifu (s.ifui i) i.rpAck i.rpData (s.step c ld i).ifu) :
    Control (s.step c ld i) := by
  refine ⟨?_, ?_, h.step_jump hst ha, h.step_exception hst ha, ?_, h.step_skipped hst ha⟩
  · cases fate c s i with
    | kept _ hd =>
      have hkind := h.kind
      rw [← hd] at hkind
      exact hkind
    | bubble _ _ hk => exact hk
    | taken _ _ hk _ => exact hk
  · have hnext : (Mexu.step c s.exu (s.exuIn i)).r.e.state = Mexu.nextState c s.exu.r (s.exuIn i)
      (Mexu.shfto c s.exu (s.exuIn i)) (Mexu.mulo c s.exu) := rfl
    have hinit : Mexu.exNexti s.exu.r (s.exuIn i) = true →
        ofOp (s.step c ld i).exu.r.d.exOp (s.step c ld i).exu.r.e.state = true := by
      intro hn
      rw [show (s.step c ld i).exu.r.e.state = _ from hnext, nextState_of_nexti hn]
      cases (s.step c ld i).exu.r.d.exOp <;> rfl
    cases hn : Mexu.exNexti s.exu.r (s.exuIn i) with
    | true => exact hinit hn
    | false =>
      have hd : (s.step c ld i).exu.r.d = s.exu.r.d := if_neg (by rw [hn]; decide)
      rw [hd]
      exact ofOp_nextState h.state _ _
  · intro hx
    have hx' : (Mexu.nextXc s.exu.r s.exu.spr (s.exuIn i)).state = .jump := nextXc_state.symm.trans hx
    refine h.iee_entered (xcJump_iff.mpr ?_)
    cases hxs : s.exu.r.x.state with
    | init =>
      simp only [Mexu.nextXc, hxs] at hx'
      split at hx'
      · cases hx'
      · rw [hxs] at hx'
        cases hx'
    | flushPipl =>
      refine ⟨rfl, ?_⟩
      simp only [Mexu.nextXc, hxs] at hx'
      split at hx'
      · assumption
      · rw [hxs] at hx'
        cases hx'
    | jump =>
      simp only [Mexu.nextXc, hxs] at hx'
      cases hx'

theorem Control.step {st : Stream} (h2 : 2 ≤ ld)
    (hf : Fetch ld s st) (h : Control s) (ha : AlignsAccesses s i) :
    Control (s.step c ld i) :=
  h.next ha (hf.steps h2 h)

-- ---------------------------------------------------------------------------
-- Runs
-- ---------------------------------------------------------------------------

structure AtReset (s : Core) : Prop where
  exu : Mexu.IsReset s.exu
  ifu : Ifu.IsReset s.ifu

theorem AtReset.idle (h : AtReset s) : (s.ifui i).nexti = false ∧ (s.ifui i).jump = false := by
  have hnexti : (s.ifui i).nexti = false := by
    by_contra hn
    rcases nexti_cases (by simpa using hn) with hx | hs | ⟨-, hv⟩
    · rw [h.exu.xc] at hx
      cases hx
    · rw [h.exu.state] at hs
      cases hs
    · have := (init_of_valid hv).2.2.2.2
      rw [h.ifu.insnTop] at this
      omega
  refine ⟨hnexti, ?_⟩
  by_contra hj
  rcases jump_cases (by simpa using hj) with hj | ⟨-, hop⟩ | hj
  · rw [xcJump_iff, h.exu.xc] at hj
    exact absurd hj.1 (by decide)
  · rw [h.exu.bubble.nop] at hop
    cases hop
  · rw [h.exu.state] at hj
    cases hj

theorem AtReset.control (h : AtReset s) : Control s where
  kind := by
    have hf : faults s.exu.r.d = false := by
      rw [faults, h.exu.bubble.illOp, h.exu.bubble.sys, h.exu.bubble.trap]
      rfl
    refine ⟨fun _ => h.exu.bubble.nop, fun hop => ?_⟩
    rw [h.exu.bubble.nop] at hop
    cases hop
  state := by
    rw [h.exu.state, h.exu.bubble.nop]
    rfl
  jump hop := by
    rw [h.exu.bubble.nop] at hop
    exact absurd hop (by decide)
  exception hx := absurd h.exu.xc hx
  entered hx := by
    rw [h.exu.xc] at hx
    cases hx
  skipped hz := by
    rw [h.ifu.insnTop] at hz
    cases hz

/-- Nothing is executed in the first cycle. -/
theorem AtReset.idle_next (h : AtReset s) (ha : AlignsAccesses s i) :
    (s.step c ld i).exu.r.x.state = .init ∧ (s.step c ld i).exu.r.e.state = .init ∧
      (s.step c ld i).exu.r.d.exOp = .nop ∧ Kind (s.step c ld i).exu.r.d := by
  have hc := h.control
  have hf : faults s.exu.r.d = false := by
    rw [faults, h.exu.bubble.illOp, h.exu.bubble.sys, h.exu.bubble.trap]
    rfl
  have hx : (s.step c ld i).exu.r.x.state = .init :=
    hc.no_fault ha h.exu.xc (.inr ⟨hf, by rw [h.exu.bubble.nop]; decide⟩)
  have hnop : (s.step c ld i).exu.r.d.exOp = .nop ∧ Kind (s.step c ld i).exu.r.d := by
    cases fate c s i with
    | kept _ hd =>
      have hk := hc.kind
      rw [← hd] at hk
      exact ⟨(congrArg Mexu.DecodeReg.exOp hd).trans h.exu.bubble.nop, hk⟩
    | bubble _ hd hk => exact ⟨hd.nop, hk⟩
    | taken _ hv _ _ =>
      have := (init_of_valid hv).2.2.2.2
      rw [h.ifu.insnTop] at this
      omega
  have hstate : (s.step c ld i).exu.r.e.state = .init := by
    simp [Core.step, Mexu.step, Mexu.next, Mexu.nextState, h.exu.state, h.exu.bubble.nop]
  exact ⟨hx, hstate, hnop⟩

theorem AtReset.control_next (h : AtReset s) (ha : AlignsAccesses s i)
    (htop : (s.step c ld i).ifu.insnTop = 1) : Control (s.step c ld i) := by
  obtain ⟨hx, hstate, hnop⟩ := h.idle_next ha
  exact
    { kind := hnop.2
      state := by rw [hstate, hnop.1]; rfl
      jump := fun hop => by
        rw [hnop.1] at hop
        exact absurd hop (by decide)
      exception := fun hne => absurd hx hne
      entered := fun hj => by
        rw [hx] at hj
        cases hj
      skipped := fun hz => by
        rw [htop] at hz
        cases hz }

end Cycle

section Runs

variable (c : Mexu.Config) (ld : ℕ) (s : Core) (i : ℕ → CoreIn)

def coreRun : ℕ → Core := Lib.run (fun s i => s.step c ld i) s i

/-- Where the program is. -/
def coreStream : ℕ → Stream
  | 0 => Stream.reset
  | t + 1 => (coreStream t).step ((coreRun c ld s i t).ifui (i t))
      ((coreRun c ld s i t).ifu.insnBuf 1)

/-- Acknowledges answer requests. -/
structure CoreEnv : Prop where
  rpAck : ∀ t, (i t).rpAck = true → (coreRun c ld s i t).ifu.rpRd = true
  align : ∀ t, AlignsAccesses (coreRun c ld s i t) (i t)

variable {c ld s i}

theorem coreRun_succ (t : ℕ) : coreRun c ld s i (t + 1) = (coreRun c ld s i t).step c ld (i t) := rfl

/-- One cycle after reset the first request is out. -/
theorem coreRun_one (h2 : 2 ≤ ld) (hr : AtReset s) (henv : CoreEnv c ld s i) :
    Ifu.FirstFetch (coreRun c ld s i 1).ifu ∧ Ifu.HaltsBehindJumps (coreRun c ld s i 1).ifu ∧
      coreStream c ld s i 1 = Stream.reset := by
  obtain ⟨hn, hj⟩ := hr.idle (i := i 0)
  have hack : (i 0).rpAck = false := by
    by_contra ha
    have := henv.rpAck 0 (by simpa using ha)
    simp [coreRun, hr.ifu.rpRd] at this
  have hifu : (coreRun c ld s i 1).ifu = Ifu.next ld s.ifu (s.ifui (i 0)) false (i 0).rpData := by
    rw [← hack]
    rfl
  have hstream : coreStream c ld s i 1 = Stream.reset := by
    have : coreStream c ld s i 1 = Stream.reset.step (s.ifui (i 0)) (s.ifu.insnBuf 1) := rfl
    rw [this, Stream.step, hn, hj]
    rfl
  obtain ⟨hfirst, hhalts⟩ := Ifu.firstFetch h2 hr.ifu hn hj (i 0).rpData
  rw [← hifu] at hfirst hhalts
  exact ⟨hfirst, hhalts, hstream⟩

theorem fetch_first (h2 : 2 ≤ ld) (hr : AtReset s) (henv : CoreEnv c ld s i) :
    Fetch ld (coreRun c ld s i 1) (coreStream c ld s i 1) ∧ Control (coreRun c ld s i 1) := by
  obtain ⟨hfirst, hhalts, hstream⟩ := coreRun_one h2 hr henv
  have hN := Ifu.four_le_bufSize h2
  refine ⟨?_, hr.control_next (henv.align 0) hfirst.insnTop⟩
  rw [hstream]
  have hplace : (coreRun c ld s i 1).ifu.insnTop +
      (coreRun c ld s i 1).ifu.lastRpAck.toNat = 1 := by
    rw [hfirst.insnTop, hfirst.lastRpAck]
    rfl
  have htracks : Ifu.Tracks (bufSize ld) (fun _ => 0) (coreRun c ld s i 1).ifu 0 Stream.reset :=
    hfirst.tracks hN 0
  exact
    { queue := htracks.toQueue
      request := fun _ => by
        rw [hplace, hfirst.adrTop, hfirst.rpAdr, hfirst.adr]
        exact ⟨by decide, by omega, rfl⟩
      ahead := .inl ⟨hfirst.adrTop, hplace⟩
      halts := hhalts }

/-- What a run keeps, as long as the fetch unit is in time. -/
theorem fetch_run (h2 : 2 ≤ ld) (hr : AtReset s) (henv : CoreEnv c ld s i)
    (htime : ∀ t, InTime (coreRun c ld s i t) (i t)) (t : ℕ) :
    Fetch ld (coreRun c ld s i (t + 1)) (coreStream c ld s i (t + 1)) ∧
      Control (coreRun c ld s i (t + 1)) := by
  induction t with
  | zero => exact fetch_first h2 hr henv
  | succ t ih =>
    obtain ⟨hf, hc⟩ := ih
    exact ⟨hf.step h2 hc (htime _) (henv.rpAck _), hc.step h2 hf (henv.align _)⟩

end Runs

end ParaNut.Cpu
