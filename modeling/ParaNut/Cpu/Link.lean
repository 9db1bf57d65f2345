import ParaNut.Cpu.Core

/-!
# The link register

`l.jal` and `l.jalr` write it in their first cycle, with what the fetch unit
offers as the address after the next one, whether that is valid or not. It is
valid, and the right one, unless the jump is itself in a delay slot. That a
program has no jumps there helps only as long as the fetch unit offers the
words of the program: `InPlace`.
-/

namespace ParaNut.Cpu

open Exu (ExOp op1)
open Ifu (Stream bufSize isJump)

attribute [local instance] Exu.op_lawfulBEq in
/-- `J | JAL | BF | BNF | JR | JALR` -/
def jumps (ir : TWord) : Bool :=
  op1 ir ∈ [0b000000#6, 0b000001#6, 0b000100#6, 0b000011#6, 0b010001#6, 0b010010#6]

attribute [local instance] Exu.op_lawfulBEq in
/-- `JAL | JALR` -/
def links (ir : TWord) : Bool := op1 ir ∈ [0b000001#6, 0b010010#6]

/-- A word that arrives is for the place that the word asked for last will have. -/
structure InPlace (s : Core) (i : CoreIn) : Prop where
  asked : i.rpAck = true →
    s.ifu.rpAdr = s.ifu.adrBuf (s.ifu.insnTop + s.ifu.lastRpAck.toNat)
  /-- in the cycle of an exception's jump no word from behind the next instruction is under way -/
  exception : Mexu.xcJump s.exu.r = true → Ifu.JumpsInTime s.ifu (s.ifui i) i.rpAck

/-- The next instruction is taken. -/
def takes (s : Core) (i : CoreIn) : Bool :=
  Mexu.exNexti s.exu.r (s.exuIn i) && !Mexu.idNextiInvalid s.exu.r s.exu.spr (s.exuIn i)

/-- The program has no jump where an instruction is taken before a jump takes effect. -/
def SlotFree (mem : WordAdr → TWord) (s : Core) (i : CoreIn) (st : Stream) : Prop :=
  takes s i = true → st.target ≠ none → jumps (mem (wordOf st.pc)) = false

/-- A jump writes the link register. -/
def linkWritten (c : Mexu.Config) (s : Core) (i : CoreIn) : Bool :=
  s.exu.r.d.exOp == .jump && (Mexu.rfi c s.exu.r s.exu.spr (s.exuIn i)).wrEn

/-- The link register gets the address of the jump plus 8. -/
structure Linked (c : Mexu.Config) (mem : WordAdr → TWord) (s : Core) (i : CoreIn) : Prop where
  npcValid : (s.exuIn i).ifuo.npcValid = true
  insn : links (mem (wordOf s.exu.r.d.pc)) = true
  wrAddr : (Mexu.rfi c s.exu.r s.exu.spr (s.exuIn i)).wrAddr = 9
  wrData : (Mexu.rfi c s.exu.r s.exu.spr (s.exuIn i)).wrData = s.exu.r.d.pc + 8

-- ---------------------------------------------------------------------------
-- Decoding
-- ---------------------------------------------------------------------------

/-- What the decoder makes of a jump. -/
def JumpDecoded (ir : TWord) (d : Mexu.DecodeReg) : Prop :=
  d.exOp = .jump → jumps ir = true ∧
    (d.wbJumpLinked = true → d.wbWdataSel = .npc ∧ links ir = true)

theorem JumpDecoded.ite {ir : TWord} {a b : Mexu.Decoded} {p : Prop} [Decidable p]
    (ha : p → JumpDecoded ir a.d) (hb : ¬ p → JumpDecoded ir b.d) :
    JumpDecoded ir (if p then a else b).d := by
  split
  · exact ha ‹_›
  · exact hb ‹_›

theorem decodeOp_jump (ir sr : TWord) : JumpDecoded ir (Mexu.decodeOp ir sr).d := by
  unfold Mexu.decodeOp
  refine .ite (fun _ => ?alu) fun _ => .ite (fun _ => ?addi) fun _ => .ite (fun _ => ?muli) fun _ =>
    .ite (fun _ => ?setf) fun _ => .ite (fun _ => ?srli) fun _ => .ite (fun _ => ?setfi) fun _ =>
    .ite (fun _ => ?movhi) fun _ => .ite (fun _ => ?load) fun _ => .ite (fun _ => ?store) fun _ =>
    .ite (fun _ => ?cust7) fun _ => .ite (fun hop => ?jump) fun _ => .ite (fun _ => ?nop) fun _ =>
    .ite (fun _ => ?other) fun _ => .ite (fun _ => ?rfe) fun _ => .ite (fun _ => ?mfspr) fun _ =>
    .ite (fun _ => ?mtspr) fun _ => ?illegal
  case alu =>
    refine .ite (fun _ => ?_) fun _ => .ite (fun _ => ?_) fun _ => .ite (fun _ => ?_) fun _ => ?_ <;>
      exact nofun
  case nop => exact .ite (fun _ => nofun) fun _ => nofun
  case other => exact .ite (fun _ => nofun) fun _ => .ite (fun _ => nofun) fun _ => nofun
  case jump =>
    refine .ite (fun _ => ?_) fun _ => nofun
    by_cases hreg : 0b010001#6 ≤ op1 ir <;>
      by_cases hlink : op1 ir = 0b000001#6 ∨ op1 ir = 0b010010#6 <;>
      simp only [hreg, hlink, if_true, if_false]
    · exact fun _ => ⟨decide_eq_true hop, fun _ => ⟨rfl, by simpa [links] using hlink⟩⟩
    · exact fun _ => ⟨decide_eq_true hop, nofun⟩
    · exact fun _ => ⟨decide_eq_true hop, fun _ => ⟨rfl, by simpa [links] using hlink⟩⟩
    · exact fun _ => ⟨decide_eq_true hop, nofun⟩
  all_goals exact nofun

section Cycle

variable {c : Mexu.Config} {ld : ℕ} {mem : WordAdr → TWord} {s : Core} {i : CoreIn} {st : Stream}
  {data data' : TWord}

-- ---------------------------------------------------------------------------
-- The words in the fetch unit
-- ---------------------------------------------------------------------------

/-- The fetch unit offers the words of the program. -/
structure Words (ld : ℕ) (mem : WordAdr → TWord) (s : Core) (data : TWord) (st : Stream) : Prop where
  follows : Ifu.Follows (bufSize ld) mem s.ifu data st
  room : s.ifu.rpRd = true →
    s.ifu.insnTop + s.ifu.lastRpAck.toNat < s.ifu.adrTop ∧
      s.ifu.insnTop + s.ifu.lastRpAck.toNat < bufSize ld
  halts : Ifu.HaltsBehindJumps s.ifu

theorem Words.steps (h2 : 2 ≤ ld) (h : Words ld mem s data st) (hc : Control s) :
    Ifu.Steps isJump (bufSize ld) s.ifu (s.ifui i) i.rpAck i.rpData (s.step c ld i).ifu :=
  Ifu.next_steps h2 h.follows.toQueue hc.nexti_le

theorem Words.step (h2 : 2 ≤ ld) (h : Words ld mem s i.rpData st) (hc : Control s)
    (hp : InPlace s i) (hrd : i.rpAck = true → s.ifu.rpRd = true)
    (hdata : i.rpAck = true → data' = mem (wordOf s.ifu.rpAdr)) :
    Words ld mem (s.step c ld i) data' (st.step (s.ifui i) (s.ifu.insnBuf 1)) := by
  have hN := Ifu.four_le_bufSize h2
  have hst := h.steps (c := c) (i := i) h2 hc
  have hj := hc.jumpsInTime h.halts hrd fun hx => .inr (hp.exception hx)
  have hreq : i.rpAck = true → Ifu.Requests (bufSize ld) mem s.ifu := fun ha hr =>
    ⟨(h.room hr).1, (h.room hr).2, by rw [hp.asked ha]⟩
  refine ⟨h.follows.step hN hst hc.nexti_le hj hrd hreq hdata _, fun hr => ?_,
    Ifu.haltsBehindJumps_next h2 h.halts h.follows.toQueue hc.nexti_le hj hrd⟩
  obtain ⟨hlt, hroom, -, -⟩ := hst.request hr
  rw [hst.lastRpAck]
  exact ⟨hlt, by omega⟩

-- ---------------------------------------------------------------------------
-- The jump in the execution unit
-- ---------------------------------------------------------------------------

/-- The jump that is executed, and where the program is. -/
structure LinkReady (mem : WordAdr → TWord) (s : Core) (st : Stream) : Prop where
  /-- only the first address is known before the first instruction -/
  known : s.ifu.adrTop = 2 →
    s.exu.r.x.state = .init ∧ s.exu.r.e.state = .init ∧ s.exu.r.d.exOp = .nop ∧ s.ifu.insnTop = 1
  jump : s.exu.r.d.exOp = .jump → st.pc = s.exu.r.d.pc + 4 ∧
    JumpDecoded (mem (wordOf s.exu.r.d.pc)) s.exu.r.d
  notInSlot : s.exu.r.d.exOp = .jump → s.exu.r.e.state = .init → st.target = none
  /-- a target that waits is skipped to, or waits for the delay slot of a jump of the program -/
  slot : st.target ≠ none → s.exu.r.x.state = .jump ∨ s.exu.r.e.state = .rfe ∨
    jumps (mem (wordOf (st.pc - 4))) = true

/-- Before the first instruction nothing is consumed. -/
theorem LinkReady.adrTop_next (h : LinkReady mem s st) (hq : Ifu.Queue (bufSize ld) s.ifu st)
    {r : Ifu.Registers} (h2 : 2 ≤ ld)
    (hst : Ifu.Steps isJump (bufSize ld) s.ifu (s.ifui i) i.rpAck i.rpData r) : r.adrTop ≠ 2 := by
  have hN := Ifu.four_le_bufSize h2
  have htwo := hq.two_le
  rw [hst.adrTop]
  split_ifs with hj
  · decide
  · cases hn : (s.ifui i).nexti with
    | false =>
      rw [Bool.toNat_false]
      omega
    | true =>
      have hne : s.ifu.adrTop ≠ 2 := fun hz => by
        obtain ⟨hx, he, hop, htop⟩ := h.known hz
        rcases nexti_cases hn with hxj | hr | ⟨-, hv⟩
        · cases hx.symm.trans hxj
        · exact nomatch he.symm.trans hr
        · have := (init_of_valid hv).2.2.2.2
          omega
      rw [Bool.toNat_true]
      omega

theorem stream_kept (hn : (s.ifui i).nexti = false) (hj : (s.ifui i).jump = false) (ir : TWord) :
    st.step (s.ifui i) ir = st := by
  rw [Stream.step, hn, hj]
  rfl

/-- While a jump is in its first cycle, the fetch unit is left alone. -/
theorem Control.quiet_of_kept (hc : Control s) (hn : Mexu.exNexti s.exu.r (s.exuIn i) = false)
    (hop : s.exu.r.d.exOp = .jump) :
    s.exu.r.e.state = .init ∧ (s.ifui i).nexti = false ∧ (s.ifui i).jump = false := by
  have hs : s.exu.r.e.state = .init := by
    have hstate := hc.state
    rw [hop] at hstate
    cases hs : s.exu.r.e.state with
    | init => rfl
    | jump =>
      rw [Mexu.exNexti, hs] at hn
      cases hn
    | _ =>
      rw [hs] at hstate
      cases hstate
  have hx := (hc.jump (.inl hop)).2.2
  refine ⟨hs, ?_, ?_⟩
  · by_contra hne
    rcases nexti_cases (by simpa using hne) with hxj | hr | ⟨hn', -⟩
    · cases hx.symm.trans hxj
    · cases hs.symm.trans hr
    · cases hn.symm.trans hn'
  · by_contra hne
    rcases jump_cases (by simpa using hne) with hxj | ⟨-, hr⟩ | hj
    · cases hx.symm.trans (xcJump_iff.mp hxj).1
    · cases hop.symm.trans hr
    · cases hs.symm.trans hj

/-- An instruction that is taken is consumed. -/
theorem Control.consumes (hc : Control s) (hn : Mexu.exNexti s.exu.r (s.exuIn i) = true)
    (hv : Mexu.idNextiInvalid s.exu.r s.exu.spr (s.exuIn i) = false) :
    (s.ifui i).nexti = true ∧ (s.ifui i).jump = false := by
  have hnexti : (s.ifui i).nexti = true := by
    have hj : Mexu.exJump s.exu.r = false := beq_eq_false_iff_ne.mpr (init_of_valid hv).2.2.1
    simp [Core.ifui, Mexu.ifui, hn, hv, hj]
  refine ⟨hnexti, ?_⟩
  by_contra hj
  cases hnexti.symm.trans (hc.apart (by simpa using hj))

/-- The instruction that is taken, in the execution unit. -/
theorem Words.taken (h : Words ld mem s data st)
    (hn : Mexu.exNexti s.exu.r (s.exuIn i) = true)
    (hv : Mexu.idNextiInvalid s.exu.r s.exu.spr (s.exuIn i) = false) :
    (s.step c ld i).exu.r.d.pc = st.pc ∧
      JumpDecoded (mem (wordOf st.pc)) (s.step c ld i).exu.r.d := by
  have hir : s.ifu.insnBuf 1 = mem (wordOf st.pc) := by
    rw [← h.follows.pc]
    exact h.follows.insn 1 (Nat.le_refl 1) (init_of_valid hv).2.2.2.2
  have hd : ∃ a b, (s.step c ld i).exu.r.d =
      Mexu.operands c (Mexu.decoded s.exu.r s.exu.spr (s.exuIn i)) (s.exuIn i).ifuo.ir a b :=
    ⟨_, _, if_pos hn⟩
  obtain ⟨a, b, hd⟩ := hd
  rw [Mexu.decoded, hv] at hd
  rw [hd, ← hir]
  exact ⟨h.follows.pc, decodeOp_jump (s.ifu.insnBuf 1) s.exu.spr.sr⟩

/-- The target of a jump is pending for as long as the instruction before it takes. -/
theorem LinkReady.slot_next (h : LinkReady mem s st) (hc : Control s) (ir : TWord)
    (hne : (st.step (s.ifui i) ir).target ≠ none) :
    (s.step c ld i).exu.r.x.state = .jump ∨ (s.step c ld i).exu.r.e.state = .rfe ∨
      jumps (mem (wordOf ((st.step (s.ifui i) ir).pc - 4))) = true := by
  rw [Stream.step_pc]
  cases hj : (s.ifui i).jump with
  | true =>
    rw [hc.apart hj, if_neg Bool.false_ne_true]
    have hcases := hj
    simp only [Core.ifui, Mexu.ifui, Bool.or_eq_true] at hcases
    rcases hcases with (hx | hr) | he
    · refine .inl (nextXc_state.trans ?_)
      obtain ⟨hx, he⟩ := xcJump_iff.mp hx
      simp only [Mexu.nextXc, hx, he, if_true]
    · refine .inr (.inl ?_)
      simp only [Mexu.exRfeJump, Bool.and_eq_true, beq_iff_eq, Bool.not_eq_true'] at hr
      obtain ⟨⟨hs, hdu⟩, hop⟩ := hr
      simp [Core.step, Mexu.step, Mexu.next, Mexu.nextState, hs, hdu, hop]
    · have hop := op_of_jump hc (beq_iff_eq.mp he)
      obtain ⟨hpc, hd⟩ := h.jump hop
      refine .inr (.inr ?_)
      rw [hpc, BitVec.add_sub_cancel]
      exact (hd hop).1
  | false =>
    rw [Stream.step_target, hj, if_neg Bool.false_ne_true] at hne
    cases hn : (s.ifui i).nexti with
    | true => exact absurd (if_pos hn) hne
    | false =>
      rw [if_neg (by rw [hn]; decide)] at hne
      have hskip : s.exu.r.x.state ≠ .jump ∧ s.exu.r.e.state ≠ .rfe := by
        refine ⟨fun hx => ?_, fun he => ?_⟩ <;>
          simp [Core.ifui, Mexu.ifui, Mexu.xcSkipDelaySlot, Mexu.exSkipDelaySlot, *] at hn
      rw [if_neg Bool.false_ne_true]
      exact .inr (.inr (((h.slot hne).resolve_left hskip.1).resolve_left hskip.2))

theorem LinkReady.step (h2 : 2 ≤ ld) (h : LinkReady mem s st) (hw : Words ld mem s data st)
    (hc : Control s) (hfree : SlotFree mem s i st) :
    LinkReady mem (s.step c ld i) (st.step (s.ifui i) (s.ifu.insnBuf 1)) := by
  have hst := hw.steps (c := c) (i := i) h2 hc
  have hadr := h.adrTop_next hw.follows.toQueue h2 hst
  have hnop : (s.step c ld i).exu.r.d.exOp = .jump → (s.step c ld i).exu.r.d.exOp ≠ .nop := by
    intro hop
    rw [hop]
    decide
  refine ⟨fun hz => absurd hz hadr, ?_, ?_, h.slot_next hc _⟩
  · intro hop
    cases fate c s i with
    | kept hn hd =>
      have heq : (s.step c ld i).exu.r.d = s.exu.r.d := hd
      rw [heq] at hop ⊢
      obtain ⟨-, hnexti, hj⟩ := hc.quiet_of_kept hn hop
      rw [stream_kept hnexti hj]
      exact h.jump hop
    | bubble _ hb _ => exact absurd hb.nop (hnop hop)
    | taken hn hv _ _ =>
      obtain ⟨hpc, hd⟩ : (s.step c ld i).exu.r.d.pc = st.pc ∧ _ := hw.taken hn hv
      obtain ⟨hnexti, hj⟩ := hc.consumes hn hv
      have hnone : st.target = none := by
        by_contra hne
        have := hfree (by rw [takes, hn, hv]; rfl) hne
        exact nomatch this.symm.trans (hd hop).1
      rw [Stream.step_pc, if_pos hnexti, hpc, hnone]
      exact ⟨rfl, hd⟩
  · intro hop _
    cases fate c s i with
    | kept hn hd =>
      have heq : (s.step c ld i).exu.r.d = s.exu.r.d := hd
      rw [heq] at hop
      obtain ⟨hs, hnexti, hj⟩ := hc.quiet_of_kept hn hop
      rw [stream_kept hnexti hj]
      exact h.notInSlot hop hs
    | bubble _ hb _ => exact absurd hb.nop (hnop hop)
    | taken hn hv _ _ =>
      obtain ⟨hnexti, hj⟩ := hc.consumes hn hv
      rw [Stream.step_target, hj, if_neg Bool.false_ne_true, if_pos hnexti]

/-- A jump writes the link register in its first cycle. -/
theorem Control.linking (hc : Control s) (hl : linkWritten c s i = true) :
    s.exu.r.d.exOp = .jump ∧ s.exu.r.e.state = .init ∧ s.exu.r.d.wbJumpLinked = true := by
  obtain ⟨hop, hwr⟩ : s.exu.r.d.exOp = .jump ∧ Mexu.exRfWrite s.exu.r (s.exuIn i) = true := by
    simpa [linkWritten, Mexu.rfi] using hl
  have hstate := hc.state
  rw [hop] at hstate
  unfold Mexu.exRfWrite at hwr
  cases hs : s.exu.r.e.state <;> rw [hs] at hwr hstate
  case init => exact ⟨hop, rfl, (Bool.and_eq_true_iff.mp hwr).2⟩
  all_goals first | cases hwr; done | cases hstate

theorem LinkReady.linked (h : LinkReady mem s st) (hq : Ifu.Queue (bufSize ld) s.ifu st)
    (hc : Control s) (hl : linkWritten c s i = true) : Linked c mem s i := by
  obtain ⟨hop, hs, hlinked⟩ := hc.linking hl
  obtain ⟨hpc, hd⟩ := h.jump hop
  obtain ⟨hsel, hinsn⟩ := (hd hop).2 hlinked
  have hadr : 2 < s.ifu.adrTop := by
    refine Nat.lt_of_le_of_ne hq.two_le fun hz => ?_
    exact nomatch hop.symm.trans (h.known hz.symm).2.2.1
  have hnpc : s.ifu.adrBuf 2 = s.exu.r.d.pc + 8 := by
    rw [hq.npc hadr, h.notInSlot hop hs, hpc, Option.getD_none, BitVec.add_assoc]
    rfl
  refine ⟨decide_eq_true hadr, hinsn, if_pos hlinked, ?_⟩
  rw [Mexu.rfi, hsel]
  exact hnpc

end Cycle

-- ---------------------------------------------------------------------------
-- Runs
-- ---------------------------------------------------------------------------

section Runs

variable {c : Mexu.Config} {ld : ℕ} {mem : WordAdr → TWord} {s : Core} {i : ℕ → CoreIn}

/-- What a run from reset keeps, as long as the words come from the right places and the program
has no jumps in delay slots. -/
theorem linkReady_run (h2 : 2 ≤ ld) (hr : AtReset s) (henv : CoreEnv c ld s i)
    (hmem : ∀ t, (i t).rpAck = true →
      (i (t + 1)).rpData = mem (wordOf (coreRun c ld s i t).ifu.rpAdr)) (t : ℕ)
    (hplace : ∀ u < t + 1, InPlace (coreRun c ld s i u) (i u))
    (hfree : ∀ u < t + 1, SlotFree mem (coreRun c ld s i u) (i u) (coreStream c ld s i u)) :
    Control (coreRun c ld s i (t + 1)) ∧
      Words ld mem (coreRun c ld s i (t + 1)) (i (t + 1)).rpData (coreStream c ld s i (t + 1)) ∧
      LinkReady mem (coreRun c ld s i (t + 1)) (coreStream c ld s i (t + 1)) := by
  induction t with
  | zero =>
    obtain ⟨hfirst, hhalts, hstream⟩ := coreRun_one h2 hr henv
    obtain ⟨hx, he, hop, -⟩ : (coreRun c ld s i 1).exu.r.x.state = .init ∧
      (coreRun c ld s i 1).exu.r.e.state = .init ∧ (coreRun c ld s i 1).exu.r.d.exOp = .nop ∧ _ :=
      hr.idle_next (henv.align 0)
    have hN := Ifu.four_le_bufSize h2
    have htracks : Ifu.Tracks (bufSize ld) mem (coreRun c ld s i 1).ifu (i 1).rpData Stream.reset :=
      hfirst.tracks hN _
    have hnot : (coreRun c ld s i 1).exu.r.d.exOp ≠ .jump := fun hjump =>
      nomatch hjump.symm.trans hop
    rw [hstream]
    refine ⟨hr.control_next (henv.align 0) hfirst.insnTop, ⟨htracks.toFollows, fun _ => ?_, hhalts⟩,
      ⟨fun _ => ⟨hx, he, hop, hfirst.insnTop⟩, fun hjump => absurd hjump hnot,
        fun hjump => absurd hjump hnot, fun hne => absurd rfl hne⟩⟩
    rw [hfirst.insnTop, hfirst.lastRpAck, hfirst.adrTop, Bool.toNat_false]
    exact ⟨by decide, by omega⟩
  | succ t ih =>
    obtain ⟨hc, hw, hl⟩ := ih (fun u hu => hplace u (Nat.lt_succ_of_lt hu))
      fun u hu => hfree u (Nat.lt_succ_of_lt hu)
    have hlt := Nat.lt_succ_self (t + 1)
    exact ⟨hc.next (henv.align _) (hw.steps h2 hc),
      hw.step h2 hc (hplace _ hlt) (henv.rpAck _) (hmem _), hl.step h2 hw hc (hfree _ hlt)⟩

theorem wordOf_add_four (a : TWord) : wordOf (a + 4) = wordOf a + 1 := by
  unfold wordOf
  apply BitVec.eq_of_toNat_eq
  simp only [BitVec.extractLsb'_toNat, BitVec.toNat_add, Nat.shiftRight_eq_div_pow]
  simp
  omega

/-- The program has no jump behind a jump. -/
def NoJumpInSlot (mem : WordAdr → TWord) : Prop :=
  ∀ a, jumps (mem a) = true → jumps (mem (a + 1)) = false

theorem LinkReady.slotFree {s : Core} {i : CoreIn} {st : Stream} (hprog : NoJumpInSlot mem)
    (h : LinkReady mem s st) : SlotFree mem s i st := by
  intro ht hne
  obtain ⟨-, hv⟩ := Bool.and_eq_true_iff.mp ht
  obtain ⟨hx, -, -, hr, -⟩ := init_of_valid (Bool.not_eq_true' _ ▸ hv)
  have hjump := ((h.slot hne).resolve_left (by rw [hx]; decide)).resolve_left hr
  rw [← BitVec.sub_add_cancel st.pc 4, wordOf_add_four]
  exact hprog _ hjump

theorem AtReset.not_takes {s : Core} (hr : AtReset s) (i : CoreIn) : takes s i = false := by
  by_contra ht
  obtain ⟨-, hv⟩ := Bool.and_eq_true_iff.mp (Bool.not_eq_false _ ▸ ht)
  have htop := (init_of_valid (Bool.not_eq_true' _ ▸ hv)).2.2.2.2
  rw [hr.ifu.insnTop] at htop
  exact absurd htop (by decide)

/-- A program without a jump behind a jump takes none in a delay slot. -/
theorem slotFree_run (h2 : 2 ≤ ld) (hr : AtReset s) (henv : CoreEnv c ld s i)
    (hmem : ∀ t, (i t).rpAck = true →
      (i (t + 1)).rpData = mem (wordOf (coreRun c ld s i t).ifu.rpAdr))
    (hprog : NoJumpInSlot mem) (t : ℕ)
    (hplace : ∀ u < t, InPlace (coreRun c ld s i u) (i u)) :
    SlotFree mem (coreRun c ld s i t) (i t) (coreStream c ld s i t) := by
  induction t using Nat.strongRecOn with
  | _ t ih =>
    cases t with
    | zero => exact fun ht => nomatch ht.symm.trans (hr.not_takes (i 0))
    | succ t =>
      have hready := linkReady_run h2 hr henv hmem t hplace fun u hu =>
        ih u hu fun v hv => hplace v (Nat.lt_trans hv hu)
      exact hready.2.2.slotFree hprog

/-- As long as the words come from the right places and no jump is in a delay slot, the link
register gets the address of the jump plus 8, from a valid address. -/
theorem link_written (h2 : 2 ≤ ld) (hr : AtReset s) (henv : CoreEnv c ld s i)
    (hmem : ∀ t, (i t).rpAck = true →
      (i (t + 1)).rpData = mem (wordOf (coreRun c ld s i t).ifu.rpAdr)) (t : ℕ)
    (hplace : ∀ u < t, InPlace (coreRun c ld s i u) (i u))
    (hfree : ∀ u < t, SlotFree mem (coreRun c ld s i u) (i u) (coreStream c ld s i u))
    (hl : linkWritten c (coreRun c ld s i t) (i t) = true) :
    Linked c mem (coreRun c ld s i t) (i t) := by
  cases t with
  | zero =>
    have hop := (hr.control.linking hl).1
    cases hop.symm.trans hr.exu.bubble.nop
  | succ t =>
    obtain ⟨hc, hw, hready⟩ := linkReady_run h2 hr henv hmem t hplace hfree
    exact hready.linked hw.follows.toQueue hc hl

end Runs

instance (mem : WordAdr → TWord) (s : Core) (i : CoreIn) (st : Stream) :
    Decidable (SlotFree mem s i st) := inferInstanceAs (Decidable (_ → _ → _))

def jalWord : TWord := 0x04000040  -- l.jal 256

def nopWord : TWord := 0x15000000  -- l.nop

/-- Calls at 0 and at 0x100. -/
def callMem (a : WordAdr) : TWord := if a = 0 ∨ a = 0x40 then jalWord else nopWord

/-- The third address is not reset, here it is 0. -/
def callReset : Core where
  exu := Mexu.resetState
  ifu := ⟨fun _ => nopWord, fun n => if n = 0 then 0xfc else if n = 1 then 0x100 else 0, 1, 1, false,
    false, 0⟩

/-- Acknowledges in cycles `first` and 2, with the words that are asked for. -/
def callPort (first : ℕ) (t : ℕ) : CoreIn :=
  ⟨decide (t = first ∨ t = 2), jalWord, ⟨false, false, 0⟩, false⟩

def callRun (first : ℕ) : ℕ → Core := coreRun Mexu.plainConfig 2 callReset (callPort first)

theorem callReset_atReset : AtReset callReset :=
  ⟨⟨rfl, rfl, rfl, ⟨rfl, rfl, rfl, rfl, rfl, rfl, rfl⟩, ⟨rfl, rfl, rfl, rfl⟩⟩,
    ⟨rfl, rfl, rfl, rfl, rfl, rfl⟩⟩

theorem callMem_noJumpInSlot : NoJumpInSlot callMem := by
  intro a ha
  have hcall : a = 0 ∨ a = 0x40 := by
    by_contra hne
    rw [callMem, if_neg hne] at ha
    exact absurd ha (by decide)
  obtain rfl | rfl := hcall <;> decide

theorem callPort_env {first : ℕ} (hfirst : first = 1 ∨ first = 2) :
    CoreEnv Mexu.plainConfig 2 callReset (callPort first) ∧
      ∀ t, (callPort first t).rpAck = true →
        (callPort first (t + 1)).rpData = callMem (wordOf (callRun first t).ifu.rpAdr) := by
  have hack : ∀ t, (callPort first t).rpAck = true → t = first ∨ t = 2 := fun t h =>
    of_decide_eq_true h
  refine ⟨⟨fun t h => ?_, fun t h => nomatch h⟩, fun t h => ?_⟩
  · obtain rfl | rfl := hfirst <;> obtain rfl | rfl := hack t h <;> decide +kernel
  · obtain rfl | rfl := hfirst <;> obtain rfl | rfl := hack t h <;> decide +kernel

theorem link_written_call :
    linkWritten Mexu.plainConfig (callRun 2 5) (callPort 2 5) = true ∧
      Linked Mexu.plainConfig callMem (callRun 2 5) (callPort 2 5) := by
  obtain ⟨henv, hmem⟩ := callPort_env (.inr rfl)
  have hquiet : ∀ u < 5, Mexu.xcJump (callRun 2 u).exu.r = false := by decide +kernel
  refine ⟨by decide +kernel, link_written (by decide) callReset_atReset henv hmem 5
    (fun u hu => ⟨fun ha => ?_, fun hx => ?_⟩) (by decide +kernel) (by decide +kernel)⟩
  · obtain rfl | rfl := (of_decide_eq_true ha : u = 2 ∨ u = 2) <;> decide +kernel
  · exact nomatch hx.symm.trans (hquiet u hu)

/-- If the first two requests are acknowledged at once, a word from the stale address is taken in
the delay slot of the first call, and that is a call, too. -/
theorem link_written_stale :
    ¬ ∀ (c : Mexu.Config) (ld : ℕ) (mem : WordAdr → TWord) (s : Core) (i : ℕ → CoreIn), 2 ≤ ld →
      AtReset s → CoreEnv c ld s i →
      (∀ t, (i t).rpAck = true →
        (i (t + 1)).rpData = mem (wordOf (coreRun c ld s i t).ifu.rpAdr)) →
      NoJumpInSlot mem →
      ∀ t, (∀ u < t, SlotFree mem (coreRun c ld s i u) (i u) (coreStream c ld s i u)) →
        linkWritten c (coreRun c ld s i t) (i t) = true → Linked c mem (coreRun c ld s i t) (i t) := by
  intro h
  obtain ⟨henv, hmem⟩ := callPort_env (.inl rfl)
  have hlinked := h Mexu.plainConfig 2 callMem callReset (callPort 1) (by decide) callReset_atReset
    henv hmem callMem_noJumpInSlot 7 (by decide +kernel) (by decide +kernel)
  have hvalue := hlinked.wrData
  revert hvalue
  decide +kernel

end ParaNut.Cpu
