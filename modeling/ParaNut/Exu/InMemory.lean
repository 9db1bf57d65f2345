import ParaNut.Exu.Pipeline
import ParaNut.Lsu.Shared

/-!
# The execution unit on a memory

Instructions one after the other, with the memory they load from and store to.
If loads deliver what a plain memory contains, to which stores go as they are
acknowledged, the execution unit does what the instructions do on it.
-/

namespace ParaNut.Mexu

open Lsu (PlainMem)

section Definitions

variable (c : Config) (mem : WordAdr → TWord)

/-- What the instruction at `A` loads. -/
def Arch.loaded (A : Arch) (m : PlainMem) : TWord :=
  m.load (A.decode c mem).memLsuWidth (A.decode c mem).memLsuExts (A.result c mem)

/-- Memory after the instruction at `A`. -/
def Arch.stored (A : Arch) (m : PlainMem) : PlainMem :=
  if (A.decode c mem).memLsuStore then
    m.store (A.decode c mem).memLsuWidth (A.result c mem) (A.decode c mem).b
  else m

/-- Registers and memory between two instructions, and the events so far. -/
structure Sequential where
  arch : Arch
  mem : PlainMem
  trace : List Event

/-- One instruction. -/
def Sequential.next (S : Sequential) : Sequential where
  arch := S.arch.exec c mem (S.arch.loaded c mem S.mem)
  mem := S.arch.stored c mem S.mem
  trace := S.trace ++ .insn S.arch.pc :: S.arch.effects c mem (S.arch.loaded c mem S.mem)

/-- After `n` instructions. -/
def Sequential.run (S : Sequential) : ℕ → Sequential
  | 0 => S
  | n + 1 => (S.run n).next c mem

/-- The unit, of which `o` has been seen, is at its place in the run `S`, with the memory `m` that
it sees. The load/store unit delivers `rdata`. -/
inductive Executes (S : ℕ → Sequential) (o : Observed) (m : PlainMem) (rdata : TWord) : Prop
  | waiting (h : Waiting (S o.taken).arch o) (trace : o.trace = (S o.taken).trace)
      (seen : m = (S o.taken).mem)
  | busy (n : ℕ) (taken : o.taken = n + 1) (es : List Event) (h : Busy c mem (S n).arch o es)
      (trace : o.trace = (S n).trace ++ .insn (S n).arch.pc :: es)
      (seen : m = if o.s.r.e.state = .lsWb then (S (n + 1)).mem else (S n).mem)
      (data : o.s.r.e.state = .loadMem → rdata = (S n).arch.loaded c mem (S n).mem)

end Definitions

-- ---------------------------------------------------------------------------
-- Loads and stores
-- ---------------------------------------------------------------------------

theorem Plain.access {d : DecodeReg} (h : Plain d)
    (ha : d.memLsuLoad = true ∨ d.memLsuStore = true) :
    d.exOp = .ls ∧ d.memLsuStore = !d.memLsuLoad := by
  have hs := h.selects
  unfold Selects at hs
  cases hop : d.exOp <;> rw [hop] at hs <;> simp only at hs
  case ls => exact ⟨rfl, hs.2.2.2.1⟩
  case nop => exact absurd ha (by simp [hs.2.2.1, hs.2.2.2.1])
  case jump => exact absurd ha (by simp [hs.2.2.1, hs.2.2.2.1])
  case alu => exact absurd ha (by simp [hs.2.2.2.1, hs.2.2.2.2])
  case shift => exact absurd ha (by simp [hs.2.2.2.2.1, hs.2.2.2.2.2.1])
  case mul => exact absurd ha (by simp [hs.2.2.2.2.1, hs.2.2.2.2.2.1])

section Step

variable {c : Config} {mem : WordAdr → TWord} {S : ℕ → Sequential} {A : Arch} {o : Observed}
  {i : In} {n : ℕ} {es : List Event} {m : PlainMem} {rdata rdata' : TWord}

theorem lsui_idle {r : Registers} (h : r.e.state ≠ .lsMemStall) :
    (lsui r).rd = false ∧ (lsui r).wr = false := by
  simp only [lsui, beq_eq_false_iff_ne.mpr h, Bool.false_and, and_self]

/-- An instruction that waits for memory is a load or a store. -/
theorem Busy.memStall (h : Busy c mem A o es) (hs : o.s.r.e.state = .lsMemStall) :
    (A.decode c mem).exOp = .ls ∧ (A.decode c mem).memLsuStore = !(A.decode c mem).memLsuLoad ∧
      o.s.r.e.wbResult = A.result c mem := by
  cases h.phase with
  | memStall hop _ hres _ =>
    have hsel := h.plain.selects
    simp only [Selects, hop] at hsel
    exact ⟨hop, hsel.2.2.2.1, hres⟩
  | init hs' | aluWb _ hs' | jump _ hs' | loadMem _ _ hs' | lsWb _ _ hs' | shiftStall _ hs'
  | shiftWb _ hs' | mulStall _ hs' | mulWb _ hs' =>
    rw [hs] at hs'
    cases hs'

/-- Its request. -/
theorem Busy.lsui_eq (h : Busy c mem A o es) (hs : o.s.r.e.state = .lsMemStall) :
    lsui o.s.r = ⟨(A.decode c mem).memLsuLoad, (A.decode c mem).memLsuStore, false, false, false,
      (A.decode c mem).memLsuWidth, (A.decode c mem).memLsuExts, A.result c mem,
      (A.decode c mem).b⟩ := by
  simp only [lsui, hs, h.d, h.plain.flush, (h.memStall hs).2.2]
  rfl

/-- What the write-back cycle of a load or store comes from. -/
theorem Busy.acked (h : Busy c mem A o es)
    (hs : (step c o.s i).r.e.state = .loadMem ∨ (step c o.s i).r.e.state = .lsWb) :
    o.s.r.e.state = .lsMemStall ∧ i.lsuo.ack = true ∧
      ((step c o.s i).r.e.state = .loadMem ↔ (A.decode c mem).memLsuLoad = true) := by
  have hnext : (step c o.s i).r.e.state = nextState c o.s.r i (shfto c o.s i) (mulo c o.s) := rfl
  rw [hnext] at hs ⊢
  have hu := h.phase.usual
  unfold nextState at hs ⊢
  cases hst : o.s.r.e.state <;> rw [hst] at hs hu <;> simp only at hs ⊢
  case lsMemStall =>
    rw [h.d, h.plain.flush] at hs ⊢
    cases hack : i.lsuo.ack <;> cases hl : (A.decode c mem).memLsuLoad <;>
      simp [hack, hl] at hs ⊢
    all_goals split_ifs at hs <;> simp at hs
  case init =>
    cases hop : o.s.r.d.exOp <;> rw [hop] at hs <;> simp only at hs <;> split_ifs at hs <;>
      simp at hs
  case cacheInvalidate1 | cacheInvalidate2 | sprWb1 => exact hu.elim
  all_goals
    repeat' split at hs
    all_goals simp at hs

/-- An instruction that ends has had its store, if it has one. -/
theorem Busy.stored_of_ends (h : Busy c mem A o es)
    (hend : nextState c o.s.r i (shfto c o.s i) (mulo c o.s) = .init)
    (henv : Env mem o i) (hs : o.s.r.e.state ≠ .lsWb) : A.stored c mem m = m := by
  refine if_neg fun hstore => ?_
  obtain ⟨hop, hload⟩ := h.plain.access (.inr hstore)
  rw [hstore] at hload
  cases h.phase with
  | init hst =>
    have hnext := Busy.nextState_init (c := c) hst henv
    rw [h.d, hop] at hnext
    cases hnext.symm.trans hend
  | memStall _ hst =>
    simp only [nextState, hst, h.d, h.plain.flush, henv.alignErr, Bool.false_eq_true, if_false]
      at hend
    split_ifs at hend
  | loadMem _ hl =>
    rw [hl] at hload
    cases hload
  | lsWb _ _ hst => exact hs hst
  | aluWb hop' | jump hop' | shiftStall hop' | shiftWb hop' | mulStall hop' | mulWb hop' =>
    cases hop.symm.trans hop'

theorem committed_idle (hs : o.s.r.e.state ≠ .lsMemStall) (ack : Bool) (m : PlainMem) :
    Lsu.committed (lsui o.s.r) ack m = m := by
  rw [Lsu.committed, (lsui_idle hs).2, Bool.false_and, if_neg Bool.false_ne_true]

theorem Ready.idle (h : Ready c A o i) : o.s.r.e.state ≠ .lsMemStall := by
  intro hs
  have hn := h.nexti
  rw [exNexti, hs] at hn
  cases hn

/-- The next instruction is taken, or waited for. -/
theorem Ready.executes {n : ℕ} (h : Ready c (S n).arch o i) (henv : Env mem o i)
    (htaken : o.taken = n) (htrace : o.trace ++ cycleEffects c o.s i = (S n).trace)
    (hseen : m = (S n).mem) : Executes c mem S (o.step c i) m rdata := by
  have hnext := h.next henv
  split_ifs at hnext with hn
  · obtain ⟨hpc, hbusy⟩ := hnext
    have hs : (o.step c i).s.r.e.state = .init := h.state
    refine .busy n ?_ [] hbusy ?_ ?_ fun hl => nomatch hs.symm.trans hl
    · simp only [Observed.step, hn, htaken, Bool.toNat_true]
    · rw [← htrace, ← hpc]
      simp only [Observed.step, cycleEvents, hn, if_true, List.append_assoc]
    · rw [hs, if_neg (by decide), hseen]
  · have ht : (o.step c i).taken = n := by
      simp only [Observed.step, hn, htaken]
      rfl
    refine .waiting ?_ ?_ ?_ <;> rw [ht]
    · exact hnext
    · rw [← htrace]
      simp only [Observed.step, cycleEvents, hn, Bool.false_eq_true, if_false, List.append_nil]
    · exact hseen

/-- A store gets to its write-back cycle with the acknowledge. -/
theorem Busy.lsWb_iff (h : Busy c mem A o es) : (step c o.s i).r.e.state = .lsWb ↔
    o.s.r.e.state = .lsMemStall ∧ i.lsuo.ack = true ∧ (A.decode c mem).memLsuStore = true := by
  constructor
  · intro hs
    obtain ⟨hst, hack, hload⟩ := h.acked (.inr hs)
    refine ⟨hst, hack, ?_⟩
    rw [(h.memStall hst).2.1, Bool.not_eq_true', Bool.eq_false_iff]
    intro hl
    exact nomatch hs.symm.trans (hload.mpr hl)
  · rintro ⟨hst, hack, hstore⟩
    rw [(h.memStall hst).2.1, Bool.not_eq_true'] at hstore
    show nextState _ _ _ _ _ = _
    simp [nextState, hst, hack, h.d, h.plain.flush, hstore]

/-- While an instruction goes on, memory has its store from the acknowledge on. -/
theorem Busy.committed (h : Busy c mem A o es) (hgoes : (step c o.s i).r.e.state ≠ .init)
    {m' : PlainMem}
    (hseen : m = if o.s.r.e.state = .lsWb then A.stored c mem m' else m') :
    Lsu.committed (lsui o.s.r) i.lsuo.ack m =
      if (step c o.s i).r.e.state = .lsWb then A.stored c mem m' else m' := by
  have hwb : o.s.r.e.state ≠ .lsWb := by
    intro hs
    refine hgoes ?_
    show nextState _ _ _ _ _ = _
    rw [nextState, hs]
  rw [if_neg hwb] at hseen
  rw [Lsu.committed, hseen]
  by_cases hs : o.s.r.e.state = .lsMemStall
  · simp only [h.lsWb_iff, hs, true_and, h.lsui_eq hs, Arch.stored, Bool.and_eq_true]
    by_cases hstore : (A.decode c mem).memLsuStore = true <;> cases i.lsuo.ack <;> simp [hstore]
  · rw [(lsui_idle hs).2, Bool.false_and, if_neg Bool.false_ne_true,
      if_neg fun hl => hs (h.lsWb_iff.mp hl).1]

/-- The load that a unit waits for is delivered in the next cycle. -/
theorem Busy.delivered (h : Busy c mem A o es) (hs : (step c o.s i).r.e.state = .loadMem)
    (hdata : (lsui o.s.r).rd = true → i.lsuo.ack = true →
      rdata' = m.load (lsui o.s.r).width (lsui o.s.r).exts (lsui o.s.r).adr) :
    rdata' = A.loaded c mem m := by
  obtain ⟨hst, hack, hload⟩ := h.acked (.inl hs)
  rw [h.lsui_eq hst] at hdata
  exact hdata (hload.mp hs) hack

/-- What an instruction does depends on the data of its own load only. -/
theorem Arch.exec_of_loaded {data data' : TWord}
    (h : (if o.s.r.e.state = .loadMem then o.loaded ++ [rdata] else o.loaded) =
      o.loaded ++ if (A.decode c mem).memLsuLoad then [data] else [])
    (hdata : o.s.r.e.state = .loadMem → rdata = data') :
    A.exec c mem data = A.exec c mem data' ∧ A.effects c mem data = A.effects c mem data' := by
  cases hl : (A.decode c mem).memLsuLoad with
  | false => exact Arch.data_irrelevant hl _ _
  | true =>
    rw [hl, if_pos rfl] at h
    split_ifs at h with hs
    · rw [hdata hs] at h
      cases List.append_cancel_left h
      exact ⟨rfl, rfl⟩
    · exact absurd h (by simp)

theorem Executes.step (hstages : 1 ≤ c.mulStages) (hS : ∀ n, S (n + 1) = (S n).next c mem)
    (h : Executes c mem S o m i.lsuo.rdata) (henv : Env mem o i)
    (hdata : (lsui o.s.r).rd = true → i.lsuo.ack = true →
      rdata' = m.load (lsui o.s.r).width (lsui o.s.r).exts (lsui o.s.r).adr) :
    Executes c mem S (o.step c i) (Lsu.committed (lsui o.s.r) i.lsuo.ack m) rdata' := by
  cases h with
  | waiting h htrace hseen =>
    obtain ⟨hready, hev, -⟩ := h.ready (c := c) henv
    rw [committed_idle hready.idle]
    refine hready.executes henv rfl ?_ hseen
    rw [hev, List.append_nil, htrace]
  | busy n htaken es h htrace hseen hload =>
    rw [hS, Sequential.next] at hseen
    rcases h.outcome henv hstages with ⟨hbusy, hn, -, hgoes⟩ | ⟨data, hready, hev, hloaded⟩
    · refine .busy n ?_ (es ++ cycleEffects c o.s i) hbusy ?_ ?_ fun hs => ?_
      · simp only [Observed.step, hn, htaken]
        rfl
      · simp only [Observed.step, cycleEvents, hn, htrace, List.append_assoc, List.cons_append]
        simp
      · rw [hS, Sequential.next]
        exact h.committed hgoes hseen
      · have hwb : o.s.r.e.state ≠ .lsWb := by
          intro hwb
          rw [(h.acked (.inl hs)).1] at hwb
          cases hwb
        rw [if_neg hwb] at hseen
        rw [← hseen]
        exact h.delivered hs hdata
    · obtain ⟨hx, he⟩ : (S n).arch.exec c mem data =
          (S n).arch.exec c mem ((S n).arch.loaded c mem (S n).mem) ∧ _ :=
        Arch.exec_of_loaded hloaded hload
      rw [hx] at hready
      rw [he] at hev
      have harch :
          (S (n + 1)).arch = (S n).arch.exec c mem ((S n).arch.loaded c mem (S n).mem) := by
        rw [hS, Sequential.next]
      rw [← harch] at hready
      refine hready.executes henv htaken ?_ ?_
      · rw [htrace, List.append_assoc, List.cons_append, hev, hS, Sequential.next]
      · rw [committed_idle hready.idle, hseen, hS, Sequential.next]
        split_ifs with hs
        · rfl
        · exact (h.stored_of_ends hready.state henv hs).symm

/-- What was seen, and the request that waits, is what the instructions taken do on the memory. -/
theorem Executes.between (hS : ∀ n, S (n + 1) = (S n).next c mem)
    (h : Executes c mem S o m rdata) :
    (S (o.taken - 1)).trace <+: o.trace ∧ o.trace ++ lsuRequest o.s <+: (S o.taken).trace := by
  cases h with
  | waiting h htrace =>
    have hreq : lsuRequest o.s = [] :=
      lsuRequest_none (by rw [h.state]; decide) (by rw [h.state]; trivial)
    rw [hreq, htrace, List.append_nil]
    refine ⟨?_, List.prefix_refl _⟩
    cases o.taken with
    | zero => exact List.prefix_refl _
    | succ n =>
      rw [hS]
      exact List.prefix_append _ _
  | busy n htaken es h htrace =>
    rw [htaken, htrace, Nat.add_sub_cancel, hS]
    refine ⟨List.prefix_append _ _, ?_⟩
    rw [Sequential.next, List.append_assoc, List.prefix_append_right_inj, List.cons_append,
      List.cons_prefix_cons]
    exact ⟨rfl, h.request_prefix _⟩

theorem executes_reset {s : State} (hr : IsReset s) (m : PlainMem) (rdata : TWord) :
    Executes c mem (Sequential.run c mem ⟨Arch.reset s, m, []⟩) (Observed.reset s) m rdata :=
  .waiting ⟨hr.bubble, hr.state, hr.xc, rfl, rfl, rfl, rfl, hr.slot, hr.units, rfl⟩ rfl rfl

end Step

-- ---------------------------------------------------------------------------
-- Runs
-- ---------------------------------------------------------------------------

/-- The memory that the unit sees: `m` with its stores, as they are acknowledged. -/
def seen (c : Config) (s : State) (i : ℕ → In) (m : PlainMem) : ℕ → PlainMem
  | 0 => m
  | t + 1 => Lsu.committed (lsui (observed c s i t).s.r) (i t).lsuo.ack (seen c s i m t)

/-- What is loaded is what the memory that the unit sees contains. -/
def LoadsSeen (c : Config) (s : State) (i : ℕ → In) (m : PlainMem) (t : ℕ) : Prop :=
  let r := (observed c s i t).s.r
  (lsui r).rd = true → (i t).lsuo.ack = true →
    (i (t + 1)).lsuo.rdata = (seen c s i m t).load (lsui r).width (lsui r).exts (lsui r).adr

section Run

variable {c : Config} {mem : WordAdr → TWord} {s : State} {i : ℕ → In} {m : PlainMem}
  {S : ℕ → Sequential} {o : Observed} {rdata : TWord}

/-- The memory is the one before or after the instruction taken last. -/
theorem Executes.mem_between (h : Executes c mem S o m rdata) :
    m = (S (o.taken - 1)).mem ∨ m = (S o.taken).mem := by
  cases h with
  | waiting _ _ hseen => exact .inr hseen
  | busy n htaken _ _ _ hseen =>
    rw [htaken, Nat.add_sub_cancel, hseen]
    split_ifs
    · exact .inr rfl
    · exact .inl rfl

theorem executes_run (hstages : 1 ≤ c.mulStages) (hr : IsReset s)
    (henv : ∀ t, Env mem (observed c s i t) (i t)) (hloads : ∀ t, LoadsSeen c s i m t) (t : ℕ) :
    Executes c mem (Sequential.run c mem ⟨Arch.reset s, m, []⟩) (observed c s i t)
      (seen c s i m t) (i t).lsuo.rdata := by
  induction t with
  | zero => exact executes_reset hr m _
  | succ t ih => exact ih.step hstages (fun _ => rfl) (henv t) (hloads t)

end Run

/-- Surroundings that never make the unit wait, with a memory behind them and the word that was
loaded last. -/
structure Backed where
  o : Observed
  mem : PlainMem
  rdata : TWord

namespace Backed

variable (c : Config) (mem : WordAdr → TWord)

def input (x : Backed) : In := { prompt mem x.o with lsuo := ⟨true, false, x.rdata⟩ }

def next (x : Backed) : Backed where
  o := x.o.step c (x.input mem)
  mem := Lsu.committed (lsui x.o.s.r) true x.mem
  rdata := x.mem.load (lsui x.o.s.r).width (lsui x.o.s.r).exts (lsui x.o.s.r).adr

def run (x : Backed) (t : ℕ) : Backed := (Backed.next c mem)^[t] x

theorem run_succ (x : Backed) (t : ℕ) : x.run c mem (t + 1) = (x.run c mem t).next c mem :=
  Function.iterate_succ_apply' ..

theorem observed_run (s : State) (m : PlainMem) (t : ℕ) :
    observed c s (fun t => (run c mem ⟨Observed.reset s, m, 0⟩ t).input mem) t =
      (run c mem ⟨Observed.reset s, m, 0⟩ t).o := by
  induction t with
  | zero => rfl
  | succ t ih => rw [observed_succ, ih, run_succ, next]

theorem seen_run (s : State) (m : PlainMem) (t : ℕ) :
    seen c s (fun t => (run c mem ⟨Observed.reset s, m, 0⟩ t).input mem) m t =
      (run c mem ⟨Observed.reset s, m, 0⟩ t).mem := by
  induction t with
  | zero => rfl
  | succ t ih =>
    rw [seen, ih, observed_run, run_succ, next]
    rfl

end Backed

/-- Stores a word, loads it and stores its double, over and over again. -/
def doubleMem (a : WordAdr) : TWord :=
  if a = 0x40 then 0xd4001800  -- l.sw 0(r0),r3
  else if a = 0x41 then 0x84400000  -- l.lwz r2,0(r0)
  else if a = 0x42 then 0xe0621000  -- l.add r3,r2,r2
  else if a = 0x43 then 0x03fffffd  -- l.j -3
  else 0x15000000  -- l.nop

theorem doubleMem_covered (a : WordAdr) : covered (doubleMem a) = true := by
  unfold doubleMem
  split_ifs <;> decide

example : (Backed.run plainConfig doubleMem ⟨Observed.reset resetState, fun _ => 0, 0⟩ 14).o.trace <+:
    [.insn 0x100, .store 0 0 5, .insn 0x104, .load 0 false 0, .write 2 5, .insn 0x108, .write 3 10,
      .insn 0x10c, .insn 0x110, .insn 0x100, .store 0 0 10] := by decide +kernel

end ParaNut.Mexu
