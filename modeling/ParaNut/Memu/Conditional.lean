import ParaNut.Lib.Attempt
import ParaNut.Memu.Discipline

/-!
# Conditional writes that fail

`S_WP_INIT` looks at the link before it starts a conditional write to the
cache, and from then on the line lock keeps other writers away. A miss gives
up the lock, though, and nobody looks again once the line is there; nor does
anybody look before a direct write.
-/

namespace ParaNut.Memu

namespace WritePort

variable {c : Config} {r : Registers} {i : In}

/-- A "store conditional" -/
def conditional (w : WriteportIn) : Bool := w.portWr && w.portRlinkWcond

/-- The states from which the port writes to a line that is in the cache, whatever becomes of the
link. -/
def State.decided : State → Bool
  | .readTag | .haveTagRequestBank | .readBank | .writeTag1AndBank | .writeTag2AndBank
  | .writeTag1 | .writeTag2 | .writeBank => true
  | _ => false

/-- The states that only the acknowledge of the write ends. -/
def State.underWay : State → Bool
  | .direct | .writeTag1AndBank | .writeTag2AndBank | .writeTag1 | .writeTag2 | .writeBank => true
  | _ => false

/-- The branches that lead there, and the direct write that the BusIf has taken. -/
def goesOn (r : Registers) (i : In) : Bool :=
  match r.state with
  | .init => i.wpi.portWr && !i.wpi.portDirect && !(i.wpi.portRlinkWcond && !r.linkValid) &&
      i.gntTagr && i.gntLinelock
  | .direct => true
  | .recheckReadTag => i.tagIn.valid
  | .replaceWaitBusif => !i.busifBusy && i.gntTagr
  | _ => false

/-- What the port does in a cycle to the cache or the memory: a bank word, a tag, or a direct
write that the BusIf takes. -/
def changes (i : In) (o : Out) : Bool :=
  o.bankWr || o.tagWr || (o.busifOp == .directWrite && i.gntBusif && !i.busifBusy)

theorem portWcondOk_eq : (comb c r i).2.portWcondOk = r.linkValid := by
  cases hs : r.state <;> simp only [comb, hs, defaults, combInit]
  all_goals
    repeat' split
    all_goals rfl

theorem specialOp_ne_directWrite : specialOp i ≠ .directWrite := by
  simp only [specialOp]
  repeat' split
  all_goals simp

theorem underWay_of_changes (h : changes i (comb c r i).2 = true) :
    r.state.underWay = true ∨
      (comb c r i).2.portAck = false ∧ (comb c r i).1.state.underWay = true := by
  revert h
  cases hs : r.state <;> simp only [comb, hs, defaults, combInit, changes]
  all_goals
    repeat' split
    all_goals simp_all [State.underWay, specialOp_ne_directWrite]

theorem underWay_kept (h : r.state.underWay = true) (hack : (comb c r i).2.portAck = false) :
    (comb c r i).1.state.underWay = true := by
  revert h hack
  cases hs : r.state <;> simp only [comb, hs, defaults, combInit, snooped_state]
  all_goals
    repeat' split
    all_goals simp_all [State.underWay]

theorem State.underWay_cases {st : State} (h : st.underWay = true) :
    st = .direct ∨ st.decided = true := by
  cases st <;> simp_all [State.underWay, State.decided]

/-- The port decides to write by one of its branches, under the line lock. -/
theorem decided_next (h : (comb c r i).1.state.decided = true) :
    (comb c r i).2.reqLinelock = true ∧ (r.state.writeLocked = true ∨ i.gntLinelock = true) ∧
      (r.state.decided = true ∨ goesOn r i = true) := by
  revert h
  cases hs : r.state <;> simp only [comb, hs, defaults, combInit, snooped_state, writeState, goesOn]
  case init =>
    repeat' split
    all_goals simp_all [State.decided]
    all_goals grind
  all_goals
    repeat' split
    all_goals simp_all [State.decided, State.writeLocked]

/-- Without a snoop the link stays as it is where the port is not idle. -/
theorem link_decided (h : (comb c r i).1.state.decided = true) (hs : i.snoopStb = false) :
    (comb c r i).1.linkValid = r.linkValid ∧ (comb c r i).1.linkAdr = r.linkAdr := by
  have hv : snooped r i = r := by simp [snooped, hs]
  revert h
  cases hst : r.state <;> simp only [comb, hst, defaults, combInit, hv]
  all_goals
    repeat' split
    all_goals simp_all [State.decided]

end WritePort

namespace Arbiter

/-- A write port that holds the line lock alone hears of no other write. -/
theorem snoopStb_of_linelock {c : Config} {g : Lines} {p : ℕ} (hp : p < c.wports)
    (hg : g.linelock p = true)
    (halone : ∀ q < c.wports, g.linelock q = true → q = p) : snoopStb c g p = false := by
  unfold snoopStb
  cases hw : writer c g with
  | none => rfl
  | some w =>
    have hmem := List.mem_of_find?_eq_some hw
    obtain rfl := halone w (by simpa using hmem) (List.find?_some hw)
    simp

end Arbiter

-- ---------------------------------------------------------------------------
-- One cycle of the memory unit
-- ---------------------------------------------------------------------------

section Statement

variable (c : Config) (s : State) (i : Input) (p : ℕ)

/-- A conditional write of port `p` is acknowledged without success. -/
def Failed : Prop :=
  WritePort.conditional (i.wpi p) = true ∧ (wpo c s i p).portAck = true ∧
    (wpo c s i p).portWcondOk = false

/-- Port `p` writes a bank word or a tag, or has its direct write taken by the BusIf. -/
def Changes : Prop :=
  WritePort.changes (wpIn c s i (grants c s i) p) (wpOut c s i (grants c s i) p) = true

/-- Where a conditional write goes on to write, its link is valid. -/
def GoesOnLinked : Prop :=
  WritePort.conditional (i.wpi p) = true →
    WritePort.goesOn (s.wp p) (wpIn c s i (grants c s i) p) = true → (s.wp p).linkValid = true

end Statement

/-- A conditional write that is decided has its link. -/
def Tested (s : State) (i : Input) (p : ℕ) : Prop :=
  WritePort.conditional (i.wpi p) = true → (s.wp p).state.decided = true →
    (s.wp p).linkValid = true

section Step

variable {c : Config} {s : State} {i i' : Input} {p : ℕ}

theorem Locks.tested_step (hd : Locks c s i) (hh : Holds c s i i') (hp : p < c.wports)
    (hgo : GoesOnLinked c s i p) (ht : Tested s i p) : Tested (Memu.step c s i) i' p := by
  intro hcond hdec
  have hne : ((Memu.step c s i).wp p).state ≠ .init := by
    intro hs
    simp [hs, WritePort.State.decided] at hdec
  rw [(hd.held hh hp hne).2] at hcond
  obtain ⟨hreq, hlock, hbranch⟩ := WritePort.decided_next hdec
  have hg : (grants c s i).linelock p = true := by
    rcases hlock with hlk | hg
    · exact linelock_kept hp (hd.write p hp hlk) hreq
    · exact hg
  have hx := exclusive_grants hd.exclusive
  have hsnoop : (wpIn c s i (grants c s i) p).snoopStb = false :=
    Arbiter.snoopStb_of_linelock hp hg fun q hq hgq => hx.linelock q hq p hp hgq hg
  have hlink : (s.wp p).linkValid = true := by
    rcases hbranch with hs | hs
    · exact ht hcond hs
    · exact hgo hcond hs
  rw [wp_step]
  exact (WritePort.link_decided hdec hsnoop).1.trans hlink

theorem Tested.not_failed (ht : Tested s i p) (hgo : GoesOnLinked c s i p)
    (h : (s.wp p).state.underWay = true) : ¬Failed c s i p := by
  rintro ⟨hcond, -, hok⟩
  have hlink : (s.wp p).linkValid = true := by
    rcases WritePort.State.underWay_cases h with hs | hs
    · exact hgo hcond (by rw [WritePort.goesOn, hs])
    · exact ht hcond hs
  have hval : (wpo c s i p).portWcondOk = (s.wp p).linkValid := WritePort.portWcondOk_eq
  rw [hval, hlink] at hok
  cases hok

end Step

-- ---------------------------------------------------------------------------
-- Runs
-- ---------------------------------------------------------------------------

/-- No conditional write of port `p` that fails has done anything. -/
def FailsIntact (c : Config) (s : State) (i : ℕ → Input) (p : ℕ) : Prop :=
  Lib.FailsIntact (fun t => (wpo c (states c s i t) (i t) p).portAck = true)
    (fun t => Failed c (states c s i t) (i t) p) (fun t => Changes c (states c s i t) (i t) p)

theorem failsIntact_of_goesOnLinked {c : Config} {s : State} {i : ℕ → Input} {p : ℕ}
    (hp : p < c.wports) (hr : IsReset c s)
    (hh : ∀ t, Holds c (states c s i t) (i t) (i (t + 1)))
    (hgo : ∀ t, GoesOnLinked c (states c s i t) (i t) p) : FailsIntact c s i p := by
  have htested : ∀ t, Locks c (states c s i t) (i t) ∧ Tested (states c s i t) (i t) p :=
    Lib.run_invariant_input (fun s i => Locks c s i ∧ Tested s i p)
      (fun s i i' => Holds c s i i' ∧ GoesOnLinked c s i p)
      ⟨hr.locks, fun _ hd => by simp [(hr.wp p hp).1, WritePort.State.decided] at hd⟩
      (fun _ _ _ henv hinv =>
        ⟨hinv.1.step henv.1, hinv.1.tested_step henv.1 hp henv.2 hinv.2⟩)
      fun t => ⟨hh t, hgo t⟩
  refine Lib.failsIntact_of_underWay
    (fun t => ((states c s i t).wp p).state.underWay = true) (fun t h => h.2.1)
    (fun t h => ?_) (fun t h hack => ?_) fun t h => (htested t).2.not_failed (hgo t) h
  · rcases WritePort.underWay_of_changes h with hs | ⟨hack, hs⟩
    · exact .inl hs
    · exact .inr ⟨by simp [wpo, wpOut, hack], hs⟩
  · exact WritePort.underWay_kept h (Bool.eq_false_of_not_eq_true hack)

end ParaNut.Memu
