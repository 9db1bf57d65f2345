import ParaNut.Memu.Linked
import ParaNut.SysC.Conditional

/-!
# Writes that a link notices, in the SystemC model

As in the hardware, but a conditional write succeeds at the linked address
only, so what else has been linked in between does not matter.
-/

namespace ParaNut.SysC

namespace MWritePort

open Memu
open Memu.WritePort (State Registers In)

variable {c : Config} {r : Registers} {i : In}

theorem bankWr_commits (h : (mainMethod c r i).2.bankWr = true) : r.state.commits = true := by
  revert h
  cases hs : r.state <;> simp only [mainMethod, hs, defaults, init]
  all_goals
    repeat' split
    all_goals simp_all [State.commits]

/-- What is acknowledged right away has failed. -/
theorem not_ok_of_init (hs : r.state = .init) (hack : (mainMethod c r i).2.portAck = true) :
    (mainMethod c r i).2.portWcondOk = false := by
  rw [portWcondOk_eq]
  revert hack
  simp only [mainMethod, hs, init, defaults, linked]
  repeat' split
  all_goals simp_all

end MWritePort

namespace WritePorts

open Memu
open Memu.WritePort (State Registers In links conditional)
open MWritePort (mainMethod linked)

variable {c : Config} {method : ℕ} {s : State} {i : Input} {p : ℕ}

/-- What a port has written is what `MainMethod` makes of the inputs, the state and some registers:
those of the cycle in which it ran. -/
def Settled (c : Config) (method : ℕ) (s : State) (i : Input) (p : ℕ) : Prop :=
  ∃ r : Registers, r.state = (s.wp p).state ∧
    mainMethod c r (wpIn c method s i p) = written c method s i p

theorem settled_of_runs (h : i.mainRuns p = true) : Settled c method s i p :=
  ⟨s.wp p, rfl, (written_runs h).symm⟩

theorem Settled.step {i' : Input} (h : Settled c method s i p) (hn : Next c method s i i')
    (hp : p < c.wports) : Settled c method (step c method s i) i' p := by
  cases hruns : i'.mainRuns p with
  | true => exact settled_of_runs hruns
  | false =>
    obtain ⟨hin, hstate⟩ := hn.sensitive p hp hruns
    obtain ⟨r, hr, hwritten⟩ := h
    refine ⟨r, hr.trans hstate.symm, ?_⟩
    rw [hin, written_stays hruns, hwritten]
    rfl

/-- Port `p` is shown the address of another port's write. -/
def ShownWrite (c : Config) (method : ℕ) (s : State) (i : Input) (p : ℕ) (adr : TWord) : Prop :=
  (wpIn c method s i p).snoopStb = true ∧ (wpIn c method s i p).snoopAdr = adr

theorem Settled.linkAdr_set (h : Settled c method s i p) (hl : Locks c method s i)
    (hp : p < c.wports) (hlinks : links (i.wpi p) = true) :
    (written c method s i p).1.linkAdr = (i.wpi p).portAdr := by
  obtain ⟨r, hr, hwritten⟩ := h
  have hs : (s.wp p).state = .init := by
    by_contra hs
    have hreq := hl.requested p hp hs
    rw [WritePort.not_requested_of_links hlinks] at hreq
    cases hreq
  rw [← hwritten, MWritePort.mainMethod_next]
  exact (WritePort.link_of_links (c := c) (i := wpIn c method s i p) (hr.trans hs) hlinks).1

theorem written_at_link (hlinks : links (i.wpi p) = false) :
    (written c method s i p).1.linkAdr = (s.wp p).linkAdr ∧
      ((written c method s i p).1.linkValid = true → (s.wp p).linkValid = true) := by
  cases hruns : i.mainRuns p with
  | false => simp [written_stays hruns]
  | true =>
    obtain ⟨hadr, hvalid⟩ := WritePort.link_next (c := c) (r := s.wp p)
      (i := wpIn c method s i p) hlinks
    rw [written_runs hruns, MWritePort.mainMethod_next]
    exact ⟨hadr, fun h => WritePort.linkValid_of_snooped (hvalid.symm.trans h)⟩

theorem Settled.broken (h : Settled c method s i p) (hlinks : links (i.wpi p) = false)
    (hshown : ShownWrite c method s i p (s.wp p).linkAdr) :
    (written c method s i p).1.linkValid = false := by
  obtain ⟨r, -, hwritten⟩ := h
  obtain ⟨hadr, hvalid⟩ := WritePort.link_next (c := c) (r := r) (i := wpIn c method s i p) hlinks
  have hr : r.linkAdr = (s.wp p).linkAdr := by
    rw [← (written_at_link hlinks).1, ← hwritten, MWritePort.mainMethod_next, hadr]
  rw [← hwritten, MWritePort.mainMethod_next, hvalid]
  exact WritePort.snooped_linkValid hshown.1 (hshown.2.trans hr.symm)

-- ---------------------------------------------------------------------------
-- Runs
-- ---------------------------------------------------------------------------

section Run

variable {s : State} {i : ℕ → Input} {q a e t : ℕ}

/-- A conditional write of port `p` is acknowledged as successful. -/
def Succeeds (c : Config) (method : ℕ) (s : State) (i : Input) (p : ℕ) : Prop :=
  conditional (i.wpi p) = true ∧ (written c method s i p).2.portAck = true ∧
    (written c method s i p).2.portWcondOk = true

variable (hruns : ∀ p < c.wports, (i 0).mainRuns p = true)
  (hn : ∀ t, Next c method (states c method s i t) (i t) (i (t + 1)))

include hruns hn

theorem settled_states (hp : p < c.wports) (t : ℕ) :
    Settled c method (states c method s i t) (i t) p :=
  Lib.run_invariant_input (fun s i => Settled c method s i p) (Next c method)
    (settled_of_runs (hruns p hp)) (fun _ _ _ hn h => h.step hn hp) hn t

variable (hr : IsReset c s)

include hr

theorem locks_states (t : ℕ) : Locks c method (states c method s i t) (i t) :=
  Lib.run_invariant_input (Locks c method) (Next c method) (hr.locks hruns)
    (fun _ _ _ hn h => h.step hn) hn t

theorem linkRegister_states (hp : p < c.wports) :
    Lib.LinkRegister (fun t => links ((i t).wpi p) = true) (fun t => ((i t).wpi p).portAdr)
      (fun t adr => ShownWrite c method (states c method s i t) (i t) p adr)
      (fun t => ((states c method s i t).wp p).linkAdr)
      (fun t => ((states c method s i t).wp p).linkValid) where
  linkAdr_set t h := (settled_states hruns hn hp t).linkAdr_set (locks_states hruns hn hr t) hp h
  linkAdr_kept _ h := (written_at_link (Bool.eq_false_of_not_eq_true h)).1
  linkValid_kept _ h := (written_at_link (Bool.eq_false_of_not_eq_true h)).2
  broken t h hshown :=
    (settled_states hruns hn hp t).broken (Bool.eq_false_of_not_eq_true h) hshown

/-- A write port that commits has shown its address in the cycle before. -/
theorem shown_before_commit (hq : q < c.wports) (hne : q ≠ p)
    (h : ((states c method s i (t + 1)).wp q).state.writeLocked = true) :
    ShownWrite c method (states c method s i t) (i t) p ((i (t + 1)).wpi q).portAdr := by
  have hlocks := locks_states hruns hn hr t
  have hg := hlocks.write_step hq h
  obtain ⟨hw, hstb⟩ := Arbiter.snoop_of_linelock
    (g := lockLines (linelock c method (states c method s i t) (i t))) hq hg hne
    fun m hm hgm => hlocks.linelock_spec.2 m hm q hq hgm hg
  refine ⟨hstb, ?_⟩
  have hinit : (written c method (states c method s i t) (i t) q).1.state ≠ .init := by
    intro hs
    have h' : (written c method (states c method s i t) (i t) q).1.state.writeLocked = true := h
    simp [hs, State.writeLocked] at h'
  rw [(hlocks.held (hn t) hq hinit).2]
  simp only [wpIn, portIn, hw]

/-- A conditional write that succeeds has its link. -/
theorem linked_of_succeeds (hp : p < c.wports)
    (h : Succeeds c method (states c method s i e) (i e) p) :
    linked ((states c method s i e).wp p) ((i e).wpi p) = true := by
  obtain ⟨-, hack, hok⟩ := h
  have hlocks := locks_states hruns hn hr e
  have hs : ((states c method s i e).wp p).state ≠ .init := by
    intro hs
    obtain ⟨r, hrs, hwritten⟩ := settled_states hruns hn hp e
    rw [← hwritten] at hack hok
    rw [MWritePort.not_ok_of_init (hrs.trans hs) hack] at hok
    cases hok
  rw [written_runs (hlocks.runs_of_ack hp hs hack), MWritePort.portWcondOk_eq] at hok
  exact hok

end Run

/-- A link for address 0, and a conditional write there. -/
def linkedHere (t : ℕ) : WriteportIn :=
  if t = 0 then ⟨false, false, 0, true, false, false, 0, 0⟩
  else if t < 4 then conditionalWrite false 0 7
  else noWrite

end WritePorts

end ParaNut.SysC
