import ParaNut.Lib.LinkRegister
import ParaNut.Memu.Conditional
import ParaNut.Memu.LineLock

/-!
# Writes that a link notices

Before a write port writes a bank it has held the line lock for a cycle, and
in that cycle `SnoopMethod` shows its address to all others. So a conditional
write that succeeds was linked after every write of another port to the linked
address, except one in the cycle after the link: the link is set in the cycle
in which that write is shown.
-/

namespace ParaNut.Memu

namespace WritePort

variable {c : Config} {r : Registers} {i : In}

/-- A "load link" -/
def links (w : WriteportIn) : Bool :=
  !w.portWr && !(w.portWriteback || w.portInvalidate) && w.portRlinkWcond

theorem not_requested_of_links {w : WriteportIn} (h : links w = true) : requested w = false := by
  simp only [links, Bool.and_eq_true, Bool.not_eq_true', Bool.or_eq_false_iff] at h
  simp [requested, h.1.1, h.1.2.1, h.1.2.2]

@[simp] theorem snooped_linkAdr : (snooped r i).linkAdr = r.linkAdr := by
  simp only [snooped]
  split <;> rfl

theorem link_of_links (hs : r.state = .init) (h : links i.wpi = true) :
    (comb c r i).1.linkAdr = i.wpi.portAdr ∧ (comb c r i).1.linkValid = true := by
  simp only [links, Bool.and_eq_true, Bool.not_eq_true'] at h
  simp [comb, combInit, hs, h.1.1, h.1.2, h.2]

/-- Without a new link the address stays, and the link may be lost only. -/
theorem link_next (h : links i.wpi = false) :
    (comb c r i).1.linkAdr = r.linkAdr ∧ (comb c r i).1.linkValid = (snooped r i).linkValid := by
  revert h
  cases hs : r.state <;> simp only [comb, hs, combInit, links]
  case init =>
    repeat' split
    all_goals simp_all
  all_goals
    repeat' split
    all_goals simp

theorem snooped_linkValid (hs : i.snoopStb = true) (ha : i.snoopAdr = r.linkAdr) :
    (snooped r i).linkValid = false := by simp [snooped, hs, ha]

theorem linkValid_of_snooped (h : (snooped r i).linkValid = true) : r.linkValid = true := by
  simp only [snooped] at h
  split at h
  · cases h
  · exact h

end WritePort

namespace Arbiter

/-- All others are shown the address of the write port that holds the line lock alone. -/
theorem snoop_of_linelock {c : Config} {g : Lines} {p q : ℕ} (hq : q < c.wports)
    (hg : g.linelock q = true) (hne : q ≠ p)
    (halone : ∀ m < c.wports, g.linelock m = true → m = q) :
    writer c g = some q ∧ snoopStb c g p = true := by
  have hw : writer c g = some q := by
    cases hw : writer c g with
    | none =>
      have hnone := List.find?_eq_none.mp hw q (by simpa using hq)
      exact absurd hg hnone
    | some w =>
      have hmem := List.mem_of_find?_eq_some hw
      rw [halone w (by simpa using hmem) (List.find?_some hw)]
  refine ⟨hw, ?_⟩
  rw [snoopStb, hw]
  simpa using hne

end Arbiter

-- ---------------------------------------------------------------------------
-- Runs
-- ---------------------------------------------------------------------------

section Run

variable {c : Config} {s : State} {i : ℕ → Input} {p q a e t : ℕ}

/-- Port `p` is shown the address of another port's write in cycle `t`. -/
def Shown (c : Config) (s : State) (i : Input) (p : ℕ) (adr : TWord) : Prop :=
  (wpIn c s i (grants c s i) p).snoopStb = true ∧ (wpIn c s i (grants c s i) p).snoopAdr = adr

/-- A conditional write of port `p` is acknowledged as successful. -/
def Succeeds (c : Config) (s : State) (i : Input) (p : ℕ) : Prop :=
  WritePort.conditional (i.wpi p) = true ∧ (wpo c s i p).portAck = true ∧
    (wpo c s i p).portWcondOk = true

/-- A write port that commits has shown its address in the cycle before. -/
theorem shown_before_commit (hr : IsReset c s)
    (hh : ∀ t, Holds c (states c s i t) (i t) (i (t + 1))) (hq : q < c.wports) (hne : q ≠ p)
    (h : ((states c s i (t + 1)).wp q).state.writeLocked = true) :
    Shown c (states c s i t) (i t) p ((i (t + 1)).wpi q).portAdr := by
  have hlocks := locks_states hr hh t
  have hg : (grants c (states c s i t) (i t)).linelock q = true := hlocks.write_step hq h
  have hx := exclusive_grants hlocks.exclusive
  obtain ⟨hw, hstb⟩ := Arbiter.snoop_of_linelock hq hg hne fun m hm hgm =>
    hx.linelock m hm q hq hgm hg
  refine ⟨hstb, ?_⟩
  have hheld := hlocks.held_of_linelock (hh t) hq hg
  simp only [wpIn, hw, hheld]

theorem linkRegister_states (hr : IsReset c s)
    (hh : ∀ t, Holds c (states c s i t) (i t) (i (t + 1))) (hp : p < c.wports) :
    Lib.LinkRegister (fun t => WritePort.links ((i t).wpi p) = true)
      (fun t => ((i t).wpi p).portAdr) (fun t adr => Shown c (states c s i t) (i t) p adr)
      (fun t => ((states c s i t).wp p).linkAdr) (fun t => ((states c s i t).wp p).linkValid) where
  linkAdr_set t h := by
    have hs : ((states c s i t).wp p).state = .init := by
      by_contra hs
      have hreq := (locks_states hr hh t).requested p hp hs
      rw [WritePort.not_requested_of_links h] at hreq
      cases hreq
    exact (WritePort.link_of_links (c := c)
      (i := wpIn c (states c s i t) (i t) (grants c (states c s i t) (i t)) p) hs h).1
  linkAdr_kept t h := by
    exact (WritePort.link_next (c := c)
      (i := wpIn c (states c s i t) (i t) (grants c (states c s i t) (i t)) p)
      (Bool.eq_false_of_not_eq_true h)).1
  linkValid_kept t h hvalid := by
    refine WritePort.linkValid_of_snooped
      (i := wpIn c (states c s i t) (i t) (grants c (states c s i t) (i t)) p) ?_
    rw [← (WritePort.link_next (c := c) (Bool.eq_false_of_not_eq_true h)).2]
    exact hvalid
  broken t h hshown := by
    exact (WritePort.link_next (c := c) (Bool.eq_false_of_not_eq_true h)).2.trans
      (WritePort.snooped_linkValid hshown.1 hshown.2)

/-- From the second cycle after the link on, no other port has written a bank word at the linked
address before a conditional write that succeeds. -/
theorem linked_success (hr : IsReset c s)
    (hh : ∀ t, Holds c (states c s i t) (i t) (i (t + 1))) (hp : p < c.wports) (hq : q < c.wports)
    (hne : q ≠ p) (hlink : WritePort.links ((i a).wpi p) = true)
    (hlast : ∀ v, a < v → v < e → WritePort.links ((i v).wpi p) = false)
    (hok : Succeeds c (states c s i e) (i e) p) (hat : a + 1 < t) (hte : t ≤ e)
    (hadr : ((i t).wpi q).portAdr = ((i a).wpi p).portAdr) :
    (wpOut c (states c s i t) (i t) (grants c (states c s i t) (i t)) q).bankWr = false := by
  by_contra hwr
  obtain ⟨n, rfl⟩ : ∃ n, t = n + 1 := ⟨t - 1, by omega⟩
  have hlocked := WritePort.State.commits_locked
    (WritePort.bankWr_spec (Bool.of_not_eq_false hwr)).1
  have hshown := shown_before_commit hr hh hq hne hlocked
  have hvalid : ((states c s i e).wp p).linkValid = true :=
    WritePort.portWcondOk_eq.symm.trans hok.2.2
  refine (linkRegister_states hr hh hp).not_shown (a := a) (e := e) hlink
    (fun v hav hve => by simp [hlast v hav hve]) hvalid (t := n) (by omega) (by omega) ?_
  exact hadr ▸ hshown

/-- Write port 0 links address 0, and then writes there directly. -/
def linkThenWrite (t : ℕ) : Input :=
  { noRequest with
    wpi := fun p =>
      if p = 0 ∧ t < 3 then ⟨decide (0 < t), decide (0 < t), 15, true, false, false, 0, 7⟩
      else noRequest.wpi p }

theorem linked_success_direct : (wpOut twoCores (states twoCores quiet linkThenWrite 2)
    (linkThenWrite 2) (grants twoCores (states twoCores quiet linkThenWrite 2) (linkThenWrite 2))
    1).bankWr = false := by
  refine linked_success (p := 0) (a := 0) (e := 2) quiet_isReset (fun t => ⟨?_, ?_⟩) (by decide)
    (by decide) (by decide) (by decide) (fun v hv hve => ?_)
    ⟨by decide +kernel, by decide +kernel, by decide +kernel⟩ (by decide) (by decide) rfl
  · intro p _ hreq
    cases hreq
  · intro p _ hreq hack
    rcases eq_or_ne p 0 with rfl | hp
    · match t with
      | 0 => cases hreq
      | 1 => rfl
      | 2 => exact absurd hack (by decide +kernel)
      | t + 3 =>
        simp [linkThenWrite] at hreq
        cases hreq
    · simp [linkThenWrite, hp]
  · obtain rfl : v = 1 := by omega
    decide

end Run

end ParaNut.Memu
