import ParaNut.Memu.Banks
import ParaNut.Memu.Direct
import ParaNut.Memu.TagCycle

/-!
# The lock of a replacement

A replacement runs under the line lock whatever else the ports do: that of the
BusIf, or that of a write port which waits for it. So from the arrival of the
tag on nobody else writes to the banks or the tags of its index.
-/

namespace ParaNut.Memu

namespace WritePort

/-- The states in which a write port waits for its replacement. -/
def State.replaces : State → Bool
  | .replace | .replaceWaitBusif => true
  | _ => false

variable {c : Config} {r : Registers} {i : In}

theorem State.replaces_locked {st : State} (h : st.replaces = true) :
    st.writeLocked = true ∧ st.ownsBusif = true := by
  cases st <;> simp_all [State.replaces, State.writeLocked, State.ownsBusif]

theorem State.replaces_of_commits {st : State} (h : st.commits = true) : st.replaces = false := by
  cases st <;> simp_all [State.replaces, State.commits]

theorem replaces_next (h : r.state.replaces = true) (hb : i.busifBusy = true) :
    (comb c r i).1.state.replaces = true := by
  revert h
  cases hs : r.state <;> simp [comb, hs, snooped_state, State.replaces, hb]

theorem replaces_of_busifOp (h : (comb c r i).2.busifOp = .replace) :
    (comb c r i).1.state.replaces = true := by
  have hs := busifOp_replace h
  simp only [comb, hs]
  split
  · rfl
  · simp [hs, State.replaces]

end WritePort

namespace BusIf

/-- The states from the arrival of the tag until the end of a cache operation. -/
def State.hasTag : State → Bool
  | .cacheReadTag => true
  | st => st.usesTag

/-- The states in which the tag of a line that is replaced may be invalid and dirty. -/
def State.replacesTag : State → Bool
  | .cacheReplaceInvalidateTag | .cacheReplaceWriteBanks | .cacheWriteTag => true
  | _ => false

variable {c : Config} {r : Registers} {i : In}

theorem State.hasTag_working {st : State} (h : st.hasTag = true) : st.working = true := by
  cases st <;> simp_all [State.hasTag, State.usesTag, State.working]

theorem hasTag_next (h : (comb c r i).1.state.hasTag = true) :
    r.state.hasTag = true ∨ r.state = .cacheRequestRtWait ∧ i.gntTagr = true := by
  revert h
  cases hs : r.state <;> simp only [hs, comb, combIdle, latched, tagWritten]
  all_goals
    repeat' split
    all_goals simp_all [State.hasTag, State.usesTag]

/-- The operation that runs has been running, or was taken in this cycle. -/
theorem op_next (h : (comb c r i).1.state.working = true) :
    (comb c r i).1.op = if r.state = .idle then i.busifOp else r.op := by
  revert h
  cases hs : r.state <;> simp only [hs, comb, combIdle, latched, tagWritten]
  all_goals
    repeat' split
    all_goals simp_all [State.working]

/-- A tag is replaced until its last write. -/
theorem replacesTag_next (hw : WellFormed c r) (h : r.state.replacesTag = true) :
    (comb c r i).1.tag = r.tag ∧ (comb c r i).1.op = r.op ∧
      lineOf c (comb c r i).1.adr = lineOf c r.adr ∧
      ((comb c r i).1.state.replacesTag = true ∨
        r.state = .cacheWriteTag ∧ r.cnt = 1 ∧ i.gntTagw = true) := by
  have ht := hw.cnt_tag
  revert h
  cases hs : r.state <;> simp only [hs, comb, tagWritten] at ht ⊢
  all_goals
    repeat' split
    all_goals simp_all [State.replacesTag, State.writesTag]
  all_goals omega

theorem bankWr_spec {b : ℕ} (h : (comb c r i).2.bankWr b = true) :
    r.state = .cacheReplaceWriteBanks ∧ r.banksLeft b = true := by
  revert h
  cases hs : r.state <;> simp [comb, hs, defaults]

end BusIf

-- ---------------------------------------------------------------------------
-- The lock
-- ---------------------------------------------------------------------------

/-- Write port `p` waits for the replacement the BusIf runs. -/
structure Awaits (c : Config) (s : State) (i : Input) (p : ℕ) : Prop where
  lt : p < c.wports
  busif : s.arb.gnt.busif (p + wpOff c) = true
  replaces : (s.wp p).state.replaces = true
  line : lineOf c (i.wpi p).portAdr = lineOf c s.busif.adr

structure ReplaceLock (c : Config) (s : State) (i : Input) : Prop extends Locks c s i where
  owner : s.busif.state.working = true → s.busif.op = .replace →
    s.busif.linelock = true ∧ s.arb.gnt.linelock c.wports = true ∨
      s.busif.linelock = false ∧ ∃ p, Awaits c s i p
  second : s.busif.state.hasTag = true → s.busif.op = .replace → ∀ p < c.wports,
    (s.wp p).state = .writeTag2 → indexOf c (i.wpi p).portAdr ≠ indexOf c s.busif.adr

section Cycle

variable {c : Config} {s : State} {i i' : Input} {p q : ℕ}

namespace ReplaceLock

/-- A write port with the lock for the index of the replacement waits for it. -/
theorem replaces_of_index (hd : ReplaceLock c s i) (hw : s.busif.state.working = true)
    (hop : s.busif.op = .replace) (hp : p < c.wports)
    (hlk : (s.wp p).state.writeLocked = true)
    (hidx : indexOf c (i.wpi p).portAdr = indexOf c s.busif.adr) :
    (s.wp p).state.replaces = true := by
  have hgp := hd.write p hp hlk
  rcases hd.owner hw hop with ⟨-, hgb⟩ | ⟨-, q, hq⟩
  · exact absurd hidx (hd.exclusive.index p hp hgp hgb)
  · have hgq := hd.write q hq.lt (WritePort.State.replaces_locked hq.replaces).1
    rw [hd.exclusive.linelock p hp q hq.lt hgp hgq]
    exact hq.replaces

theorem awaits_step (hd : ReplaceLock c s i) (hh : Holds c s i i') (ha : Awaits c s i p)
    (hw : s.busif.state.working = true)
    (hl : lineOf c (step c s i).busif.adr = lineOf c s.busif.adr) :
    Awaits c (step c s i) i' p := by
  have hbusy := bifo_busy_of_working (c := c) (grants c s i) hw
  have hs' : ((step c s i).wp p).state.replaces = true :=
    WritePort.replaces_next ha.replaces hbusy
  have hne : ((step c s i).wp p).state ≠ .init := by
    intro hs
    rw [hs] at hs'
    cases hs'
  refine ⟨ha.lt, ?_, hs', ?_⟩
  · rw [arb_step]
    exact hd.ownsBusif_step ha.lt (WritePort.State.replaces_locked hs').2
  · rw [(hd.held hh ha.lt hne).2, hl, ha.line]

theorem owner_step (hd : ReplaceLock c s i) (hh : Holds c s i i')
    (hw' : (step c s i).busif.state.working = true) (hop' : (step c s i).busif.op = .replace) :
    (step c s i).busif.linelock = true ∧ (grants c s i).linelock c.wports = true ∨
      (step c s i).busif.linelock = false ∧ ∃ p, Awaits c (step c s i) i' p := by
  have hop : (if s.busif.state = .idle then (bifIn c s i (grants c s i)).busifOp
      else s.busif.op) = .replace := (BusIf.op_next hw').symm.trans hop'
  obtain ⟨hline, ⟨hw, hl⟩ | ⟨-, hg, hl⟩ | ⟨hidle, hcache, hno, hl⟩⟩ :=
    BusIf.working_next hd.busif hw'
  · have hne : s.busif.state ≠ .idle := by
      intro hs
      rw [hs] at hw
      cases hw
    rw [if_neg hne] at hline hop
    rcases hd.owner hw hop with ⟨hlock, hg⟩ | ⟨hlock, p, ha⟩
    · exact .inl ⟨hl.trans hlock, linelock_busif_kept hg hlock⟩
    · exact .inr ⟨hl.trans hlock, p, hd.awaits_step hh ha hw hline⟩
  · exact .inl ⟨hl, hg⟩
  · rw [if_pos hidle] at hline hop
    obtain ⟨p, hp, hg, hpop, hadr⟩ := user_of_bifIn hcache hno
    have hx := exclusive_grants hd.exclusive
    have hu := busifUser_eq hx (wp_lt_idx hp) hg
    have hpop' : (wpOut c s i (grants c s i) p).busifOp = .replace := by
      rw [← portOp_wp, ← (bifIn_of_user hu).1]
      exact hop
    have hs' : ((step c s i).wp p).state.replaces = true :=
      WritePort.replaces_of_busifOp hpop'
    have hne : ((step c s i).wp p).state ≠ .init := by
      intro hs
      rw [hs] at hs'
      cases hs'
    refine .inr ⟨hl, p, hp, ?_, hs', ?_⟩
    · rwa [arb_step]
    · rw [(hd.held hh hp hne).2, ← hadr]
      exact hline.symm

theorem second_step (hd : ReplaceLock c s i) (hh : Holds c s i i')
    (hb : (step c s i).busif.state.hasTag = true) (hop' : (step c s i).busif.op = .replace)
    (hp : p < c.wports) (h : ((step c s i).wp p).state = .writeTag2) :
    indexOf c (i'.wpi p).portAdr ≠ indexOf c (step c s i).busif.adr := by
  have hsecond : ((step c s i).wp p).state.secondTagWrite = true := by rw [h]; rfl
  obtain ⟨-, -, hg, hlk, -⟩ := WritePort.secondTagWrite_next hsecond
  have hw' := BusIf.State.hasTag_working hb
  rcases BusIf.hasTag_next hb with hm | ⟨-, htagr⟩
  · have hw := BusIf.State.hasTag_working hm
    have hne : s.busif.state ≠ .idle := by
      intro hs
      rw [hs] at hw
      cases hw
    have hline := (BusIf.working_next hd.busif hw').1
    have hop : (if s.busif.state = .idle then (bifIn c s i (grants c s i)).busifOp
        else s.busif.op) = .replace := (BusIf.op_next hw').symm.trans hop'
    rw [if_neg hne] at hline hop
    rw [(hd.held hh hp (by rw [h]; exact nofun)).2,
      show indexOf c (step c s i).busif.adr = indexOf c s.busif.adr from indexOf_congr hline]
    intro hidx
    have hrep := hd.replaces_of_index hw hop hp hlk hidx
    have hrep' := WritePort.replaces_next (c := c) (i := wpIn c s i (grants c s i) p) hrep
      (bifo_busy_of_working (c := c) _ hw)
    rw [← wp_step, h] at hrep'
    cases hrep'
  · exact ((exclusive_grants hd.exclusive).tagrw _ (Nat.le_refl _) p (Nat.le_of_lt hp) htagr
      hg).elim

protected theorem step (hd : ReplaceLock c s i) (hh : Holds c s i i') :
    ReplaceLock c (step c s i) i' where
  toLocks := hd.toLocks.step hh
  owner hw hop := by
    rw [arb_step]
    exact hd.owner_step hh hw hop
  second hb hop _ hp h := hd.second_step hh hb hop hp h

-- ---------------------------------------------------------------------------
-- Nobody else writes
-- ---------------------------------------------------------------------------

/-- A write port that writes is at another index. -/
theorem wpWrites_index (hd : ReplaceLock c s i) (hw : s.busif.state.working = true)
    (hop : s.busif.op = .replace) {b : ℕ} (hp : WpWrites c s i b p) :
    indexOf c (i.wpi p).portAdr ≠ indexOf c s.busif.adr := by
  intro hidx
  have hcommits := (WritePort.bankWr_spec hp.wr).1
  have hrep := hd.replaces_of_index hw hop hp.lt
    (WritePort.State.commits_locked hcommits) hidx
  rw [WritePort.State.replaces_of_commits hcommits] at hrep
  cases hrep

/-- So is one in the second cycle of a tag write. -/
theorem secondTagWrite_index (hd : ReplaceLock c s i) (hb : s.busif.state.hasTag = true)
    (hop : s.busif.op = .replace) (hp : p < c.wports)
    (hs : (s.wp p).state.secondTagWrite = true) :
    indexOf c (i.wpi p).portAdr ≠ indexOf c s.busif.adr := by
  cases hst : (s.wp p).state <;> rw [hst] at hs <;> try cases hs
  · intro hidx
    have hrep := hd.replaces_of_index (BusIf.State.hasTag_working hb) hop hp
      (by rw [hst]; rfl) hidx
    rw [hst] at hrep
    cases hrep
  · exact hd.second hb hop p hp hst

end ReplaceLock

theorem IsReset.replaceLock (h : IsReset c s) : ReplaceLock c s i where
  toLocks := h.locks
  owner hw := by
    rw [h.busif.1] at hw
    cases hw
  second hb := by
    rw [h.busif.1] at hb
    cases hb

end Cycle

end ParaNut.Memu
