import ParaNut.SysC.IoLoads

/-!
# Misaligned requests to `MLsu`

`OutputMethod` returns at an odd word or half-word address and leaves the
signals to the thread, and those to the write port, as the evaluation before
left them. So the thread repeats what that evaluation asked for. A word at an
even address that is no multiple of 4 is not noticed at all.
-/

namespace ParaNut.SysC.MLsu

open Lib
open Lsu (PortCycle Completes Pending)

variable {st : State} {i : Input}

/-- Entry 0 is presented to the write port. -/
structure Presented (st : State) (s : Signals) : Prop where
  wr : s.wpWr = true
  adr : s.wpAdr = st.wbuf.wbufAdr 0
  data : s.wpData = st.wbuf.wbufData 0
  bsel : s.wpBsel = st.wbuf.wbufValid 0

/-- The request is rejected, and only what the write port has written leaves the buffer. -/
structure Rejected (st : State) (i : Input) : Prop where
  alignErr : (settled st i).sig.alignErr = true
  noAck : (settled st i).sig.ack = false
  drains : Lsu.Drains fourEntries i.wpAck st.wbuf (step st i).wbuf
  written : st.wbuf.wbufDirty0 = true → i.wpAck = true → Presented st (settled st i).sig

/-- The signals left from the evaluation before do no harm: they ask for no store, for a removal
only if entry 0 may go, and the write port does not acknowledge another entry. -/
structure Calm (st : State) (i : Input) : Prop where
  write : st.sig.sigWbufWrite = false
  remove : st.sig.sigWbufRemove = true → st.wbuf.wbufDirty0 = false ∨ i.wpAck = true
  port : st.wbuf.wbufDirty0 = true → i.wpAck = true → Presented st st.sig

/-- A word access in the middle of two words. -/
def halfWay (lsui : Lsu.LsuIn) : Bool :=
  (lsui.rd || lsui.wr) && lsui.width == 0 && ofsOf lsui.adr == 2

theorem alignErr_of_misaligned (ha : Lsu.alignErr i.lsui = true)
    (hno : halfWay i.lsui = false) : alignErr i = true := by
  have hodd : ∀ o : BitVec 2, o ≠ 0 → o ≠ 2 → o.getLsbD 0 = true := by decide
  simp only [Lsu.alignErr, Bool.and_eq_true] at ha
  obtain ⟨herr, haccess⟩ := ha
  rw [Lsu.misaligned] at herr
  rw [alignErr]
  by_cases hw : i.lsui.width = 0
  · rw [if_pos hw, bne_iff_ne] at herr
    have hofs : ofsOf i.lsui.adr ≠ 2 := by simpa [halfWay, haccess, hw] using hno
    simp only [hw, Lsu.ofsOf_getLsbD_zero, hodd _ herr hofs]
    rfl
  · by_cases h2 : i.lsui.width = 2
    · rw [if_neg hw, if_pos h2] at herr
      simp only [h2, herr]
      rfl
    · rw [if_neg hw, if_neg h2] at herr
      cases herr

-- ---------------------------------------------------------------------------
-- One cycle
-- ---------------------------------------------------------------------------

/-- What an evaluation that returns early leaves as it is. -/
theorem settled_of_alignErr (st : State) (ha : alignErr i = true) :
    (settled st i).sig.ack = false ∧ (settled st i).sig.alignErr = true ∧
      (settled st i).sig.sigWbufWrite = st.sig.sigWbufWrite ∧
      (settled st i).sig.sigWbufRemove = st.sig.sigWbufRemove ∧
      (settled st i).sig.wpWr = st.sig.wpWr ∧ (settled st i).sig.wpAdr = st.sig.wpAdr ∧
      (settled st i).sig.wpData = st.sig.wpData ∧ (settled st i).sig.wpBsel = st.sig.wpBsel := by
  simp only [settled, outputMethod, ha, if_true, and_self]

theorem drains_of_calm (ha : alignErr i = true) (hc : Calm st i) :
    Lsu.Drains fourEntries i.wpAck st.wbuf (step st i).wbuf := by
  obtain ⟨-, -, hw, hr, -⟩ := settled_of_alignErr st ha
  have hstep : (step st i).wbuf = removed (settled st i) i := by
    have htransition : (step st i).wbuf = transition (settled st i) i := rfl
    rw [htransition, transition, hw, hc.write, if_neg Bool.false_ne_true]
  rw [hstep, removed, hr]
  cases hremove : st.sig.sigWbufRemove with
  | true =>
    rw [if_pos rfl]
    exact .shift (hc.remove hremove)
  | false =>
    have hdirty : (if i.wpAck then false else st.wbuf.wbufDirty0) =
        (st.wbuf.wbufDirty0 && !i.wpAck) := by
      cases i.wpAck <;> simp
    rw [if_neg Bool.false_ne_true]
    simp only [settled, hdirty]
    exact .keep

theorem rejected_of_calm (ha : alignErr i = true) (hc : Calm st i) : Rejected st i := by
  obtain ⟨hack, herr, -, -, hwr, hadr, hdata, hsel⟩ := settled_of_alignErr st ha
  refine ⟨herr, hack, drains_of_calm ha hc, fun hd hp => ?_⟩
  obtain ⟨hwr', hadr', hdata', hsel'⟩ := hc.port hd hp
  exact ⟨hwr.trans hwr', hadr.trans hadr', hdata.trans hdata', hsel.trans hsel'⟩

theorem presented_of_aligned (ha : alignErr i = false) (hd : st.wbuf.wbufDirty0 = true)
    (hf : isFlushed st.wbuf = false) : Presented st (settled st i).sig := by
  have hno : flushedCacheOp st.wbuf i = false := by rw [flushedCacheOp, hf, Bool.false_and]
  rw [settled, outputMethod, ha, if_neg Bool.false_ne_true]
  exact ⟨(if_neg (by rw [hno]; decide)).trans hd, rfl, rfl, rfl⟩

-- ---------------------------------------------------------------------------
-- Runs
-- ---------------------------------------------------------------------------

section Runs

variable {i : ℕ → Input}

theorem run_wordAligned_of_calm (hr : st.wbuf.IsReset)
    (hc : ∀ t, alignErr (i t) = true → Calm (run step st i t) (i t)) (t : ℕ) :
    WordAligned (bufferRun st i t) := by
  induction t with
  | zero => exact fun n _ hv => absurd (hr.1 n) hv
  | succ t ih =>
    cases ha : alignErr (i t) with
    | false => exact ih.transition ha
    | true =>
      have hd := drains_of_calm ha (hc t ha)
      rw [bufferRun, run_succ]
      generalize (step (run step st i t) (i t)).wbuf = v at hd
      cases hd with
      | keep => exact ih
      | shift =>
        intro n hn hv
        obtain ⟨hlt, hv', hadr⟩ := Lsu.shift_valid_ne hv
        rw [hadr]
        exact ih (n + 1) hlt hv'

theorem advances_of_calm (hr : st.wbuf.IsReset)
    (hc : ∀ t, alignErr (i t) = true → Calm (run step st i t) (i t)) :
    Lsu.Advances fourEntries adrIsSpecial (bufferRun st i) (fun t => (i t).lsui.adr)
      (fun t => wbdata (i t)) (fun t => bsel (i t)) (fun t => (i t).wpAck)
      (fun t => !alignErr (i t) && wbufWrite (bufferRun st i t) (i t)) where
  io_word := special_of_word
  reset := hr
  step t ho := by
    cases ha : alignErr (i t) with
    | true => exact .idle (drains_of_calm ha (hc t ha))
    | false => exact next_advance ha (run_wordAligned_of_calm hr hc t) ho

/-- A transfer that is completed is of an entry presented to the write port. -/
theorem completes_of_done (hr : st.wbuf.IsReset)
    (hc : ∀ t, alignErr (i t) = true → Calm (run step st i t) (i t)) {s v : ℕ}
    (hbytes : ∃ n : Fin 4, getElem (bsel (i s)) n.val n.isLt = true)
    (h : Lsu.Done (bufferRun st i v) (i v).wpAck (wordOf (i s).lsui.adr) (bsel (i s))) :
    Completes (portRun st i) s v := by
  obtain ⟨hd, hack, hword, hlanes⟩ := h
  have hp : Presented (run step st i v) (settled (run step st i v) (i v)).sig := by
    cases ha : alignErr (i v) with
    | true => exact (rejected_of_calm ha (hc v ha)).written hd hack
    | false =>
      refine presented_of_aligned ha hd ?_
      by_contra hf
      have hf : isFlushed (bufferRun st i v) = true := Bool.not_eq_false _ ▸ hf
      have hself := matched_self (run_wordAligned_of_calm hr hc v)
        ((advances_of_calm hr hc).ordered v)
      have hzero := Lsu.isFlushed_iff.mp
        ((isFlushed_eq 0 0 hself.corr).symm.trans hf)
      exact Lsu.valid_ne_zero hbytes hlanes (hzero 0 (by decide))
  refine ⟨hp.wr, hack, (congrArg wordOf hp.adr).trans hword, fun n hn => ?_⟩
  have hsel : (portRun st i v).wpBsel = (bufferRun st i v).wbufValid 0 := hp.bsel
  rw [hsel]
  exact hlanes n hn

/-- An acknowledged store is taken into the buffer. -/
theorem taken_of_ack (hs : (i t).lsui.Single) (hwr : (i t).lsui.wr = true)
    (hack : (portRun st i t).ack = true)
    (hbytes : ∃ n : Fin 4, getElem (bsel (i t)) n.val n.isLt = true) :
    (!alignErr (i t) && wbufWrite (bufferRun st i t) (i t)) = true := by
  cases ha : alignErr (i t) with
  | true =>
    have hno := (settled_of_alignErr (run step st i t) ha).1
    exact absurd (hno.symm.trans hack) Bool.false_ne_true
  | false =>
    rw [portRun_eq ha] at hack
    exact (wbufWrite_iff hs hbytes).mpr ⟨hwr, hack⟩

end Runs

def oddStore : Input :=
  { idleInput with lsui := ⟨false, true, false, false, false, 2, false, 9, 7⟩ }

/-- A word store to 4 in cycle 0, and a half-word store to 9 in cycle `n`. -/
def storeThenOdd (n : ℕ) : ℕ → Input
  | 0 => { idleInput with lsui := ⟨false, true, false, false, false, 0, false, 4, 0x11a23344⟩ }
  | t + 1 => if t + 1 = n then oddStore else idleInput

theorem storeThenOdd_single (n t : ℕ) : (storeThenOdd n t).lsui.Single := by
  cases t with
  | zero => exact ⟨nofun, fun _ => ⟨rfl, rfl, rfl⟩⟩
  | succ t =>
    rw [storeThenOdd]
    split
    · exact ⟨nofun, fun _ => ⟨rfl, rfl, rfl⟩⟩
    · exact ⟨nofun, nofun⟩

theorem storeThenOdd_halfWay (n t : ℕ) : halfWay (storeThenOdd n t).lsui = false := by
  cases t with
  | zero =>
    have hfirst : halfWay (storeThenOdd 0 0).lsui = false := by decide
    exact hfirst
  | succ t =>
    rw [storeThenOdd]
    split <;> rfl

/-- A cycle after the store the signals ask for nothing. -/
theorem storeThenOdd_calm (t : ℕ) (ha : alignErr (storeThenOdd 2 t) = true) :
    Calm (run step resetState (storeThenOdd 2) t) (storeThenOdd 2 t) := by
  cases t with
  | zero => cases ha
  | succ t =>
    rw [storeThenOdd] at ha
    split at ha
    · rename_i ht
      obtain rfl := Nat.succ.inj ht
      exact ⟨by decide, by decide, nofun⟩
    · cases ha

end ParaNut.SysC.MLsu
