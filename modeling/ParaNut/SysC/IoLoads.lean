import ParaNut.Lsu.IoLoads
import ParaNut.SysC.LsuAgreement

/-!
# Loads from I/O addresses in both units

`MLsu` has its own range of I/O addresses, but advances its buffer as `mlsu`
does in every cycle in which `OutputMethod` runs to its end. So the result on
loads is one for both.
-/

namespace ParaNut.SysC.MLsu

open Lib
open Lsu (LsuIn Config Ordered Found Absent PortCycle IoLoad Served)

/-- `MAX_WBUF_SIZE` entries. -/
def fourEntries : Config := vhdl 0 0

variable {s : Lsu.Registers} {st : State} {i : Input}

theorem special_of_word (a b : TWord) (h : wordOf a = wordOf b) :
    adrIsSpecial a = adrIsSpecial b := by
  have hmask : ∀ c : TWord, wordAdr c &&& 0xf0000000 = c &&& 0xf0000000 := by
    intro c
    rw [wordAdr, BitVec.and_assoc]
    rfl
  rw [adrIsSpecial, adrIsSpecial, ← hmask a, ← hmask b, wordAdr_eq_iff.mpr h]

-- ---------------------------------------------------------------------------
-- One cycle
-- ---------------------------------------------------------------------------

/-- A buffer as both units would have it. -/
theorem matched_self (ha : WordAligned s) (ho : Ordered fourEntries adrIsSpecial s) :
    Matched 0 0 s s :=
  ⟨⟨fun _ _ _ => rfl, fun _ _ _ _ => rfl, fun _ _ => rfl, rfl⟩, ha, ho.unique⟩

theorem storeEntry_found (hm : Matched 0 0 s s) (hwr : i.lsui.wr = true) :
    ∃ n : ℕ, storeEntry s i = n ∧ n ≤ 4 ∧ Found fourEntries adrIsSpecial i.lsui.adr s n := by
  have hhit := wbufHit_eq (i := i) hm
  have hempty := findEmptyWbufEntry_eq 0 0 hm.corr
  have hnew : Lsu.Misses fourEntries adrIsSpecial i.lsui.adr s →
      ∃ n : ℕ, (if findEmptyWbufEntry s < 0 then (maxWbufSize : ℤ) else findEmptyWbufEntry s) = n ∧
        n ≤ 4 ∧ Found fourEntries adrIsSpecial i.lsui.adr s n := by
    intro hmiss
    rw [hempty]
    cases hn : Lsu.findEmptyWbufEntry (vhdl 0 0) s with
    | none => exact ⟨4, rfl, Nat.le_refl 4, .full (Lsu.findEmptyWbufEntry_full hn) hmiss⟩
    | some n =>
      obtain ⟨hlt, hv⟩ := Lsu.findEmptyWbufEntry_some hn
      exact ⟨n, if_neg (Int.not_lt.mpr (intOf_some_nonneg n)), Nat.le_of_lt hlt,
        .empty hlt (Lsu.findEmptyWbufEntry_first hn) hv hmiss⟩
  rw [storeEntry, if_pos hwr, hhit]
  cases hh : Lsu.findWbufHit (vhdl 0 0) s i.lsui.adr with
  | none => exact hnew fun _ j hj hv hw => hv (Lsu.findWbufHit_none hh hj hw)
  | some n =>
    obtain ⟨hlt, hw, hv⟩ := Lsu.findWbufHit_some hh
    have hneg := decide_eq_false (Int.not_lt.mpr (intOf_some_nonneg n))
    cases hs : adrIsSpecial i.lsui.adr with
    | true =>
      simp only [Bool.or_true, if_true]
      exact hnew fun hplain => absurd (hplain.symm.trans hs) Bool.false_ne_true
    | false =>
      simp only [hneg, Bool.or_false, Bool.false_eq_true, if_false]
      exact ⟨n, if_neg (Int.not_lt.mpr (intOf_some_nonneg n)), Nat.le_of_lt hlt,
        .hit hlt hv hw hs⟩

/-- What `sig_wbuf_write` says of the entry that is written. -/
theorem wbufWrite_spec (hw : wbufWrite s i = true) :
    0 ≤ wbufEntryNew s i ∧ wbufEntryNew s i < 4 ∧
      (adrIsSpecial i.lsui.adr = true → wbufEntryNew s i = 0) := by
  simp only [wbufWrite, maxWbufSize, Bool.and_eq_true, decide_eq_true_eq, Bool.not_eq_true',
    Bool.and_eq_false_iff, bne_eq_false_iff_eq] at hw
  obtain ⟨⟨hnonneg, hlt⟩, hspecial, -⟩ := hw
  exact ⟨hnonneg, of_decide_eq_true hlt, fun hs => hspecial.resolve_left fun h => Bool.false_ne_true (h.symm.trans hs)⟩

theorem wbufRemove_spec (hr : wbufRemove s i = true) :
    (s.wbufDirty0 = false ∨ i.wpAck = true) ∧ wbufEntry s i ≠ 0 := by
  simp only [wbufRemove, Bool.and_eq_true, Bool.or_eq_true, Bool.not_eq_true', bne_iff_ne] at hr
  exact ⟨hr.1.2, hr.2⟩

theorem removed_drains (ha : alignErr i = false) :
    Lsu.Drains fourEntries i.wpAck st.wbuf (removed (settled st i) i) := by
  cases hr : wbufRemove st.wbuf i with
  | false =>
    rw [removed_of_keep ha hr]
    exact .keep
  | true =>
    rw [removed_of_remove 0 0 ha hr]
    exact .shift (wbufRemove_spec hr).1

theorem readValid_of_lt (ha : alignErr i = false) {n : ℕ} (he : wbufEntry st.wbuf i = n)
    (hn : n < 4) : readValid (settled st i) = st.wbuf.wbufValid n := by
  have hlt : (n : ℤ) < maxWbufSize := Int.ofNat_lt.mpr hn
  have hold : oldEntry (settled st i) = true := by
    rw [oldEntry, (settled_sig st ha).1, he, decide_eq_true hlt,
      decide_eq_true (Int.natCast_nonneg n), Bool.and_self]
  rw [readValid, hold, if_pos rfl, (settled_sig st ha).1, he]
  rfl

theorem readValid_of_full (ha : alignErr i = false) (he : wbufEntry st.wbuf i = (4 : ℕ)) :
    readValid (settled st i) = 0 := by
  simp [readValid, oldEntry, (settled_sig st ha).1, he, maxWbufSize]

/-- The entry that is written, in the drained buffer. -/
theorem newEntry_free (ha : alignErr i = false) (hm : Matched 0 0 st.wbuf st.wbuf)
    (ho : Ordered fourEntries adrIsSpecial st.wbuf) (hw : wbufWrite st.wbuf i = true) :
    Lsu.Free fourEntries adrIsSpecial i.lsui.adr (removed (settled st i) i)
        (wbufEntryNew st.wbuf i).toNat ∧
      (removed (settled st i) i).wbufValid (wbufEntryNew st.wbuf i).toNat =
        readValid (settled st i) := by
  obtain ⟨hnonneg, hlt4, hspecial⟩ := wbufWrite_spec hw
  have h1 : 1 < fourEntries.size := by decide
  cases hop : cacheOp i with
  | true =>
    have hentry : wbufEntry st.wbuf i = if isFlushed st.wbuf then 0 else -1 := by
      rw [wbufEntry, hop, if_pos rfl]
    cases hf : isFlushed st.wbuf with
    | false =>
      rw [hf, if_neg Bool.false_ne_true] at hentry
      rw [wbufEntryNew, hentry] at hnonneg
      split at hnonneg <;> omega
    | true =>
      rw [hf, if_pos rfl] at hentry
      have hr : wbufRemove st.wbuf i = false := by simp [wbufRemove, hentry]
      have hnew : wbufEntryNew st.wbuf i = 0 := by rw [wbufEntryNew, hr, hentry]; rfl
      have hzero := Lsu.isFlushed_iff.mp ((isFlushed_eq 0 0 hm.corr).symm.trans hf)
      rw [removed_of_keep ha hr, readValid_of_lt ha hentry (by decide), hnew]
      exact ⟨⟨by decide, fun _ hj => absurd hj (Nat.not_lt_zero _),
        fun hv => absurd (hzero 0 (by decide)) hv,
        fun j hj _ hv => absurd (hzero j hj) hv, fun _ => ⟨rfl, hzero⟩⟩, rfl⟩
  | false =>
    have hentry : wbufEntry st.wbuf i = storeEntry st.wbuf i := by
      rw [wbufEntry, hop, if_neg Bool.false_ne_true]
    have hwr : i.lsui.wr = true := by
      by_contra hno
      rw [storeEntry, if_neg hno] at hentry
      rw [wbufEntryNew, hentry] at hnonneg
      split at hnonneg <;> omega
    obtain ⟨n, hn, hn4, hfound⟩ := storeEntry_found hm hwr
    rw [hn] at hentry
    cases hr : wbufRemove st.wbuf i with
    | false =>
      have hnew : wbufEntryNew st.wbuf i = n := by rw [wbufEntryNew, hr, hentry]; rfl
      rw [hnew] at hlt4 hspecial
      have hlt : n < 4 := Int.ofNat_lt.mp hlt4
      rw [removed_of_keep ha hr, readValid_of_lt ha hentry hlt, hnew, Int.toNat_natCast]
      have hfree := hfound.free ho hlt fun hs => Int.natCast_eq_zero.mp (hspecial hs)
      exact ⟨⟨hfree.lt, hfree.below, hfree.word, hfree.only, hfree.alone⟩, rfl⟩
    | true =>
      have hne : n ≠ 0 := fun h0 => (wbufRemove_spec hr).2 (hentry.trans (by rw [h0]; rfl))
      have hnew : wbufEntryNew st.wbuf i = (n - 1 : ℕ) := by
        rw [wbufEntryNew, hr, if_pos rfl, hentry]
        omega
      rw [hnew] at hspecial
      rw [removed_of_remove 0 0 ha hr, hnew, Int.toNat_natCast]
      refine ⟨hfound.free_shift ho h1 hne fun hs => Int.natCast_eq_zero.mp (hspecial hs), ?_⟩
      have hsucc : n - 1 + 1 = n := Nat.succ_pred hne
      rw [Lsu.shift_wbufValid, hsucc]
      rcases Nat.lt_or_eq_of_le hn4 with hlt | rfl
      · exact (if_pos hlt).trans (readValid_of_lt ha hentry hlt).symm
      · exact (if_neg (Nat.lt_irrefl 4)).trans (readValid_of_full ha hentry).symm

theorem next_advance (ha : alignErr i = false) (hal : WordAligned st.wbuf)
    (ho : Ordered fourEntries adrIsSpecial st.wbuf) :
    Lsu.Advance fourEntries adrIsSpecial i.lsui.adr (wbdata i) (bsel i) i.wpAck st.wbuf
      (wbufWrite st.wbuf i) (step st i).wbuf := by
  have hstep : (step st i).wbuf = transition (settled st i) i := rfl
  rw [hstep]
  cases hw : wbufWrite st.wbuf i with
  | false =>
    rw [transition_of_not_write ha hw]
    exact .idle (removed_drains ha)
  | true =>
    obtain ⟨hfree, hvalid⟩ := newEntry_free ha (matched_self hal ho) ho hw
    rw [transition_of_write ha hw]
    refine .store (removed_drains ha)
      { hfree with
        adr := ?_
        valid := ?_
        data := fun l hl => ?_
        dirty0 := rfl
        other := fun j hj => ?_ }
    · simp only [Lsu.Registers.store, if_true, wordOf_wordAdr]
    · simp only [Lsu.Registers.store, if_true, hvalid]
    · simp only [Lsu.Registers.store, if_true, newData, (settled_sig st ha).2.2.2.2.1,
        (settled_sig st ha).2.2.2.2.2, putBytes_eq, byte_merge, hl]
    · simp only [Lsu.Registers.store, if_neg hj, and_self]

theorem wbufWrite_idle (hno : cacheOp i = false) (hwr : i.lsui.wr = false) :
    wbufEntry s i = -1 ∧ wbufWrite s i = false := by
  have hentry : wbufEntry s i = -1 := by
    rw [wbufEntry, hno, if_neg Bool.false_ne_true, storeEntry, hwr, if_neg Bool.false_ne_true]
  refine ⟨hentry, ?_⟩
  cases hw : wbufWrite s i with
  | false => rfl
  | true =>
    have hnonneg := (wbufWrite_spec hw).1
    rw [wbufEntryNew, hentry] at hnonneg
    split at hnonneg <;> omega

/-- Without a store, what is not in flight is removed. -/
theorem next_shift (ha : alignErr i = false) (hno : cacheOp i = false) (hwr : i.lsui.wr = false)
    (hd : st.wbuf.wbufDirty0 = false) : (step st i).wbuf = st.wbuf.shift fourEntries := by
  obtain ⟨hentry, hw⟩ := wbufWrite_idle (s := st.wbuf) hno hwr
  have hremove : wbufRemove st.wbuf i = true := by
    simp [wbufRemove, wbufDontChange0, hd, hentry]
  exact (transition_of_not_write ha hw).trans (removed_of_remove 0 0 ha hremove)

theorem wbufWrite_iff (hs : i.lsui.Single)
    (hbytes : ∃ n : Fin 4, getElem (bsel i) n.val n.isLt = true) :
    wbufWrite s i = true ↔ i.lsui.wr = true ∧ ack s i = true := by
  constructor
  · intro hw
    have hno : cacheOp i = false := by
      by_contra hop
      have hop : cacheOp i = true := by simpa using hop
      obtain ⟨n, hn⟩ := hbytes
      simp [bsel, hop] at hn
    refine ⟨?_, by simp only [ack, hw, if_true]⟩
    by_contra hwr
    rw [(wbufWrite_idle hno (by simpa using hwr)).2] at hw
    cases hw
  · rintro ⟨hwr, hack⟩
    obtain ⟨hrd, hfl, hno⟩ := hs.store hwr
    have hflushed : flushedCacheOp s i = false := by
      rw [flushedCacheOp, show cacheOp i = false from hno, Bool.and_false]
    simpa [ack, hrd, hfl, hflushed] using hack

-- ---------------------------------------------------------------------------
-- Runs
-- ---------------------------------------------------------------------------

def portCycle (st : State) (i : Input) : PortCycle where
  lsui := i.lsui
  sel := bsel i
  ack := (settled st i).sig.ack
  rdata := (settled st i).sig.rdata
  rpRd := (settled st i).sig.rpRd
  rpBsel := (settled st i).sig.rpBsel
  rpAdr := (settled st i).sig.rpAdr
  rpo := rpo i
  wpWr := (settled st i).sig.wpWr
  wpBsel := (settled st i).sig.wpBsel
  wpAdr := (settled st i).sig.wpAdr
  wpAck := i.wpAck

/-- The ports over a run. -/
def portRun (st : State) (i : ℕ → Input) (t : ℕ) : PortCycle := portCycle (run step st i t) (i t)

def bufferRun (st : State) (i : ℕ → Input) (t : ℕ) : Lsu.Registers := (run step st i t).wbuf

theorem absent_wbufHit (hm : Matched 0 0 s s) (h : Absent fourEntries i.lsui.adr s) :
    wbufHit s i = -1 := by
  have hmiss : Lsu.findWbufHit (vhdl 0 0) s i.lsui.adr = none := h.findWbufHit
  rw [wbufHit_eq hm, hmiss]
  rfl

section Runs

variable {i : ℕ → Input}

/-- In a cycle without an alignment error all outputs are those of this cycle. -/
theorem portRun_eq {t : ℕ} (ha : alignErr (i t) = false) : portRun st i t =
    { lsui := (i t).lsui
      sel := bsel (i t)
      ack := ack (bufferRun st i t) (i t)
      rdata := formatRdata (i t) (rdataWord (bufferRun st i t) (i t))
      rpRd := (i t).lsui.rd && !fullHit (bufferRun st i t) (i t)
      rpBsel := bsel (i t)
      rpAdr := wordAdr (i t).lsui.adr
      rpo := rpo (i t)
      wpWr :=
        if flushedCacheOp (bufferRun st i t) (i t) then false else (bufferRun st i t).wbufDirty0
      wpBsel := (bufferRun st i t).wbufValid 0
      wpAdr := (bufferRun st i t).wbufAdr 0
      wpAck := (i t).wpAck } := by
  simp only [portRun, portCycle, settled, outputMethod, ha, Bool.false_eq_true, if_false, bufferRun]
  rfl

theorem run_wordAligned (hr : st.wbuf.IsReset) (ha : ∀ t, alignErr (i t) = false) (t : ℕ) :
    WordAligned (bufferRun st i t) :=
  run_invariant_upto (fun st : State => WordAligned st.wbuf) (fun _ i => alignErr i = false)
    (fun n _ hv => absurd (hr.1 n) hv) (fun _ _ ha h => h.transition ha) t fun u _ => ha u

theorem connects (hr : st.wbuf.IsReset) (ha : ∀ t, alignErr (i t) = false)
    (hs : ∀ t, (i t).lsui.Single) :
    Lsu.Connects fourEntries adrIsSpecial (fun _ => false) (bufferRun st i)
      (fun t => wbdata (i t)) (fun t => fullHit (bufferRun st i t) (i t))
      (fun t => wbufWrite (bufferRun st i t) (i t)) (portRun st i) := by
  have hports : ∀ t, portRun st i t = _ := fun t => portRun_eq (ha t)
  have hadvances : Lsu.Advances fourEntries adrIsSpecial (bufferRun st i)
      (fun t => (i t).lsui.adr) (fun t => wbdata (i t)) (fun t => bsel (i t))
      (fun t => (i t).wpAck) (fun t => wbufWrite (bufferRun st i t) (i t)) :=
    ⟨special_of_word, hr, fun t ho => next_advance (ha t) (run_wordAligned hr ha t) ho⟩
  have hself : ∀ t, Matched 0 0 (bufferRun st i t) (bufferRun st i t) := fun t =>
    matched_self (run_wordAligned hr ha t) (hadvances.ordered t)
  refine ⟨hadvances, fun t hbytes => ?_, fun t hwr => ?_, fun t hd hbytes => ?_, fun t hrd => ?_,
    fun t h => ?_, fun t h => ?_⟩
  · rw [hports t]
    exact wbufWrite_iff (hs t) hbytes
  · rw [hports t] at hwr
    simp only at hwr
    split at hwr
    · cases hwr
    · exact hwr
  · have hflushed : isFlushed (bufferRun st i t) = false := by
      by_contra hf
      obtain ⟨n, hn⟩ := hbytes
      have hzero := Lsu.isFlushed_iff.mp
        ((isFlushed_eq 0 0 (hself t).corr).symm.trans (by simpa using hf))
      rw [hzero 0 (by decide)] at hn
      simp at hn
    have hno : flushedCacheOp (bufferRun st i t) (i t) = false := by
      rw [flushedCacheOp, hflushed, Bool.false_and]
    rw [hports t]
    exact ⟨(if_neg (by rw [hno]; decide)).trans hd, rfl, rfl⟩
  · have hrd : (i t).lsui.rd = true := hrd
    obtain ⟨hwr, hfl, hno⟩ := (hs t).load hrd
    have hw := (wbufWrite_idle (s := bufferRun st i t) hno hwr).2
    have hflushed : flushedCacheOp (bufferRun st i t) (i t) = false := by
      rw [flushedCacheOp, show cacheOp (i t) = false from hno, Bool.and_false]
    rw [hports t]
    refine ⟨hw, ?_, ?_, rfl, wordOf_wordAdr _, next_shift (ha t) hno hwr⟩
    · have hack : ack (bufferRun st i t) (i t) =
          (fullHit (bufferRun st i t) (i t) || (i t).rpAck) := by
        cases hf : fullHit (bufferRun st i t) (i t) <;> simp [ack, hw, hflushed, hfl, hrd, hf]
      exact hack
    · have hreq : ((i t).lsui.rd && !fullHit (bufferRun st i t) (i t)) =
          (!fullHit (bufferRun st i t) (i t) && !false) := by
        rw [hrd, Bool.true_and, Bool.not_false, Bool.and_true]
      exact hreq
  · have hhit := absent_wbufHit (hself t) h
    simp [fullHit, hhit]
  · have hhit := absent_wbufHit (hself t) h
    have hword : rdataWord (bufferRun st i t) (i t) = (i t).rpData := by simp [rdataWord, hhit]
    rw [hports t]
    simp only [hword, formatRdata_eq]
    rfl

end Runs

/-- A load from an I/O address reaches the device, after the I/O stores before it, if and only if
it is aligned and finds no I/O store in flight and no entry that serves it. -/
theorem io_loads_served {c : Config} {r : Lsu.Registers} {iv : ℕ → Lsu.Input} {st : State}
    {i : ℕ → Input} (h1 : 2 ≤ c.size) (hrv : r.IsReset) (hsv : ∀ t, (iv t).lsui.Single)
    (hr : st.wbuf.IsReset) (hs : ∀ t, (i t).lsui.Single) (ha : ∀ t, alignErr (i t) = false)
    (a t : ℕ) :
    (IoLoad ParaNut.adrIsSpecial (Lsu.portRun c r iv) a t →
      (Served ParaNut.adrIsSpecial (Lsu.portRun c r iv) a t ↔
        Lsu.alignErr (iv a).lsui = false ∧
          Lsu.ioPending ParaNut.adrIsSpecial (Lsu.bufferRun c r iv a) = false ∧
            Lsu.fullHit c (Lsu.bufferRun c r iv a) (iv a).lsui = false)) ∧
    (IoLoad adrIsSpecial (portRun st i) a t →
      (Served adrIsSpecial (portRun st i) a t ↔
        Lsu.ioPending adrIsSpecial (bufferRun st i a) = false ∧
          fullHit (bufferRun st i a) (i a) = false)) := by
  refine ⟨fun hl => (Lsu.connects h1 hrv hsv).served_iff hl, fun hl => ?_⟩
  rw [(connects hr ha hs).served_iff hl]
  exact and_iff_right rfl

/-- An idle cycle in which both memory ports acknowledge. -/
def ackInput : Input := { idleInput with rpAck := true, rpData := 7, wpAck := true }

def ioWordLoad : LsuIn := ⟨true, false, false, false, false, 0, false, 0x90000004, 0⟩

/-- A word store to a device, and a load from the same address in cycle `n`. -/
def storeThenLoad (n : ℕ) (t : ℕ) : Input :=
  if t = 0 then
    { ackInput with lsui := ⟨false, true, false, false, false, 0, false, 0x90000004, 1⟩ }
  else { ackInput with lsui := { ioWordLoad with rd := t == n } }

def toVhdl (i : Input) : Lsu.Input := ⟨i.lsui, rpo i, wpo i, true⟩

theorem storeThenLoad_aligned (n t : ℕ) : alignErr (storeThenLoad n t) = false := by
  rw [storeThenLoad]
  split
  · rfl
  · simp [alignErr, ioWordLoad]

theorem storeThenLoad_single (n t : ℕ) : (storeThenLoad n t).lsui.Single := by
  rw [storeThenLoad]
  split
  · exact ⟨nofun, fun _ => ⟨rfl, rfl, rfl⟩⟩
  · exact ⟨fun _ => ⟨rfl, rfl, rfl⟩, nofun⟩

theorem ioLoad_single {io : TWord → Bool} {p : ℕ → PortCycle} {t : ℕ}
    (hrd : (p t).lsui.rd = true) (hadr : io (p t).lsui.adr = true) (hack : (p t).ack = true)
    (hafter : (p (t + 1)).lsui.adr = (p t).lsui.adr) : IoLoad io p t t :=
  ⟨Nat.le_refl t, hrd, hadr, fun u h1 h2 => by rw [Nat.le_antisymm h2 h1],
    fun u h1 h2 => absurd h1 (Nat.not_le.mpr h2), hack, hafter⟩

/-- The word just stored is answered from the buffer. -/
theorem io_load_not_served :
    (IoLoad ParaNut.adrIsSpecial
        (Lsu.portRun Lsu.twoEntries emptyBuffer fun t => toVhdl (storeThenLoad 1 t)) 1 1 ∧
      ¬ Served ParaNut.adrIsSpecial
        (Lsu.portRun Lsu.twoEntries emptyBuffer fun t => toVhdl (storeThenLoad 1 t)) 1 1) ∧
    IoLoad adrIsSpecial (portRun resetState (storeThenLoad 1)) 1 1 ∧
      ¬ Served adrIsSpecial (portRun resetState (storeThenLoad 1)) 1 1 := by
  refine ⟨⟨ioLoad_single (by decide) (by decide) (by decide) (by decide), fun h => ?_⟩,
    ioLoad_single (by decide) (by decide) (by decide) (by decide), fun h => ?_⟩
  · exact absurd (h.request 1 (Nat.le_refl 1) (Nat.le_refl 1)).1 (by decide)
  · exact absurd (h.request 1 (Nat.le_refl 1) (Nat.le_refl 1)).1 (by decide)

/-- Two cycles after the store the load reaches the device. -/
theorem io_loads_served_later :
    Served ParaNut.adrIsSpecial
      (Lsu.portRun Lsu.twoEntries emptyBuffer fun t => toVhdl (storeThenLoad 3 t)) 3 3 ∧
    Served adrIsSpecial (portRun resetState (storeThenLoad 3)) 3 3 := by
  have hr : emptyBuffer.IsReset := ⟨fun _ => rfl, rfl⟩
  have hserved := io_loads_served (c := Lsu.twoEntries) (i := storeThenLoad 3)
    (by decide) hr (fun t => show (toVhdl (storeThenLoad 3 t)).lsui.Single from
      storeThenLoad_single 3 t) (show resetState.wbuf.IsReset from hr) (storeThenLoad_single 3)
    (storeThenLoad_aligned 3) 3 3
  exact ⟨(hserved.1 (ioLoad_single (by decide) (by decide) (by decide) (by decide))).mpr (by decide),
    (hserved.2 (ioLoad_single (by decide) (by decide) (by decide) (by decide))).mpr (by decide)⟩

end ParaNut.SysC.MLsu
