import ParaNut.Lsu.Refinement
import ParaNut.Lsu.WriteBuffer
import Mathlib.Data.List.Find

/-!
# One cycle of the write buffer of `mlsu`

The entry a store is taken into, and that the buffer advances as
`WriteBuffer` has it.
-/

namespace ParaNut.Lsu

open Lib

variable {c : Config} {r v : Registers} {lsui : LsuIn} {wpo : WriteportOut} {adr : TWord}

theorem findEmptyWbufEntry_first {n : ℕ} (h : findEmptyWbufEntry c r = some n) :
    ∀ j < n, r.wbufValid j ≠ 0 := by
  intro j hj h0
  have hfirst := (List.find?_range_eq_some.mp h).2.2 j hj
  simp [h0] at hfirst

theorem findEmptyWbufEntry_full (h : findEmptyWbufEntry c r = none) :
    ∀ j < c.size, r.wbufValid j ≠ 0 := by
  intro j hj h0
  have hall := List.find?_eq_none.mp h j (List.mem_range.mpr hj)
  simp [h0] at hall

-- ---------------------------------------------------------------------------
-- The place of a store
-- ---------------------------------------------------------------------------

theorem special_of_word (a b : TWord) (h : wordOf a = wordOf b) :
    adrIsSpecial a = adrIsSpecial b := by
  have hbit := congrArg (·.getLsbD 29) h
  simpa [wordOf, adrIsSpecial, BitVec.msb_eq_getLsbD_last] using hbit

/-- The entry chosen for a store; a full buffer is denoted by its last entry. -/
theorem storeEntry_found (hwr : lsui.wr = true) :
    (storeEntry c r lsui).b = true ∧
      (if (storeEntry c r lsui).full then (storeEntry c r lsui).i = c.size - 1
        else (storeEntry c r lsui).i < c.size) ∧
      Found c adrIsSpecial lsui.adr r
        (if (storeEntry c r lsui).full then c.size else (storeEntry c r lsui).i) := by
  simp only [storeEntry, hwr, if_true]
  split
  · rename_i n hhit hsp
    obtain ⟨hn, hw, hv⟩ := findWbufHit_some hhit
    exact ⟨rfl, hn, .hit hn hv hw hsp⟩
  · rename_i hno
    have hmiss : Misses c adrIsSpecial lsui.adr r := by
      intro hs j hj hv hw
      cases hhit : findWbufHit c r lsui.adr with
      | some n => exact hno n hhit hs
      | none => exact hv (findWbufHit_none hhit hj hw)
    cases hnew : findEmptyWbufEntry c r with
    | some n =>
      obtain ⟨hn, hv⟩ := findEmptyWbufEntry_some hnew
      exact ⟨rfl, hn, .empty hn (findEmptyWbufEntry_first hnew) hv hmiss⟩
    | none => exact ⟨rfl, rfl, .full (findEmptyWbufEntry_full hnew) hmiss⟩

/-- What `wbuf_write` says of the entry that is written. -/
theorem wbufWrite_spec (hw : wbufWrite c r lsui wpo = true) :
    (wbufEntry c r lsui).b = true ∧ (newEntry c r lsui wpo).full = false ∧
      (adrIsSpecial lsui.adr = true → (newEntry c r lsui wpo).i = 0) ∧
      wbufDontChange c r lsui = false := by
  simp only [wbufWrite, Bool.and_eq_true, Bool.not_eq_true', Bool.and_eq_false_iff,
    bne_eq_false_iff_eq] at hw
  obtain ⟨⟨⟨hb, hfull⟩, hspecial⟩, hdont⟩ := hw
  refine ⟨?_, hfull, fun hs => hspecial.resolve_left fun h => ?_, hdont⟩
  · rw [newEntry] at hb
    split_ifs at hb <;> exact hb
  · exact Bool.false_ne_true (h.symm.trans hs)

/-- A cache operation is taken into entry 0 of a flushed buffer. -/
theorem cacheOp_taken (hop : cacheOp lsui = true) (hw : wbufWrite c r lsui wpo = true) :
    isFlushed c r = true ∧ wbufEntry c r lsui = ⟨0, true, false⟩ ∧
      wbufRemove c r lsui wpo = false := by
  have hb := (wbufWrite_spec hw).1
  cases hf : isFlushed c r with
  | true =>
    have he : wbufEntry c r lsui = ⟨0, true, false⟩ := by simp [wbufEntry, hop, hf]
    exact ⟨rfl, he, by simp [wbufRemove, he]⟩
  | false => simp [wbufEntry, hop, hf] at hb

-- ---------------------------------------------------------------------------
-- One cycle
-- ---------------------------------------------------------------------------

/-- The entry that is written, in the drained buffer. -/
theorem newEntry_free (h1 : 1 < c.size) (ho : Ordered c adrIsSpecial r)
    (hw : wbufWrite c r lsui wpo = true) :
    Free c adrIsSpecial lsui.adr (drained c r lsui wpo) (newEntry c r lsui wpo).i ∧
      (drained c r lsui wpo).wbufValid (newEntry c r lsui wpo).i = oldValid c r lsui := by
  cases hop : cacheOp lsui with
  | true =>
    obtain ⟨hf, he, hr⟩ := cacheOp_taken hop hw
    have hzero := isFlushed_iff.mp hf
    have hold : oldValid c r lsui = r.wbufValid 0 := by simp [oldValid, he]
    rw [drained_of_keep hr, newEntry, hr, if_neg Bool.false_ne_true, he, hold]
    exact ⟨⟨Nat.lt_of_succ_lt h1, fun _ hj => absurd hj (Nat.not_lt_zero _),
      fun hv => absurd (hzero 0 (Nat.lt_of_succ_lt h1)) hv,
      fun j hj _ hv => absurd (hzero j hj) hv, fun _ => ⟨rfl, hzero⟩⟩, rfl⟩
  | false =>
    obtain ⟨hb, hfull, hsp, -⟩ := wbufWrite_spec hw
    have hentry := wbufEntry_of_noCache (c := c) (r := r) hop
    rw [hentry] at hb
    obtain ⟨-, hlast, hfound⟩ := storeEntry_found (storeEntry_wr hb)
    cases hr : wbufRemove c r lsui wpo with
    | false =>
      rw [newEntry, hr, if_neg Bool.false_ne_true, hentry] at hfull hsp ⊢
      rw [hfull, if_neg Bool.false_ne_true] at hfound hlast
      rw [drained_of_keep hr, oldValid, hentry, hb, hfull]
      have hfree := hfound.free ho hlast hsp
      exact ⟨⟨hfree.lt, hfree.below, hfree.word, hfree.only, hfree.alone⟩, rfl⟩
    | true =>
      have hne : (storeEntry c r lsui).i ≠ 0 := by
        simp only [wbufRemove, Bool.and_eq_true, bne_iff_ne, hentry] at hr
        exact hr.2
      rw [newEntry, hr, if_pos rfl, hentry] at hsp ⊢
      rw [drained_of_remove hr, oldValid, hentry, hb]
      cases hf : (storeEntry c r lsui).full with
      | false =>
        rw [hf, if_neg Bool.false_ne_true] at hfound hsp hlast
        have hsucc : (storeEntry c r lsui).i - 1 + 1 = (storeEntry c r lsui).i :=
          Nat.succ_pred hne
        refine ⟨hfound.free_shift ho h1 hne hsp, ?_⟩
        simp only [if_neg Bool.false_ne_true, shift_wbufValid, hsucc, if_pos hlast]
        rfl
      | true =>
        rw [hf, if_pos rfl] at hfound hlast
        simp only [hf, if_true, hlast] at hsp ⊢
        refine ⟨hfound.free_shift ho h1 (by omega) hsp, ?_⟩
        rw [shift_wbufValid, if_neg (by omega)]
        rfl

/-- It holds the data that is merged with the new. -/
theorem oldData_drained (hw : wbufWrite c r lsui wpo = true) (hv : oldValid c r lsui ≠ 0) :
    (drained c r lsui wpo).wbufData (newEntry c r lsui wpo).i = oldData c r lsui := by
  have hold : ((wbufEntry c r lsui).b && !(wbufEntry c r lsui).full) = true := by
    by_contra hno
    exact hv (if_neg hno)
  rw [oldData, hold, if_pos rfl]
  rw [Bool.and_eq_true, Bool.not_eq_true'] at hold
  cases hr : wbufRemove c r lsui wpo with
  | false => rw [drained_of_keep hr, newEntry, hr, if_neg Bool.false_ne_true]
  | true =>
    have hop : cacheOp lsui = false := by
      by_contra hop
      rw [(cacheOp_taken (by simpa using hop) hw).2.2] at hr
      cases hr
    have hentry := wbufEntry_of_noCache (c := c) (r := r) hop
    have hne : (wbufEntry c r lsui).i ≠ 0 := by
      simp only [wbufRemove, Bool.and_eq_true, bne_iff_ne] at hr
      exact hr.2
    have hlt := (storeEntry_found (c := c) (r := r) (storeEntry_wr (hentry ▸ hold.1))).2.1
    rw [← hentry, hold.2, if_neg Bool.false_ne_true] at hlt
    have hsucc : (wbufEntry c r lsui).i - 1 + 1 = (wbufEntry c r lsui).i := Nat.succ_pred hne
    have hshift : (r.shift c).wbufData ((wbufEntry c r lsui).i - 1) =
        r.wbufData ((wbufEntry c r lsui).i - 1 + 1) := if_pos (hsucc.symm ▸ hlt)
    rw [drained_of_remove hr, newEntry, hr, if_pos rfl, hold.2, if_neg Bool.false_ne_true, hshift,
      hsucc]

/-- What is taken goes to a proper place of the drained buffer. -/
theorem slot_of_ordered (h1 : 1 < c.size) (ho : Ordered c adrIsSpecial r)
    (hw : wbufWrite c r lsui wpo = true) :
    Slot c (drained c r lsui wpo) lsui.adr (newEntry c r lsui wpo).i (oldData c r lsui)
      (oldValid c r lsui) := by
  obtain ⟨hfree, hvalid⟩ := newEntry_free h1 ho hw
  refine ⟨hfree.lt, fun j hj hword hv => ?_, hfree.word, hvalid, oldData_drained hw⟩
  by_contra hne
  exact hfree.only j hj hne hv hword

theorem drained_drains (c : Config) (r : Registers) (lsui : LsuIn) (wpo : WriteportOut) :
    Drains c wpo.portAck r (drained c r lsui wpo) := by
  cases hr : wbufRemove c r lsui wpo with
  | false =>
    rw [drained_of_keep hr]
    exact .keep
  | true =>
    rw [drained_of_remove hr]
    simp only [wbufRemove, Bool.and_eq_true, Bool.or_eq_true, Bool.not_eq_true'] at hr
    exact .shift hr.1.2

/-- What is written joins an entry of the same word, or goes to an empty one. -/
theorem next_takes (h1 : 1 < c.size) (ho : Ordered c adrIsSpecial r)
    (hw : wbufWrite c r lsui wpo = true) :
    Takes c adrIsSpecial lsui.adr (wbdata c lsui) (bsel lsui) (drained c r lsui wpo)
      (newEntry c r lsui wpo).i (next c r lsui wpo) := by
  obtain ⟨hfree, hvalid⟩ := newEntry_free h1 ho hw
  rw [next, hw, if_pos rfl]
  exact
    { hfree with
      adr := by simp only [Registers.store, if_true]
      valid := by simp only [Registers.store, if_true, hvalid]
      data := fun l hl => by simp only [Registers.store, if_true, byte_merge, hl]
      dirty0 := rfl
      other := fun j hj => by simp only [Registers.store, if_neg hj, and_self] }

theorem next_advance (h1 : 1 < c.size) (ho : Ordered c adrIsSpecial r) (lsui : LsuIn)
    (wpo : WriteportOut) :
    Advance c adrIsSpecial lsui.adr (wbdata c lsui) (bsel lsui) wpo.portAck r
      (wbufWrite c r lsui wpo) (next c r lsui wpo) := by
  cases hw : wbufWrite c r lsui wpo with
  | false =>
    rw [next, hw, if_neg Bool.false_ne_true]
    exact .idle (drained_drains c r lsui wpo)
  | true => exact .store (drained_drains c r lsui wpo) (next_takes h1 ho hw)

/-- Entry 0 stays as long as the write port works on it. -/
theorem entry_zero_kept (hd : r.wbufDirty0 = true) (hack : wpo.portAck = false)
    (hv : cacheOp lsui = false ∨ (0 < c.size ∧ r.wbufValid 0 ≠ 0)) :
    (next c r lsui wpo).wbufDirty0 = true ∧ (next c r lsui wpo).wbufAdr 0 = r.wbufAdr 0 ∧
      (next c r lsui wpo).wbufData 0 = r.wbufData 0 ∧
      (next c r lsui wpo).wbufValid 0 = r.wbufValid 0 := by
  have hrem : wbufRemove c r lsui wpo = false := by simp [wbufRemove, hd, hack]
  have hkeep : drained c r lsui wpo = r := by
    rw [drained_of_keep hrem, hd, hack]
    cases r
    cases hd
    rfl
  have hentry : newEntry c r lsui wpo = wbufEntry c r lsui := if_neg (by rw [hrem]; decide)
  unfold next
  rw [hkeep]
  split
  · rename_i hw
    -- a store to the entry itself waits
    have hi : (newEntry c r lsui wpo).i ≠ 0 := by
      intro h0
      obtain ⟨hb, -, -, hdc⟩ := wbufWrite_spec hw
      have hno : cacheOp lsui = false := by
        rcases hv with hno | ⟨hpos, hv⟩
        · exact hno
        · by_contra hop
          exact hv (isFlushed_iff.mp (cacheOp_taken (by simpa using hop) hw).1 0 hpos)
      rw [hentry] at h0
      have hwr : lsui.wr = true := storeEntry_wr (wbufEntry_of_noCache (r := r) hno ▸ hb)
      simp [wbufDontChange, hd, hwr, hb, h0] at hdc
    have h0 := Ne.symm hi
    exact ⟨by simp [Registers.store, hi, hd], if_neg h0, if_neg h0, if_neg h0⟩
  · exact ⟨hd, rfl, rfl, rfl⟩

end ParaNut.Lsu
