import ParaNut.Lsu.Order

/-!
# I/O accesses through the write buffer

A store to an I/O address is the only entry of the buffer when it is taken and
joins no other, so it makes one transfer of its own in program order. A load
looks into the buffer whatever its address is, and does not wait for the
stores in it.
-/

namespace ParaNut.Lsu

open Lib

/-- The inputs of one cycle. -/
structure Input where
  lsui : LsuIn
  rpo : ReadportOut
  wpo : WriteportOut
  dcacheEnable : Bool

section Definitions

variable (c : Config)

def bufferRun (r : Registers) (i : ℕ → Input) : ℕ → Registers :=
  run (fun r i => next c r i.lsui i.wpo) r i

/-- A store is acknowledged. -/
def storeAcked (r : Registers) (i : Input) : Bool :=
  i.lsui.wr && (lsuo c r i.lsui i.rpo i.wpo).ack

/-- The write port completes a write. -/
def transferred (r : Registers) (i : Input) : Bool :=
  (wpi c r i.lsui i.dcacheEnable).portWr && i.wpo.portAck

/-- The transfer is the store: address, byte selects and the selected bytes. -/
structure Carries (lsui : LsuIn) (w : WriteportIn) : Prop where
  wr : w.portWr = true
  adr : w.portAdr = lsui.adr
  bsel : w.portBsel = bsel lsui
  data : ∀ n : Fin 4, getElem (Lsu.bsel lsui) n.val n.isLt = true →
    byte w.portData n = byte (wbdata c lsui) n

/-- The transfer writes all bytes of the store. -/
def Includes (lsui : LsuIn) (w : WriteportIn) : Prop :=
  wordOf w.portAdr = wordOf lsui.adr ∧
    ∀ n : Fin 4, getElem (bsel lsui) n.val (lane_lt n) = true →
      getElem w.portBsel n.val (lane_lt n) = true

/-- The first write-port transfer after cycle `t` is completed in cycle `u`. -/
structure NextTransfer (r : Registers) (i : ℕ → Input) (t u : ℕ) : Prop where
  lt : t < u
  now : transferred c (bufferRun c r i u) (i u) = true
  first : ∀ v, t < v → v < u → transferred c (bufferRun c r i v) (i v) = false

end Definitions

/-- Loads, stores and flushes, one at a time, aligned and of a known width. -/
structure Accesses (lsui : LsuIn) : Prop where
  noCacheOp : cacheOp lsui = false
  store : lsui.wr = true →
    lsui.rd = false ∧ lsui.flush = false ∧ misaligned lsui = false ∧ lsui.width ≠ 3

variable {c : Config} {r v : Registers} {lsui : LsuIn} {wpo : WriteportOut} {i : Input}

theorem bsel_ne_zero (hno : cacheOp lsui = false) (ha : misaligned lsui = false)
    (hw : lsui.width ≠ 3) : ∃ n : Fin 4, getElem (bsel lsui) n.val n.isLt = true := by
  have hcases : ∀ w : BitVec 2, w ≠ 3 → w = 0 ∨ w = 1 ∨ w = 2 := by decide
  have hbyte : ∀ o : BitVec 2, ∃ n : Fin 4, (1#4 <<< o.toNat)[n.val] = true := by decide
  have hhalf : ∀ o : BitVec 2, ∃ n : Fin 4, (3#4 <<< o.toNat)[n.val] = true := by decide
  rcases hcases _ hw with hw | hw | hw <;> simp only [bsel, hno, ha, hw]
  · exact ⟨0, by simp⟩
  · exact hbyte _
  · exact hhalf _

/-- A store to an I/O address is alone in the buffer. -/
theorem next_of_special (h1 : 1 < c.size) (ho : Ordered c adrIsSpecial r)
    (hs : adrIsSpecial lsui.adr = true) (hw : wbufWrite c r lsui wpo = true) :
    (next c r lsui wpo).wbufDirty0 = true ∧ (next c r lsui wpo).wbufAdr 0 = lsui.adr ∧
      (next c r lsui wpo).wbufValid 0 = bsel lsui ∧
      ∀ n : Fin 4, getElem (bsel lsui) n.val n.isLt = true →
        byte ((next c r lsui wpo).wbufData 0) n = byte (wbdata c lsui) n := by
  obtain ⟨hfree, hvalid⟩ := newEntry_free h1 ho hw
  obtain ⟨h0, hall⟩ := hfree.alone hs
  have hold : oldValid c r lsui = 0 := hvalid ▸ h0 ▸ hall 0 (Nat.lt_of_succ_lt h1)
  rw [next, hw, if_pos rfl, h0, hold]
  refine ⟨rfl, rfl, ?_, fun n hn => ?_⟩
  · simp [Registers.store]
  · simp only [Registers.store, if_true, byte_merge, hn]

-- ---------------------------------------------------------------------------
-- Runs
-- ---------------------------------------------------------------------------

section Runs

variable {i : ℕ → Input}

theorem bufferRun_succ (t : ℕ) :
    bufferRun c r i (t + 1) = next c (bufferRun c r i t) (i t).lsui (i t).wpo := rfl

theorem advances (h1 : 1 < c.size) (hr : r.IsReset) :
    Advances c adrIsSpecial (bufferRun c r i) (fun t => (i t).lsui.adr)
      (fun t => wbdata c (i t).lsui) (fun t => bsel (i t).lsui) (fun t => (i t).wpo.portAck)
      fun t => wbufWrite c (bufferRun c r i t) (i t).lsui (i t).wpo where
  io_word := special_of_word
  reset := hr
  step _ ho := next_advance h1 ho _ _

theorem storeAcked_iff {r : Registers} {i : Input} (h : Accesses i.lsui) :
    storeAcked c r i = true ↔ wbufWrite c r i.lsui i.wpo = true := by
  constructor
  · intro hst
    simp only [storeAcked, Bool.and_eq_true] at hst
    obtain ⟨hrd, hfl, -, -⟩ := h.store hst.1
    exact ack_of_wr h.noCacheOp hrd hfl ▸ hst.2
  · intro hw
    have hwr := storeEntry_wr (wbufEntry_of_noCache (r := r) h.noCacheOp ▸ (wbufWrite_spec hw).1)
    obtain ⟨hrd, hfl, -, -⟩ := h.store hwr
    have hack : (lsuo c r i.lsui i.rpo i.wpo).ack = _ := ack_of_wr h.noCacheOp hrd hfl
    rw [storeAcked, hwr, hack, hw]
    rfl

theorem storeAcked_bsel {r : Registers} {i : Input} (h : Accesses i.lsui)
    (hst : storeAcked c r i = true) : ∃ n : Fin 4, getElem (bsel i.lsui) n.val n.isLt = true := by
  simp only [storeAcked, Bool.and_eq_true] at hst
  obtain ⟨-, -, ha, hw⟩ := h.store hst.1
  exact bsel_ne_zero h.noCacheOp ha hw

/-- The store is presented until it is transferred. -/
theorem presented (h1 : 1 < c.size) (hr : r.IsReset) (hreq : ∀ t, Accesses (i t).lsui) {t : ℕ}
    (hst : storeAcked c (bufferRun c r i t) (i t) = true)
    (hs : adrIsSpecial (i t).lsui.adr = true) {u : ℕ} (htu : t < u)
    (hno : ∀ v, t < v → v < u → transferred c (bufferRun c r i v) (i v) = false) :
    Carries c (i t).lsui (wpi c (bufferRun c r i u) (i u).lsui (i u).dcacheEnable) := by
  have hentry : (bufferRun c r i u).wbufDirty0 = true ∧
      (bufferRun c r i u).wbufAdr 0 = (i t).lsui.adr ∧
      (bufferRun c r i u).wbufValid 0 = bsel (i t).lsui ∧
      ∀ n : Fin 4, getElem (bsel (i t).lsui) n.val n.isLt = true →
        byte ((bufferRun c r i u).wbufData 0) n = byte (wbdata c (i t).lsui) n := by
    induction u, htu using Nat.le_induction with
    | base =>
      exact next_of_special h1 ((advances h1 hr).ordered t) hs ((storeAcked_iff (hreq t)).mp hst)
    | succ u htu ih =>
      obtain ⟨hd, hadr, hv, hdata⟩ := ih fun v htv hvu => hno v htv (Nat.lt_succ_of_lt hvu)
      have hack : (i u).wpo.portAck = false := by
        have hnow := hno u htu (Nat.lt_succ_self u)
        simpa [transferred, wpi, (hreq u).noCacheOp, hd] using hnow
      obtain ⟨hd', hadr', hdata', hv'⟩ :=
        entry_zero_kept (c := c) hd hack (.inl (hreq u).noCacheOp)
      rw [bufferRun_succ, hd', hadr', hdata', hv']
      exact ⟨rfl, hadr, hv, hdata⟩
  obtain ⟨hd, hadr, hv, hdata⟩ := hentry
  exact ⟨by simp [wpi, (hreq u).noCacheOp, hd], hadr, hv, hdata⟩

theorem transferred_iff {r : Registers} {i : Input} (h : cacheOp i.lsui = false) :
    transferred c r i = (r.wbufDirty0 && i.wpo.portAck) := by
  simp [transferred, wpi, h]

/-- All earlier stores are in memory when a store to an I/O address is acknowledged. -/
theorem earlier_transferred (h1 : 1 < c.size) (hr : r.IsReset)
    (hreq : ∀ t, Accesses (i t).lsui) {s t : ℕ} (hst : s < t)
    (hearlier : storeAcked c (bufferRun c r i s) (i s) = true)
    (hlater : storeAcked c (bufferRun c r i t) (i t) = true)
    (hs : adrIsSpecial (i t).lsui.adr = true) :
    ∃ v, s < v ∧ v ≤ t ∧ transferred c (bufferRun c r i v) (i v) = true ∧
      Includes (i s).lsui (wpi c (bufferRun c r i v) (i v).lsui (i v).dcacheEnable) := by
  obtain ⟨v, hsv, hvt, hd, hack, hin⟩ := (advances h1 hr).earlier_done hst
    ((storeAcked_iff (hreq s)).mp hearlier) (storeAcked_bsel (hreq s) hearlier)
    ((storeAcked_iff (hreq t)).mp hlater) hs
  refine ⟨v, hsv, hvt, ?_, hin⟩
  rw [transferred_iff (hreq v).noCacheOp, hd]
  exact hack

/-- What is in flight has bytes. -/
theorem dirty_valid_run (h1 : 1 < c.size) (hr : r.IsReset) (hreq : ∀ t, Accesses (i t).lsui)
    (t : ℕ) (hd : (bufferRun c r i t).wbufDirty0 = true) : (bufferRun c r i t).wbufValid 0 ≠ 0 := by
  induction t with
  | zero => exact absurd (hr.2.symm.trans hd) Bool.false_ne_true
  | succ t ih =>
    have hdrained : ∀ v, v = drained c (bufferRun c r i t) (i t).lsui (i t).wpo →
        v.wbufDirty0 = true → v.wbufValid 0 ≠ 0 := by
      rintro v rfl hd
      cases hrem : wbufRemove c (bufferRun c r i t) (i t).lsui (i t).wpo with
      | false =>
        simp only [drained_of_keep hrem, Bool.and_eq_true] at hd ⊢
        exact ih hd.1
      | true =>
        rw [drained_of_remove hrem] at hd ⊢
        rw [shift_wbufValid, if_pos h1]
        exact bne_iff_ne.mp hd
    rw [bufferRun_succ] at hd ⊢
    cases hw : wbufWrite c (bufferRun c r i t) (i t).lsui (i t).wpo with
    | false =>
      rw [next, hw, if_neg Bool.false_ne_true] at hd ⊢
      exact hdrained _ rfl hd
    | true =>
      have hsel := storeAcked_bsel (hreq t) ((storeAcked_iff (hreq t)).mpr hw)
      rw [next, hw, if_pos rfl] at hd ⊢
      by_cases hn : 0 = (newEntry c (bufferRun c r i t) (i t).lsui (i t).wpo).i
      · refine valid_ne_zero hsel fun n hl => ?_
        simp only [Registers.store, if_pos hn]
        simp [hl]
      · simp only [Registers.store, if_neg hn, if_neg (Ne.symm hn)] at hd ⊢
        exact hdrained _ rfl hd

theorem NextTransfer.unique {t u u' : ℕ} (h : NextTransfer c r i t u)
    (h' : NextTransfer c r i t u') : u' = u := by
  rcases Nat.lt_trichotomy u' u with hlt | heq | hgt
  · exact absurd (h'.now.symm.trans (h.first u' h'.lt hlt)) (by decide)
  · exact heq
  · exact absurd (h.now.symm.trans (h'.first u h.lt hgt)) (by decide)

/-- Once the write port acknowledges, the store has been transferred. -/
theorem exists_nextTransfer (h1 : 1 < c.size) (hr : r.IsReset)
    (hreq : ∀ t, Accesses (i t).lsui) {t : ℕ}
    (hst : storeAcked c (bufferRun c r i t) (i t) = true)
    (hs : adrIsSpecial (i t).lsui.adr = true) (hack : ∃ u > t, (i u).wpo.portAck = true) :
    ∃ u, NextTransfer c r i t u := by
  classical
  obtain ⟨hgt, hnow⟩ := Nat.find_spec hack
  have hfirst : ∀ v, t < v → v < Nat.find hack →
      transferred c (bufferRun c r i v) (i v) = false := by
    intro v htv hlt
    have hno : (i v).wpo.portAck = false := by
      by_contra ha
      exact Nat.find_min hack hlt ⟨htv, by simpa using ha⟩
    rw [transferred, hno, Bool.and_false]
  have hcarries := presented h1 hr hreq hst hs hgt hfirst
  exact ⟨Nat.find hack, hgt, by rw [transferred, hcarries.wr, hnow]; rfl, hfirst⟩

def noAccess : LsuIn := ⟨false, false, false, false, false, 0, false, 0, 0⟩

/-- A store to memory, and one to a device that waits for it. -/
def ioStore : ℕ → Input
  | 0 => ⟨⟨false, true, false, false, false, 0, false, 4, 7⟩, ⟨false, 0⟩, ⟨false, true⟩, true⟩
  | 1 => ⟨⟨false, true, false, false, false, 0, false, 0x80000008, 9⟩, ⟨false, 0⟩, ⟨true, true⟩, true⟩
  | 3 => ⟨noAccess, ⟨false, 0⟩, ⟨true, true⟩, true⟩
  | _ => ⟨noAccess, ⟨false, 0⟩, ⟨false, true⟩, true⟩

theorem ioStore_accesses (t : ℕ) : Accesses (ioStore t).lsui := by
  have hidle : Accesses noAccess := ⟨rfl, nofun⟩
  rcases t with _ | _ | _ | _ | t
  · exact ⟨rfl, by decide⟩
  · exact ⟨rfl, by decide⟩
  all_goals exact hidle

end Runs

end ParaNut.Lsu
