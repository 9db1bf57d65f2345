import ParaNut.Ifu.Mifu

/-!
# The fetch unit of the SystemC model (`ifu.cpp`)

`transition` is `MIfu::TransitionMethod`. The buffers and `last_rp_ack` are
signals, so the method reads the values they had before the clock edge, also
after it has assigned them; only the `_var` copies of the counters change
along the way. Queue and clock cycle are those of `mifu` but for the request:
the word that arrives in this cycle is not searched for a jump.
-/

namespace ParaNut.SysC

open Ifu (IfuIn Registers ifuo arrival Steps Tracks TracksAt Disciplined IsReset FirstFetch
  JumpsInTime Env Cycle StreamCorrect states bufSize)

section Transition

variable (r : Registers) (i : IfuIn) (rpAck : Bool) (rpData : TWord)

/-- `IFU_BUF_SIZE` -/
def ifuBufSize : ℕ := 4

def isJump (insn : TWord) : Bool :=
  let op6 := (insn >>> 26).toNat
  op6 ≤ 0x04 || op6 = 0x11 || op6 = 0x12 || op6 = 0x08 || op6 = 0x09

def shifted : Registers :=
  if i.nexti then
    { r with
      insnBuf := fun n => if n + 1 < ifuBufSize then r.insnBuf (n + 1) else r.insnBuf n
      adrBuf := fun n => if n + 1 < ifuBufSize then r.adrBuf (n + 1) else r.adrBuf n
      insnTop := if 0 < r.insnTop then r.insnTop - 1 else r.insnTop
      adrTop := if 0 < r.adrTop then r.adrTop - 1 else r.adrTop }
  else r

def addressed : Registers :=
  let v := shifted r i
  if v.adrTop < ifuBufSize then
    { v with
      adrBuf := fun n =>
        if n = v.adrTop then r.adrBuf (v.adrTop - if i.nexti then 0 else 1) + 4 else v.adrBuf n
      adrTop := v.adrTop + 1 }
  else v

def jumped : Registers :=
  let v := addressed r i
  if i.jump then
    { v with
      insnTop := if 2 < v.insnTop then 2 else v.insnTop
      adrBuf := fun n => if n = 2 then i.jumpAdr else v.adrBuf n
      adrTop := 3 }
  else v

def stored : Registers :=
  let v := { jumped r i with lastRpAck := rpAck }
  if r.lastRpAck then
    { v with
      insnBuf := fun n => if n = v.insnTop then rpData else v.insnBuf n
      insnTop := v.insnTop + 1 }
  else v

def nextInsnTop : ℕ := (stored r i rpAck rpData).insnTop + if rpAck then 1 else 0

/-- Is a new memory read request issued? -/
def issue : Bool :=
  let top := nextInsnTop r i rpAck rpData
  let ofs := if i.nexti then 1 else 0
  decide (top < (stored r i rpAck rpData).adrTop) && decide (top + ofs < ifuBufSize) &&
    !(decide (2 ≤ top) && isJump (r.insnBuf (top + ofs - 2)))

def transition : Registers :=
  let v := stored r i rpAck rpData
  if issue r i rpAck rpData then
    { v with
      rpRd := true
      rpAdr := r.adrBuf (nextInsnTop r i rpAck rpData + if i.nexti then 1 else 0) }
  else { v with rpRd := false }

/-- The reset branch; it leaves `last_rp_ack`. -/
def reset (v : Registers) : Registers where
  insnBuf := v.insnBuf
  adrBuf n := if n = 0 then 0x100 - 4 else v.adrBuf n
  insnTop := 1
  adrTop := 1
  lastRpAck := v.lastRpAck
  rpRd := false
  rpAdr := v.rpAdr

end Transition

variable {mem : WordAdr → TWord} {r : Registers} {i : IfuIn} {rpAck : Bool} {rpData : TWord}
  {s : Ifu.Stream}

-- ---------------------------------------------------------------------------
-- The queue is that of `mifu`
-- ---------------------------------------------------------------------------

theorem addressed_eq : addressed r i = Ifu.addressed 2 r i := by
  have hs : shifted r i = Ifu.shifted 2 r i := rfl
  have hofs : (if i.nexti then 0 else 1) = (!i.nexti).toNat := by cases i.nexti <;> rfl
  have hsize : bufSize 2 = 4 := rfl
  simp only [addressed, Ifu.addressed, hs, Ifu.full, ifuBufSize, hsize, hofs, decide_eq_true_eq]
  by_cases hlt : (Ifu.shifted 2 r i).adrTop < 4
  · rw [if_pos hlt, if_neg (by omega), Nat.mod_eq_of_lt hlt, Nat.mod_eq_of_lt (by omega)]
  · rw [if_neg hlt, if_pos (by omega)]

theorem stored_eq (h : r.lastRpAck = true → arrival r i < 4) :
    stored r i rpAck rpData = Ifu.stored 2 r i rpAck rpData := by
  have hj : jumped r i = Ifu.jumped 2 r i := by
    simp only [jumped, Ifu.jumped, addressed_eq]
  have htop := Ifu.jumped_insnTop 2 r i
  have hsize : bufSize 2 = 4 := rfl
  simp only [stored, Ifu.stored, hj]
  cases hl : r.lastRpAck with
  | false => rfl
  | true =>
    have := h hl
    simp only [if_true, htop, hsize, Nat.mod_eq_of_lt this,
      Nat.mod_eq_of_lt (show arrival r i + 1 < 2 * 4 by omega)]

/-- During reset the port does not acknowledge and the EXU does not assert `next` or `jump`. -/
theorem isReset_of_two_clocks (hn : i.nexti = false) (hj : i.jump = false) (r : Registers) :
    IsReset (reset (transition (reset r) i false rpData)) := by
  refine ⟨rfl, rfl, ?_, rfl, rfl, ?_⟩ <;>
    cases hl : r.lastRpAck <;>
      simp [reset, transition, issue, stored, nextInsnTop, jumped, addressed, shifted, hn, hj, hl,
        ifuBufSize]

/-- A cycle of `MIfu` is a cycle of a prefetch queue. -/
theorem transition_steps (h : Tracks 4 mem r rpData s) (hd : Disciplined isJump s (ifuo r) i) :
    Steps isJump 4 r i rpAck rpData (transition r i rpAck rpData) := by
  have hack : (if rpAck then 1 else 0) = rpAck.toNat := by cases rpAck <;> rfl
  have hofs : (if i.nexti then 1 else 0) = i.nexti.toNat := by cases i.nexti <;> rfl
  have hrange : (Ifu.stored 2 r i rpAck rpData).insnTop = _ ∧
      arrival r i + r.lastRpAck.toNat + i.nexti.toNat ≤ bufSize 2 :=
    Ifu.stored_range (le_refl 2) h.toQueue (h.next_le hd) rpAck
  have hfit := hrange.2
  have harr : r.lastRpAck = true → arrival r i < 4 := by
    intro hl
    rw [hl, Bool.toNat_true, show bufSize 2 = 4 from rfl] at hfit
    omega
  have hsame : ∃ rd adr, transition r i rpAck rpData =
      { Ifu.stored 2 r i rpAck rpData with rpRd := rd, rpAdr := adr } := by
    rw [← stored_eq harr]
    cases hi : issue r i rpAck rpData with
    | false => exact ⟨_, _, by rw [transition, hi]; rfl⟩
    | true => exact ⟨_, _, by rw [transition, hi]; rfl⟩
  refine Ifu.steps_of_stored (le_refl 2) h.toQueue (h.next_le hd) hsame fun hrd => ?_
  have hissue : issue r i rpAck rpData = true := by
    by_contra hi
    simp [transition, hi] at hrd
  have htop : (transition r i rpAck rpData).insnTop + rpAck.toNat =
      nextInsnTop r i rpAck rpData := by
    simp [transition, hissue, nextInsnTop, hack]
  have hadrTop : (transition r i rpAck rpData).adrTop = (stored r i rpAck rpData).adrTop := by
    simp [transition, hissue]
  have hadr : (transition r i rpAck rpData).rpAdr =
      r.adrBuf (nextInsnTop r i rpAck rpData + i.nexti.toNat) := by
    simp [transition, hissue, hofs]
  rw [htop, hadrTop, hadr]
  simp only [issue, hofs, ifuBufSize, Bool.and_eq_true, decide_eq_true_eq, Bool.not_eq_true',
    Bool.and_eq_false_iff, decide_eq_false_iff_not] at hissue
  obtain ⟨⟨hlt, hroom⟩, hjmp⟩ := hissue
  exact ⟨hlt, hroom, rfl, fun hp => hjmp.resolve_left (not_not.mpr hp)⟩

theorem firstFetch (hr : IsReset r) (hn : i.nexti = false) (hj : i.jump = false) :
    FirstFetch (transition r i false rpData) := by
  constructor <;>
    simp [transition, issue, stored, nextInsnTop, jumped, addressed, shifted, hn, hj, ifuBufSize,
      hr.insnTop, hr.adrTop, hr.lastRpAck, hr.adr_zero, hr.adr_one]

-- ---------------------------------------------------------------------------
-- Runs
-- ---------------------------------------------------------------------------

variable {i : ℕ → Cycle}

/-- The stream is right if the first two requests are not both acknowledged at once, and no word
from behind a delay slot is on its way in the cycle of the jump. -/
theorem mIfu_stream (hr : IsReset r) (henv : Env transition isJump mem r i)
    (hlate : ¬((i 1).rpAck = true ∧ (i 2).rpAck = true))
    (hjumps : ∀ t, JumpsInTime (states transition r i t) (i t).ifui (i t).rpAck) :
    StreamCorrect transition mem r i ifuBufSize := by
  have hidle := Ifu.idle_of_reset (henv.exu 0) hr.insnTop
  have hack : (i 0).rpAck = false := by
    by_contra ha
    have := henv.rpAck 0 (by simpa using ha)
    simp [states, hr.rpRd] at this
  have hone : states transition r i 1 = transition r (i 0).ifui false (i 0).portData := by
    rw [← hack]
    rfl
  have hfirst : FirstFetch (states transition r i 1) := hone ▸ firstFetch hr hidle.1 hidle.2
  have htracks := Ifu.tracks_run (le_refl 4) henv hidle hfirst
    (fun t htr => transition_steps htr (henv.exu t)) (fun t _ => hjumps t) hlate
  exact Ifu.streamCorrect_of_tracks (le_refl 4) ⟨hr.insnTop, hr.adrTop⟩ htracks

/-- A jump at 0x100 among distinct other words. -/
def jumpMem : WordAdr → TWord := fun a => if a = 0x40 then 0 else 0b010101#6 ++ a.setWidth 26

def jumpReset : Registers :=
  ⟨fun _ => jumpMem 0, fun n => if n = 0 then 0xfc else if n = 1 then 0x100 else 0, 1, 1, false,
    false, 0⟩

/-- The jump and its delay slot arrive one after the other, and the EXU takes both as soon as they
are there; with `third` the word behind them is acknowledged, too. -/
def jumpRun (third : Bool) : ℕ → Cycle
  | 2 => ⟨⟨false, false, 0⟩, true, 0⟩
  | 3 => ⟨⟨false, false, 0⟩, true, jumpMem 0x40⟩
  | 4 => ⟨⟨true, true, 0x200⟩, third, jumpMem 0x41⟩
  | 5 => ⟨⟨true, false, 0⟩, false, jumpMem 0x42⟩
  | _ => ⟨⟨false, false, 0⟩, false, 0⟩

theorem jumpRun_env (third : Bool) : Env transition isJump jumpMem jumpReset (jumpRun third) where
  rpAck := by
    rintro (_ | _ | _ | _ | _ | _ | t) h
    all_goals first | cases h; done | cases third <;> rfl
  portData := by
    rintro (_ | _ | _ | _ | _ | _ | t) h
    all_goals first | cases h; done | cases third <;> rfl
  exu := by
    rintro (_ | _ | _ | _ | _ | _ | t) <;> constructor <;> intro h
    all_goals first | cases h; done | cases third <;> decide

theorem mIfu_stream_in_time : StreamCorrect transition jumpMem jumpReset (jumpRun false) 4 :=
  mIfu_stream ⟨rfl, rfl, rfl, rfl, rfl, rfl⟩ (jumpRun_env false) (by decide) (by
    rintro (_ | _ | _ | _ | _ | _ | t) h
    all_goals first | cases h; done | decide)

/-- With the third word acknowledged in the cycle of the jump, it is offered at the target. -/
theorem mIfu_stream_overrun : IsReset jumpReset ∧
    Env transition isJump jumpMem jumpReset (jumpRun true) ∧
    ¬ StreamCorrect transition jumpMem jumpReset (jumpRun true) 4 := by
  refine ⟨⟨rfl, rfl, rfl, rfl, rfl, rfl⟩, jumpRun_env true, fun h => ?_⟩
  have hir := ((h 6).1 (by decide)).1
  exact absurd hir (by decide)

end ParaNut.SysC
