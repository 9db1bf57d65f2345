import ParaNut.Memu.WritePort
import ParaNut.Memu.ReadPort
import ParaNut.Memu.BusIf
import ParaNut.Memu.Address

/-!
# What the ports and the BusIf do in one cycle

One lemma for each question the later invariants ask: which grants a state was
entered with, which lines it keeps up, and when a unit writes.
-/

namespace ParaNut.Memu

namespace WritePort

/-- The states of a write in which the line lock has been granted and is kept. -/
def State.writeLocked : State → Bool
  | .readTag | .haveTagRequestBank | .readBank | .writeTag1AndBank | .writeTag2AndBank
  | .writeTag1 | .writeBank | .recheck | .recheckReadTag | .replace | .replaceWaitBusif => true
  | .init | .direct | .requestLinelockOnly | .writeTag2 | .miss | .requestBusifOnly
  | .specialRequestBusifOnly | .special | .specialWaitComplete => false

/-- The states of a cache-control operation the BusIf runs. -/
def State.atSpecial : State → Bool
  | .special | .specialWaitComplete => true
  | _ => false

/-- The states in which the BusIf has been granted and is kept. -/
def State.ownsBusif : State → Bool
  | .direct | .recheck | .recheckReadTag | .replace | .replaceWaitBusif | .special
  | .specialWaitComplete => true
  | _ => false

/-- The states in which the BusIf may run on behalf of the port. -/
def State.served : State → Bool
  | .replace | .replaceWaitBusif | .special | .specialWaitComplete => true
  | _ => false

/-- The second cycle of a tag write. -/
def State.secondTagWrite : State → Bool
  | .writeTag2 | .writeTag2AndBank => true
  | _ => false

/-- The states in which the tag that was asked for arrives. -/
def State.tagArrives : State → Bool
  | .readTag | .recheckReadTag => true
  | _ => false

/-- The states in which the bank is written when it is granted. -/
def State.commits : State → Bool
  | .writeTag1AndBank | .writeTag2AndBank | .writeBank => true
  | _ => false

/-- The request of a port: it is kept up until the acknowledge. -/
def requested (w : WriteportIn) : Bool := w.portWr || w.portWriteback || w.portInvalidate

variable {c : Config} {r : Registers} {i : In}

@[simp] theorem snooped_state : (snooped r i).state = r.state := by
  simp only [snooped]
  split <;> rfl

@[simp] theorem snooped_tag : (snooped r i).tag = r.tag := by
  simp only [snooped]
  split <;> rfl

@[simp] theorem snooped_data : (snooped r i).data = r.data := by
  simp only [snooped]
  split <;> rfl

/-- The port enters `S_WP_SPECIAL` from `S_WP_INIT` without a line lock. -/
def unlockedSpecial (r : Registers) (i : In) : Bool :=
  r.state == .init && !i.wpi.portWr && (i.wpi.portWriteback || i.wpi.portInvalidate) &&
    i.gntBusif && !i.busifBusy && !i.gntLinelock

theorem init_of_ack (h : (comb c r i).2.portAck = true) : (comb c r i).1.state = .init := by
  revert h
  cases hs : r.state <;> simp only [comb, hs, defaults, combInit, snooped_state]
  all_goals
    repeat' split
    all_goals simp_all

theorem ack_eq_false_of_reqLinelock (h : (comb c r i).2.reqLinelock = true) :
    (comb c r i).2.portAck = false := by
  revert h
  cases hs : r.state <;> simp only [comb, hs, defaults, combInit]
  all_goals
    repeat' split
    all_goals simp_all

/-- The port leaves its initial state on a request only. -/
theorem requested_of_leaves (hs : r.state = .init) (h : (comb c r i).1.state ≠ .init) :
    requested i.wpi = true := by
  revert h
  simp only [comb, hs, combInit, snooped_state, requested]
  repeat' split
  all_goals simp_all

theorem reqLinelock_requested (hs : r.state = .init) (h : (comb c r i).2.reqLinelock = true) :
    requested i.wpi = true := by
  revert h
  simp only [comb, hs, combInit, defaults, requested]
  repeat' split
  all_goals simp_all

/-- A write enters a locked state with the line lock granted, or keeps it. -/
theorem writeLocked_next (h : (comb c r i).1.state.writeLocked = true) :
    (comb c r i).2.reqLinelock = true ∧ (r.state.writeLocked = true ∨ i.gntLinelock = true) := by
  revert h
  cases hs : r.state <;> simp only [comb, hs, defaults, combInit, snooped_state, writeState]
  all_goals
    repeat' split
    all_goals simp_all [State.writeLocked]

/-- A cache-control operation may also be entered without it. -/
theorem atSpecial_next (h : (comb c r i).1.state.atSpecial = true) :
    (comb c r i).2.reqLinelock = true ∧
      (r.state.atSpecial = true ∨ i.gntLinelock = true ∨ unlockedSpecial r i = true) := by
  revert h
  cases hs : r.state <;> simp only [comb, hs, defaults, combInit, snooped_state, writeState]
  all_goals
    repeat' split
    all_goals simp_all [State.atSpecial, unlockedSpecial]

theorem ownsBusif_next (h : (comb c r i).1.state.ownsBusif = true) :
    (comb c r i).2.reqBusif = true ∧ (r.state.ownsBusif = true ∨ i.gntBusif = true) := by
  revert h
  cases hs : r.state <;> simp only [comb, hs, defaults, combInit, snooped_state, writeState]
  all_goals
    repeat' split
    all_goals simp_all [State.ownsBusif]

/-- The BusIf is busy, so whom it runs for stays. -/
theorem served_next (h : r.state.served = true) (hb : i.busifBusy = true) :
    (comb c r i).1.state.served = true := by
  revert h
  cases hs : r.state <;> simp [comb, hs, snooped_state, State.served, hb]

theorem served_requests (h : r.state.served = true) (hb : i.busifBusy = true) :
    (comb c r i).2.reqLinelock = true ∧ (comb c r i).2.reqBusif = true ∧
      (comb c r i).2.portAck = false := by
  revert h
  cases hs : r.state <;> simp [comb, hs, defaults, State.served, hb]

theorem State.served_locked {st : State} (h : st.served = true) :
    (st.writeLocked = true ∨ st.atSpecial = true) ∧ st.ownsBusif = true := by
  cases st <;> simp_all [State.served, State.writeLocked, State.atSpecial, State.ownsBusif]

theorem tagArrives_next (h : (comb c r i).1.state.tagArrives = true) :
    (comb c r i).2.reqTagr = true ∧ (comb c r i).2.tagRd = true ∧ i.gntTagr = true := by
  revert h
  cases hs : r.state <;> simp only [comb, hs, defaults, combInit, snooped_state, writeState]
  all_goals
    repeat' split
    all_goals simp_all [State.tagArrives]

theorem tagRd_gnt (h : (comb c r i).2.tagRd = true) : i.gntTagr = true := by
  revert h
  cases hs : r.state <;> simp only [comb, hs, defaults, combInit]
  all_goals
    repeat' split
    all_goals simp_all

theorem secondTagWrite_next (h : (comb c r i).1.state.secondTagWrite = true) :
    (comb c r i).2.reqTagw = true ∧ (comb c r i).2.tagWr = true ∧ i.gntTagw = true ∧
      r.state.writeLocked = true ∧ r.state.secondTagWrite = false := by
  revert h
  cases hs : r.state <;> simp only [comb, hs, defaults, combInit, snooped_state, writeState]
  all_goals
    repeat' split
    all_goals simp_all [State.secondTagWrite, State.writeLocked]

theorem secondTagWrite_writes (h : r.state.secondTagWrite = true) :
    (comb c r i).2.reqTagw = true ∧ (comb c r i).2.tagWr = true := by
  revert h
  cases hs : r.state <;> simp only [comb, hs, defaults, State.secondTagWrite]
  all_goals
    repeat' split
    all_goals simp_all

/-- A tag is written under the grant or in the second cycle, and only sets the dirty flag. -/
theorem tagWr_spec (h : (comb c r i).2.tagWr = true) :
    (comb c r i).2.tagOut = { r.tag with dirty := true } ∧ (comb c r i).2.reqTagw = true ∧
      ((r.state = .writeTag1AndBank ∨ r.state = .writeTag1) ∧ i.gntTagw = true ∨
        r.state.secondTagWrite = true) := by
  revert h
  cases hs : r.state <;> simp only [comb, hs, defaults, combInit, snooped_state]
  all_goals
    repeat' split
    all_goals simp_all [State.secondTagWrite]

theorem bankWr_spec (h : (comb c r i).2.bankWr = true) :
    r.state.commits = true ∧ bankGnt c i = true := by
  revert h
  cases hs : r.state <;> simp only [comb, hs, defaults, combInit]
  all_goals
    repeat' split
    all_goals simp_all [State.commits]

theorem State.commits_locked {st : State} (h : st.commits = true) : st.writeLocked = true := by
  cases st <;> simp_all [State.commits, State.writeLocked]

theorem bankReqRd_locked (h : (comb c r i).2.bankReqRd = true) :
    r.state.writeLocked = true := by
  revert h
  cases hs : r.state <;> simp only [comb, hs, defaults, combInit]
  all_goals
    repeat' split
    all_goals simp_all [State.writeLocked]

/-- A port that asks for a cache operation goes on being served. -/
theorem busifOp_isCache (h : (comb c r i).2.busifOp.isCache = true) :
    r.state.served = true ∧ (comb c r i).1.state.served = true := by
  revert h
  cases hs : r.state <;> simp only [comb, hs, defaults, combInit, snooped_state]
  all_goals
    repeat' split
    all_goals simp_all [BusIfOp.isCache, State.served]

theorem busifNolinelock : (comb c r i).2.busifNolinelock = true := by
  cases hs : r.state <;> simp only [comb, hs, defaults, combInit]
  all_goals
    repeat' split
    all_goals simp_all

end WritePort

namespace ReadPort

variable {c : Config} {r : Registers} {i : In}

def State.tagArrives : State → Bool
  | .readTag | .missReadTag => true
  | _ => false

theorem tagArrives_next (h : (comb c r i).1.state.tagArrives = true) :
    (comb c r i).2.reqTagr = true ∧ (i.gntTagr = true ∨ r.state.tagArrives = true) := by
  revert h
  cases hs : r.state <;> simp only [comb, hs, defaults, newRequest, readHit]
  all_goals
    repeat' split
    all_goals simp_all [State.tagArrives]

theorem tagRd_gnt (h : (comb c r i).2.tagRd = true) : i.gntTagr = true := by
  revert h
  cases hs : r.state <;> simp only [comb, hs, defaults, newRequest, readHit]
  all_goals
    repeat' split
    all_goals simp_all

/-- A bank that is granted is not asked for again. -/
theorem readBank_of_bankReqRd (h : (comb c r i).2.bankReqRd = true)
    (hg : i.gntBank (bankOf c i.rpi.portAdr) = true) : (comb c r i).1.state = .readBank := by
  revert h
  cases hs : r.state <;> simp only [comb, hs, defaults, newRequest, readHit]
  all_goals
    repeat' split
    all_goals simp_all

theorem bankReqRd_of_readBank (h : r.state = .readBank) : (comb c r i).2.bankReqRd = false := by
  simp only [comb, h, defaults, newRequest]
  repeat' split
  all_goals simp_all

end ReadPort

namespace BusIf

variable {c : Config} {r : Registers} {i : In}

/-- The states of a cache operation from the request for the tag until the bus is released. -/
def State.working : State → Bool
  | .cacheRequestRtWait | .cacheReadTag | .cacheReplaceReadIdata | .cacheReadDirtyBanks
  | .cacheReplaceInvalidateTag | .cacheReplaceWriteBanks | .cacheWriteTag
  | .cacheWriteBackVictim => true
  | _ => false

/-- The states from the arrival of the tag until its last write. -/
def State.modifying : State → Bool
  | .cacheReadTag | .cacheReplaceReadIdata | .cacheReadDirtyBanks | .cacheReplaceInvalidateTag
  | .cacheReplaceWriteBanks | .cacheWriteTag => true
  | _ => false

/-- The states in which tags are written. -/
def State.writesTag : State → Bool
  | .cacheReplaceInvalidateTag | .cacheWriteTag => true
  | _ => false

/-- The states in which the tag that was read is used. -/
def State.usesTag : State → Bool
  | .cacheReplaceReadIdata | .cacheReadDirtyBanks | .cacheReplaceInvalidateTag
  | .cacheReplaceWriteBanks | .cacheWriteTag | .cacheWriteBackVictim => true
  | _ => false

theorem State.usesTag_working {st : State} (h : st.usesTag = true) : st.working = true := by
  cases st <;> simp_all [State.usesTag, State.working]

theorem State.writesTag_working {st : State} (h : st.writesTag = true) : st.working = true := by
  cases st <;> simp_all [State.writesTag, State.working]

theorem State.modifying_working {st : State} (h : st.modifying = true) : st.working = true := by
  cases st <;> simp_all [State.modifying, State.working]

theorem working_busy (h : r.state.working = true) : (comb c r i).2.busifBusy = true := by
  revert h
  cases hs : r.state <;> simp [comb, hs, defaults, State.working]

theorem tagRd_gnt (h : (comb c r i).2.tagRd = true) : i.gntTagr = true := by
  revert h
  cases hs : r.state <;> simp [comb, hs, defaults]

theorem reqLinelock_eq : (comb c r i).2.reqLinelock = r.linelock := by
  cases hs : r.state <;> simp [comb, hs, defaults]

/-- What the registers of the BusIf keep by themselves. -/
structure WellFormed (c : Config) (r : Registers) : Prop where
  linelock : r.linelock = true →
    r.state = .cacheRequestLlWait ∨ r.state.working = true ∨ r.state = .cacheAck
  llWait : r.state = .cacheRequestLlWait → r.linelock = true
  adrOfs : r.state = .cacheRequestLlWait ∨ r.state.working = true → r.adrOfs < c.banks
  isCache : r.state = .cacheRequestLlWait ∨ r.state.working = true → r.op.isCache = true
  cnt : r.state = .cacheReplaceReadIdata ∨ r.state = .cacheWriteBackVictim → r.cnt < c.banks
  cnt_tag : r.state.writesTag = true → r.cnt ≤ 1
  cnt_zero : r.state = .cacheRequestLlWait ∨ r.state = .cacheRequestRtWait ∨
    r.state = .cacheReadTag ∨ r.state = .cacheReadDirtyBanks ∨
    r.state = .cacheReplaceWriteBanks → r.cnt = 0

theorem linelock_next (h : WellFormed c r) (hl : (comb c r i).1.linelock = true) :
    (comb c r i).1.state = .cacheRequestLlWait ∨ (comb c r i).1.state.working = true ∨
      (comb c r i).1.state = .cacheAck := by
  have hlock := h.linelock
  revert hl
  cases hs : r.state <;> simp only [hs, State.working] at hlock
  case idle =>
    simp only [comb, hs, combIdle, latched]
    cases hop : i.busifOp <;> simp_all [State.working]
  all_goals
    simp only [comb, hs, tagWritten]
    repeat' split
    all_goals simp_all [State.working]

/-- What is latched with a cache operation stays while it waits and works. -/
theorem latched_next (h : WellFormed c r) (hs' : (comb c r i).1.state = .cacheRequestLlWait ∨
    (comb c r i).1.state.working = true) :
    (comb c r i).1.adrOfs < c.banks ∧ (comb c r i).1.op.isCache = true ∧
      ((comb c r i).1.state = .cacheRequestLlWait → (comb c r i).1.linelock = true) := by
  have ha := h.adrOfs
  have ho := h.isCache
  have hw := h.llWait
  have hmod : ∀ n, n % c.banks < c.banks := fun n => Nat.mod_lt n c.banks_pos
  revert hs'
  cases hs : r.state <;> simp only [hs, State.working] at ha ho hw
  case idle =>
    simp only [comb, hs, combIdle, latched]
    cases hop : i.busifOp <;> simp [State.working, BusIfOp.isCache, bankOf_lt]
  all_goals
    simp only [comb, hs, tagWritten]
    repeat' split
    all_goals simp_all [State.working]

/-- The counter is at its start wherever it is not used. -/
theorem cnt_next (h : WellFormed c r) :
    ((comb c r i).1.state = .cacheReplaceReadIdata ∨ (comb c r i).1.state = .cacheWriteBackVictim →
        (comb c r i).1.cnt < c.banks) ∧
      ((comb c r i).1.state.writesTag = true → (comb c r i).1.cnt ≤ 1) ∧
      ((comb c r i).1.state = .cacheRequestLlWait ∨ (comb c r i).1.state = .cacheRequestRtWait ∨
          (comb c r i).1.state = .cacheReadTag ∨ (comb c r i).1.state = .cacheReadDirtyBanks ∨
          (comb c r i).1.state = .cacheReplaceWriteBanks → (comb c r i).1.cnt = 0) := by
  have h1 := c.one_lt_banks
  have hc := h.cnt
  have ht := h.cnt_tag
  have hz := h.cnt_zero
  have hmod : ∀ n, n % c.banks < c.banks := fun n => Nat.mod_lt n c.banks_pos
  have hodd : r.cnt ≤ 1 → r.cnt % 2 = 0 → (r.cnt + 1) % c.banks ≤ 1 := by
    intro hle heven
    rw [show r.cnt = 0 by omega, Nat.mod_eq_of_lt h1]
  cases hs : r.state <;> simp only [hs, State.writesTag] at hc ht hz
  case idle =>
    simp only [comb, hs, combIdle, latched]
    cases hop : i.busifOp <;> simp [State.writesTag, c.banks_pos]
  all_goals
    simp only [comb, hs, tagWritten]
    repeat' split
    all_goals simp_all [State.writesTag, c.banks_pos]

theorem wellFormed_next (h : WellFormed c r) : WellFormed c (comb c r i).1 where
  linelock := linelock_next h
  llWait hs := (latched_next h (.inl hs)).2.2 hs
  adrOfs hs := (latched_next h hs).1
  isCache hs := (latched_next h hs).2.1
  cnt := (cnt_next h).1
  cnt_tag := (cnt_next h).2.1
  cnt_zero := (cnt_next h).2.2

/-- A BusIf at work has been at work for the same line, or has just got its line lock, or starts
for a write port. -/
theorem working_next (hw : WellFormed c r) (h : (comb c r i).1.state.working = true) :
    lineOf c (comb c r i).1.adr = lineOf c (if r.state = .idle then i.adrIn else r.adr) ∧
      (r.state.working = true ∧ (comb c r i).1.linelock = r.linelock ∨
        r.state = .cacheRequestLlWait ∧ i.gntLinelock = true ∧
          (comb c r i).1.linelock = true ∨
        r.state = .idle ∧ i.busifOp.isCache = true ∧ i.busifNolinelock = true ∧
          (comb c r i).1.linelock = false) := by
  have hl := hw.llWait
  have ha := hw.adrOfs
  revert h
  cases hs : r.state <;> simp only [hs, comb, combIdle, latched, tagWritten] at hl ha ⊢
  all_goals
    repeat' split
    all_goals
      simp_all [State.working, lineOf_clearOfs, lineOf_setBank, BusIfOp.isCache]

/-- The tag arrives in the cycle after the grant. -/
theorem modifying_next (h : (comb c r i).1.state.modifying = true) :
    r.state.modifying = true ∨ r.state = .cacheRequestRtWait ∧ i.gntTagr = true := by
  revert h
  cases hs : r.state <;> simp only [hs, comb, combIdle, latched, tagWritten]
  all_goals
    repeat' split
    all_goals simp_all [State.modifying]

/-- While the BusIf wants the line lock, its line stays. -/
theorem lineOf_adr_next (hw : WellFormed c r) (h : r.linelock = true) :
    lineOf c (comb c r i).1.adr = lineOf c r.adr := by
  have ha := hw.adrOfs
  rcases hw.linelock h with hs | hs | hs
  · simp only [comb, hs]
    split <;> rfl
  · revert hs
    cases hs : r.state <;> simp only [hs, comb, tagWritten, State.working] at ha ⊢
    all_goals
      repeat' split
      all_goals simp_all [lineOf_setBank]
  · simp only [comb, hs]

end BusIf

end ParaNut.Memu
