import ParaNut.Ifu.Prefetch
import Mathlib.Tactic.IntervalCases

/-!
# The instruction fetch unit (`mifu.vhd`)

`comb` as in the source: shift, generate an address, handle a jump, store the
arriving word, issue the next request. Counters are `unsigned(LD downto 0)`,
so arithmetic on them is modulo twice the buffer size.
-/

namespace ParaNut.Ifu

section Comb

variable (ld : ℕ) (r : Registers) (i : IfuIn) (ack : Bool) (data : TWord)

/-- `IFU_BUF_SIZE`, `ld` being `IFU_BUF_SIZE_LD`. -/
def bufSize : ℕ := 2 ^ ld

/-- Bit `IFU_BUF_SIZE_LD` of a counter. -/
def full (x : ℕ) : Bool := bufSize ld ≤ x

/-- `is_jump`: J, JAL, BNF, BF, OTHER, RFE, JR, JALR. -/
def isJump (insn : TWord) : Bool :=
  [0b000000, 0b000001, 0b000011, 0b000100, 0b001000, 0b001001, 0b010001, 0b010010].contains
    (insn.extractLsb' 26 6).toNat

def shifted : Registers :=
  if i.nexti then
    { r with
      insnBuf := fun n => if n + 1 < bufSize ld then r.insnBuf (n + 1) else r.insnBuf n
      adrBuf := fun n => if n + 1 < bufSize ld then r.adrBuf (n + 1) else r.adrBuf n
      insnTop := if 0 < r.insnTop then r.insnTop - 1 else r.insnTop
      adrTop := if 0 < r.adrTop then r.adrTop - 1 else r.adrTop }
  else r

def addressed : Registers :=
  let v := shifted ld r i
  if full ld v.adrTop then v
  else
    { v with
      adrBuf := fun n =>
        if n = v.adrTop % bufSize ld then
          r.adrBuf (v.adrTop % bufSize ld - (!i.nexti).toNat) + 4
        else v.adrBuf n
      adrTop := (v.adrTop + 1) % (2 * bufSize ld) }

def jumped : Registers :=
  let v := addressed ld r i
  if i.jump then
    { v with
      insnTop := if 2 < v.insnTop then 2 else v.insnTop
      adrBuf := fun n => if n = 2 then i.jumpAdr else v.adrBuf n
      adrTop := 3 }
  else v

def stored : Registers :=
  let v := { jumped ld r i with lastRpAck := ack }
  if r.lastRpAck then
    { v with
      insnBuf := fun n => if n = v.insnTop % bufSize ld then data else v.insnBuf n
      insnTop := (v.insnTop + 1) % (2 * bufSize ld) }
  else v

def nextInsnTop : ℕ := ((stored ld r i ack data).insnTop + ack.toNat) % (2 * bufSize ld)

def nextInsnTopOfs : ℕ := (nextInsnTop ld r i ack data + i.nexti.toNat) % (2 * bufSize ld)

def nextInsnTopOfsJmp : ℕ :=
  (nextInsnTopOfs ld r i ack data + 2 * bufSize ld - 2) % (2 * bufSize ld)

/-- Is the next memory read request appropriate? -/
def issue : Bool :=
  let top := nextInsnTop ld r i ack data
  let jmp := nextInsnTopOfsJmp ld r i ack data
  decide (top < (stored ld r i ack data).adrTop) && !full ld (nextInsnTopOfs ld r i ack data) &&
    !(decide (2 ≤ top) &&
      (isJump (r.insnBuf (jmp % bufSize ld)) || (r.lastRpAck && jmp == r.insnTop)))

def next : Registers :=
  let v := stored ld r i ack data
  if issue ld r i ack data then
    { v with
      rpRd := true
      rpAdr := r.adrBuf (nextInsnTopOfs ld r i ack data % bufSize ld) }
  else { v with rpRd := false }

/-- The reset branch at the end of the process. -/
def Registers.reset (v : Registers) : Registers where
  insnBuf := v.insnBuf
  adrBuf n := if n = 0 then 0x100 - 4 else v.adrBuf n
  insnTop := 1
  adrTop := 1
  lastRpAck := false
  rpRd := false
  rpAdr := v.rpAdr

end Comb

variable {ld : ℕ} {mem : WordAdr → TWord} {r : Registers} {i : IfuIn} {ack : Bool} {data : TWord}
  {s : Stream}

theorem four_le_bufSize (h : 2 ≤ ld) : 4 ≤ bufSize ld :=
  Nat.pow_le_pow_right (by decide : 0 < 2) h

/-- During reset the EXU does not assert `next` or `jump`. -/
theorem isReset_of_two_clocks (h : 2 ≤ ld) (hn : i.nexti = false) (hj : i.jump = false)
    (r : Registers) (ack' : Bool) (data' : TWord) :
    IsReset (next ld r.reset i ack' data').reset := by
  have h4 := four_le_bufSize h
  have hmod : 1 % bufSize ld = 1 := Nat.mod_eq_of_lt (by omega)
  have hfull : full ld 1 = false := by simp [full]; omega
  refine ⟨rfl, rfl, rfl, rfl, rfl, ?_⟩
  have hadr : (next ld r.reset i ack' data').adrBuf 1 = 0x100 := by
    have hadd : (addressed ld r.reset i).adrBuf 1 = 0x100 := by
      simp [addressed, shifted, hn, Registers.reset, hfull, hmod]
    have hst : (stored ld r.reset i ack' data').adrBuf = (addressed ld r.reset i).adrBuf := by
      simp [stored, jumped, hj, Registers.reset]
    unfold next
    split_ifs <;> rw [hst] <;> exact hadd
  exact hadr

-- ---------------------------------------------------------------------------
-- The variables of the process, for a queue in range
-- ---------------------------------------------------------------------------

theorem shifted_insnTop (ld : ℕ) (r : Registers) (i : IfuIn) :
    (shifted ld r i).insnTop = r.insnTop - i.nexti.toNat := by
  unfold shifted
  cases i.nexti with
  | false => rfl
  | true => simp only [if_true, Bool.toNat_true]; split_ifs <;> omega

theorem shifted_adrTop (ld : ℕ) (r : Registers) (i : IfuIn) :
    (shifted ld r i).adrTop = r.adrTop - i.nexti.toNat := by
  unfold shifted
  cases i.nexti with
  | false => rfl
  | true => simp only [if_true, Bool.toNat_true]; split_ifs <;> omega

theorem shifted_insnBuf {k : ℕ} (hk : k + i.nexti.toNat < bufSize ld) :
    (shifted ld r i).insnBuf k = r.insnBuf (k + i.nexti.toNat) := by
  unfold shifted
  cases hn : i.nexti with
  | false => rfl
  | true => rw [hn] at hk; exact if_pos hk

theorem shifted_adrBuf {k : ℕ} (hk : k + i.nexti.toNat < bufSize ld) :
    (shifted ld r i).adrBuf k = r.adrBuf (k + i.nexti.toNat) := by
  unfold shifted
  cases hn : i.nexti with
  | false => rfl
  | true => rw [hn] at hk; exact if_pos hk

theorem addressed_insnTop (ld : ℕ) (r : Registers) (i : IfuIn) :
    (addressed ld r i).insnTop = r.insnTop - i.nexti.toNat := by
  rw [← shifted_insnTop ld r i]
  simp only [addressed]
  split_ifs <;> rfl

theorem addressed_insnBuf : (addressed ld r i).insnBuf = (shifted ld r i).insnBuf := by
  simp only [addressed]
  split_ifs <;> rfl

theorem addressed_adrTop (i : IfuIn) (hN : r.adrTop ≤ bufSize ld) (h4 : 4 ≤ bufSize ld) :
    (addressed ld r i).adrTop = min (r.adrTop - i.nexti.toNat + 1) (bufSize ld) := by
  have htop := shifted_adrTop ld r i
  simp only [addressed]
  split_ifs with hf <;> simp only [full, decide_eq_true_eq] at hf
  · omega
  · simp only
    rw [Nat.mod_eq_of_lt (by omega), htop]
    omega

theorem addressed_adrBuf {k : ℕ} (hN : r.adrTop ≤ bufSize ld) (hpos : i.nexti.toNat < r.adrTop)
    (hk : k < (addressed ld r i).adrTop) : (addressed ld r i).adrBuf k =
      if k + i.nexti.toNat < r.adrTop then r.adrBuf (k + i.nexti.toNat)
      else r.adrBuf (r.adrTop - 1) + 4 := by
  have htop := shifted_adrTop ld r i
  have hn1 : i.nexti.toNat + (!i.nexti).toNat = 1 := by cases i.nexti <;> rfl
  simp only [addressed] at hk ⊢
  split_ifs at hk ⊢ with hf hold hold <;> simp only [full, decide_eq_true_eq] at hf
  · exact shifted_adrBuf (by omega)
  · omega
  · simp only [Nat.mod_eq_of_lt (show (shifted ld r i).adrTop < bufSize ld by omega)] at hk ⊢
    rw [if_neg (by omega), shifted_adrBuf (by omega)]
  · simp only [Nat.mod_eq_of_lt (show (shifted ld r i).adrTop < bufSize ld by omega)] at hk ⊢
    rw [Nat.mod_eq_of_lt (by omega)] at hk
    rw [if_pos (by omega)]
    congr 2
    omega

theorem jumped_insnTop (ld : ℕ) (r : Registers) (i : IfuIn) :
    (jumped ld r i).insnTop = arrival r i := by
  have htop := addressed_insnTop ld r i
  unfold jumped arrival
  cases hj : i.jump with
  | false => simpa using htop
  | true => simp only [if_true, htop]; split_ifs <;> omega

theorem jumped_insnBuf : (jumped ld r i).insnBuf = (shifted ld r i).insnBuf := by
  rw [← addressed_insnBuf]
  simp only [jumped]
  split_ifs <;> rfl

theorem stored_insnTop (h : arrival r i + r.lastRpAck.toNat < 2 * bufSize ld) :
    (stored ld r i ack data).insnTop = arrival r i + r.lastRpAck.toNat := by
  rw [← jumped_insnTop ld r i] at h ⊢
  unfold stored
  cases hl : r.lastRpAck with
  | false => rfl
  | true =>
    rw [hl, Bool.toNat_true] at h
    exact Nat.mod_eq_of_lt h

theorem stored_adrTop : (stored ld r i ack data).adrTop = (jumped ld r i).adrTop := by
  simp only [stored]
  split_ifs <;> rfl

theorem stored_adrBuf : (stored ld r i ack data).adrBuf = (jumped ld r i).adrBuf := by
  simp only [stored]
  split_ifs <;> rfl

theorem stored_insnBuf {k : ℕ} (h : r.lastRpAck = true → arrival r i < bufSize ld)
    (hk : k + i.nexti.toNat < bufSize ld) : (stored ld r i ack data).insnBuf k =
      if r.lastRpAck = true ∧ k = arrival r i then data else r.insnBuf (k + i.nexti.toNat) := by
  have htop := jumped_insnTop ld r i
  have hbuf : (jumped ld r i).insnBuf k = r.insnBuf (k + i.nexti.toNat) := by
    rw [jumped_insnBuf, shifted_insnBuf hk]
  unfold stored
  cases hl : r.lastRpAck with
  | false => simpa using hbuf
  | true => simp only [if_true, htop, Nat.mod_eq_of_lt (h hl), hbuf, true_and]

section InRange

variable {J : TWord → Bool} (h2 : 2 ≤ ld) (h : Queue (bufSize ld) r s)
  (hnext : i.nexti.toNat ≤ r.insnTop)
include h2 h hnext

/-- Counters in range do not wrap. -/
theorem stored_range (ack : Bool) :
    (stored ld r i ack data).insnTop = arrival r i + r.lastRpAck.toNat ∧
      arrival r i + r.lastRpAck.toNat + i.nexti.toNat ≤ bufSize ld := by
  have harr := arrival_le r i
  have hle := h.insn_le_adr
  have hN := h.adr_le
  have h4 := four_le_bufSize h2
  exact ⟨stored_insnTop (by omega), by omega⟩

/-- The stored words make a cycle of a prefetch queue, if the request is right. -/
theorem steps_of_stored {r' : Registers}
    (hr' : ∃ rd adr, r' = { stored ld r i ack data with rpRd := rd, rpAdr := adr })
    (hreq : r'.rpRd = true → r'.insnTop + ack.toNat < r'.adrTop ∧
      r'.insnTop + ack.toNat + i.nexti.toNat < bufSize ld ∧
      r'.rpAdr = r.adrBuf (r'.insnTop + ack.toNat + i.nexti.toNat) ∧
      (2 ≤ r'.insnTop + ack.toNat →
        J (r.insnBuf (r'.insnTop + ack.toNat + i.nexti.toNat - 2)) = false)) :
    Steps J (bufSize ld) r i ack data r' := by
  have h4 := four_le_bufSize h2
  have hn1 : i.nexti.toNat ≤ 1 := Bool.toNat_le _
  have hle := h.insn_le_adr
  have htwo := h.two_le
  have hadd := addressed_adrTop i h.adr_le h4
  obtain ⟨htop, hfit⟩ := stored_range h2 h hnext ack
  obtain ⟨rd, adr, hr'⟩ := hr'
  have htop' : r'.insnTop = (stored ld r i ack data).insnTop := by rw [hr']
  have hadrTop : r'.adrTop = (jumped ld r i).adrTop := by rw [hr', ← stored_adrTop]
  have hadrBuf : r'.adrBuf = (jumped ld r i).adrBuf := by rw [hr', ← stored_adrBuf]
  refine ⟨htop'.trans htop, ?adrTop, ?lastRpAck, ?insn, ?adr, hreq⟩
  case adrTop =>
    rw [hadrTop]
    cases hj : i.jump <;> simp [jumped, hj, hadd]
  case lastRpAck =>
    rw [hr']
    simp only [stored]
    split_ifs <;> rfl
  case insn =>
    intro k hk
    have harrN : r.lastRpAck = true → arrival r i < bufSize ld := by
      intro hl
      rw [hl, Bool.toNat_true] at hfit
      omega
    rw [show r'.insnBuf = (stored ld r i ack data).insnBuf by rw [hr']]
    exact stored_insnBuf harrN (by omega)
  case adr =>
    intro k hk
    rw [hadrBuf]
    rw [hadrTop] at hk
    cases hj : i.jump with
    | false =>
      simp only [jumped, hj] at hk ⊢
      rw [if_neg (by simp)]
      exact addressed_adrBuf h.adr_le (by omega) hk
    | true =>
      simp only [jumped, hj, if_true, true_and] at hk ⊢
      split_ifs with hk2 hold
      · rfl
      · rw [addressed_adrBuf h.adr_le (by omega) (by omega), if_pos hold]
      · rw [addressed_adrBuf h.adr_le (by omega) (by omega), if_neg hold]

theorem next_range : (next ld r i ack data).insnTop = arrival r i + r.lastRpAck.toNat ∧
    nextInsnTop ld r i ack data = arrival r i + r.lastRpAck.toNat + ack.toNat ∧
    nextInsnTopOfs ld r i ack data =
      arrival r i + r.lastRpAck.toNat + ack.toNat + i.nexti.toNat ∧
    arrival r i + r.lastRpAck.toNat + i.nexti.toNat ≤ bufSize ld := by
  have h4 := four_le_bufSize h2
  have ha1 : ack.toNat ≤ 1 := Bool.toNat_le _
  obtain ⟨htop, hfit⟩ := stored_range h2 h hnext ack
  have hnit : nextInsnTop ld r i ack data = arrival r i + r.lastRpAck.toNat + ack.toNat := by
    rw [nextInsnTop, htop, Nat.mod_eq_of_lt (by omega)]
  refine ⟨?_, hnit, ?_, hfit⟩
  · rw [← htop]
    simp only [next]
    split_ifs <;> rfl
  · rw [nextInsnTopOfs, hnit, Nat.mod_eq_of_lt (by omega)]

/-- What is known when a request is issued. -/
theorem issue_spec (hrd : (next ld r i ack data).rpRd = true) :
    (next ld r i ack data).insnTop + ack.toNat < (next ld r i ack data).adrTop ∧
      (next ld r i ack data).insnTop + ack.toNat + i.nexti.toNat < bufSize ld ∧
      (next ld r i ack data).rpAdr =
        r.adrBuf ((next ld r i ack data).insnTop + ack.toNat + i.nexti.toNat) ∧
      (2 ≤ (next ld r i ack data).insnTop + ack.toNat →
        isJump (r.insnBuf ((next ld r i ack data).insnTop + ack.toNat + i.nexti.toNat - 2)) =
            false ∧
          (r.lastRpAck = true →
            (next ld r i ack data).insnTop + ack.toNat + i.nexti.toNat - 2 ≠ r.insnTop)) := by
  obtain ⟨htop, hnit, hofs, -⟩ := next_range h2 h hnext
  have hissue : issue ld r i ack data = true := by
    by_contra hi
    simp [next, hi] at hrd
  have hadr : (next ld r i ack data).adrTop = (stored ld r i ack data).adrTop := by
    simp [next, hissue]
  rw [hadr, htop, ← hnit]
  rw [← hnit] at hofs
  have hrp : (next ld r i ack data).rpAdr =
      r.adrBuf (nextInsnTopOfs ld r i ack data % bufSize ld) := by
    simp [next, hissue]
  simp only [issue, full, Bool.and_eq_true, decide_eq_true_eq, Bool.not_eq_true',
    decide_eq_false_iff_not, Bool.and_eq_false_iff, Bool.or_eq_false_iff, beq_eq_false_iff_ne]
    at hissue
  obtain ⟨⟨hlt, hroom⟩, hjmp⟩ := hissue
  rw [hofs] at hroom
  refine ⟨hlt, by omega, ?_, fun hp => ?_⟩
  · rw [hrp, hofs, Nat.mod_eq_of_lt (by omega)]
  · have hj : nextInsnTopOfsJmp ld r i ack data =
        nextInsnTop ld r i ack data + i.nexti.toNat - 2 := by
      rw [nextInsnTopOfsJmp, hofs, show nextInsnTop ld r i ack data + i.nexti.toNat +
        2 * bufSize ld - 2 = nextInsnTop ld r i ack data + i.nexti.toNat - 2 + 2 * bufSize ld by
          omega, Nat.add_mod_right, Nat.mod_eq_of_lt (by omega)]
    rw [hj, Nat.mod_eq_of_lt (by omega)] at hjmp
    rcases hjmp with hjmp | ⟨hjmp, hlast⟩
    · exact absurd hp hjmp
    · refine ⟨hjmp, fun hl => ?_⟩
      rcases hlast with hlast | hlast
      · simp [hl] at hlast
      · exact hlast

end InRange

/-- A cycle of `mifu` is a cycle of a prefetch queue. -/
theorem next_steps (h2 : 2 ≤ ld) (h : Queue (bufSize ld) r s)
    (hnext : i.nexti.toNat ≤ r.insnTop) :
    Steps isJump (bufSize ld) r i ack data (next ld r i ack data) := by
  refine steps_of_stored h2 h hnext ?_ fun hrd => ?_
  · simp only [next]
    split_ifs
    · exact ⟨_, _, rfl⟩
    · exact ⟨_, _, rfl⟩
  · obtain ⟨hlt, hroom, hadr, hjmp⟩ := issue_spec h2 h hnext hrd
    exact ⟨hlt, hroom, hadr, fun hp => (hjmp hp).1⟩

-- ---------------------------------------------------------------------------
-- Nothing is fetched from behind a delay slot
-- ---------------------------------------------------------------------------

/-- Behind a known jump only the delay slot is asked for. -/
def HaltsBehindJumps (r : Registers) : Prop :=
  ∀ k < r.insnTop, isJump (r.insnBuf k) = true →
    r.insnTop + r.lastRpAck.toNat + r.rpRd.toNat ≤ k + 2

/-- At a jump the jump instruction is at place 0, so no word is on its way to place 2. -/
theorem HaltsBehindJumps.jumpsInTime (hh : HaltsBehindJumps r)
    (h : Tracks (bufSize ld) mem r data s) (hd : Disciplined isJump s (ifuo r) i)
    (hapart : i.jump = true → i.nexti = false) (hrd : ack = true → r.rpRd = true) :
    JumpsInTime r i ack := by
  intro hj
  have hn := hapart hj
  have hjump := hd.jump hj
  rw [hn, if_neg Bool.false_ne_true] at hjump
  obtain ⟨w, hw, hjw⟩ := hjump
  have h0 := hh 0 h.pos (by rw [h.last w hw]; exact hjw)
  rw [hn, Bool.toNat_false]
  refine ⟨fun hl => ?_, fun ha => ?_⟩
  · rw [hl, Bool.toNat_true] at h0
    omega
  · rw [hrd ha, Bool.toNat_true] at h0
    omega

theorem haltsBehindJumps_next (h2 : 2 ≤ ld) (hh : HaltsBehindJumps r)
    (h : Queue (bufSize ld) r s) (hnext : i.nexti.toNat ≤ r.insnTop)
    (hj : JumpsInTime r i ack) (hrd : ack = true → r.rpRd = true) :
    HaltsBehindJumps (next ld r i ack data) := by
  have hst : Steps isJump (bufSize ld) r i ack data (next ld r i ack data) := next_steps h2 h hnext
  have harrle := arrival_le r i
  have htop := hst.insnTop
  have hackrd : ack.toNat ≤ r.rpRd.toNat := by
    cases ha : ack with
    | false => exact Nat.zero_le _
    | true => rw [hrd ha]
  have hrd1 : (next ld r i ack data).rpRd.toNat ≤ 1 := Bool.toNat_le _
  intro k hk hjk
  rw [hst.lastRpAck]
  rw [hst.insn k hk] at hjk
  split_ifs at hjk with harr
  · -- the jump arrives now: its delay slot may be on its way, then nothing more is asked for
    obtain ⟨hl, rfl⟩ := harr
    rw [hl, Bool.toNat_true] at htop
    by_contra hmore
    have hack1 : ack.toNat ≤ 1 := Bool.toNat_le _
    have hone : ack.toNat = 1 := by omega
    have hack : ack = true := Bool.toNat_eq_one.mp hone
    have hrd' : (next ld r i ack data).rpRd = true := Bool.toNat_eq_one.mp (by omega)
    obtain ⟨-, -, -, hno⟩ := issue_spec h2 h hnext hrd'
    have hplace := (hno (by omega)).2 hl
    cases hjmp : i.jump with
    | false =>
      rw [arrival_of_not_jump hjmp] at htop
      omega
    | true =>
      have := (hj hjmp).2 hack
      rw [hl, Bool.toNat_true] at this
      omega
  · have hlt : k < arrival r i := by
      cases hl : r.lastRpAck with
      | false => rw [hl, Bool.toNat_false] at htop; omega
      | true =>
        rw [hl, Bool.toNat_true] at htop
        have : k ≠ arrival r i := fun hk => harr ⟨hl, hk⟩
        omega
    have hold := hh (k + i.nexti.toNat) (by omega) hjk
    cases hrd' : (next ld r i ack data).rpRd with
    | false => rw [Bool.toNat_false]; omega
    | true =>
      rw [Bool.toNat_true]
      obtain ⟨-, -, -, hno⟩ := issue_spec h2 h hnext hrd'
      by_contra hmore
      have hplace : (next ld r i ack data).insnTop + ack.toNat = k + 2 := by omega
      have := (hno (by omega)).1
      rw [hplace, show k + 2 + i.nexti.toNat - 2 = k + i.nexti.toNat by omega, hjk] at this
      simp at this

/-- A request that waits stays, for the same address. -/
theorem request_held (h2 : 2 ≤ ld) (hq : Queue (bufSize ld) r s) (hh : HaltsBehindJumps r)
    (hnext : i.nexti.toNat ≤ r.insnTop) (hroom : r.insnTop + r.lastRpAck.toNat < bufSize ld)
    (hlt : r.insnTop + r.lastRpAck.toNat < r.adrTop)
    (hadr : r.rpAdr = r.adrBuf (r.insnTop + r.lastRpAck.toNat)) (hrd : r.rpRd = true)
    (hj : i.jump = true → i.nexti = false ∧ r.insnTop + r.lastRpAck.toNat ≤ 1) :
    (next ld r i false data).rpRd = true ∧ (next ld r i false data).rpAdr = r.rpAdr := by
  have hN := four_le_bufSize h2
  have htop : nextInsnTop ld r i false data = arrival r i + r.lastRpAck.toNat :=
    (next_range h2 hq hnext).2.1
  have hofs : nextInsnTopOfs ld r i false data =
      arrival r i + r.lastRpAck.toNat + i.nexti.toNat := (next_range h2 hq hnext).2.2.1
  have hsame : (next ld r i false data).adrTop = (stored ld r i false data).adrTop := by
    simp only [next]
    split <;> rfl
  have hst : Steps isJump (bufSize ld) r i false data (next ld r i false data) :=
    next_steps h2 hq hnext
  have hadrTop := hst.adrTop
  rw [hsame] at hadrTop
  -- the place asked for, counted before and after the words move
  have hwhere : arrival r i + r.lastRpAck.toNat + i.nexti.toNat =
      r.insnTop + r.lastRpAck.toNat ∧
      arrival r i + r.lastRpAck.toNat < (stored ld r i false data).adrTop := by
    rw [hadrTop]
    cases hjmp : i.jump with
    | false =>
      rw [arrival_of_not_jump hjmp, if_neg Bool.false_ne_true]
      omega
    | true =>
      obtain ⟨hn, hone⟩ := hj hjmp
      rw [arrival_of_jump hjmp, hn, if_pos rfl, Bool.toNat_false]
      omega
  have hlast : r.lastRpAck.toNat ≤ 1 := Bool.toNat_le _
  have hissue : issue ld r i false data = true := by
    rw [issue, htop, nextInsnTopOfsJmp, hofs, hwhere.1, full,
      decide_eq_true hwhere.2, decide_eq_false (by omega)]
    by_cases htwo : 2 ≤ arrival r i + r.lastRpAck.toNat
    · -- what is known of the word two places before
      have hjmp : (r.insnTop + r.lastRpAck.toNat + 2 * bufSize ld - 2) % (2 * bufSize ld) =
          r.insnTop + r.lastRpAck.toNat - 2 := by
        rw [show r.insnTop + r.lastRpAck.toNat + 2 * bufSize ld - 2 =
          r.insnTop + r.lastRpAck.toNat - 2 + 2 * bufSize ld by omega, Nat.add_mod_right,
          Nat.mod_eq_of_lt (by omega)]
      have hplain : isJump (r.insnBuf (r.insnTop + r.lastRpAck.toNat - 2)) = false := by
        by_contra hjump
        have := hh (r.insnTop + r.lastRpAck.toNat - 2) (by omega) (by simpa using hjump)
        rw [hrd, Bool.toNat_true] at this
        omega
      rw [hjmp, Nat.mod_eq_of_lt (by omega), hplain, decide_eq_true htwo]
      cases hl : r.lastRpAck with
      | false => rfl
      | true =>
        rw [hl, Bool.toNat_true] at htwo hwhere
        have hne : (r.insnTop + true.toNat - 2 == r.insnTop) = false :=
          beq_eq_false_iff_ne.mpr (by rw [Bool.toNat_true]; omega)
        rw [hne]
        rfl
    · rw [decide_eq_false htwo]
      rfl
  have hnext : next ld r i false data =
      { stored ld r i false data with
        rpRd := true
        rpAdr := r.adrBuf (nextInsnTopOfs ld r i false data % bufSize ld) } := if_pos hissue
  rw [hnext]
  refine ⟨rfl, ?_⟩
  rw [hadr]
  simp only [hofs, hwhere.1, Nat.mod_eq_of_lt hroom]

-- ---------------------------------------------------------------------------
-- Runs
-- ---------------------------------------------------------------------------

/-- The registers one cycle after reset: the first request is out. -/
theorem firstFetch (h2 : 2 ≤ ld) (hr : IsReset r) (hn : i.nexti = false) (hj : i.jump = false)
    (data : TWord) :
    FirstFetch (next ld r i false data) ∧ HaltsBehindJumps (next ld r i false data) := by
  have h4 := four_le_bufSize h2
  have hmod : ∀ n < 4, n % bufSize ld = n := fun n hn => Nat.mod_eq_of_lt (by omega)
  have hmod2 : ∀ n < 4, n % (2 * bufSize ld) = n := fun n hn => Nat.mod_eq_of_lt (by omega)
  have hfull : full ld 1 = false := by simp [full]; omega
  have hshift : shifted ld r i = r := by simp [shifted, hn]
  have hadr : addressed ld r i = { r with
      adrBuf := fun n => if n = 1 then 0x100 else r.adrBuf n
      adrTop := 2 } := by
    simp [addressed, hshift, hr.adrTop, hfull, hn, hmod, hmod2, hr.adr_zero]
  have hst : stored ld r i false data = { addressed ld r i with lastRpAck := false } := by
    simp [stored, jumped, hj, hr.lastRpAck]
  have hnit : nextInsnTop ld r i false data = 1 := by
    simp [nextInsnTop, hst, hadr, hr.insnTop, hmod2]
  have hofs : nextInsnTopOfs ld r i false data = 1 := by
    simp [nextInsnTopOfs, hnit, hn, hmod2]
  have hissue : issue ld r i false data = true := by
    simp [issue, hnit, hofs, hst, hadr, hfull]
  have hnext : next ld r i false data =
      { stored ld r i false data with rpRd := true, rpAdr := 0x100 } := by
    simp [next, hissue, hofs, hmod, hr.adr_one]
  rw [hnext, hst, hadr]
  refine ⟨⟨hr.insnTop, rfl, rfl, rfl, rfl⟩, ?_⟩
  intro k _ _
  simp [hr.insnTop]

variable {i : ℕ → Cycle}

theorem haltsBehindJumps_run (h2 : 2 ≤ ld) (henv : Env (next ld) isJump mem r i)
    (hapart : ∀ t, (i t).ifui.jump = true → (i t).ifui.nexti = false)
    (hfirst : HaltsBehindJumps (states (next ld) r i 1)) (t : ℕ) (ht : 1 ≤ t)
    (h : ∀ u, 1 ≤ u → u ≤ t → TracksAt (next ld) mem r i (bufSize ld) u) :
    HaltsBehindJumps (states (next ld) r i t) := by
  induction t with
  | zero => omega
  | succ t ih =>
    rcases Nat.eq_zero_or_pos t with rfl | hpos
    · exact hfirst
    · have hh := ih hpos fun u hu hut => h u hu (by omega)
      have htr := h t hpos (by omega)
      have hj := hh.jumpsInTime htr (henv.exu t) (hapart t) (henv.rpAck t)
      exact haltsBehindJumps_next h2 hh htr.toQueue (htr.next_le (henv.exu t)) hj (henv.rpAck t)

/-- Unless the first two requests are both acknowledged at once, the instruction stream is right
in every cycle. -/
theorem mifu_stream (h2 : 2 ≤ ld) (hr : IsReset r) (henv : Env (next ld) isJump mem r i)
    (hapart : ∀ t, (i t).ifui.jump = true → (i t).ifui.nexti = false)
    (hlate : ¬((i 1).rpAck = true ∧ (i 2).rpAck = true)) :
    StreamCorrect (next ld) mem r i (bufSize ld) := by
  have hidle := idle_of_reset (henv.exu 0) hr.insnTop
  have hack : (i 0).rpAck = false := by
    by_contra ha
    have := henv.rpAck 0 (by simpa using ha)
    simp [states, hr.rpRd] at this
  have hone : states (next ld) r i 1 = next ld r (i 0).ifui false (i 0).portData := by
    rw [← hack]
    rfl
  obtain ⟨hfirst, hhalts⟩ := firstFetch h2 hr hidle.1 hidle.2 (i 0).portData
  rw [← hone] at hfirst hhalts
  have hwait : ∀ t, (∀ u, 1 ≤ u → u ≤ t → TracksAt (next ld) mem r i (bufSize ld) u) →
      JumpsInTime (states (next ld) r i t) (i t).ifui (i t).rpAck := by
    intro t hpast
    rcases Nat.eq_zero_or_pos t with rfl | hpos
    · intro hj
      simp [hidle.2] at hj
    · exact (haltsBehindJumps_run h2 henv hapart hhalts t hpos hpast).jumpsInTime
        (hpast t hpos le_rfl) (henv.exu t) (hapart t) (henv.rpAck t)
  have htracks := tracks_run (four_le_bufSize h2) henv hidle hfirst
    (fun t htr => next_steps h2 htr.toQueue (htr.next_le (henv.exu t))) hwait hlate
  exact streamCorrect_of_tracks (four_le_bufSize h2) ⟨hr.insnTop, hr.adrTop⟩ htracks

/-- Distinct words that are no jumps. -/
def nopMem : WordAdr → TWord := fun a => 0b010101#6 ++ a.setWidth 26

/-- Reset leaves the third address as it was, here 0. -/
def staleReset : Registers :=
  ⟨fun _ => nopMem 0, fun n => if n = 0 then 0xfc else if n = 1 then 0x100 else 0, 1, 1, false,
    false, 0⟩

/-- A port that acknowledges in cycle 2, and with `first` also in cycle 1. -/
def promptPort (first : Bool) : ℕ → Cycle
  | 1 => ⟨⟨false, false, 0⟩, first, 0⟩
  | 2 => ⟨⟨false, false, 0⟩, true, nopMem 0x40⟩
  | 3 => ⟨⟨first, false, 0⟩, false, nopMem (if first then 0 else 0x40)⟩
  | _ => ⟨⟨false, false, 0⟩, false, 0⟩

theorem promptPort_no_jump (first : Bool) (t : ℕ) : (promptPort first t).ifui.jump = false := by
  rcases t with _ | _ | _ | _ | t <;> rfl

theorem promptPort_env (first : Bool) :
    Env (next 2) isJump nopMem staleReset (promptPort first) where
  rpAck := by
    rintro (_ | _ | _ | _ | t) h
    all_goals first | cases h; done | cases first <;> rfl
  portData := by
    rintro (_ | _ | _ | _ | t) h
    all_goals first | cases h; done | cases first <;> rfl
  exu t := by
    refine ⟨?_, fun hj => by simp [promptPort_no_jump] at hj⟩
    rcases t with _ | _ | _ | _ | t
    all_goals first | (intro h; cases h; done) | cases first <;> decide

theorem mifu_stream_late : StreamCorrect (next 2) nopMem staleReset (promptPort false) 4 :=
  mifu_stream (by decide) ⟨rfl, rfl, rfl, rfl, rfl, rfl⟩ (promptPort_env false)
    (fun t hj => by simp [promptPort_no_jump] at hj) (by decide)

/-- With both acknowledged at once, the word at the stale address is offered as the second. -/
theorem mifu_stream_stale : IsReset staleReset ∧
    Env (next 2) isJump nopMem staleReset (promptPort true) ∧
    (∀ t, (promptPort true t).ifui.jump = false) ∧
    ¬ StreamCorrect (next 2) nopMem staleReset (promptPort true) 4 := by
  refine ⟨⟨rfl, rfl, rfl, rfl, rfl, rfl⟩, promptPort_env true, promptPort_no_jump true, fun h => ?_⟩
  have hir := ((h 4).1 (by decide)).1
  exact absurd hir (by decide)

end ParaNut.Ifu
