import ParaNut.Lib.Sync
import ParaNut.Types
import Mathlib.Tactic.SplitIfs
import Mathlib.Tactic.ByContra

/-!
# Instruction prefetch

Both fetch units keep a queue of addresses and instruction words. Place 0 is
the instruction consumed last, place 1 the one offered to the EXU; `insnTop`
and `adrTop` are the first places with unknown contents. `Steps` collects
what a clock cycle may do to such a queue, and the invariants are proved from
it, once for both units.
-/

namespace ParaNut.Ifu

/-- `ifu_in_type` -/
structure IfuIn where
  nexti : Bool
  jump : Bool
  jumpAdr : TWord
  deriving DecidableEq

/-- `ifu_out_type` -/
structure IfuOut where
  ir : TWord
  ppc : TWord
  pc : TWord
  npc : TWord
  irValid : Bool
  npcValid : Bool
  deriving DecidableEq

structure Registers where
  insnBuf : ℕ → TWord
  adrBuf : ℕ → TWord
  insnTop : ℕ
  adrTop : ℕ
  lastRpAck : Bool
  rpRd : Bool
  rpAdr : TWord

/-- Registers after a reset of two clocks or more; the rest of the queue is not reset. -/
structure IsReset (r : Registers) : Prop where
  insnTop : r.insnTop = 1
  adrTop : r.adrTop = 1
  lastRpAck : r.lastRpAck = false
  rpRd : r.rpRd = false
  adr_zero : r.adrBuf 0 = 0xfc
  adr_one : r.adrBuf 1 = 0x100

def ifuo (r : Registers) : IfuOut where
  ir := r.insnBuf 1
  ppc := r.adrBuf 0
  pc := r.adrBuf 1
  npc := r.adrBuf 2
  irValid := 1 < r.insnTop
  npcValid := 2 < r.adrTop

-- ---------------------------------------------------------------------------
-- The instruction stream
-- ---------------------------------------------------------------------------

/-- Where the program is: the address of the next instruction, the target of a jump that waits
for its delay slot, and the instruction consumed last. -/
structure Stream where
  pc : TWord
  target : Option TWord
  last : Option TWord

def Stream.reset : Stream := ⟨0x100, none, none⟩

def Stream.consume (s : Stream) (ir : TWord) : Stream where
  pc := s.target.getD (s.pc + 4)
  target := none
  last := some ir

/-- One cycle of the EXU; `next` is performed before `jump`. -/
def Stream.step (s : Stream) (i : IfuIn) (ir : TWord) : Stream :=
  let s' := if i.nexti then s.consume ir else s
  if i.jump then { s' with target := some i.jumpAdr } else s'

@[simp] theorem Stream.step_pc (s : Stream) (i : IfuIn) (ir : TWord) :
    (s.step i ir).pc = if i.nexti then s.target.getD (s.pc + 4) else s.pc := by
  unfold Stream.step
  cases i.nexti <;> cases i.jump <;> rfl

@[simp] theorem Stream.step_target (s : Stream) (i : IfuIn) (ir : TWord) :
    (s.step i ir).target =
      if i.jump then some i.jumpAdr else if i.nexti then none else s.target := by
  unfold Stream.step
  cases i.nexti <;> cases i.jump <;> rfl

@[simp] theorem Stream.step_last (s : Stream) (i : IfuIn) (ir : TWord) :
    (s.step i ir).last = if i.nexti then some ir else s.last := by
  unfold Stream.step
  cases i.nexti <;> cases i.jump <;> rfl

/-- The EXU consumes valid instructions only and jumps only for the jump-class instruction it
consumes or has consumed last. -/
structure Disciplined (isJump : TWord → Bool) (s : Stream) (o : IfuOut) (i : IfuIn) : Prop where
  next : i.nexti = true → o.irValid = true
  jump : i.jump = true → if i.nexti then isJump o.ir = true else ∃ w, s.last = some w ∧ isJump w = true

-- ---------------------------------------------------------------------------
-- What a cycle does
-- ---------------------------------------------------------------------------

section Cycle

variable {isJump : TWord → Bool} {N : ℕ} {mem : WordAdr → TWord} {r r' : Registers} {i : IfuIn}
  {ack : Bool} {data data' : TWord} {s : Stream}

/-- Place in the new queue of the word that arrives in this cycle, or would. -/
def arrival (r : Registers) (i : IfuIn) : ℕ :=
  if i.jump then min (r.insnTop - i.nexti.toNat) 2 else r.insnTop - i.nexti.toNat

/-- The effect of one cycle on a queue of `N` places. -/
structure Steps (isJump : TWord → Bool) (N : ℕ) (r : Registers) (i : IfuIn) (ack : Bool)
    (data : TWord) (r' : Registers) : Prop where
  insnTop : r'.insnTop = arrival r i + r.lastRpAck.toNat
  adrTop : r'.adrTop = if i.jump then 3 else min (r.adrTop - i.nexti.toNat + 1) N
  lastRpAck : r'.lastRpAck = ack
  insn : ∀ k < r'.insnTop, r'.insnBuf k =
    if r.lastRpAck = true ∧ k = arrival r i then data else r.insnBuf (k + i.nexti.toNat)
  adr : ∀ k < r'.adrTop, r'.adrBuf k =
    if i.jump = true ∧ k = 2 then i.jumpAdr
    else if k + i.nexti.toNat < r.adrTop then r.adrBuf (k + i.nexti.toNat)
    else r.adrBuf (r.adrTop - 1) + 4
  /-- a request is for the first place not yet asked for, and not behind a known jump -/
  request : r'.rpRd = true → r'.insnTop + ack.toNat < r'.adrTop ∧
    r'.insnTop + ack.toNat + i.nexti.toNat < N ∧
    r'.rpAdr = r.adrBuf (r'.insnTop + ack.toNat + i.nexti.toNat) ∧
    (2 ≤ r'.insnTop + ack.toNat →
      isJump (r.insnBuf (r'.insnTop + ack.toNat + i.nexti.toNat - 2)) = false)

/-- The addresses in the queue are those of the stream. -/
structure Queue (N : ℕ) (r : Registers) (s : Stream) : Prop where
  two_le : 2 ≤ r.adrTop
  insn_le_adr : r.insnTop + r.lastRpAck.toNat ≤ r.adrTop
  adr_le : r.adrTop ≤ N
  pc : r.adrBuf 1 = s.pc
  npc : 2 < r.adrTop → r.adrBuf 2 = s.target.getD (s.pc + 4)
  target : s.target ≠ none → 2 < r.adrTop
  seq : ∀ k, 2 ≤ k → k + 1 < r.adrTop → r.adrBuf (k + 1) = r.adrBuf k + 4

/-- So are the words; `data` is what the read port delivers now. -/
structure Follows (N : ℕ) (mem : WordAdr → TWord) (r : Registers) (data : TWord) (s : Stream) : Prop
    extends Queue N r s where
  insn : ∀ k, 1 ≤ k → k < r.insnTop → r.insnBuf k = mem (wordOf (r.adrBuf k))
  arriving : r.lastRpAck = true → data = mem (wordOf (r.adrBuf r.insnTop))

/-- The same with the instruction consumed last at place 0. -/
structure Tracks (N : ℕ) (mem : WordAdr → TWord) (r : Registers) (data : TWord) (s : Stream) : Prop
    extends Follows N mem r data s where
  pos : 1 ≤ r.insnTop
  last : ∀ w, s.last = some w → r.insnBuf 0 = w

/-- An outstanding request is for the word at the first place not yet asked for. -/
def Requests (N : ℕ) (mem : WordAdr → TWord) (r : Registers) : Prop :=
  r.rpRd = true → r.insnTop + r.lastRpAck.toNat < r.adrTop ∧ r.insnTop + r.lastRpAck.toNat < N ∧
    mem (wordOf r.rpAdr) = mem (wordOf (r.adrBuf (r.insnTop + r.lastRpAck.toNat)))

/-- No word from behind the delay slot arrives or is acknowledged in the cycle of a jump. -/
def JumpsInTime (r : Registers) (i : IfuIn) (ack : Bool) : Prop :=
  i.jump = true → (r.lastRpAck = true → r.insnTop - i.nexti.toNat ≤ 1) ∧
    (ack = true → r.insnTop - i.nexti.toNat + r.lastRpAck.toNat ≤ 1)

/-- The address queue is ahead of the requests by at least one place. -/
def Ahead (N : ℕ) (r : Registers) (n : ℕ) : Prop :=
  r.adrTop = N ∨ r.insnTop + r.lastRpAck.toNat + n + 1 ≤ r.adrTop

theorem Tracks.next_lt (h : Tracks N mem r data s) (hd : Disciplined isJump s (ifuo r) i) :
    i.nexti.toNat + 1 ≤ r.insnTop := by
  cases hn : i.nexti with
  | false => exact h.pos
  | true => exact of_decide_eq_true (hd.next hn)

theorem Tracks.next_le (h : Tracks N mem r data s) (hd : Disciplined isJump s (ifuo r) i) :
    i.nexti.toNat ≤ r.insnTop :=
  Nat.le_of_succ_le (h.next_lt hd)

/-- The address after the next one to be consumed, known or about to be generated. -/
theorem Queue.following (h : Queue N r s) :
    s.target.getD (s.pc + 4) =
      if 2 < r.adrTop then r.adrBuf 2 else r.adrBuf (r.adrTop - 1) + 4 := by
  split_ifs with h2
  · exact (h.npc h2).symm
  · have htgt : s.target = none := by
      by_contra hne
      exact h2 (h.target hne)
    have := h.two_le
    rw [show r.adrTop - 1 = 1 by omega, h.pc, htgt]
    rfl

theorem arrival_le (r : Registers) (i : IfuIn) : arrival r i ≤ r.insnTop - i.nexti.toNat := by
  unfold arrival
  split_ifs <;> omega

theorem arrival_of_jump (h : i.jump = true) :
    arrival r i = min (r.insnTop - i.nexti.toNat) 2 := by
  simp [arrival, h]

theorem arrival_of_not_jump (h : i.jump = false) :
    arrival r i = r.insnTop - i.nexti.toNat := by
  simp [arrival, h]

theorem Steps.adr_kept (h : Steps isJump N r i ack data r') {k : ℕ} (hk : k < r'.adrTop)
    (hj : i.jump = true → k ≠ 2) (hold : k + i.nexti.toNat < r.adrTop) :
    r'.adrBuf k = r.adrBuf (k + i.nexti.toNat) := by
  rw [h.adr k hk, if_neg fun hc => hj hc.1 hc.2, if_pos hold]

/-- What the new queue holds, counted with the words on their way, without and with a jump. -/
theorem Steps.tops (hN : 4 ≤ N) (h : Queue N r s) (hst : Steps isJump N r i ack data r')
    (hnext : i.nexti.toNat ≤ r.insnTop) (hj : JumpsInTime r i ack)
    (hack : ack = true → r.insnTop + r.lastRpAck.toNat < r.adrTop ∧
      r.insnTop + r.lastRpAck.toNat < N) :
    2 ≤ r'.adrTop ∧ r'.adrTop ≤ N ∧ r'.insnTop + ack.toNat ≤ r'.adrTop ∧
      r'.insnTop + ack.toNat + i.nexti.toNat ≤ r.insnTop + r.lastRpAck.toNat + ack.toNat ∧
      (i.jump = true → r'.adrTop = 3 ∧ r'.insnTop + ack.toNat ≤ 2) := by
  have hpos := h.two_le
  have hle := h.insn_le_adr
  have hN' := h.adr_le
  have hn1 : i.nexti.toNat ≤ 1 := Bool.toNat_le _
  rw [hst.insnTop, hst.adrTop]
  cases hjmp : i.jump with
  | false =>
    rw [arrival_of_not_jump hjmp]
    cases ha : ack with
    | false => simp only [Bool.toNat_false]; simp; omega
    | true =>
      have := hack ha
      simp only [Bool.toNat_true]
      simp
      omega
  | true =>
    obtain ⟨hla, hak⟩ := hj hjmp
    rw [arrival_of_jump hjmp]
    cases ha : ack <;> cases hl : r.lastRpAck <;> simp [ha, hl] at hla hak ⊢ <;> omega

/-- One cycle keeps the queue on the stream, also when a word is skipped that has not arrived. -/
theorem Queue.step (hN : 4 ≤ N) (h : Queue N r s) (hst : Steps isJump N r i ack data r')
    (hnext : i.nexti.toNat ≤ r.insnTop) (hj : JumpsInTime r i ack)
    (hasked : ack = true → r.insnTop + r.lastRpAck.toNat < r.adrTop ∧
      r.insnTop + r.lastRpAck.toNat < N) (ir : TWord) : Queue N r' (s.step i ir) := by
  obtain ⟨htwo, hadrN, hinsn, hsum, hjtop⟩ := hst.tops hN h hnext hj hasked
  have hwords := h.insn_le_adr
  refine ⟨htwo, hst.lastRpAck ▸ hinsn, hadrN, ?pc, ?npc, ?target, ?seq⟩
  case pc =>
    rw [Stream.step_pc]
    have h1 := hst.adr 1 (by omega)
    rw [if_neg (by simp)] at h1
    cases hn : i.nexti with
    | false =>
      rw [hn, Bool.toNat_false, Nat.add_zero, if_pos (show 1 < r.adrTop from h.two_le)] at h1
      exact h1.trans h.pc
    | true =>
      rw [hn, Bool.toNat_true] at h1
      exact h1.trans h.following.symm
  case npc =>
    intro h2'
    rw [Stream.step_pc, Stream.step_target]
    have h2 := hst.adr 2 h2'
    cases hjmp : i.jump with
    | true => exact h2.trans (if_pos ⟨hjmp, rfl⟩)
    | false =>
      rw [if_neg (by simp [hjmp])] at h2
      cases hn : i.nexti with
      | false =>
        rw [hn, Bool.toNat_false, Nat.add_zero] at h2
        exact h2.trans h.following.symm
      | true =>
        rw [hn, Bool.toNat_true] at h2
        rw [hst.adrTop, hjmp, hn, Bool.toNat_true, if_neg Bool.false_ne_true] at h2'
        have hgt : 2 < r.adrTop := by omega
        have hfol := h.following
        rw [if_pos hgt] at hfol
        refine h2.trans (Eq.trans ?_ (congrArg (· + 4) hfol.symm))
        split_ifs with h3
        · exact h.seq 2 (by omega) h3
        · rw [show r.adrTop - 1 = 2 by omega]
  case target =>
    intro hne
    rw [Stream.step_target] at hne
    rw [hst.adrTop]
    cases hjmp : i.jump with
    | true => simp
    | false =>
      cases hn : i.nexti with
      | true => simp [hjmp, hn] at hne
      | false =>
        have := h.target (by simpa [hjmp, hn] using hne)
        simp
        omega
  case seq =>
    intro k hk hkt
    have hjmp : i.jump = false := by
      by_contra hjmp
      have := (hjtop (by simpa using hjmp)).1
      omega
    have hkt' := hkt
    rw [hst.adrTop, hjmp] at hkt'
    have hn1 : i.nexti.toNat ≤ 1 := Bool.toNat_le _
    have hkept := hst.adr_kept (by omega : k < _) (by simp [hjmp]) (by simp at hkt'; omega)
    rw [hkept, hst.adr (k + 1) hkt, if_neg (by simp [hjmp])]
    split_ifs with hold
    · rw [show k + 1 + i.nexti.toNat = k + i.nexti.toNat + 1 by omega]
      exact h.seq _ (by omega) (by omega)
    · rw [show r.adrTop - 1 = k + i.nexti.toNat by simp at hkt'; omega]

/-- The words that arrive are those of the stream. -/
theorem Follows.step (hN : 4 ≤ N) (h : Follows N mem r data s)
    (hst : Steps isJump N r i ack data r') (hnext : i.nexti.toNat ≤ r.insnTop)
    (hj : JumpsInTime r i ack) (hrd : ack = true → r.rpRd = true) (hreq : ack = true → Requests N mem r)
    (hdata : ack = true → data' = mem (wordOf r.rpAdr)) (ir : TWord) :
    Follows N mem r' data' (s.step i ir) := by
  have hasked : ack = true → r.insnTop + r.lastRpAck.toNat < r.adrTop ∧
      r.insnTop + r.lastRpAck.toNat < N := fun ha =>
    ⟨(hreq ha (hrd ha)).1, (hreq ha (hrd ha)).2.1⟩
  have hqueue := h.toQueue.step hN hst hnext hj hasked ir
  obtain ⟨htwo, hadrN, hinsn, hsum, hjtop⟩ := hst.tops hN h.toQueue hnext hj hasked
  have hla : r.lastRpAck.toNat ≤ 1 := Bool.toNat_le _
  have harrle := arrival_le r i
  have htop := hst.insnTop
  have hwords := h.insn_le_adr
  refine { hqueue with insn := ?insn, arriving := ?arriving }
  case insn =>
    intro k hk hkt
    rw [hst.insn k hkt]
    split_ifs with harrives
    · obtain ⟨hl, rfl⟩ := harrives
      have hplace : arrival r i + i.nexti.toNat = r.insnTop ∧ (i.jump = true → arrival r i ≠ 2) := by
        cases hjmp : i.jump with
        | false => rw [arrival_of_not_jump hjmp]; exact ⟨by omega, by simp⟩
        | true =>
          have := (hj hjmp).1 hl
          rw [arrival_of_jump hjmp]
          omega
      rw [hl, Bool.toNat_true] at hwords
      rw [hst.adr_kept (by omega) hplace.2 (by omega), hplace.1]
      exact h.arriving hl
    · have hlt : k < arrival r i := by
        cases hl : r.lastRpAck with
        | false => simp [hl] at htop; omega
        | true => simp [hl] at htop harrives; omega
      have hk2 : i.jump = true → k ≠ 2 := by
        intro hjmp
        rw [arrival_of_jump hjmp] at hlt
        omega
      rw [hst.adr_kept (by omega) hk2 (by omega)]
      exact h.insn _ (by omega) (by omega)
  case arriving =>
    intro hl
    rw [hst.lastRpAck] at hl
    have hrq := hreq hl (hrd hl)
    have hplace : r'.insnTop + i.nexti.toNat = r.insnTop + r.lastRpAck.toNat ∧
        (i.jump = true → r'.insnTop ≠ 2) := by
      rw [htop]
      cases hjmp : i.jump with
      | false => rw [arrival_of_not_jump hjmp]; exact ⟨by omega, by simp⟩
      | true =>
        have := (hj hjmp).2 hl
        rw [arrival_of_jump hjmp]
        omega
    rw [hl, Bool.toNat_true] at hinsn
    rw [hdata hl, hrq.2.2, hst.adr_kept (by omega) hplace.2 (by omega), hplace.1]

/-- One cycle keeps the queue on the stream. -/
theorem Tracks.step (hN : 4 ≤ N) (h : Tracks N mem r data s)
    (hst : Steps isJump N r i ack data r') (hd : Disciplined isJump s (ifuo r) i)
    (hj : JumpsInTime r i ack) (hrd : ack = true → r.rpRd = true) (hreq : ack = true → Requests N mem r)
    (hdata : ack = true → data' = mem (wordOf r.rpAdr)) :
    Tracks N mem r' data' (s.step i (r.insnBuf 1)) := by
  have hnext := h.next_lt hd
  have harr : 1 ≤ arrival r i := by
    unfold arrival
    split_ifs <;> omega
  have htop := hst.insnTop
  have hfollows := h.toFollows.step hN hst (h.next_le hd) hj hrd hreq hdata (r.insnBuf 1)
  refine { hfollows with pos := by omega, last := ?last }
  have h0 : r'.insnBuf 0 = r.insnBuf (0 + i.nexti.toNat) := by
    rw [hst.insn 0 (by omega), if_neg (by omega)]
  intro w hw
  rw [h0]
  rw [Stream.step_last] at hw
  cases hn : i.nexti with
  | false => exact h.last w (by simpa [hn] using hw)
  | true => simpa [hn] using hw

theorem Ahead.mono {m n : ℕ} (h : Ahead N r n) (hmn : m ≤ n) : Ahead N r m := by
  rcases h with h | h
  · exact .inl h
  · exact .inr (by omega)

/-- A request for place 2 is never issued in the cycle of a jump. -/
theorem Steps.request_of_jump (h : Tracks N mem r data s) (hst : Steps isJump N r i ack data r')
    (hd : Disciplined isJump s (ifuo r) i) (hjmp : i.jump = true) (hrd : r'.rpRd = true) :
    r'.insnTop + ack.toNat ≤ 1 := by
  obtain ⟨hlt, -, -, hjumps⟩ := hst.request hrd
  rw [hst.adrTop, if_pos hjmp] at hlt
  by_contra hgt
  have h2 : r'.insnTop + ack.toNat = 2 := by omega
  have hno := hjumps (by omega)
  have hj := hd.jump hjmp
  cases hn : i.nexti with
  | true =>
    rw [hn, if_pos rfl, show (ifuo r).ir = r.insnBuf 1 from rfl] at hj
    rw [h2, hn, show 2 + true.toNat - 2 = 1 from rfl, hj] at hno
    simp at hno
  | false =>
    rw [hn, if_neg Bool.false_ne_true] at hj
    obtain ⟨w, hw, hjw⟩ := hj
    rw [h2, hn, show 2 + false.toNat - 2 = 0 from rfl, h.last w hw, hjw] at hno
    simp at hno

/-- A request is for the address at its place, and stays so unless the address changes. -/
theorem Steps.request_adr (hN : 4 ≤ N) (h : Queue N r s)
    (hst : Steps isJump N r i ack data r') (hnext : i.nexti.toNat ≤ r.insnTop)
    (hj : JumpsInTime r i ack)
    (hack : ack = true → r.insnTop + r.lastRpAck.toNat < r.adrTop ∧
      r.insnTop + r.lastRpAck.toNat < N)
    (hplace : i.jump = true → r'.rpRd = true → r'.insnTop + ack.toNat ≤ 1)
    (hah : Ahead N r ack.toNat) (hrd : r'.rpRd = true) :
    r'.insnTop + r'.lastRpAck.toNat < r'.adrTop ∧ r'.insnTop + r'.lastRpAck.toNat < N ∧
      r'.rpAdr = r'.adrBuf (r'.insnTop + r'.lastRpAck.toNat) := by
  obtain ⟨hlt, hltN, hadr, -⟩ := hst.request hrd
  obtain ⟨-, -, -, hsum, -⟩ := hst.tops hN h hnext hj hack
  rw [hst.lastRpAck]
  refine ⟨hlt, by omega, ?_⟩
  have hknown : r'.insnTop + ack.toNat + i.nexti.toNat < r.adrTop := by
    rcases hah with h | h <;> omega
  have hne : i.jump = true → r'.insnTop + ack.toNat ≠ 2 := by
    intro hjmp
    have := hplace hjmp hrd
    omega
  rw [hadr, hst.adr_kept hlt hne hknown]

theorem Steps.requests (hN : 4 ≤ N) (h : Tracks N mem r data s)
    (hst : Steps isJump N r i ack data r') (hd : Disciplined isJump s (ifuo r) i)
    (hj : JumpsInTime r i ack)
    (hack : ack = true → r.insnTop + r.lastRpAck.toNat < r.adrTop ∧
      r.insnTop + r.lastRpAck.toNat < N)
    (hah : Ahead N r ack.toNat) : Requests N mem r' := by
  intro hrd
  obtain ⟨hlt, hltN, hadr⟩ := hst.request_adr hN h.toQueue (h.next_le hd) hj hack
    (fun hjmp => hst.request_of_jump h hd hjmp) hah hrd
  exact ⟨hlt, hltN, by rw [hadr]⟩

theorem Steps.ahead (hN : 4 ≤ N) (h : Queue N r s)
    (hst : Steps isJump N r i ack data r') (hnext : i.nexti.toNat ≤ r.insnTop)
    (hj : JumpsInTime r i ack)
    (hack : ack = true → r.insnTop + r.lastRpAck.toNat < r.adrTop ∧
      r.insnTop + r.lastRpAck.toNat < N)
    (hplace : i.jump = true → r'.rpRd = true → r'.insnTop + ack.toNat ≤ 1)
    (hah : Ahead N r ack.toNat) : Ahead N r' r'.rpRd.toNat := by
  obtain ⟨-, -, -, hsum, hjtop⟩ := hst.tops hN h hnext hj hack
  have hrd : r'.rpRd.toNat ≤ 1 := Bool.toNat_le _
  have hadr := h.adr_le
  have hn1 : i.nexti.toNat ≤ 1 := Bool.toNat_le _
  rw [Ahead, hst.lastRpAck]
  cases hjmp : i.jump with
  | true =>
    obtain ⟨h3, h2⟩ := hjtop hjmp
    right
    cases hr : r'.rpRd with
    | false => rw [Bool.toNat_false]; omega
    | true =>
      have := hplace hjmp hr
      rw [Bool.toNat_true]
      omega
  | false =>
    rw [hst.adrTop, hjmp, if_neg Bool.false_ne_true]
    rcases hah with h | h <;> omega

/-- The invariant of a run, in a cycle whose acknowledge is `ack`. -/
structure OnStream (N : ℕ) (mem : WordAdr → TWord) (r : Registers) (ack : Bool) (data : TWord)
    (s : Stream) : Prop where
  tracks : Tracks N mem r data s
  requests : ack = true → Requests N mem r
  ahead : Ahead N r ack.toNat

theorem OnStream.step {ack' : Bool} (hN : 4 ≤ N) (h : OnStream N mem r ack data s)
    (hst : Steps isJump N r i ack data r') (hd : Disciplined isJump s (ifuo r) i)
    (hj : JumpsInTime r i ack) (hrd : ack = true → r.rpRd = true)
    (hrd' : ack' = true → r'.rpRd = true)
    (hdata : ack = true → data' = mem (wordOf r.rpAdr)) :
    OnStream N mem r' ack' data' (s.step i (r.insnBuf 1)) := by
  have hasked : ack = true → r.insnTop + r.lastRpAck.toNat < r.adrTop ∧
      r.insnTop + r.lastRpAck.toNat < N := fun ha =>
    ⟨(h.requests ha (hrd ha)).1, (h.requests ha (hrd ha)).2.1⟩
  refine ⟨h.tracks.step hN hst hd hj hrd h.requests hdata,
    fun _ => hst.requests hN h.tracks hd hj hasked h.ahead,
    (hst.ahead hN h.tracks.toQueue (h.tracks.next_le hd) hj hasked
      (fun hjmp => hst.request_of_jump h.tracks hd hjmp) h.ahead).mono ?_⟩
  cases ack' with
  | false => exact Nat.zero_le _
  | true => rw [hrd' rfl]

-- ---------------------------------------------------------------------------
-- The first fetch
-- ---------------------------------------------------------------------------

/-- The queue one cycle after reset, when the first request is out. -/
structure FirstFetch (r : Registers) : Prop where
  insnTop : r.insnTop = 1
  adrTop : r.adrTop = 2
  lastRpAck : r.lastRpAck = false
  rpAdr : r.rpAdr = 0x100
  adr : r.adrBuf 1 = 0x100

theorem FirstFetch.tracks (hN : 4 ≤ N) (h : FirstFetch r) (data : TWord) :
    Tracks N mem r data Stream.reset where
  pos := by rw [h.insnTop]
  two_le := by rw [h.adrTop]
  insn_le_adr := by rw [h.insnTop, h.lastRpAck, h.adrTop]; decide
  adr_le := by rw [h.adrTop]; omega
  pc := h.adr
  npc h2 := by rw [h.adrTop] at h2; omega
  target hne := absurd rfl hne
  seq k _ hk := by rw [h.adrTop] at hk; omega
  insn k _ hk := by rw [h.insnTop] at hk; omega
  last w hw := by simp [Stream.reset] at hw
  arriving hl := by simp [h.lastRpAck] at hl

theorem FirstFetch.requests (hN : 4 ≤ N) (h : FirstFetch r) : Requests N mem r := by
  intro _
  rw [h.insnTop, h.lastRpAck, h.adrTop, Bool.toNat_false, h.rpAdr, h.adr]
  exact ⟨by decide, by omega, rfl⟩

/-- Before the first instruction has arrived the EXU can do nothing. -/
theorem idle_of_reset (hd : Disciplined isJump Stream.reset (ifuo r) i) (h : r.insnTop = 1) :
    i.nexti = false ∧ i.jump = false := by
  have hn : i.nexti = false := by
    by_contra hn
    have := hd.next (by simpa using hn)
    simp [ifuo, h] at this
  refine ⟨hn, ?_⟩
  by_contra hj
  have := hd.jump (by simpa using hj)
  simp [hn, Stream.reset] at this

/-- The second request is for an address that may not have been generated yet; unless it is
acknowledged at once, it is repeated correctly. -/
theorem FirstFetch.step {ack' : Bool} (hN : 4 ≤ N) (h : FirstFetch r)
    (hst : Steps isJump N r i ack data r') (hd : Disciplined isJump Stream.reset (ifuo r) i)
    (hrd : ack = true → r.rpRd = true) (hrd' : ack' = true → r'.rpRd = true)
    (hdata : ack = true → data' = mem (wordOf r.rpAdr)) (hlate : ¬(ack = true ∧ ack' = true)) :
    OnStream N mem r' ack' data' (Stream.reset.step i (r.insnBuf 1)) := by
  have htr : Tracks N mem r data Stream.reset := h.tracks hN data
  obtain ⟨hn, hj⟩ := idle_of_reset hd h.insnTop
  have hjumps : JumpsInTime r i ack := by simp [JumpsInTime, hj]
  cases ha : ack with
  | false =>
    have hon : OnStream N mem r ack data Stream.reset :=
      ⟨htr, fun _ => h.requests hN, .inr (by rw [h.insnTop, h.lastRpAck, h.adrTop, ha]; decide)⟩
    exact hon.step hN hst hd hjumps hrd hrd' hdata
  | true =>
    have ha' : ack' = false := by
      by_contra ha'
      exact hlate ⟨ha, by simpa using ha'⟩
    refine ⟨htr.step hN hst hd hjumps hrd (fun _ => h.requests hN) hdata, ?_, .inr ?_⟩
    · simp [ha']
    · have hit := hst.insnTop
      have hat := hst.adrTop
      rw [arrival_of_not_jump hj, h.insnTop, hn, h.lastRpAck] at hit
      rw [if_neg (by simp [hj]), h.adrTop, hn] at hat
      rw [hst.lastRpAck, hit, hat, ha, ha']
      simp
      omega

end Cycle

-- ---------------------------------------------------------------------------
-- Runs
-- ---------------------------------------------------------------------------

/-- Inputs of one cycle. -/
structure Cycle where
  ifui : IfuIn
  rpAck : Bool
  portData : TWord

section Runs

variable (next : Registers → IfuIn → Bool → TWord → Registers) (isJump : TWord → Bool)
  (mem : WordAdr → TWord) (r : Registers) (i : ℕ → Cycle)

def states : ℕ → Registers := Lib.run (fun r c => next r c.ifui c.rpAck c.portData) r i

def stream : ℕ → Stream
  | 0 => Stream.reset
  | t + 1 => (stream t).step (i t).ifui (ifuo (states next r i t)).ir

/-- The read port acknowledges requests, in any cycle, and delivers the word one cycle later. -/
structure Env : Prop where
  rpAck : ∀ t, (i t).rpAck = true → (states next r i t).rpRd = true
  portData : ∀ t, (i t).rpAck = true →
    (i (t + 1)).portData = mem (wordOf (states next r i t).rpAdr)
  exu : ∀ t, Disciplined isJump (stream next r i t) (ifuo (states next r i t)) (i t).ifui

/-- The unit offers the words of the stream, and its queue does not overflow. -/
def StreamCorrect (N : ℕ) : Prop :=
  ∀ t, ((ifuo (states next r i t)).irValid = true →
      (ifuo (states next r i t)).ir = mem (wordOf (ifuo (states next r i t)).pc) ∧
        (ifuo (states next r i t)).pc = (stream next r i t).pc) ∧
    (states next r i t).insnTop ≤ N ∧ (states next r i t).adrTop ≤ N

variable {next isJump mem r i} {N : ℕ}

/-- The queue is on the stream in cycle `t`. -/
abbrev TracksAt (next : Registers → IfuIn → Bool → TWord → Registers) (mem : WordAdr → TWord)
    (r : Registers) (i : ℕ → Cycle) (N t : ℕ) : Prop :=
  Tracks N mem (states next r i t) (i t).portData (stream next r i t)

theorem tracks_run (hN : 4 ≤ N) (henv : Env next isJump mem r i)
    (hidle : (i 0).ifui.nexti = false ∧ (i 0).ifui.jump = false)
    (hfirst : FirstFetch (states next r i 1))
    (hsteps : ∀ t, TracksAt next mem r i N t → Steps isJump N (states next r i t) (i t).ifui
      (i t).rpAck (i t).portData (states next r i (t + 1)))
    (hjumps : ∀ t, (∀ u, 1 ≤ u → u ≤ t → TracksAt next mem r i N u) →
      JumpsInTime (states next r i t) (i t).ifui (i t).rpAck)
    (hlate : ¬((i 1).rpAck = true ∧ (i 2).rpAck = true)) (t : ℕ) (ht : 1 ≤ t) :
    TracksAt next mem r i N t := by
  have hs1 : stream next r i 1 = Stream.reset := by
    simp [stream, Stream.step, hidle]
  have h1 : TracksAt next mem r i N 1 := by
    rw [TracksAt, hs1]
    exact hfirst.tracks hN _
  have hall : ∀ t, (∀ u, 1 ≤ u → u ≤ t + 1 → TracksAt next mem r i N u) ∧
      OnStream N mem (states next r i (t + 2)) (i (t + 2)).rpAck (i (t + 2)).portData
        (stream next r i (t + 2)) := by
    intro t
    induction t with
    | zero =>
      refine ⟨fun u hu hu1 => (show u = 1 by omega) ▸ h1, ?_⟩
      have hd := henv.exu 1
      rw [hs1] at hd
      have := hfirst.step hN (hsteps 1 h1) hd (henv.rpAck 1) (henv.rpAck 2) (henv.portData 1) hlate
      rwa [← hs1] at this
    | succ t ih =>
      obtain ⟨hpast, hon⟩ := ih
      have hpast' : ∀ u, 1 ≤ u → u ≤ t + 2 → TracksAt next mem r i N u := by
        intro u hu hut
        rcases Nat.lt_or_eq_of_le hut with hlt | rfl
        · exact hpast u hu (by omega)
        · exact hon.tracks
      exact ⟨hpast', hon.step hN (hsteps _ hon.tracks) (henv.exu _) (hjumps _ hpast')
        (henv.rpAck _) (henv.rpAck _) (henv.portData _)⟩
  exact (hall t).1 t ht (by omega)

theorem streamCorrect_of_tracks (hN : 4 ≤ N) (h0 : r.insnTop = 1 ∧ r.adrTop = 1)
    (h : ∀ t, 1 ≤ t → TracksAt next mem r i N t) : StreamCorrect next mem r i N := by
  intro t
  rcases Nat.eq_zero_or_pos t with rfl | ht
  · have h1 : ¬ (ifuo (states next r i 0)).irValid = true := by
      simp [ifuo, states, h0]
    exact ⟨fun hv => absurd hv h1, by simp [states, h0]; omega, by simp [states, h0]; omega⟩
  · have htr := h t ht
    refine ⟨fun hv => ⟨?_, htr.pc⟩, ?_, htr.adr_le⟩
    · exact htr.insn 1 (by omega) (of_decide_eq_true hv)
    · have := htr.insn_le_adr
      have := htr.adr_le
      omega

end Runs

end ParaNut.Ifu
