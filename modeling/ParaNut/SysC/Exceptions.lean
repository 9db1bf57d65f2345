import ParaNut.SysC.Exu
import ParaNut.SysC.Ifu

/-!
# Exceptions in the SystemC model (`exu.cpp`, `ifu.cpp`)

`MExu` and `MIfu` of the CePU, one clock edge at a time. After `l.sys` and
`l.rfe` the thread waits for a valid instruction without asserting `next`, so
the delay slot it means to skip is what it finds at the head of the loop.
-/

namespace ParaNut.SysC.MExu

open Ifu (Registers IfuIn ifuo arrival IsReset)

/-- The two modules with the values of their registers and outputs. -/
structure Core where
  exu : Thread
  ifu : Registers

/-- The read port of the IFU and the LSU. -/
structure CoreIn where
  rpAck : Bool
  rpData : TWord
  lsuAck : Bool
  lsuRdata : TWord
  lsuWcondOk : Bool

/-- The assertions of `MIfu::TransitionMethod`. -/
def ifuAsserts (r : Registers) (i : IfuIn) : Bool :=
  (!i.jump || i.jumpAdr &&& 3 == 0) && (!r.lastRpAck || decide ((jumped r i).insnTop < ifuBufSize))

def Core.exui (s : Core) (i : CoreIn) : In := ⟨ifuo s.ifu, i.lsuAck, i.lsuRdata, i.lsuWcondOk⟩

/-- A clock edge. -/
def Core.step (c : Config) (s : Core) (i : CoreIn) : Option Core := do
  let exu ← resume c s.exu (s.exui i)
  if ifuAsserts s.ifu s.exu.out.ifu then
    return ⟨exu, transition s.ifu s.exu.out.ifu i.rpAck i.rpData⟩
  else none

/-- The EXU takes an instruction. -/
def Core.performs (s : Core) : Bool := s.exu.point == .head && (ifuo s.ifu).irValid

structure AtReset (s : Core) : Prop where
  exu : ∃ r out, s.exu = Thread.reset r out
  ifu : IsReset s.ifu

/-- The cycle `t'` in which the EXU takes the instruction after that of cycle `t`. -/
structure Follows (s : ℕ → Core) (t t' : ℕ) : Prop where
  lt : t < t'
  first : (s t).performs = true
  second : (s t').performs = true
  between : ∀ u, t < u → u < t' → (s u).performs = false

def isSys (insn : TWord) : Prop := opcode insn = 0x08 ∧ insn.extractLsb' 21 5 = 0

def isRfe (insn : TWord) : Prop := opcode insn = 0x09

/-- `l.sys` is taken in `s`, and the next instruction, that of the handler, in `s'`. -/
structure Excepted (s s' : Core) : Prop where
  esr : s'.exu.r.regESR = s.exu.r.sr
  epcr : s'.exu.r.regEPCR = (ifuo s.ifu).pc + 4
  pc : (ifuo s'.ifu).pc = 0xc00

/-- The bits of the supervision register that can be written. -/
def srBits : List ℕ := [2, 3, 4, 9, 10, 11, 16]

/-- `l.rfe` is taken in `s`, and the next instruction, the one returned to, in `s'`. -/
structure Returned (s s' : Core) : Prop where
  sr : ∀ k ∈ srBits, s'.exu.r.sr.getLsbD k = s.exu.r.regESR.getLsbD k
  pc : (ifuo s'.ifu).pc = s.exu.r.regEPCR

-- ---------------------------------------------------------------------------
-- The addresses of the IFU
-- ---------------------------------------------------------------------------

section Addresses

variable (r : Registers) (i : IfuIn) (rpAck : Bool) (rpData : TWord)

theorem stored_transition (rpAck : Bool) : ∃ rd adr, transition r i rpAck rpData =
    { stored r i rpAck rpData with rpRd := rd, rpAdr := adr } := by
  cases h : issue r i rpAck rpData with
  | false => exact ⟨false, _, by rw [transition, h]; rfl⟩
  | true => exact ⟨true, _, by rw [transition, h]; rfl⟩

theorem transition_adrTop : (transition r i rpAck rpData).adrTop = (jumped r i).adrTop := by
  obtain ⟨rd, adr, h⟩ := stored_transition r i rpData rpAck
  rw [h, stored]
  cases r.lastRpAck <;> rfl

theorem transition_insnTop :
    (transition r i rpAck rpData).insnTop = arrival r i + r.lastRpAck.toNat := by
  have hj : jumped r i = Ifu.jumped 2 r i := by
    simp only [jumped, Ifu.jumped, addressed_eq]
  obtain ⟨rd, adr, h⟩ := stored_transition r i rpData rpAck
  rw [h, stored, ← Ifu.jumped_insnTop 2 r i, ← hj]
  cases r.lastRpAck <;> rfl

variable {r i}

/-- Once `npc` is valid it stays so. -/
theorem npc_stays (h : 3 ≤ r.adrTop) : 3 ≤ (transition r i rpAck rpData).adrTop := by
  have hs : (shifted r i).adrTop = r.adrTop - i.nexti.toNat := Ifu.shifted_adrTop 2 r i
  have hn : i.nexti.toNat ≤ 1 := Bool.toNat_le i.nexti
  have ha : 3 ≤ (addressed r i).adrTop := by
    by_cases hroom : (shifted r i).adrTop < ifuBufSize
    · simp only [addressed, if_pos hroom]
      omega
    · simp only [addressed, if_neg hroom]
      simp only [ifuBufSize] at hroom
      omega
  rw [transition_adrTop, jumped]
  cases i.jump with
  | false => exact ha
  | true => exact le_refl 3

theorem adrTop_low (hn : i.nexti = false) (hj : i.jump = false) (h : r.adrTop < ifuBufSize) :
    (transition r i rpAck rpData).adrTop = r.adrTop + 1 := by
  have hs : shifted r i = r := by
    rw [shifted, hn]
    rfl
  rw [transition_adrTop, jumped, hj]
  simp only [addressed, hs, if_pos h]
  rfl

/-- Addresses stay, or move with `next`. -/
theorem transition_adrBuf {k : ℕ} (hj : i.jump = true → k ≠ 2) (hk : k + i.nexti.toNat < r.adrTop)
    (hsize : k + i.nexti.toNat < ifuBufSize) :
    (transition r i rpAck rpData).adrBuf k = r.adrBuf (k + i.nexti.toNat) := by
  have hs : (shifted r i).adrTop = r.adrTop - i.nexti.toNat := Ifu.shifted_adrTop 2 r i
  have hjumped : (transition r i rpAck rpData).adrBuf k = (addressed r i).adrBuf k := by
    obtain ⟨rd, adr, h⟩ := stored_transition r i rpData rpAck
    have hstored : (stored r i rpAck rpData).adrBuf = (jumped r i).adrBuf := by
      rw [stored]
      cases r.lastRpAck <;> rfl
    rw [h, hstored, jumped]
    cases hjump : i.jump with
    | false => rfl
    | true => exact if_neg (hj hjump)
  have haddressed : (addressed r i).adrBuf k = (shifted r i).adrBuf k := by
    by_cases hroom : (shifted r i).adrTop < ifuBufSize
    · simp only [addressed, if_pos hroom]
      exact if_neg (by omega)
    · simp only [addressed, if_neg hroom]
  rw [hjumped, haddressed]
  exact @Ifu.shifted_adrBuf 2 r i k hsize

end Addresses

-- ---------------------------------------------------------------------------
-- What the thread does to the IFU
-- ---------------------------------------------------------------------------

section Thread

variable {c : Config} {t t' : Thread} {i : In}

theorem loadAck_point (t : Thread) (i : In) : (t.loadAck i).point ≠ .head := by
  unfold Thread.loadAck
  cases i.lsuAck <;> exact Point.noConfusion

theorem storeAck_point (t : Thread) (i : In) : (t.storeAck i).point ≠ .head := by
  unfold Thread.storeAck
  cases i.lsuAck <;> exact Point.noConfusion

theorem condAck_point (t : Thread) (i : In) : (t.condAck i).point ≠ .head := by
  unfold Thread.condAck
  cases i.lsuAck <;> exact Point.noConfusion

theorem flushAck_point (t : Thread) (i : In) : (t.flushAck i).point ≠ .head := by
  unfold Thread.flushAck
  cases i.lsuAck <;> exact Point.noConfusion

theorem cacheAck_point (t : Thread) (i : In) : (t.cacheAck i).point ≠ .head := by
  unfold Thread.cacheAck
  cases i.lsuAck <;> exact Point.noConfusion

/-- Any thread that results is not at the head of the loop. -/
def Waits (x : Option Thread) : Prop := ∀ t ∈ x, t.point ≠ .head

theorem Waits.none : Waits none := fun _ h => nomatch h

theorem Waits.some (h : t.point ≠ .head) : Waits (some t) := by
  rintro _ ⟨⟩
  exact h

theorem Waits.ite {p : Prop} [Decidable p] {x y : Option Thread} (hx : Waits x) (hy : Waits y) :
    Waits (if p then x else y) := by
  split_ifs
  · exact hx
  · exact hy

theorem Waits.bind {α : Type} {x : Option α} {f : α → Option Thread} (h : ∀ a, Waits (f a)) :
    Waits (x >>= f) := by
  cases x with
  | none => exact .none
  | some a => exact h a

theorem alu_waits (t : Thread) (i : In) : Waits (t.alu i) := by
  refine .bind fun ⟨r, w, delay⟩ => .some ?_
  dsimp only
  split_ifs <;> exact Point.noConfusion

/-- An instruction waits at least once before the next one is looked at. -/
theorem perform_waits (c : Config) (t : Thread) (i : In) : Waits (t.perform c i) := by
  simp only [Thread.perform]
  refine .ite (alu_waits t i) (.ite ?load (.ite ?store (.ite ?loadLinked (.ite ?storeCond
    (.ite ?cache (.ite ?jump (.ite ?nop (.ite ?sys (.ite ?rfe (.ite ?mfspr
      (.ite ?mtspr .none)))))))))))
  case load => exact .bind fun _ => .some (loadAck_point _ i)
  case store => exact .bind fun _ => .some (storeAck_point _ i)
  case loadLinked => exact .bind fun _ => .some (loadAck_point _ i)
  case storeCond => exact .bind fun _ => .ite (.some (condAck_point _ i)) (.some Point.noConfusion)
  case cache => exact .bind fun _ => .some (flushAck_point _ i)
  case jump =>
    refine .ite (.ite ?_ ?_) (.some Point.noConfusion)
    all_goals exact .bind fun _ => .ite (.some Point.noConfusion) (.some Point.noConfusion)
  case nop => exact .ite (.some Point.noConfusion) (.some Point.noConfusion)
  case sys => exact .some Point.noConfusion
  case rfe => exact .bind fun _ => .some Point.noConfusion
  case mfspr => exact .bind fun _ => .bind fun _ => .some Point.noConfusion
  case mtspr => exact .bind fun _ => .bind fun _ => .some Point.noConfusion

/-- At the head of the loop `next` and `jump` are low. -/
theorem resume_low (h : resume c t i = some t') (hhead : t'.point = .head) :
    t'.out.ifu.nexti = false ∧ t'.out.ifu.jump = false := by
  have hlow : ∀ u : Thread, u.toHead.out.ifu.nexti = false ∧ u.toHead.out.ifu.jump = false :=
    fun _ => ⟨rfl, rfl⟩
  unfold resume at h
  cases hp : t.point <;> rw [hp] at h <;> simp only at h
  case head =>
    cases hv : i.ifuo.irValid <;> rw [hv] at h
    · cases h
      exact hlow _
    · exact absurd hhead (perform_waits c _ i t' h)
  all_goals cases h
  case last | loadLast => exact hlow _
  case loadAck => exact absurd hhead (loadAck_point t i)
  case storeAck => exact absurd hhead (storeAck_point t i)
  case condAck => exact absurd hhead (condAck_point t i)
  case flushAck => exact absurd hhead (flushAck_point t i)
  case flushed | cacheAck => exact absurd hhead (cacheAck_point _ i)
  case linkNext | rfeNext => exact absurd hhead Point.noConfusion
  case halted => exact absurd hhead (hp ▸ Point.noConfusion)
  case delay n =>
    split_ifs at hhead
    exact Point.noConfusion hhead
  case linkWait | linkValid => split_ifs at hhead
  case rfeWait | rfeSkip | exceptNext =>
    split_ifs at hhead ⊢
    exact hlow _
  case exceptSkip =>
    split_ifs at hhead ⊢
    · exact hlow _
    · exact absurd hhead (hp ▸ Point.noConfusion)

end Thread

-- ---------------------------------------------------------------------------
-- The invariant
-- ---------------------------------------------------------------------------

section Run

variable {c : Config} {s s' : Core} {i : CoreIn}

theorem Core.step_elim (h : s.step c i = some s') : resume c s.exu (s.exui i) = some s'.exu ∧
    s'.ifu = transition s.ifu s.exu.out.ifu i.rpAck i.rpData := by
  simp only [Core.step, Option.bind_eq_bind, Option.bind_eq_some_iff] at h
  obtain ⟨exu, hexu, h⟩ := h
  split_ifs at h
  cases h
  exact ⟨hexu, rfl⟩

/-- The first two cycles after reset, in which `npc` is not yet valid. -/
structure Starting (s : Core) : Prop where
  point : s.exu.point = .head
  insnTop : s.ifu.insnTop = 1
  adrTop : s.ifu.adrTop = 2 ∨ s.ifu.adrTop = 1 ∧ s.ifu.lastRpAck = false

structure Inv (s : Core) : Prop where
  low : s.exu.point = .head → s.exu.out.ifu.nexti = false ∧ s.exu.out.ifu.jump = false
  npc : 3 ≤ s.ifu.adrTop ∨ Starting s

theorem AtReset.inv (h : AtReset s) : Inv s := by
  obtain ⟨⟨r, out, hexu⟩, hifu⟩ := h
  refine ⟨fun _ => ?_, .inr ⟨?_, hifu.insnTop, .inr ⟨hifu.adrTop, hifu.lastRpAck⟩⟩⟩ <;> rw [hexu]
  · exact ⟨rfl, rfl⟩
  · rfl

/-- An instruction taken has a valid `npc`. -/
theorem Inv.three_le (h : Inv s) (hp : s.performs = true) : 3 ≤ s.ifu.adrTop := by
  refine h.npc.resolve_right fun hs => ?_
  have hvalid : 1 < s.ifu.insnTop := of_decide_eq_true (Bool.and_eq_true_iff.mp hp).2
  exact absurd hs.insnTop (Nat.ne_of_gt hvalid)

theorem Inv.step (h : Inv s) (hs : s.step c i = some s') : Inv s' := by
  obtain ⟨hexu, hifu⟩ := Core.step_elim hs
  refine ⟨resume_low hexu, ?_⟩
  rw [hifu]
  rcases h.npc with htop | ⟨hpoint, hinsn, hadr⟩
  · exact .inl (npc_stays _ _ htop)
  · obtain ⟨hn, hj⟩ := h.low hpoint
    rcases hadr with h2 | ⟨h1, hl⟩
    · left
      rw [adrTop_low _ _ hn hj (by rw [h2]; decide), h2]
    · have hvalid : (ifuo s.ifu).irValid = false := decide_eq_false (by rw [hinsn]; decide)
      refine .inr ⟨?point, ?insnTop, .inl ?adrTop⟩
      case point =>
        simp only [resume, hpoint, Core.exui, hvalid] at hexu
        exact congrArg Thread.point (Option.some.inj hexu).symm
      case insnTop =>
        rw [hifu, transition_insnTop, hl, arrival, hn, hj, hinsn]
        rfl
      case adrTop => rw [hifu, adrTop_low _ _ hn hj (by rw [h1]; decide), h1]

-- ---------------------------------------------------------------------------
-- From an instruction to the next
-- ---------------------------------------------------------------------------

variable {t t' : Thread} {x : In} {pc npc : TWord} {r : Regs}

/-- What a thread that only waits keeps. -/
def Regs.special (r : Regs) : Regs := { r with regFile := fun _ => 0 }

/-- The thread waits for a valid instruction. -/
structure Idles (r : Regs) (t : Thread) : Prop where
  point : t.point ∈ [.head, .rfeWait, .rfeSkip, .exceptSkip]
  nexti : t.out.ifu.nexti = false
  jump : t.out.ifu.jump = false
  regs : t.r.special = r.special

theorem Idles.toHead (hr : t.r.special = r.special) : Idles r t.toHead :=
  ⟨by simp [Thread.toHead], rfl, rfl, hr⟩

theorem Idles.resume (h : Idles r t) (hp : t.performs x = false) (hs : resume c t x = some t') :
    Idles r t' := by
  obtain ⟨hpoint, hn, hj, hr⟩ := h
  simp only [List.mem_cons, List.not_mem_nil, or_false] at hpoint
  unfold MExu.resume at hs
  rcases hpoint with h | h | h | h <;> rw [h] at hs
  · have hv : x.ifuo.irValid = false := by simpa [Thread.performs, h] using hp
    rw [hv] at hs
    cases hs
    exact .toHead hr
  all_goals
    cases hs
    split_ifs
    · exact .toHead hr
    · exact ⟨by simp [h], hn, hj, hr⟩

/-- The first cycle of the jump that `l.sys` or `l.rfe` makes. -/
structure Leaving (npc : TWord) (r : Regs) (s : Core) : Prop where
  point : s.exu.point = .exceptNext ∨ s.exu.point = .rfeNext
  nexti : s.exu.out.ifu.nexti = true
  jump : s.exu.out.ifu.jump = true
  adrTop : 3 ≤ s.ifu.adrTop
  npc : (ifuo s.ifu).npc = npc
  regs : s.exu.r = r

/-- Nothing moves until the instruction at `pc` is valid. -/
structure Awaiting (pc : TWord) (r : Regs) (s : Core) : Prop where
  idles : Idles r s.exu
  adrTop : 3 ≤ s.ifu.adrTop
  pc : (ifuo s.ifu).pc = pc

theorem Leaving.step (h : Leaving npc r s) (hs : s.step c i = some s') : Awaiting npc r s' := by
  obtain ⟨hexu, hifu⟩ := Core.step_elim hs
  refine ⟨?_, hifu ▸ npc_stays _ _ h.adrTop, ?_⟩
  · have hr := congrArg Regs.special h.regs
    unfold resume at hexu
    rcases h.point with hp | hp <;> rw [hp] at hexu <;>
      replace hexu := Option.some.inj hexu <;> rw [← hexu]
    · split_ifs
      · exact .toHead hr
      · exact ⟨by simp, rfl, rfl, hr⟩
    · exact ⟨by simp, rfl, rfl, hr⟩
  · have hmoved : s'.ifu.adrBuf 1 = s.ifu.adrBuf (1 + s.exu.out.ifu.nexti.toNat) :=
      hifu ▸ transition_adrBuf _ _ (fun _ => by decide) (by rw [h.nexti]; exact h.adrTop)
        (by rw [h.nexti]; decide)
    rw [h.nexti] at hmoved
    exact hmoved.trans h.npc

/-- The delay slot keeps its place in the cycle in which the instruction is taken. -/
theorem Inv.leaving (h : Inv s) (hp : s.performs = true) (hs : s.step c i = some s')
    (hpoint : s'.exu.point = .exceptNext ∨ s'.exu.point = .rfeNext)
    (hn : s'.exu.out.ifu.nexti = true) (hj : s'.exu.out.ifu.jump = true) :
    Leaving (ifuo s.ifu).npc s'.exu.r s' := by
  obtain ⟨-, hifu⟩ := Core.step_elim hs
  obtain ⟨hnlow, hjlow⟩ := h.low (eq_of_beq (Bool.and_eq_true_iff.mp hp).1)
  have htop := h.three_le hp
  refine ⟨hpoint, hn, hj, hifu ▸ npc_stays _ _ htop, ?_, rfl⟩
  have hstays : s'.ifu.adrBuf 2 = s.ifu.adrBuf (2 + s.exu.out.ifu.nexti.toNat) := by
    rw [hifu]
    refine transition_adrBuf _ _ (fun hjump => ?_) ?_ ?_
    · cases hjlow.symm.trans hjump
    · rw [hnlow]
      exact htop
    · rw [hnlow]
      decide
  rw [hnlow] at hstays
  exact hstays

theorem Awaiting.step (h : Awaiting pc r s) (hp : s.performs = false)
    (hs : s.step c i = some s') : Awaiting pc r s' := by
  obtain ⟨hexu, hifu⟩ := Core.step_elim hs
  refine ⟨h.idles.resume (x := s.exui i) hp hexu, hifu ▸ npc_stays _ _ h.adrTop, ?_⟩
  have hstays : s'.ifu.adrBuf 1 = s.ifu.adrBuf (1 + s.exu.out.ifu.nexti.toNat) := by
    have htop := h.adrTop
    rw [hifu]
    refine transition_adrBuf _ _ (fun _ => by decide) ?_ ?_ <;> rw [h.idles.nexti]
    · exact Nat.lt_of_succ_lt htop
    · decide
  rw [h.idles.nexti] at hstays
  exact hstays.trans h.pc

/-- After `l.sys` or `l.rfe` the next instruction is that of the delay slot. -/
theorem Leaving.follows {s : ℕ → Core} {i : ℕ → CoreIn} {t t' : ℕ} (hf : Follows s t t')
    (hrun : ∀ u < t', (s u).step c (i u) = some (s (u + 1))) (h : Leaving npc r (s (t + 1))) :
    Awaiting npc r (s t') := by
  have hwaits : ∀ u, t + 2 ≤ u → u ≤ t' → Awaiting npc r (s u) := by
    intro u hu
    induction u, hu using Nat.le_induction with
    | base => exact fun hle => h.step (hrun (t + 1) hle)
    | succ u hu ih =>
      intro hle
      exact (ih (Nat.le_of_succ_le hle)).step (hf.between u (by omega) hle) (hrun u hle)
  have hne : t' ≠ t + 1 := by
    rintro rfl
    have hhead := (Bool.and_eq_true_iff.mp hf.second).1
    rcases h.point with hp | hp <;> rw [hp] at hhead <;> cases hhead
  have := hf.lt
  exact hwaits t' (by omega) (le_refl t')

-- ---------------------------------------------------------------------------
-- The two instructions
-- ---------------------------------------------------------------------------

theorem perform_sys (h : isSys t.insn) : t.perform c x = some (t.handleException x 0xc false) := by
  simp [Thread.perform, h.1, h.2]

theorem perform_rfe (h : isRfe t.insn) (hr : setSpr t.r x.ifuo 17 t.r.regESR = some r) :
    t.perform c x = some { ({ t with r := r }).jumpTo t.r.regEPCR with point := .rfeNext } := by
  have hop : opcode t.insn = 9 := h
  simp [Thread.perform, hop, hr]

/-- Writing the supervision register sets just the bits that can be written. -/
theorem setSpr_sr (r : Regs) (o : Ifu.IfuOut) (val : TWord) : ∃ r', setSpr r o 17 val = some r' ∧
    ∀ k ∈ srBits, r'.sr.getLsbD k = val.getLsbD k := by
  refine ⟨_, rfl, fun k hk => ?_⟩
  simp only [srBits, List.mem_cons, List.not_mem_nil, or_false] at hk
  -- the place of each field, then the field
  rcases hk with rfl | rfl | rfl | rfl | rfl | rfl | rfl <;>
    simp only [Regs.sr, BitVec.getLsbD_append, Nat.reduceLT, if_false, if_true, Nat.reduceSub] <;>
    simp

theorem Core.step_performs (h : s.performs = true) (hs : s.step c i = some s') :
    (s.exu.decode (s.exui i)).perform c (s.exui i) = some s'.exu := by
  obtain ⟨hpoint, hvalid⟩ := Bool.and_eq_true_iff.mp h
  have hexu := (Core.step_elim hs).1
  rw [resume, eq_of_beq hpoint] at hexu
  exact (if_pos hvalid).symm.trans hexu

end Run

-- ---------------------------------------------------------------------------
-- A memory that answers at once
-- ---------------------------------------------------------------------------

/-- The read port answers requests only, one cycle later, from memory. -/
structure Fetches (mem : WordAdr → TWord) (s : ℕ → Core) (i : ℕ → CoreIn) : Prop where
  rpAck : ∀ t, (i t).rpAck = true → (s t).ifu.rpRd = true
  rpData : ∀ t, (i t).rpAck = true → (i (t + 1)).rpData = mem (wordOf (s t).ifu.rpAdr)

/-- `insn` at 0x100, `l.addi r1,r0,1` everywhere else. -/
def oneInsn (insn : TWord) : WordAdr → TWord := fun a => if a = 0x40 then insn else 0x9c200001

def sysInsn : TWord := 0x20000000

def rfeInsn : TWord := 0x24000000

def cePU : Config := ⟨1, 0, 0⟩

def coreAtReset (epcr : TWord) : Core where
  exu := Thread.reset { Regs.initial with regEPCR := epcr } Signals.initial
  ifu := ⟨fun _ => 0, fun n => if n = 0 then 0xfc else if n = 1 then 0x100 else 0, 1, 1, false,
    false, 0⟩

def promptIn (p : Core × TWord) : CoreIn := ⟨p.1.ifu.rpRd, p.2, false, 0, false⟩

/-- The states, with the word the read port delivers. -/
def prompt (mem : WordAdr → TWord) (s : Core) : ℕ → Core × TWord
  | 0 => (s, 0)
  | t + 1 =>
    let p := prompt mem s t
    ((p.1.step cePU (promptIn p)).getD p.1, mem (wordOf p.1.ifu.rpAdr))

def states (mem : WordAdr → TWord) (s : Core) (t : ℕ) : Core := (prompt mem s t).1

def inputs (mem : WordAdr → TWord) (s : Core) (t : ℕ) : CoreIn := promptIn (prompt mem s t)

theorem coreAtReset_atReset (epcr : TWord) : AtReset (coreAtReset epcr) :=
  ⟨⟨_, _, rfl⟩, ⟨rfl, rfl, rfl, rfl, rfl, rfl⟩⟩

theorem prompt_fetches (mem : WordAdr → TWord) (s : Core) :
    Fetches mem (states mem s) (inputs mem s) :=
  ⟨fun _ h => h, fun _ _ => rfl⟩

theorem prompt_step {mem : WordAdr → TWord} {s : Core} {n : ℕ}
    (h : ∀ u < n, ((states mem s u).step cePU (inputs mem s u)).isSome = true) :
    ∀ u < n, (states mem s u).step cePU (inputs mem s u) = some (states mem s (u + 1)) := by
  intro u hu
  obtain ⟨s', hs'⟩ := Option.isSome_iff_exists.mp (h u hu)
  have hnext : states mem s (u + 1) =
      ((states mem s u).step cePU (inputs mem s u)).getD (states mem s u) := rfl
  rw [hnext, hs']
  rfl

end ParaNut.SysC.MExu
