import ParaNut.Lsu.IoOrder

/-!
# Misaligned requests to `mlsu`

The alignment check clears the byte selects and the read request, and nothing
else looks at it: a misaligned store takes an entry with no valid bytes and is
acknowledged, and a misaligned load that hits an entry is answered from it.
-/

namespace ParaNut.Lsu

open Lib

/-- A misaligned load or store. -/
structure Misaligned (lsui : LsuIn) : Prop where
  err : misaligned lsui = true
  one : lsui.rd = !lsui.wr
  noFlush : lsui.flush = false
  noCacheOp : cacheOp lsui = false

def withoutAccess (lsui : LsuIn) : LsuIn := { lsui with rd := false, wr := false }

/-- The request is rejected, and the unit goes on as if there was none. -/
structure Intact (c : Config) (r : Registers) (i : Input) : Prop where
  alignErr : (lsuo c r i.lsui i.rpo i.wpo).alignErr = true
  noAck : (lsuo c r i.lsui i.rpo i.wpo).ack = false
  noRead : (rpi c r i.lsui i.dcacheEnable).portRd = false
  write : wpi c r i.lsui i.dcacheEnable = wpi c r (withoutAccess i.lsui) i.dcacheEnable
  next : next c r i.lsui i.wpo = Lsu.next c r (withoutAccess i.lsui) i.wpo

/-- The entry a store goes to, if any. -/
def place (c : Config) (r : Registers) (adr : TWord) : Option ℕ :=
  match findWbufHit c r adr, adrIsSpecial adr with
  | some n, false => some n
  | _, _ => findEmptyWbufEntry c r

/-- A store to `adr` has to wait, and the buffer drains meanwhile. -/
inductive Waits (c : Config) (r : Registers) (adr : TWord) (ack : Bool) : Prop
  | full (place : place c r adr = none) (dirty0 : r.wbufDirty0 = true) (ack : ack = false)
  | io (special : adrIsSpecial adr = true)
      (place : ∀ n, place c r adr = some n →
        2 ≤ n ∨ (n = 1 ∧ r.wbufDirty0 = true ∧ ack = false))
  | busy (place : place c r adr = some 0) (dirty0 : r.wbufDirty0 = true)
      (drains : ack = false ∨ r.shift c = { r with wbufDirty0 := false })

/-- Nothing in the buffer or at the read port answers the request. -/
def Unanswered (c : Config) (r : Registers) (i : Input) : Prop :=
  if i.lsui.rd then findWbufHit c r i.lsui.adr = none ∧ i.rpo.portAck = false
  else Waits c r i.lsui.adr i.wpo.portAck

variable {c : Config} {r : Registers} {lsui : LsuIn} {wpo : WriteportOut} {i : Input} {n : ℕ}

theorem storeEntry_place (hwr : lsui.wr = true) : storeEntry c r lsui =
    match place c r lsui.adr with
    | some n => ⟨n, true, false⟩
    | none => ⟨c.size - 1, true, true⟩ := by
  rw [storeEntry, if_pos hwr, place]
  cases findWbufHit c r lsui.adr with
  | none => rfl
  | some n => cases adrIsSpecial lsui.adr <;> rfl

/-- Without a store, and without a load that hits entry 0, the oldest entry goes unless it is in
flight. -/
theorem next_drains (h1 : 1 < c.size) (hno : cacheOp lsui = false) (hwr : lsui.wr = false)
    (hmiss : lsui.rd = true → findWbufHit c r lsui.adr = none) :
    next c r lsui wpo = if !r.wbufDirty0 || wpo.portAck then r.shift c else r := by
  have hlast : c.size - 1 ≠ 0 := Nat.sub_ne_zero_of_lt h1
  have hdont : wbufDontChange c r lsui = false := by
    cases hrd : lsui.rd with
    | false => simp [wbufDontChange, hrd, hwr]
    | true => simp [wbufDontChange, hmiss hrd, hwr]
  have hremove : wbufRemove c r lsui wpo = (!r.wbufDirty0 || wpo.portAck) := by
    simp [wbufRemove, hdont, wbufEntry_of_noCache hno, storeEntry_idle hwr, hlast]
  rw [(next_of_not_wr hno hwr).2, drained, hremove]
  cases hd : r.wbufDirty0 <;> cases hack : wpo.portAck <;> simp only [Bool.not_false, Bool.not_true,
    Bool.or_true, Bool.or_false, Bool.or_self, if_true, Bool.false_eq_true, if_false]
  cases r
  cases hd
  rfl

theorem next_withoutAccess (h1 : 1 < c.size) (hno : cacheOp lsui = false) :
    next c r (withoutAccess lsui) wpo =
      if !r.wbufDirty0 || wpo.portAck then r.shift c else r := by
  have hno' : cacheOp (withoutAccess lsui) = false := hno
  exact next_drains h1 hno' rfl nofun

-- ---------------------------------------------------------------------------
-- Loads
-- ---------------------------------------------------------------------------

theorem bsel_of_misaligned (he : misaligned lsui = true) : bsel lsui = 0 := by
  rw [bsel, he, Bool.or_true, if_pos rfl]

theorem fullHit_of_misaligned (he : misaligned lsui = true) :
    fullHit c r lsui = true ↔ findWbufHit c r lsui.adr ≠ none := by
  rw [fullHit, bsel_of_misaligned he]
  cases findWbufHit c r lsui.adr <;> simp

theorem load_intact_iff (h1 : 1 < c.size) (hm : Misaligned i.lsui) (hrd : i.lsui.rd = true) :
    Intact c r i ↔ findWbufHit c r i.lsui.adr = none ∧ i.rpo.portAck = false := by
  have hwr : i.lsui.wr = false := by simpa [hrd] using hm.one
  have hack : (lsuo c r i.lsui i.rpo i.wpo).ack = (fullHit c r i.lsui || i.rpo.portAck) :=
    ack_of_rd hm.noCacheOp hwr hm.noFlush hrd
  have herr : alignErr i.lsui = true := by rw [alignErr, hm.err, hrd]; rfl
  constructor
  · intro h
    have hno := h.noAck
    rw [hack, Bool.or_eq_false_iff] at hno
    refine ⟨?_, hno.2⟩
    by_contra hhit
    have hfull := (fullHit_of_misaligned (c := c) (r := r) hm.err).mpr hhit
    rw [hno.1] at hfull
    cases hfull
  · rintro ⟨hmiss, hport⟩
    refine ⟨herr, ?_, ?_, rfl, ?_⟩
    · rw [hack, hport, Bool.or_false, fullHit, hmiss]
    · rw [rpi, herr, Bool.not_true, Bool.and_false]
    · rw [next_drains h1 hm.noCacheOp hwr fun _ => hmiss, next_withoutAccess h1 hm.noCacheOp]

-- ---------------------------------------------------------------------------
-- Stores
-- ---------------------------------------------------------------------------

theorem wbufRemove_of_store (hno : cacheOp lsui = false) (hrd : lsui.rd = false)
    (hwr : lsui.wr = true) : wbufRemove c r lsui wpo =
      ((!r.wbufDirty0 || wpo.portAck) && (storeEntry c r lsui).i != 0) := by
  have hb : (storeEntry c r lsui).b = true := (storeEntry_found hwr).1
  rw [wbufRemove, wbufDontChange, wbufEntry_of_noCache hno, hrd, hwr, hb]
  cases hi : (storeEntry c r lsui).i with
  | zero => simp
  | succ n => simp

theorem wbufDontChange_of_store (hno : cacheOp lsui = false) (hrd : lsui.rd = false)
    (hwr : lsui.wr = true) :
    wbufDontChange c r lsui = (r.wbufDirty0 && (storeEntry c r lsui).i == 0) := by
  have hb : (storeEntry c r lsui).b = true := (storeEntry_found hwr).1
  rw [wbufDontChange, wbufEntry_of_noCache hno, hrd, hwr, hb]
  simp

/-- Does a store wait? By the place found for it. -/
theorem wbufWrite_eq_false_iff (h1 : 1 < c.size) (hno : cacheOp lsui = false)
    (hrd : lsui.rd = false) (hwr : lsui.wr = true) : wbufWrite c r lsui wpo = false ↔
      match place c r lsui.adr with
      | none => adrIsSpecial lsui.adr = true ∨ (r.wbufDirty0 = true ∧ wpo.portAck = false)
      | some 0 => r.wbufDirty0 = true
      | some 1 => adrIsSpecial lsui.adr = true ∧ r.wbufDirty0 = true ∧ wpo.portAck = false
      | some _ => adrIsSpecial lsui.adr = true := by
  have hlast : c.size - 1 ≠ 0 := Nat.sub_ne_zero_of_lt h1
  rw [wbufWrite, newEntry, wbufRemove_of_store hno hrd hwr, wbufDontChange_of_store hno hrd hwr,
    wbufEntry_of_noCache hno, storeEntry_place hwr]
  rcases place c r lsui.adr with _ | _ | _ | n
  · cases r.wbufDirty0 <;> cases wpo.portAck <;> simp [hlast]
  · simp
  · cases r.wbufDirty0 <;> cases wpo.portAck <;> simp
  · cases r.wbufDirty0 <;> cases wpo.portAck <;> simp

/-- While a store to another entry than 0 waits, the buffer drains as without it. -/
theorem next_of_waits (h1 : 1 < c.size) (hno : cacheOp lsui = false) (hrd : lsui.rd = false)
    (hwr : lsui.wr = true) (hi : (storeEntry c r lsui).i ≠ 0)
    (hw : wbufWrite c r lsui wpo = false) :
    next c r lsui wpo = next c r (withoutAccess lsui) wpo := by
  rw [next_withoutAccess h1 hno, next, hw, if_neg Bool.false_ne_true, drained,
    wbufRemove_of_store hno hrd hwr, bne_iff_ne.mpr hi, Bool.and_true]
  cases hd : r.wbufDirty0 <;> cases hack : wpo.portAck <;> simp only [Bool.not_false, Bool.not_true,
    Bool.or_true, Bool.or_false, Bool.or_self, if_true, Bool.false_eq_true, if_false]
  cases r
  cases hd
  rfl

/-- A store that waits for entry 0 keeps it from being removed. -/
theorem next_of_busy (h1 : 1 < c.size) (hno : cacheOp lsui = false) (hrd : lsui.rd = false)
    (hwr : lsui.wr = true) (hi : (storeEntry c r lsui).i = 0) (hd : r.wbufDirty0 = true)
    (hw : wbufWrite c r lsui wpo = false) :
    next c r lsui wpo = next c r (withoutAccess lsui) wpo ↔
      wpo.portAck = false ∨ r.shift c = { r with wbufDirty0 := false } := by
  have hremove : wbufRemove c r lsui wpo = false := by
    rw [wbufRemove_of_store hno hrd hwr, hi]
    exact Bool.and_false _
  rw [next_withoutAccess h1 hno, next, hw, if_neg Bool.false_ne_true, drained_of_keep hremove, hd]
  cases hack : wpo.portAck with
  | true =>
    simp only [Bool.not_true, Bool.and_false, Bool.or_true, if_true, Bool.true_eq_false, false_or]
    exact eq_comm
  | false =>
    simp only [Bool.not_true, Bool.not_false, Bool.and_true, Bool.or_false, Bool.false_eq_true,
      if_false, true_or, iff_true]
    cases r
    cases hd
    rfl

theorem store_intact_iff (h1 : 1 < c.size) (hm : Misaligned i.lsui) (hwr : i.lsui.wr = true) :
    Intact c r i ↔ Waits c r i.lsui.adr i.wpo.portAck := by
  have hno := hm.noCacheOp
  have hrd : i.lsui.rd = false := by simpa [hwr] using hm.one
  have hack : (lsuo c r i.lsui i.rpo i.wpo).ack = wbufWrite c r i.lsui i.wpo :=
    ack_of_wr hno hrd hm.noFlush
  have herr : alignErr i.lsui = true := by rw [alignErr, hm.err, hwr, Bool.or_true]; rfl
  have hread : (rpi c r i.lsui i.dcacheEnable).portRd = false := by simp only [rpi, hrd, Bool.false_and]
  have hiff : Intact c r i ↔ wbufWrite c r i.lsui i.wpo = false ∧
      next c r i.lsui i.wpo = next c r (withoutAccess i.lsui) i.wpo :=
    ⟨fun h => ⟨hack ▸ h.noAck, h.next⟩, fun h => ⟨herr, hack.trans h.1, hread, rfl, h.2⟩⟩
  have hwrite := @wbufWrite_eq_false_iff c r i.lsui i.wpo h1 hno hrd hwr
  have hentry := storeEntry_place (c := c) (r := r) hwr
  have hlast : c.size - 1 ≠ 0 := Nat.sub_ne_zero_of_lt h1
  rw [hiff]
  cases hp : place c r i.lsui.adr with
  | none =>
    rw [hp] at hwrite hentry
    have hi : (storeEntry c r i.lsui).i ≠ 0 := by rw [hentry]; exact hlast
    rw [and_iff_left_of_imp (next_of_waits h1 hno hrd hwr hi), hwrite]
    constructor
    · rintro (hs | ⟨hd, ha⟩)
      · exact .io hs fun n hn => nomatch hp.symm.trans hn
      · exact .full hp hd ha
    · rintro (⟨-, hd, ha⟩ | ⟨hs, -⟩ | ⟨h0, -, -⟩)
      · exact .inr ⟨hd, ha⟩
      · exact .inl hs
      · exact nomatch hp.symm.trans h0
  | some n =>
    rw [hp] at hwrite hentry
    cases n with
    | zero =>
      have hi : (storeEntry c r i.lsui).i = 0 := by rw [hentry]
      constructor
      · rintro ⟨hw, hnext⟩
        have hd := hwrite.mp hw
        exact .busy hp hd ((next_of_busy h1 hno hrd hwr hi hd hw).mp hnext)
      · rintro (⟨h0, -, -⟩ | ⟨-, h0⟩ | ⟨-, hd, hdrains⟩)
        · exact nomatch hp.symm.trans h0
        · rcases h0 0 hp with hlt | ⟨h01, -⟩
          · exact absurd hlt (by decide)
          · cases h01
        · have hw := hwrite.mpr hd
          exact ⟨hw, (next_of_busy h1 hno hrd hwr hi hd hw).mpr hdrains⟩
    | succ n =>
      have hi : (storeEntry c r i.lsui).i ≠ 0 := by rw [hentry]; exact Nat.succ_ne_zero n
      rw [and_iff_left_of_imp (next_of_waits h1 hno hrd hwr hi), hwrite]
      constructor
      · intro hw
        cases n with
        | zero =>
          refine .io hw.1 fun m hm => .inr ?_
          rw [Option.some.inj (hm.symm.trans hp)]
          exact ⟨rfl, hw.2⟩
        | succ n =>
          refine .io hw fun m hm => .inl ?_
          rw [Option.some.inj (hm.symm.trans hp)]
          exact Nat.le_add_left 2 n
      · rintro (⟨h0, -, -⟩ | ⟨hs, h0⟩ | ⟨h0, -, -⟩)
        · exact nomatch hp.symm.trans h0
        · cases n with
          | zero =>
            rcases h0 1 hp with hlt | ⟨-, hd, ha⟩
            · exact absurd hlt (by decide)
            · exact ⟨hs, hd, ha⟩
          | succ n => exact hs
        · exact nomatch hp.symm.trans h0

-- ---------------------------------------------------------------------------
-- Runs
-- ---------------------------------------------------------------------------

theorem intact_iff_unanswered (h1 : 1 < c.size) (hm : Misaligned i.lsui) :
    Intact c r i ↔ Unanswered c r i := by
  rw [Unanswered]
  cases hrd : i.lsui.rd with
  | true => rw [if_pos rfl, load_intact_iff h1 hm hrd]
  | false =>
    have hwr : i.lsui.wr = true := by simpa [hrd] using hm.one
    rw [if_neg Bool.false_ne_true, store_intact_iff h1 hm hwr]

/-- The inputs without the misaligned requests. -/
def withoutMisaligned (i : ℕ → Input) (t : ℕ) : Input :=
  if alignErr (i t).lsui then { i t with lsui := withoutAccess (i t).lsui } else i t

/-- A misaligned request leaves the unit intact if and only if it is not answered; where none is
answered, the buffer goes through the states it would go through without them. -/
theorem misaligned_intact (h1 : 2 ≤ c.size) (r : Registers) (i : ℕ → Input) :
    (∀ t, Misaligned (i t).lsui →
      (Intact c (bufferRun c r i t) (i t) ↔ Unanswered c (bufferRun c r i t) (i t))) ∧
    ((∀ t, alignErr (i t).lsui = true →
        Misaligned (i t).lsui ∧ Unanswered c (bufferRun c r i t) (i t)) →
      ∀ t, bufferRun c r i t = bufferRun c r (withoutMisaligned i) t) := by
  refine ⟨fun t hm => intact_iff_unanswered h1 hm, fun hall t => ?_⟩
  induction t with
  | zero => rfl
  | succ t ih =>
    rw [bufferRun_succ, bufferRun_succ, ← ih, withoutMisaligned]
    split
    · obtain ⟨hm, hno⟩ := hall t ‹_›
      exact ((intact_iff_unanswered h1 hm).mpr hno).next
    · rfl

def misalignedLoad : Input :=
  ⟨⟨true, false, false, false, false, 0, false, 1, 0⟩, ⟨false, 0⟩, ⟨false, true⟩, true⟩

def misalignedStore : Input :=
  { misalignedLoad with lsui := ⟨false, true, false, false, false, 0, false, 1, 0⟩ }

theorem misaligned_intact_load :
    Intact twoEntries (bufferRun twoEntries emptySys.r (fun _ => misalignedLoad) 0) misalignedLoad :=
  ((misaligned_intact (by decide : 2 ≤ twoEntries.size) emptySys.r fun _ => misalignedLoad).1 0
    ⟨rfl, rfl, rfl, rfl⟩).mpr ⟨by decide, rfl⟩

/-- After reset a misaligned store is acknowledged and goes to entry 0. -/
theorem misaligned_store_not_intact :
    emptySys.r.IsReset ∧ Misaligned misalignedStore.lsui ∧
      ¬ Intact twoEntries (bufferRun twoEntries emptySys.r (fun _ => misalignedStore) 0)
        misalignedStore :=
  ⟨⟨fun _ => rfl, rfl⟩, ⟨rfl, rfl, rfl, rfl⟩, fun h => absurd h.noAck (by decide)⟩

end ParaNut.Lsu
