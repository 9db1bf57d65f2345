import ParaNut.Lsu.IoOrder

/-!
# Loads from I/O addresses

A load looks into the write buffer whatever its address is, and does not wait
for the stores in it. So it reaches the device, after the stores before it, if
and only if no I/O store is in flight and no entry serves it when it begins.
The argument is about the ports and the buffer of either load/store unit.
-/

namespace ParaNut.Lsu

open Lib

/-- What a load/store unit sees and drives in one cycle. -/
structure PortCycle where
  lsui : LsuIn
  /-- the byte selects the unit makes of the request -/
  sel : TByteSel
  ack : Bool
  rdata : TWord
  rpRd : Bool
  rpBsel : TByteSel
  rpAdr : TWord
  rpo : ReadportOut
  wpWr : Bool
  wpBsel : TByteSel
  wpAdr : TWord
  wpAck : Bool

/-- Requests come one at a time. -/
structure LsuIn.Single (lsui : LsuIn) : Prop where
  load : lsui.rd = true → lsui.wr = false ∧ lsui.flush = false ∧ cacheOp lsui = false
  store : lsui.wr = true → lsui.rd = false ∧ lsui.flush = false ∧ cacheOp lsui = false

section Ports

variable (io : TWord → Bool) (p : ℕ → PortCycle)

/-- A load from an I/O address, requested from cycle `a` on and acknowledged in `t`; its lines
stay for the result. -/
structure IoLoad (a t : ℕ) : Prop where
  le : a ≤ t
  rd : (p a).lsui.rd = true
  adr : io (p a).lsui.adr = true
  held : ∀ u, a ≤ u → u ≤ t → (p u).lsui = (p a).lsui
  wait : ∀ u, a ≤ u → u < t → (p u).ack = false
  ack : (p t).ack = true
  after : (p (t + 1)).lsui.adr = (p a).lsui.adr

/-- A store of at least one byte to an I/O address is acknowledged. -/
structure IoStored (s : ℕ) : Prop where
  wr : (p s).lsui.wr = true
  ack : (p s).ack = true
  adr : io (p s).lsui.adr = true
  bytes : ∃ n : Fin 4, getElem (p s).sel n.val n.isLt = true

/-- The write port completes the store of cycle `s` in cycle `v`. -/
structure Completes (s v : ℕ) : Prop where
  wr : (p v).wpWr = true
  ack : (p v).wpAck = true
  word : wordOf (p v).wpAdr = wordOf (p s).lsui.adr
  bytes : ∀ n : Fin 4, getElem (p s).sel n.val n.isLt = true →
    getElem (p v).wpBsel n.val n.isLt = true

/-- The load makes a read-port transfer of its own, and all earlier I/O stores are completed
before it. -/
structure Served (a t : ℕ) : Prop where
  request : ∀ u, a ≤ u → u ≤ t → (p u).rpRd = true ∧ (p u).rpBsel = (p u).sel ∧
    wordOf (p u).rpAdr = wordOf (p a).lsui.adr
  wait : ∀ u, a ≤ u → u < t → (p u).rpo.portAck = false
  ack : (p t).rpo.portAck = true
  rdata : (p (t + 1)).rdata = formatRdata (p (t + 1)).lsui (p (t + 1)).rpo.portData
  earlier : ∀ s < a, IoStored io p s → ∃ v, s < v ∧ v < a ∧ Completes p s v

end Ports

-- ---------------------------------------------------------------------------
-- The word of a load
-- ---------------------------------------------------------------------------

section Buffer

variable {c : Config} {io : TWord → Bool} {adr : TWord} {ack : Bool} {r v : Registers}

theorem Absent.drains (h : Absent c adr r) (hd : Drains c ack r v) : Absent c adr v := by
  cases hd with
  | keep => exact h
  | shift =>
    intro j _ hv
    obtain ⟨hlt, hv', ha⟩ := shift_valid_ne hv
    rw [ha]
    exact h _ hlt hv'

theorem Ordered.adr_zero (ho : Ordered c io r) (hio : ∀ a b, wordOf a = wordOf b → io a = io b)
    (hadr : io adr = true) {j : ℕ} (hj : j < c.size) (hv : r.wbufValid j ≠ 0)
    (hw : wordOf (r.wbufAdr j) = wordOf adr) : j = 0 := by
  by_contra hne
  have hplain := ho.ioFirst j hj hne hv
  rw [hio _ _ hw, hadr] at hplain
  cases hplain

/-- Unless it is in flight, the word of an I/O address is not in the buffer, or leaves it. -/
theorem Ordered.absent (ho : Ordered c io r) (hio : ∀ a b, wordOf a = wordOf b → io a = io b)
    (hadr : io adr = true) (hno : ioPending io r = false) (hd : Drains c ack r v)
    (hshift : r.wbufDirty0 = false → v = r.shift c) : Absent c adr v := by
  cases hdirty : r.wbufDirty0 with
  | true =>
    refine Absent.drains (fun j hj hv hw => ?_) hd
    obtain rfl := ho.adr_zero hio hadr hj hv hw
    have hpending : ioPending io r = true := ioPending_iff.mpr ⟨hdirty, hio _ _ hw ▸ hadr, hv⟩
    rw [hno] at hpending
    cases hpending
  | false =>
    rw [hshift hdirty]
    intro j _ hv hw
    obtain ⟨hlt, hv', ha⟩ := shift_valid_ne hv
    rw [ha] at hw
    exact Nat.succ_ne_zero j (ho.adr_zero hio hadr hlt hv' hw)

end Buffer

-- ---------------------------------------------------------------------------
-- Either unit
-- ---------------------------------------------------------------------------

/-- What the argument needs of a unit with buffer `b`: how the buffer advances, and what the
ports show. `full` is the hit that serves all bytes, `err` the check of the alignment. -/
structure Connects (c : Config) (io : TWord → Bool) (err : LsuIn → Bool) (b : ℕ → Registers)
    (data : ℕ → TWord) (full taken : ℕ → Bool) (p : ℕ → PortCycle) : Prop where
  advances : Advances c io b (fun t => (p t).lsui.adr) data (fun t => (p t).sel)
    (fun t => (p t).wpAck) taken
  taken_iff : ∀ t, (∃ n : Fin 4, getElem (p t).sel n.val n.isLt = true) →
    (taken t = true ↔ (p t).lsui.wr = true ∧ (p t).ack = true)
  dirty0 : ∀ t, (p t).wpWr = true → (b t).wbufDirty0 = true
  wp : ∀ t, (b t).wbufDirty0 = true →
    (∃ n : Fin 4, getElem ((b t).wbufValid 0) n.val n.isLt = true) →
    (p t).wpWr = true ∧ (p t).wpAdr = (b t).wbufAdr 0 ∧ (p t).wpBsel = (b t).wbufValid 0
  load : ∀ t, (p t).lsui.rd = true → taken t = false ∧
    (p t).ack = (full t || (p t).rpo.portAck) ∧
    (p t).rpRd = (!full t && !err (p t).lsui) ∧ (p t).rpBsel = (p t).sel ∧
    wordOf (p t).rpAdr = wordOf (p t).lsui.adr ∧
    ((b t).wbufDirty0 = false → b (t + 1) = (b t).shift c)
  full_absent : ∀ t, Absent c (p t).lsui.adr (b t) → full t = false
  rdata_absent : ∀ t, Absent c (p t).lsui.adr (b t) →
    (p t).rdata = formatRdata (p t).lsui (p t).rpo.portData

section Connects

variable {c : Config} {io : TWord → Bool} {err : LsuIn → Bool} {b : ℕ → Registers}
  {data : ℕ → TWord} {full taken : ℕ → Bool} {p : ℕ → PortCycle} {a t : ℕ}

theorem Connects.drains (h : Connects c io err b data full taken p) (hrd : (p t).lsui.rd = true) :
    Drains c (p t).wpAck (b t) (b (t + 1)) := by
  have hadvance := h.advances.step t (h.advances.ordered t)
  rw [(h.load t hrd).1] at hadvance
  cases hadvance with
  | idle hd => exact hd

/-- After its first cycle the buffer holds no data for the load. -/
theorem Connects.absent (h : Connects c io err b data full taken p) (hl : IoLoad io p a t)
    (hno : ioPending io (b a) = false) {u : ℕ} (hau : a < u) (hut : u ≤ t + 1) :
    Absent c (p a).lsui.adr (b u) := by
  induction u, hau using Nat.le_induction with
  | base =>
    exact (h.advances.ordered a).absent h.advances.io_word hl.adr hno (h.drains hl.rd)
      (h.load a hl.rd).2.2.2.2.2
  | succ u hau ih =>
    have hheld := hl.held u (Nat.le_of_lt hau) (Nat.le_of_succ_le_succ hut)
    exact (ih (Nat.le_of_succ_le hut)).drains (h.drains (hheld ▸ hl.rd))

theorem Connects.completes (h : Connects c io err b data full taken p) {s v : ℕ}
    (hbytes : ∃ n : Fin 4, getElem (p s).sel n.val n.isLt = true)
    (hd : Done (b v) (p v).wpAck (wordOf (p s).lsui.adr) (p s).sel) : Completes p s v := by
  obtain ⟨hdirty, hack, hword, hlanes⟩ := hd
  obtain ⟨hwr, hadr, hsel⟩ := h.wp v hdirty (hbytes.imp hlanes)
  exact ⟨hwr, hack, hadr ▸ hword, hsel ▸ hlanes⟩

theorem Connects.served_iff (h : Connects c io err b data full taken p) (hl : IoLoad io p a t) :
    Served io p a t ↔
      err (p a).lsui = false ∧ ioPending io (b a) = false ∧ full a = false := by
  have hrd : ∀ u, a ≤ u → u ≤ t → (p u).lsui.rd = true := fun u hau hut => hl.held u hau hut ▸ hl.rd
  constructor
  · intro hs
    have hreq := (hs.request a (Nat.le_refl a) hl.le).1
    rw [(h.load a hl.rd).2.2.1, Bool.and_eq_true, Bool.not_eq_true', Bool.not_eq_true'] at hreq
    refine ⟨hreq.2, ?_, hreq.1⟩
    by_contra hpending
    obtain ⟨s, hsa, htaken, hadr, hne, hnone⟩ :=
      h.advances.taken_of_ioPending (by simpa using hpending)
    have hbytes := exists_lane hne
    obtain ⟨hwr, hack⟩ := (h.taken_iff s hbytes).mp htaken
    obtain ⟨v, hsv, hva, hdone⟩ := hs.earlier s hsa ⟨hwr, hack, hadr, hbytes⟩
    have hnow := hnone v hsv hva
    rw [h.dirty0 v hdone.wr, hdone.ack] at hnow
    cases hnow
  · rintro ⟨herr, hno, hfull⟩
    have hmiss : ∀ u, a ≤ u → u ≤ t → full u = false := by
      intro u hau hut
      rcases Nat.eq_or_lt_of_le hau with rfl | hlt
      · exact hfull
      · have habsent := h.absent hl hno hlt (Nat.le_succ_of_le hut)
        exact h.full_absent u ((hl.held u hau hut).symm ▸ habsent)
    have hack : ∀ u, a ≤ u → u ≤ t → (p u).rpo.portAck = (p u).ack := by
      intro u hau hut
      rw [(h.load u (hrd u hau hut)).2.1, hmiss u hau hut, Bool.false_or]
    refine ⟨fun u hau hut => ?_, fun u hau hut => ?_, ?_, ?_, fun s hsa hs => ?_⟩
    · obtain ⟨-, -, hreq, hsel, hword, -⟩ := h.load u (hrd u hau hut)
      rw [hmiss u hau hut, hl.held u hau hut, herr] at hreq
      exact ⟨hreq, hsel, hl.held u hau hut ▸ hword⟩
    · rw [hack u hau (Nat.le_of_lt hut)]
      exact hl.wait u hau hut
    · rw [hack t hl.le (Nat.le_refl t)]
      exact hl.ack
    · have habsent := h.absent hl hno (Nat.lt_succ_of_le hl.le) (Nat.le_refl _)
      exact h.rdata_absent (t + 1) (hl.after.symm ▸ habsent)
    · have htaken := (h.taken_iff s hs.bytes).mpr ⟨hs.wr, hs.ack⟩
      obtain ⟨v, hsv, hva, hdone⟩ := h.advances.io_done hsa htaken hs.bytes hs.adr hno
      exact ⟨v, hsv, hva, h.completes hs.bytes hdone⟩

end Connects

-- ---------------------------------------------------------------------------
-- `mlsu`
-- ---------------------------------------------------------------------------

def portCycle (c : Config) (r : Registers) (i : Input) : PortCycle where
  lsui := i.lsui
  sel := bsel i.lsui
  ack := (lsuo c r i.lsui i.rpo i.wpo).ack
  rdata := (lsuo c r i.lsui i.rpo i.wpo).rdata
  rpRd := (rpi c r i.lsui i.dcacheEnable).portRd
  rpBsel := (rpi c r i.lsui i.dcacheEnable).portBsel
  rpAdr := (rpi c r i.lsui i.dcacheEnable).portAdr
  rpo := i.rpo
  wpWr := (wpi c r i.lsui i.dcacheEnable).portWr
  wpBsel := (wpi c r i.lsui i.dcacheEnable).portBsel
  wpAdr := (wpi c r i.lsui i.dcacheEnable).portAdr
  wpAck := i.wpo.portAck

/-- The ports over a run. -/
def portRun (c : Config) (r : Registers) (i : ℕ → Input) (t : ℕ) : PortCycle :=
  portCycle c (bufferRun c r i t) (i t)

section Mlsu

variable {c : Config} {r : Registers} {lsui : LsuIn} {wpo : WriteportOut} {adr : TWord}

theorem Absent.findWbufHit (h : Absent c adr r) : findWbufHit c r adr = none := by
  cases hh : Lsu.findWbufHit c r adr with
  | none => rfl
  | some n =>
    obtain ⟨hn, hw, hv⟩ := findWbufHit_some hh
    exact absurd hw (h n hn hv)

/-- Without a store, what is not in flight is removed. -/
theorem next_shift (h1 : 1 < c.size) (hno : cacheOp lsui = false) (hwr : lsui.wr = false)
    (hd : r.wbufDirty0 = false) : next c r lsui wpo = r.shift c := by
  have hentry : wbufEntry c r lsui = ⟨c.size - 1, false, false⟩ := by
    rw [wbufEntry_of_noCache hno, storeEntry_idle hwr]
  have hremove : wbufRemove c r lsui wpo = true := by
    have hlast : c.size - 1 ≠ 0 := Nat.sub_ne_zero_of_lt h1
    simp [wbufRemove, wbufDontChange, hd, hentry, hlast]
  rw [(next_of_not_wr hno hwr).2, drained_of_remove hremove]

theorem wbufWrite_iff {rpo : ReadportOut} (hs : lsui.Single)
    (hbytes : ∃ n : Fin 4, getElem (bsel lsui) n.val n.isLt = true) :
    wbufWrite c r lsui wpo = true ↔ lsui.wr = true ∧ (lsuo c r lsui rpo wpo).ack = true := by
  constructor
  · intro hw
    have hno : cacheOp lsui = false := by
      by_contra hop
      have hop : cacheOp lsui = true := by simpa using hop
      obtain ⟨n, hn⟩ := hbytes
      simp [bsel, hop] at hn
    have hb := (wbufWrite_spec hw).1
    rw [wbufEntry_of_noCache hno] at hb
    exact ⟨storeEntry_wr hb, by simp only [lsuo, ack, hw, if_true]⟩
  · rintro ⟨hwr, hack⟩
    obtain ⟨hrd, hfl, hno⟩ := hs.store hwr
    rw [← hack]
    exact (ack_of_wr hno hrd hfl).symm

theorem connects (h1 : 1 < c.size) (hr : r.IsReset) {i : ℕ → Input}
    (hs : ∀ t, (i t).lsui.Single) :
    Connects c adrIsSpecial alignErr (bufferRun c r i) (fun t => wbdata c (i t).lsui)
      (fun t => fullHit c (bufferRun c r i t) (i t).lsui)
      (fun t => wbufWrite c (bufferRun c r i t) (i t).lsui (i t).wpo) (portRun c r i) where
  advances := advances h1 hr
  taken_iff t hbytes := wbufWrite_iff (hs t) hbytes
  dirty0 t hwr := by
    simp only [portRun, portCycle, wpi] at hwr
    split at hwr
    · cases hwr
    · exact hwr
  wp t hd hbytes := by
    have hflushed : isFlushed c (bufferRun c r i t) = false := by
      by_contra hf
      obtain ⟨n, hn⟩ := hbytes
      rw [isFlushed_iff.mp (by simpa using hf) 0 (Nat.lt_of_succ_lt h1)] at hn
      simp at hn
    refine ⟨?_, rfl, rfl⟩
    simp only [portRun, portCycle, wpi, hflushed, Bool.false_and, Bool.false_eq_true, if_false]
    exact hd
  load t hrd := by
    obtain ⟨hwr, hfl, hno⟩ := (hs t).load hrd
    refine ⟨(next_of_not_wr hno hwr).1, ack_of_rd hno hwr hfl hrd, ?_, rfl, rfl,
      next_shift h1 hno hwr⟩
    have hrd : (i t).lsui.rd = true := hrd
    simp only [portRun, portCycle, rpi, hrd, Bool.true_and]
  full_absent t h := by
    have hmiss : Lsu.findWbufHit c (bufferRun c r i t) (i t).lsui.adr = none := h.findWbufHit
    simp only [fullHit, hmiss]
  rdata_absent t h := by
    have hmiss : Lsu.findWbufHit c (bufferRun c r i t) (i t).lsui.adr = none := h.findWbufHit
    simp only [portRun, portCycle, lsuo, rdataWord, hmiss]

end Mlsu

end ParaNut.Lsu
