import ParaNut.Lsu.Order

/-!
# The load/store unit without a write buffer (`mlsu_simple.vhd`)

It passes loads and stores through to the ports, and the ports' acknowledges
back. No branch acknowledges a flush or a cache operation, so an EXU that
makes one waits for ever. Up to the first of them both units acknowledge the
same requests with the same results.
-/

namespace ParaNut.Lsu

open Lib

namespace Simple

section Process

variable (c : Config) (lsui : LsuIn) (rpo : ReadportOut) (wpo : WriteportOut) (dcacheEnable : Bool)

def ack : Bool :=
  if lsui.rd then rpo.portAck else if lsui.wr then wpo.portAck else false

def lsuo : LsuOut where
  ack := ack lsui rpo wpo
  alignErr := alignErr lsui
  rdata := formatRdata lsui rpo.portData

def rpi : ReadportIn where
  portRd := lsui.rd && !alignErr lsui
  portBsel := bsel lsui
  portDirect := portDirect c dcacheEnable lsui.adr
  portAdr := lsui.adr

def wpi : WriteportIn where
  portWr := lsui.wr
  portDirect := portDirect c dcacheEnable lsui.adr
  portBsel := bsel lsui
  portRlinkWcond := false
  portWriteback := lsui.cacheWriteback
  portInvalidate := lsui.cacheInvalidate
  portAdr := lsui.adr
  portData := wbdata c lsui

end Process

/-- The unit has no registers: the memory, and what the read port delivers in this cycle. -/
structure Sys where
  mem : Mem
  portData : Option TWord

namespace Sys

variable (c : Config) (s : Sys) (i : Cycle)

def rpo : ReadportOut := ⟨i.rpAck, s.portData.getD i.noData⟩

def lsuo : LsuOut := Simple.lsuo i.lsui (s.rpo i) ⟨i.wpAck, i.wcondOk⟩

def rpi : ReadportIn := Simple.rpi c i.lsui i.dcacheEnable

def wpi : WriteportIn := Simple.wpi c i.lsui i.dcacheEnable

def step : Sys where
  mem := if i.wpAck then writeMem s.mem (wpi c i) else s.mem
  portData := if i.rpAck then some (s.mem (wordOf (rpi c i).portAdr)) else none

end Sys

def states (c : Config) (s : Sys) (i : ℕ → Cycle) : ℕ → Sys := run (Sys.step c) s i

end Simple

-- ---------------------------------------------------------------------------
-- Requests
-- ---------------------------------------------------------------------------

/-- An aligned load or store. -/
structure LsuIn.Access (lsui : LsuIn) : Prop extends lsui.Known where
  one : lsui.rd = !lsui.wr
  noFlush : lsui.flush = false

/-- A flush or a cache operation. -/
structure LsuIn.Control (lsui : LsuIn) : Prop where
  noRead : lsui.rd = false
  noWrite : lsui.wr = false
  one : lsui.flush = true ∨ cacheOp lsui = true

def LsuIn.active (lsui : LsuIn) : Bool := lsui.request || cacheOp lsui

section Requests

variable (q lsui : ℕ → LsuIn) (ack : ℕ → Bool)

/-- How many requests have been acknowledged before cycle `t`. -/
def served : ℕ → ℕ
  | 0 => 0
  | t + 1 => if (lsui t).active && ack t then served t + 1 else served t

/-- Request `k` is acknowledged in cycle `t`. -/
structure AckedAt (k t : ℕ) : Prop where
  active : (lsui t).active = true
  acked : ack t = true
  index : served lsui ack t = k

/-- The EXU makes the requests `q` one after the other and holds each until its acknowledge. -/
structure Presents : Prop where
  request : ∀ t, (lsui t).active = true → lsui t = q (served lsui ack t)
  held : ∀ t, (lsui t).active = true → ack t = false → lsui (t + 1) = lsui t
  idle : ∀ t, (lsui t).active = true → ack t = true → (lsui (t + 1)).active = false
  /-- after a load the address lines stay for the cycle in which the data arrives -/
  stays : ∀ t, (lsui t).rd = true → ack t = true → (lsui (t + 1)).adr = (lsui t).adr ∧
    (lsui (t + 1)).width = (lsui t).width ∧ (lsui (t + 1)).exts = (lsui t).exts

/-- The memory after the first `k` requests. -/
def PlainMem.after (m : PlainMem) : ℕ → PlainMem
  | 0 => m
  | k + 1 =>
    if (q k).wr then (PlainMem.after m k).store (q k).width (q k).adr (q k).wdata
    else PlainMem.after m k

end Requests

section Requests

variable {q lsui : ℕ → LsuIn} {ack : ℕ → Bool} {k t : ℕ}

theorem served_succ : served lsui ack (t + 1) =
    if (lsui t).active && ack t then served lsui ack t + 1 else served lsui ack t := rfl

theorem served_mono {u : ℕ} (h : t ≤ u) : served lsui ack t ≤ served lsui ack u := by
  induction u, h using Nat.le_induction with
  | base => exact Nat.le_refl _
  | succ u _ ih =>
    rw [served_succ]
    split
    · exact Nat.le_succ_of_le ih
    · exact ih

/-- Each request before the one at hand has been acknowledged. -/
theorem exists_ackedAt {j : ℕ} (h : j < served lsui ack t) :
    ∃ v < t, AckedAt lsui ack j v := by
  induction t with
  | zero => exact absurd h (Nat.not_lt_zero j)
  | succ t ih =>
    rw [served_succ] at h
    split at h
    · rename_i hack
      rw [Bool.and_eq_true] at hack
      rcases Nat.lt_succ_iff_lt_or_eq.mp h with hlt | heq
      · obtain ⟨v, hv, hacked⟩ := ih hlt
        exact ⟨v, Nat.lt_succ_of_lt hv, hacked⟩
      · exact ⟨t, Nat.lt_succ_self t, hack.1, hack.2, heq.symm⟩
    · obtain ⟨v, hv, hacked⟩ := ih h
      exact ⟨v, Nat.lt_succ_of_lt hv, hacked⟩

theorem AckedAt.request (hp : Presents q lsui ack) (h : AckedAt lsui ack k t) : lsui t = q k := by
  rw [hp.request t h.active, h.index]

/-- A request that is made stays until it is acknowledged. -/
theorem Presents.stays_active (hp : Presents q lsui ack) (ha : (lsui t).active = true) {u : ℕ}
    (htu : t ≤ u) (hno : ∀ v, t ≤ v → v < u → ack v = false) :
    lsui u = lsui t ∧ served lsui ack u = served lsui ack t := by
  induction u, htu using Nat.le_induction with
  | base => exact ⟨rfl, rfl⟩
  | succ u htu ih =>
    obtain ⟨hl, hs⟩ := ih fun v htv hvu => hno v htv (Nat.lt_succ_of_lt hvu)
    have hnack := hno u htu (Nat.lt_succ_self u)
    have hau : (lsui u).active = true := hl ▸ ha
    refine ⟨(hp.held u hau hnack).trans hl, ?_⟩
    rw [served_succ, hnack, Bool.and_false, if_neg Bool.false_ne_true, hs]

end Requests

-- ---------------------------------------------------------------------------
-- One cycle of `mlsu_simple`
-- ---------------------------------------------------------------------------

namespace Simple

variable {c : Config} {s : Sys} {i : Cycle} {m : PlainMem}

/-- Neither a flush nor a cache operation is ever acknowledged. -/
theorem ack_of_control {lsui : LsuIn} {rpo : ReadportOut} {wpo : WriteportOut}
    (h : lsui.Control) : ack lsui rpo wpo = false := by
  rw [ack, h.noRead, h.noWrite, if_neg Bool.false_ne_true, if_neg Bool.false_ne_true]

theorem ack_of_load {lsui : LsuIn} {rpo : ReadportOut} {wpo : WriteportOut}
    (hrd : lsui.rd = true) : ack lsui rpo wpo = rpo.portAck := by
  rw [ack, hrd, if_pos rfl]

theorem ack_of_store {lsui : LsuIn} {rpo : ReadportOut} {wpo : WriteportOut}
    (hrd : lsui.rd = false) (hwr : lsui.wr = true) : ack lsui rpo wpo = wpo.portAck := by
  rw [ack, hrd, hwr, if_neg Bool.false_ne_true, if_pos rfl]

/-- A store is in memory when it is acknowledged. -/
theorem step_store (hk : i.lsui.Known) (hack : i.wpAck = true)
    (h : ∀ a n, byte (s.mem a) n = m.contents a n) (a : WordAdr) (n : Fin 4) :
    byte ((s.step c i).mem a) n =
      (m.store i.lsui.width i.lsui.adr i.lsui.wdata).contents a n := by
  have hmem : (s.step c i).mem = writeMem s.mem (Sys.wpi c i) := if_pos hack
  rw [hk.contents_store c m, hmem, byte_writeMem, Contents.write, ← h a n]
  exact if_congr (and_congr_left' eq_comm) rfl rfl

/-- Without a store the write port writes no bytes. -/
theorem step_of_not_wr (hwr : i.lsui.wr = false)
    (hport : i.wpAck = true → (Sys.wpi c i).portWr = true ∨
      (Sys.wpi c i).portWriteback = true ∨ (Sys.wpi c i).portInvalidate = true)
    (a : WordAdr) (n : Fin 4) : byte ((s.step c i).mem a) n = byte (s.mem a) n := by
  cases hack : i.wpAck with
  | false =>
    have hmem : (s.step c i).mem = s.mem := if_neg (by rw [hack]; decide)
    rw [hmem]
  | true =>
    have hop : cacheOp i.lsui = true := by
      have hport := hport hack
      simp only [Sys.wpi, wpi, hwr, Bool.false_eq_true, false_or] at hport
      rw [cacheOp, Bool.or_eq_true]
      exact hport
    have hsel : (Sys.wpi c i).portBsel = 0 := by
      have hbsel : bsel i.lsui = 0 := by rw [bsel, hop, Bool.true_or, if_pos rfl]
      exact hbsel
    have hmem : (s.step c i).mem = writeMem s.mem (Sys.wpi c i) := if_pos hack
    rw [hmem, byte_writeMem, hsel, if_neg]
    rintro ⟨-, hn⟩
    simp at hn

-- ---------------------------------------------------------------------------
-- Runs of `mlsu_simple`
-- ---------------------------------------------------------------------------

/-- The EXU makes the requests `q`, and the ports acknowledge requests only. -/
structure Env (c : Config) (q : ℕ → LsuIn) (s : Sys) (i : ℕ → Cycle) : Prop where
  presents : Presents q (fun t => (i t).lsui) (fun t => ((states c s i t).lsuo (i t)).ack)
  rpAck : ∀ t, (i t).rpAck = true → (Sys.rpi c (i t)).portRd = true
  wpAck : ∀ t, (i t).wpAck = true → (Sys.wpi c (i t)).portWr = true ∨
    (Sys.wpi c (i t)).portWriteback = true ∨ (Sys.wpi c (i t)).portInvalidate = true

/-- No port leaves a request unanswered for ever. -/
def Fair (c : Config) (i : ℕ → Cycle) : Prop :=
  ∀ t, ∃ u ≥ t, ((Sys.rpi c (i u)).portRd = true → (i u).rpAck = true) ∧
    ((Sys.wpi c (i u)).portWr = true → (i u).wpAck = true)

section Runs

variable {q : ℕ → LsuIn} {i : ℕ → Cycle} {k t : ℕ}

/-- Request `k` is acknowledged in cycle `t`. -/
abbrev Acked (s : Sys) (c : Config) (i : ℕ → Cycle) (k t : ℕ) : Prop :=
  AckedAt (fun t => (i t).lsui) (fun t => ((states c s i t).lsuo (i t)).ack) k t

abbrev count (s : Sys) (c : Config) (i : ℕ → Cycle) (t : ℕ) : ℕ :=
  served (fun t => (i t).lsui) (fun t => ((states c s i t).lsuo (i t)).ack) t

theorem access_of_acked (hq : ∀ k, (q k).Access ∨ (q k).Control) (h : Env c q s i)
    (hack : Acked s c i k t) : (q k).Access := by
  rcases hq k with ha | hc
  · exact ha
  · have hlsui : (i t).lsui = q k := hack.request h.presents
    have hno : ((states c s i t).lsuo (i t)).ack = false := ack_of_control (hlsui ▸ hc)
    exact absurd (hno.symm.trans hack.acked) Bool.false_ne_true

/-- The memory holds what the acknowledged stores have written. -/
theorem mem_after (hq : ∀ k, (q k).Access ∨ (q k).Control) (h : Env c q s i) (t : ℕ)
    (a : WordAdr) (n : Fin 4) : byte ((states c s i t).mem a) n =
      (PlainMem.after q (PlainMem.ofMem s.mem) (count s c i t)).contents a n := by
  induction t generalizing a n with
  | zero => exact (ofMem_contents s.mem a n).symm
  | succ t ih =>
    have hstep : states c s i (t + 1) = (states c s i t).step c (i t) := rfl
    rw [hstep, count, served_succ]
    cases hwr : (i t).lsui.wr with
    | false =>
      rw [step_of_not_wr hwr (h.wpAck t), ih a n]
      split
      · rename_i hack
        rw [Bool.and_eq_true] at hack
        have hlsui : (i t).lsui = q (count s c i t) := h.presents.request t hack.1
        rw [PlainMem.after, ← hlsui, hwr, if_neg Bool.false_ne_true]
      · rfl
    | true =>
      have hact : (i t).lsui.active = true := by simp [LsuIn.active, LsuIn.request, hwr]
      have hlsui : (i t).lsui = q (count s c i t) := h.presents.request t hact
      have ha : (i t).lsui.Access := by
        rcases hq (count s c i t) with ha | hc
        · exact hlsui ▸ ha
        · exact absurd ((hlsui ▸ hc.noWrite).symm.trans hwr) Bool.false_ne_true
      have hrd : (i t).lsui.rd = false := by simpa [hwr] using ha.one
      have hack : ((states c s i t).lsuo (i t)).ack = (i t).wpAck := ack_of_store hrd hwr
      rw [hack, hact, Bool.true_and]
      cases hw : (i t).wpAck with
      | true =>
        rw [if_pos rfl, PlainMem.after, ← hlsui, hwr, if_pos rfl]
        exact step_store ha.toKnown hw ih a n
      | false =>
        have hmem : ((states c s i t).step c (i t)).mem = (states c s i t).mem :=
          if_neg (by rw [hw]; decide)
        rw [if_neg Bool.false_ne_true, hmem]
        exact ih a n

/-- A load returns what the requests before it have left in memory. -/
theorem rdata_of_acked (hq : ∀ k, (q k).Access ∨ (q k).Control) (h : Env c q s i)
    (hack : Acked s c i k t) (hrd : (q k).rd = true) :
    ((states c s i (t + 1)).lsuo (i (t + 1))).rdata =
      (PlainMem.after q (PlainMem.ofMem s.mem) k).load (q k).width (q k).exts (q k).adr := by
  have hlsui : (i t).lsui = q k := hack.request h.presents
  have hknown := (access_of_acked hq h hack).toKnown
  have hrd' : (i t).lsui.rd = true := hlsui ▸ hrd
  obtain ⟨hadr, hwidth, hexts⟩ := h.presents.stays t hrd' hack.acked
  have hrp : (i t).rpAck = true := by
    have hport : ((states c s i t).lsuo (i t)).ack = (i t).rpAck := ack_of_load hrd'
    exact hport ▸ hack.acked
  have hdata : ((states c s i (t + 1)).rpo (i (t + 1))).portData =
      (states c s i t).mem (wordOf (q k).adr) := by
    have hport : (states c s i (t + 1)).portData =
        some ((states c s i t).mem (wordOf (i t).lsui.adr)) := if_pos hrp
    rw [Sys.rpo, hport, hlsui]
    rfl
  have hformat : formatRdata (i (t + 1)).lsui = formatRdata (q k) := by
    funext w
    simp only [formatRdata, hadr, hwidth, hexts, hlsui]
  have hmem := mem_after hq h t (wordOf (q k).adr)
  rw [show count s c i t = k from hack.index] at hmem
  have hrdata : ((states c s i (t + 1)).lsuo (i (t + 1))).rdata =
      formatRdata (i (t + 1)).lsui ((states c s i (t + 1)).rpo (i (t + 1))).portData := rfl
  rw [hrdata, hdata, hformat]
  exact hknown.formatRdata _ fun n _ => hmem n

/-- An access is acknowledged once it is made. -/
theorem exists_acked (h : Env c q s i) (hf : Fair c i) (hk : (q k).Access)
    (hact : (i t).lsui.active = true) (hcount : count s c i t = k) :
    ∃ u, Acked s c i k u := by
  classical
  have hlsui : (i t).lsui = q k := hcount ▸ h.presents.request t hact
  by_contra hno
  have hnack : ∀ u ≥ t, (i u).lsui = q k ∧ count s c i u = k ∧
      ((states c s i u).lsuo (i u)).ack = false := by
    intro u
    induction u using Nat.strong_induction_on with
    | h u ih =>
      intro htu
      obtain ⟨hl, hc⟩ := h.presents.stays_active hact htu fun v htv hvu => (ih v hvu htv).2.2
      refine ⟨hl.trans hlsui, hc.trans hcount, ?_⟩
      by_contra hack
      have hact' : (i u).lsui.active = true := hl ▸ hact
      exact hno ⟨u, hact', by simpa using hack, hc.trans hcount⟩
  obtain ⟨u, htu, hrp, hwp⟩ := hf t
  obtain ⟨hl, -, hack⟩ := hnack u htu
  have ha : (i u).lsui.Access := hl ▸ hk
  cases hrd : (i u).lsui.rd with
  | true =>
    have hport : ((states c s i u).lsuo (i u)).ack = (i u).rpAck := ack_of_load hrd
    have herr : alignErr (i u).lsui = false := by rw [alignErr, ha.aligned, Bool.false_and]
    have hreq : (Sys.rpi c (i u)).portRd = true := by simp [Sys.rpi, rpi, hrd, herr]
    exact absurd ((hport ▸ hack).symm.trans (hrp hreq)) Bool.false_ne_true
  | false =>
    have hwr : (i u).lsui.wr = true := by simpa [hrd] using ha.one
    have hport : ((states c s i u).lsuo (i u)).ack = (i u).wpAck := ack_of_store hrd hwr
    exact absurd ((hport ▸ hack).symm.trans (hwp hwr)) Bool.false_ne_true

end Runs

end Simple

-- ---------------------------------------------------------------------------
-- Runs of `mlsu`
-- ---------------------------------------------------------------------------

/-- The same environment around `mlsu`. -/
structure BufferEnv (c : Config) (q : ℕ → LsuIn) (s : Sys) (i : ℕ → Cycle) : Prop where
  presents : Presents q (fun t => (i t).lsui) (fun t => ((states c s i t).lsuo c (i t)).ack)
  rpAck : ∀ t, (i t).rpAck = true → ((states c s i t).rpi c (i t)).portRd = true
  wpAck : ∀ t, (i t).wpAck = true → ((states c s i t).wpi c (i t)).portWr = true ∨
    ((states c s i t).wpi c (i t)).portWriteback = true ∨
      ((states c s i t).wpi c (i t)).portInvalidate = true

section Runs

variable {c : Config} {q : ℕ → LsuIn} {s : Sys} {i : ℕ → Cycle} {k t : ℕ}

/-- Request `k` is acknowledged in cycle `t`. -/
abbrev Acked (s : Sys) (c : Config) (i : ℕ → Cycle) (k t : ℕ) : Prop :=
  AckedAt (fun t => (i t).lsui) (fun t => ((states c s i t).lsuo c (i t)).ack) k t

abbrev count (s : Sys) (c : Config) (i : ℕ → Cycle) (t : ℕ) : ℕ :=
  served (fun t => (i t).lsui) (fun t => ((states c s i t).lsuo c (i t)).ack) t

theorem count_succ : count s c i (t + 1) =
    if (i t).lsui.active && ((states c s i t).lsuo c (i t)).ack then count s c i t + 1
    else count s c i t := rfl

/-- Only requests are acknowledged. -/
theorem active_of_ack {r : Registers} {lsui : LsuIn} {rpo : ReadportOut} {wpo : WriteportOut}
    (hack : ack c r lsui rpo wpo = true) : lsui.active = true := by
  by_contra hna
  simp only [LsuIn.active, LsuIn.request, Bool.not_eq_true, Bool.or_eq_false_iff] at hna
  obtain ⟨⟨⟨hrd, hwr⟩, hfl⟩, hc⟩ := hna
  have hw : wbufWrite c r lsui wpo = false := (next_of_not_wr hc hwr).1
  simp [ack, hw, hrd, hfl, hc] at hack

/-- What one cycle asks for when all requests so far are loads and stores. -/
theorem access_or_idle (h : BufferEnv c q s i) (hq : (q (count s c i t)).Access) :
    (i t).lsui.Access ∨ (i t).lsui.active = false := by
  cases hact : (i t).lsui.active with
  | false => exact .inr rfl
  | true =>
    have hlsui : (i t).lsui = q (count s c i t) := h.presents.request t hact
    exact .inl (hlsui ▸ hq)

theorem noCacheOp_of {lsui : LsuIn} (h : lsui.Access ∨ lsui.active = false) :
    cacheOp lsui = false := by
  rcases h with ha | hna
  · exact ha.noCache
  · rw [LsuIn.active, Bool.or_eq_false_iff] at hna
    exact hna.2

theorem wpAck_dirty (h : BufferEnv c q s i) (hkind : (i t).lsui.Access ∨ (i t).lsui.active = false)
    (hw : (i t).wpAck = true) : (states c s i t).r.wbufDirty0 = true := by
  have hport := h.wpAck t hw
  have hc := noCacheOp_of hkind
  simp only [Sys.wpi, wpi, hc, Bool.and_false, Bool.false_eq_true, if_false] at hport
  rw [cacheOp, Bool.or_eq_false_iff] at hc
  simpa only [hc, Bool.false_eq_true, or_false] using hport

/-- The acknowledged requests are those that are committed. -/
theorem commit_after (h : BufferEnv c q s i) (m : PlainMem) :
    (states c s i t).commit c (i t) (PlainMem.after q m (count s c i t)) =
      PlainMem.after q m (count s c i (t + 1)) := by
  rw [Sys.commit, count_succ]
  cases hact : (i t).lsui.active with
  | false =>
    have hwr : (i t).lsui.wr = false := by
      simp only [LsuIn.active, LsuIn.request, Bool.or_eq_false_iff] at hact
      exact hact.1.1.2
    rw [hwr, Bool.false_and, if_neg Bool.false_ne_true, if_neg Bool.false_ne_true]
  | true =>
    have hlsui : (i t).lsui = q (count s c i t) := h.presents.request t hact
    cases hack : ((states c s i t).lsuo c (i t)).ack with
    | false => rw [Bool.and_false, Bool.and_false, if_neg Bool.false_ne_true, if_neg Bool.false_ne_true]
    | true =>
      rw [Bool.and_true, Bool.true_and, if_pos rfl, PlainMem.after, hlsui]

theorem states_consistent_of (h1 : 1 < c.size) (hr : s.r.IsReset) (h : BufferEnv c q s i)
    (hq : ∀ j ≤ count s c i t, (q j).Access) :
    Consistent c (states c s i t) (i t).lsui
        (PlainMem.after q (PlainMem.ofMem s.mem) (count s c i t)) ∧
      Ordered c adrIsSpecial (states c s i t).r := by
  induction t with
  | zero => exact ⟨consistent_reset hr _, ordered_reset hr⟩
  | succ t ih =>
    have hmono : count s c i t ≤ count s c i (t + 1) := served_mono (Nat.le_succ t)
    obtain ⟨hcons, hord⟩ := ih fun j hj => hq j (Nat.le_trans hj hmono)
    have hkind := access_or_idle h (hq _ hmono)
    have hc := noCacheOp_of hkind
    have haccess : (i t).lsui.request = true → (i t).lsui.Access := fun hreq =>
      hkind.resolve_right fun hna => by
        rw [LsuIn.active, hreq, Bool.true_or] at hna
        cases hna
    have hstore : (i t).lsui.wr = true → (i t).lsui.Access := fun hwr =>
      haccess (by simp [LsuIn.request, hwr])
    obtain ⟨hu, hsh, hwr⟩ := step_shows h1 hc (fun hwr => (hstore hwr).toKnown)
      (slot_of_ordered h1 hord)
      (fun hwr => ⟨by simpa [hwr] using (hstore hwr).one, (hstore hwr).noFlush⟩)
      (wpAck_dirty h hkind) hcons
    rw [commit_after h] at hsh
    have hin := step_inFlight h1 hc
      (fun hrd => by
        have ha := haccess (by simp [LsuIn.request, hrd])
        exact ⟨by simpa [hrd] using ha.one, ha.noFlush⟩)
      (fun hreq hnack => h.presents.held t (by rw [LsuIn.active, hreq]; rfl) hnack)
      (fun hack => (Bool.or_eq_false_iff.mp (h.presents.idle t (active_of_ack hack) hack)).1)
    exact ⟨⟨hu, hsh, hwr, hin⟩,
      hord.advance special_of_word (next_advance h1 hord (i t).lsui _)⟩

/-- Up to the first flush or cache operation, a load returns what the requests before it have
stored. -/
theorem rdata_of_acked (h1 : 1 < c.size) (hr : s.r.IsReset) (h : BufferEnv c q s i)
    (hq : ∀ j ≤ k, (q j).Access) (hack : Acked s c i k t) (hrd : (q k).rd = true) :
    ((states c s i (t + 1)).lsuo c (i (t + 1))).rdata =
      (PlainMem.after q (PlainMem.ofMem s.mem) k).load (q k).width (q k).exts (q k).adr := by
  have hlsui : (i t).lsui = q k := hack.request h.presents
  have hk := hq k (Nat.le_refl k)
  have hcount : count s c i t = k := hack.index
  have hcons := (states_consistent_of h1 hr h (t := t) (by rw [hcount]; exact hq)).1
  have hwp : (i t).wpAck = true → (states c s i t).r.wbufDirty0 = true :=
    wpAck_dirty h (.inl (hlsui ▸ hk))
  have hrd' : (i t).lsui.rd = true := hlsui ▸ hrd
  obtain ⟨hadr, hwidth, hexts⟩ := h.presents.stays t hrd' hack.acked
  have hwr : (i t).lsui.wr = false := by
    rw [hlsui]
    simpa [hrd] using hk.one
  have hc' := (Bool.or_eq_false_iff.mp (h.presents.idle t hack.active hack.acked)).2
  rw [hcount] at hcons
  rw [← hlsui]
  exact step_rdata h1 (hlsui ▸ hk.noCache) hrd' hwr (hlsui ▸ hk.noFlush) (hlsui ▸ hk.toKnown) hc'
    hwp hcons hack.acked hadr hwidth hexts

end Runs

-- ---------------------------------------------------------------------------
-- Both units
-- ---------------------------------------------------------------------------

/-- All requests up to one that is acknowledged are acknowledged. -/
theorem ackedAt_le {lsui : ℕ → LsuIn} {ack : ℕ → Bool} {k t : ℕ} (h : AckedAt lsui ack k t)
    {j : ℕ} (hj : j ≤ k) : ∃ v, AckedAt lsui ack j v := by
  rcases Nat.lt_or_eq_of_le hj with hlt | rfl
  · obtain ⟨v, -, hv⟩ := exists_ackedAt (h.index.symm ▸ hlt)
    exact ⟨v, hv⟩
  · exact ⟨t, h⟩

theorem served_idle {lsui : ℕ → LsuIn} {ack : ℕ → Bool} {u v : ℕ} (huv : u ≤ v)
    (hno : ∀ w, u ≤ w → w < v → (lsui w).active = false) :
    served lsui ack v = served lsui ack u := by
  induction v, huv using Nat.le_induction with
  | base => rfl
  | succ v huv ih =>
    rw [served_succ, hno v huv (Nat.lt_succ_self v), Bool.false_and, if_neg Bool.false_ne_true]
    exact ih fun w huw hwv => hno w huw (Nat.lt_succ_of_lt hwv)

/-- The request at hand does not change before the next one is made. -/
theorem exists_active {lsui : ℕ → LsuIn} {ack : ℕ → Bool} {u : ℕ}
    (h : ∃ v ≥ u, (lsui v).active = true) :
    ∃ v, (lsui v).active = true ∧ served lsui ack v = served lsui ack u := by
  classical
  obtain ⟨huv, hact⟩ := Nat.find_spec h
  refine ⟨Nat.find h, hact, served_idle huv fun w huw hwv => ?_⟩
  by_contra hactive
  exact Nat.find_min h hwv ⟨huw, by simpa using hactive⟩

section Both

variable {c : Config} {q : ℕ → LsuIn} {s : Sys} {i : ℕ → Cycle} {s' : Simple.Sys}
  {i' : ℕ → Cycle}

/-- `mlsu_simple` acknowledges what `mlsu` acknowledges, and returns the same data, if and only
if `mlsu` is asked for loads and stores only. -/
theorem simple_dropIn (h1 : 2 ≤ c.size) (hr : s.r.IsReset)
    (hq : ∀ k, (q k).Access ∨ (q k).Control) (h : BufferEnv c q s i) (h' : Simple.Env c q s' i')
    (hf : Simple.Fair c i') (hmem : s'.mem = s.mem)
    (hnext : ∀ k t, Acked s c i k t → ∀ u, Simple.count s' c i' u = k →
      ∃ v ≥ u, (i' v).lsui.active = true) :
    ((∀ k t, Acked s c i k t → ∃ u, Simple.Acked s' c i' k u) ∧
      ∀ k t u, Acked s c i k t → Simple.Acked s' c i' k u → (q k).rd = true →
        ((Simple.states c s' i' (u + 1)).lsuo (i' (u + 1))).rdata =
          ((states c s i (t + 1)).lsuo c (i (t + 1))).rdata) ↔
    ∀ k t, Acked s c i k t → (q k).Access := by
  constructor
  · rintro ⟨hall, -⟩ k t hack
    obtain ⟨u, hu⟩ := hall k t hack
    exact Simple.access_of_acked hq h' hu
  · intro hall
    have hbelow : ∀ k t, Acked s c i k t → ∀ j ≤ k, (q j).Access := by
      intro k t hack j hj
      obtain ⟨v, hv⟩ := ackedAt_le hack hj
      exact hall j v hv
    refine ⟨fun k => ?_, fun k t u hack hack' hrd => ?_⟩
    · induction k with
      | zero =>
        intro t hack
        obtain ⟨v, hact, hv⟩ := exists_active (hnext 0 t hack 0 rfl)
        exact Simple.exists_acked h' hf (hall 0 t hack) hact hv
      | succ k ih =>
        intro t hack
        obtain ⟨v, hv⟩ := ackedAt_le hack (Nat.le_succ k)
        obtain ⟨u, hu⟩ := ih v hv
        have hcount : Simple.count s' c i' (u + 1) = k + 1 := by
          rw [Simple.count, served_succ, hu.active, hu.acked, Bool.and_self, if_pos rfl, hu.index]
        obtain ⟨w, hact, hw⟩ := exists_active (hnext (k + 1) t hack (u + 1) hcount)
        exact Simple.exists_acked h' hf (hall (k + 1) t hack) hact (hw.trans hcount)
    · rw [Simple.rdata_of_acked hq h' hack' hrd, hmem,
        rdata_of_acked h1 hr h (hbelow k t hack) hack hrd]

end Both

def noRequest : LsuIn := ⟨false, false, false, false, false, 0, false, 4, 7⟩

def flushRequest : LsuIn := { noRequest with flush := true }

def storeRequest : LsuIn := { noRequest with wr := true }

def loadRequest : LsuIn := { noRequest with rd := true }

/-- The ports do not acknowledge. -/
def silent (lsui : LsuIn) : Cycle := ⟨lsui, false, false, false, 0, true⟩

def flushOnce : ℕ → Cycle
  | 0 => silent flushRequest
  | _ => silent noRequest

theorem flushOnce_env : BufferEnv twoEntries (fun _ => flushRequest) emptySys flushOnce := by
  refine ⟨⟨?_, ?_, ?_, ?_⟩, ?_, ?_⟩ <;> rintro (_ | t)
  all_goals first | decide | nofun

/-- After reset `mlsu` acknowledges a flush at once, and `mlsu_simple` never does. -/
theorem simple_flush_hangs :
    BufferEnv twoEntries (fun _ => flushRequest) emptySys flushOnce ∧
    Acked emptySys twoEntries flushOnce 0 0 ∧
    Simple.Env twoEntries (fun _ => flushRequest) ⟨emptySys.mem, none⟩
      (fun _ => silent flushRequest) ∧
    Simple.Fair twoEntries (fun _ => silent flushRequest) ∧
    ∀ u, ¬ Simple.Acked ⟨emptySys.mem, none⟩ twoEntries (fun _ => silent flushRequest) 0 u :=
  ⟨flushOnce_env, ⟨by decide, by decide, rfl⟩,
    ⟨⟨fun _ _ => rfl, fun _ _ _ => rfl, nofun, nofun⟩, nofun, nofun⟩,
    fun t => ⟨t, Nat.le_refl t, nofun, nofun⟩, fun _ hack => absurd hack.acked Bool.false_ne_true⟩

/-- A store and a load from the same address; `mlsu_simple` waits for the ports. -/
def storeLoad : ℕ → Cycle
  | 0 => silent storeRequest
  | 2 => silent loadRequest
  | _ => silent noRequest

def storeLoadWaits : ℕ → Cycle
  | 0 => silent storeRequest
  | 1 => { silent storeRequest with wpAck := true }
  | 3 => { silent loadRequest with rpAck := true }
  | _ => silent noRequest

def storeLoadRequests (k : ℕ) : LsuIn := if k = 0 then storeRequest else loadRequest

theorem storeLoad_env : BufferEnv twoEntries storeLoadRequests emptySys storeLoad := by
  refine ⟨⟨?_, ?_, ?_, ?_⟩, ?_, ?_⟩ <;> rintro (_ | _ | _ | t)
  all_goals first | decide | nofun

theorem storeLoadWaits_env :
    Simple.Env twoEntries storeLoadRequests ⟨emptySys.mem, none⟩ storeLoadWaits := by
  refine ⟨⟨?_, ?_, ?_, ?_⟩, ?_, ?_⟩ <;> rintro (_ | _ | _ | _ | t)
  all_goals first | decide | nofun

theorem storeLoadRequests_access (k : ℕ) : (storeLoadRequests k).Access := by
  rw [storeLoadRequests]
  split
  · exact ⟨⟨by decide, rfl, rfl⟩, rfl, rfl⟩
  · exact ⟨⟨by decide, rfl, rfl⟩, rfl, rfl⟩

theorem storeLoad_acked {k t : ℕ} (h : Acked emptySys twoEntries storeLoad k t) : k < 2 := by
  obtain ⟨hact, -, rfl⟩ := h
  rcases t with _ | _ | _ | t
  · decide
  · cases hact
  · decide
  · cases hact

theorem storeLoadWaits_next {u : ℕ}
    (h : Simple.count ⟨emptySys.mem, none⟩ twoEntries storeLoadWaits u < 2) :
    ∃ v ≥ u, (storeLoadWaits v).lsui.active = true := by
  rcases Nat.lt_or_ge u 4 with hlt | hge
  · exact ⟨if u ≤ 1 then 1 else 3, by split <;> omega, by split <;> decide⟩
  · have hidle : ∀ w, 4 ≤ w → w < u → (storeLoadWaits w).lsui.active = false := by
      intro w hw _
      obtain ⟨w, rfl⟩ := Nat.exists_eq_add_of_le' hw
      rfl
    rw [Simple.count, served_idle hge hidle] at h
    exact absurd h (by decide)

theorem simple_dropIn_storeLoad :
    ((Simple.states twoEntries ⟨emptySys.mem, none⟩ storeLoadWaits 4).lsuo
        (storeLoadWaits 4)).rdata =
      ((states twoEntries emptySys storeLoad 3).lsuo twoEntries (storeLoad 3)).rdata :=
  ((simple_dropIn (by decide) ⟨fun _ => rfl, rfl⟩ (fun k => .inl (storeLoadRequests_access k))
      storeLoad_env storeLoadWaits_env (fun t => ⟨t + 4, Nat.le_add_right t 4, nofun, nofun⟩) rfl
      fun _ _ hack _ hu => storeLoadWaits_next (hu ▸ storeLoad_acked hack)).mpr
    fun k _ _ => storeLoadRequests_access k).2 1 2 3 ⟨by decide, by decide, by decide⟩
      ⟨by decide, by decide, by decide⟩ rfl

end ParaNut.Lsu
