import ParaNut.Memu.CachedTags
import ParaNut.Memu.LineLock

/-!
# Uncached accesses

What is on the bus may be a device, so each direct access has to reach it once,
and nothing else may. A port has its access pending from its first cycle to the
acknowledge; the BusIf begins one Wishbone cycle for it, in the cycle after it
was idle and granted to the port.
-/

namespace ParaNut.Memu

/-- A run in which anything may be on the bus: it answers reads as it likes. -/
structure DeviceRun (c : Config) (st : ℕ → State) (i : ℕ → Input) : Prop where
  reset : IsReset c (st 0)
  steps : ∀ t, ∃ mem, st (t + 1) = { step c (st t) (i t) with mem := mem }
  holds : ∀ t, Holds c (st t) (i t) (i (t + 1))

/-- The Wishbone signals of a cycle. -/
def wb (c : Config) (s : State) (i : Input) : BusIf.Out := bifo c s (grants c s i)

section Statement

variable (c : Config) (st : ℕ → State) (i : ℕ → Input)

/-- In cycle `t`, port `n` asks for the direct access it first asked for in cycle `a`. -/
structure Pending (n a t : ℕ) : Prop where
  lt : n < idxBusif c
  le : a ≤ t
  asks : ∀ x, a ≤ x → x ≤ t → direct c (i x) n = true
  waits : ∀ x, a ≤ x → x < t → portAck c (st x) (i x) n = false
  first : ∀ x, x + 1 = a → direct c (i x) n = true → portAck c (st x) (i x) n = true

/-- The access is acknowledged in cycle `t`. -/
def Acked (n a t : ℕ) : Prop := Pending c st i n a t ∧ portAck c (st t) (i t) n = true

/-- The BusIf takes the access in cycle `k`, and begins a Wishbone cycle. -/
structure Begins (n a k : ℕ) : Prop where
  pending : Pending c st i n a k
  granted : (grants c (st k) (i k)).busif n = true
  free : (wb c (st k) (i k)).busifBusy = false
  strobe : (wb c (st (k + 1)) (i (k + 1))).stbO = true

/-- The Wishbone cycle that begins after `k` has not been acknowledged before cycle `e`. -/
def Lasts (k e : ℕ) : Prop := k < e ∧ ∀ x, k < x → x < e → (i x).ackI = false

/-- The bus shows the access port `n` asks for in `x`. -/
structure ShowsAccess (o : BusIf.Out) (x : Input) (n : ℕ) : Prop where
  stb : o.stbO = true
  we : o.weO = decide (wpOff c ≤ n)
  adr : o.adrO = portAdr c x n
  sel : o.selO = portBsel c x n
  dat : wpOff c ≤ n → o.datO = (x.wpi (n - wpOff c)).portData

/-- Each acknowledged direct access has had one Wishbone cycle, which shows it throughout, and a
read delivers what its cycle returned. Each cycle on the bus to an uncached address is part of the
Wishbone cycle of one direct access. -/
structure DirectOnce (uncached : TWord → Prop) : Prop where
  once : ∀ n a t, Acked c st i n a t → ∃ k < t, Begins c st i n a k ∧
    ∀ k', Begins c st i n a k' → k' = k
  shows : ∀ n a k, Begins c st i n a k → ∀ e, Lasts i k e →
    ShowsAccess c (wb c (st e) (i e)) (i a) n
  data : ∀ n a t, Acked c st i n a t → n < wpOff c → ∃ k e, Begins c st i n a k ∧ Lasts i k e ∧
    e < t ∧ (i e).ackI = true ∧ (rpo c (st (t + 1)) (i (t + 1)) n).portData =
      (st e).mem (wordNo (portAdr c (i a) n))
  owner : ∀ e, (wb c (st e) (i e)).stbO = true → uncached (wb c (st e) (i e)).adrO →
    ∃ n a k, (Begins c st i n a k ∧ Lasts i k e) ∧
      ∀ n' a' k', Begins c st i n' a' k' ∧ Lasts i k' e → n' = n ∧ a' = a ∧ k' = k

end Statement

-- ---------------------------------------------------------------------------
-- Units
-- ---------------------------------------------------------------------------

namespace ReadPort

variable {c : Config} {r : Registers} {i : In}

theorem directWait_acks (h : r.state = .directWaitBusif) (hhit : busifHit c i = true) :
    (comb c r i).1.state = .init ∧ (comb c r i).2.portAck = true := by
  simp [comb, h, hhit, defaults]

end ReadPort

namespace WritePort

variable {c : Config} {r : Registers} {i : In}

theorem direct_acks (h : r.state = .direct) (hb : i.busifBusy = true) :
    (comb c r i).2.portAck = true := by
  simp [comb, h, hb, defaults]

end WritePort

namespace BusIf

variable {c : Config} {r : Registers} {i : In}

theorem directRead1_stays (hs : r.state = .directRead1) (ha : i.ackI = false) :
    (comb c r i).1.state = .directRead1 := by
  simp [comb, hs, ha]

theorem directRead1_acked (hs : r.state = .directRead1) (ha : i.ackI = true) :
    (comb c r i).1.state = .directRead2 := by
  simp [comb, hs, ha]

theorem directWrite_stays (hs : r.state = .directWrite) (ha : i.ackI = false) :
    (comb c r i).1.state = .directWrite := by
  simp [comb, hs, ha]

/-- The bus is used right after the BusIf took a request only for a direct access. -/
theorem begins_next (h : (comb c r i).1.state = .directRead1 ∨ (comb c r i).1.state = .directWrite ∨
      (comb c r i).1.state = .cacheReplaceReadIdata ∨
      (comb c r i).1.state = .cacheWriteBackVictim)
    (hs : r.state = .idle ∨ r.state = .cacheAck) :
    r.state = .idle ∧ ((comb c r i).1.state = .directRead1 ∧ i.busifOp = .directRead ∨
      (comb c r i).1.state = .directWrite ∧ i.busifOp = .directWrite) := by
  rcases hs with hs | hs
  · revert h
    simp only [comb, hs, combIdle, latched]
    cases hop : i.busifOp <;> simp
    all_goals split <;> simp
  · rw [cacheAck_next hs] at h
    rcases h with h | h | h | h <;> cases h

end BusIf

theorem wb_stb {c : Config} {s : State} {i : Input} (h : (wb c s i).stbO = true) :
    s.busif.state = .directRead1 ∨ s.busif.state = .directWrite ∨
      s.busif.state = .cacheReplaceReadIdata ∨ s.busif.state = .cacheWriteBackVictim := by
  revert h
  rw [wb, bifo]
  cases hs : s.busif.state <;> simp [BusIf.comb, hs, BusIf.defaults]

theorem wb_busy {c : Config} {s : State} {i : Input}
    (h : s.busif.state = .directRead1 ∨ s.busif.state = .directRead2 ∨
      s.busif.state = .directWrite) : (wb c s i).busifBusy = true := by
  rw [wb, bifo]
  rcases h with h | h | h <;> simp [BusIf.comb, h, BusIf.defaults]

theorem shows_directRead {c : Config} {s : State} {i x : Input} {n : ℕ}
    (hs : s.busif.state = .directRead1) (hn : n < wpOff c) (hc : Carries c x n s.busif) :
    ShowsAccess c (wb c s i) x n where
  stb := by simp [wb, bifo, BusIf.comb, hs]
  we := by simpa [wb, bifo, BusIf.comb, hs, BusIf.defaults] using Nat.not_le.mpr hn
  adr := by simpa [wb, bifo, BusIf.comb, hs, BusIf.defaults] using hc.adr
  sel := by simpa [wb, bifo, BusIf.comb, hs, BusIf.defaults] using hc.bsel
  dat hle := absurd hn (Nat.not_lt.mpr hle)

theorem shows_directWrite {c : Config} {s : State} {i x : Input} {n : ℕ}
    (hs : s.busif.state = .directWrite) (hn : wpOff c ≤ n) (hc : Carries c x n s.busif) :
    ShowsAccess c (wb c s i) x n where
  stb := by simp [wb, bifo, BusIf.comb, hs]
  we := by simp [wb, bifo, BusIf.comb, hs, hn]
  adr := by simpa [wb, bifo, BusIf.comb, hs, BusIf.defaults] using hc.adr
  sel := by simpa [wb, bifo, BusIf.comb, hs, BusIf.defaults] using hc.bsel
  dat hle := by simpa [wb, bifo, BusIf.comb, hs, BusIf.defaults] using hc.odata hle

-- ---------------------------------------------------------------------------
-- Runs
-- ---------------------------------------------------------------------------

theorem CachedTags.withMem {c : Config} {cached : ℕ → Prop} {s : State} {i : Input}
    (h : CachedTags c cached s i) (mem : ℕ → TWord) :
    CachedTags c cached { s with mem := mem } i where
  exclusive := h.exclusive
  busif := h.busif
  requested := h.requested
  write := h.write
  ownsBusif := h.ownsBusif
  tagw := h.tagw
  apart := h.apart
  shows := h.shows
  rp := h.rp
  wp := h.wp
  fill := h.fill
  rpBusif := h.rpBusif
  reads := h.reads
  writes := h.writes
  tram := h.tram
  busifTag := h.busifTag
  uses := h.uses
  arrives := h.arrives
  bifArrives := h.bifArrives

section Run

variable {c : Config} {st : ℕ → State} {i : ℕ → Input} {cached : ℕ → Prop} {n n' a a' k k' t e : ℕ}

namespace DeviceRun

theorem busif (hr : DeviceRun c st i) (t : ℕ) :
    (st (t + 1)).busif = (step c (st t) (i t)).busif := by
  obtain ⟨mem, h⟩ := hr.steps t
  rw [h]

theorem rp (hr : DeviceRun c st i) (t p : ℕ) :
    (st (t + 1)).rp p = (step c (st t) (i t)).rp p := by
  obtain ⟨mem, h⟩ := hr.steps t
  rw [h]

theorem wp (hr : DeviceRun c st i) (t p : ℕ) :
    (st (t + 1)).wp p = (step c (st t) (i t)).wp p := by
  obtain ⟨mem, h⟩ := hr.steps t
  rw [h]

theorem cachedTags (hr : DeviceRun c st i)
    (ha : ∀ t, Apart c (fun a => ¬ cached (lineOf c a)) (i t)) (t : ℕ) :
    CachedTags c cached (st t) (i t) := by
  induction t with
  | zero => exact hr.reset.cachedTags (ha 0)
  | succ t ih =>
    obtain ⟨mem, h⟩ := hr.steps t
    rw [h]
    exact (ih.step (hr.holds t) (ha (t + 1))).withMem mem

/-- A port whose access is not acknowledged goes on asking for it. -/
theorem held (hr : DeviceRun c st i) (hn : n < idxBusif c) (hd : direct c (i t) n = true)
    (hack : portAck c (st t) (i t) n = false) : direct c (i (t + 1)) n = true ∧
      portAdr c (i (t + 1)) n = portAdr c (i t) n ∧ portBsel c (i (t + 1)) n = portBsel c (i t) n ∧
        (wpOff c ≤ n → (i (t + 1)).wpi (n - wpOff c) = (i t).wpi (n - wpOff c)) := by
  rcases port_kind hn with hp | ⟨p, hp, rfl⟩
  · rw [direct_rp hp] at hd ⊢
    rw [portAck_rp hp] at hack
    have hq := (hr.holds t).rp n hp (by simp_all) hack
    rw [portAdr_rp hp, portAdr_rp hp, portBsel_rp hp, portBsel_rp hp, hq]
    exact ⟨hd, rfl, rfl, fun hle => absurd hp (Nat.not_lt.mpr hle)⟩
  · rw [direct_wp] at hd ⊢
    rw [portAck_wp] at hack
    have hq := (hr.holds t).wp p hp (by simp_all [WritePort.requested]) hack
    rw [portAdr_wp, portAdr_wp, portBsel_wp, portBsel_wp, Nat.add_sub_cancel, hq]
    exact ⟨hd, rfl, rfl, fun _ => rfl⟩

end DeviceRun

namespace Pending

theorem next (hr : DeviceRun c st i) (h : Pending c st i n a t)
    (hack : portAck c (st t) (i t) n = false) : Pending c st i n a (t + 1) where
  lt := h.lt
  le := Nat.le_succ_of_le h.le
  asks x hx hxt := by
    rcases Nat.le_succ_iff.mp hxt with hle | rfl
    · exact h.asks x hx hle
    · exact (hr.held h.lt (h.asks t h.le (Nat.le_refl t)) hack).1
  waits x hx hxt := by
    rcases Nat.lt_succ_iff_lt_or_eq.mp hxt with hlt | rfl
    · exact h.waits x hx hlt
    · exact hack
  first := h.first

/-- While it is pending, the access stays the same. -/
theorem same (hr : DeviceRun c st i) (h : Pending c st i n a t) (hx : a ≤ k) (hk : k ≤ t) :
    portAdr c (i k) n = portAdr c (i a) n ∧ portBsel c (i k) n = portBsel c (i a) n ∧
      (wpOff c ≤ n → (i k).wpi (n - wpOff c) = (i a).wpi (n - wpOff c)) := by
  induction k, hx using Nat.le_induction with
  | base => exact ⟨rfl, rfl, fun _ => rfl⟩
  | succ k hak ih =>
    obtain ⟨hadr, hbsel, hdat⟩ := ih (Nat.le_of_succ_le hk)
    obtain ⟨-, hadr', hbsel', hdat'⟩ :=
      hr.held h.lt (h.asks k hak (Nat.le_of_succ_le hk)) (h.waits k hak hk)
    exact ⟨hadr'.trans hadr, hbsel'.trans hbsel, fun hn => (hdat' hn).trans (hdat hn)⟩

theorem carries (hr : DeviceRun c st i) (h : Pending c st i n a t) {r : BusIf.Registers}
    (hc : Carries c (i t) n r) : Carries c (i a) n r := by
  obtain ⟨hadr, hbsel, hdat⟩ := h.same hr h.le (Nat.le_refl t)
  exact ⟨hc.adr.trans hadr, hc.bsel.trans hbsel,
    fun hn => (hc.odata hn).trans (congrArg WriteportIn.portData (hdat hn))⟩

/-- An access that is pending has begun in one cycle. -/
theorem unique (h : Pending c st i n a t) (h' : Pending c st i n a' t) : a = a' := by
  have key : ∀ {a a'}, Pending c st i n a t → Pending c st i n a' t → ¬ a < a' := by
    intro a a' h h' hlt
    obtain ⟨x, rfl⟩ := Nat.exists_eq_succ_of_ne_zero (Nat.ne_zero_of_lt hlt)
    have hax : a ≤ x := Nat.le_of_lt_succ hlt
    have hack := h'.first x rfl (h.asks x hax (Nat.le_of_succ_le h'.le))
    rw [h.waits x hax h'.le] at hack
    cases hack
  exact Nat.le_antisymm (Nat.not_lt.mp (key h' h)) (Nat.not_lt.mp (key h h'))

theorem of_direct (hn : n < idxBusif c) (hd : direct c (i t) n = true) (hr : DeviceRun c st i) :
    ∃ a, Pending c st i n a t := by
  induction t with
  | zero =>
    refine ⟨0, hn, Nat.le_refl 0, fun x _ hx => ?_, fun x _ hx => ?_, fun x hx => ?_⟩
    · rwa [Nat.le_zero.mp hx]
    · exact absurd hx (Nat.not_lt_zero x)
    · exact absurd hx (Nat.succ_ne_zero x)
  | succ t ih =>
    by_cases hp : direct c (i t) n = true ∧ portAck c (st t) (i t) n = false
    · obtain ⟨a, ha⟩ := ih hp.1
      exact ⟨a, ha.next hr hp.2⟩
    · refine ⟨t + 1, hn, Nat.le_refl _, fun x hx hxt => ?_, fun x hx hxt => ?_, fun x hx hdx => ?_⟩
      · rwa [Nat.le_antisymm hxt hx]
      · exact absurd hxt (Nat.not_lt.mpr hx)
      · obtain rfl := Nat.succ.inj hx
        by_contra hack
        exact hp ⟨hdx, Bool.of_not_eq_true hack⟩

end Pending

/-- A Wishbone cycle lasts until it is acknowledged. -/
theorem lasts_or_acked (h : k < e) :
    Lasts i k e ∨ ∃ x < e, Lasts i k x ∧ (i x).ackI = true := by
  induction e, h using Nat.le_induction with
  | base => exact .inl ⟨Nat.lt_succ_self k, fun x hkx hx => absurd hx (Nat.not_lt.mpr hkx)⟩
  | succ e hke ih =>
    rcases ih with hl | ⟨x, hxe, hl, hack⟩
    · by_cases hack : (i e).ackI = true
      · exact .inr ⟨e, Nat.lt_succ_self e, hl, hack⟩
      · refine .inl ⟨Nat.lt_succ_of_lt hke, fun x hkx hxe => ?_⟩
        rcases Nat.lt_succ_iff_lt_or_eq.mp hxe with hlt | rfl
        · exact hl.2 x hkx hlt
        · exact Bool.of_not_eq_true hack
    · exact .inr ⟨x, Nat.lt_succ_of_lt hxe, hl, hack⟩

/-- A request for a direct access that the BusIf takes begins a Wishbone cycle. -/
theorem Begins.of_op (hr : DeviceRun c st i) (hd : CachedTags c cached (st k) (i k))
    (hs : (st k).busif.state = .idle)
    (hop : (bifIn c (st k) (i k) (grants c (st k) (i k))).busifOp = .directRead ∨
      (bifIn c (st k) (i k) (grants c (st k) (i k))).busifOp = .directWrite) :
    ∃ n a, Begins c st i n a k := by
  have hne : (bifIn c (st k) (i k) (grants c (st k) (i k))).busifOp ≠ .nothing := by
    rcases hop with h | h <;> rw [h] <;> exact nofun
  obtain ⟨n, hn, hg, hu⟩ := user_of_op hne
  have hdir : direct c (i k) n = true := by
    rw [(bifIn_of_user hu).1] at hop
    rcases port_kind hn with hp | ⟨p, hp, rfl⟩
    · rw [direct_rp hp]
      rw [portOp_rp hp] at hop
      have hop' := hop.resolve_right ReadPort.busifOp_ne_directWrite
      obtain ⟨hrd, hdr, -⟩ := ReadPort.directRead_spec hop' (hd.rp n hp)
      exact Bool.and_eq_true_iff.mpr ⟨hrd, hdr⟩
    · rw [direct_wp]
      rw [portOp_wp] at hop
      have hop' := hop.resolve_left WritePort.busifOp_ne_directRead
      obtain ⟨hwr, hdr, -⟩ := WritePort.directWrite_spec hop' (hd.wp p hp)
      exact Bool.and_eq_true_iff.mpr ⟨hwr, hdr⟩
  obtain ⟨a, ha⟩ := Pending.of_direct hn hdir hr
  refine ⟨n, a, ha, hg, ?_, ?_⟩
  · simp [wb, bifo, BusIf.comb, hs]
  · have hnext := hr.busif k
    rcases hop with hop | hop
    · have hs' := (BusIf.directRead_latched (c := c) hs hop).1
      rw [show (BusIf.comb c (st k).busif _).1 = _ from hnext.symm] at hs'
      simp [wb, bifo, BusIf.comb, hs']
    · have hs' := (BusIf.directWrite_latched (c := c) hs hop).1
      rw [show (BusIf.comb c (st k).busif _).1 = _ from hnext.symm] at hs'
      simp [wb, bifo, BusIf.comb, hs']

namespace Begins

/-- The BusIf takes the access that begins. -/
theorem taken (hr : DeviceRun c st i) (hd : CachedTags c cached (st k) (i k))
    (hb : Begins c st i n a k) : (st k).busif.state = .idle ∧
      Carries c (i a) n (st (k + 1)).busif ∧ portAck c (st k) (i k) n = false ∧
      (n < wpOff c ∧ (st (k + 1)).busif.state = .directRead1 ∧
          ((st (k + 1)).rp n).state = .directWaitBusif ∨
        ∃ p < c.wports, n = p + wpOff c ∧ (st (k + 1)).busif.state = .directWrite ∧
          ((st (k + 1)).wp p).state = .direct) := by
  have hstb := wb_stb hb.strobe
  rw [hr.busif] at hstb ⊢
  obtain ⟨hidle, hnext⟩ := BusIf.begins_next hstb (BusIf.idle_of_not_busy hb.free)
  have hu := busifUser_eq (exclusive_grants hd.exclusive) hb.pending.lt hb.granted
  refine ⟨hidle, ?_, ?_⟩
  · refine hb.pending.carries hr (carries_of_latched hidle hu ?_)
    rcases hnext with ⟨-, hop⟩ | ⟨-, hop⟩
    · exact (BusIf.directRead_latched hidle hop).2
    · exact (BusIf.directWrite_latched hidle hop).2
  rw [(bifIn_of_user hu).1] at hnext
  rcases port_kind hb.pending.lt with hp | ⟨p, hp, rfl⟩
  · rw [portOp_rp hp] at hnext
    rcases hnext with ⟨hs', hop⟩ | ⟨-, hop⟩
    swap
    · exact absurd hop ReadPort.busifOp_ne_directWrite
    obtain ⟨hwait, hack⟩ := (ReadPort.directRead_spec hop (hd.rp n hp)).2.2 hb.granted fun _ => by
      show ((st k).busif.idataValid _ && _) = false
      rw [hd.shows.none (.inl hidle), Bool.false_and]
    rw [portAck_rp hp, hr.rp]
    exact ⟨hack, .inl ⟨hp, hs', hwait⟩⟩
  · rw [portOp_wp] at hnext
    rcases hnext with ⟨-, hop⟩ | ⟨hs', hop⟩
    · exact absurd hop WritePort.busifOp_ne_directRead
    obtain ⟨hwait, hack⟩ := (WritePort.directWrite_spec hop (hd.wp p hp)).2.2 hb.granted hb.free
    rw [portAck_wp]
    refine ⟨hack, .inr ⟨p, hp, rfl, hs', ?_⟩⟩
    rw [hr.wp]
    exact hwait

/-- A read has the bus until it is acknowledged, while its port waits. -/
theorem reads (hr : DeviceRun c st i) (hd : ∀ t, CachedTags c cached (st t) (i t))
    (hb : Begins c st i n a k) (hn : n < wpOff c) (hl : Lasts i k e) :
    (st e).busif.state = .directRead1 ∧ ((st e).rp n).state = .directWaitBusif ∧
      Carries c (i a) n (st e).busif ∧ Pending c st i n a e := by
  obtain ⟨hke, hno⟩ := hl
  induction e, hke using Nat.le_induction with
  | base =>
    obtain ⟨-, hc, hack, ⟨-, hs, hw⟩ | ⟨p, -, rfl, -⟩⟩ := hb.taken hr (hd k)
    · exact ⟨hs, hw, hc, hb.pending.next hr hack⟩
    · exact absurd hn wp_not_lt
  | succ e hke ih =>
    obtain ⟨hs, hw, hc, hp⟩ := ih fun x hkx hxe => hno x hkx (Nat.lt_succ_of_lt hxe)
    have hackI := hno e hke (Nat.lt_succ_self e)
    have hhit : ReadPort.busifHit c (rpIn c (st e) (i e) (grants c (st e) (i e)) n) = false := by
      by_contra hhit
      have h2 := (hd e).read2_of_hit hn hw (Bool.of_not_eq_false hhit)
      rw [hs] at h2
      cases h2
    obtain ⟨hw', hack⟩ := ReadPort.directWait_waits (c := c) hw hhit
    have hs' : (step c (st e) (i e)).busif.state = .directRead1 :=
      BusIf.directRead1_stays hs hackI
    rw [hr.busif, hr.rp]
    refine ⟨hs', hw', ?_, hp.next hr ((portAck_rp hn).trans hack)⟩
    rcases BusIf.directRead1_next hs' with ⟨hidle, -⟩ | ⟨-, -, hadr, hbsel⟩
    · rw [hs] at hidle
      cases hidle
    · exact ⟨hadr.trans hc.adr, hbsel.trans hc.bsel, fun hle => absurd hn (Nat.not_lt.mpr hle)⟩

/-- A write has the bus until it is acknowledged. -/
theorem writes (hr : DeviceRun c st i) (hd : ∀ t, CachedTags c cached (st t) (i t))
    (hb : Begins c st i n a k) (hn : wpOff c ≤ n) (hl : Lasts i k e) :
    (st e).busif.state = .directWrite ∧ Carries c (i a) n (st e).busif := by
  obtain ⟨hke, hno⟩ := hl
  induction e, hke using Nat.le_induction with
  | base =>
    obtain ⟨-, hc, -, ⟨hlt, -⟩ | ⟨p, -, -, hs, -⟩⟩ := hb.taken hr (hd k)
    · exact absurd hlt (Nat.not_lt.mpr hn)
    · exact ⟨hs, hc⟩
  | succ e hke ih =>
    obtain ⟨hs, hc⟩ := ih fun x hkx hxe => hno x hkx (Nat.lt_succ_of_lt hxe)
    have hs' : (step c (st e) (i e)).busif.state = .directWrite :=
      BusIf.directWrite_stays hs (hno e hke (Nat.lt_succ_self e))
    rw [hr.busif]
    refine ⟨hs', ?_⟩
    rcases BusIf.directWrite_next hs' with ⟨hidle, -⟩ | ⟨-, -, hadr, hbsel, hodata⟩
    · rw [hs] at hidle
      cases hidle
    · refine ⟨hadr.trans hc.adr, hbsel.trans hc.bsel, fun hle => ?_⟩
      rw [show (step c (st e) (i e)).busif.adr = _ from hadr,
        show (step c (st e) (i e)).busif.odata = _ from hodata]
      exact hc.odata hle

theorem shows (hr : DeviceRun c st i) (hd : ∀ t, CachedTags c cached (st t) (i t))
    (hb : Begins c st i n a k) (hl : Lasts i k e) :
    ShowsAccess c (wb c (st e) (i e)) (i a) n := by
  rcases Nat.lt_or_ge n (wpOff c) with hn | hn
  · obtain ⟨hs, -, hc, -⟩ := hb.reads hr hd hn hl
    exact shows_directRead hs hn hc
  · obtain ⟨hs, hc⟩ := hb.writes hr hd hn hl
    exact shows_directWrite hs hn hc

theorem busy (hr : DeviceRun c st i) (hd : ∀ t, CachedTags c cached (st t) (i t))
    (hb : Begins c st i n a k) (hl : Lasts i k e) : (wb c (st e) (i e)).busifBusy = true := by
  rcases Nat.lt_or_ge n (wpOff c) with hn | hn
  · exact wb_busy (.inl (hb.reads hr hd hn hl).1)
  · exact wb_busy (.inr (.inr (hb.writes hr hd hn hl).1))

/-- The word that is returned is shown to the port. -/
theorem returned (hr : DeviceRun c st i) (hd : ∀ t, CachedTags c cached (st t) (i t))
    (hb : Begins c st i n a k) (hn : n < wpOff c) (hl : Lasts i k e) (hack : (i e).ackI = true) :
    (st (e + 1)).busif.state = .directRead2 ∧ ((st (e + 1)).rp n).state = .directWaitBusif ∧
      Pending c st i n a (e + 1) ∧
      (st (e + 1)).busif.idata (bankOf c (st (e + 1)).busif.adr) =
        (st e).mem (wordNo (portAdr c (i a) n)) := by
  obtain ⟨hs, hw, hc, hp⟩ := hb.reads hr hd hn hl
  have hs' : (step c (st e) (i e)).busif.state = .directRead2 := BusIf.directRead1_acked hs hack
  obtain ⟨-, -, hadr, -, hidata⟩ := BusIf.directRead2_next hs'
  have hhit : ReadPort.busifHit c (rpIn c (st e) (i e) (grants c (st e) (i e)) n) = false := by
    by_contra hhit
    have h2 := (hd e).read2_of_hit hn hw (Bool.of_not_eq_false hhit)
    rw [hs] at h2
    cases h2
  obtain ⟨hw', hno⟩ := ReadPort.directWait_waits (c := c) hw hhit
  rw [hr.busif, hr.rp]
  refine ⟨hs', hw', hp.next hr ((portAck_rp hn).trans hno), ?_⟩
  rw [show (step c (st e) (i e)).busif.adr = (st e).busif.adr from hadr, ← hc.adr]
  refine Eq.trans hidata ?_
  simp [bifIn, bifo, BusIf.comb, hs, BusIf.defaults]

/-- The port takes it at once. -/
theorem acked (hr : DeviceRun c st i) (hd : ∀ t, CachedTags c cached (st t) (i t))
    (hb : Begins c st i n a k) (hn : n < wpOff c) (hl : Lasts i k e) (hack : (i e).ackI = true) :
    portAck c (st (e + 1)) (i (e + 1)) n = true ∧ ((st (e + 2)).rp n).state = .init := by
  obtain ⟨hs, hw, -, -⟩ := hb.returned hr hd hn hl hack
  obtain ⟨p, hp, hwp, hc⟩ := (hd (e + 1)).reads (.inr hs)
  have hpn : p = n := (hd (e + 1)).exclusive.busif p (rp_lt_idx hp) n hb.pending.lt
    ((hd (e + 1)).rpBusif p hp hwp) ((hd (e + 1)).rpBusif n hn hw)
  have hhit := (hd (e + 1)).hit_of_read2 hs (hpn ▸ hc) hn
  obtain ⟨hinit, hacked⟩ := ReadPort.directWait_acks (c := c) hw hhit
  rw [hr.rp]
  exact ⟨(portAck_rp hn).trans hacked, hinit⟩

theorem delivers (hr : DeviceRun c st i) (hd : ∀ t, CachedTags c cached (st t) (i t))
    (hb : Begins c st i n a k) (hn : n < wpOff c) (hl : Lasts i k e) (hack : (i e).ackI = true) :
    (rpo c (st (e + 2)) (i (e + 2)) n).portData = (st e).mem (wordNo (portAdr c (i a) n)) := by
  obtain ⟨-, -, -, hidata⟩ := hb.returned hr hd hn hl hack
  have hinit := (hb.acked hr hd hn hl hack).2
  obtain ⟨mem, hst⟩ := hr.steps (e + 1)
  calc (rpo c (st (e + 2)) (i (e + 2)) n).portData
      = (st (e + 2)).rpBusifData := ReadPort.portData_init hinit
    _ = (st (e + 1)).busif.idata (bankOf c (st (e + 1)).busif.adr) := by rw [hst]; rfl
    _ = (st e).mem (wordNo (portAdr c (i a) n)) := hidata

/-- The BusIf is busy as long as the access for which it has begun is pending. -/
theorem served (hr : DeviceRun c st i) (hd : ∀ t, CachedTags c cached (st t) (i t))
    (hb : Begins c st i n a k) (hke : k < e) (hp : Pending c st i n a e) :
    (wb c (st e) (i e)).busifBusy = true := by
  rcases lasts_or_acked (i := i) hke with hl | ⟨x, hxe, hl, hack⟩
  · exact hb.busy hr hd hl
  rcases Nat.lt_or_ge n (wpOff c) with hn | hn
  · have hs := (hb.returned hr hd hn hl hack).1
    have hacked := (hb.acked hr hd hn hl hack).1
    rcases Nat.eq_or_lt_of_le (Nat.succ_le_of_lt hxe) with heq | hlt
    · rw [← heq]
      exact wb_busy (.inr (.inl hs))
    · rw [hp.waits _ (hb.pending.le.trans (Nat.le_succ_of_le hl.1.le)) hlt] at hacked
      cases hacked
  · obtain ⟨-, -, -, ⟨hlt, -⟩ | ⟨p, hpl, rfl, hs, hw⟩⟩ := hb.taken hr (hd k)
    · exact absurd hlt (Nat.not_lt.mpr hn)
    have hacked : portAck c (st (k + 1)) (i (k + 1)) (p + wpOff c) = true := by
      rw [portAck_wp]
      exact WritePort.direct_acks hw (wb_busy (.inr (.inr hs)))
    rw [hp.waits (k + 1) (Nat.le_succ_of_le hb.pending.le) (Nat.lt_of_le_of_lt hl.1 hxe)] at hacked
    cases hacked

/-- So it begins only once. -/
theorem unique (hr : DeviceRun c st i) (hd : ∀ t, CachedTags c cached (st t) (i t))
    (hb : Begins c st i n a k) (hb' : Begins c st i n a k') : k' = k := by
  rcases Nat.lt_trichotomy k k' with hlt | heq | hlt
  · have hbusy := hb.served hr hd hlt hb'.pending
    rw [hb'.free] at hbusy
    cases hbusy
  · exact heq.symm
  · have hbusy := hb'.served hr hd hlt hb.pending
    rw [hb.free] at hbusy
    cases hbusy

end Begins

/-- A direct access on the bus has begun. -/
theorem begins_of_direct (hr : DeviceRun c st i) (hd : ∀ t, CachedTags c cached (st t) (i t))
    (hs : (st e).busif.state = .directRead1 ∨ (st e).busif.state = .directWrite) :
    ∃ n a k, Begins c st i n a k ∧ Lasts i k e := by
  induction e with
  | zero =>
    rw [hr.reset.busif.1] at hs
    rcases hs with hs | hs <;> cases hs
  | succ e ih =>
    rw [hr.busif] at hs
    have hfirst : ∀ {n a}, Begins c st i n a e →
        ∃ n a k, Begins c st i n a k ∧ Lasts i k (e + 1) := fun hb =>
      ⟨_, _, e, hb, Nat.lt_succ_self e, fun x hex hx => absurd hx (Nat.not_lt.mpr hex)⟩
    have hlater : (i e).ackI = false →
        (st e).busif.state = .directRead1 ∨ (st e).busif.state = .directWrite →
        ∃ n a k, Begins c st i n a k ∧ Lasts i k (e + 1) := by
      intro hack hs
      obtain ⟨n, a, k, hb, hl⟩ := ih hs
      rcases lasts_or_acked (i := i) (Nat.lt_succ_of_lt hl.1) with hl' | ⟨x, hxe, hlx, hackx⟩
      · exact ⟨n, a, k, hb, hl'⟩
      · rcases Nat.lt_succ_iff_lt_or_eq.mp hxe with hlt | rfl
        · rw [hl.2 x hlx.1 hlt] at hackx
          cases hackx
        · rw [hack] at hackx
          cases hackx
    rcases hs with hs | hs
    · rcases BusIf.directRead1_next hs with ⟨hidle, hop, -⟩ | ⟨hs1, hack, -⟩
      · obtain ⟨n, a, hb⟩ := Begins.of_op hr (hd e) hidle (.inl hop)
        exact hfirst hb
      · exact hlater hack (.inl hs1)
    · rcases BusIf.directWrite_next hs with ⟨hidle, hop, -⟩ | ⟨hs1, hack, -⟩
      · obtain ⟨n, a, hb⟩ := Begins.of_op hr (hd e) hidle (.inr hop)
        exact hfirst hb
      · exact hlater hack (.inr hs1)

namespace Acked

/-- A read that is acknowledged has been read on the bus. -/
theorem read (hr : DeviceRun c st i) (hd : ∀ t, CachedTags c cached (st t) (i t))
    (h : Acked c st i n a t) (hn : n < wpOff c) :
    ∃ k e, Begins c st i n a k ∧ Lasts i k e ∧ (i e).ackI = true ∧ t = e + 1 := by
  obtain ⟨hp, hack⟩ := h
  have hdir := hp.asks t hp.le (Nat.le_refl t)
  rw [direct_rp hn, Bool.and_eq_true] at hdir
  rw [portAck_rp hn] at hack
  obtain ⟨hw, hhit, -⟩ := (ReadPort.direct_requests ((hd t).rp n hn) hdir.1 hdir.2).2 hack
  have hs := (hd t).read2_of_hit hn hw hhit
  cases t with
  | zero =>
    rw [hr.reset.busif.1] at hs
    cases hs
  | succ e =>
    rw [hr.busif] at hs
    obtain ⟨hs1, hackI, -⟩ := BusIf.directRead2_next hs
    obtain ⟨n', a', k, hb, hl⟩ := begins_of_direct hr hd (.inl hs1)
    have hn' : n' < wpOff c := by
      by_contra hge
      have hs' := (hb.writes hr hd (Nat.not_lt.mp hge) hl).1
      rw [hs1] at hs'
      cases hs'
    obtain ⟨-, hw', hp', -⟩ := hb.returned hr hd hn' hl hackI
    obtain rfl : n' = n := (hd (e + 1)).exclusive.busif n' hp'.lt n hp.lt
      ((hd (e + 1)).rpBusif n' hn' hw') ((hd (e + 1)).rpBusif n hn hw)
    obtain rfl := hp'.unique hp
    exact ⟨k, e, hb, hl, hackI, rfl⟩

/-- A write is acknowledged in the first cycle on the bus. -/
theorem write (hr : DeviceRun c st i) (hd : ∀ t, CachedTags c cached (st t) (i t))
    (h : Acked c st i n a t) (hn : wpOff c ≤ n) : ∃ k, Begins c st i n a k ∧ t = k + 1 := by
  obtain ⟨hp, hack⟩ := h
  rcases port_kind hp.lt with hlt | ⟨p, hpl, rfl⟩
  · exact absurd hlt (Nat.not_lt.mpr hn)
  have hdir := hp.asks t hp.le (Nat.le_refl t)
  rw [direct_wp, Bool.and_eq_true] at hdir
  rw [portAck_wp] at hack
  obtain ⟨hw, hbusy, -⟩ := (WritePort.direct_requests ((hd t).wp p hpl) hdir.1 hdir.2).2 hack
  cases t with
  | zero =>
    rw [(hr.reset.wp p hpl).1] at hw
    cases hw
  | succ k =>
    rw [hr.wp] at hw
    obtain ⟨hfree, hno, hreq, hop, hfrom⟩ := WritePort.direct_next hw
    have hg : (grants c (st k) (i k)).busif (p + wpOff c) = true := by
      rcases hfrom with hs | ⟨hg, -⟩
      · exact busif_kept ((hd k).ownsBusif p hpl (by rw [hs]; rfl)) hreq
      · exact hg
    have hu := busifUser_eq (exclusive_grants (hd k).exclusive) hp.lt hg
    have hbif : (bifIn c (st k) (i k) (grants c (st k) (i k))).busifOp = .directWrite := by
      rw [(bifIn_of_user hu).1, portOp_wp]
      exact hop
    rcases (hd (k + 1)).writes p hpl (by rw [hr.wp]; exact hw) with hs | ⟨hs, -⟩
    · have hidle : (wb c (st (k + 1)) (i (k + 1))).busifBusy = false := by
        simp [wb, bifo, BusIf.comb, hs]
      rw [show (wb c (st (k + 1)) (i (k + 1))).busifBusy = true from hbusy] at hidle
      cases hidle
    · rw [hr.busif] at hs
      have hs0 : (st k).busif.state = .idle := by
        rcases BusIf.directWrite_next hs with ⟨hidle, -⟩ | ⟨hs1, -⟩
        · exact hidle
        · rcases BusIf.idle_of_not_busy hfree with h1 | h1 <;> cases hs1.symm.trans h1
      obtain ⟨n', a', hb⟩ := Begins.of_op hr (hd k) hs0 (.inr hbif)
      have hu' := busifUser_eq (exclusive_grants (hd k).exclusive) hb.pending.lt hb.granted
      obtain rfl : p + wpOff c = n' := Option.some.inj (hu.symm.trans hu')
      have hp' := hb.pending.next hr (portAck_wp.trans hno)
      obtain rfl := hp'.unique hp
      exact ⟨k, hb, rfl⟩

end Acked

/-- The Wishbone cycle that lasts in `e` is that of one access. -/
theorem Begins.owner_unique (hr : DeviceRun c st i)
    (hd : ∀ t, CachedTags c cached (st t) (i t)) (hb : Begins c st i n a k) (hl : Lasts i k e)
    (hb' : Begins c st i n' a' k') (hl' : Lasts i k' e) : n' = n ∧ a' = a ∧ k' = k := by
  have hk : k' = k := by
    rcases Nat.lt_trichotomy k k' with hlt | heq | hlt
    · have hbusy := hb.busy hr hd ⟨hlt, fun x hkx hxk => hl.2 x hkx (hxk.trans hl'.1)⟩
      rw [hb'.free] at hbusy
      cases hbusy
    · exact heq.symm
    · have hbusy := hb'.busy hr hd ⟨hlt, fun x hkx hxk => hl'.2 x hkx (hxk.trans hl.1)⟩
      rw [hb.free] at hbusy
      cases hbusy
  subst hk
  obtain rfl : n' = n := (exclusive_grants (hd k').exclusive).busif n' hb'.pending.lt n
    hb.pending.lt hb'.granted hb.granted
  exact ⟨rfl, hb'.pending.unique hb.pending, rfl⟩

theorem directOnce_of_cachedTags (hr : DeviceRun c st i)
    (hd : ∀ t, CachedTags c cached (st t) (i t)) :
    DirectOnce c st i fun adr => ¬ cached (lineOf c adr) where
  once n a t h := by
    rcases Nat.lt_or_ge n (wpOff c) with hn | hn
    · obtain ⟨k, e, hb, hl, -, rfl⟩ := h.read hr hd hn
      exact ⟨k, Nat.lt_succ_of_lt hl.1, hb, fun k' hb' => hb.unique hr hd hb'⟩
    · obtain ⟨k, hb, rfl⟩ := h.write hr hd hn
      exact ⟨k, Nat.lt_succ_self k, hb, fun k' hb' => hb.unique hr hd hb'⟩
  shows n a k hb e hl := hb.shows hr hd hl
  data n a t h hn := by
    obtain ⟨k, e, hb, hl, hack, rfl⟩ := h.read hr hd hn
    exact ⟨k, e, hb, hl, Nat.lt_succ_self e, hack, hb.delivers hr hd hn hl hack⟩
  owner e hstb huncached := by
    have hs : (st e).busif.state = .directRead1 ∨ (st e).busif.state = .directWrite := by
      rcases (hd e).strobes hstb with hs | hs | hcached
      · exact .inl hs
      · exact .inr hs
      · exact absurd hcached huncached
    obtain ⟨n, a, k, hb, hl⟩ := begins_of_direct hr hd hs
    exact ⟨n, a, k, ⟨hb, hl⟩, fun _ _ _ h => hb.owner_unique hr hd hl h.1 h.2⟩

/-- Where no line has addresses of both kinds, uncached accesses happen exactly once. -/
theorem direct_once {uncached : TWord → Prop} (hr : DeviceRun c st i)
    (hline : ∀ a b, lineOf c a = lineOf c b → (uncached a ↔ uncached b))
    (ha : ∀ t, Apart c uncached (i t)) : DirectOnce c st i uncached := by
  have heq : uncached = fun adr => ¬ ∀ b, lineOf c b = lineOf c adr → ¬ uncached b := by
    funext adr
    refine propext ⟨fun h hno => hno adr rfl h, fun h => ?_⟩
    by_contra hadr
    exact h fun b hb hu => hadr ((hline b adr hb).mp hu)
  rw [heq] at ha ⊢
  have hd : ∀ t, CachedTags c (fun l => ∀ b, lineOf c b = l → ¬ uncached b) (st t) (i t) :=
    hr.cachedTags ha
  exact directOnce_of_cachedTags hr hd

end Run

theorem deviceRun_states {c : Config} {s : State} {i : ℕ → Input} (hr : IsReset c s)
    (hh : ∀ t, Holds c (states c s i t) (i t) (i (t + 1))) : DeviceRun c (states c s i) i :=
  ⟨hr, fun _ => ⟨_, rfl⟩, hh⟩

/-- The first read port reads; the bus acknowledges at once. -/
def readAt (adr : TWord) (isDirect : Bool) : Input :=
  { noRequest with rpi := fun p => ⟨p == 0, 15, isDirect, adr⟩, ackI := true }

theorem direct_once_read :
    DirectOnce twoCores (states twoCores quiet fun _ => readAt 4 true) (fun _ => readAt 4 true)
        (fun _ => True) ∧
      Acked twoCores (states twoCores quiet fun _ => readAt 4 true) (fun _ => readAt 4 true)
        0 0 2 := by
  have hr : DeviceRun twoCores (states twoCores quiet fun _ => readAt 4 true)
      (fun _ => readAt 4 true) :=
    deviceRun_states quiet_isReset fun t => ⟨fun _ _ _ _ => rfl, fun _ _ _ _ => rfl⟩
  refine ⟨direct_once hr (fun _ _ _ => Iff.rfl) fun t => ⟨fun _ _ _ => ?_, nofun⟩,
    ⟨by decide, Nat.zero_le 2, fun _ _ _ => rfl, fun x _ hx => ?_, nofun⟩, by decide +kernel⟩
  · exact ⟨fun _ => trivial, fun _ => rfl⟩
  · exact (by decide +kernel : ∀ x < 2, portAck twoCores
      (states twoCores quiet (fun _ => readAt 4 true) x) (readAt 4 true) 0 = false) x hx

/-- A cached read at 0 that is acknowledged in cycle 10, then direct reads at 4. -/
def mixedLine (t : ℕ) : Input := if t < 11 then readAt 0 false else readAt 4 true

theorem mixedLine_run : DeviceRun twoCores (states twoCores quiet mixedLine) mixedLine := by
  refine deviceRun_states quiet_isReset fun t => ⟨fun p hp h hack => ?_, fun p hp h _ => ?_⟩
  · rcases Nat.lt_trichotomy t 10 with ht | rfl | ht
    · simp [mixedLine, ht.trans, show t + 1 < 11 by omega]
    · obtain rfl : p = 0 := by simpa [mixedLine, readAt] using h
      exact absurd hack (by decide +kernel)
    · simp [mixedLine, show ¬ t < 11 by omega, show ¬ t + 1 < 11 by omega]
  · simp only [mixedLine] at h
    split at h <;> cases h

/-- The direct read at 4 takes the word from the line that is being filled, and never reaches the
bus, although no address is accessed in both ways. -/
theorem direct_once_mixedLine :
    ∃ (c : Config) (st : ℕ → State) (i : ℕ → Input) (uncached : TWord → Prop),
      DeviceRun c st i ∧ (∀ t, Apart c uncached (i t)) ∧ ¬ DirectOnce c st i uncached := by
  refine ⟨twoCores, states twoCores quiet mixedLine, mixedLine, fun adr => adr = 4,
    mixedLine_run, fun t => ⟨fun p _ h => ?_, fun p _ h => ?_⟩, fun h => ?_⟩
  · simp only [mixedLine]
    split <;> simp [readAt]
  · simp only [mixedLine] at h
    split at h <;> cases h
  · have hacked : Acked twoCores (states twoCores quiet mixedLine) mixedLine 0 11 12 := by
      refine ⟨⟨by decide, by decide, fun x hx _ => ?_, fun x hx hxt => ?_, fun x hx hd => ?_⟩,
        by decide +kernel⟩
      · rw [mixedLine, if_neg (Nat.not_lt.mpr hx)]
        rfl
      · obtain rfl : x = 11 := by omega
        decide +kernel
      · obtain rfl : x = 10 := by omega
        exact absurd hd (by decide)
    obtain ⟨k, hk, hb, -⟩ := h.once 0 11 12 hacked
    rcases Nat.lt_or_ge k 11 with hlt | hge
    · have hd := hb.pending.asks k hb.pending.le (Nat.le_refl k)
      rw [mixedLine, if_pos hlt] at hd
      cases hd
    · obtain rfl : k = 11 := by omega
      exact absurd hb.free (by decide +kernel)

end ParaNut.Memu
