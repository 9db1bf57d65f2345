import ParaNut.Memu.CachedTags
import ParaNut.Memu.OneWay

/-!
# Runs through the cache

If no access is direct and no cache-control operation is asked for, all the
BusIf does is to replace lines. Then a tag that a write port has read stays in
the tag RAM until the write is done, and each port is shown the tag of its own
address.
-/

namespace ParaNut.Memu

/-- All accesses of a cycle go through the cache. -/
structure Cached (c : Config) (i : Input) : Prop where
  read : ∀ p < c.rports, (i.rpi p).portRd = true → (i.rpi p).portDirect = false
  write : ∀ p < c.wports, (i.wpi p).portWr = true → (i.wpi p).portDirect = false
  control : ∀ p < c.wports, (i.wpi p).portWriteback = false ∧ (i.wpi p).portInvalidate = false

theorem Cached.apart {c : Config} {i : Input} (h : Cached c i) :
    Apart c (fun _ => ¬ True) i where
  read p hp hrd := by
    rw [h.read p hp hrd]
    exact ⟨nofun, fun hno => absurd trivial hno⟩
  write p hp hwr := by
    rw [h.write p hp hwr]
    exact ⟨nofun, fun hno => absurd trivial hno⟩

-- ---------------------------------------------------------------------------
-- Units
-- ---------------------------------------------------------------------------

namespace ReadPort

variable {c : Config} {r : Registers} {i : In}

theorem busifOp_cached (hs : r.state.asks i.rpi = true)
    (hc : i.rpi.portRd = true → i.rpi.portDirect = false) :
    (comb c r i).2.busifOp = .nothing ∨ (comb c r i).2.busifOp = .replace := by
  revert hs
  cases hst : r.state <;> simp only [comb, hst, defaults, newRequest, readHit, State.asks]
  all_goals
    repeat' split
    all_goals simp_all

/-- A port whose tag arrives has its request going on. -/
theorem tagArrives_waits (hs : r.state.asks i.rpi = true)
    (h : (comb c r i).1.state.tagArrives = true) :
    i.rpi.portRd = true ∧ (comb c r i).2.portAck = false := by
  revert hs h
  cases hst : r.state <;> simp only [comb, hst, defaults, newRequest, readHit, State.asks]
  all_goals
    repeat' split
    all_goals simp_all [State.tagArrives]

end ReadPort

namespace WritePort

variable {c : Config} {r : Registers} {i : In}

/-- The states of a write that does not go through the cache, or of a cache-control operation. -/
def State.aside : State → Bool
  | .direct | .specialRequestBusifOnly | .special | .specialWaitComplete => true
  | _ => false

theorem aside_of_asks {q : WriteportIn} (hs : r.state.asks q = true)
    (hc : q.portWr = true → q.portDirect = false)
    (hno : q.portWriteback = false ∧ q.portInvalidate = false) : r.state.aside = false := by
  revert hs
  cases hst : r.state <;> simp_all [State.asks, State.aside]

theorem busifOp_cached (hs : r.state.asks i.wpi = true)
    (hc : i.wpi.portWr = true → i.wpi.portDirect = false)
    (hno : i.wpi.portWriteback = false ∧ i.wpi.portInvalidate = false) :
    (comb c r i).2.busifOp = .nothing ∨ (comb c r i).2.busifOp = .replace := by
  have haside := aside_of_asks hs hc hno
  revert hs haside
  cases hst : r.state <;> simp only [comb, hst, defaults, combInit, State.asks, State.aside]
  all_goals
    repeat' split
    all_goals simp_all

/-- The states in which the tag of the port's line is asked for, read or used. -/
def State.holdsTag (st : State) : Bool := st.tagArrives || st.usesTag

theorem State.holdsTag_of_usesTag {st : State} (h : st.usesTag = true) : st.holdsTag = true := by
  rw [State.holdsTag, h, Bool.or_true]

theorem State.holdsTag_of_arrives {st : State} (h : st.tagArrives = true) :
    st.holdsTag = true := by
  rw [State.holdsTag, h, Bool.true_or]

end WritePort

namespace BusIf

variable {c : Config} {r : Registers} {i : In}

/-- The states of a direct access. -/
def State.atDirect : State → Bool
  | .directRead1 | .directRead2 | .directWrite => true
  | _ => false

theorem State.hasTag_of_writesTag {st : State} (h : st.writesTag = true) : st.hasTag = true := by
  cases st <;> simp_all [State.hasTag, State.usesTag, State.writesTag]

/-- Nothing but a replacement is taken up. -/
theorem replace_next (hop : r.state ≠ .idle → r.op = .replace) (hd : r.state.atDirect = false)
    (hi : i.busifOp = .nothing ∨ i.busifOp = .replace) :
    ((comb c r i).1.state ≠ .idle → (comb c r i).1.op = .replace) ∧
      (comb c r i).1.state.atDirect = false := by
  cases hs : r.state <;> simp only [hs] at hop hd
  case idle =>
    simp only [comb, hs, combIdle, latched]
    rcases hi with hi | hi <;> rw [hi]
    · exact ⟨fun h => absurd rfl h, rfl⟩
    · refine ⟨fun _ => rfl, ?_⟩
      dsimp only
      split <;> rfl
  case directRead1 | directRead2 | directWrite => cases hd
  all_goals
    simp only [comb, hs, tagWritten]
    repeat' split
    all_goals simp_all [State.atDirect]

end BusIf

-- ---------------------------------------------------------------------------
-- The memory unit
-- ---------------------------------------------------------------------------

/-- The invariant of runs through the cache: what the BusIf does, and whose tags are where. -/
structure CachedOnly (c : Config) (s : State) (i : Input) : Prop
    extends OneWay c s i, Serves c (fun _ => True) s i where
  cached : Cached c i
  op : s.busif.state ≠ .idle → s.busif.op = .replace
  noDirect : s.busif.state.atDirect = false
  rpTag : ∀ p < c.rports, (s.rp p).state.tagArrives = true → s.arb.gnt.tagr p = true ∧
    s.tram.iaddr (p % c.cores) = indexOf c (i.rpi p).portAdr ∧
    s.tram.taddr (p % c.cores) = tagOf c (i.rpi p).portAdr
  wpTag : ∀ p < c.wports, (s.wp p).state.tagArrives = true →
    s.tram.taddr p = tagOf c (i.wpi p).portAdr
  wpEntry : ∀ p < c.wports, (s.wp p).state.usesTag = true → (s.wp p).tag.way < c.ways ∧
    (s.tram.mem (indexOf c (i.wpi p).portAdr)).valid (s.wp p).tag.way = true ∧
    (s.tram.mem (indexOf c (i.wpi p).portAdr)).taddr (s.wp p).tag.way =
      tagOf c (i.wpi p).portAdr ∧ (s.wp p).tag.taddr = tagOf c (i.wpi p).portAdr

section Cycle

variable {c : Config} {s : State} {i i' : Input} {p q w : ℕ}

/-- The tag port of a read port that has a tag grant is at its address. -/
theorem tagRamIn_addr_rp (hx : Arbiter.Exclusive c (grants c s i)
      (fun p => indexOf c (i.wpi p).portAdr) (indexOf c s.busif.adr)) (hp : p < c.rports)
    (hg : (grants c s i).tagr p = true) :
    (tagRamIn c s i (grants c s i)).addr (p % c.cores) = (i.rpi p).portAdr := by
  have hidx := Nat.le_of_lt (rp_lt_idx hp)
  have hlt : p % c.cores < c.cores := Nat.mod_lt _ c.cores_pos
  have hport : Arbiter.tagPort c p = p % c.cores := if_neg (Nat.ne_of_lt (rp_lt_idx hp))
  have hno : ¬ (p % c.cores = c.cores - 1 ∧ ((grants c s i).tagr (idxBusif c) ||
      (grants c s i).tagw c.wports) = true) := by
    rintro ⟨hlast, hb⟩
    rw [Bool.or_eq_true] at hb
    rcases hb with hb | hb
    · refine Nat.ne_of_lt (rp_lt_idx hp) (hx.tagr _ hidx _ (Nat.le_refl _) hg hb ?_)
      rw [hport, hlast, Arbiter.tagPort, if_pos rfl]
    · exact hx.tagrw _ hidx _ (Nat.le_refl _) hg hb
  have hnowp : ¬ ((grants c s i).tagr (p % c.cores + wpOff c) ||
      (grants c s i).tagw (p % c.cores)) = true := by
    rw [Bool.or_eq_true]
    have hwp : p % c.cores + wpOff c < idxBusif c := wp_lt_idx hlt
    rintro (hw | hw)
    · have hwport : Arbiter.tagPort c (p % c.cores + wpOff c) = p % c.cores := by
        rw [Arbiter.tagPort, if_neg (Nat.ne_of_lt hwp), wpOff, Config.rports,
          Nat.add_mul_mod_self_right, Nat.mod_mod]
      have heq := hx.tagr _ hidx _ hwp.le hg hw (hport.trans hwport.symm)
      have hle : wpOff c ≤ p := heq ▸ Nat.le_add_left _ _
      exact Nat.not_lt.mpr hle hp
    · exact hx.tagrw _ hidx _ (Nat.le_of_lt hlt) hg hw
  simp only [tagRamIn]
  rw [if_neg hno, if_neg hnowp]
  rcases Nat.lt_or_ge p c.cores with hfirst | hge
  · rw [Nat.mod_eq_of_lt hfirst, if_pos hg]
  · have hsum : p % c.cores + c.cores = p := by
      rw [Config.rports] at hp
      rw [Nat.mod_eq_sub_mod hge, Nat.mod_eq_of_lt (by omega), Nat.sub_add_cancel hge]
    rw [if_neg, hsum]
    intro hdata
    have hdport : Arbiter.tagPort c (p % c.cores) = p % c.cores := by
      rw [Arbiter.tagPort, if_neg (by omega), Nat.mod_mod]
    have heq := hx.tagr _ hidx _ (by omega) hg hdata (hport.trans hdport.symm)
    omega

/-- While the BusIf replaces a line, no write port reads or uses a tag of that set. -/
theorem ReplaceLock.holdsTag_index (hd : ReplaceLock c s i) (hb : s.busif.state.hasTag = true)
    (hop : s.busif.op = .replace) (hp : p < c.wports) (hs : (s.wp p).state.holdsTag = true) :
    indexOf c (i.wpi p).portAdr ≠ indexOf c s.busif.adr := by
  cases hu : (s.wp p).state.usesTag with
  | true => exact hd.usesTag_index hb hop hp hu
  | false =>
    intro hidx
    have hlk : (s.wp p).state.writeLocked = true ∧ (s.wp p).state.replaces = false := by
      revert hs hu
      cases (s.wp p).state <;> simp [WritePort.State.holdsTag, WritePort.State.tagArrives,
        WritePort.State.usesTag, WritePort.State.writeLocked, WritePort.State.replaces]
    have hno := hlk.2
    rw [hd.replaces_of_index (BusIf.State.hasTag_working hb) hop hp hlk.1 hidx] at hno
    cases hno

namespace CachedOnly

/-- The BusIf is asked for replacements alone. -/
theorem busifOp (hd : CachedOnly c s i) : (bifIn c s i (grants c s i)).busifOp = .nothing ∨
    (bifIn c s i (grants c s i)).busifOp = .replace := by
  cases hu : busifUser c (grants c s i) with
  | none => exact .inl (by simp only [bifIn, hu])
  | some n =>
    obtain ⟨hn, -⟩ := busifUser_some hu
    rw [(bifIn_of_user hu).1]
    rcases port_kind hn with hp | ⟨p, hp, rfl⟩
    · rw [portOp_rp hp]
      exact ReadPort.busifOp_cached (hd.rp n hp) (hd.cached.read n hp)
    · rw [portOp_wp]
      exact WritePort.busifOp_cached (hd.wp p hp) (hd.cached.write p hp) (hd.cached.control p hp)

theorem aside (hd : CachedOnly c s i) (hp : p < c.wports) : (s.wp p).state.aside = false :=
  WritePort.aside_of_asks (hd.wp p hp) (hd.cached.write p hp) (hd.cached.control p hp)

theorem op_of_working (hd : CachedOnly c s i) (hw : s.busif.state.working = true) :
    s.busif.op = .replace := by
  refine hd.op fun hs => ?_
  rw [hs] at hw
  cases hw

theorem rpTag_step (hd : CachedOnly c s i) (hh : Holds c s i i') (hp : p < c.rports)
    (h : ((step c s i).rp p).state.tagArrives = true) : (grants c s i).tagr p = true ∧
      (step c s i).tram.iaddr (p % c.cores) = indexOf c (i'.rpi p).portAdr ∧
      (step c s i).tram.taddr (p % c.cores) = tagOf c (i'.rpi p).portAdr := by
  obtain ⟨hreq, hfrom⟩ := ReadPort.tagArrives_next h
  have hg : (grants c s i).tagr p = true := by
    rcases hfrom with hg | ha
    · exact hg
    · rw [tagr_eq]
      refine Arbiter.gntTagr_kept (hd.rpTag p hp ha).1 ?_
      have hne : p ≠ idxBusif c := Nat.ne_of_lt (rp_lt_idx hp)
      have hlt : ¬ wpOff c ≤ p := Nat.not_le.mpr hp
      simp only [requests, if_neg hne, if_neg hlt]
      exact hreq
  have hheld : i'.rpi p = i.rpi p :=
    have hwaits := ReadPort.tagArrives_waits (hd.rp p hp) h
    hh.rp p hp hwaits.1 hwaits.2
  have haddr := tagRamIn_addr_rp (exclusive_grants hd.exclusive) hp hg
  rw [hheld, ← haddr]
  exact ⟨hg, rfl, rfl⟩

theorem wpTag_step (hd : CachedOnly c s i) (hh : Holds c s i i') (hp : p < c.wports)
    (h : ((step c s i).wp p).state.tagArrives = true) :
    (step c s i).tram.taddr p = tagOf c (i'.wpi p).portAdr := by
  have hne : ((step c s i).wp p).state ≠ .init := by
    intro hs
    rw [hs] at h
    cases h
  obtain ⟨-, -, hg⟩ := WritePort.tagArrives_next h
  rw [(hd.held hh hp hne).2, ← tagRamIn_addr (exclusive_grants hd.exclusive) hp (.inl hg)]
  rfl

/-- A valid entry stays what it is, unless the BusIf writes it. -/
theorem entry_kept (hd : CachedOnly c s i) {a : ℕ} (hv : (s.tram.mem a).valid w = true)
    (hbif : BifSecond s → ¬ (indexOf c s.busif.adr = a ∧ s.busif.tag.way = w)) :
    ((step c s i).tram.mem a).valid w = true ∧
      ((step c s i).tram.mem a).taddr w = (s.tram.mem a).taddr w := by
  by_cases hq : ∃ q < c.wports, (s.wp q).state.secondTagWrite = true ∧
      indexOf c (i.wpi q).portAdr = a ∧ (s.wp q).tag.way = w
  · obtain ⟨q, hlt, hsec, rfl, rfl⟩ := hq
    have hu := WritePort.State.usesTag_of_second hsec
    obtain ⟨-, -, ht, htag⟩ := hd.wpEntry q hlt hu
    have hf := hd.fields_wp hlt hsec
    simp only [TagRam.Entry.fields, Prod.mk.injEq] at hf
    rw [hf.1, hf.2.2, htag, ht]
    exact ⟨hd.wpValid q hlt hu, rfl⟩
  · have hf := hd.fields_kept (a := a) (w := w) (fun q hlt hsec heq => hq ⟨q, hlt, hsec, heq⟩)
      hbif
    simp only [TagRam.Entry.fields, Prod.mk.injEq] at hf
    exact ⟨hf.1.trans hv, hf.2.2⟩

/-- An entry that is valid has been so, unless the BusIf has just brought it in. -/
theorem entry_back (hd : CachedOnly c s i) {a : ℕ} (hv : ((step c s i).tram.mem a).valid w = true) :
    (s.tram.mem a).valid w = true ∧
        ((step c s i).tram.mem a).taddr w = (s.tram.mem a).taddr w ∨
      BifSecond s ∧ s.busif.state = .cacheWriteTag ∧ indexOf c s.busif.adr = a ∧
        s.busif.tag.way = w := by
  by_cases hb : BifSecond s ∧ indexOf c s.busif.adr = a ∧ s.busif.tag.way = w
  · obtain ⟨hsec, rfl, rfl⟩ := hb
    have hf := hd.fields_busif hsec
    simp only [TagRam.Entry.fields, Prod.mk.injEq] at hf
    rw [hf.1] at hv
    have hs := hsec.1
    refine .inr ⟨hsec, ?_, rfl, rfl⟩
    revert hs hv
    rw [bifo]
    cases hs : s.busif.state <;> simp [BusIf.comb, hs, BusIf.State.writesTag]
  by_cases hq : ∃ q < c.wports, (s.wp q).state.secondTagWrite = true ∧
      indexOf c (i.wpi q).portAdr = a ∧ (s.wp q).tag.way = w
  · obtain ⟨q, hlt, hsec, rfl, rfl⟩ := hq
    obtain ⟨-, hvalid, ht, htag⟩ := hd.wpEntry q hlt (WritePort.State.usesTag_of_second hsec)
    have hf := hd.fields_wp hlt hsec
    simp only [TagRam.Entry.fields, Prod.mk.injEq] at hf
    rw [hf.2.2, htag, ht]
    exact .inl ⟨hvalid, rfl⟩
  · have hf := hd.fields_kept (a := a) (w := w) (fun q hlt hsec heq => hq ⟨q, hlt, hsec, heq⟩)
      fun hsec heq => hb ⟨hsec, heq⟩
    simp only [TagRam.Entry.fields, Prod.mk.injEq] at hf
    exact .inl ⟨hf.1.symm.trans hv, hf.2.2⟩

theorem wpEntry_step (hd : CachedOnly c s i) (hh : Holds c s i i') (hp : p < c.wports)
    (h : ((step c s i).wp p).state.usesTag = true) :
    ((step c s i).wp p).tag.way < c.ways ∧
      ((step c s i).tram.mem (indexOf c (i'.wpi p).portAdr)).valid ((step c s i).wp p).tag.way =
        true ∧
      ((step c s i).tram.mem (indexOf c (i'.wpi p).portAdr)).taddr ((step c s i).wp p).tag.way =
        tagOf c (i'.wpi p).portAdr ∧
      ((step c s i).wp p).tag.taddr = tagOf c (i'.wpi p).portAdr := by
  have hne : ((step c s i).wp p).state ≠ .init := by
    intro hs
    rw [hs] at h
    cases h
  have hbif : (s.wp p).state.holdsTag = true → ∀ w, BifSecond s →
      ¬ (indexOf c s.busif.adr = indexOf c (i.wpi p).portAdr ∧ s.busif.tag.way = w) :=
    fun hs w hsec heq => hd.toReplaceLock.holdsTag_index (BusIf.State.hasTag_of_writesTag hsec.1)
      (hd.op_of_working (BusIf.State.writesTag_working hsec.1)) hp hs heq.1.symm
  rw [(hd.held hh hp hne).2]
  rcases WritePort.usesTag_next h with ⟨hu, ht⟩ | ⟨ha, hv, ht⟩ <;>
    rw [show ((step c s i).wp p).tag = _ from ht]
  · obtain ⟨hlt, hvalid, htaddr, htag⟩ := hd.wpEntry p hp hu
    obtain ⟨hvalid', htaddr'⟩ :=
      hd.entry_kept hvalid (hbif (WritePort.State.holdsTag_of_usesTag hu) _)
    exact ⟨hlt, hvalid', htaddr'.trans htaddr, htag⟩
  · obtain ⟨hlt, hvalid, htaddr⟩ := TagRam.tagOut_hit (c := c) (r := s.tram) (p := p) hv
    rw [hd.consistent.rdata, hd.arrives p hp ha] at hvalid htaddr
    rw [hd.wpTag p hp ha] at htaddr
    obtain ⟨hvalid', htaddr'⟩ :=
      hd.entry_kept hvalid (hbif (WritePort.State.holdsTag_of_arrives ha) _)
    exact ⟨hlt, hvalid', htaddr'.trans htaddr, (TagRam.taddr_of_hit hv).trans (hd.wpTag p hp ha)⟩

protected theorem step (hd : CachedOnly c s i) (hh : Holds c s i i') (hc : Cached c i') :
    CachedOnly c (step c s i) i' :=
  { hd.toOneWay.step hh, hd.toServes.step hh hc.apart with
    cached := hc
    op := (BusIf.replace_next hd.op hd.noDirect hd.busifOp).1
    noDirect := (BusIf.replace_next hd.op hd.noDirect hd.busifOp).2
    rpTag := fun p hp h => by
      rw [arb_step]
      exact hd.rpTag_step hh hp h
    wpTag := fun _ hp h => hd.wpTag_step hh hp h
    wpEntry := fun _ hp h => hd.wpEntry_step hh hp h }

end CachedOnly

theorem IsReset.cachedOnly (h : IsReset c s) (hc : Cached c i) : CachedOnly c s i :=
  { h.oneWay, (h.serves hc.apart : Serves c (fun _ => True) s i) with
    cached := hc
    op := fun hs => absurd h.busif.1 hs
    noDirect := by
      rw [h.busif.1]
      rfl
    rpTag := fun p hp hs => by
      rw [h.rp p hp] at hs
      cases hs
    wpTag := fun p hp hs => by
      rw [(h.wp p hp).1] at hs
      cases hs
    wpEntry := fun p hp hs => by
      rw [(h.wp p hp).1] at hs
      cases hs }

end Cycle

end ParaNut.Memu
