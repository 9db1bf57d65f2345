import ParaNut.Lsu.Entries

/-!
# A load/store unit on a memory that others use, too

What the memory contains may have the write of entry 0 before the write port
acknowledges it. In words that only this unit writes, the buffer over what the
memory contains is a plain memory.
-/

namespace ParaNut.Lsu

open Lib

/-- Word `a` after the write of entry 0, if `k` says that there was one. -/
def landed (r : Registers) (k : Bool) (a : WordAdr) (w : TWord) : TWord :=
  if k = true ∧ wordOf (r.wbufAdr 0) = a then merge (r.wbufValid 0) w (r.wbufData 0) else w

theorem landed_false (r : Registers) (a : WordAdr) (w : TWord) : landed r false a w = w :=
  if_neg (by simp)

theorem landed_landed (r : Registers) (k k' : Bool) (a : WordAdr) (w : TWord) :
    landed r k a (landed r k' a w) = landed r (k || k') a w := by
  by_cases ha : wordOf (r.wbufAdr 0) = a
  · cases k <;> cases k' <;> simp only [landed, ha, and_true, Bool.false_eq_true, if_false, if_true,
      Bool.or_true, Bool.or_false]
    exact merge_absorb fun n hn => by simp [hn]
  · simp [landed, ha]

theorem writeMem_eq_landed (c : Config) (r : Registers) (lsui : LsuIn) (dcache k : Bool)
    (mem : Mem) (a : WordAdr) :
    (if k then writeMem mem (wpi c r lsui dcache) else mem) a = landed r k a (mem a) := by
  cases k with
  | false => exact (landed_false r a _).symm
  | true => simp only [landed, if_true, true_and, writeMem, wpi, eq_comm]

/-- What the unit is asked for in two cycles in a row: plain accesses, one at a time, that are held
until the acknowledge. -/
structure Asked (c : Config) (r : Registers) (rpo : ReadportOut) (wpo : WriteportOut)
    (lsui lsui' : LsuIn) : Prop where
  noCache : cacheOp lsui = false
  noCache' : cacheOp lsui' = false
  access : lsui.rd = true ∨ lsui.wr = true → lsui.Plain
  rdOnly : lsui.rd = true → lsui.wr = false ∧ lsui.flush = false
  wrOnly : lsui.wr = true → lsui.flush = false
  held : lsui.request = true → (lsuo c r lsui rpo wpo).ack = false → lsui' = lsui
  idle : (lsuo c r lsui rpo wpo).ack = true → lsui'.request = false
  stays : lsui.rd = true → (lsuo c r lsui rpo wpo).ack = true →
    lsui'.adr = lsui.adr ∧ lsui'.width = lsui.width ∧ lsui'.exts = lsui.exts

/-- What the memory does in a cycle: in region `W` it takes the writes of this unit alone. `owes`
says that entry 0 is written and yet to be acknowledged, `data'` is delivered in the next cycle. -/
structure Answers (r : Registers) (lsui : LsuIn) (rpAck wpAck : Bool) (W : WordAdr → Prop)
    (view view' : Mem) (owes owes' : Bool) (data' : TWord) : Prop where
  dirty : owes = true → r.wbufDirty0 = true
  write : ∃ w, (w = true → r.wbufDirty0 = true) ∧ (wpAck = true → w = true ∨ owes = true) ∧
    owes' = (!wpAck && (w || owes)) ∧ ∀ a, W a → view' a = landed r w a (view a)
  read : rpAck = true → W (wordOf lsui.adr) →
    data' = view (wordOf lsui.adr) ∨ data' = view' (wordOf lsui.adr)

/-- In region `W` the unit sees the plain memory `m`. -/
def Sees (c : Config) (r : Registers) (lsui : LsuIn) (W : WordAdr → Prop) (owes : Bool)
    (view : Mem) (m : PlainMem) : Prop :=
  ∃ mem m', Consistent c ⟨r, mem, none⟩ lsui m' ∧
    ∀ a, W a → view a = landed r owes a (mem a) ∧ ∀ n, m'.contents a n = m.contents a n

/-- A plain memory after an eventual store that is acknowledged. -/
def committed (lsui : LsuIn) (ack : Bool) (m : PlainMem) : PlainMem :=
  if lsui.wr && ack then m.store lsui.width lsui.adr lsui.wdata else m

section Cycle

variable {c : Config} {r : Registers} {rpo : ReadportOut} {wpo : WriteportOut}
  {lsui lsui' : LsuIn} {W : WordAdr → Prop} {view view' mem : Mem} {owes owes' : Bool}
  {data' : TWord} {m m' : PlainMem}

theorem Asked.known (h : Asked c r rpo wpo lsui lsui') (ha : lsui.rd = true ∨ lsui.wr = true) :
    lsui.Known :=
  (h.access ha).known

theorem Asked.wr_alone (h : Asked c r rpo wpo lsui lsui') (hw : lsui.wr = true) :
    lsui.rd = false ∧ lsui.flush = false := by
  refine ⟨Bool.eq_false_of_not_eq_true fun hrd => ?_, h.wrOnly hw⟩
  rw [(h.rdOnly hrd).1] at hw
  cases hw

theorem Answers.ack_dirty (h : Answers r lsui rpo.portAck wpo.portAck W view view' owes owes' data')
    (hack : wpo.portAck = true) : r.wbufDirty0 = true := by
  obtain ⟨w, hw, hacked, -⟩ := h.write
  exact (hacked hack).elim hw h.dirty

/-- What stands in memory and what is on its way follow the acknowledges of the write port. -/
theorem Answers.landed_step
    (h : Answers r lsui rpo.portAck wpo.portAck W view view' owes owes' data')
    (hc : cacheOp lsui = false) {a : WordAdr} (ha : W a) (hview : view a = landed r owes a (mem a)) :
    view' a = landed (next c r lsui wpo) owes' a (landed r wpo.portAck a (mem a)) := by
  obtain ⟨w, hdirty, hacked, howes, hstep⟩ := h.write
  rw [hstep a ha, hview, landed_landed, howes]
  cases hack : wpo.portAck with
  | true =>
    rw [(Bool.or_eq_true ..).mpr (hacked hack), Bool.not_true, Bool.false_and, landed_false]
  | false =>
    rw [landed_false, Bool.not_false, Bool.true_and]
    cases hk : (w || owes) with
    | false => rw [landed_false, landed_false]
    | true =>
      have hd : r.wbufDirty0 = true := ((Bool.or_eq_true ..).mp hk).elim hdirty h.dirty
      obtain ⟨-, ha, hdata, hv⟩ := entry_zero_kept (c := c) hd hack (.inl hc)
      simp only [landed, ha, hdata, hv]

/-- The cycle for a unit that has the memory for itself. -/
def alone (lsui : LsuIn) (rpAck : Bool) (wpo : WriteportOut) (noData : TWord) : Cycle :=
  ⟨lsui, rpAck, wpo.portAck, wpo.portWcondOk, noData, true⟩

theorem consistent_step (hs : 2 ≤ c.size) (h : Asked c r rpo wpo lsui lsui')
    (hd : wpo.portAck = true → r.wbufDirty0 = true)
    (hc : Consistent c ⟨r, mem, none⟩ lsui m') :
    Consistent c ⟨next c r lsui wpo, fun a => landed r wpo.portAck a (mem a), none⟩ lsui'
      (committed lsui (lsuo c r lsui rpo wpo).ack m') := by
  obtain ⟨hu, hsh, hwr⟩ := step_shows (i := alone lsui rpo.portAck wpo 0) hs h.noCache
    (fun hw => h.known (.inr hw))
    (fun hw => (slot_of_wbufWrite (Nat.lt_of_succ_lt hs) hc.unique h.noCache
      (h.access (.inr (wr_of_wbufWrite h.noCache hw))).notSpecial hw).2)
    h.wr_alone hd hc
  have hmem : (Sys.step c ⟨r, mem, none⟩ (alone lsui rpo.portAck wpo 0)).mem =
      fun a => landed r wpo.portAck a (mem a) := by
    funext a
    exact writeMem_eq_landed ..
  rw [hmem] at hsh hwr
  exact ⟨hu, hsh, hwr, step_inFlight (s := ⟨r, mem, none⟩) (i := alone lsui rpo.portAck wpo 0) hs
    h.noCache h.rdOnly h.held h.idle⟩

theorem committed_contents (h : Asked c r rpo wpo lsui lsui') {ack : Bool} {a : WordAdr}
    (heq : ∀ n, m'.contents a n = m.contents a n) (n : Fin 4) :
    (committed lsui ack m').contents a n = (committed lsui ack m).contents a n := by
  unfold committed
  split
  · rename_i hw
    rw [Bool.and_eq_true] at hw
    have hknown := h.known (.inr hw.1)
    rw [hknown.contents_store c, hknown.contents_store c]
    simp only [Contents.write]
    split
    · rfl
    · exact heq n
  · exact heq n

namespace Sees

protected theorem step (hv : Sees c r lsui W owes view m) (hs : 2 ≤ c.size)
    (h : Asked c r rpo wpo lsui lsui')
    (hans : Answers r lsui rpo.portAck wpo.portAck W view view' owes owes' data') :
    Sees c (next c r lsui wpo) lsui' W owes' view'
      (committed lsui (lsuo c r lsui rpo wpo).ack m) := by
  obtain ⟨mem, m', hc, hw⟩ := hv
  refine ⟨_, _, consistent_step hs h hans.ack_dirty hc, fun a ha => ?_⟩
  obtain ⟨hview, hm⟩ := hw a ha
  exact ⟨hans.landed_step h.noCache ha hview, committed_contents h hm⟩

/-- A lane that the buffer does not cover once a load is acknowledged is not on its way. -/
theorem byte_landed {n : Fin 4} {k : Bool} (mem : Mem) (hs : 0 < c.size) (hu : Unique c r)
    (h : Asked c r rpo wpo lsui lsui') (hrd : lsui.rd = true)
    (hk : k = true → r.wbufDirty0 = true)
    (hno : ∀ j, ¬ Covers c (next c r lsui wpo) j (wordOf lsui.adr) n) :
    byte (landed r k (wordOf lsui.adr) (mem (wordOf lsui.adr))) n =
      byte (mem (wordOf lsui.adr)) n := by
  unfold landed
  split
  · rename_i hl
    rw [byte_merge, if_neg (not_lane_of_uncovered hs hu h.noCache hrd (h.rdOnly hrd).1 (hk hl.1)
      hl.2 hno)]
  · rfl

/-- A load that is acknowledged delivers what the unit sees. -/
theorem load {rpo' : ReadportOut} {wpo' : WriteportOut} (hv : Sees c r lsui W owes view m)
    (hs : 2 ≤ c.size) (h : Asked c r rpo wpo lsui lsui')
    (hans : Answers r lsui rpo.portAck wpo.portAck W view view' owes owes' rpo'.portData)
    (hrd : lsui.rd = true) (hack : (lsuo c r lsui rpo wpo).ack = true)
    (hW : W (wordOf lsui.adr)) :
    (lsuo c (next c r lsui wpo) lsui' rpo' wpo').rdata =
      m.load lsui.width lsui.exts lsui.adr := by
  obtain ⟨mem, m', hc, hw⟩ := hv
  obtain ⟨hview, hm⟩ := hw _ hW
  obtain ⟨hwr, hfl⟩ := h.rdOnly hrd
  have hknown := h.known (.inl hrd)
  obtain ⟨hadr, hwidth, hexts⟩ := h.stays hrd hack
  have hpos : 0 < c.size := Nat.lt_of_succ_lt hs
  have hrdata : (((Sys.mk r mem none).step c (alone lsui rpo.portAck wpo 0)).lsuo c
      (alone lsui' rpo'.portAck wpo' rpo'.portData)).rdata = _ :=
    step_rdata hs h.noCache hrd hwr hfl hknown h.noCache' hans.ack_dirty hc hack hadr hwidth hexts
  refine Eq.trans ?_ (hrdata.trans (hknown.load_congr hm))
  refine congrArg (formatRdata lsui') (rdataWord_congr
    (consistent_step hs h hans.ack_dirty hc).unique fun n huncov => ?_)
  rw [hadr] at huncov
  show byte rpo'.portData n = byte (Option.getD _ _) n
  cases hrp : rpo.portAck with
  | false => simp only [Sys.step, alone, Bool.false_eq_true, if_false, Option.getD_none]
  | true =>
    have hmem : ((Sys.mk r mem none).step c (alone lsui rpo.portAck wpo 0)).portData =
        some (mem (wordOf lsui.adr)) := by
      simp only [Sys.step, alone, hrp, if_true]
      rfl
    rw [hrp] at hmem
    rw [hmem, Option.getD_some]
    obtain ⟨w, hdirty, -, -, hstep⟩ := hans.write
    rcases hans.read hrp hW with hdata | hdata
    · have hb := byte_landed mem hpos hc.unique h hrd hans.dirty huncov
      rw [← hview] at hb
      rw [hdata]
      exact hb
    · have hb := byte_landed (k := w || owes) mem hpos hc.unique h hrd
        (fun hk => ((Bool.or_eq_true ..).mp hk).elim hdirty hans.dirty) huncov
      rw [← landed_landed, ← hview, ← hstep _ hW] at hb
      rw [hdata]
      exact hb

end Sees

end Cycle

end ParaNut.Lsu
