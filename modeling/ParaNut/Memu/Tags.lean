import ParaNut.Memu.Discipline
import ParaNut.Memu.TagWrites

/-!
# The tags in the memory unit

A tag that is valid or dirty names a line that was brought in by a
replacement: the other writes of tags, the LRU write-back among them, repeat
one that is there.
-/

namespace ParaNut.Memu

/-- `L tag index` holds of a tag that is valid or dirty. -/
def CacheTag.Within (L : ℕ → ℕ → Prop) (t : CacheTag) (index : ℕ) : Prop :=
  t.valid = true ∨ t.dirty = true → L t.taddr index

-- ---------------------------------------------------------------------------
-- The tag RAM
-- ---------------------------------------------------------------------------

namespace TagRam

variable {c : Config} {L : ℕ → ℕ → Prop} {r : Registers} {i : In}

def Entry.Within (L : ℕ → ℕ → Prop) (e : Entry) (index : ℕ) : Prop :=
  ∀ w, e.valid w = true ∨ e.dirty w = true → L (e.taddr w) index

/-- All entries, in the RAM, on their way to it and in the queue. -/
structure Within (c : Config) (L : ℕ → ℕ → Prop) (r : Registers) : Prop where
  rdata : ∀ p, r.rdata p = r.mem (r.iaddr p)
  mem : ∀ a, (r.mem a).Within L a
  queued : ∀ p < c.cores, useLru c = true → r.lruUseWr p = true →
    (r.lruEntry p).Within L (r.lruUseIadr p)
  wtag : r.writeTag = true → r.wtag.Within L (r.iaddr r.wprt)

theorem Within.wentry (h : Within c L r) (hw : r.writeTag = true) :
    (wentry c r).Within L (r.iaddr r.wprt) := by
  intro w hvd
  have hmem := h.mem (r.iaddr r.wprt) w
  rw [← h.rdata] at hmem
  simp only [TagRam.wentry, Function.update_apply] at hvd ⊢
  split at hvd
  · rename_i hway
    rw [if_pos hway]
    exact h.wtag hw hvd
  · rename_i hway
    rw [if_neg hway]
    exact hmem hvd

/-- The entry written is that of a tag write, or one from the queue. -/
theorem ramWrite_cases {a : ℕ} {e : Entry} (h : ramWrite c r i = some (a, e)) :
    r.writeTag = true ∧ a = r.iaddr r.wprt ∧ e = wentry c r ∨
      ∃ p, writeLruPrt c r = some p ∧ a = r.lruUseIadr p ∧ e = r.lruEntry p := by
  unfold ramWrite at h
  split at h
  · rename_i hcond
    cases hp : writeLruPrt c r with
    | none =>
      rw [hp] at h hcond
      simp only [Option.isSome_none, Bool.or_false, Bool.and_eq_true] at hcond
      cases h
      exact .inl ⟨hcond.1, rfl, rfl⟩
    | some p =>
      rw [hp] at h
      cases hw : r.writeTag with
      | true =>
        rw [hw] at h
        cases h
        exact .inl ⟨rfl, rfl, rfl⟩
      | false =>
        rw [hw] at h
        cases h
        exact .inr ⟨p, rfl, rfl, rfl⟩
  · cases h

theorem Within.nextMem (h : Within c L r) (a : ℕ) : (nextMem c r i a).Within L a := by
  unfold TagRam.nextMem
  cases hr : ramWrite c r i with
  | none => exact h.mem a
  | some write =>
    obtain ⟨x, e⟩ := write
    have he : e.Within L x := by
      rcases ramWrite_cases hr with ⟨hw, rfl, rfl⟩ | ⟨p, hp, rfl, rfl⟩
      · exact h.wentry hw
      · obtain ⟨hlru, hlt, hq⟩ := writeLruPrt_some hp
        exact h.queued p hlt hlru hq
    show (Function.update r.mem x e a).Within L a
    rcases eq_or_ne a x with rfl | hne
    · rwa [Function.update_self]
    · rw [Function.update_of_ne hne]
      exact h.mem a

theorem Within.step (h : Within c L r) (htag : ∀ n < c.cores, i.wr n = true →
      (i.tagIn n).Within L (indexOf c (i.addr n))) : Within c L (comb c r i) where
  rdata p := rfl
  mem := h.nextMem
  queued p hp hlru hq := by
    show ((comb c r i).lruEntry p).Within L (if newUseWr c r p then r.iaddr p else r.lruUseIadr p)
    rcases queued_cases hlru hq with hnew | ⟨hnew, hkept, -⟩
    · rw [if_pos hnew]
      intro w hvd
      have hfields := lruEntry_fields (i := i) hnew w
      simp only [Entry.fields, Prod.mk.injEq] at hfields
      rw [hfields.1, hfields.2.1] at hvd
      rw [hfields.2.2]
      rw [h.rdata] at hvd ⊢
      exact h.mem _ w hvd
    · rw [hnew, if_neg Bool.false_ne_true, lruEntry_kept hnew]
      exact h.queued p hp hlru hkept
  wtag hw := by
    have hsome : (writePort c i).isSome = true := by
      have := hw
      simp only [comb, Bool.and_eq_true] at this
      exact this.1
    obtain ⟨n, hn⟩ := Option.isSome_iff_exists.mp hsome
    have hmem := List.mem_of_find?_eq_some hn
    rw [List.mem_reverse, List.mem_range] at hmem
    have htagn := htag n hmem (List.find?_some hn)
    simpa only [comb, hn, Option.getD_some] using htagn

/-- A tag that is read out is in the set that was read. -/
theorem Within.tagOut (h : Within c L r) (p : ℕ) : (tagOut c r p).Within L (r.iaddr p) := by
  have hmem := h.mem (r.iaddr p)
  rw [← h.rdata] at hmem
  cases hf : findWay c (r.rdata p) (r.taddr p) with
  | none =>
    intro hvd
    simp only [TagRam.tagOut, hf, Option.isSome_none, Bool.false_eq_true, false_or] at hvd ⊢
    exact hmem _ (.inr hvd)
  | some w =>
    intro _
    have hw := List.find?_some hf
    rw [Bool.and_eq_true] at hw
    simp only [TagRam.tagOut, hf, Option.getD_some]
    exact hmem w (.inl hw.1)

theorem taddr_of_hit {p : ℕ} (h : (tagOut c r p).valid = true) :
    (tagOut c r p).taddr = r.taddr p := by
  unfold TagRam.tagOut at h ⊢
  obtain ⟨w, hf⟩ := Option.isSome_iff_exists.mp h
  have hw := List.find?_some hf
  rw [Bool.and_eq_true, beq_iff_eq] at hw
  simp only [hf, Option.getD_some]
  exact hw.2

end TagRam

-- ---------------------------------------------------------------------------
-- The BusIf and the write ports
-- ---------------------------------------------------------------------------

namespace BusIf

variable {c : Config} {L : ℕ → ℕ → Prop} {r : Registers} {i : In}

/-- The tag of the BusIf is that of its line on a hit, and else that of the victim. -/
structure Within (c : Config) (L : ℕ → ℕ → Prop) (r : Registers) : Prop where
  tag : r.state.usesTag = true → r.tag.Within L (indexOf c r.adr)
  hit : r.state.usesTag = true → r.tag.valid = true → r.tag.taddr = tagOf c r.adr
  dirty : r.state = .cacheReadDirtyBanks ∨ (r.state.usesTag = true ∧ r.writeVictim = true) →
    r.tag.dirty = true
  victim : r.state = .cacheWriteBackVictim → r.writeVictim = true
  begins : r.state = .cacheRequestLlWait ∨ r.state = .cacheRequestRtWait ∨
    r.state = .cacheReadTag → r.writeVictim = false

/-- The tag is used after it has been read, for the same line. -/
theorem usesTag_next (hw : WellFormed c r) (h : (comb c r i).1.state.usesTag = true) :
    lineOf c (comb c r i).1.adr = lineOf c r.adr ∧
      (r.state.usesTag = true ∧ (comb c r i).1.tag = r.tag ∨
        r.state = .cacheReadTag ∧ (comb c r i).1.tag = i.tagIn) := by
  have ha := hw.adrOfs
  revert h
  cases hs : r.state <;> simp only [hs, comb, combIdle, latched, tagWritten] at ha ⊢
  all_goals
    repeat' split
    all_goals simp_all [State.usesTag, State.working, lineOf_setBank]

theorem readTag_next (h : (comb c r i).1.state = .cacheReadTag) :
    r.state = .cacheRequestRtWait ∧ i.gntTagr = true ∧ (comb c r i).1.adr = r.adr := by
  revert h
  cases hs : r.state <;> simp only [hs, comb, combIdle, latched, tagWritten]
  all_goals
    repeat' split
    all_goals simp_all

theorem tagWr_spec (h : (comb c r i).2.tagWr = true) :
    r.state.writesTag = true ∧ i.gntTagw = true := by
  revert h
  cases hs : r.state <;> simp [comb, hs, defaults, State.writesTag]

theorem Within.next (h : Within c L r) (hw : WellFormed c r)
    (htag : r.state = .cacheReadTag → i.tagIn.Within L (indexOf c r.adr) ∧
      (i.tagIn.valid = true → i.tagIn.taddr = tagOf c r.adr)) : Within c L (comb c r i).1 where
  tag hs := by
    obtain ⟨hline, ⟨hu, ht⟩ | ⟨hr, ht⟩⟩ := usesTag_next hw hs
    · rw [ht, indexOf_congr hline]
      exact h.tag hu
    · rw [ht, indexOf_congr hline]
      exact (htag hr).1
  hit hs hv := by
    obtain ⟨hline, ⟨hu, ht⟩ | ⟨hr, ht⟩⟩ := usesTag_next hw hs
    · rw [ht] at hv ⊢
      rw [tagOf_congr hline]
      exact h.hit hu hv
    · rw [ht] at hv ⊢
      rw [tagOf_congr hline]
      exact (htag hr).2 hv
  dirty hs' := by
    have hd := h.dirty
    have hb := h.begins
    revert hs'
    cases hs : r.state <;> simp only [hs, comb, combIdle, latched, tagWritten] at hd hb ⊢
    all_goals
      repeat' split
      all_goals simp_all [State.usesTag]
  victim hs' := by
    have hv := h.victim
    revert hs'
    cases hs : r.state <;> simp only [hs, comb, combIdle, latched, tagWritten] at hv ⊢
    all_goals
      repeat' split
      all_goals simp_all
  begins hs' := by
    have hb := h.begins
    revert hs'
    cases hs : r.state <;> simp only [hs, comb, combIdle, latched, tagWritten] at hb ⊢
    all_goals
      repeat' split
      all_goals simp_all

/-- What the BusIf writes to the tag RAM. -/
theorem Within.tagOut (h : Within c L r) (hwrites : r.state.writesTag = true)
    (hfill : r.op = .replace → L (tagOf c r.adr) (indexOf c r.adr)) :
    (comb c r i).2.tagOut.Within L (indexOf c r.adr) := by
  have ht := h.tag
  have hh := h.hit
  revert hwrites
  cases hs : r.state <;> simp only [hs, comb, defaults, newTag, State.usesTag, State.writesTag] at ht hh ⊢
  case cacheReplaceInvalidateTag =>
    rintro - (hv | hd)
    · cases hv
    · exact ht trivial (.inr hd)
  case cacheWriteTag =>
    rintro - (hv | hd)
    · cases hop : r.op <;> rw [hop] at hv
      case replace => exact hfill hop
      case flush => cases hv
      case invalidate => cases hv
      all_goals
        rw [← hh trivial hv]
        exact ht trivial (.inl hv)
    · cases hd
  all_goals simp

end BusIf

namespace WritePort

/-- The states in which the tag that was read is used. -/
def State.usesTag : State → Bool
  | .haveTagRequestBank | .readBank | .writeTag1AndBank | .writeTag2AndBank | .writeTag1
  | .writeTag2 | .writeBank => true
  | _ => false

variable {c : Config} {r : Registers} {i : In}

theorem State.usesTag_of_second {st : State} (h : st.secondTagWrite = true) :
    st.usesTag = true := by
  cases st <;> simp_all [State.usesTag, State.secondTagWrite]

theorem usesTag_next (h : (comb c r i).1.state.usesTag = true) :
    r.state.usesTag = true ∧ (comb c r i).1.tag = r.tag ∨
      r.state.tagArrives = true ∧ i.tagIn.valid = true ∧ (comb c r i).1.tag = i.tagIn := by
  revert h
  cases hs : r.state <;> simp only [comb, hs, combInit, snooped_state, snooped_tag, writeState]
  all_goals
    repeat' split
    all_goals simp_all [State.usesTag, State.tagArrives]

end WritePort

-- ---------------------------------------------------------------------------
-- The memory unit
-- ---------------------------------------------------------------------------

/-- The tag and index of a line. -/
def Names (c : Config) (lines : ℕ → Prop) (taddr index : ℕ) : Prop :=
  ∃ adr, lines (lineOf c adr) ∧ tagOf c adr = taddr ∧ indexOf c adr = index

/-- `L` holds of every tag in the unit that is valid or dirty. -/
structure TagsWithin (c : Config) (L : ℕ → ℕ → Prop) (s : State) (i : Input) : Prop
    extends Locks c s i where
  tram : TagRam.Within c L s.tram
  busifTag : BusIf.Within c L s.busif
  uses : ∀ p < c.wports, (s.wp p).state.usesTag = true →
    L (s.wp p).tag.taddr (indexOf c (i.wpi p).portAdr)
  arrives : ∀ p < c.wports, (s.wp p).state.tagArrives = true →
    s.tram.iaddr p = indexOf c (i.wpi p).portAdr
  bifArrives : s.busif.state = .cacheReadTag →
    s.tram.iaddr (c.cores - 1) = indexOf c s.busif.adr ∧
      s.tram.taddr (c.cores - 1) = tagOf c s.busif.adr

/-- `L` holds of the lines that are filled. -/
def FillsWithin (c : Config) (L : ℕ → ℕ → Prop) (s : State) : Prop :=
  s.busif.state.working = true → s.busif.op = .replace →
    L (tagOf c s.busif.adr) (indexOf c s.busif.adr)

section TagWrite

variable (c : Config) (s : State) (i : Input)

/-- Write port `n` writes a tag. -/
structure WpTagWrite (n : ℕ) : Prop where
  wr : (wpOut c s i (grants c s i) n).tagWr = true
  granted : (grants c s i).tagw n = true
  state : (s.wp n).state = .writeTag1AndBank ∨ (s.wp n).state = .writeTag1 ∨
    (s.wp n).state.secondTagWrite = true
  addr : (tagRamIn c s i (grants c s i)).addr n = (i.wpi n).portAdr
  tagIn : (tagRamIn c s i (grants c s i)).tagIn n = { (s.wp n).tag with dirty := true }

/-- The BusIf writes a tag, on the port of the last CPU. -/
structure BifTagWrite (n : ℕ) : Prop where
  last : n = c.cores - 1
  granted : (grants c s i).tagw c.wports = true
  state : s.busif.state.writesTag = true
  addr : (tagRamIn c s i (grants c s i)).addr n = s.busif.adr
  tagIn : (tagRamIn c s i (grants c s i)).tagIn n = (bifo c s (grants c s i)).tagOut

end TagWrite

section Cycle

variable {c : Config} {L : ℕ → ℕ → Prop} {s : State} {i i' : Input} {n p : ℕ}

/-- The tag port of a write port that has a tag grant is at its address. -/
theorem tagRamIn_addr (hx : Arbiter.Exclusive c (grants c s i)
      (fun p => indexOf c (i.wpi p).portAdr) (indexOf c s.busif.adr)) (hp : p < c.wports)
    (hg : (grants c s i).tagr (p + wpOff c) = true ∨ (grants c s i).tagw p = true) :
    (tagRamIn c s i (grants c s i)).addr p = (i.wpi p).portAdr := by
  have hidx := Nat.le_of_lt (wp_lt_idx hp)
  have hno : ¬ (p = c.cores - 1 ∧ ((grants c s i).tagr (idxBusif c) ||
      (grants c s i).tagw c.wports) = true) := by
    rintro ⟨hlast, hb⟩
    rw [Bool.or_eq_true] at hb
    rcases hg with hg | hg <;> rcases hb with hb | hb
    · have hport : Arbiter.tagPort c (p + wpOff c) = Arbiter.tagPort c (idxBusif c) := by
        rw [Arbiter.tagPort, Arbiter.tagPort, if_neg (Nat.ne_of_lt (wp_lt_idx hp)), if_pos rfl,
          wpOff, Config.rports, Nat.add_mul_mod_self_right, Nat.mod_eq_of_lt (show p < c.cores from hp), hlast]
      exact Nat.ne_of_lt (wp_lt_idx hp) (hx.tagr _ hidx _ (Nat.le_refl _) hg hb hport)
    · exact hx.tagrw _ hidx _ (Nat.le_refl _) hg hb
    · exact hx.tagrw _ (Nat.le_refl _) _ (Nat.le_of_lt hp) hb hg
    · exact Nat.ne_of_lt hp (hx.tagw _ (Nat.le_of_lt hp) _ (Nat.le_refl _) hg hb)
  simp only [tagRamIn]
  rw [if_neg hno, if_pos]
  rw [Bool.or_eq_true]
  exact hg

/-- A tag is written by a write port or by the BusIf. -/
theorem Locks.tagWr_cases (hd : Locks c s i) (hn : n < c.cores)
    (hwr : (tagRamIn c s i (grants c s i)).wr n = true) :
    BifTagWrite c s i n ∨ WpTagWrite c s i n := by
  simp only [tagRamIn, Bool.or_eq_true, Bool.and_eq_true, beq_iff_eq] at hwr
  rcases hwr with ⟨hlast, hbif⟩ | hwp
  · obtain ⟨hs, hg⟩ := BusIf.tagWr_spec hbif
    refine .inl ⟨hlast, hg, hs, ?_, ?_⟩
    · simp only [tagRamIn]
      rw [if_pos ⟨hlast, by rw [show (grants c s i).tagw c.wports = true from hg, Bool.or_true]⟩]
    · simp only [tagRamIn]
      rw [if_pos ⟨hlast, hg⟩]
  · obtain ⟨htag, -, hst⟩ := WritePort.tagWr_spec hwp
    have hg : (grants c s i).tagw n = true := by
      rcases hst with ⟨-, hg⟩ | hsec
      · exact hg
      · exact hd.tagw_kept hn hsec
    have hx := exclusive_grants hd.exclusive
    refine .inr ⟨hwp, hg, ?_, tagRamIn_addr hx hn (.inr hg), ?_⟩
    · rcases hst with ⟨hs | hs, -⟩ | hsec
      · exact .inl hs
      · exact .inr (.inl hs)
      · exact .inr (.inr hsec)
    · simp only [tagRamIn]
      rw [if_neg]
      · exact htag
      · rintro ⟨-, hb⟩
        exact Nat.ne_of_lt hn (hx.tagw _ (Nat.le_of_lt hn) _ (Nat.le_refl _) hg hb)

namespace TagsWithin

theorem excl (hd : TagsWithin c L s i) : Arbiter.Exclusive c (grants c s i)
    (fun p => indexOf c (i.wpi p).portAdr) (indexOf c s.busif.adr) :=
  exclusive_grants hd.exclusive

/-- What is written to the tag RAM. -/
theorem tagIn_within (hd : TagsWithin c L s i) (hfill : FillsWithin c L s) (hn : n < c.cores)
    (hwr : (tagRamIn c s i (grants c s i)).wr n = true) :
    ((tagRamIn c s i (grants c s i)).tagIn n).Within L
      (indexOf c ((tagRamIn c s i (grants c s i)).addr n)) := by
  rcases hd.tagWr_cases hn hwr with hb | hp
  · rw [hb.addr, hb.tagIn]
    refine hd.busifTag.tagOut hb.state fun hop => hfill ?_ hop
    exact BusIf.State.writesTag_working hb.state
  · rw [hp.addr, hp.tagIn]
    have huses : (s.wp n).state.usesTag = true := by
      rcases hp.state with hs | hs | hs
      · rw [hs]; rfl
      · rw [hs]; rfl
      · exact WritePort.State.usesTag_of_second hs
    exact fun _ => hd.uses n hn huses

theorem tram_step (hd : TagsWithin c L s i) (hfill : FillsWithin c L s) :
    TagRam.Within c L (step c s i).tram :=
  hd.tram.step fun _ hn hwr => hd.tagIn_within hfill hn hwr

theorem busifTag_step (hd : TagsWithin c L s i) :
    BusIf.Within c L (step c s i).busif := by
  refine hd.busifTag.next hd.busif fun hs => ?_
  obtain ⟨hiadr, htadr⟩ := hd.bifArrives hs
  constructor
  · rw [← hiadr]
    exact hd.tram.tagOut (c.cores - 1)
  · intro hv
    rw [← htadr]
    exact TagRam.taddr_of_hit hv

theorem uses_step (hd : TagsWithin c L s i) (hh : Holds c s i i') (hp : p < c.wports)
    (h : ((step c s i).wp p).state.usesTag = true) :
    L ((step c s i).wp p).tag.taddr (indexOf c (i'.wpi p).portAdr) := by
  have hne : ((step c s i).wp p).state ≠ .init := by
    intro hs
    rw [hs] at h
    cases h
  rw [(hd.held hh hp hne).2]
  rcases WritePort.usesTag_next h with ⟨hu, ht⟩ | ⟨ha, hv, ht⟩
  · rw [show ((step c s i).wp p).tag = _ from ht]
    exact hd.uses p hp hu
  · rw [show ((step c s i).wp p).tag = _ from ht, ← hd.arrives p hp ha]
    exact hd.tram.tagOut p (.inl hv)

theorem arrives_step (hd : TagsWithin c L s i) (hh : Holds c s i i') (hp : p < c.wports)
    (h : ((step c s i).wp p).state.tagArrives = true) :
    (step c s i).tram.iaddr p = indexOf c (i'.wpi p).portAdr := by
  have hne : ((step c s i).wp p).state ≠ .init := by
    intro hs
    rw [hs] at h
    cases h
  obtain ⟨-, -, hg⟩ := WritePort.tagArrives_next h
  rw [(hd.held hh hp hne).2, ← tagRamIn_addr hd.excl hp (.inl hg)]
  rfl

theorem bifArrives_step (h : (step c s i).busif.state = .cacheReadTag) :
    (step c s i).tram.iaddr (c.cores - 1) = indexOf c (step c s i).busif.adr ∧
      (step c s i).tram.taddr (c.cores - 1) = tagOf c (step c s i).busif.adr := by
  obtain ⟨-, hg, hadr⟩ := BusIf.readTag_next h
  have hin : (tagRamIn c s i (grants c s i)).addr (c.cores - 1) = s.busif.adr := by
    simp only [tagRamIn]
    rw [if_pos ⟨trivial, by rw [show (grants c s i).tagr (idxBusif c) = true from hg, Bool.true_or]⟩]
  rw [show (step c s i).busif.adr = s.busif.adr from hadr, ← hin]
  exact ⟨rfl, rfl⟩

protected theorem step (hd : TagsWithin c L s i) (hh : Holds c s i i')
    (hfill : FillsWithin c L s) : TagsWithin c L (step c s i) i' where
  toLocks := hd.toLocks.step hh
  tram := hd.tram_step hfill
  busifTag := hd.busifTag_step
  uses p hp := hd.uses_step hh hp
  arrives p hp := hd.arrives_step hh hp
  bifArrives := bifArrives_step

end TagsWithin

theorem IsReset.tagsWithin (h : IsReset c s) : TagsWithin c L s i where
  toLocks := h.locks
  tram := by
    obtain ⟨hw, hp⟩ := h.tram
    refine ⟨fun p => (hp p).2.2, fun a w hvd => ?_, fun p _ _ hq => ?_, fun hw' => ?_⟩
    · rw [(h.tags a w).1, (h.tags a w).2] at hvd
      simp at hvd
    · rw [(hp p).2.1] at hq
      cases hq
    · rw [hw] at hw'
      cases hw'
  busifTag := by
    obtain ⟨hs, -⟩ := h.busif
    constructor <;> simp [hs, BusIf.State.usesTag]
  uses _ hp hs := by
    rw [(h.wp _ hp).1] at hs
    cases hs
  arrives _ hp hs := by
    rw [(h.wp _ hp).1] at hs
    cases hs
  bifArrives hs := by
    rw [h.busif.1] at hs
    cases hs

end Cycle

end ParaNut.Memu
