import ParaNut.Memu.LineFill
import ParaNut.Memu.Uncached

/-!
# A replacement from request to end

Whatever the other ports do, a replacement of a line that is absent leaves the
line in the victim way and the victim in memory, and it ends if none of its
requests waits for ever.
-/

namespace ParaNut.Memu

namespace BusIf

/-- A cache operation from its first cycle until the bus is released. -/
def State.running (st : State) : Bool := st == .cacheRequestLlWait || st.working

/-- What the BusIf waits for happens. -/
def Advances (c : Config) (r : Registers) (i : In) : Prop :=
  match r.state with
  | .cacheRequestLlWait => i.gntLinelock = true
  | .cacheRequestRtWait => i.gntTagr = true
  | .cacheReplaceReadIdata | .cacheWriteBackVictim => i.ackI = true
  | .cacheReadDirtyBanks | .cacheReplaceWriteBanks =>
    banksDone c r = true ∨ ∃ b < c.banks, r.banksLeft b = true ∧ i.gntBank b = true
  | .cacheReplaceInvalidateTag | .cacheWriteTag => i.gntTagw = true
  | _ => True

def left (c : Config) (r : Registers) : ℕ :=
  ((Finset.range c.banks).filter fun b => r.banksLeft b = true).card

/-- Bounds how often the BusIf has still to advance. -/
def State.toGo (c : Config) (cnt left : ℕ) : State → ℕ
  | .cacheRequestLlWait => 8 * (c.banks + 3)
  | .cacheRequestRtWait => 7 * (c.banks + 3)
  | .cacheReadTag => 6 * (c.banks + 3)
  | .cacheReplaceReadIdata => 5 * (c.banks + 3) + (c.banks - cnt)
  | .cacheReadDirtyBanks => 4 * (c.banks + 3) + left + 1
  | .cacheReplaceInvalidateTag => 3 * (c.banks + 3) + (2 - cnt)
  | .cacheReplaceWriteBanks => 2 * (c.banks + 3) + left + 1
  | .cacheWriteTag => c.banks + 3 + (2 - cnt)
  | .cacheWriteBackVictim => c.banks - cnt
  | _ => 0

def toGo (c : Config) (r : Registers) : ℕ := r.state.toGo c r.cnt (left c r)

variable {c : Config} {r : Registers} {i : In}

theorem left_le (c : Config) (r : Registers) : left c r ≤ c.banks :=
  (Finset.card_filter_le _ _).trans_eq (Finset.card_range _)

/-- A bank that is granted is no longer left. -/
theorem left_next (h : ∀ b, (comb c r i).1.banksLeft b = (r.banksLeft b && !i.gntBank b)) :
    left c (comb c r i).1 ≤ left c r ∧
      ((∃ b < c.banks, r.banksLeft b = true ∧ i.gntBank b = true) →
        left c (comb c r i).1 < left c r) := by
  have hsub : (Finset.range c.banks).filter (fun b => (comb c r i).1.banksLeft b = true) ⊆
      (Finset.range c.banks).filter (fun b => r.banksLeft b = true) := by
    intro b hb
    rw [Finset.mem_filter] at hb ⊢
    rw [h, Bool.and_eq_true] at hb
    exact ⟨hb.1, hb.2.1⟩
  refine ⟨Finset.card_le_card hsub, ?_⟩
  rintro ⟨b, hb, hleft, hg⟩
  refine Finset.card_lt_card ((Finset.ssubset_iff_of_subset hsub).mpr ⟨b, ?_, ?_⟩)
  · rw [Finset.mem_filter, Finset.mem_range]
    exact ⟨hb, hleft⟩
  · rw [Finset.mem_filter, h, hg]
    simp

theorem stays_of_not_advances (hs : r.state.running = true) (h : ¬ Advances c r i) :
    (comb c r i).1.state = r.state ∧ (comb c r i).1.cnt = r.cnt ∧
      ∀ b < c.banks, (comb c r i).1.banksLeft b = r.banksLeft b := by
  revert hs h
  cases hs : r.state <;> simp only [comb, hs, Advances, tagWritten, State.running, State.working]
  case cacheReadDirtyBanks | cacheReplaceWriteBanks =>
    rintro - h
    rw [not_or, Bool.not_eq_true] at h
    obtain ⟨hdone, hg⟩ := h
    rw [hdone]
    refine ⟨by simp, by simp, fun b hb => ?_⟩
    cases hleft : r.banksLeft b with
    | false => simp [hleft]
    | true =>
      have hno : i.gntBank b = false := by
        by_contra hgb
        exact hg ⟨b, hb, hleft, Bool.of_not_eq_false hgb⟩
      simp [hleft, hno]
  all_goals
    intro _ h
    simp_all

theorem toGo_of_not_advances (hs : r.state.running = true) (h : ¬ Advances c r i) :
    toGo c (comb c r i).1 = toGo c r := by
  obtain ⟨hstate, hcnt, hleft⟩ := stays_of_not_advances hs h
  have heq : left c (comb c r i).1 = left c r := by
    refine congrArg Finset.card (Finset.filter_congr fun b hb => ?_)
    rw [hleft b (Finset.mem_range.mp hb)]
  rw [toGo, toGo, hstate, hcnt, heq]

/-- A state with less to go is reached. -/
theorem toGo_advances (hw : WellFormed c r) (hs : r.state.running = true) (h : Advances c r i) :
    (comb c r i).1.state = .cacheAck ∨
      (comb c r i).1.state.running = true ∧ toGo c (comb c r i).1 < toGo c r := by
  have hbanks := c.one_lt_banks
  have hleft := left_le c (comb c r i).1
  have hlt : ∀ st : State, (comb c r i).1.state = st → st.running = true →
      st.toGo c (comb c r i).1.cnt (left c (comb c r i).1) < toGo c r →
      (comb c r i).1.state = .cacheAck ∨
        (comb c r i).1.state.running = true ∧ toGo c (comb c r i).1 < toGo c r := by
    rintro st rfl hrun hlt
    exact .inr ⟨hrun, hlt⟩
  cases hst : r.state <;> rw [hst] at hs <;> try cases hs
  all_goals
    simp only [hst, Advances] at h
    have hgo : toGo c r = r.state.toGo c r.cnt (left c r) := rfl
    simp only [hst, State.toGo] at hgo
  case cacheRequestLlWait =>
    exact hlt .cacheRequestRtWait (by simp [comb, hst, h]) rfl (by simp only [State.toGo]; omega)
  case cacheRequestRtWait =>
    exact hlt .cacheReadTag (by simp [comb, hst, h]) rfl (by simp only [State.toGo]; omega)
  case cacheReadTag =>
    have hzero := hw.cnt_zero (.inr (.inr (.inl hst)))
    have hcnt' : (comb c r i).1.cnt = 0 := by simp [comb, hst, hzero]
    have hnext : (comb c r i).1.state = .cacheReplaceReadIdata ∨
        (comb c r i).1.state = .cacheReadDirtyBanks ∨ (comb c r i).1.state = .cacheWriteTag := by
      simp only [comb, hst]
      repeat' split
      all_goals simp
    rcases hnext with hnext | hnext | hnext <;>
      exact hlt _ hnext rfl (by simp only [State.toGo]; omega)
  case cacheReplaceReadIdata =>
    have hcnt := hw.cnt (.inl hst)
    by_cases hlast : cntLast c r = true
    · have hcnt' : (comb c r i).1.cnt = 0 := by simp [comb, hst, h, hlast]
      have hnext : (comb c r i).1.state = .cacheReadDirtyBanks ∨
          (comb c r i).1.state = .cacheReplaceInvalidateTag := by
        simp only [comb, hst, h, hlast, if_true]
        split <;> simp
      rcases hnext with hnext | hnext <;> exact hlt _ hnext rfl (by simp only [State.toGo]; omega)
    · have hne : r.cnt ≠ c.banks - 1 := by simpa [cntLast] using hlast
      have hcnt' : (comb c r i).1.cnt = r.cnt + 1 := by
        simp [comb, hst, h, hlast, Nat.mod_eq_of_lt (show r.cnt + 1 < c.banks by omega)]
      exact hlt .cacheReplaceReadIdata (by simp [comb, hst, h, hlast]) rfl
        (by simp only [State.toGo]; omega)
  case cacheReadDirtyBanks =>
    have hzero := hw.cnt_zero (.inr (.inr (.inr (.inl hst))))
    by_cases hdone : banksDone c r = true
    · have hcnt' : (comb c r i).1.cnt = 0 := by simp [comb, hst, hdone, hzero]
      have hnext : (comb c r i).1.state = .cacheReplaceInvalidateTag ∨
          (comb c r i).1.state = .cacheWriteTag := by
        simp only [comb, hst, hdone, if_true]
        split <;> simp
      rcases hnext with hnext | hnext <;> exact hlt _ hnext rfl (by simp only [State.toGo]; omega)
    · have hless := (left_next (c := c) (r := r) (i := i) (by simp [comb, hst, hdone])).2
        (h.resolve_left hdone)
      exact hlt .cacheReadDirtyBanks (by simp [comb, hst, hdone]) rfl
        (by simp only [State.toGo]; omega)
  case cacheReplaceInvalidateTag =>
    have htag := hw.cnt_tag (by rw [hst]; rfl)
    by_cases hodd : r.cnt % 2 = 1
    · exact hlt .cacheReplaceWriteBanks (by simp [comb, hst, h, tagWritten, hodd]) rfl
        (by simp only [State.toGo]; omega)
    · have hcnt' : (comb c r i).1.cnt = r.cnt + 1 := by
        simp [comb, hst, h, tagWritten, hodd, Nat.mod_eq_of_lt (show r.cnt + 1 < c.banks by omega)]
      exact hlt .cacheReplaceInvalidateTag (by simp [comb, hst, h, tagWritten, hodd]) rfl
        (by simp only [State.toGo]; omega)
  case cacheReplaceWriteBanks =>
    by_cases hdone : banksDone c r = true
    · exact hlt .cacheWriteTag (by simp [comb, hst, hdone]) rfl (by simp only [State.toGo]; omega)
    · have hless := (left_next (c := c) (r := r) (i := i) (by simp [comb, hst, hdone])).2
        (h.resolve_left hdone)
      exact hlt .cacheReplaceWriteBanks (by simp [comb, hst, hdone]) rfl
        (by simp only [State.toGo]; omega)
  case cacheWriteTag =>
    have htag := hw.cnt_tag (by rw [hst]; rfl)
    by_cases hodd : r.cnt % 2 = 1
    · cases hv : r.writeVictim with
      | true =>
        exact hlt .cacheWriteBackVictim (by simp [comb, hst, h, tagWritten, hodd, hv]) rfl
          (by simp only [State.toGo]; omega)
      | false => exact .inl (by simp [comb, hst, h, tagWritten, hodd, hv])
    · have hcnt' : (comb c r i).1.cnt = r.cnt + 1 := by
        simp [comb, hst, h, tagWritten, hodd, Nat.mod_eq_of_lt (show r.cnt + 1 < c.banks by omega)]
      exact hlt .cacheWriteTag (by simp [comb, hst, h, tagWritten, hodd]) rfl
        (by simp only [State.toGo]; omega)
  case cacheWriteBackVictim =>
    have hcnt := hw.cnt (.inr hst)
    by_cases hlast : cntLast c r = true
    · exact .inl (by simp [comb, hst, h, hlast])
    · have hne : r.cnt ≠ c.banks - 1 := by simpa [cntLast] using hlast
      have hcnt' : (comb c r i).1.cnt = r.cnt + 1 := by
        simp [comb, hst, h, hlast, Nat.mod_eq_of_lt (show r.cnt + 1 < c.banks by omega)]
      exact hlt .cacheWriteBackVictim (by simp [comb, hst, h, hlast]) rfl
        (by simp only [State.toGo]; omega)

end BusIf

/-- What the BusIf gets in cycle `t`. -/
def bifInAt (c : Config) (st : ℕ → State) (i : ℕ → Input) (t : ℕ) : BusIf.In :=
  bifIn c (st t) (i t) (grants c (st t) (i t))

/-- A replacement is requested in cycle `a`, finds its tag in cycle `x`, and is done in `e`. -/
structure Replacement (c : Config) (st : ℕ → State) (i : ℕ → Input) (a x e : ℕ) : Prop where
  idle : (st a).busif.state = .idle
  op : (bifInAt c st i a).busifOp = .replace
  lt : a < x
  first : ∀ t, a < t → t < x → (st t).busif.state ≠ .cacheReadTag
  found : (st x).busif.state = .cacheReadTag
  runs : ∀ t, a < t → t < e → (st t).busif.state ≠ .cacheAck
  done : (st e).busif.state = .cacheAck
  le : x < e

/-- What a replacement is to do, with the tag and the victim of cycle `x`. -/
structure LineReplaced (c : Config) (st : ℕ → State) (i : ℕ → Input) (a x e : ℕ) (adr : TWord)
    (tag : CacheTag) : Prop where
  mem : ∀ b < c.banks, (st e).mem (wordNo (setBank c adr b)) = (st a).mem (wordNo (setBank c adr b))
  banks : ∀ b < c.banks,
    (st e).bank b (wayIndexOf c adr tag.way) = (st e).mem (wordNo (setBank c adr b))
  tagged : ((st e).tram.mem (indexOf c adr)).fields tag.way = (true, false, tagOf c adr)
  victim : wbWrites c st i a (e + 1) =
    if tag.dirty then
      (List.range c.banks).map fun b =>
        (makeAdr c tag.taddr (indexOf c adr) b, 15, (st x).bank b (wayIndexOf c adr tag.way))
    else []
  hits : ∀ t, a ≤ t → t ≤ e → ∀ p < c.rports, TakesHit c (st t) (i t) p →
    lineOf c ((i t).rpi p).portAdr = lineOf c adr ∧
      (rpo c (st (t + 1)) (i (t + 1)) p).portData = (st a).mem (wordNo ((i t).rpi p).portAdr)

section Run

variable {c : Config} {s : State} {i : ℕ → Input} {a x e : ℕ}

theorem states_succ (t : ℕ) : states c s i (t + 1) = step c (states c s i t) (i t) := rfl

theorem wbWrites_succ {st : ℕ → State} (h : a ≤ e) :
    wbWrites c st i a (e + 1) = wbWrites c st i a e ++ (wbWrite c (st e) (i e)).toList := by
  rw [wbWrites, List.Ico.succ_top h, List.flatMap_append, List.flatMap_singleton]
  rfl

/-- Until the tag is there, nothing is written. -/
theorem requested_run (hidle : (states c s i a).busif.state = .idle)
    (hop : (bifInAt c (states c s i) i a).busifOp = .replace)
    (hfirst : ∀ t, a < t → t < x → (states c s i t).busif.state ≠ .cacheReadTag) {t : ℕ}
    (hat : a < t) (htx : t ≤ x) :
    Requested c (bifInAt c (states c s i) i a).adrIn (states c s i a).mem (states c s i t) ∧
      wbWrites c (states c s i) i a t = [] := by
  induction t, hat using Nat.le_induction with
  | base =>
    refine ⟨requested_of_op hidle hop, ?_⟩
    rw [wbWrites_succ (Nat.le_refl a), (wbWrite_none (by rw [hidle]; exact nofun)
      (by rw [hidle]; exact nofun)).1, wbWrites, List.Ico.self_empty]
    rfl
  | succ t hat ih =>
    obtain ⟨hreq, hnone⟩ := ih (Nat.le_of_succ_le htx)
    obtain ⟨hdirect, hvictim, -⟩ := hreq.state_cases
    refine ⟨hreq.step (hfirst t hat htx), ?_⟩
    rw [wbWrites_succ (Nat.le_of_lt hat), hnone, (wbWrite_none hdirect hvictim).1]
    rfl

section Replace

variable (hr : IsReset c s) (hh : ∀ t, Holds c (states c s i t) (i t) (i (t + 1)))
  (h : Replacement c (states c s i) i a x e)
include hr hh h

theorem phase_run (habsent : Absent c (states c s i x) (bifInAt c (states c s i) i a).adrIn)
    {t : ℕ} (hxt : x < t) (hte : t ≤ e) :
    Phase c (jobOf c (states c s i x) (bifInAt c (states c s i) i a).adrIn) (states c s i t)
      (wbWrites c (states c s i) i a t) := by
  induction t, hxt using Nat.le_induction with
  | base =>
    obtain ⟨hreq, hnone⟩ := requested_run h.idle h.op h.first h.lt (Nat.le_refl x)
    obtain ⟨hdirect, hvictim, -⟩ := hreq.state_cases
    rw [wbWrites_succ (Nat.le_of_lt h.lt), hnone, (wbWrite_none hdirect hvictim).1]
    exact hreq.found (orderly_states hr hh x) h.found habsent
  | succ t hxt ih =>
    rw [wbWrites_succ (Nat.le_of_lt (h.lt.trans hxt))]
    exact (ih (Nat.le_of_succ_le hte)).step (orderly_states hr hh t)
      (h.runs t (h.lt.trans hxt) hte)

theorem lineReplaced (habsent : Absent c (states c s i x) (bifInAt c (states c s i) i a).adrIn) :
    LineReplaced c (states c s i) i a x e (bifInAt c (states c s i) i a).adrIn
      (foundTag c (states c s i x)) := by
  have hreq := (requested_run h.idle h.op h.first h.lt (Nat.le_refl x)).1
  obtain ⟨hdone, hwrites⟩ :=
    (phase_run hr hh h habsent h.le (Nat.le_refl e)).done_of h.done
  generalize hadr : (bifInAt c (states c s i) i a).adrIn = adr at *
  have hword : ∀ b, (jobOf c (states c s i x) adr).word b =
      (states c s i a).mem (lineOf c adr * c.banks + b) := by
    rw [← hreq.mem]
    exact fun _ => rfl
  have hmem : ∀ b < c.banks, (states c s i e).mem (wordNo (setBank c adr b)) =
      (jobOf c (states c s i x) adr).word b := by
    intro b hb
    rw [wordNo_setBank hb]
    exact hdone.mem b hb
  refine ⟨fun b hb => ?mem, fun b hb => ?banks, hdone.tagged, ?victim, ?hits⟩
  case mem => rw [hmem b hb, hword, wordNo_setBank hb]
  case banks =>
    rw [hmem b hb]
    exact hdone.filled b hb
  case victim =>
    rw [wbWrites_succ (Nat.le_of_lt (h.lt.trans h.le)), hwrites, (wbWrite_none
      (by rw [h.done]; exact nofun) (by rw [h.done]; exact nofun)).1]
    exact List.append_nil _
  case hits =>
    intro t hat hte p hp ht
    rcases Nat.lt_or_ge x t with hxt | htx
    · have hphase := phase_run hr hh h (hadr ▸ habsent) hxt hte
      rw [hadr] at hphase
      obtain ⟨hline, hdata⟩ := hphase.hit (k := i (t + 1)) ht
      refine ⟨hline, ?_⟩
      rw [states_succ, hdata, hword, ← line_add_bank c ((i t).rpi p).portAdr, hline]
      rfl
    · rcases Nat.lt_or_eq_of_le hat with hat | rfl
      · exact absurd ht ((requested_run h.idle h.op h.first hat htx).1.no_hit (orderly_states hr hh t))
      · have hshown := ht.data (k := i a)
        rw [(orderly_states hr hh a).shows.none (.inl h.idle)] at hshown
        cases hshown.1

end Replace

-- ---------------------------------------------------------------------------
-- The end
-- ---------------------------------------------------------------------------

/-- No request of the BusIf waits for ever, nor does a strobe on the bus. -/
structure Unstarved (c : Config) (st : ℕ → State) (i : ℕ → Input) : Prop where
  ack : ∀ t, ∃ u ≥ t, (bifo c (st u) (grants c (st u) (i u))).stbO = true → (i u).ackI = true
  linelock : ∀ t, ∃ u ≥ t, (bifo c (st u) (grants c (st u) (i u))).reqLinelock = true →
    (grants c (st u) (i u)).linelock c.wports = true
  tagr : ∀ t, ∃ u ≥ t, (bifo c (st u) (grants c (st u) (i u))).reqTagr = true →
    (grants c (st u) (i u)).tagr (idxBusif c) = true
  tagw : ∀ t, ∃ u ≥ t, (bifo c (st u) (grants c (st u) (i u))).reqTagw = true →
    (grants c (st u) (i u)).tagw c.wports = true
  bank : ∀ b < c.banks, ∀ t, ∃ u ≥ t, (bifo c (st u) (grants c (st u) (i u))).reqBank b = true →
    (grants c (st u) (i u)).bank b (idxBusif c) = true

/-- A state that does not change gets what it asks for. -/
theorem Unstarved.advances {st : ℕ → State} (hf : Unstarved c st i)
    (hw : ∀ t, BusIf.WellFormed c (st t).busif) {t : ℕ} (hrun : (st t).busif.state.running = true)
    (hsame : ∀ u ≥ t, (st u).busif.state = (st t).busif.state ∧
      ∀ b < c.banks, (st u).busif.banksLeft b = (st t).busif.banksLeft b) :
    ∃ u ≥ t, BusIf.Advances c (st u).busif (bifInAt c st i u) := by
  -- with banks left, one of them is granted
  have hbank : (st t).busif.state = .cacheReadDirtyBanks ∨
      (st t).busif.state = .cacheReplaceWriteBanks → ∃ u ≥ t,
        BusIf.banksDone c (st u).busif = true ∨ ∃ b < c.banks,
          (st u).busif.banksLeft b = true ∧ (bifInAt c st i u).gntBank b = true := by
    intro hst
    cases hdone : BusIf.banksDone c (st t).busif with
    | true => exact ⟨t, Nat.le_refl t, .inl hdone⟩
    | false =>
      obtain ⟨b, hb, hleft⟩ : ∃ b < c.banks, (st t).busif.banksLeft b = true := by
        simpa [BusIf.banksDone] using hdone
      obtain ⟨u, hu, hg⟩ := hf.bank b hb t
      obtain ⟨hsu, hleftu⟩ := hsame u hu
      have hleft' : (st u).busif.banksLeft b = true := (hleftu b hb).trans hleft
      refine ⟨u, hu, .inr ⟨b, hb, hleft', hg ?_⟩⟩
      rcases hst with hst | hst <;> rw [hst] at hsu <;> simpa [bifo, BusIf.comb, hsu] using hleft'
  cases hst : (st t).busif.state <;> rw [hst] at hrun hsame hbank <;> try cases hrun
  case cacheRequestLlWait =>
    obtain ⟨u, hu, hg⟩ := hf.linelock t
    have hsu := (hsame u hu).1
    refine ⟨u, hu, ?_⟩
    simp only [BusIf.Advances, hsu]
    exact hg (BusIf.reqLinelock_eq.trans ((hw u).llWait hsu))
  case cacheRequestRtWait =>
    obtain ⟨u, hu, hg⟩ := hf.tagr t
    have hsu := (hsame u hu).1
    refine ⟨u, hu, ?_⟩
    simp only [BusIf.Advances, hsu]
    exact hg (by simp [bifo, BusIf.comb, hsu])
  case cacheReadTag => exact ⟨t, Nat.le_refl t, by simp only [BusIf.Advances, hst]⟩
  case cacheReplaceReadIdata | cacheWriteBackVictim =>
    obtain ⟨u, hu, hg⟩ := hf.ack t
    have hsu := (hsame u hu).1
    refine ⟨u, hu, ?_⟩
    simp only [BusIf.Advances, hsu]
    exact hg (by simp [bifo, BusIf.comb, hsu])
  case cacheReadDirtyBanks =>
    obtain ⟨u, hu, hadv⟩ := hbank (.inl rfl)
    exact ⟨u, hu, by simpa only [BusIf.Advances, (hsame u hu).1] using hadv⟩
  case cacheReplaceWriteBanks =>
    obtain ⟨u, hu, hadv⟩ := hbank (.inr rfl)
    exact ⟨u, hu, by simpa only [BusIf.Advances, (hsame u hu).1] using hadv⟩
  case cacheReplaceInvalidateTag | cacheWriteTag =>
    obtain ⟨u, hu, hg⟩ := hf.tagw t
    have hsu := (hsame u hu).1
    refine ⟨u, hu, ?_⟩
    simp only [BusIf.Advances, hsu]
    exact hg (by simp [bifo, BusIf.comb, hsu])

/-- Where the BusIf is, it stays or advances. -/
theorem Unstarved.exists_advances (hf : Unstarved c (states c s i) i)
    (hw : ∀ t, BusIf.WellFormed c (states c s i t).busif) {t : ℕ}
    (hrun : (states c s i t).busif.state.running = true) :
    ∃ u ≥ t, (states c s i u).busif.state.running = true ∧
      BusIf.toGo c (states c s i u).busif = BusIf.toGo c (states c s i t).busif ∧
      BusIf.Advances c (states c s i u).busif (bifInAt c (states c s i) i u) := by
  by_contra hno
  have hsame : ∀ u ≥ t, (states c s i u).busif.state = (states c s i t).busif.state ∧
      BusIf.toGo c (states c s i u).busif = BusIf.toGo c (states c s i t).busif ∧
      ∀ b < c.banks,
        (states c s i u).busif.banksLeft b = (states c s i t).busif.banksLeft b := by
    intro u hu
    induction u, hu using Nat.le_induction with
    | base => exact ⟨rfl, rfl, fun _ _ => rfl⟩
    | succ u hu ih =>
      obtain ⟨hst, hgo, hleft⟩ := ih
      have hrun' : (states c s i u).busif.state.running = true := by rw [hst, hrun]
      have hadv : ¬ BusIf.Advances c (states c s i u).busif (bifInAt c (states c s i) i u) :=
        fun hadv => hno ⟨u, hu, hrun', hgo, hadv⟩
      obtain ⟨hst', -, hleft'⟩ := BusIf.stays_of_not_advances hrun' hadv
      exact ⟨hst'.trans hst, (BusIf.toGo_of_not_advances hrun' hadv).trans hgo,
        fun b hb => (hleft' b hb).trans (hleft b hb)⟩
  obtain ⟨u, hu, hadv⟩ := hf.advances hw hrun fun u hu => ⟨(hsame u hu).1, (hsame u hu).2.2⟩
  obtain ⟨hst, hgo, -⟩ := hsame u hu
  exact hno ⟨u, hu, by rw [hst, hrun], hgo, hadv⟩

/-- A cache operation comes to its end. -/
theorem Unstarved.exists_ack (hf : Unstarved c (states c s i) i)
    (hw : ∀ t, BusIf.WellFormed c (states c s i t).busif) {t : ℕ}
    (hrun : (states c s i t).busif.state.running = true) :
    ∃ e > t, (states c s i e).busif.state = .cacheAck := by
  induction hn : BusIf.toGo c (states c s i t).busif using Nat.strong_induction_on generalizing t with
  | _ n ih =>
    obtain ⟨u, hu, hrun', hgo, hadv⟩ := hf.exists_advances hw hrun
    rcases BusIf.toGo_advances (hw u) hrun' hadv with hack | ⟨hnext, hless⟩
    · exact ⟨u + 1, Nat.lt_succ_of_le hu, hack⟩
    · rw [hgo, hn] at hless
      obtain ⟨e, he, hack⟩ := ih _ hless (t := u + 1) hnext rfl
      exact ⟨e, (Nat.lt_succ_of_le hu).trans he, hack⟩

theorem Requested.running {adr : TWord} {mem : ℕ → TWord} {s : State}
    (h : Requested c adr mem s) : s.busif.state.running = true := by
  rcases h.state with hs | hs | hs <;> rw [hs] <;> rfl

/-- A replacement that is requested reads its tag and ends. -/
theorem exists_replacement (hr : IsReset c s)
    (hh : ∀ t, Holds c (states c s i t) (i t) (i (t + 1))) (hf : Unstarved c (states c s i) i)
    (hidle : (states c s i a).busif.state = .idle)
    (hop : (bifInAt c (states c s i) i a).busifOp = .replace) :
    ∃ x e, Replacement c (states c s i) i a x e := by
  have hw : ∀ t, BusIf.WellFormed c (states c s i t).busif := fun t => (orderly_states hr hh t).busif
  have hreq : ∀ {x}, (∀ t, a < t → t < x → (states c s i t).busif.state ≠ .cacheReadTag) →
      ∀ t, a < t → t ≤ x → Requested c (bifInAt c (states c s i) i a).adrIn (states c s i a).mem
        (states c s i t) := fun hfirst _ hat htx => (requested_run hidle hop hfirst hat htx).1
  have hend : ∃ e, a < e ∧ (states c s i e).busif.state = .cacheAck := by
    have hstart := hreq (x := a + 1) (fun t hat ht => absurd ht (Nat.not_lt.mpr hat)) (a + 1)
      (Nat.lt_succ_self a) (Nat.le_refl _)
    obtain ⟨e, he, hack⟩ := hf.exists_ack hw hstart.running
    exact ⟨e, Nat.lt_of_succ_lt he, hack⟩
  have htag : ∃ x, a < x ∧ (states c s i x).busif.state = .cacheReadTag := by
    by_contra hno
    obtain ⟨e, hae, hack⟩ := hend
    exact (hreq (fun t hat _ hs => hno ⟨t, hat, hs⟩) e hae (Nat.le_refl e)).state_cases.2.2 hack
  classical
  have hfirst : ∀ t, a < t → t < Nat.find htag → (states c s i t).busif.state ≠ .cacheReadTag :=
    fun t hat htx hs => Nat.find_min htag htx ⟨hat, hs⟩
  refine ⟨Nat.find htag, Nat.find hend, hidle, hop, (Nat.find_spec htag).1, hfirst,
    (Nat.find_spec htag).2, fun t hat hte hs => Nat.find_min hend hte ⟨hat, hs⟩,
    (Nat.find_spec hend).2, ?_⟩
  by_contra hle
  exact (hreq hfirst (Nat.find hend) (Nat.find_spec hend).1 (Nat.not_lt.mp hle)).state_cases.2.2
    (Nat.find_spec hend).2

/-- A replacement of an absent line leaves the line in the victim way and the victim in memory, and
it comes to its end. -/
theorem line_replacement (hr : IsReset c s)
    (hh : ∀ t, Holds c (states c s i t) (i t) (i (t + 1))) :
    (∀ a x e, Replacement c (states c s i) i a x e →
      Absent c (states c s i x) (bifInAt c (states c s i) i a).adrIn →
      LineReplaced c (states c s i) i a x e (bifInAt c (states c s i) i a).adrIn
        (foundTag c (states c s i x))) ∧
    (Unstarved c (states c s i) i → ∀ a, (states c s i a).busif.state = .idle →
      (bifInAt c (states c s i) i a).busifOp = .replace →
      ∃ x e, Replacement c (states c s i) i a x e) :=
  ⟨fun _ _ _ h habsent => lineReplaced hr hh h habsent,
    fun hf _ hidle hop => exists_replacement hr hh hf hidle hop⟩

end Run

/-- One core, and a cache of one way with two sets and two banks. -/
def oneCore : Config :=
  ⟨0, 1, 1, 0, 1, false, some 0, 0, one_bankLd, one_setLd, one_way, one_ramPort⟩

theorem quiet_isReset_oneCore : IsReset oneCore quiet where
  wp _ _ := ⟨rfl, rfl⟩
  rp _ _ := rfl
  busif := ⟨rfl, rfl, rfl⟩
  idataValid _ := rfl
  gnt := rfl
  tags _ _ := ⟨rfl, rfl⟩
  tram := ⟨rfl, fun _ => ⟨rfl, rfl, rfl⟩⟩

/-- A cached read at 0 that is acknowledged in cycle 10. -/
def oneRead (t : ℕ) : Input := if t < 11 then readAt 0 false else { noRequest with ackI := true }

theorem oneRead_holds (t : ℕ) :
    Holds oneCore (states oneCore quiet oneRead t) (oneRead t) (oneRead (t + 1)) := by
  refine ⟨fun p hp h hack => ?_, fun p hp h _ => ?_⟩
  · rcases Nat.lt_trichotomy t 10 with ht | rfl | ht
    · rw [oneRead, oneRead, if_pos (show t + 1 < 11 by omega), if_pos (show t < 11 by omega)]
    · obtain rfl : p = 0 := by simpa [oneRead, readAt] using h
      exact absurd hack (by decide +kernel)
    · rw [oneRead, oneRead, if_neg (show ¬ t + 1 < 11 by omega), if_neg (show ¬ t < 11 by omega)]
  · simp only [oneRead] at h
    split at h <;> cases h

theorem line_replacement_oneRead :
    LineReplaced oneCore (states oneCore quiet oneRead) oneRead 5 8 17
      (bifInAt oneCore (states oneCore quiet oneRead) oneRead 5).adrIn
      (foundTag oneCore (states oneCore quiet oneRead 8)) := by
  refine (line_replacement quiet_isReset_oneCore oneRead_holds).1 5 8 17
    ⟨by decide +kernel, by decide +kernel, by decide, fun t ht htx => ?_, by decide +kernel,
      fun t ht hte => ?_, by decide +kernel, by decide⟩ (by unfold Absent; decide +kernel)
  · exact (by decide +kernel : ∀ t < 8, 5 < t →
      (states oneCore quiet oneRead t).busif.state ≠ .cacheReadTag) t htx ht
  · exact (by decide +kernel : ∀ t < 17, 5 < t →
      (states oneCore quiet oneRead t).busif.state ≠ .cacheAck) t hte ht

end ParaNut.Memu
