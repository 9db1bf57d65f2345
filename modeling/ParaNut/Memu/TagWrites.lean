import ParaNut.Lib.Sync
import ParaNut.Memu.TagRam

/-!
# Tag writes and the LRU write-back

Each read hit queues a copy of the whole entry, to be written back with new
LRU information when no tag is written. The copy has the tags of the entry in
the RAM as long as it is queued: a tag write to its set removes it.
-/

namespace ParaNut.Memu.TagRam

open Lib

/-- The part of an entry that a tag write sets. -/
def Entry.fields (e : Entry) (w : ℕ) : Bool × Bool × ℕ := (e.valid w, e.dirty w, e.taddr w)

/-- Cycle `t` is the second of a tag write. -/
def secondCycle (c : Config) (i : ℕ → In) : ℕ → Bool
  | 0 => false
  | t + 1 => (List.range c.cores).any (i t).wr && !secondCycle c i t

/-- What the arbiter sees to. -/
structure Guarantees (c : Config) (i : ℕ → In) : Prop where
  oneWriter : ∀ t, ∀ m < c.cores, ∀ n < c.cores, (i t).wr m = true → (i t).wr n = true → m = n
  held : ∀ t, ∀ n < c.cores, (i t).wr n = true → secondCycle c i t = false →
    (i (t + 1)).wr n = true ∧ (i (t + 1)).addr n = (i t).addr n ∧
      (i (t + 1)).tagIn n = (i t).tagIn n
  noRead : ∀ t, ∀ m < c.cores, ∀ n < c.cores, (i t).wr m = true → (i t).rd n = false

/-- Port `n` completes a write to way `w` of set `a` in cycle `t`. -/
structure Completes (c : Config) (i : ℕ → In) (a w t n : ℕ) : Prop where
  port : n < c.cores
  second : secondCycle c i t = true
  wr : (i t).wr n = true
  set : indexOf c ((i t).addr n) = a
  way : ((i t).tagIn n).way = w

/-- The last write to way `w` of set `a` completed before cycle `t` is that of port `n` in `u`. -/
structure LastWrite (c : Config) (i : ℕ → In) (a w t u n : ℕ) : Prop
    extends Completes c i a w u n where
  before : u < t
  last : ∀ v m, u < v → v < t → ¬ Completes c i a w v m

/-- The registers that reset leaves, and any contents of the RAMs. -/
structure IsReset (r : Registers) : Prop where
  lruUseWr : ∀ p, r.lruUseWr p = false
  writeTag : r.writeTag = false
  rdata : ∀ p, r.rdata p = r.mem (r.iaddr p)

-- ---------------------------------------------------------------------------
-- One cycle
-- ---------------------------------------------------------------------------

variable {c : Config} {r : Registers} {i : In}

/-- The RAMs show what they hold, and a queued entry has the tags that they hold. -/
structure Consistent (c : Config) (r : Registers) : Prop where
  rdata : ∀ p, r.rdata p = r.mem (r.iaddr p)
  queued : ∀ p < c.cores, useLru c = true → r.lruUseWr p = true →
    ∀ w, (r.lruEntry p).fields w = (r.mem (r.lruUseIadr p)).fields w

/-- In the second cycle of a tag write it is still requested, and no tag has been read. -/
structure Writes (c : Config) (r : Registers) (i : In) : Prop where
  held : (writePort c i).isSome
  noRead : ∀ p < c.cores, r.readTag p = false

theorem IsReset.consistent (h : IsReset r) : Consistent c r where
  rdata := h.rdata
  queued p _ _ hq := by
    rw [h.lruUseWr] at hq
    cases hq

theorem writeLruPrt_some {p : ℕ} (h : writeLruPrt c r = some p) :
    useLru c = true ∧ p < c.cores ∧ r.lruUseWr p = true := by
  unfold writeLruPrt at h
  split at h
  · rename_i hlru
    have hmem := List.mem_of_find?_eq_some h
    rw [List.mem_reverse, List.mem_range] at hmem
    exact ⟨hlru, hmem, List.find?_some h⟩
  · cases h

theorem ramWrite_eq (h : r.writeTag = true → Writes c r i) :
    ramWrite c r i = if r.writeTag then some (r.iaddr r.wprt, wentry c r)
      else (writeLruPrt c r).map fun p => (r.lruUseIadr p, r.lruEntry p) := by
  unfold ramWrite
  cases hw : r.writeTag with
  | true =>
    rw [Bool.true_and, (h hw).held, Bool.true_or, if_pos rfl, if_pos rfl]
    cases writeLruPrt c r <;> rfl
  | false =>
    cases writeLruPrt c r with
    | none => rfl
    | some p => rw [Option.isSome_some, Bool.or_true, if_pos rfl, if_neg Bool.false_ne_true]; rfl

theorem fields_wentry (w : ℕ) : (wentry c r).fields w =
    if w = r.wtag.way then (r.wtag.valid, r.wtag.dirty, r.wtag.taddr)
    else (r.rdata r.wprt).fields w := by
  unfold wentry Entry.fields
  rcases eq_or_ne w r.wtag.way with rfl | hne
  · simp
  · simp [hne]

/-- Only a tag write changes tags. -/
theorem fields_nextMem (hc : Consistent c r) (h : r.writeTag = true → Writes c r i) (a w : ℕ) :
    (nextMem c r i a).fields w =
      if r.writeTag = true ∧ a = r.iaddr r.wprt ∧ w = r.wtag.way then
        (r.wtag.valid, r.wtag.dirty, r.wtag.taddr)
      else (r.mem a).fields w := by
  unfold nextMem
  rw [ramWrite_eq h]
  cases hw : r.writeTag with
  | true =>
    show (Function.update r.mem _ _ a).fields w = _
    rcases eq_or_ne a (r.iaddr r.wprt) with rfl | hne
    · rw [Function.update_self, fields_wentry, hc.rdata]
      simp
    · simp [hne]
  | false =>
    cases hp : writeLruPrt c r with
    | none => simp
    | some p =>
      show (Function.update r.mem _ _ a).fields w = _
      obtain ⟨hlru, hlt, hq⟩ := writeLruPrt_some hp
      rcases eq_or_ne a (r.lruUseIadr p) with rfl | hne
      · rw [Function.update_self, hc.queued p hlt hlru hq]
        simp
      · simp [hne]

/-- A queued entry either comes from a read in this cycle or has stayed, without a tag write to its
set. -/
theorem queued_cases {p : ℕ} (hlru : useLru c = true) (h : nextLruUseWr c r p = true) :
    newUseWr c r p = true ∨ (newUseWr c r p = false ∧ r.lruUseWr p = true ∧
      ¬ (r.writeTag = true ∧ r.lruUseIadr p = r.iaddr r.wprt)) := by
  cases hnew : newUseWr c r p with
  | true => exact .inl rfl
  | false =>
    rw [nextLruUseWr, if_pos hlru, hnew] at h
    refine .inr ⟨rfl, ?_, ?_⟩
    · by_contra hq
      rw [if_neg hq] at h
      cases h
    · rintro ⟨hw, hset⟩
      rw [hset, hw] at h
      simp at h

theorem lruEntry_fields {p : ℕ} (h : newUseWr c r p = true) (w : ℕ) :
    ((comb c r i).lruEntry p).fields w = (r.rdata p).fields w := by
  rw [newUseWr, Bool.and_eq_true] at h
  obtain ⟨hsome, hread⟩ := h
  obtain ⟨use, huse⟩ := Option.isSome_iff_exists.mp hsome
  simp only [comb, huse, hread]
  rfl

theorem lruEntry_kept {p : ℕ} (h : newUseWr c r p = false) :
    (comb c r i).lruEntry p = r.lruEntry p := by
  rw [newUseWr, Bool.and_eq_false_iff] at h
  simp only [comb]
  rcases h with h | h
  · rw [Option.isSome_eq_false_iff, Option.isNone_iff_eq_none] at h
    rw [h]
  · rw [h]
    cases newUse c r p <;> rfl

theorem Consistent.step (hc : Consistent c r) (h : r.writeTag = true → Writes c r i) :
    Consistent c (comb c r i) where
  rdata p := rfl
  queued p hp hlru hq w := by
    show _ = (nextMem c r i (if newUseWr c r p then r.iaddr p else r.lruUseIadr p)).fields w
    rw [fields_nextMem hc h]
    rcases queued_cases hlru hq with hnew | ⟨hnew, hkept, hset⟩
    · -- No tag is read in the first cycle of a tag write, so this is not its second.
      have hw : r.writeTag = false := by
        by_contra hw
        have hread := (h (Bool.not_eq_false _ ▸ hw)).noRead p hp
        rw [newUseWr, hread, Bool.and_false] at hnew
        cases hnew
      rw [if_pos hnew, hw, lruEntry_fields hnew, hc.rdata]
      simp
    · rw [lruEntry_kept hnew, hnew, if_neg Bool.false_ne_true, if_neg fun h => hset ⟨h.1, h.2.1⟩]
      exact hc.queued p hp hlru hkept w

theorem comb_wtag {n : ℕ} (hn : writePort c i = some n) : (comb c r i).wtag = i.tagIn n := by
  simp only [comb, hn]

-- ---------------------------------------------------------------------------
-- Runs
-- ---------------------------------------------------------------------------

section Runs

variable {r : Registers} {i : ℕ → In} {a w t : ℕ}

theorem writePort_eq (h : Guarantees c i) {n : ℕ} (hn : n < c.cores) (hwr : (i t).wr n = true) :
    writePort c (i t) = some n := by
  cases hp : writePort c (i t) with
  | none =>
    rw [writePort, List.find?_eq_none] at hp
    exact absurd hwr (hp n (by simpa using hn))
  | some m =>
    have hm := List.mem_of_find?_eq_some hp
    rw [List.mem_reverse, List.mem_range] at hm
    rw [h.oneWriter t m hm n hn (List.find?_some hp) hwr]

theorem writePort_isSome : (writePort c (i t)).isSome = (List.range c.cores).any (i t).wr := by
  rw [writePort, Bool.eq_iff_iff, List.find?_isSome, List.any_eq_true]
  simp

theorem writeTag_run (hr : r.writeTag = false) (t : ℕ) :
    (run (comb c) r i t).writeTag = secondCycle c i t := by
  induction t with
  | zero => exact hr
  | succ t ih =>
    show ((writePort c (i t)).isSome && !(run (comb c) r i t).writeTag) = _
    rw [ih, writePort_isSome, secondCycle]

/-- The port that writes, with its tag in the registers. -/
structure Second (c : Config) (r : Registers) (i : In) (n : ℕ) : Prop extends Writes c r i where
  port : n < c.cores
  wr : i.wr n = true
  wprt : r.wprt = n
  iaddr : r.iaddr n = indexOf c (i.addr n)
  wtag : r.wtag = i.tagIn n

/-- The second cycle of a tag write follows its first. -/
theorem exists_second (h : Guarantees c i) (hs : secondCycle c i t = true) :
    ∃ n, Second c (run (comb c) r i t) (i t) n := by
  rcases t with _ | t
  · cases hs
  rw [secondCycle, Bool.and_eq_true, List.any_eq_true, Bool.not_eq_true'] at hs
  obtain ⟨⟨n, hn, hwr⟩, hfirst⟩ := hs
  rw [List.mem_range] at hn
  obtain ⟨hwr', hadr, htag⟩ := h.held t n hn hwr hfirst
  have hport := writePort_eq h hn hwr
  refine ⟨n, ⟨?_, fun p hp => h.noRead t n hn p hp hwr⟩, hn, hwr', ?_, ?_, ?_⟩
  · rw [writePort_eq h hn hwr']
    rfl
  · show (writePort c (i t)).getD _ = n
    rw [hport]
    rfl
  · show indexOf c ((i t).addr n) = _
    rw [hadr]
  · exact (comb_wtag hport).trans htag.symm

theorem writes_run (hr : r.writeTag = false) (h : Guarantees c i)
    (hw : (run (comb c) r i t).writeTag = true) : Writes c (run (comb c) r i t) (i t) := by
  rw [writeTag_run hr] at hw
  obtain ⟨n, hn⟩ := exists_second h hw
  exact hn.toWrites

theorem consistent_run (hr : IsReset r) (h : Guarantees c i) (t : ℕ) :
    Consistent c (run (comb c) r i t) := by
  induction t with
  | zero => exact hr.consistent
  | succ t ih => exact ih.step (writes_run hr.writeTag h)

theorem fields_of_completes (hr : IsReset r) (h : Guarantees c i) {n : ℕ}
    (hc : Completes c i a w t n) :
    ((run (comb c) r i (t + 1)).mem a).fields w =
      (((i t).tagIn n).valid, ((i t).tagIn n).dirty, ((i t).tagIn n).taddr) := by
  obtain ⟨m, hm⟩ := exists_second (r := r) h hc.second
  obtain rfl := h.oneWriter t m hm.port n hc.port hm.wr hc.wr
  show ((nextMem c (run (comb c) r i t) (i t)) a).fields w = _
  rw [fields_nextMem (consistent_run hr h t) (writes_run hr.writeTag h), if_pos, hm.wtag]
  refine ⟨(writeTag_run hr.writeTag t).trans hc.second, ?_, ?_⟩
  · rw [hm.wprt, hm.iaddr, hc.set]
  · rw [hm.wtag, hc.way]

theorem fields_of_not_completes (hr : IsReset r) (h : Guarantees c i)
    (hc : ∀ n, ¬ Completes c i a w t n) :
    ((run (comb c) r i (t + 1)).mem a).fields w = ((run (comb c) r i t).mem a).fields w := by
  show ((nextMem c (run (comb c) r i t) (i t)) a).fields w = _
  rw [fields_nextMem (consistent_run hr h t) (writes_run hr.writeTag h), if_neg]
  rintro ⟨hw, hset, hway⟩
  rw [writeTag_run hr.writeTag] at hw
  obtain ⟨n, hn⟩ := exists_second (r := r) h hw
  refine hc n ⟨hn.port, hw, hn.wr, ?_, ?_⟩
  · rw [hset, hn.wprt, hn.iaddr]
  · rw [hway, hn.wtag]

/-- At every time each way of each set has the tag last written to it, or that of the start. -/
theorem tags_last_written (hr : IsReset r) (h : Guarantees c i) (a w t : ℕ) :
    (∀ u n, LastWrite c i a w t u n → ((run (comb c) r i t).mem a).fields w =
      (((i u).tagIn n).valid, ((i u).tagIn n).dirty, ((i u).tagIn n).taddr)) ∧
    ((∀ u < t, ∀ n, ¬ Completes c i a w u n) →
      ((run (comb c) r i t).mem a).fields w = (r.mem a).fields w) := by
  induction t with
  | zero => exact ⟨fun u n hl => absurd hl.before (Nat.not_lt_zero u), fun _ => rfl⟩
  | succ t ih =>
    constructor
    · rintro u n ⟨hc, hbefore, hlast⟩
      rcases Nat.eq_or_lt_of_le (Nat.le_of_lt_succ hbefore) with rfl | hlt
      · exact fields_of_completes hr h hc
      · rw [fields_of_not_completes hr h fun m => hlast t m hlt (Nat.lt_succ_self t)]
        exact ih.1 u n ⟨hc, hlt, fun v m huv hvt => hlast v m huv (Nat.lt_succ_of_lt hvt)⟩
    · intro hnone
      rw [fields_of_not_completes hr h fun n => hnone t (Nat.lt_succ_self t) n]
      exact ih.2 fun u hu => hnone u (Nat.lt_succ_of_lt hu)

def twoWays : Config :=
  ⟨1, 1, 1, 1, 1, true, some 0, 0, one_bankLd, one_setLd, by decide, one_ramPort⟩

/-- Way 0 of each set holds tag 0. -/
def warm : Registers :=
  let e : Entry := ⟨fun w => w == 0, fun _ => false, fun _ => 0, 0⟩
  ⟨0, fun _ => false, fun _ => 0, fun _ => e, fun _ => 0, fun _ => 0, fun _ => false, false, 0,
    ⟨false, false, 0, 0⟩, fun _ => e, fun _ => e⟩

/-- Both ports read tag 0 of set 0; then port 0 invalidates it. -/
def readThenInvalidate (t : ℕ) : In where
  rd _ := t == 0
  wr n := n == 0 && (t == 1 || t == 2)
  addr _ := 0
  tagIn _ := ⟨false, false, 0, 0⟩

theorem readThenInvalidate_guarantees : Guarantees twoWays readThenInvalidate where
  oneWriter t m hm n hn hwm hwn := by
    simp only [readThenInvalidate, Bool.and_eq_true, beq_iff_eq] at hwm hwn
    rw [hwm.1, hwn.1]
  held t n hn hwr hs := by
    rcases t with _ | _ | _ | t
    · simp [readThenInvalidate] at hwr
    · exact ⟨hwr, rfl, rfl⟩
    · cases hs
    · simp [readThenInvalidate] at hwr
  noRead t m hm n hn hwr := by
    rcases t with _ | t
    · simp [readThenInvalidate] at hwr
    · rfl

theorem tags_last_written_invalidated :
    ((run (comb twoWays) warm readThenInvalidate 5).mem 0).fields 0 = (false, false, 0) :=
  (tags_last_written ⟨fun _ => rfl, rfl, fun _ => rfl⟩ readThenInvalidate_guarantees 0 0 5).1 2 0
    ⟨⟨by decide, rfl, rfl, by decide, rfl⟩, by decide, fun v m hv _ hc => by
      obtain ⟨v, rfl⟩ := Nat.exists_eq_add_of_le' hv
      simpa [readThenInvalidate] using hc.wr⟩

end Runs

end ParaNut.Memu.TagRam
