import ParaNut.Lib.Recency
import ParaNut.Memu.Tags

/-!
# LRU replacement in the tag RAM (`mtagram.vhd`)

The use word of a set is a packed recency order of its ways: `get_new_use`
moves a way to the end, and the victim of a miss is the head.
-/

namespace ParaNut.Memu.TagRam

open Lib.Recency (touch Older)

-- ---------------------------------------------------------------------------
-- The use word
-- ---------------------------------------------------------------------------

/-- `TAG_INIT`, chosen by `CFG_MEMU_CACHE_WAYS_LD * CFG_MEMU_CACHE_REPLACE_LRU` -/
def tagInit (c : Config) : ℕ :=
  [0x0, 0x0, 0x24].getD (c.waysLd * c.replaceLru.toNat) 0

/-- The initial use word; all else in an entry is 0. -/
def initUse (c : Config) : BitVec 6 := BitVec.ofNat 6 (tagInit c)

/-- The ways that a use word lists, the least recently used first. -/
def order (c : Config) (use : BitVec 6) : List ℕ :=
  if c.ways = 2 then [use.toNat % 2, 1 - use.toNat % 2]
  else [(useWay use 0).toNat, (useWay use 1).toNat, (useWay use 2).toNat, (useWay use 3).toNat]

/-- The use word lists every way once. -/
def Permuted (c : Config) (use : BitVec 6) : Prop := (order c use).Perm (List.range c.ways)

/-- A small unit for each number of ways. -/
def withWays (n : Fin 3) : Config :=
  ⟨0, 1, 1, n, 1, true, some 0, 0, one_bankLd, one_setLd, Nat.le_of_lt_succ n.isLt, one_ramPort⟩

instance (c : Config) (use : BitVec 6) : Decidable (Permuted c use) :=
  inferInstanceAs (Decidable (List.Perm _ _))

section Order

variable {c : Config}

/-- Only the number of ways matters. -/
theorem order_congr {c' : Config} (h : c.ways = c'.ways) (use : BitVec 6) :
    order c use = order c' use := by
  rw [order, order, h]

theorem getNewUse_congr {c' : Config} (h : c.ways = c'.ways) (use : BitVec 6) (way : ℕ) :
    getNewUse c use way = getNewUse c' use way := by
  rw [getNewUse, getNewUse, h]

theorem exists_withWays (hways : 1 < c.ways) : ∃ n : Fin 3, n ≠ 0 ∧ n.val = c.waysLd ∧
    c.ways = (withWays n).ways := by
  refine ⟨⟨c.waysLd, Nat.lt_succ_of_le c.waysLd_range⟩, ?_, rfl, rfl⟩
  intro h
  rw [Config.ways, show c.waysLd = 0 from congrArg Fin.val h] at hways
  exact absurd hways (by decide)

theorem order_initUse (hways : 1 < c.ways) (hlru : c.replaceLru = true) :
    order c (initUse c) = List.range c.ways := by
  have hall : ∀ n : Fin 3, n ≠ 0 →
      order (withWays n) (initUse (withWays n)) = List.range (withWays n).ways := by decide
  obtain ⟨n, hn, hld, hc⟩ := exists_withWays hways
  have hinit : initUse c = initUse (withWays n) := by
    rw [initUse, initUse, tagInit, tagInit, hlru, ← hld]
    rfl
  rw [order_congr hc, hc, hinit]
  exact hall n hn

/-- An access to a way moves it to the end. -/
theorem order_getNewUse (hways : 1 < c.ways) {use : BitVec 6} (h : Permuted c use) {way : ℕ}
    (hway : way < c.ways) : order c (getNewUse c use way) = touch (order c use) way := by
  have hall : ∀ n : Fin 3, n ≠ 0 → ∀ use, Permuted (withWays n) use → ∀ way < (withWays n).ways,
      order (withWays n) (getNewUse (withWays n) use way) = touch (order (withWays n) use) way := by
    decide +kernel
  obtain ⟨n, hn, -, hc⟩ := exists_withWays hways
  rw [Permuted, order_congr hc, hc] at h
  rw [order_congr hc, order_congr hc use, getNewUse_congr hc]
  exact hall n hn use h way (hc ▸ hway)

theorem victimWay_lru (hways : 1 < c.ways) (hlru : c.replaceLru = true) (r : Registers)
    (e : Entry) : victimWay c r e = e.lruUse.toNat % c.ways := by
  rw [victimWay, if_neg (Nat.ne_of_gt hways), if_pos hlru]

/-- The victim of a miss is the head of the order. -/
theorem victimWay_head (hways : 1 < c.ways) (hlru : c.replaceLru = true) (r : Registers)
    (e : Entry) : ∃ rest, order c e.lruUse = victimWay c r e :: rest := by
  have hall : ∀ n : Fin 3, n ≠ 0 → ∀ use : BitVec 6,
      (order (withWays n) use).head? = some (use.toNat % (withWays n).ways) := by decide +kernel
  obtain ⟨n, hn, -, hc⟩ := exists_withWays hways
  have hhead := hall n hn e.lruUse
  rw [← order_congr hc, ← hc] at hhead
  rw [victimWay_lru hways hlru]
  exact List.head?_eq_some_iff.mp hhead

end Order

-- ---------------------------------------------------------------------------
-- Every cycle
-- ---------------------------------------------------------------------------

section Cycle

variable {c : Config} {r : Registers} {i : In}

/-- All use words, in the RAM and in the queue, list every way once. -/
structure Permutes (c : Config) (r : Registers) : Prop where
  rdata : ∀ p, r.rdata p = r.mem (r.iaddr p)
  mem : ∀ a, Permuted c (r.mem a).lruUse
  queued : ∀ p < c.cores, useLru c = true → r.lruUseWr p = true →
    Permuted c (r.lruEntry p).lruUse
  wtag : r.writeTag = true → r.wtag.way < c.ways

theorem Permuted.access (hways : 1 < c.ways) {use : BitVec 6} (h : Permuted c use) {way : ℕ}
    (hway : way < c.ways) : Permuted c (getNewUse c use way) := by
  rw [Permuted, order_getNewUse hways h hway]
  exact (Lib.Recency.touch_perm (h.mem_iff.mpr (List.mem_range.mpr hway))).trans h

theorem findWay_lt {e : Entry} {taddr way : ℕ} (h : findWay c e taddr = some way) :
    way < c.ways := by
  have hmem := List.mem_of_find?_eq_some h
  rwa [List.mem_reverse, List.mem_range] at hmem

/-- What a hit queues. -/
theorem newUse_eq {p : ℕ} {use : BitVec 6} (h : newUse c r p = some use) :
    ∃ way, findWay c (r.rdata p) (r.taddr p) = some way ∧
      use = getNewUse c (r.rdata p).lruUse way := by
  unfold newUse at h
  cases hf : findWay c (r.rdata p) (r.taddr p) with
  | none =>
    rw [hf] at h
    cases h
  | some way =>
    simp only [hf] at h
    split at h
    · cases h
      exact ⟨way, rfl, rfl⟩
    · cases h

theorem Permutes.nextMem (h : Permutes c r) (hways : 1 < c.ways) (a : ℕ) :
    Permuted c (nextMem c r i a).lruUse := by
  unfold TagRam.nextMem
  cases hr : ramWrite c r i with
  | none => exact h.mem a
  | some write =>
    obtain ⟨x, e⟩ := write
    have he : Permuted c e.lruUse := by
      rcases ramWrite_cases hr with ⟨hw, rfl, rfl⟩ | ⟨p, hp, rfl, rfl⟩
      · have hmem := h.mem (r.iaddr r.wprt)
        rw [← h.rdata] at hmem
        change Permuted c (if useLru c then _ else _)
        split
        · exact hmem.access hways (h.wtag hw)
        · exact hmem
      · obtain ⟨hlru, hlt, hq⟩ := writeLruPrt_some hp
        exact h.queued p hlt hlru hq
    show Permuted c (Function.update r.mem x e a).lruUse
    rcases eq_or_ne a x with rfl | hne
    · rwa [Function.update_self]
    · rw [Function.update_of_ne hne]
      exact h.mem a

theorem Permutes.step (h : Permutes c r) (hways : 1 < c.ways)
    (htag : ∀ n, (i.tagIn n).way < c.ways) : Permutes c (comb c r i) where
  rdata p := rfl
  mem := h.nextMem hways
  queued p hp hlru hq := by
    rcases queued_cases hlru hq with hnew | ⟨hnew, hkept, -⟩
    · have hnew' := hnew
      rw [newUseWr, Bool.and_eq_true] at hnew
      obtain ⟨use, huse⟩ := Option.isSome_iff_exists.mp hnew.1
      obtain ⟨way, hf, rfl⟩ := newUse_eq huse
      have hentry : ((comb c r i).lruEntry p).lruUse = getNewUse c (r.rdata p).lruUse way := by
        simp only [comb, huse, hnew.2]
      rw [hentry, h.rdata]
      exact (h.mem _).access hways (findWay_lt hf)
    · rw [lruEntry_kept hnew]
      exact h.queued p hp hlru hkept
  wtag hw := by
    simp only [comb, Bool.and_eq_true] at hw
    obtain ⟨n, hn⟩ := Option.isSome_iff_exists.mp hw.1
    simp only [comb, hn]
    exact htag n

theorem permutes_run (hways : 1 < c.ways) (h : Permutes c r) {i : ℕ → In}
    (htag : ∀ t n, ((i t).tagIn n).way < c.ways) (t : ℕ) : Permutes c (Lib.run (comb c) r i t) := by
  induction t with
  | zero => exact h
  | succ t ih => exact ih.step hways (htag t)

end Cycle

-- ---------------------------------------------------------------------------
-- Accesses, one after the other
-- ---------------------------------------------------------------------------

def idleIn : In := ⟨fun _ => false, fun _ => false, fun _ => 0, fun _ => ⟨false, false, 0, 0⟩⟩

def readIn (p : ℕ) (adr : TWord) : In := { idleIn with rd := (· == p), addr := fun _ => adr }

def writeIn (p : ℕ) (adr : TWord) (tag : CacheTag) : In :=
  { idleIn with wr := (· == p), addr := fun _ => adr, tagIn := fun _ => tag }

/-- An access of a port to the set of an address. -/
inductive Access
  | read (p : ℕ) (adr : TWord)
  | write (p : ℕ) (adr : TWord) (tag : CacheTag)

/-- The inputs until it is done: what a hit queues is written in the second cycle after it. -/
def Access.inputs : Access → List In
  | .read p adr => [readIn p adr, idleIn, idleIn]
  | .write p adr tag => [writeIn p adr tag, writeIn p adr tag]

/-- Ports and ways are in their ranges. -/
def Access.InRange (c : Config) : Access → Prop
  | .read p _ => p < c.cores
  | .write p _ tag => p < c.cores ∧ tag.way < c.ways

def perform (c : Config) (r : Registers) (x : Access) : Registers := x.inputs.foldl (comb c) r

/-- What a port sees in the cycle after a read. -/
def lookUp (c : Config) (r : Registers) (p : ℕ) (adr : TWord) : CacheTag :=
  tagOut c (comb c r (readIn p adr)) p

/-- The way of set `a` that a hit or a tag write accesses, if it is to this set. -/
def wayAccessed (c : Config) (a : ℕ) (r : Registers) : Access → List ℕ
  | .read _ adr =>
    if indexOf c adr = a then (findWay c (r.mem a) (tagOf c adr)).toList else []
  | .write _ adr tag => if indexOf c adr = a then [tag.way] else []

/-- The ways of set `a` that are accessed. -/
def waysAccessed (c : Config) (a : ℕ) : Registers → List Access → List ℕ
  | _, [] => []
  | r, x :: rest => wayAccessed c a r x ++ waysAccessed c a (perform c r x) rest

/-- Nothing is under way. -/
structure Quiet (r : Registers) : Prop extends IsReset r where
  readTag : ∀ p, r.readTag p = false

section Perform

variable {c : Config} {r : Registers} {i : In}

theorem writeLruPrt_none (h : ∀ p, r.lruUseWr p = false) : writeLruPrt c r = none := by
  unfold writeLruPrt
  split
  · rw [List.find?_eq_none]
    intro p _
    rw [h p]
    exact Bool.false_ne_true
  · rfl

theorem nextMem_none (hq : ∀ p, r.lruUseWr p = false) (hw : r.writeTag = false) :
    nextMem c r i = r.mem := by
  unfold nextMem ramWrite
  rw [writeLruPrt_none hq, hw]
  rfl

theorem newUseWr_of_not_read {p : ℕ} (h : r.readTag p = false) : newUseWr c r p = false := by
  rw [newUseWr, h, Bool.and_false]

theorem nextLruUseWr_empty {p : ℕ} (h : r.lruUseWr p = false) (hlru : useLru c = true) :
    nextLruUseWr c r p = newUseWr c r p := by
  simp [nextLruUseWr, h, hlru]

theorem writePort_none (h : ∀ n, i.wr n = false) : writePort c i = none := by
  unfold writePort
  rw [List.find?_eq_none]
  intro n _
  rw [h n]
  exact Bool.false_ne_true

/-- The read cycle: the entry is read out. -/
theorem quiet_read (h : Quiet r) (hlru : useLru c = true) (p : ℕ) (adr : TWord) :
    let r' := comb c r (readIn p adr)
    r'.mem = r.mem ∧ r'.rdata p = r.mem (indexOf c adr) ∧ r'.taddr p = tagOf c adr ∧
      r'.iaddr p = indexOf c adr ∧ r'.writeTag = false ∧ (∀ q, r'.lruUseWr q = false) ∧
      ∀ q, r'.readTag q = (q == p) := by
  have hmem := nextMem_none (c := c) (i := readIn p adr) h.lruUseWr h.writeTag
  have hport : writePort c (readIn p adr) = none := writePort_none fun _ => rfl
  refine ⟨hmem, congrFun hmem _, rfl, rfl, ?_, fun q => ?_, fun q => rfl⟩
  · simp [comb, hport]
  · exact (nextLruUseWr_empty (h.lruUseWr q) hlru).trans (newUseWr_of_not_read (h.readTag q))

theorem find_port {f : ℕ → Bool} {p n : ℕ} (hf : ∀ q, f q = (q == p)) (hp : p < n) :
    (List.range n).reverse.find? f = some p := by
  cases hfind : (List.range n).reverse.find? f with
  | none =>
    have hnone := List.find?_eq_none.mp hfind p (by simpa using hp)
    rw [hf p, beq_self_eq_true] at hnone
    exact absurd rfl hnone
  | some q =>
    have hq := List.find?_some hfind
    rw [hf q, beq_iff_eq] at hq
    rw [hq]

/-- What has been read queues its use word, if that changes. -/
theorem read_queues {r : Registers} {p : ℕ} (hlru : useLru c = true)
    (hread : ∀ q, r.readTag q = (q == p)) (hqueue : ∀ q, r.lruUseWr q = false)
    (hw : r.writeTag = false) :
    let r' := comb c r idleIn
    r'.mem = r.mem ∧ (∀ q, r'.lruUseWr q = ((newUse c r p).isSome && q == p)) ∧
      (∀ use, newUse c r p = some use → r'.lruUseIadr p = r.iaddr p ∧
        r'.lruEntry p = { r.rdata p with lruUse := use }) ∧
      r'.writeTag = false ∧ ∀ q, r'.readTag q = false := by
  have hport : writePort c idleIn = none := writePort_none fun _ => rfl
  refine ⟨nextMem_none hqueue hw, fun q => ?_, fun use huse => ?_, by simp [comb, hport],
    fun q => rfl⟩
  · refine (nextLruUseWr_empty (hqueue q) hlru).trans ?_
    rw [newUseWr, hread q]
    by_cases hq : q = p
    · rw [hq]
    · rw [beq_eq_false_iff_ne.mpr hq, Bool.and_false, Bool.and_false]
  · simp [comb, newUseWr, huse, hread]

/-- The queue is written when no tag is. -/
theorem queue_written {r : Registers} {p : ℕ} (hlru : useLru c = true) (hp : p < c.cores)
    {queued : Bool} (hqueue : ∀ q, r.lruUseWr q = (queued && q == p))
    (hw : r.writeTag = false) (hread : ∀ q, r.readTag q = false) :
    (comb c r idleIn).mem =
        (if queued then Function.update r.mem (r.lruUseIadr p) (r.lruEntry p) else r.mem) ∧
      Quiet (comb c r idleIn) := by
  have hport : writePort c idleIn = none := writePort_none fun _ => rfl
  have hwrite : (comb c r idleIn).writeTag = false := by simp [comb, hport]
  cases queued with
  | false =>
    have hempty : ∀ q, r.lruUseWr q = false := hqueue
    refine ⟨nextMem_none hempty hw, ⟨⟨fun q => ?_, hwrite, fun q => rfl⟩, fun q => rfl⟩⟩
    exact (nextLruUseWr_empty (hempty q) hlru).trans (newUseWr_of_not_read (hread q))
  | true =>
    have hprt : writeLruPrt c r = some p := by
      rw [writeLruPrt, if_pos hlru]
      exact find_port hqueue hp
    refine ⟨?_, ⟨⟨fun q => ?_, hwrite, fun q => rfl⟩, fun q => rfl⟩⟩
    · simp [comb, nextMem, ramWrite, hprt, hw]
    · have hnew := newUseWr_of_not_read (c := c) (hread q)
      by_cases hq : q = p
      · subst hq
        simp [comb, nextLruUseWr, hlru, hprt, hw, hnew]
      · simp [comb, nextLruUseWr, hlru, hqueue, hnew, hq]

theorem perform_read (h : Quiet r) (hlru : useLru c = true) {p : ℕ} (hp : p < c.cores)
    (adr : TWord) :
    (perform c r (.read p adr)).mem =
        (match newUse c (comb c r (readIn p adr)) p with
        | some use => Function.update r.mem (indexOf c adr)
            { r.mem (indexOf c adr) with lruUse := use }
        | none => r.mem) ∧
      Quiet (perform c r (.read p adr)) := by
  obtain ⟨hmem1, hdata, -, hiaddr, hw1, hq1, hread1⟩ := quiet_read h hlru p adr
  obtain ⟨hmem2, hq2, hentry, hw2, hread2⟩ := read_queues hlru hread1 hq1 hw1
  obtain ⟨hmem3, hquiet⟩ := queue_written hlru hp hq2 hw2 hread2
  refine ⟨hmem3.trans ?_, hquiet⟩
  rw [hmem2, hmem1]
  cases huse : newUse c (comb c r (readIn p adr)) p with
  | none => rfl
  | some use =>
    obtain ⟨hset, he⟩ := hentry use huse
    rw [Option.isSome_some, if_pos rfl, hset, he, hiaddr, hdata]

theorem perform_write (h : Quiet r) (hlru : useLru c = true) {p : ℕ} (hp : p < c.cores)
    (adr : TWord) (tag : CacheTag) :
    let x := indexOf c adr
    ((perform c r (.write p adr tag)).mem x).lruUse = getNewUse c (r.mem x).lruUse tag.way ∧
      (∀ a, a ≠ x → (perform c r (.write p adr tag)).mem a = r.mem a) ∧
      Quiet (perform c r (.write p adr tag)) := by
  intro x
  have hport : writePort c (writeIn p adr tag) = some p := find_port (fun _ => rfl) hp
  let r' := comb c r (writeIn p adr tag)
  have hmem1 : r'.mem = r.mem := nextMem_none h.lruUseWr h.writeTag
  have hdata : r'.rdata p = r.mem x := congrFun hmem1 _
  have hw1 : r'.writeTag = true := by simp [r', comb, hport, h.writeTag]
  have hwprt : r'.wprt = p := by simp [r', comb, hport]
  have hwtag : r'.wtag = tag := by
    simp only [r', comb, hport]
    rfl
  have hq1 : ∀ q, r'.lruUseWr q = false := fun q =>
    (nextLruUseWr_empty (h.lruUseWr q) hlru).trans (newUseWr_of_not_read (h.readTag q))
  have hmem2 : (perform c r (.write p adr tag)).mem =
      Function.update r.mem x (wentry c r') := by
    change nextMem c r' (writeIn p adr tag) = _
    rw [nextMem, ramWrite, writeLruPrt_none hq1, hw1, hport, hmem1, hwprt]
    rfl
  refine ⟨?_, fun a ha => ?_, ⟨⟨fun q => ?_, ?_, fun q => rfl⟩, fun q => rfl⟩⟩
  · rw [hmem2, Function.update_self, wentry, hwprt, hwtag, hdata, if_pos hlru]
  · rw [hmem2, Function.update_of_ne ha]
  · exact (nextLruUseWr_empty (hq1 q) hlru).trans (newUseWr_of_not_read rfl)
  · change ((writePort c (writeIn p adr tag)).isSome && !r'.writeTag) = false
    rw [hw1, hport]
    rfl

/-- An access moves its way to the end of the order of its set. -/
theorem perform_use (h : Quiet r) (hlru : useLru c = true) {x : Access} (hx : x.InRange c)
    (a : ℕ) :
    ((perform c r x).mem a).lruUse =
        (wayAccessed c a r x).foldl (getNewUse c) (r.mem a).lruUse ∧ Quiet (perform c r x) := by
  cases x with
  | write p adr tag =>
    obtain ⟨hset, hother, hquiet⟩ := perform_write h hlru hx.1 adr tag
    refine ⟨?_, hquiet⟩
    by_cases ha : indexOf c adr = a
    · rw [wayAccessed, if_pos ha, ← ha, hset]
      rfl
    · rw [wayAccessed, if_neg ha, hother a (Ne.symm ha)]
      rfl
  | read p adr =>
    obtain ⟨hmem, hquiet⟩ := perform_read h hlru hx adr
    obtain ⟨-, hdata, htaddr, -⟩ := quiet_read h hlru p adr
    refine ⟨?_, hquiet⟩
    rw [hmem, newUse, hdata, htaddr, hlru, wayAccessed]
    by_cases ha : indexOf c adr = a
    · rw [if_pos ha, ha]
      cases hf : findWay c (r.mem a) (tagOf c adr) with
      | none => rfl
      | some way =>
        by_cases hsame : getNewUse c (r.mem a).lruUse way = (r.mem a).lruUse <;> simp [hsame]
    · rw [if_neg ha]
      split
      · rw [Function.update_of_ne (Ne.symm ha)]
        rfl
      · rfl

theorem perform_run (hlru : useLru c = true) (a : ℕ) {xs : List Access}
    (hxs : ∀ x ∈ xs, x.InRange c) (h : Quiet r) :
    ((xs.foldl (perform c) r).mem a).lruUse =
        (waysAccessed c a r xs).foldl (getNewUse c) (r.mem a).lruUse ∧
      Quiet (xs.foldl (perform c) r) := by
  induction xs generalizing r with
  | nil => exact ⟨rfl, h⟩
  | cons x xs ih =>
    obtain ⟨huse, hquiet⟩ := perform_use h hlru (hxs x List.mem_cons_self) a
    have hrest := ih (fun y hy => hxs y (List.mem_cons_of_mem _ hy)) hquiet
    rw [List.foldl_cons, waysAccessed, List.foldl_append, ← huse]
    exact hrest

theorem waysAccessed_lt {a : ℕ} {xs : List Access} (hxs : ∀ x ∈ xs, x.InRange c) :
    ∀ w ∈ waysAccessed c a r xs, w < c.ways := by
  induction xs generalizing r with
  | nil => exact fun w hw => nomatch hw
  | cons x xs ih =>
    intro w hw
    rw [waysAccessed, List.mem_append] at hw
    rcases hw with hw | hw
    · cases x with
      | write p adr tag =>
        rw [wayAccessed] at hw
        split at hw
        · rw [List.mem_singleton.mp hw]
          exact (hxs _ List.mem_cons_self).2
        · exact absurd hw List.not_mem_nil
      | read p adr =>
        rw [wayAccessed] at hw
        split at hw
        · exact findWay_lt (Option.mem_toList.mp hw)
        · exact absurd hw List.not_mem_nil
    · exact ih (fun y hy => hxs y (List.mem_cons_of_mem _ hy)) w hw

/-- The use word after a sequence of accesses. -/
theorem order_foldl (hways : 1 < c.ways) {acc : List ℕ} (hacc : ∀ w ∈ acc, w < c.ways)
    {use : BitVec 6} (h : Permuted c use) :
    order c (acc.foldl (getNewUse c) use) = acc.foldl touch (order c use) ∧
      Permuted c (acc.foldl (getNewUse c) use) := by
  induction acc generalizing use with
  | nil => exact ⟨rfl, h⟩
  | cons w acc ih =>
    have hw := hacc w List.mem_cons_self
    have hrest := ih (fun v hv => hacc v (List.mem_cons_of_mem _ hv)) (h.access hways hw)
    rw [order_getNewUse hways h hw] at hrest
    exact hrest

theorem lookUp_miss (h : Quiet r) (hlru : useLru c = true) {p : ℕ} {adr : TWord}
    (hmiss : (lookUp c r p adr).valid = false) :
    (lookUp c r p adr).way = victimWay c (comb c r (readIn p adr)) (r.mem (indexOf c adr)) := by
  obtain ⟨-, hdata, htaddr, -⟩ := quiet_read h hlru p adr
  have hf : findWay c (r.mem (indexOf c adr)) (tagOf c adr) = none := by
    rw [lookUp, tagOut, hdata, htaddr] at hmiss
    rwa [Option.isSome_eq_false_iff, Option.isNone_iff_eq_none] at hmiss
  simp only [lookUp, tagOut, hdata, htaddr, hf, Option.getD_none]

end Perform

end ParaNut.Memu.TagRam
