import ParaNut.Lsu.Buffer

/-!
# How a write buffer advances

What both load/store units do to their buffer in a cycle, and what follows for
stores on their way to memory: drain, then take a store. Valid entries come
first and move down one by one, so entry 0 is the oldest. A store to an I/O
address joins no entry and is taken into an empty buffer only.
-/

namespace ParaNut.Lsu

open Lib

/-- The valid entries come first. -/
def Contiguous (c : Config) (r : Registers) : Prop :=
  ∀ n, n + 1 < c.size → r.wbufValid (n + 1) ≠ 0 → r.wbufValid n ≠ 0

/-- Entry 0 is removed when it is in memory; `ack` is the write port's. -/
inductive Drains (c : Config) (ack : Bool) (r : Registers) : Registers → Prop
  | keep : Drains c ack r { r with wbufDirty0 := r.wbufDirty0 && !ack }
  | shift (done : r.wbufDirty0 = false ∨ ack = true) : Drains c ack r (r.shift c)

/-- A store to `adr` may be taken into entry `n`. -/
structure Free (c : Config) (io : TWord → Bool) (adr : TWord) (v : Registers) (n : ℕ) : Prop where
  lt : n < c.size
  below : ∀ j < n, v.wbufValid j ≠ 0
  word : v.wbufValid n ≠ 0 → wordOf (v.wbufAdr n) = wordOf adr
  only : ∀ j < c.size, j ≠ n → v.wbufValid j ≠ 0 → wordOf (v.wbufAdr j) ≠ wordOf adr
  alone : io adr = true → n = 0 ∧ ∀ j < c.size, v.wbufValid j = 0

/-- From `v` to `v'` entry `n` takes the bytes `sel` of a store to `adr`. -/
structure Takes (c : Config) (io : TWord → Bool) (adr data : TWord) (sel : TByteSel)
    (v : Registers) (n : ℕ) (v' : Registers) : Prop extends Free c io adr v n where
  adr : wordOf (v'.wbufAdr n) = wordOf adr
  valid : v'.wbufValid n = v.wbufValid n ||| sel
  data : ∀ l : Fin 4, getElem sel l.val l.isLt = true → byte (v'.wbufData n) l = byte data l
  dirty0 : v'.wbufDirty0 = if n = 0 then true else v.wbufDirty0
  other : ∀ j, j ≠ n → v'.wbufAdr j = v.wbufAdr j ∧ v'.wbufData j = v.wbufData j ∧
    v'.wbufValid j = v.wbufValid j

/-- One cycle of the buffer. -/
inductive Advance (c : Config) (io : TWord → Bool) (adr data : TWord) (sel : TByteSel)
    (ack : Bool) (r : Registers) : Bool → Registers → Prop
  | idle {v} (drains : Drains c ack r v) : Advance c io adr data sel ack r false v
  | store {v n v'} (drains : Drains c ack r v) (takes : Takes c io adr data sel v n v') :
    Advance c io adr data sel ack r true v'

variable {c : Config} {io : TWord → Bool} {adr data : TWord} {sel : TByteSel} {ack taken : Bool}
  {r v v' : Registers} {n : ℕ}

-- ---------------------------------------------------------------------------
-- The order of the entries
-- ---------------------------------------------------------------------------

theorem Contiguous.below (h : Contiguous c r) {j : ℕ} (hn : n < c.size)
    (hv : r.wbufValid n ≠ 0) (hj : j ≤ n) : r.wbufValid j ≠ 0 := by
  induction n with
  | zero => rwa [Nat.le_zero.mp hj]
  | succ n ih =>
    rcases Nat.lt_or_eq_of_le hj with hlt | rfl
    · exact ih (Nat.lt_of_succ_lt hn) (h n hn hv) (Nat.le_of_lt_succ hlt)
    · exact hv

theorem Contiguous.above (h : Contiguous c r) {j : ℕ} (hv : r.wbufValid n = 0) (hnj : n ≤ j)
    (hj : j < c.size) : r.wbufValid j = 0 := by
  by_contra hne
  exact h.below hj hne hnj hv

theorem shift_wbufValid (n : ℕ) :
    (r.shift c).wbufValid n = if n + 1 < c.size then r.wbufValid (n + 1) else 0 :=
  rfl

/-- What every reachable buffer satisfies: no word twice, no gaps, and I/O stores in entry 0. -/
structure Ordered (c : Config) (io : TWord → Bool) (r : Registers) : Prop where
  unique : Unique c r
  contiguous : Contiguous c r
  ioFirst : ∀ j < c.size, j ≠ 0 → r.wbufValid j ≠ 0 → io (r.wbufAdr j) = false

theorem ordered_reset (h : r.IsReset) : Ordered c io r :=
  ⟨fun j _ _ _ hv => absurd (h.1 j) hv, fun n _ hv => absurd (h.1 (n + 1)) hv,
    fun j _ _ hv => absurd (h.1 j) hv⟩

theorem Ordered.drains (h : Ordered c io r) (hd : Drains c ack r v) : Ordered c io v := by
  cases hd with
  | keep => exact ⟨h.unique, h.contiguous, h.ioFirst⟩
  | shift =>
    refine ⟨h.unique.shift, fun n hn hv => ?_, fun j _ _ hv => ?_⟩
    · obtain ⟨hlt, hv', -⟩ := shift_valid_ne hv
      rw [shift_wbufValid, if_pos hn]
      exact h.contiguous _ hlt hv'
    · obtain ⟨hlt, hv', ha⟩ := shift_valid_ne hv
      rw [ha]
      exact h.ioFirst _ hlt (Nat.succ_ne_zero j) hv'

theorem Takes.wordOf_adr (h : Takes c io adr data sel v n v') {j : ℕ}
    (hv : v'.wbufValid j ≠ 0) : (j = n ∧ wordOf (v'.wbufAdr j) = wordOf adr) ∨
      (j ≠ n ∧ v.wbufValid j ≠ 0 ∧ v'.wbufAdr j = v.wbufAdr j) := by
  by_cases hj : j = n
  · exact .inl ⟨hj, hj ▸ h.adr⟩
  · obtain ⟨ha, -, hvalid⟩ := h.other j hj
    exact .inr ⟨hj, hvalid ▸ hv, ha⟩

theorem Ordered.takes (h : Ordered c io v) (hio : ∀ a b, wordOf a = wordOf b → io a = io b)
    (ht : Takes c io adr data sel v n v') : Ordered c io v' where
  unique j k hj hk hvj hvk hw := by
    rcases ht.wordOf_adr hvj with ⟨rfl, haj⟩ | ⟨hjn, hvj', haj⟩ <;>
      rcases ht.wordOf_adr hvk with ⟨rfl, hak⟩ | ⟨hkn, hvk', hak⟩
    · rfl
    · exact absurd (hak ▸ hw.symm.trans haj) (ht.only k hk hkn hvk')
    · exact absurd (haj ▸ hw.trans hak) (ht.only j hj hjn hvj')
    · exact h.unique j k hj hk hvj' hvk' (haj ▸ hak ▸ hw)
  contiguous j hj hv := by
    by_cases hjn : j = n
    · subst hjn
      have hne : j + 1 ≠ j := Nat.succ_ne_self j
      have hold := h.contiguous j hj ((ht.other _ hne).2.2 ▸ hv)
      rw [ht.valid]
      exact fun h0 => hold (BitVec.or_eq_zero_iff.mp h0).1
    · rw [(ht.other j hjn).2.2]
      by_cases hsucc : j + 1 = n
      · exact ht.below j (hsucc ▸ Nat.lt_succ_self j)
      · exact h.contiguous j hj ((ht.other _ hsucc).2.2 ▸ hv)
  ioFirst j hj hne hv := by
    rcases ht.wordOf_adr hv with ⟨rfl, ha⟩ | ⟨-, hv', ha⟩
    · by_contra hs
      rw [Bool.not_eq_false, hio _ _ ha] at hs
      exact hne (ht.alone hs).1
    · rw [ha]
      exact h.ioFirst j hj hne hv'

theorem Ordered.advance (h : Ordered c io r) (hio : ∀ a b, wordOf a = wordOf b → io a = io b)
    (ha : Advance c io adr data sel ack r taken v') : Ordered c io v' := by
  cases ha with
  | idle hd => exact h.drains hd
  | store hd ht => exact (h.drains hd).takes hio ht

-- ---------------------------------------------------------------------------
-- The place of a store
-- ---------------------------------------------------------------------------

/-- No entry holds the word. -/
def Absent (c : Config) (adr : TWord) (r : Registers) : Prop :=
  ∀ j < c.size, r.wbufValid j ≠ 0 → wordOf (r.wbufAdr j) ≠ wordOf adr

/-- No entry holds the word, unless it is one of an I/O address. -/
def Misses (c : Config) (io : TWord → Bool) (adr : TWord) (r : Registers) : Prop :=
  io adr = false → Absent c adr r

/-- What the search for a place comes to; behind the last entry if the buffer is full. -/
inductive Found (c : Config) (io : TWord → Bool) (adr : TWord) (r : Registers) : ℕ → Prop
  | hit {n : ℕ} (lt : n < c.size) (valid : r.wbufValid n ≠ 0)
      (word : wordOf (r.wbufAdr n) = wordOf adr) (plain : io adr = false) : Found c io adr r n
  | empty {n : ℕ} (lt : n < c.size) (below : ∀ j < n, r.wbufValid j ≠ 0)
      (zero : r.wbufValid n = 0) (miss : Misses c io adr r) : Found c io adr r n
  | full (all : ∀ j < c.size, r.wbufValid j ≠ 0) (miss : Misses c io adr r) :
      Found c io adr r c.size

theorem Found.lt_or_full (h : Found c io adr r n) : n < c.size ∨ n = c.size := by
  cases h with
  | hit lt => exact .inl lt
  | empty lt => exact .inl lt
  | full => exact .inr rfl

theorem Found.free (h : Found c io adr r n) (ho : Ordered c io r) (hlt : n < c.size)
    (hio : io adr = true → n = 0) : Free c io adr r n := by
  cases h with
  | hit lt hv hw hp =>
    exact ⟨lt, fun j hj => ho.contiguous.below lt hv (Nat.le_of_lt hj), fun _ => hw,
      fun j hj hne hvj hwj => hne (ho.unique j n hj lt hvj hv (hwj.trans hw.symm)),
      fun hs => absurd (hp.symm.trans hs) Bool.false_ne_true⟩
  | empty lt hbelow hzero hmiss =>
    have hall : io adr = true → ∀ j < c.size, r.wbufValid j = 0 := fun hs j hj =>
      ho.contiguous.above hzero (hio hs ▸ Nat.zero_le j) hj
    refine ⟨lt, hbelow, fun hv => absurd hzero hv, fun j hj _ hvj => ?_, fun hs => ⟨hio hs, hall hs⟩⟩
    cases hs : io adr with
    | true => exact absurd (hall hs j hj) hvj
    | false => exact hmiss hs j hj hvj
  | full => exact absurd hlt (Nat.lt_irrefl _)

/-- The entry found moves down with the others. -/
theorem Found.free_shift (h : Found c io adr r n) (ho : Ordered c io r) (h1 : 1 < c.size)
    (hne : n ≠ 0) (hio : io adr = true → n - 1 = 0) : Free c io adr (r.shift c) (n - 1) := by
  have hmisses : Misses c io adr r → io adr = false → ∀ j, (r.shift c).wbufValid j ≠ 0 →
      wordOf ((r.shift c).wbufAdr j) ≠ wordOf adr := by
    intro hmiss hs j hv
    obtain ⟨hlt, hv', ha⟩ := shift_valid_ne hv
    rw [ha]
    exact hmiss hs _ hlt hv'
  cases h with
  | hit lt hv hw hp =>
    obtain ⟨k, rfl⟩ := Nat.exists_eq_succ_of_ne_zero hne
    rw [Nat.succ_eq_add_one, Nat.add_sub_cancel]
    refine ⟨Nat.lt_of_succ_lt lt, fun j hj => ?_, fun _ => ?_, fun j _ hjk hvj => ?_,
      fun hs => absurd (hp.symm.trans hs) Bool.false_ne_true⟩
    · rw [shift_wbufValid, if_pos (Nat.lt_trans (Nat.succ_lt_succ hj) lt)]
      exact ho.contiguous.below lt hv (Nat.succ_le_succ (Nat.le_of_lt hj))
    · rw [show (r.shift c).wbufAdr k = r.wbufAdr (k + 1) from if_pos lt]
      exact hw
    · obtain ⟨hlt, hv', ha⟩ := shift_valid_ne hvj
      rw [ha]
      exact fun hwj => hjk (Nat.succ.inj (ho.unique _ _ hlt lt hv' hv (hwj.trans hw.symm)))
  | empty lt hbelow hzero hmiss =>
    obtain ⟨k, rfl⟩ := Nat.exists_eq_succ_of_ne_zero hne
    rw [Nat.succ_eq_add_one, Nat.add_sub_cancel] at hio ⊢
    have hzero' : (r.shift c).wbufValid k = 0 := by
      rw [shift_wbufValid, if_pos lt]
      exact hzero
    have hall : io adr = true → ∀ j < c.size, (r.shift c).wbufValid j = 0 := by
      intro hs j _
      obtain rfl := hio hs
      rw [shift_wbufValid]
      split
      · exact ho.contiguous.above hzero (Nat.le_add_left 1 j) ‹_›
      · rfl
    refine ⟨Nat.lt_of_succ_lt lt, fun j hj => ?_, fun hv => absurd hzero' hv, fun j hj _ hvj => ?_,
      fun hs => ⟨hio hs, hall hs⟩⟩
    · rw [shift_wbufValid, if_pos (Nat.lt_trans (Nat.succ_lt_succ hj) lt)]
      exact hbelow _ (Nat.succ_lt_succ hj)
    · cases hs : io adr with
      | true => exact absurd (hall hs j hj) hvj
      | false => exact hmisses hmiss hs j hvj
  | full hall hmiss =>
    have hplain : io adr = false := by
      by_contra hs
      have := hio (by simpa using hs)
      omega
    have hsub : c.size - 1 + 1 = c.size := Nat.succ_pred hne
    have hzero : (r.shift c).wbufValid (c.size - 1) = 0 := by
      rw [shift_wbufValid, hsub, if_neg (Nat.lt_irrefl _)]
    refine ⟨by omega, fun j hj => ?_, fun hv => absurd hzero hv,
      fun j _ _ hvj => hmisses hmiss hplain j hvj,
      fun hs => absurd (hplain.symm.trans hs) Bool.false_ne_true⟩
    have hj : j + 1 < c.size := by omega
    rw [shift_wbufValid, if_pos hj]
    exact hall _ hj

-- ---------------------------------------------------------------------------
-- A store on its way to memory
-- ---------------------------------------------------------------------------

/-- The bytes `sel` of word `a` are in the buffer and have not been transferred. -/
def Pending (c : Config) (r : Registers) (a : WordAdr) (sel : TByteSel) : Prop :=
  ∃ j < c.size, wordOf (r.wbufAdr j) = a ∧
    (∀ n : Fin 4, getElem sel n.val (lane_lt n) = true →
      getElem (r.wbufValid j) n.val (lane_lt n) = true) ∧
    (j = 0 → r.wbufDirty0 = true)

/-- The transfer of entry 0 that is completed writes them. -/
def Done (r : Registers) (ack : Bool) (a : WordAdr) (sel : TByteSel) : Prop :=
  r.wbufDirty0 = true ∧ ack = true ∧ wordOf (r.wbufAdr 0) = a ∧
    ∀ n : Fin 4, getElem sel n.val (lane_lt n) = true →
      getElem (r.wbufValid 0) n.val (lane_lt n) = true

theorem exists_lane {sel : TByteSel} (h : sel ≠ 0) :
    ∃ n : Fin 4, getElem sel n.val n.isLt = true := by
  revert sel
  decide

theorem valid_ne_zero {valid : TByteSel} (hsel : ∃ n : Fin 4, getElem sel n.val n.isLt = true)
    (h : ∀ n : Fin 4, getElem sel n.val n.isLt = true → getElem valid n.val n.isLt = true) :
    valid ≠ 0 := by
  obtain ⟨n, hn⟩ := hsel
  rintro rfl
  have := h n hn
  simp at this

/-- What drains from the buffer has been transferred. -/
theorem Pending.drains {a : WordAdr} (hsel : ∃ n : Fin 4, getElem sel n.val n.isLt = true)
    (h : Pending c r a sel) (hd : Drains c ack r v) : Done r ack a sel ∨ Pending c v a sel := by
  obtain ⟨j, hj, hword, hlanes, hdirty⟩ := h
  have hv := valid_ne_zero hsel hlanes
  cases j with
  | zero =>
    have hdirty := hdirty rfl
    cases hack : ack with
    | true => exact .inl ⟨hdirty, rfl, hword, hlanes⟩
    | false =>
      subst hack
      cases hd with
      | keep => exact .inr ⟨0, hj, hword, hlanes, fun _ => by simp [hdirty]⟩
      | shift hdone => simp [hdirty] at hdone
  | succ j =>
    right
    cases hd with
    | keep => exact ⟨j + 1, hj, hword, hlanes, nofun⟩
    | shift =>
      refine ⟨j, Nat.lt_of_succ_lt hj, ?_, ?_, ?_⟩
      · rw [show (r.shift c).wbufAdr j = r.wbufAdr (j + 1) from if_pos hj]
        exact hword
      · rw [shift_wbufValid, if_pos hj]
        exact hlanes
      · rintro rfl
        exact bne_iff_ne.mpr hv

/-- A store into the drained buffer does not take away what is pending. -/
theorem Pending.takes {a : WordAdr} {sel' : TByteSel}
    (hsel : ∃ n : Fin 4, getElem sel n.val n.isLt = true)
    (h : Pending c v a sel) (ht : Takes c io adr data sel' v n v') : Pending c v' a sel := by
  obtain ⟨j, hj, hword, hlanes, hdirty⟩ := h
  have hv := valid_ne_zero hsel hlanes
  by_cases hn : j = n
  · subst hn
    refine ⟨j, hj, ht.adr.trans ((ht.word hv).symm.trans hword), fun l hl => ?_, fun h0 => ?_⟩
    · rw [ht.valid]
      simp [hlanes l hl]
    · rw [ht.dirty0, if_pos h0]
  · obtain ⟨ha, -, hvalid⟩ := ht.other j hn
    refine ⟨j, hj, ha ▸ hword, hvalid ▸ hlanes, fun h0 => ?_⟩
    rw [ht.dirty0, hdirty h0, ite_self]

theorem Pending.advance {a : WordAdr} {sel' : TByteSel}
    (hsel : ∃ n : Fin 4, getElem sel n.val n.isLt = true)
    (h : Pending c r a sel) (ha : Advance c io adr data sel' ack r taken v') :
    Done r ack a sel ∨ Pending c v' a sel := by
  cases ha with
  | idle hd => exact h.drains hsel hd
  | store hd ht => exact (h.drains hsel hd).imp_right fun hp => hp.takes hsel ht

/-- When a store to an I/O address is taken, nothing else is left to transfer. -/
theorem Pending.done_of_io {a : WordAdr} {sel' : TByteSel}
    (hsel : ∃ n : Fin 4, getElem sel n.val n.isLt = true) (h : Pending c r a sel)
    (hs : io adr = true)
    (ha : Advance c io adr data sel' ack r true v') : Done r ack a sel := by
  cases ha with
  | store hd ht =>
    rcases h.drains hsel hd with hdone | ⟨j, hj, -, hlanes, -⟩
    · exact hdone
    · exact absurd ((ht.alone hs).2 j hj) (valid_ne_zero hsel hlanes)

/-- A store that is taken is pending. -/
theorem pending_of_store (ha : Advance c io adr data sel ack r true v') :
    Pending c v' (wordOf adr) sel := by
  cases ha with
  | @store v n _ hd ht =>
    refine ⟨n, ht.lt, ht.adr, fun l hl => ?_, fun h0 => ?_⟩
    · rw [ht.valid]
      simp [hl]
    · rw [ht.dirty0, if_pos h0]

-- ---------------------------------------------------------------------------
-- I/O stores in flight
-- ---------------------------------------------------------------------------

/-- Entry 0 holds a store to an I/O address that the write port has not completed. -/
def ioPending (io : TWord → Bool) (r : Registers) : Bool :=
  r.wbufDirty0 && io (r.wbufAdr 0) && r.wbufValid 0 != 0

theorem ioPending_iff : ioPending io r = true ↔
    r.wbufDirty0 = true ∧ io (r.wbufAdr 0) = true ∧ r.wbufValid 0 ≠ 0 := by
  simp [ioPending, and_assoc]

theorem ioPending_drains (ho : Ordered c io r) (hd : Drains c ack r v)
    (h : ioPending io v = true) :
    ioPending io r = true ∧ (r.wbufDirty0 && ack) = false := by
  obtain ⟨hdirty, hs, hv⟩ := ioPending_iff.mp h
  cases hd with
  | keep =>
    simp only [Bool.and_eq_true, Bool.not_eq_true'] at hdirty
    exact ⟨ioPending_iff.mpr ⟨hdirty.1, hs, hv⟩, by simp [hdirty.2]⟩
  | shift =>
    obtain ⟨hlt, hv', ha⟩ := shift_valid_ne hv
    rw [ha, ho.ioFirst _ hlt Nat.one_ne_zero hv'] at hs
    cases hs

/-- An I/O store in flight was in flight before, or is taken in this cycle. -/
theorem ioPending_advance (ho : Ordered c io r) (hio : ∀ a b, wordOf a = wordOf b → io a = io b)
    (ha : Advance c io adr data sel ack r taken v') (h : ioPending io v' = true) :
    (ioPending io r = true ∧ (r.wbufDirty0 && ack) = false) ∨
      (taken = true ∧ io adr = true ∧ sel ≠ 0) := by
  cases ha with
  | idle hd => exact .inl (ioPending_drains ho hd h)
  | @store v n _ hd ht =>
    obtain ⟨hdirty, hs, hv⟩ := ioPending_iff.mp h
    by_cases hn : 0 = n
    · subst hn
      rw [hio _ _ ht.adr] at hs
      rw [ht.valid, (ht.alone hs).2 0 ht.lt,
        show (0 : TByteSel) ||| sel = sel from BitVec.zero_or] at hv
      exact .inr ⟨rfl, hs, hv⟩
    · obtain ⟨ha, -, hvalid⟩ := ht.other 0 hn
      rw [ht.dirty0, if_neg (Ne.symm hn)] at hdirty
      rw [ha] at hs
      rw [hvalid] at hv
      exact .inl (ioPending_drains ho hd (ioPending_iff.mpr ⟨hdirty, hs, hv⟩))

/-- Without an I/O store in flight none is pending. -/
theorem Pending.ioPending {a : TWord} (ho : Ordered c io r)
    (hio : ∀ a b, wordOf a = wordOf b → io a = io b)
    (hsel : ∃ n : Fin 4, getElem sel n.val n.isLt = true)
    (hs : io a = true) (h : Pending c r (wordOf a) sel) : ioPending io r = true := by
  obtain ⟨j, hj, hword, hlanes, hdirty⟩ := h
  have hv := valid_ne_zero hsel hlanes
  have hadr : io (r.wbufAdr j) = true := (hio _ _ hword).trans hs
  obtain rfl : j = 0 := by
    by_contra hne
    exact absurd (hadr.symm.trans (ho.ioFirst j hj hne hv)) (by decide)
  exact ioPending_iff.mpr ⟨hdirty rfl, hadr, hv⟩

-- ---------------------------------------------------------------------------
-- Runs
-- ---------------------------------------------------------------------------

/-- The buffer over a run from reset, with the request and the acknowledge of each cycle. -/
structure Advances (c : Config) (io : TWord → Bool) (b : ℕ → Registers) (adr data : ℕ → TWord)
    (sel : ℕ → TByteSel) (ack taken : ℕ → Bool) : Prop where
  io_word : ∀ a b, wordOf a = wordOf b → io a = io b
  reset : (b 0).IsReset
  step : ∀ t, Ordered c io (b t) →
    Advance c io (adr t) (data t) (sel t) (ack t) (b t) (taken t) (b (t + 1))

section Runs

variable {b : ℕ → Registers} {adr data : ℕ → TWord} {sel : ℕ → TByteSel} {ack taken : ℕ → Bool}

theorem Advances.ordered (h : Advances c io b adr data sel ack taken) (t : ℕ) :
    Ordered c io (b t) := by
  induction t with
  | zero => exact ordered_reset h.reset
  | succ t ih => exact ih.advance h.io_word (h.step t ih)

/-- A pending store is transferred, or still pending. -/
theorem Advances.pending (h : Advances c io b adr data sel ack taken) {a : WordAdr}
    {lanes : TByteSel} (hsel : ∃ n : Fin 4, getElem lanes n.val n.isLt = true) {s t : ℕ}
    (hst : s ≤ t)
    (hp : Pending c (b s) a lanes) :
    (∃ v, s ≤ v ∧ v < t ∧ Done (b v) (ack v) a lanes) ∨ Pending c (b t) a lanes := by
  induction t, hst using Nat.le_induction with
  | base => exact .inr hp
  | succ t hst ih =>
    rcases ih with ⟨v, hv, hlt, hdone⟩ | hp
    · exact .inl ⟨v, hv, Nat.lt_succ_of_lt hlt, hdone⟩
    · rcases hp.advance hsel (h.step t (h.ordered t)) with hdone | hp
      · exact .inl ⟨t, hst, Nat.lt_succ_self t, hdone⟩
      · exact .inr hp

/-- Where an I/O store in flight comes from. -/
theorem Advances.taken_of_ioPending (h : Advances c io b adr data sel ack taken) {u : ℕ}
    (hp : ioPending io (b u) = true) :
    ∃ t < u, taken t = true ∧ io (adr t) = true ∧ sel t ≠ 0 ∧
      ∀ v, t < v → v < u → ((b v).wbufDirty0 && ack v) = false := by
  induction u with
  | zero => exact absurd (h.reset.1 0) (ioPending_iff.mp hp).2.2
  | succ u ih =>
    rcases ioPending_advance (h.ordered u) h.io_word (h.step u (h.ordered u)) hp with
      ⟨hp, hno⟩ | ⟨ht, hs, hne⟩
    · obtain ⟨t, htu, ht, hs, hne, hnone⟩ := ih hp
      refine ⟨t, Nat.lt_succ_of_lt htu, ht, hs, hne, fun v htv hvu => ?_⟩
      rcases Nat.lt_succ_iff_lt_or_eq.mp hvu with hlt | rfl
      · exact hnone v htv hlt
      · exact hno
    · exact ⟨u, Nat.lt_succ_self u, ht, hs, hne, fun v htv hvu => absurd htv (by omega)⟩

/-- All earlier stores are transferred when a store to an I/O address is taken. -/
theorem Advances.earlier_done (h : Advances c io b adr data sel ack taken) {s t : ℕ}
    (hst : s < t) (hs : taken s = true) (hsel : ∃ n : Fin 4, getElem (sel s) n.val n.isLt = true)
    (ht : taken t = true) (hio : io (adr t) = true) :
    ∃ v, s < v ∧ v ≤ t ∧ Done (b v) (ack v) (wordOf (adr s)) (sel s) := by
  have hp : Pending c (b (s + 1)) (wordOf (adr s)) (sel s) :=
    pending_of_store (hs ▸ h.step s (h.ordered s))
  rcases h.pending hsel (Nat.succ_le_of_lt hst) hp with ⟨v, hsv, hvt, hdone⟩ | hp
  · exact ⟨v, hsv, Nat.le_of_lt hvt, hdone⟩
  · exact ⟨t, hst, Nat.le_refl t, hp.done_of_io hsel hio (ht ▸ h.step t (h.ordered t))⟩

/-- With no I/O store in flight, all earlier I/O stores are transferred. -/
theorem Advances.io_done (h : Advances c io b adr data sel ack taken) {s t : ℕ} (hst : s < t)
    (hs : taken s = true) (hsel : ∃ n : Fin 4, getElem (sel s) n.val n.isLt = true)
    (hio : io (adr s) = true)
    (hno : ioPending io (b t) = false) :
    ∃ v, s < v ∧ v < t ∧ Done (b v) (ack v) (wordOf (adr s)) (sel s) := by
  have hp : Pending c (b (s + 1)) (wordOf (adr s)) (sel s) :=
    pending_of_store (hs ▸ h.step s (h.ordered s))
  rcases h.pending hsel (Nat.succ_le_of_lt hst) hp with ⟨v, hsv, hvt, hdone⟩ | hp
  · exact ⟨v, hsv, hvt, hdone⟩
  · exact absurd (hp.ioPending (h.ordered t) h.io_word hsel hio) (by rw [hno]; decide)

end Runs

end ParaNut.Lsu
