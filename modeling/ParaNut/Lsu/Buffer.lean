import ParaNut.Lsu.Mlsu

/-!
# The write buffer over a memory

What one cycle of `mlsu` does to the contents of memory as seen through the
buffer: a byte is the buffered one if a valid entry covers it, else the one in
memory. Writing entry 0 back, removing it and storing into an entry are
treated one after the other, as the process does them.
-/

namespace ParaNut.Lsu

open Lib

/-- Memory by words, and its contents by word and byte lane. -/
abbrev Mem := WordAdr → TWord
abbrev Contents := WordAdr → Fin 4 → BitVec 8

variable {c : Config} {r v : Registers} {mem : Mem} {s : Contents} {lsui : LsuIn}
  {rpo : ReadportOut} {wpo : WriteportOut} {adr : TWord} {i j : ℕ}

/-- Entry `i` holds byte lane `n` of word `a`. -/
structure Covers (c : Config) (r : Registers) (i : ℕ) (a : WordAdr) (n : Fin 4) : Prop where
  lt : i < c.size
  word : wordOf (r.wbufAdr i) = a
  lane : (r.wbufValid i)[n.val] = true

/-- No two valid entries hold the same word. -/
def Unique (c : Config) (r : Registers) : Prop :=
  ∀ i j, i < c.size → j < c.size → r.wbufValid i ≠ 0 → r.wbufValid j ≠ 0 →
    wordOf (r.wbufAdr i) = wordOf (r.wbufAdr j) → i = j

/-- Buffer over memory shows the contents `s`. -/
structure Shows (c : Config) (r : Registers) (mem : Mem) (s : Contents) : Prop where
  covered : ∀ i a n, Covers c r i a n → byte (r.wbufData i) n = s a n
  uncovered : ∀ a n, (∀ i, ¬ Covers c r i a n) → byte (mem a) n = s a n

/-- The valid bytes of entry 0 are in memory. -/
def Written (r : Registers) (mem : Mem) : Prop :=
  ∀ n : Fin 4, getElem (r.wbufValid 0) n.val (lane_lt n) = true →
    byte (mem (wordOf (r.wbufAdr 0))) n = byte (r.wbufData 0) n

theorem Covers.valid_ne {a : WordAdr} {n : Fin 4} (h : Covers c r i a n) : r.wbufValid i ≠ 0 := by
  intro h0
  have := h.lane
  simp [h0] at this

theorem Covers.unique {a : WordAdr} {m n : Fin 4} (hu : Unique c r) (hi : Covers c r i a m)
    (hj : Covers c r j a n) : i = j :=
  hu i j hi.lt hj.lt hi.valid_ne hj.valid_ne (hi.word.trans hj.word.symm)

-- ---------------------------------------------------------------------------
-- Searching the buffer
-- ---------------------------------------------------------------------------

theorem entryHit_iff :
    entryHit r adr i = true ↔ wordOf (r.wbufAdr i) = wordOf adr ∧ r.wbufValid i ≠ 0 := by
  simp [entryHit]

theorem findWbufHit_some (h : findWbufHit c r adr = some i) :
    i < c.size ∧ wordOf (r.wbufAdr i) = wordOf adr ∧ r.wbufValid i ≠ 0 := by
  have hmem := List.mem_of_find?_eq_some h
  have hhit := List.find?_some h
  exact ⟨by simpa using hmem, entryHit_iff.mp hhit⟩

theorem findWbufHit_none (h : findWbufHit c r adr = none) (hi : i < c.size)
    (hw : wordOf (r.wbufAdr i) = wordOf adr) : r.wbufValid i = 0 := by
  by_contra hv
  exact List.find?_eq_none.mp h i (by simpa using hi) (entryHit_iff.mpr ⟨hw, hv⟩)

theorem findWbufHit_eq (hu : Unique c r) (hi : i < c.size)
    (hw : wordOf (r.wbufAdr i) = wordOf adr) (hv : r.wbufValid i ≠ 0) :
    findWbufHit c r adr = some i := by
  cases h : findWbufHit c r adr with
  | none => exact absurd (findWbufHit_none h hi hw) hv
  | some j =>
    obtain ⟨hj, hwj, hvj⟩ := findWbufHit_some h
    rw [hu i j hi hj hv hvj (hw.trans hwj.symm)]

theorem findEmptyWbufEntry_some (h : findEmptyWbufEntry c r = some i) :
    i < c.size ∧ r.wbufValid i = 0 := by
  have hmem := List.mem_of_find?_eq_some h
  have hempty := List.find?_some h
  exact ⟨by simpa using hmem, by simpa using hempty⟩

theorem isFlushed_iff : isFlushed c r = true ↔ ∀ n < c.size, r.wbufValid n = 0 := by
  simp [isFlushed]

/-- A flushed buffer covers nothing, so memory itself has the contents. -/
theorem Shows.mem_of_isFlushed (h : Shows c r mem s) (hf : isFlushed c r = true) (a : WordAdr)
    (n : Fin 4) : byte (mem a) n = s a n :=
  h.uncovered a n fun i hc => hc.valid_ne (isFlushed_iff.mp hf i hc.lt)

-- ---------------------------------------------------------------------------
-- Writing entry 0 back
-- ---------------------------------------------------------------------------

/-- Memory after a write-port transfer. -/
def writeMem (mem : Mem) (wpi : WriteportIn) : Mem := fun a =>
  if a = wordOf wpi.portAdr then merge wpi.portBsel (mem a) wpi.portData else mem a

variable {dcache : Bool}

theorem byte_writeMem (w : WriteportIn) (a : WordAdr) (n : Fin 4) :
    byte (writeMem mem w a) n =
      if wordOf w.portAdr = a ∧ getElem w.portBsel n.val n.isLt = true then byte w.portData n
      else byte (mem a) n := by
  by_cases ha : a = wordOf w.portAdr
  · simp [writeMem, ha]
  · simp [writeMem, ha, Ne.symm ha]

theorem Shows.writeMem (hs : 0 < c.size) (h : Shows c r mem s) :
    Shows c r (writeMem mem (wpi c r lsui dcache)) s where
  covered := h.covered
  uncovered a n hno := by
    rw [byte_writeMem, if_neg fun hc => hno 0 ⟨hs, hc.1, hc.2⟩]
    exact h.uncovered a n hno

theorem written_writeMem : Written r (writeMem mem (wpi c r lsui dcache)) := by
  intro n hn
  rw [byte_writeMem, if_pos ⟨rfl, hn⟩]
  rfl

-- ---------------------------------------------------------------------------
-- Removing entry 0
-- ---------------------------------------------------------------------------

theorem covers_shift {a : WordAdr} {n : Fin 4} :
    Covers c (r.shift c) i a n ↔ Covers c r (i + 1) a n := by
  constructor
  · rintro ⟨hi, hw, hl⟩
    by_cases h : i + 1 < c.size
    · simp only [Registers.shift, h, if_true] at hw hl
      exact ⟨h, hw, hl⟩
    · simp [Registers.shift, h] at hl
  · rintro ⟨hi, hw, hl⟩
    exact ⟨by omega, by simpa [Registers.shift, hi] using hw, by simpa [Registers.shift, hi] using hl⟩

/-- The entry found for an address moves down with the others. -/
theorem findWbufHit_shift (adr : TWord) (h : findWbufHit c (r.shift c) adr = some i) :
    findWbufHit c r adr = some (i + 1) := by
  have hhit : entryHit (r.shift c) adr =
      fun n => decide (n + 1 < c.size) && entryHit r adr (n + 1) := by
    funext n
    simp only [entryHit, Registers.shift]
    split_ifs with hn <;> simp [hn]
  have hfind : ∀ k < c.size, (List.range k).reverse.find?
        (fun n => decide (n + 1 < c.size) && entryHit r adr (n + 1)) = some i →
      (List.range (k + 1)).reverse.find? (entryHit r adr) = some (i + 1) := by
    intro k
    induction k with
    | zero => simp
    | succ k ih =>
      intro hlt hk
      rw [List.range_succ, List.reverse_append] at hk ⊢
      simp only [List.reverse_cons, List.reverse_nil, List.nil_append, List.singleton_append,
        List.find?_cons, decide_eq_true hlt, Bool.true_and] at hk ⊢
      cases hp : entryHit r adr (k + 1) with
      | true => simpa [hp] using hk
      | false =>
        simp only [hp] at hk
        exact ih (Nat.lt_of_succ_lt hlt) hk
  unfold findWbufHit at h ⊢
  cases hsize : c.size with
  | zero => simp [hsize] at h
  | succ k =>
    -- the last place is empty after the move
    have hlast : entryHit (r.shift c) adr k = false := by simp [hhit, hsize]
    rw [hhit] at hlast
    rw [hhit, hsize, List.range_succ, List.reverse_append] at h
    simp only [hsize, List.reverse_cons, List.reverse_nil, List.nil_append, List.singleton_append,
      List.find?_cons] at h hlast
    rw [hlast] at h
    exact hfind k (by omega) (by simpa only [hsize] using h)

theorem shift_valid_ne (h : (r.shift c).wbufValid i ≠ 0) :
    i + 1 < c.size ∧ r.wbufValid (i + 1) ≠ 0 ∧ (r.shift c).wbufAdr i = r.wbufAdr (i + 1) := by
  by_cases hi : i + 1 < c.size
  · exact ⟨hi, by simpa [Registers.shift, hi] using h, by simp [Registers.shift, hi]⟩
  · simp [Registers.shift, hi] at h

theorem Unique.shift (hu : Unique c r) : Unique c (r.shift c) := by
  intro i j _ _ hvi hvj hw
  obtain ⟨hi, hi0, hia⟩ := shift_valid_ne hvi
  obtain ⟨hj, hj0, hja⟩ := shift_valid_ne hvj
  have := hu _ _ hi hj hi0 hj0 (by rw [← hia, ← hja, hw])
  omega

theorem Shows.shift (h : Shows c r mem s) (hw : Written r mem) : Shows c (r.shift c) mem s where
  covered i a n hc := by
    have hc' := covers_shift.mp hc
    have := h.covered _ a n hc'
    simpa [Registers.shift, hc'.lt] using this
  uncovered a n hno := by
    by_cases h0 : Covers c r 0 a n
    · rw [← h0.word, hw n h0.lane, h.covered 0 a n h0, h0.word]
    · refine h.uncovered a n fun i hc => ?_
      cases i with
      | zero => exact h0 hc
      | succ i => exact hno i (covers_shift.mpr hc)

/-- After a removal entry 0 is either in flight or empty. -/
theorem written_shift (hs : 1 < c.size) (hd : (r.shift c).wbufDirty0 = false) :
    Written (r.shift c) mem := by
  intro n hn
  have h1 : r.wbufValid 1 = 0 := by simpa [Registers.shift] using hd
  simp [Registers.shift, hs, h1] at hn

-- ---------------------------------------------------------------------------
-- Storing into an entry
-- ---------------------------------------------------------------------------

/-- Entry `i` may take a store to `adr`: it holds that word and `old` is its contents, or it is
empty and no entry holds the word. -/
structure Slot (c : Config) (v : Registers) (adr : TWord) (i : ℕ) (oldData : TWord)
    (oldValid : TByteSel) : Prop where
  lt : i < c.size
  only : ∀ j < c.size, wordOf (v.wbufAdr j) = wordOf adr → v.wbufValid j ≠ 0 → j = i
  word : v.wbufValid i ≠ 0 → wordOf (v.wbufAdr i) = wordOf adr
  valid : v.wbufValid i = oldValid
  data : oldValid ≠ 0 → v.wbufData i = oldData

/-- Contents after a masked write to one word. -/
def Contents.write (s : Contents) (a : WordAdr) (sel : TByteSel) (w : TWord) : Contents := fun b n =>
  if b = a ∧ getElem sel n.val (lane_lt n) = true then byte w n else s b n

variable {old wdata : TWord} {oldValid sel : TByteSel}

theorem Unique.store (hu : Unique c v) (hp : Slot c v adr i old oldValid) {data : TWord}
    {valid : TByteSel} : Unique c (v.store i adr data valid) := by
  intro j k hj hk hvj hvk hw
  simp only [Registers.store] at hvj hvk hw
  by_cases hji : j = i <;> by_cases hki : k = i <;> simp only [hji, hki, if_true, if_false] at hvj hvk hw
  · rw [hji, hki]
  · exact absurd (hp.only k hk hw.symm hvk) hki
  · exact absurd (hp.only j hj hw hvj) hji
  · exact hu j k hj hk hvj hvk hw

theorem Shows.store (h : Shows c v mem s) (hp : Slot c v adr i old oldValid) :
    Shows c (v.store i adr (merge sel old wdata) (oldValid ||| sel)) mem
      (s.write (wordOf adr) sel wdata) where
  covered j a n hc := by
    obtain ⟨hj, hw, hl⟩ := hc
    by_cases hji : j = i
    · subst hji
      simp only [Registers.store, if_true] at hw hl ⊢
      subst hw
      by_cases hsel : sel[n.val] = true
      · simp [Contents.write, hsel]
      · have hold : oldValid[n.val] = true := by simpa [hsel] using hl
        have hne : oldValid ≠ 0 := fun h0 => by simp [h0] at hold
        have hcov : Covers c v j (wordOf adr) n :=
          ⟨hj, hp.word (hp.valid ▸ hne), hp.valid ▸ hold⟩
        simp only [Contents.write, hsel, byte_merge, ← hp.data hne]
        exact h.covered j _ n hcov
    · simp only [Registers.store, hji, if_false] at hw hl ⊢
      have hcov : Covers c v j a n := ⟨hj, hw, hl⟩
      have ha : a ≠ wordOf adr := fun ha =>
        hji (hp.only j hj (hw.trans ha) hcov.valid_ne)
      simpa [Contents.write, ha] using h.covered j a n hcov
  uncovered a n hno := by
    have hnot : ¬ (a = wordOf adr ∧ sel[n.val] = true) := by
      rintro ⟨rfl, hsel⟩
      exact hno i ⟨hp.lt, by simp [Registers.store], by simp [Registers.store, hsel]⟩
    rw [Contents.write, if_neg hnot]
    refine h.uncovered a n fun j hc => hno j ⟨hc.lt, ?_, ?_⟩
    · by_cases hji : j = i
      · have hword : wordOf adr = a := (hp.word (hji ▸ hc.valid_ne)).symm.trans (hji ▸ hc.word)
        simpa [Registers.store, hji] using hword
      · simpa [Registers.store, hji] using hc.word
    · by_cases hji : j = i
      · have := hc.lane
        rw [hji, hp.valid] at this
        simp [Registers.store, hji, this]
      · simpa [Registers.store, hji] using hc.lane

end ParaNut.Lsu
