import ParaNut.Lsu.Order

/-!
# What stands in the write buffer

The addresses in the buffer are those of stores, and a store that is on its
way to memory has an entry. A read word depends on the read port in the lanes
only that no entry covers.
-/

namespace ParaNut.Lsu

open Lib

variable {c : Config} {r : Registers} {lsui : LsuIn} {rpo rpo' : ReadportOut} {wpo : WriteportOut}
  {P : TWord → Prop}

/-- The entries are for addresses in `P`, and entry 0 is valid while it is written. -/
structure Holding (c : Config) (P : TWord → Prop) (r : Registers) : Prop where
  entry : ∀ j < c.size, r.wbufValid j ≠ 0 → P (r.wbufAdr j)
  inFlight : r.wbufDirty0 = true → r.wbufValid 0 ≠ 0

theorem holding_reset (h : r.IsReset) : Holding c P r where
  entry j _ hv := absurd (h.1 j) hv
  inFlight hd := by
    rw [h.2] at hd
    cases hd

theorem holding_flushed (hs : 0 < c.size) (hf : isFlushed c r = true)
    (hd : r.wbufDirty0 = true → r.wbufValid 0 ≠ 0) : Holding c P r ∧ r.wbufDirty0 = false := by
  have hzero := isFlushed_iff.mp hf
  refine ⟨⟨fun j hj hv => absurd (hzero j hj) hv, hd⟩, ?_⟩
  by_contra hno
  exact hd (by simpa using hno) (hzero 0 hs)

theorem LsuIn.Known.bsel_ne (h : lsui.Known) : bsel lsui ≠ 0 := by
  intro h0
  have hlane := (h.bsel_lane ⟨(ofsOf lsui.adr).toNat, (ofsOf lsui.adr).isLt⟩).mpr
    ⟨Nat.le_refl _, Nat.lt_add_of_pos_right (accessSize_pos _)⟩
  simp [h0] at hlane

namespace Holding

theorem mono {Q : TWord → Prop} (h : Holding c P r) (hPQ : ∀ a, P a → Q a) : Holding c Q r where
  entry j hj hv := hPQ _ (h.entry j hj hv)
  inFlight := h.inFlight

theorem adr (h : Holding c P r) (hs : 0 < c.size) (hd : r.wbufDirty0 = true) : P (r.wbufAdr 0) :=
  h.entry 0 hs (h.inFlight hd)

theorem drained (h : Holding c P r) (hs : 1 < c.size) : Holding c P (drained c r lsui wpo) := by
  cases hrem : wbufRemove c r lsui wpo with
  | false =>
    rw [drained_of_keep hrem]
    refine ⟨h.entry, fun hd => h.inFlight ?_⟩
    rw [Bool.and_eq_true] at hd
    exact hd.1
  | true =>
    rw [drained_of_remove hrem]
    refine ⟨fun j _ hv => ?_, fun hd => ?_⟩
    · obtain ⟨hj, hv', ha⟩ := shift_valid_ne hv
      rw [ha]
      exact h.entry _ hj hv'
    · rw [shift_wbufValid, if_pos hs]
      exact bne_iff_ne.mp hd

protected theorem next (h : Holding c P r) (hs : 1 < c.size) (hc : cacheOp lsui = false)
    (hwr : lsui.wr = true → P lsui.adr ∧ lsui.Known) : Holding c P (next c r lsui wpo) := by
  have hd : Holding c P (Lsu.drained c r lsui wpo) := h.drained hs
  cases hw : wbufWrite c r lsui wpo with
  | false => rwa [Lsu.next, hw, if_neg Bool.false_ne_true]
  | true =>
    obtain ⟨hP, hknown⟩ := hwr (wr_of_wbufWrite hc hw)
    rw [Lsu.next, hw, if_pos rfl]
    refine ⟨fun j hj hv => ?_, fun hdirty => ?_⟩
    · by_cases hji : j = (newEntry c r lsui wpo).i
      · rw [hji]
        simpa [Registers.store] using hP
      · simp only [Registers.store, if_neg hji] at hv ⊢
        exact hd.entry j hj hv
    · by_cases h0 : 0 = (newEntry c r lsui wpo).i
      · simp only [Registers.store, if_pos h0]
        exact fun hz => hknown.bsel_ne (BitVec.or_eq_zero_iff.mp hz).2
      · simp only [Registers.store, if_neg h0, if_neg (Ne.symm h0)] at hdirty ⊢
        exact hd.inFlight hdirty

end Holding

-- ---------------------------------------------------------------------------
-- The word of a load
-- ---------------------------------------------------------------------------

theorem rdataWord_congr (hu : Unique c r)
    (h : ∀ n : Fin 4, (∀ i, ¬ Covers c r i (wordOf lsui.adr) n) →
      byte rpo.portData n = byte rpo'.portData n) :
    rdataWord c r lsui rpo = rdataWord c r lsui rpo' := by
  refine ext_byte fun n => ?_
  unfold rdataWord
  cases hh : findWbufHit c r lsui.adr with
  | none =>
    refine h n fun i hi => ?_
    exact hi.valid_ne (findWbufHit_none hh hi.lt hi.word)
  | some j =>
    obtain ⟨hj, hw, hv⟩ := findWbufHit_some hh
    simp only [byte_merge]
    split
    · rfl
    · rename_i hlane
      refine h n fun i hi => hlane ?_
      rw [hu j i hj hi.lt hv hi.valid_ne (hw.trans hi.word.symm)]
      exact hi.lane

/-- Entry 0 that is on its way to memory still covers its lanes after the acknowledge of a load. -/
theorem not_lane_of_uncovered {n : Fin 4} (hs : 0 < c.size) (hu : Unique c r)
    (hc : cacheOp lsui = false) (hrd : lsui.rd = true) (hwr : lsui.wr = false)
    (hd : r.wbufDirty0 = true) (ha : wordOf (r.wbufAdr 0) = wordOf lsui.adr)
    (hno : ∀ k, ¬ Covers c (next c r lsui wpo) k (wordOf lsui.adr) n) :
    ¬ (r.wbufValid 0)[n.val] = true := by
  intro hlane
  have hcov : Covers c r 0 (wordOf lsui.adr) n := ⟨hs, ha, hlane⟩
  have hh := findWbufHit_eq hu hs ha hcov.valid_ne
  obtain ⟨k, hk⟩ := covers_drained lsui wpo hcov fun _ => drained_of_hit_zero hrd hh hd
  rw [(next_of_not_wr hc hwr).2] at hno
  exact hno k hk

theorem wordOf_lane (a : WordAdr) (n : Fin 4) : wordOf (a ++ BitVec.ofNat 2 n.val : TWord) = a := by
  have hparts := toNat_adr (a ++ BitVec.ofNat 2 n.val)
  have hofs := (ofsOf (a ++ BitVec.ofNat 2 n.val : TWord)).isLt
  rw [toNat_lane] at hparts
  rw [← BitVec.toNat_inj]
  omega

/-- Memories that agree in the word of an access give it the same value. -/
theorem LsuIn.Known.load_congr (h : lsui.Known) {m m' : PlainMem}
    (heq : ∀ n : Fin 4, m.contents (wordOf lsui.adr) n = m'.contents (wordOf lsui.adr) n) :
    m.load lsui.width lsui.exts lsui.adr = m'.load lsui.width lsui.exts lsui.adr := by
  have hbyte : ∀ n : Fin 4, byte (ofBytes fun n => m.contents (wordOf lsui.adr) n) n =
      m.contents (wordOf lsui.adr) n := fun n => byte_ofBytes ..
  rw [← h.formatRdata m fun n _ => hbyte n, h.formatRdata m' fun n _ => (hbyte n).trans (heq n)]

end ParaNut.Lsu
