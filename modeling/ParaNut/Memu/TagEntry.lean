import ParaNut.Lib.Slice
import Mathlib.Data.Fin.Rev
import Mathlib.Data.List.FinRange
import Mathlib.Tactic.Ring

/-!
# Tag entries in the tag RAM (`mtagram.vhd`)

`te2slv` packs an entry for the RAM, `slv2te` unpacks it; each does its own
index arithmetic. `layout` says where the fields are, and both functions are
shown to keep to it.
-/

namespace ParaNut.Memu.TagEntry

open Lib (Layout setSlice)

/-- The generics that decide the layout. -/
structure Generics where
  /-- `CFG_MEMU_CACHE_WAYS_LD` -/
  waysLd : ℕ
  /-- `TAG_ADDR_WIDTH` -/
  tagAddrWidth : ℕ
  /-- `CFG_MEMU_CACHE_REPLACE_LRU` -/
  replaceLru : Bool

namespace Generics

variable (g : Generics)

def ways : ℕ := 2 ^ g.waysLd

/-- `LRU_USE_WIDTH` -/
def lruUseWidth : ℕ := g.waysLd * (g.ways - 1) * g.replaceLru.toNat

/-- `TAG_WIDTH` -/
def tagWidth : ℕ := g.ways * 2 + g.ways * g.tagAddrWidth + g.lruUseWidth

/-- No LRU information is stored. -/
def plain : Bool := decide (g.ways = 1) || !g.replaceLru

variable {g}

theorem lruUseWidth_plain (h : g.plain = true) : g.lruUseWidth = 0 := by
  unfold plain at h
  unfold lruUseWidth
  rcases Bool.or_eq_true_iff.mp h with h | h
  · rw [of_decide_eq_true h, Nat.sub_self, Nat.mul_zero, Nat.zero_mul]
  · rw [Bool.not_eq_true'] at h
    rw [h, Bool.toNat_false, Nat.mul_zero]

theorem lruUseWidth_pos (h : g.plain = false) : 0 < g.lruUseWidth := by
  unfold plain at h
  obtain ⟨hways, hlru⟩ := Bool.or_eq_false_iff.mp h
  have hways := of_decide_eq_false hways
  rw [Bool.not_eq_false'] at hlru
  rw [lruUseWidth, hlru, Bool.toNat_true, Nat.mul_one]
  have hld : g.waysLd ≠ 0 := by
    rintro hz
    exact hways (by rw [ways, hz]; rfl)
  have hone : 1 < g.ways := Nat.one_lt_two_pow hld
  exact Nat.mul_pos (Nat.pos_of_ne_zero hld) (Nat.sub_pos_of_lt hone)

end Generics

variable {g : Generics}

/-- `tag_entry_type`; way 0 is the leftmost bit of `valid` and `dirty`. -/
structure Entry (g : Generics) where
  valid : BitVec g.ways
  dirty : BitVec g.ways
  taddr : Fin g.ways → BitVec g.tagAddrWidth
  lruUse : BitVec (max 0 (g.lruUseWidth - 1) + 1)

-- ---------------------------------------------------------------------------
-- Packing and unpacking
-- ---------------------------------------------------------------------------

/-- `"&"` of a vector and the tag addresses of all ways, way 0 leftmost. -/
def concat {a n width : ℕ} (slv : BitVec a) (tagVec : Fin n → BitVec width) :
    BitVec (a + n * width) :=
  let slvOut := (List.finRange n).foldl
    (fun out (i : Fin n) => setSlice out (width * i) (tagVec i.rev)) 0
  setSlice slvOut (n * width) slv

theorem width_plain (h : g.plain = true) :
    g.ways + g.ways + g.ways * g.tagAddrWidth = g.tagWidth := by
  rw [Generics.tagWidth, Generics.lruUseWidth_plain h, Nat.add_zero, Nat.mul_two]

theorem width_lru (h : g.plain = false) :
    g.ways + g.ways + g.ways * g.tagAddrWidth + (max 0 (g.lruUseWidth - 1) + 1) = g.tagWidth := by
  have := Generics.lruUseWidth_pos h
  rw [Generics.tagWidth, Nat.mul_two]
  omega

def te2slv (tag : Entry g) : BitVec g.tagWidth :=
  if h : g.plain = true then (concat (tag.valid ++ tag.dirty) tag.taddr).cast (width_plain h)
  else
    (concat (tag.valid ++ tag.dirty) tag.taddr ++ tag.lruUse).cast
      (width_lru (Bool.eq_false_of_not_eq_true h))

/-- The variable `tag` is `init` at first; without LRU information `lru_use` stays so. -/
def slv2te (init : Entry g) (slv : BitVec g.tagWidth) : Entry g where
  valid := slv.extractLsb' (g.tagWidth - g.ways) g.ways
  dirty := slv.extractLsb' (g.tagWidth - 2 * g.ways) g.ways
  taddr way := slv.extractLsb' (g.lruUseWidth + way.rev * g.tagAddrWidth) g.tagAddrWidth
  lruUse := if g.plain then init.lruUse else (slv.extractLsb' 0 g.lruUseWidth).setWidth _

-- ---------------------------------------------------------------------------
-- The layout
-- ---------------------------------------------------------------------------

inductive Field (g : Generics)
  | valid (way : Fin g.ways)
  | dirty (way : Fin g.ways)
  | taddr (way : Fin g.ways)
  | lru
  deriving DecidableEq

/-- From left to right: valid bits, dirty bits, tag addresses, LRU information. -/
def layout (g : Generics) : Layout (Field g) where
  lo
    | .valid way => g.tagWidth - 1 - way
    | .dirty way => g.tagWidth - g.ways - 1 - way
    | .taddr way => g.lruUseWidth + way.rev * g.tagAddrWidth
    | .lru => 0
  width
    | .valid _ | .dirty _ => 1
    | .taddr _ => g.tagAddrWidth
    | .lru => g.lruUseWidth

def Entry.get (tag : Entry g) : (f : Field g) → BitVec ((layout g).width f)
  | .valid way => BitVec.ofBool (tag.valid.getMsbD way)
  | .dirty way => BitVec.ofBool (tag.dirty.getMsbD way)
  | .taddr way => tag.taddr way
  | .lru => tag.lruUse.setWidth g.lruUseWidth

section Concat

variable {a n width : ℕ} {i i' : ℕ}

/-- Tag addresses lie side by side. -/
theorem slot_le (width : ℕ) (h : i < i') : i * width + width ≤ i' * width :=
  calc i * width + width = (i + 1) * width := (Nat.succ_mul _ _).symm
    _ ≤ i' * width := Nat.mul_le_mul_right _ h

theorem slot_apart (width : ℕ) (h : i ≠ i') :
    i * width + width ≤ i' * width ∨ i' * width + width ≤ i * width :=
  (Nat.lt_or_gt_of_ne h).imp (slot_le width) (slot_le width)

/-- The slices the loop of `"&"` assigns. -/
def slots (n width : ℕ) : Layout (Fin n) where
  lo i := width * i
  width _ := width

theorem slots_apart (n width : ℕ) : (slots n width).Apart := by
  intro i i' hne
  have hval : (i : ℕ) ≠ i' := fun h => hne (Fin.ext h)
  simp only [slots, Nat.mul_comm width]
  exact slot_apart width hval

variable (slv : BitVec a) (tagVec : Fin n → BitVec width)

theorem concat_slv : (concat slv tagVec).extractLsb' (n * width) a = slv :=
  Lib.extractLsb'_setSlice _ slv (Nat.add_comm _ _).le

theorem concat_taddr (i : Fin n) :
    (concat slv tagVec).extractLsb' (i * width) width = tagVec i.rev := by
  have hfit : ∀ i : Fin n, (slots n width).lo i + (slots n width).width i ≤ n * width := by
    intro i
    simp only [slots, Nat.mul_comm width]
    exact slot_le width i.isLt
  have hloop := (slots_apart n width).read_foldl (w := a + n * width)
    (fun i => (hfit i).trans (Nat.le_add_left _ _)) (fun i => tagVec i.rev) (List.finRange n) 0 i
  have hlo : i * width + width ≤ n * width := slot_le width i.isLt
  rw [concat, Lib.extractLsb'_setSlice_of_apart _ _ (.inr hlo) (by omega), Nat.mul_comm i.val]
  exact hloop.trans (if_pos (List.mem_finRange i))

end Concat

-- ---------------------------------------------------------------------------
-- Both functions keep to the layout
-- ---------------------------------------------------------------------------

section Layout

theorem tagWidth_eq (g : Generics) :
    g.tagWidth = g.lruUseWidth + g.ways * g.tagAddrWidth + g.ways + g.ways := by
  rw [Generics.tagWidth]
  omega

/-- The LRU information is at the right end, if there is any. -/
theorem getLsbD_te2slv (tag : Entry g) (j : ℕ) : (te2slv tag).getLsbD j =
    if j < g.lruUseWidth then tag.lruUse.getLsbD j
    else (concat (tag.valid ++ tag.dirty) tag.taddr).getLsbD (j - g.lruUseWidth) := by
  unfold te2slv
  split
  case isTrue h =>
    simp only [Generics.lruUseWidth_plain h, Nat.not_lt_zero, if_false, BitVec.getLsbD_cast,
      Nat.sub_zero]
  case isFalse h =>
    have hpos := Generics.lruUseWidth_pos (Bool.eq_false_of_not_eq_true h)
    have hwidth : max 0 (g.lruUseWidth - 1) + 1 = g.lruUseWidth := by omega
    rw [BitVec.getLsbD_cast, BitVec.getLsbD_append]
    simp only [hwidth]

theorem te2slv_upper (tag : Entry g) (lo n : ℕ) :
    (te2slv tag).extractLsb' (g.lruUseWidth + lo) n =
      (concat (tag.valid ++ tag.dirty) tag.taddr).extractLsb' lo n := by
  apply BitVec.eq_of_getLsbD_eq
  intro j hj
  rw [BitVec.getLsbD_extractLsb', BitVec.getLsbD_extractLsb', getLsbD_te2slv, if_neg (by omega),
    show g.lruUseWidth + lo + j - g.lruUseWidth = lo + j by omega]

/-- Flags are a bit each. -/
theorem extract_flag {w : ℕ} (v : BitVec w) (lo : ℕ) :
    v.extractLsb' lo 1 = BitVec.ofBool (v.getLsbD lo) := by
  apply BitVec.eq_of_getLsbD_eq
  intro j hj
  obtain rfl : j = 0 := by omega
  simp

theorem concat_flags (tag : Entry g) (lo : ℕ) (hlo : lo < g.ways + g.ways) :
    (te2slv tag).extractLsb' (g.lruUseWidth + g.ways * g.tagAddrWidth + lo) 1 =
      BitVec.ofBool ((tag.valid ++ tag.dirty).getLsbD lo) := by
  have hslv := congrArg (·.getLsbD lo) (concat_slv (tag.valid ++ tag.dirty) tag.taddr)
  rw [BitVec.getLsbD_extractLsb', decide_eq_true hlo, Bool.true_and] at hslv
  rw [Nat.add_assoc, te2slv_upper, extract_flag, hslv]

theorem read_te2slv (tag : Entry g) (f : Field g) : (layout g).read (te2slv tag) f = tag.get f := by
  have hwidth := tagWidth_eq g
  cases f with
  | valid way =>
    have hway := way.isLt
    have hlo : g.tagWidth - 1 - way =
        g.lruUseWidth + g.ways * g.tagAddrWidth + (g.ways + (g.ways - 1 - way)) := by omega
    have hflag := concat_flags tag (g.ways + (g.ways - 1 - way)) (by omega)
    rw [← hlo, BitVec.getLsbD_append, if_neg (by omega), Nat.add_sub_cancel_left] at hflag
    simpa [Layout.read, layout, Entry.get, BitVec.getMsbD_eq_getLsbD, hway] using hflag
  | dirty way =>
    have hway := way.isLt
    have hlo : g.tagWidth - g.ways - 1 - way =
        g.lruUseWidth + g.ways * g.tagAddrWidth + (g.ways - 1 - way) := by omega
    have hflag := concat_flags tag (g.ways - 1 - way) (by omega)
    rw [← hlo, BitVec.getLsbD_append, if_pos (by omega)] at hflag
    simpa [Layout.read, layout, Entry.get, BitVec.getMsbD_eq_getLsbD, hway] using hflag
  | taddr way =>
    change (te2slv tag).extractLsb' (g.lruUseWidth + way.rev * g.tagAddrWidth) g.tagAddrWidth = _
    rw [te2slv_upper, concat_taddr, Fin.rev_rev]
    rfl
  | lru =>
    apply BitVec.eq_of_getLsbD_eq
    intro j hj
    have hj' : j < g.lruUseWidth := hj
    change ((te2slv tag).extractLsb' 0 g.lruUseWidth).getLsbD j =
      (tag.lruUse.setWidth g.lruUseWidth).getLsbD j
    rw [BitVec.getLsbD_extractLsb', BitVec.getLsbD_setWidth, getLsbD_te2slv, Nat.zero_add,
      if_pos hj']

theorem get_slv2te (init : Entry g) (slv : BitVec g.tagWidth) (f : Field g) :
    (slv2te init slv).get f = (layout g).read slv f := by
  have hwidth := tagWidth_eq g
  cases f with
  | valid way =>
    have hway := way.isLt
    have hlo : g.tagWidth - g.ways + (g.ways - 1 - way) = g.tagWidth - 1 - way := by omega
    have hlt : g.ways - 1 - way < g.ways := by omega
    simp [Layout.read, layout, Entry.get, slv2te, BitVec.getMsbD_eq_getLsbD, hway, hlo, hlt,
      extract_flag]
  | dirty way =>
    have hway := way.isLt
    have hlo : g.tagWidth - 2 * g.ways + (g.ways - 1 - way) = g.tagWidth - g.ways - 1 - way := by
      omega
    have hlt : g.ways - 1 - way < g.ways := by omega
    simp [Layout.read, layout, Entry.get, slv2te, BitVec.getMsbD_eq_getLsbD, hway, hlo, hlt,
      extract_flag]
  | taddr way => rfl
  | lru =>
    change (slv2te init slv).lruUse.setWidth g.lruUseWidth = slv.extractLsb' 0 g.lruUseWidth
    apply BitVec.eq_of_getLsbD_eq
    intro j hj
    cases hplain : g.plain with
    | true =>
      rw [Generics.lruUseWidth_plain hplain] at hj
      exact absurd hj (Nat.not_lt_zero _)
    | false =>
      have hj' : j < max 0 (g.lruUseWidth - 1) + 1 := by omega
      rw [slv2te, hplain]
      simp only [Bool.false_eq_true, if_false, BitVec.getLsbD_setWidth, decide_eq_true hj,
        decide_eq_true hj', Bool.true_and]

/-- The fields from right to left. -/
def Field.kind : Field g → ℕ
  | .lru => 0
  | .taddr _ => 1
  | .dirty _ => 2
  | .valid _ => 3

/-- Where the fields of each kind begin. -/
def bound (g : Generics) : ℕ → ℕ
  | 0 => 0
  | 1 => g.lruUseWidth
  | 2 => g.lruUseWidth + g.ways * g.tagAddrWidth
  | 3 => g.lruUseWidth + g.ways * g.tagAddrWidth + g.ways
  | _ => g.tagWidth

theorem bound_mono (g : Generics) : Monotone (bound g) := by
  have hwidth := tagWidth_eq g
  refine monotone_nat_of_le_succ fun k => ?_
  rcases k with _ | _ | _ | _ | k <;> simp only [bound] <;> omega

theorem layout_range (f : Field g) : bound g f.kind ≤ (layout g).lo f ∧
    (layout g).lo f + (layout g).width f ≤ bound g (f.kind + 1) := by
  have hwidth := tagWidth_eq g
  cases f with
  | valid way | dirty way =>
    have hway := way.isLt
    simp only [layout, bound, Field.kind]
    omega
  | taddr way =>
    have hslot := slot_le g.tagAddrWidth way.rev.isLt
    simp only [layout, bound, Field.kind]
    omega
  | lru => simp [layout, bound, Field.kind]

theorem apart_of_kind {f f' : Field g} (hkind : f.kind = f'.kind) (hne : f ≠ f') :
    (layout g).lo f + (layout g).width f ≤ (layout g).lo f' ∨
      (layout g).lo f' + (layout g).width f' ≤ (layout g).lo f := by
  have hwidth := tagWidth_eq g
  cases f <;> cases f' <;> cases hkind
  case valid.valid way way' | dirty.dirty way way' =>
    have hval : (way : ℕ) ≠ way' := fun h => hne (congrArg _ (Fin.ext h))
    have hway := way.isLt
    have hway' := way'.isLt
    simp only [layout]
    omega
  case taddr.taddr way way' =>
    have hval : (way.rev : ℕ) ≠ way'.rev := fun h =>
      hne (congrArg _ (Fin.rev_injective (Fin.ext h)))
    have hslot := slot_apart g.tagAddrWidth hval
    simp only [layout]
    omega
  case lru.lru => exact absurd rfl hne

theorem layout_apart (g : Generics) : (layout g).Apart := by
  intro f f' hne
  have hf := layout_range f
  have hf' := layout_range f'
  rcases lt_trichotomy f.kind f'.kind with hkind | hkind | hkind
  · exact .inl (hf.2.trans ((bound_mono g hkind).trans hf'.1))
  · exact apart_of_kind hkind hne
  · exact .inr (hf'.2.trans ((bound_mono g hkind).trans hf.1))

theorem layout_covers (g : Generics) : (layout g).Covers g.tagWidth := by
  have hwidth := tagWidth_eq g
  intro j hj
  rcases Nat.lt_or_ge j g.lruUseWidth with hlru | hlru
  · exact ⟨.lru, Nat.zero_le j, by simpa [layout] using hlru⟩
  rcases Nat.lt_or_ge j (g.lruUseWidth + g.ways * g.tagAddrWidth) with htaddr | htaddr
  · -- the way counts from the left
    have hslot : (j - g.lruUseWidth) / g.tagAddrWidth < g.ways :=
      Nat.div_lt_of_lt_mul (by rw [Nat.mul_comm]; omega)
    have hpos : 0 < g.tagAddrWidth := by
      by_contra hz
      rw [Nat.eq_zero_of_not_pos hz] at htaddr
      omega
    have hdiv := Nat.div_add_mod' (j - g.lruUseWidth) g.tagAddrWidth
    have hmod := Nat.mod_lt (j - g.lruUseWidth) hpos
    refine ⟨.taddr (Fin.rev ⟨_, hslot⟩), ?_⟩
    simp only [layout, Fin.rev_rev]
    omega
  rcases Nat.lt_or_ge j (g.lruUseWidth + g.ways * g.tagAddrWidth + g.ways) with hdirty | hdirty
  · refine ⟨.dirty ⟨g.tagWidth - g.ways - 1 - j, by omega⟩, ?_⟩
    simp only [layout]
    omega
  · refine ⟨.valid ⟨g.tagWidth - 1 - j, by omega⟩, ?_⟩
    simp only [layout]
    omega

end Layout

-- ---------------------------------------------------------------------------
-- Round trips
-- ---------------------------------------------------------------------------

/-- An entry is what its fields are, but for LRU information that is not stored. -/
theorem eq_of_get {tag tag' : Entry g} (h : ∀ f, tag.get f = tag'.get f) :
    tag.valid = tag'.valid ∧ tag.dirty = tag'.dirty ∧ tag.taddr = tag'.taddr ∧
      (g.plain = false → tag.lruUse = tag'.lruUse) := by
  refine ⟨?valid, ?dirty, funext fun way => h (.taddr way), fun hplain => ?lru⟩
  case valid =>
    refine BitVec.eq_of_getMsbD_eq fun way hway => ?_
    exact BitVec.ofBool_eq_iff_eq.mp (h (.valid ⟨way, hway⟩))
  case dirty =>
    refine BitVec.eq_of_getMsbD_eq fun way hway => ?_
    exact BitVec.ofBool_eq_iff_eq.mp (h (.dirty ⟨way, hway⟩))
  case lru =>
    have hpos := Generics.lruUseWidth_pos hplain
    apply BitVec.eq_of_getLsbD_eq
    intro j hj
    have hj' : j < g.lruUseWidth := by omega
    have hbit := congrArg (·.getLsbD j) (h .lru)
    change (tag.lruUse.setWidth g.lruUseWidth).getLsbD j =
      (tag'.lruUse.setWidth g.lruUseWidth).getLsbD j at hbit
    simpa only [BitVec.getLsbD_setWidth, decide_eq_true hj', Bool.true_and] using hbit

/-- Packing and unpacking are inverse to each other; each field has bits of its own, in which the
one writes it and from which the other reads it. -/
theorem te2slv_slv2te (g : Generics) (init : Entry g) :
    (∀ tag : Entry g, (slv2te init (te2slv tag)).valid = tag.valid ∧
      (slv2te init (te2slv tag)).dirty = tag.dirty ∧
      (slv2te init (te2slv tag)).taddr = tag.taddr ∧
      (g.replaceLru = true → 1 < g.ways → (slv2te init (te2slv tag)).lruUse = tag.lruUse)) ∧
    (∀ slv : BitVec g.tagWidth, te2slv (slv2te init slv) = slv) ∧
    (layout g).Apart ∧
    (∀ (tag : Entry g) f, (layout g).read (te2slv tag) f = tag.get f) ∧
    ∀ (slv : BitVec g.tagWidth) f, (slv2te init slv).get f = (layout g).read slv f := by
  refine ⟨fun tag => ?_, fun slv => ?_, layout_apart g, read_te2slv, get_slv2te init⟩
  · obtain ⟨hvalid, hdirty, htaddr, hlru⟩ := eq_of_get fun f =>
      (get_slv2te init (te2slv tag) f).trans (read_te2slv tag f)
    refine ⟨hvalid, hdirty, htaddr, fun hreplace hways => hlru ?_⟩
    rw [Generics.plain, hreplace, decide_eq_false hways.ne']
    rfl
  · exact (layout_covers g).ext fun f => (read_te2slv _ f).trans (get_slv2te init slv f)

end ParaNut.Memu.TagEntry
