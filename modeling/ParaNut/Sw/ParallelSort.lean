import ParaNut.Sw.MergeSort
import Mathlib.Tactic.Ring

/-!
# The tree of CPUs

All CPUs call `do_divide` on the whole array. Each sorts its own slice and
sets its bit of the sync word; CPU 0 merges the slices and waits for a CPU
before it uses its slice, but only for those with an odd id. With the left
slices finished in time as well the array is sorted under every schedule; CPU 0
does not see to it.
-/

namespace ParaNut.Sw.MergeSort

open Lib Lib.Threads

/-- A power of two of CPUs and a larger power of two of elements. -/
structure Setup where
  cpusLd : ℕ
  sizeLd : ℕ
  lt : cpusLd < sizeLd

namespace Setup

variable (c : Setup)

def cpus : ℕ := 2 ^ c.cpusLd
def size : ℕ := 2 ^ c.sizeLd
def slice : ℕ := 2 ^ (c.sizeLd - c.cpusLd)

theorem one_lt_slice : 1 < c.slice := Nat.one_lt_two_pow (Nat.sub_ne_zero_of_lt c.lt)

theorem slice_pos : 0 < c.slice := Nat.two_pow_pos _

theorem cpus_pos : 0 < c.cpus := Nat.two_pow_pos _

theorem cpus_mul_slice : c.cpus * c.slice = c.size := by
  rw [cpus, slice, size, ← Nat.pow_add, Nat.add_sub_cancel' (Nat.le_of_lt c.lt)]

end Setup

/-- The sync word: a CPU that waits sees the bit that `pn_sync_set` has set. -/
def word : Signals (BitVec 32) where
  set i := (Sync.Call.pnSyncSet i).update
  isSet := Sync.waitForCpu
  valid i := i < 32
  isSet_set i j w hi hj := by
    rw [Sync.waitForCpu_eq _ hi, Sync.waitForCpu_eq _ hi, Sync.Call.getLsbD_update _ _ hi]
    by_cases hij : i = j
    · simp [hij, Sync.Call.cpuId, Sync.Call.sets]
    · simp [hij, Sync.Call.cpuId]

abbrev System := State ℕ Loc ℤ Msort (BitVec 32)

/-- All CPUs are about to call `do_divide (0, SIZE-1, 0, 1, cpu_id, n_cpus)`. -/
def start (c : Setup) (mem₀ : Mem) (sync₀ : BitVec 32) : System where
  mem := mem₀
  sync := sync₀
  thread p := ⟨if p < c.cpus then doDivide 0 (c.size - 1) 0 1 p c.cpus .done else .done, none⟩

/-- The other CPU whose slice is the left part of this merge of CPU 0, if there is one. -/
def leftCpu (c : Setup) (p : ℕ) (r : Msort) : Option ℕ :=
  if p = 0 ∧ r.n0 ≠ 0 ∧ r.n1 + 1 = r.n0 + 2 * c.slice then some (r.n0 / c.slice) else none

/-- A CPU that goes on to merge the slices of two others finds the bit of the left one set. -/
def LeftFinished (c : Setup) (s : System) (p : ℕ) : Prop :=
  ∀ r i, (s.thread p).pending.nextCall = some r → leftCpu c p r = some i →
    Sync.waitForCpu i s.sync = true

/-- CPU `q` is about to store to the array between `lo` and `hi`. -/
def StoresTo (s : System) (q lo hi : ℕ) : Prop :=
  ∃ i, lo ≤ i ∧ i ≤ hi ∧ (s.thread q).pending.nextStore = some (.a i)

/-- The merges of CPU `p`, whose turn it is, and of those in `do_msort`, and the result. -/
structure Correct (c : Setup) (mem₀ : Mem) (s : System) (p : ℕ) : Prop where
  merged : ∀ r, (s.thread p).pending.nextCall = some r →
    SortedOn (array s.mem) r.n0 (r.m + 1) ∧ SortedOn (array s.mem) (r.m + 1) (r.n1 + 1) ∧
      ∀ q, q ≠ p → ¬ StoresTo s q r.n0 r.n1
  merging : ∀ p' r, (s.thread p').inside = some r → ∀ q, q ≠ p' → ¬ StoresTo s q r.n0 r.n1
  result : (s.thread 0).pending = .done → SortedOn (array s.mem) 0 c.size ∧
    (part (array s.mem) 0 c.size).Perm (part (array mem₀) 0 c.size)

-- ---------------------------------------------------------------------------
-- Who owns which part of the array
-- ---------------------------------------------------------------------------

theorem disjoint_locs {lo hi lo' hi' : ℕ} (h : hi ≤ lo') : Disjoint (locs lo hi) (locs lo' hi') := by
  refine Set.disjoint_left.mpr ?_
  rintro x ⟨i, _, hi, rfl | rfl⟩ hx
  · exact absurd (a_mem_locs.mp hx).1 (by omega)
  · exact absurd (tmp_mem_locs.mp hx).1 (by omega)

theorem locs_mono {lo hi lo' hi' : ℕ} (hlo : lo' ≤ lo) (hhi : hi ≤ hi') :
    locs lo hi ⊆ locs lo' hi' := by
  rintro x ⟨i, hi, hi', h⟩
  exact ⟨i, by omega, by omega, h⟩

theorem locs_union {lo mid hi : ℕ} (h : lo ≤ mid) (h' : mid ≤ hi) :
    locs lo mid ∪ locs mid hi = locs lo hi := by
  apply Set.Subset.antisymm
  · exact Set.union_subset (locs_mono (Nat.le_refl _) h') (locs_mono h (Nat.le_refl _))
  · rintro x ⟨i, hi, hi', hx⟩
    rcases Nat.lt_or_ge i mid with hlt | hge
    · exact .inl ⟨i, hi, hlt, hx⟩
    · exact .inr ⟨i, hge, hi', hx⟩

theorem array_congr {m m' : Mem} {lo hi : ℕ} (h : Set.EqOn m m' (locs lo hi)) (x : ℕ)
    (hx : lo ≤ x) (hxh : x < hi) : array m x = array m' x :=
  h (a_mem_locs.mpr ⟨hx, hxh⟩)

/-- The array is sorted from `lo` to `hi`, with the elements it had there in `init`. -/
structure Sorted (init mem : Mem) (lo hi : ℕ) : Prop where
  sorted : SortedOn (array mem) lo hi
  perm : (part (array mem) lo hi).Perm (part (array init) lo hi)

theorem Sorted.congr {init m m' : Mem} {lo hi : ℕ} (h : Sorted init m lo hi)
    (heq : Set.EqOn m m' (locs lo hi)) : Sorted init m' lo hi where
  sorted := h.sorted.congr (array_congr heq)
  perm := by
    rw [← part_congr (array_congr heq)]
    exact h.perm

/-- Two sorted parts that are merged. -/
theorem Sorted.merge {init m m' : Mem} {lo mid hi : ℕ} (hl : Sorted init m lo mid)
    (hr : Sorted init m mid hi) (hlo : lo ≤ mid) (hhi : mid ≤ hi)
    (hs : SortedOn (array m') lo hi) (hp : (part (array m') lo hi).Perm (part (array m) lo hi)) :
    Sorted init m' lo hi where
  sorted := hs
  perm := by
    refine hp.trans ?_
    rw [← part_append hlo hhi, ← part_append hlo hhi]
    exact hl.perm.append hr.perm

/-- Each CPU owns its slice until it reports; then CPU 0 takes it over. -/
def resources (c : Setup) (mem₀ : Mem) : Resources ℕ Loc ℤ Msort where
  taker := 0
  foot i := MergeSort.locs (i * c.slice) ((i + 1) * c.slice)
  res i m := Sorted mem₀ m (i * c.slice) ((i + 1) * c.slice)
  locs r := MergeSort.locs r.n0 (r.n1 + 1)
  pre r m := r.n0 ≤ r.m ∧ r.m ≤ r.n1 ∧
    SortedOn (array m) r.n0 (r.m + 1) ∧ SortedOn (array m) (r.m + 1) (r.n1 + 1)
  post p O m := p = 0 → MergeSort.locs 0 c.size ⊆ O ∧ Sorted mem₀ m 0 c.size
  gate := leftCpu c
  disjoint i j hij := by
    rcases Nat.lt_or_gt_of_ne hij with h | h
    · exact disjoint_locs (Nat.mul_le_mul_right _ h)
    · exact (disjoint_locs (Nat.mul_le_mul_right _ h)).symm
  res_congr i m m' heq h := h.congr heq
  pre_congr r m m' heq := by
    rintro ⟨hn, hm, hl, hr⟩
    refine ⟨hn, hm, ?_, ?_⟩
    · exact hl.congr (array_congr (heq.mono (locs_mono (Nat.le_refl _) (Nat.succ_le_succ hm))))
    · exact hr.congr (array_congr (heq.mono (locs_mono (by omega) (Nat.le_refl _))))
  post_congr p O m m' heq h hp := by
    obtain ⟨hsub, hs⟩ := h hp
    exact ⟨hsub, hs.congr (heq.mono hsub)⟩

-- ---------------------------------------------------------------------------
-- A CPU sorts its slice
-- ---------------------------------------------------------------------------

section Safe

variable {c : Setup} {mem₀ base : Mem} {O : Set Loc} {p n0 n1 m l : ℕ} {cur : Option Msort} {k : Code}

/-- A merge of two sorted parts that the CPU owns. -/
theorem safe_doMsort (hgate : leftCpu c p ⟨n0, n1, m⟩ = none) (hn : n0 ≤ m) (hm : m ≤ n1)
    (hO : locs n0 (n1 + 1) ⊆ O) (hl : Sorted mem₀ base n0 (m + 1))
    (hr : Sorted mem₀ base (m + 1) (n1 + 1))
    (hk : ∀ mem', Sorted mem₀ mem' n0 (n1 + 1) →
      Set.EqOn base mem' (O \ locs n0 (n1 + 1)) → Safe word (resources c mem₀) p k none O mem') :
    Safe word (resources c mem₀) p (doMsort n0 n1 m k) cur O base := by
  unfold doMsort Safe
  have hnone : (resources c mem₀).gate p ⟨n0, n1, m⟩ = none := hgate
  rw [hnone]
  refine ⟨hO, ⟨hn, hm, hl.sorted, hr.sorted⟩, ?_⟩
  refine safe_msort hn hm hl.sorted hr.sorted hO fun mem' hs hp hframe => ?_
  exact hk mem' (hl.merge hr (by omega) (by omega) hs hp) hframe

/-- From the level of the slices on a CPU sorts what it is given, and reports a whole slice. -/
theorem safe_own (hlevel : c.cpus ≤ l) (hn : n0 ≤ n1)
    (hgate : ∀ r : Msort, n0 ≤ r.n0 → r.n1 ≤ n1 → leftCpu c p r = none)
    (hO : locs n0 (n1 + 1) ⊆ O) (hbase : ∀ x, n0 ≤ x → x ≤ n1 → array base x = array mem₀ x)
    (hk : ∀ mem', Sorted mem₀ mem' n0 (n1 + 1) →
      Set.EqOn base mem' (O \ locs n0 (n1 + 1)) → Safe word (resources c mem₀) p
        (if (p ≠ 0 ∧ l = c.cpus) ∧ n0 < n1 then .signal p k else k) none O mem') :
    Safe word (resources c mem₀) p (doDivide n0 n1 p l p c.cpus k) none O base := by
  induction hd : n1 - n0 using Nat.strong_induction_on generalizing n0 n1 l k base with
  | _ d ih =>
    rw [doDivide]
    split
    · next hlt =>
      rw [if_pos rfl]
      obtain ⟨m, hm⟩ : ∃ m, (n0 + n1) / 2 = m := ⟨_, rfl⟩
      simp only [hm]
      have hnm : n0 ≤ m := by omega
      have hmn : m < n1 := by omega
      have hpos := c.cpus_pos
      have hlevel' : c.cpus ≤ 2 * l := by omega
      have hinner : ∀ {n n' : ℕ} {k₁ k₂ : Code},
          (if (p ≠ 0 ∧ 2 * l = c.cpus) ∧ n < n' then k₁ else k₂) = k₂ := fun {_ _ _ _} =>
        if_neg (by omega)
      refine ih (m - n0) (by omega) hlevel' hnm (fun r h h' => hgate r h (by omega))
        ((locs_mono (Nat.le_refl _) (by omega)).trans hO)
        (fun x hx hxm => hbase x hx (by omega)) (fun mem₁ hl hf₁ => ?_) rfl
      rw [hinner]
      have hin₁ : locs (m + 1) (n1 + 1) ⊆ O \ locs n0 (m + 1) := fun x hx =>
        ⟨hO (locs_mono (by omega) (Nat.le_refl _) hx),
          Set.disjoint_right.mp (disjoint_locs (Nat.le_refl _)) hx⟩
      refine ih (n1 - (m + 1)) (by omega) hlevel' hmn (fun r h h' => hgate r (by omega) h')
        ((locs_mono (by omega) (Nat.le_refl _)).trans hO) (fun x hx hxn => ?_)
        (fun mem₂ hr hf₂ => ?_) rfl
      · rw [← hbase x (by omega) hxn]
        exact (hf₁ (hin₁ (a_mem_locs.mpr ⟨hx, Nat.lt_succ_of_le hxn⟩))).symm
      · rw [hinner]
        have hin₂ : locs n0 (m + 1) ⊆ O \ locs (m + 1) (n1 + 1) := fun x hx =>
          ⟨hO (locs_mono (Nat.le_refl _) (by omega) hx),
            Set.disjoint_left.mp (disjoint_locs (Nat.le_refl _)) hx⟩
        refine safe_doMsort (hgate _ (Nat.le_refl _) (Nat.le_refl _)) hnm (Nat.le_of_lt hmn) hO
          (hl.congr (hf₂.mono hin₂)) hr fun mem₃ hs hf₃ => ?_
        have hsame := hk mem₃ hs ?_
        · simpa only [hlt, and_true] using hsame
        intro x hx
        have hx₁ : x ∈ O \ locs n0 (m + 1) :=
          ⟨hx.1, fun h => hx.2 (locs_mono (Nat.le_refl _) (by omega) h)⟩
        have hx₂ : x ∈ O \ locs (m + 1) (n1 + 1) :=
          ⟨hx.1, fun h => hx.2 (locs_mono (by omega) (Nat.le_refl _) h)⟩
        rw [hf₁ hx₁, hf₂ hx₂, hf₃ hx]
    · next hge =>
      obtain rfl : n0 = n1 := by omega
      have hlast := hk base ⟨sortedOn_of_le (Nat.le_refl _), ?_⟩ (Set.eqOn_refl _ _)
      · simpa only [Nat.lt_irrefl, and_false, if_false] using hlast
      rw [part_congr fun x hx hxn => hbase x hx (Nat.le_of_lt_succ hxn)]

/-- The slice of a CPU is small enough for all its merges to be its own. -/
theorem leftCpu_own {r : Msort} (h0 : p = 0 → r.n1 + 1 ≤ c.slice) : leftCpu c p r = none := by
  refine if_neg ?_
  rintro ⟨hp, hn0, hn1⟩
  have := h0 hp
  omega

-- ---------------------------------------------------------------------------
-- The tree
-- ---------------------------------------------------------------------------

theorem doDivide_other {c' nCpus : ℕ} (hl : nCpus ≤ l) (hc : c' ≠ p) :
    doDivide n0 n1 c' l p nCpus k = k := by
  rw [doDivide]
  simp [hl, hc]

/-- An inner node of the tree splits its part into two of `w` elements. -/
theorem doDivide_inner {c' nCpus w : ℕ} (hw : 0 < w) (hl : l < nCpus) :
    doDivide (c' * (w * 2)) ((c' + 1) * (w * 2) - 1) c' l p nCpus k =
      doDivide (2 * c' * w) ((2 * c' + 1) * w - 1) (2 * c') (2 * l) p nCpus
        (doDivide ((2 * c' + 1) * w) ((2 * c' + 1 + 1) * w - 1) (2 * c' + 1) (2 * l) p nCpus
          (if p = 0 then .await (2 * c' + 1)
            (doMsort (2 * c' * w) ((2 * c' + 1 + 1) * w - 1) ((2 * c' + 1) * w - 1) k) else k)) := by
  have h1 : c' * (w * 2) = 2 * c' * w := by ring
  have h2 : (c' + 1) * (w * 2) = (2 * c' + 1 + 1) * w := by ring
  have h3 : (2 * c' + 1) * w = 2 * c' * w + w := Nat.succ_mul _ _
  have h4 : (2 * c' + 1 + 1) * w = 2 * c' * w + w + w := by rw [Nat.succ_mul, h3]
  have hm : (2 * c' * w + ((2 * c' + 1 + 1) * w - 1)) / 2 = (2 * c' + 1) * w - 1 := by omega
  have hm' : (2 * c' + 1) * w - 1 + 1 = (2 * c' + 1) * w := by omega
  rw [doDivide, h1, h2, if_pos (by omega), if_neg (Nat.not_le.mpr hl)]
  simp only [hm, hm']

/-- Above the slices every level has fewer nodes than there are CPUs. -/
theorem inner_level {h : ℕ} (hl : l * 2 ^ (h + 1) = c.cpus) :
    l < c.cpus ∧ 2 * l * 2 ^ h = c.cpus := by
  have hl' : 2 * l * 2 ^ h = c.cpus := by
    rw [← hl]
    ring
  have hpos : 0 < 2 * l * 2 ^ h := hl' ▸ c.cpus_pos
  have hle := Nat.le_mul_of_pos_right (2 * l) (Nat.two_pow_pos h)
  have h2l : 0 < 2 * l := Nat.pos_of_mul_pos_right hpos
  exact ⟨by omega, hl'⟩

/-- A CPU other than CPU 0 does nothing in a sub-tree that it is no part of. -/
theorem doDivide_skip {c' h : ℕ} (hp : p ≠ 0) (hl : l * 2 ^ h = c.cpus)
    (hout : p < c' * 2 ^ h ∨ (c' + 1) * 2 ^ h ≤ p) :
    doDivide (c' * (c.slice * 2 ^ h)) ((c' + 1) * (c.slice * 2 ^ h) - 1) c' l p c.cpus k = k := by
  induction h generalizing c' l k with
  | zero =>
    have hl' : c.cpus ≤ l := by omega
    exact doDivide_other hl' (by omega)
  | succ h ih =>
    obtain ⟨hlt, hl'⟩ := inner_level hl
    have hw : 0 < c.slice * 2 ^ h := Nat.mul_pos c.slice_pos (Nat.two_pow_pos h)
    have hW : c.slice * 2 ^ (h + 1) = c.slice * 2 ^ h * 2 := (Nat.mul_assoc ..).symm
    have h1 : c' * 2 ^ (h + 1) = 2 * c' * 2 ^ h := by ring
    have h2 : (c' + 1) * 2 ^ (h + 1) = (2 * c' + 1 + 1) * 2 ^ h := by ring
    have h3 : (2 * c' + 1) * 2 ^ h = 2 * c' * 2 ^ h + 2 ^ h := Nat.succ_mul _ _
    have h4 : (2 * c' + 1 + 1) * 2 ^ h = (2 * c' + 1) * 2 ^ h + 2 ^ h := Nat.succ_mul _ _
    rw [hW, doDivide_inner hw hlt, ih hl' (by omega),
      ih hl' (by omega), if_neg hp]

/-- What a CPU other than CPU 0 does is to sort its slice and to report it. -/
theorem doDivide_slice (c' h : ℕ) (hp : p ≠ 0) (hl : l * 2 ^ h = c.cpus)
    (hin : c' * 2 ^ h ≤ p) (hin' : p < (c' + 1) * 2 ^ h) :
    doDivide (c' * (c.slice * 2 ^ h)) ((c' + 1) * (c.slice * 2 ^ h) - 1) c' l p c.cpus k =
      doDivide (p * c.slice) ((p + 1) * c.slice - 1) p c.cpus p c.cpus k := by
  induction h generalizing c' l k with
  | zero =>
    obtain rfl : c' = p := by omega
    obtain rfl : l = c.cpus := by omega
    simp
  | succ h ih =>
    obtain ⟨hlt, hl'⟩ := inner_level hl
    have hw : 0 < c.slice * 2 ^ h := Nat.mul_pos c.slice_pos (Nat.two_pow_pos h)
    have hW : c.slice * 2 ^ (h + 1) = c.slice * 2 ^ h * 2 := (Nat.mul_assoc ..).symm
    have h1 : c' * 2 ^ (h + 1) = 2 * c' * 2 ^ h := by ring
    have h2 : (c' + 1) * 2 ^ (h + 1) = (2 * c' + 1 + 1) * 2 ^ h := by ring
    have h3 : (2 * c' + 1) * 2 ^ h = 2 * c' * 2 ^ h + 2 ^ h := Nat.succ_mul _ _
    have h4 : (2 * c' + 1 + 1) * 2 ^ h = (2 * c' + 1) * 2 ^ h + 2 ^ h := Nat.succ_mul _ _
    rw [hW, doDivide_inner hw hlt, if_neg hp]
    rcases Nat.lt_or_ge p ((2 * c' + 1) * 2 ^ h) with hleft | hright
    · rw [doDivide_skip hp hl' (.inl hleft)]
      exact ih _ hl' (by omega) hleft
    · rw [doDivide_skip hp hl' (.inr hright)]
      exact ih _ hl' hright (by omega)

/-- The report of a CPU hands its sorted slice over. -/
theorem safe_report (hp : p ≠ 0) (hlt : p < 32)
    (hbase : ∀ x, p * c.slice ≤ x → x < (p + 1) * c.slice → array base x = array mem₀ x) :
    Safe word (resources c mem₀) p
      (doDivide (p * c.slice) ((p + 1) * c.slice - 1) p c.cpus p c.cpus .done) none
      (locs (p * c.slice) ((p + 1) * c.slice)) base := by
  have hslice := c.one_lt_slice
  have hend : (p + 1) * c.slice = p * c.slice + c.slice := Nat.succ_mul _ _
  have hlast : (p + 1) * c.slice - 1 + 1 = (p + 1) * c.slice := by omega
  refine safe_own (Nat.le_refl _) (by omega) (fun r _ _ => leftCpu_own fun h => absurd h hp)
    (by rw [hlast]) (fun x hx hx' => hbase x hx (by omega)) fun mem' hs _ => ?_
  rw [hlast] at hs
  rw [if_pos ⟨⟨hp, rfl⟩, by omega⟩]
  exact ⟨hlt, rfl, Set.Subset.refl _, hs, fun h => absurd h hp⟩

/-- CPU 0 sorts its own slice first. -/
theorem safe_first {n1 : ℕ} (hn1 : n1 + 1 = c.slice)
    (hbase : ∀ x < c.slice, array base x = array mem₀ x)
    (hk : ∀ mem', Sorted mem₀ mem' 0 c.slice →
      Safe word (resources c mem₀) 0 k none (locs 0 c.slice) mem') :
    Safe word (resources c mem₀) 0 (doDivide 0 n1 0 c.cpus 0 c.cpus k) none
      (locs 0 c.slice) base := by
  refine safe_own (Nat.le_refl _) (Nat.zero_le _)
    (fun r _ h => leftCpu_own fun _ => hn1 ▸ Nat.succ_le_succ h) (by rw [hn1])
    (fun x _ hx => hbase x (by omega)) fun mem' hs _ => ?_
  rw [hn1] at hs
  simpa using hk mem' hs

theorem not_locs_subset {lo hi lo' hi' : ℕ} (h : lo < hi) (hout : lo < lo' ∨ hi' ≤ lo) :
    ¬ locs lo hi ⊆ locs lo' hi' := by
  intro hsub
  have := a_mem_locs.mp (hsub (a_mem_locs.mpr ⟨Nat.le_refl lo, h⟩))
  omega

/-- CPU 0 waits for CPU 1 and merges its slice with its own. -/
theorem safe_firstPair (hcpus : 1 < c.cpus) (hword : c.cpus ≤ 32)
    (hbase : ∀ x < c.slice, array base x = array mem₀ x)
    (hl : 2 * l = c.cpus)
    (hk : ∀ mem', Sorted mem₀ mem' 0 (2 * c.slice) →
      Safe word (resources c mem₀) 0 k none (locs 0 (2 * c.slice)) mem') :
    Safe word (resources c mem₀) 0 (doDivide (0 * (c.slice * 2)) ((0 + 1) * (c.slice * 2) - 1)
      0 l 0 c.cpus k) none (locs 0 c.slice) base := by
  have hs := c.one_lt_slice
  rw [doDivide_inner c.slice_pos (by omega), hl]
  simp only [Nat.mul_zero, Nat.zero_mul, Nat.zero_add, if_true, Nat.one_mul]
  refine safe_first (by omega) hbase fun m₁ h₁ => ?_
  rw [doDivide_other (Nat.le_refl _) (by omega)]
  refine ⟨show 1 < 32 by omega, rfl, fun m₂ heq hres => ?_⟩
  have hfoot : (resources c mem₀).foot 1 = locs c.slice (2 * c.slice) := by
    simp [resources]
  rw [hfoot] at hres ⊢
  rcases hres with hsub | hres
  · exact absurd hsub (not_locs_subset (by omega) (.inr (Nat.le_refl _)))
  · have hright : Sorted mem₀ m₂ c.slice (2 * c.slice) := by
      simpa [resources] using hres
    rw [locs_union (Nat.zero_le _) (by omega)]
    refine safe_doMsort (if_neg (by simp)) (Nat.zero_le _) (by omega)
      (locs_mono (Nat.le_refl _) (by omega)) ?_ ?_ fun m₃ h₃ _ => hk m₃ ?_
    · rw [Nat.sub_add_cancel c.slice_pos]
      exact h₁.congr heq
    · rw [Nat.sub_add_cancel c.slice_pos, Nat.sub_add_cancel (by omega)]
      exact hright
    · rwa [Nat.sub_add_cancel (by omega)] at h₃

/-- Further pairs of slices: CPU 0 waits for the right one and has to find the left one finished. -/
theorem safe_pair {c' : ℕ} (hc : c' ≠ 0) (hword : c.cpus ≤ 32) (hin : 2 * c' + 1 < c.cpus)
    (hl : 2 * l = c.cpus)
    (hk : ∀ mem', Set.EqOn base mem' (locs 0 (2 * c' * c.slice)) →
      Sorted mem₀ mem' (2 * c' * c.slice) ((2 * c' + 1 + 1) * c.slice) →
      Safe word (resources c mem₀) 0 k none (locs 0 ((2 * c' + 1 + 1) * c.slice)) mem') :
    Safe word (resources c mem₀) 0 (doDivide (c' * (c.slice * 2)) ((c' + 1) * (c.slice * 2) - 1)
      c' l 0 c.cpus k) none (locs 0 (2 * c' * c.slice)) base := by
  have hs := c.one_lt_slice
  have h3 : (2 * c' + 1) * c.slice = 2 * c' * c.slice + c.slice := Nat.succ_mul _ _
  have h4 : (2 * c' + 1 + 1) * c.slice = (2 * c' + 1) * c.slice + c.slice := Nat.succ_mul _ _
  have hmid : (2 * c' + 1) * c.slice - 1 + 1 = (2 * c' + 1) * c.slice := by omega
  have hend : (2 * c' + 1 + 1) * c.slice - 1 + 1 = (2 * c' + 1 + 1) * c.slice := by omega
  have hpos : 0 < 2 * c' * c.slice := Nat.mul_pos (by omega) c.slice_pos
  have hn : 2 * c' * c.slice ≤ (2 * c' + 1) * c.slice - 1 := by omega
  have hm : (2 * c' + 1) * c.slice - 1 ≤ (2 * c' + 1 + 1) * c.slice - 1 := by omega
  have hwide : (2 * c' + 1 + 1) * c.slice - 1 + 1 = 2 * c' * c.slice + 2 * c.slice := by omega
  rw [doDivide_inner c.slice_pos (by omega), hl, doDivide_other (Nat.le_refl _) (by omega),
    doDivide_other (Nat.le_refl _) (by omega), if_pos rfl]
  refine ⟨show 2 * c' + 1 < 32 by omega, rfl, fun m₁ heq₁ hres₁ => ?_⟩
  have hright : Sorted mem₀ m₁ ((2 * c' + 1) * c.slice) ((2 * c' + 1 + 1) * c.slice) :=
    hres₁.resolve_left (not_locs_subset (by omega) (.inr (by omega)))
  have hgate : (resources c mem₀).gate 0
      ⟨2 * c' * c.slice, (2 * c' + 1 + 1) * c.slice - 1, (2 * c' + 1) * c.slice - 1⟩ =
      some (2 * c') := by
    show leftCpu c 0 _ = _
    rw [leftCpu, if_pos ⟨rfl, Nat.ne_of_gt hpos, hwide⟩]
    exact congrArg some (Nat.mul_div_cancel _ c.slice_pos)
  unfold doMsort Safe
  rw [hgate]
  refine ⟨show 2 * c' < 32 by omega, rfl, fun m₂ heq₂ hres₂ => ?_⟩
  have hleft : Sorted mem₀ m₂ (2 * c' * c.slice) ((2 * c' + 1) * c.slice) := by
    refine hres₂.resolve_left fun hsub => ?_
    have hx := hsub (a_mem_locs.mpr ⟨Nat.le_refl _, by omega⟩)
    rcases hx with hx | hx
    · exact absurd (a_mem_locs.mp hx).2 (Nat.lt_irrefl _)
    · exact absurd (a_mem_locs.mp hx).1 (by omega)
  have hO : locs 0 (2 * c' * c.slice) ∪ (resources c mem₀).foot (2 * c' + 1) ∪
      (resources c mem₀).foot (2 * c') = locs 0 ((2 * c' + 1 + 1) * c.slice) := by
    have hfoot : (resources c mem₀).foot (2 * c') ∪ (resources c mem₀).foot (2 * c' + 1) =
        locs (2 * c' * c.slice) ((2 * c' + 1 + 1) * c.slice) := locs_union (by omega) (by omega)
    rw [Set.union_assoc, Set.union_comm (Resources.foot _ _), hfoot,
      locs_union (Nat.zero_le _) (by omega)]
  have hright' : Sorted mem₀ m₂ ((2 * c' + 1) * c.slice) ((2 * c' + 1 + 1) * c.slice) :=
    hright.congr (heq₂.mono Set.subset_union_right)
  rw [hO]
  refine ⟨locs_mono (Nat.zero_le _) (Nat.le_of_eq hend),
    ⟨hn, hm, by rw [hmid]; exact hleft.sorted, by rw [hmid, hend]; exact hright'.sorted⟩, ?_⟩
  refine safe_msort hn hm (by rw [hmid]; exact hleft.sorted)
    (by rw [hmid, hend]; exact hright'.sorted)
    (locs_mono (Nat.zero_le _) (Nat.le_of_eq hend)) fun m₃ hs₃ hp₃ hf₃ => ?_
  rw [hend] at hs₃ hp₃ hf₃
  refine hk m₃ (fun x hx => ?_) (hleft.merge hright' (by omega) (by omega) hs₃ hp₃)
  have hx₃ : x ∈ locs 0 ((2 * c' + 1 + 1) * c.slice) \
      locs (2 * c' * c.slice) ((2 * c' + 1 + 1) * c.slice) :=
    ⟨locs_mono (Nat.le_refl _) (by omega) hx,
      Set.disjoint_left.mp (disjoint_locs (Nat.le_refl _)) hx⟩
  rw [heq₁ hx, heq₂ (.inl hx), hf₃ hx₃]

/-- A sub-tree of at least two CPUs, which CPU 0 enters with all slices before it. -/
theorem safe_tree (c' : ℕ) {h : ℕ} (hword : c.cpus ≤ 32) (hl : l * 2 ^ (h + 1) = c.cpus) (hc : c' < l)
    (hbase : c' = 0 → ∀ x < c.slice, array base x = array mem₀ x)
    (hk : ∀ mem', Set.EqOn base mem' (locs 0 (c' * (c.slice * 2 ^ (h + 1)))) →
      Sorted mem₀ mem' (c' * (c.slice * 2 ^ (h + 1))) ((c' + 1) * (c.slice * 2 ^ (h + 1))) →
      Safe word (resources c mem₀) 0 k none (locs 0 ((c' + 1) * (c.slice * 2 ^ (h + 1)))) mem') :
    Safe word (resources c mem₀) 0
      (doDivide (c' * (c.slice * 2 ^ (h + 1))) ((c' + 1) * (c.slice * 2 ^ (h + 1)) - 1)
        c' l 0 c.cpus k) none (locs 0 (max (c' * (c.slice * 2 ^ (h + 1))) c.slice)) base := by
  induction h generalizing c' l k base with
  | zero =>
    have hl' : 2 * l = c.cpus := by omega
    have h1 : c' * (c.slice * 2 ^ (0 + 1)) = 2 * c' * c.slice := by ring
    have h2 : (c' + 1) * (c.slice * 2 ^ (0 + 1)) = (2 * c' + 1 + 1) * c.slice := by ring
    rw [h1, h2] at hk
    rcases Nat.eq_zero_or_pos c' with rfl | hpos
    · have hfirst := safe_firstPair (k := k) (by omega) hword (hbase rfl) hl' fun mem' hs =>
        hk mem' (by simp [locs]) (by simpa using hs)
      simpa using hfirst
    · have hge : c.slice ≤ 2 * c' * c.slice := Nat.le_mul_of_pos_left _ (by omega)
      rw [h1, Nat.max_eq_left hge, ← h1]
      have hpair := safe_pair (Nat.ne_of_gt hpos) hword (by omega) hl' hk
      rwa [← h1] at hpair
  | succ h ih =>
    obtain ⟨hlt, hl'⟩ := inner_level hl
    have h2l : 2 * l ≤ c.cpus := hl' ▸ Nat.le_mul_of_pos_right _ (Nat.two_pow_pos _)
    have hw : 0 < c.slice * 2 ^ (h + 1) := Nat.mul_pos c.slice_pos (Nat.two_pow_pos _)
    have hW : c.slice * 2 ^ (h + 1 + 1) = c.slice * 2 ^ (h + 1) * 2 := (Nat.mul_assoc ..).symm
    have hge : c.slice * 2 ≤ c.slice * 2 ^ (h + 1) :=
      Nat.mul_le_mul_left _ (Nat.le_self_pow (Nat.succ_ne_zero h) 2)
    have hs := c.one_lt_slice
    rw [hW] at hk ⊢
    generalize hwdef : c.slice * 2 ^ (h + 1) = w at *
    have h1 : c' * (w * 2) = 2 * c' * w := by ring
    have h2 : (c' + 1) * (w * 2) = (2 * c' + 1 + 1) * w := by ring
    have h3 : (2 * c' + 1) * w = 2 * c' * w + w := Nat.succ_mul _ _
    have h4 : (2 * c' + 1 + 1) * w = (2 * c' + 1) * w + w := Nat.succ_mul _ _
    have hmid : (2 * c' + 1) * w - 1 + 1 = (2 * c' + 1) * w := by omega
    have hend : (2 * c' + 1 + 1) * w - 1 + 1 = (2 * c' + 1 + 1) * w := by omega
    rw [doDivide_inner hw hlt, if_pos rfl]
    rw [h1, h2] at hk
    rw [h1]
    refine ih (2 * c') hl' (by omega) (fun h0 => hbase (by omega)) fun m₁ heq₁ hl₁ => ?_
    have hmax : locs 0 ((2 * c' + 1) * w) = locs 0 (max ((2 * c' + 1) * w) c.slice) := by
      rw [Nat.max_eq_left (by omega)]
    rw [hmax]
    refine ih (2 * c' + 1) hl' (by omega) (fun h0 => by omega) fun m₂ heq₂ hr₂ => ?_
    refine ⟨show 2 * c' + 1 < 32 by omega, rfl, fun m₃ heq₃ _ => ?_⟩
    have hfoot : (resources c mem₀).foot (2 * c' + 1) ⊆ locs 0 ((2 * c' + 1 + 1) * w) :=
      locs_mono (Nat.zero_le _) (Nat.mul_le_mul_left _ (by omega))
    have hgate : leftCpu c 0 ⟨2 * c' * w, (2 * c' + 1 + 1) * w - 1, (2 * c' + 1) * w - 1⟩ = none := by
      refine if_neg ?_
      rintro ⟨-, -, heq⟩
      simp only at heq
      omega
    rw [Set.union_eq_self_of_subset_right hfoot]
    refine safe_doMsort hgate (by omega) (by omega)
      (locs_mono (Nat.zero_le _) (Nat.le_of_eq hend)) ?_ ?_ fun m₄ hs₄ hf₄ => ?_
    · rw [hmid]
      exact (hl₁.congr (heq₂.mono (locs_mono (Nat.zero_le _) (Nat.le_refl _)))).congr
        (heq₃.mono (locs_mono (Nat.zero_le _) (by omega)))
    · rw [hmid, hend]
      exact hr₂.congr (heq₃.mono (locs_mono (Nat.zero_le _) (Nat.le_refl _)))
    · rw [hend] at hs₄ hf₄
      refine hk m₄ (fun x hx => ?_) hs₄
      have hx₂ : x ∈ locs 0 ((2 * c' + 1) * w) := locs_mono (Nat.le_refl _) (by omega) hx
      have hx₃ : x ∈ locs 0 ((2 * c' + 1 + 1) * w) := locs_mono (Nat.le_refl _) (by omega) hx₂
      rw [heq₁ hx, heq₂ hx₂, heq₃ hx₃,
        hf₄ ⟨hx₃, Set.disjoint_left.mp (disjoint_locs (Nat.le_refl _)) hx⟩]

end Safe

-- ---------------------------------------------------------------------------
-- Every schedule
-- ---------------------------------------------------------------------------

variable {c : Setup} {mem₀ : Mem} {sync₀ : BitVec 32}

/-- CPU 0 may have reported before the CPUs start to sort, nobody else. -/
def NoReports (sync₀ : BitVec 32) : Prop := ∀ i, i ≠ 0 → sync₀.getLsbD i = false

theorem safe_start (hword : c.cpus ≤ 32) {p : ℕ} (hp : p < c.cpus) :
    Safe word (resources c mem₀) p (doDivide 0 (c.size - 1) 0 1 p c.cpus .done) none
      (locs (p * c.slice) ((p + 1) * c.slice)) mem₀ := by
  have hsize : c.slice * 2 ^ c.cpusLd = c.size := by
    rw [Nat.mul_comm]
    exact c.cpus_mul_slice
  rcases Nat.eq_zero_or_pos p with rfl | hpos
  · cases hld : c.cpusLd with
    | zero =>
      have hone : c.cpus = 1 := by rw [Setup.cpus, hld, Nat.pow_zero]
      rw [hld, Nat.pow_zero, Nat.mul_one] at hsize
      have hfirst : Safe word (resources c mem₀) 0
          (doDivide 0 (c.slice - 1) 0 c.cpus 0 c.cpus .done) none (locs 0 c.slice) mem₀ := safe_first
        (Nat.sub_add_cancel c.slice_pos) (fun _ _ => rfl) fun mem' hs => ?_
      · rw [hone, hsize] at hfirst
        simpa [hone, hsize] using hfirst
      · intro _
        rw [← hsize]
        exact ⟨Set.Subset.refl _, hs⟩
    | succ h =>
      have hl : 1 * 2 ^ (h + 1) = c.cpus := by rw [Nat.one_mul, Setup.cpus, hld]
      rw [hld] at hsize
      have htree := @safe_tree c mem₀ mem₀ 1 .done 0 h hword hl
        Nat.zero_lt_one (fun _ _ _ => rfl) fun mem' _ hs => ?_
      · simpa [hsize] using htree
      · intro _
        rw [hsize, Nat.zero_mul, Nat.zero_add, Nat.one_mul] at hs
        rw [hsize, Nat.zero_add, Nat.one_mul]
        exact ⟨Set.Subset.refl _, hs⟩
  · have hslice := doDivide_slice (c := c) (k := .done) (l := 1) 0 c.cpusLd
      (Nat.ne_of_gt hpos) (Nat.one_mul _) (by simp) (by simpa [Setup.cpus] using hp)
    rw [Nat.zero_mul, Nat.zero_add, Nat.one_mul, hsize] at hslice
    rw [hslice]
    exact safe_report (Nat.ne_of_gt hpos) (Nat.lt_of_lt_of_le hp hword) fun _ _ _ => rfl

theorem safety_start (hword : c.cpus ≤ 32) (hsync : NoReports sync₀) :
    Safety word (resources c mem₀) (start c mem₀ sync₀)
      (fun p => if p < c.cpus then locs (p * c.slice) ((p + 1) * c.slice) else ∅) := by
  refine ⟨⟨fun p q hpq => ?_, fun i hi hset => ?_⟩, fun p => ?_, fun p r hr => by cases hr⟩
  · split
    · split
      · exact (resources c mem₀).disjoint p q hpq
      · exact Set.disjoint_empty _
    · exact Set.empty_disjoint _
  · left
    obtain rfl : i = 0 := by
      by_contra hne
      have hclear : Sync.waitForCpu i sync₀ = false := by
        rw [Sync.waitForCpu_eq sync₀ hi, hsync i hne]
      exact Bool.false_ne_true (hclear.symm.trans hset)
    have h0 : (resources c mem₀).taker < c.cpus := c.cpus_pos
    rw [if_pos h0]
    exact Set.Subset.refl _
  · by_cases hp : p < c.cpus
    · simpa only [start, hp, if_true] using safe_start hword hp
    · simp only [start, hp, if_false]
      rintro rfl
      exact absurd c.cpus_pos hp

theorem correct_of_safety {s : System} {Own : ℕ → Set Loc} {p : ℕ}
    (h : Safety word (resources c mem₀) s Own) (hleft : LeftFinished c s p) :
    Correct c mem₀ s p := by
  have hout : ∀ {q n0 n1 : ℕ}, (∀ x, (s.thread q).pending.nextStore = some x →
      x ∉ locs n0 (n1 + 1)) → ¬ StoresTo s q n0 n1 := by
    rintro q n0 n1 hx ⟨i, hlo, hhi, hi⟩
    exact hx _ hi (a_mem_locs.mpr ⟨hlo, Nat.lt_succ_of_le hhi⟩)
  constructor
  · intro r hr
    obtain ⟨⟨-, -, hl, hr'⟩, hq⟩ := h.called hleft hr
    exact ⟨hl, hr', fun q hqp => hout (hq q hqp)⟩
  · exact fun p' r hr q hqp => hout fun x hx => h.undisturbed hr hqp hx
  · intro hdone
    obtain ⟨-, hs⟩ := h.returned hdone rfl
    exact ⟨hs.sorted, hs.perm⟩

/-- If CPU 0 finds the left slice of every pair finished whenever it merges one, all merges are of
sorted parts that nobody else stores to, and the array is sorted when CPU 0 returns. -/
theorem correct_of_leftFinished (hword : c.cpus ≤ 32) (hsync : NoReports sync₀)
    (schedule : ℕ → ℕ)
    (hleft : ∀ t, LeftFinished c (run (step word) (start c mem₀ sync₀) schedule t) (schedule t))
    (t : ℕ) :
    Correct c mem₀ (run (step word) (start c mem₀ sync₀) schedule t) (schedule t) := by
  obtain ⟨_, h⟩ := safety_run (safety_start hword hsync) schedule hleft t
  exact correct_of_safety h (hleft t)

section FourCpus

/-- Four CPUs and eight elements, in falling order. -/
def fourCpus : Setup := ⟨2, 3, by decide⟩

def falling : Mem
  | .a i => 7 - i
  | .tmp _ => 0

theorem leftFinished_iff {s : System} {p : ℕ} : LeftFinished c s p ↔
    (((s.thread p).pending.nextCall.bind (leftCpu c p)).all (Sync.waitForCpu · s.sync)) = true := by
  simp only [LeftFinished, Option.all_eq_true, Option.bind_eq_some_iff]
  constructor
  · rintro h i ⟨r, hr, hi⟩
    exact h r i hr hi
  · intro h r i hr hi
    exact h i ⟨r, hr, hi⟩

instance {s : System} {p : ℕ} : Decidable (LeftFinished c s p) :=
  decidable_of_iff _ leftFinished_iff.symm

/-- CPUs 1, 2 and 3 sort their slices before CPU 0 goes on. -/
def inTurn (t : ℕ) : ℕ := if t < 14 then 1 else if t < 28 then 2 else if t < 42 then 3 else 0

theorem inTurn_zero {t : ℕ} (h : 42 ≤ t) : inTurn t = 0 := by
  rw [inTurn, if_neg (by omega), if_neg (by omega), if_neg (by omega)]

def returned (s : System) : Bool := (s.thread 0).pending matches .done

theorem done_of_returned {s : System} (h : returned s) : (s.thread 0).pending = .done := by
  unfold returned at h
  split at h
  · assumption
  · cases h

theorem inTurn_returned {t : ℕ} (ht : 144 ≤ t) :
    returned (run (step word) (start fourCpus falling 0#32) inTurn t) := by
  induction t, ht using Nat.le_induction with
  | base => decide +kernel
  | succ t ht ih =>
    rw [run_succ, inTurn_zero (by omega), step]
    simp only [done_of_returned ih]
    exact ih

theorem correct_of_leftFinished_inTurn :
    SortedOn (array (run (step word) (start fourCpus falling 0#32) inTurn 144).mem) 0 8 := by
  refine ((correct_of_leftFinished (by decide) (fun i _ => BitVec.getLsbD_zero) inTurn
    (fun t => ?_) 144).result (done_of_returned (inTurn_returned (Nat.le_refl _)))).1
  rcases Nat.lt_or_ge t 144 with hlt | hge
  · revert t
    decide +kernel
  · intro r i hr
    rw [inTurn_zero (by omega), done_of_returned (inTurn_returned hge)] at hr
    cases hr

/-- CPUs 1 and 3 are done when CPU 0 merges the slices of CPUs 2 and 3; CPU 2 has yet to start. -/
def withoutCpu2 (t : ℕ) : ℕ := if t < 14 then 1 else if t < 28 then 3 else 0

theorem merged_unsorted :
    ¬ ∀ (c : Setup) (mem₀ : Mem) (sync₀ : BitVec 32) (schedule : ℕ → ℕ) (t : ℕ),
      NoReports sync₀ →
      Correct c mem₀ (run (step word) (start c mem₀ sync₀) schedule t) (schedule t) := by
  intro h
  have hmerge := (h fourCpus falling 0 withoutCpu2 64 fun i _ => BitVec.getLsbD_zero).merged
    ⟨4, 7, 5⟩ (by decide +kernel)
  exact absurd (hmerge.1 4 5 (by decide) (by decide) (by decide)) (by decide +kernel)

end FourCpus

end ParaNut.Sw.MergeSort
