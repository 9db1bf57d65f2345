import ParaNut.Lib.Threads
import ParaNut.Sw.Sync

/-!
# Merge sort on several CPUs (`merge_sort.c`)

`do_divide` splits the array over a tree of CPUs and `do_msort` merges two
neighbouring parts through the array `tmp`. Each function is given as the
accesses of the shared arrays that it makes, one after the other, followed by
those of its caller `k`. The indices are C integers that never leave the
arrays.
-/

namespace ParaNut.Sw.MergeSort

open Lib.Threads

inductive Loc
  | a (i : ℕ)
  | tmp (i : ℕ)
  deriving DecidableEq

/-- The arguments of a call of `do_msort`. -/
structure Msort where
  n0 : ℕ
  n1 : ℕ
  m : ℕ
  deriving DecidableEq

abbrev Code := Prog Loc ℤ Msort

/-- `while (i0 <= m && i1 <= n1)` -/
def mergeLoop (m n1 i0 i1 j : ℕ) (k : ℕ → ℕ → ℕ → Code) : Code :=
  if i0 ≤ m ∧ i1 ≤ n1 then
    .load (.a i0) fun x => .load (.a i1) fun y =>
      if x ≤ y then
        .load (.a i0) fun v => .store (.tmp j) v (mergeLoop m n1 (i0 + 1) i1 (j + 1) k)
      else
        .load (.a i1) fun v => .store (.tmp j) v (mergeLoop m n1 i0 (i1 + 1) (j + 1) k)
  else k i0 i1 j
termination_by (m + 1 - i0) + (n1 + 1 - i1)

/-- `while (i <= hi) tmp[j++] = a[i++];` -/
def drainLoop (hi i j : ℕ) (k : ℕ → Code) : Code :=
  if i ≤ hi then .load (.a i) fun v => .store (.tmp j) v (drainLoop hi (i + 1) (j + 1) k)
  else k j
termination_by hi + 1 - i

/-- `for (j = n0; j <= n1; j++) a[j] = tmp[j];` -/
def copyLoop (n1 j : ℕ) (k : Code) : Code :=
  if j ≤ n1 then .load (.tmp j) fun v => .store (.a j) v (copyLoop n1 (j + 1) k) else k
termination_by n1 + 1 - j

def doMsort (n0 n1 m : ℕ) (k : Code) : Code :=
  .call ⟨n0, n1, m⟩ <| mergeLoop m n1 n0 (m + 1) n0 fun i0 i1 j =>
    drainLoop m i0 j fun j => drainLoop n1 i1 j fun _ => copyLoop n1 n0 (.ret k)

def doDivide (n0 n1 c l cpuId nCpus : ℕ) (k : Code) : Code :=
  if n0 < n1 then
    let m := (n0 + n1) / 2
    if nCpus ≤ l then
      if c = cpuId then
        doDivide n0 m c (2 * l) cpuId nCpus <| doDivide (m + 1) n1 c (2 * l) cpuId nCpus <|
          doMsort n0 n1 m <| if cpuId ≠ 0 ∧ l = nCpus then .signal cpuId k else k
      else k
    else
      doDivide n0 m (2 * c) (2 * l) cpuId nCpus <|
        doDivide (m + 1) n1 (2 * c + 1) (2 * l) cpuId nCpus <|
          if cpuId = 0 then .await (2 * c + 1) <| doMsort n0 n1 m k else k
  else k
termination_by n1 - n0

-- ---------------------------------------------------------------------------
-- Parts of an array
-- ---------------------------------------------------------------------------

/-- The elements from `lo` up to, not including, `hi`. -/
def part (f : ℕ → ℤ) (lo hi : ℕ) : List ℤ := (List.range' lo (hi - lo)).map f

def SortedOn (f : ℕ → ℤ) (lo hi : ℕ) : Prop := ∀ x y, lo ≤ x → x ≤ y → y < hi → f x ≤ f y

variable {f g : ℕ → ℤ} {lo mid hi : ℕ}

theorem part_empty (h : hi ≤ lo) : part f lo hi = [] := by
  simp [part, Nat.sub_eq_zero_of_le h]

theorem part_succ (h : lo ≤ hi) : part f lo (hi + 1) = part f lo hi ++ [f hi] := by
  simp [part, Nat.succ_sub h, List.range'_1_concat, Nat.add_sub_cancel' h]

theorem part_append (h : lo ≤ mid) (h' : mid ≤ hi) :
    part f lo mid ++ part f mid hi = part f lo hi := by
  obtain ⟨d, rfl⟩ := Nat.exists_eq_add_of_le h
  obtain ⟨e, rfl⟩ := Nat.exists_eq_add_of_le h'
  rw [part, part, part, ← List.map_append, Nat.add_sub_cancel_left, Nat.add_sub_cancel_left,
    Nat.add_assoc, Nat.add_sub_cancel_left, List.range'_append_1]

theorem part_congr (h : ∀ x, lo ≤ x → x < hi → f x = g x) : part f lo hi = part g lo hi := by
  refine List.map_congr_left fun x hx => ?_
  obtain ⟨hlo, hhi⟩ := List.mem_range'_1.mp hx
  exact h x hlo (by omega)

theorem SortedOn.congr (hs : SortedOn f lo hi) (h : ∀ x, lo ≤ x → x < hi → f x = g x) :
    SortedOn g lo hi := by
  intro x y hx hxy hy
  rw [← h x hx (by omega), ← h y (by omega) hy]
  exact hs x y hx hxy hy

theorem sortedOn_of_le (h : hi ≤ lo + 1) : SortedOn f lo hi := by
  intro x y hx hxy hy
  obtain rfl : x = y := by omega
  exact Int.le_refl _

-- ---------------------------------------------------------------------------
-- do_msort
-- ---------------------------------------------------------------------------

abbrev Mem := Loc → ℤ

/-- The parts of both arrays that a merge works on. -/
def locs (lo hi : ℕ) : Set Loc := { x | ∃ i, lo ≤ i ∧ i < hi ∧ (x = .a i ∨ x = .tmp i) }

@[simp] theorem a_mem_locs {i : ℕ} : Loc.a i ∈ locs lo hi ↔ lo ≤ i ∧ i < hi := by
  simp [locs]

@[simp] theorem tmp_mem_locs {i : ℕ} : Loc.tmp i ∈ locs lo hi ↔ lo ≤ i ∧ i < hi := by
  simp [locs]

def array (mem : Mem) (i : ℕ) : ℤ := mem (.a i)
def buffer (mem : Mem) (i : ℕ) : ℤ := mem (.tmp i)

/-- After `i0` and `i1` have moved on and `j` elements are in `tmp`: the array is as in `base`, and
what has been taken from its two parts is in `tmp` in order, before all that is left. -/
structure Merging (base : Mem) (O : Set Loc) (n0 n1 m i0 i1 j : ℕ) (mem : Mem) : Prop where
  left : n0 ≤ i0 ∧ i0 ≤ m + 1
  right : m < i1 ∧ i1 ≤ n1 + 1
  count : j + (m + 1) = i0 + i1
  array_eq : ∀ x, n0 ≤ x → x ≤ n1 → array mem x = array base x
  sorted : SortedOn (buffer mem) n0 j
  perm : (part (buffer mem) n0 j).Perm (part (array base) n0 i0 ++ part (array base) (m + 1) i1)
  leftRest : ∀ x y, n0 ≤ x → x < j → i0 ≤ y → y ≤ m → buffer mem x ≤ array base y
  rightRest : ∀ x y, n0 ≤ x → x < j → i1 ≤ y → y ≤ n1 → buffer mem x ≤ array base y
  frame : Set.EqOn base mem (O \ locs n0 (n1 + 1))

section Msort

variable {base mem mem' : Mem} {O : Set Loc} {n0 n1 m i0 i1 j : ℕ}

theorem merging_start (hn : n0 ≤ m) (hm : m ≤ n1) :
    Merging base O n0 n1 m n0 (m + 1) n0 base where
  left := ⟨Nat.le_refl _, Nat.le_succ_of_le hn⟩
  right := ⟨Nat.lt_succ_self m, Nat.succ_le_succ hm⟩
  count := rfl
  array_eq _ _ _ := rfl
  sorted := sortedOn_of_le (Nat.le_succ n0)
  perm := by simp [part_empty]
  leftRest := by omega
  rightRest := by omega
  frame := Set.eqOn_refl _ _

/-- The next element in order goes to the end of `tmp`. -/
theorem sortedOn_store (hs : SortedOn (buffer mem) n0 j)
    (heq : ∀ x, n0 ≤ x → x < j → buffer mem' x = buffer mem x)
    (hle : ∀ x, n0 ≤ x → x < j → buffer mem x ≤ buffer mem' j) :
    SortedOn (buffer mem') n0 (j + 1) := by
  intro x y hx hxy hy
  rcases Nat.lt_or_eq_of_le (Nat.le_of_lt_succ hy) with hyj | rfl
  · rw [heq x hx (by omega), heq y (by omega) hyj]
    exact hs x y hx hxy hyj
  · rcases Nat.lt_or_eq_of_le hxy with hlt | rfl
    · rw [heq x hx hlt]
      exact hle x hx hlt
    · exact Int.le_refl _

/-- What a store to `tmp[j]` leaves alone. -/
theorem buffer_store (heq : Set.EqOn mem mem' (O \ {.tmp j})) (hO : locs n0 (n1 + 1) ⊆ O)
    (hj : j ≤ n1) :
    (∀ x, n0 ≤ x → x < j → buffer mem' x = buffer mem x) ∧
    (∀ x, n0 ≤ x → x ≤ n1 → array mem' x = array mem x) := by
  constructor
  · intro x hx hxj
    have hmem : Loc.tmp x ∈ O := hO (tmp_mem_locs.mpr ⟨hx, by omega⟩)
    exact (heq ⟨hmem, by simp [Nat.ne_of_lt hxj]⟩).symm
  · intro x hx hxn
    have hmem : Loc.a x ∈ O := hO (a_mem_locs.mpr ⟨hx, by omega⟩)
    exact (heq ⟨hmem, by simp⟩).symm

/-- `tmp[j++] = a[i0++]` -/
theorem Merging.takeLeft (h : Merging base O n0 n1 m i0 i1 j mem)
    (hs : SortedOn (array base) n0 (m + 1)) (hO : locs n0 (n1 + 1) ⊆ O) (hi : i0 ≤ m)
    (hle : ∀ y, i1 ≤ y → y ≤ n1 → array base i0 ≤ array base y)
    (hv : mem' (.tmp j) = array base i0) (heq : Set.EqOn mem mem' (O \ {.tmp j})) :
    Merging base O n0 n1 m (i0 + 1) i1 (j + 1) mem' := by
  obtain ⟨hl, hr, hc, ha, hsort, hperm, hleft, hright, hframe⟩ := h
  obtain ⟨hbuf, harr⟩ := buffer_store heq hO (by omega)
  have hjv : buffer mem' j = array base i0 := hv
  have hpart : part (buffer mem') n0 j = part (buffer mem) n0 j := part_congr hbuf
  refine ⟨by omega, hr, by omega, fun x hx hxn => (harr x hx hxn).trans (ha x hx hxn), ?_, ?_,
    ?_, ?_, ?_⟩
  · exact sortedOn_store hsort hbuf fun x hx hxj => hjv ▸ hleft x i0 hx hxj (Nat.le_refl _) hi
  · rw [part_succ (by omega), part_succ hl.1, hpart, hjv, List.append_assoc]
    refine (hperm.append_right _).trans ?_
    rw [List.append_assoc]
    exact List.perm_append_comm.append_left _
  · intro x y hx hxj hy hym
    rcases Nat.lt_or_eq_of_le (Nat.le_of_lt_succ hxj) with hlt | rfl
    · rw [hbuf x hx hlt]
      exact hleft x y hx hlt (by omega) hym
    · rw [hjv]
      exact hs i0 y hl.1 (by omega) (by omega)
  · intro x y hx hxj hy hyn
    rcases Nat.lt_or_eq_of_le (Nat.le_of_lt_succ hxj) with hlt | rfl
    · rw [hbuf x hx hlt]
      exact hright x y hx hlt hy hyn
    · rw [hjv]
      exact hle y hy hyn
  · intro x hx
    have hne : x ≠ .tmp j := by
      rintro rfl
      exact hx.2 (tmp_mem_locs.mpr ⟨by omega, by omega⟩)
    rw [hframe hx, heq ⟨hx.1, hne⟩]

/-- `tmp[j++] = a[i1++]` -/
theorem Merging.takeRight (h : Merging base O n0 n1 m i0 i1 j mem)
    (hs : SortedOn (array base) (m + 1) (n1 + 1)) (hO : locs n0 (n1 + 1) ⊆ O) (hi : i1 ≤ n1)
    (hle : ∀ y, i0 ≤ y → y ≤ m → array base i1 ≤ array base y)
    (hv : mem' (.tmp j) = array base i1) (heq : Set.EqOn mem mem' (O \ {.tmp j})) :
    Merging base O n0 n1 m i0 (i1 + 1) (j + 1) mem' := by
  obtain ⟨hl, hr, hc, ha, hsort, hperm, hleft, hright, hframe⟩ := h
  obtain ⟨hbuf, harr⟩ := buffer_store heq hO (by omega)
  have hjv : buffer mem' j = array base i1 := hv
  have hpart : part (buffer mem') n0 j = part (buffer mem) n0 j := part_congr hbuf
  refine ⟨hl, by omega, by omega, fun x hx hxn => (harr x hx hxn).trans (ha x hx hxn), ?_, ?_,
    ?_, ?_, ?_⟩
  · exact sortedOn_store hsort hbuf fun x hx hxj => hjv ▸ hright x i1 hx hxj (Nat.le_refl _) hi
  · rw [part_succ (by omega), part_succ (Nat.succ_le_of_lt hr.1), hpart, hjv, ← List.append_assoc]
    exact hperm.append_right _
  · intro x y hx hxj hy hym
    rcases Nat.lt_or_eq_of_le (Nat.le_of_lt_succ hxj) with hlt | rfl
    · rw [hbuf x hx hlt]
      exact hleft x y hx hlt hy hym
    · rw [hjv]
      exact hle y hy hym
  · intro x y hx hxj hy hyn
    rcases Nat.lt_or_eq_of_le (Nat.le_of_lt_succ hxj) with hlt | rfl
    · rw [hbuf x hx hlt]
      exact hright x y hx hlt (by omega) hyn
    · rw [hjv]
      exact hs i1 y (by omega) (by omega) (by omega)
  · intro x hx
    have hne : x ≠ .tmp j := by
      rintro rfl
      exact hx.2 (tmp_mem_locs.mpr ⟨by omega, by omega⟩)
    rw [hframe hx, heq ⟨hx.1, hne⟩]

theorem Merging.mem_left (h : Merging base O n0 n1 m i0 i1 j mem) (hO : locs n0 (n1 + 1) ⊆ O)
    (hi : i0 ≤ m) : Loc.a i0 ∈ O ∧ mem (.a i0) = array base i0 := by
  obtain ⟨hl, hr, -, ha, -⟩ := h
  exact ⟨hO (a_mem_locs.mpr ⟨hl.1, by omega⟩), ha i0 hl.1 (by omega)⟩

theorem Merging.mem_right (h : Merging base O n0 n1 m i0 i1 j mem) (hO : locs n0 (n1 + 1) ⊆ O)
    (hi : i1 ≤ n1) : Loc.a i1 ∈ O ∧ mem (.a i1) = array base i1 := by
  obtain ⟨hl, hr, -, ha, -⟩ := h
  exact ⟨hO (a_mem_locs.mpr ⟨by omega, by omega⟩), ha i1 (by omega) hi⟩

theorem Merging.mem_tmp (h : Merging base O n0 n1 m i0 i1 j mem) (hO : locs n0 (n1 + 1) ⊆ O)
    (hi : i0 ≤ m ∨ i1 ≤ n1) : Loc.tmp j ∈ O := by
  obtain ⟨hl, hr, hc, -⟩ := h
  exact hO (tmp_mem_locs.mpr ⟨by omega, by omega⟩)

variable {P W : Type*} {σ : Signals W} {ρ : Resources P Loc ℤ Msort} {p : P} {cur : Option Msort}

theorem safe_mergeLoop {k : ℕ → ℕ → ℕ → Code} (hs : SortedOn (array base) n0 (m + 1))
    (hs' : SortedOn (array base) (m + 1) (n1 + 1)) (hO : locs n0 (n1 + 1) ⊆ O)
    (h : Merging base O n0 n1 m i0 i1 j mem)
    (hk : ∀ i0 i1 j mem', Merging base O n0 n1 m i0 i1 j mem' → (m < i0 ∨ n1 < i1) →
      Safe σ ρ p (k i0 i1 j) cur O mem') :
    Safe σ ρ p (mergeLoop m n1 i0 i1 j k) cur O mem := by
  fun_induction mergeLoop m n1 i0 i1 j k generalizing mem with
  | case1 i0 i1 j hi ihl ihr =>
    obtain ⟨hx, hax⟩ := h.mem_left hO hi.1
    obtain ⟨hy, hay⟩ := h.mem_right hO hi.2
    have hj := h.mem_tmp hO (.inl hi.1)
    refine ⟨hx, hy, ?_⟩
    show Safe σ ρ p (if mem (.a i0) ≤ mem (.a i1) then _ else _) cur O mem
    rw [hax, hay]
    split
    · next hle =>
      refine ⟨hx, hj, fun mem' hv heq => ihl (h.takeLeft hs hO hi.1 (fun y hy hyn => ?_)
        (hv.trans hax) heq)⟩
      exact hle.trans (hs' i1 y h.right.1 hy (Nat.lt_succ_of_le hyn))
    · next hgt =>
      refine ⟨hy, hj, fun mem' hv heq => ihr (h.takeRight hs' hO hi.2 (fun y hy hym => ?_)
        (hv.trans hay) heq)⟩
      exact (Int.le_of_lt (Int.not_le.mp hgt)).trans (hs i0 y h.left.1 hy (Nat.lt_succ_of_le hym))
  | case2 i0 i1 j hi => exact hk i0 i1 j mem h (by omega)

/-- `while (i0 <= m) tmp[j++] = a[i0++];` runs only if the right part is used up. -/
theorem safe_drainLeft {k : ℕ → Code} (hs : SortedOn (array base) n0 (m + 1))
    (hO : locs n0 (n1 + 1) ⊆ O) (h : Merging base O n0 n1 m i0 i1 j mem)
    (hdone : m < i0 ∨ n1 < i1)
    (hk : ∀ i0 j mem', Merging base O n0 n1 m i0 i1 j mem' → m < i0 →
      Safe σ ρ p (k j) cur O mem') :
    Safe σ ρ p (drainLoop m i0 j k) cur O mem := by
  fun_induction drainLoop m i0 j k generalizing mem with
  | case1 i0 j hi ih =>
    obtain ⟨hx, hax⟩ := h.mem_left hO hi
    refine ⟨hx, h.mem_tmp hO (.inl hi), fun mem' hv heq => ?_⟩
    have hnext := h.takeLeft hs hO hi (fun y hy hyn => by omega) (hv.trans hax) heq
    exact ih hnext (.inr (by omega))
  | case2 i0 j hi => exact hk i0 j mem h (Nat.not_le.mp hi)

theorem safe_drainRight {k : ℕ → Code} (hs : SortedOn (array base) (m + 1) (n1 + 1))
    (hO : locs n0 (n1 + 1) ⊆ O) (h : Merging base O n0 n1 m i0 i1 j mem) (hdone : m < i0)
    (hk : ∀ i1 j mem', Merging base O n0 n1 m i0 i1 j mem' → n1 < i1 →
      Safe σ ρ p (k j) cur O mem') :
    Safe σ ρ p (drainLoop n1 i1 j k) cur O mem := by
  fun_induction drainLoop n1 i1 j k generalizing mem with
  | case1 i1 j hi ih =>
    obtain ⟨hx, hax⟩ := h.mem_right hO hi
    refine ⟨hx, h.mem_tmp hO (.inr hi), fun mem' hv heq => ?_⟩
    exact ih (h.takeRight hs hO hi (fun y hy hym => by omega) (hv.trans hax) heq)
  | case2 i1 j hi => exact hk i1 j mem h (Nat.not_le.mp hi)

theorem safe_copyLoop {k : Code} {f : ℕ → ℤ} (hO : locs n0 (n1 + 1) ⊆ O) (hj : n0 ≤ j)
    (hbuf : ∀ x, n0 ≤ x → x ≤ n1 → buffer mem x = f x)
    (harr : ∀ x, n0 ≤ x → x < j → array mem x = f x)
    (hframe : Set.EqOn base mem (O \ locs n0 (n1 + 1)))
    (hk : ∀ mem', (∀ x, n0 ≤ x → x ≤ n1 → array mem' x = f x) →
      Set.EqOn base mem' (O \ locs n0 (n1 + 1)) → Safe σ ρ p k cur O mem') :
    Safe σ ρ p (copyLoop n1 j k) cur O mem := by
  fun_induction copyLoop n1 j k generalizing mem with
  | case1 j hjn ih =>
    have hin : ∀ x, n0 ≤ x → x ≤ n1 → Loc.a x ∈ O ∧ Loc.tmp x ∈ O := fun x hx hxn =>
      ⟨hO (a_mem_locs.mpr ⟨hx, Nat.lt_succ_of_le hxn⟩),
        hO (tmp_mem_locs.mpr ⟨hx, Nat.lt_succ_of_le hxn⟩)⟩
    refine ⟨(hin j hj hjn).2, (hin j hj hjn).1, fun mem' hv heq => ?_⟩
    refine ih (Nat.le_succ_of_le hj) (fun x hx hxn => ?_) (fun x hx hxj => ?_) (fun x hx => ?_)
    · exact (heq ⟨(hin x hx hxn).2, by simp⟩).symm.trans (hbuf x hx hxn)
    · rcases Nat.lt_or_eq_of_le (Nat.le_of_lt_succ hxj) with hlt | rfl
      · have hne : Loc.a x ≠ .a j := by simp [Nat.ne_of_lt hlt]
        exact (heq ⟨(hin x hx (by omega)).1, hne⟩).symm.trans (harr x hx hlt)
      · exact hv.trans (hbuf x hx hjn)
    · have hne : x ≠ .a j := by
        rintro rfl
        exact hx.2 (a_mem_locs.mpr ⟨hj, Nat.lt_succ_of_le hjn⟩)
      rw [hframe hx, heq ⟨hx.1, hne⟩]
  | case2 j hjn =>
    exact hk mem (fun x hx hxn => harr x hx (by omega)) hframe

/-- The parts that `do_msort` finds sorted are one sorted part when it returns. -/
theorem safe_msort {k : Code} (hn : n0 ≤ m) (hm : m ≤ n1)
    (hs : SortedOn (array base) n0 (m + 1)) (hs' : SortedOn (array base) (m + 1) (n1 + 1))
    (hO : locs n0 (n1 + 1) ⊆ O)
    (hk : ∀ mem', SortedOn (array mem') n0 (n1 + 1) →
      (part (array mem') n0 (n1 + 1)).Perm (part (array base) n0 (n1 + 1)) →
      Set.EqOn base mem' (O \ locs n0 (n1 + 1)) → Safe σ ρ p k none O mem') :
    Safe σ ρ p (mergeLoop m n1 n0 (m + 1) n0 fun i0 i1 j =>
      drainLoop m i0 j fun j => drainLoop n1 i1 j fun _ => copyLoop n1 n0 (.ret k))
      cur O base := by
  refine safe_mergeLoop hs hs' hO (merging_start hn hm) fun i0 i1 j mem h hdone => ?_
  refine safe_drainLeft hs hO h hdone fun i0 j mem h hi0 => ?_
  refine safe_drainRight hs' hO h hi0 fun i1 j mem h hi1 => ?_
  obtain ⟨hl, hr, hc, -, hsort, hperm, -, -, hframe⟩ := h
  obtain rfl : i0 = m + 1 := by omega
  obtain rfl : i1 = n1 + 1 := by omega
  obtain rfl : j = n1 + 1 := by omega
  rw [part_append (by omega) (by omega)] at hperm
  refine safe_copyLoop hO (Nat.le_refl n0) (fun x _ _ => rfl) (fun x hx hxn => by omega) hframe
    fun mem' harr hframe' => hk mem' ?_ ?_ hframe'
  · exact hsort.congr fun x hx hxn => (harr x hx (Nat.le_of_lt_succ hxn)).symm
  · rwa [part_congr fun x hx hxn => harr x hx (Nat.le_of_lt_succ hxn)]

end Msort

end ParaNut.Sw.MergeSort
