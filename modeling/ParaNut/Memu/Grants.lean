import ParaNut.Memu.Arbiter
import Mathlib.Data.List.Find

/-!
# What the arbiter grants

A grant is requested, a grant whose request stays up is kept, and grants that
exclude each other are never given together, provided the kept ones exclude
each other.
-/

namespace ParaNut.Memu.Arbiter

variable {c : Config} {r : Registers} {req : Lines} {ai : In} {n m : ℕ}

theorem exists_of_any_range {f : ℕ → Bool} {k : ℕ} :
    (List.range k).any f = true ↔ ∃ n < k, f n = true := by
  simp [List.any_eq_true]

theorem any_range_eq_false {f : ℕ → Bool} {k : ℕ} :
    (List.range k).any f = false ↔ ∀ n < k, f n = false := by
  simp [List.any_eq_false]

theorem mem_prioCpus_lt (h : n ∈ prioCpus c r) : n < c.cores := by
  simp only [prioCpus, List.mem_map] at h
  obtain ⟨m, -, rfl⟩ := h
  exact Nat.mod_lt _ c.cores_pos

-- ---------------------------------------------------------------------------
-- Line locks
-- ---------------------------------------------------------------------------

theorem keepLinelock_iff : keepLinelock r req n = true ↔
    r.gnt.linelock n = true ∧ req.linelock n = true := by simp [keepLinelock]

theorem gntLinelock_req (h : gntLinelock c r req ai n = true) : req.linelock n = true := by
  simp only [gntLinelock] at h
  split at h
  · subst n
    simp only [gntLinelockBusif, Bool.or_eq_true, Bool.and_eq_true] at h
    exact h.elim (fun h => (keepLinelock_iff.1 h).2) fun h => h.1
  · simp only [Bool.or_eq_true, Bool.and_eq_true, beq_iff_eq] at h
    rcases h with h | ⟨-, h⟩
    · exact (keepLinelock_iff.1 h).2
    · have := List.find?_some h
      simp only [Bool.and_eq_true] at this
      exact this.1

theorem gntLinelock_kept (hg : r.gnt.linelock n = true) (h : req.linelock n = true) :
    gntLinelock c r req ai n = true := by
  have hk : keepLinelock r req n = true := keepLinelock_iff.2 ⟨hg, h⟩
  simp only [gntLinelock]
  split
  · subst n; simp [gntLinelockBusif, hk]
  · simp [hk]

/-- Write ports always exclude each other. -/
theorem gntLinelock_unique
    (hu : ∀ m < c.wports, ∀ n < c.wports, keepLinelock r req m = true →
      keepLinelock r req n = true → m = n)
    (hm : m < c.wports) (hn : n < c.wports) (hgm : gntLinelock c r req ai m = true)
    (hgn : gntLinelock c r req ai n = true) : m = n := by
  simp only [gntLinelock, hm.ne, hn.ne, if_false, Bool.or_eq_true, Bool.and_eq_true,
    Bool.not_eq_true', any_range_eq_false, beq_iff_eq] at hgm hgn
  rcases hgm with hgm | ⟨hno, hgm⟩ <;> rcases hgn with hgn | ⟨hno', hgn⟩
  · exact hu m hm n hn hgm hgn
  · exact absurd hgm (by simp [hno' m hm])
  · exact absurd hgn (by simp [hno n hn])
  · exact Option.some_inj.1 (hgm.symm.trans hgn)

/-- A write port and the BusIf hold locks for different indices only. -/
theorem gntLinelock_index
    (hx : ∀ n < c.wports, keepLinelock r req n = true → keepLinelock r req c.wports = true →
      indexOf c (ai.adrWp n) ≠ ai.wiadrBusif.2)
    (hn : n < c.wports) (hgn : gntLinelock c r req ai n = true)
    (hb : gntLinelock c r req ai c.wports = true) :
    indexOf c (ai.adrWp n) ≠ ai.wiadrBusif.2 := by
  simp only [gntLinelock, if_true] at hb
  simp only [gntLinelock, hn.ne, if_false, Bool.or_eq_true, Bool.and_eq_true, beq_iff_eq] at hgn
  rcases hgn with hgn | ⟨-, hgn⟩
  · simp only [gntLinelockBusif, Bool.or_eq_true, Bool.and_eq_true, Bool.not_eq_true',
      any_range_eq_false] at hb
    rcases hb with hb | ⟨-, hb⟩
    · exact hx n hn hgn hb
    · simpa [hgn] using hb n hn
  · have := List.find?_some hgn
    simp only [hb, Bool.and_eq_true, Bool.not_true, Bool.false_or, bne_iff_ne] at this
    exact this.2

-- ---------------------------------------------------------------------------
-- Tags
-- ---------------------------------------------------------------------------

theorem keepTagr_iff : keepTagr r req n = true ↔ r.gnt.tagr n = true ∧ req.tagr n = true := by
  simp [keepTagr]

theorem keepTagw_iff : keepTagw r req n = true ↔ r.gnt.tagw n = true ∧ req.tagw n = true := by
  simp [keepTagw]

theorem gntTagr_req (h : gntTagr c r req n = true) : req.tagr n = true := by
  simp only [gntTagr, keepTagr, Bool.or_eq_true, Bool.and_eq_true] at h
  rcases h with h | ⟨⟨⟨-, h⟩, -⟩, -⟩
  · exact h.2
  · exact h

theorem gntTagr_kept (hg : r.gnt.tagr n = true) (h : req.tagr n = true) :
    gntTagr c r req n = true := by simp [gntTagr, keepTagr, hg, h]

theorem gntTagw_kept (hg : r.gnt.tagw n = true) (h : req.tagw n = true) :
    gntTagw c r req n = true := by simp [gntTagw, keepTagw, hg, h]

/-- While a writer waits, no reader is let in. -/
theorem keepTagr_of_gnt (hw : req.tagw m = true) (hm : m ≤ c.wports)
    (h : gntTagr c r req n = true) : keepTagr r req n = true := by
  simp only [gntTagr, Bool.or_eq_true, Bool.and_eq_true, Bool.not_eq_true',
    any_range_eq_false] at h
  rcases h with h | ⟨⟨⟨h, -⟩, -⟩, -⟩
  · exact h
  · simpa [hw] using h m (Nat.lt_succ_of_le hm)

theorem gntTagw_req (hn : n ≤ c.wports) (h : gntTagw c r req n = true) : req.tagw n = true := by
  simp only [gntTagw, keepTagw, Bool.or_eq_true, Bool.and_eq_true] at h
  rcases h with h | ⟨-, h⟩
  · exact h.2
  · split at h
    · simp only [beq_iff_eq] at h
      subst n; assumption
    · exact List.find?_some (beq_iff_eq.1 h)

/-- Readers and writers of tags exclude each other. -/
theorem gntTagr_gntTagw
    (hx : ∀ m ≤ idxBusif c, ∀ n ≤ c.wports, keepTagr r req m = true → keepTagw r req n = true →
      False)
    (hm : m ≤ idxBusif c) (hn : n ≤ c.wports) (hgm : gntTagr c r req m = true)
    (hgn : gntTagw c r req n = true) : False := by
  have hreq := gntTagw_req hn hgn
  simp only [gntTagw, Bool.or_eq_true, Bool.and_eq_true, Bool.not_eq_true',
    any_range_eq_false] at hgn
  rcases hgn with hgn | ⟨⟨hno, -⟩, -⟩
  · exact hx m hm n hn (keepTagr_of_gnt hreq hn hgm) hgn
  · simpa [hgm] using hno m (Nat.lt_succ_of_le hm)

/-- There is one writer of tags. -/
theorem gntTagw_unique
    (hu : ∀ m ≤ c.wports, ∀ n ≤ c.wports, keepTagw r req m = true → keepTagw r req n = true →
      m = n)
    (hm : m ≤ c.wports) (hn : n ≤ c.wports) (hgm : gntTagw c r req m = true)
    (hgn : gntTagw c r req n = true) : m = n := by
  simp only [gntTagw, Bool.or_eq_true, Bool.and_eq_true, Bool.not_eq_true',
    any_range_eq_false] at hgm hgn
  rcases hgm with hgm | ⟨⟨-, hno⟩, hgm⟩ <;> rcases hgn with hgn | ⟨⟨-, hno'⟩, hgn⟩
  · exact hu m hm n hn hgm hgn
  · exact absurd hgm (by simp [hno' m (Nat.lt_succ_of_le hm)])
  · exact absurd hgn (by simp [hno n (Nat.lt_succ_of_le hn)])
  · split at hgm
    · rename_i h
      rw [if_pos h] at hgn
      exact (beq_iff_eq.1 hgm).trans (beq_iff_eq.1 hgn).symm
    · rename_i h
      rw [if_neg h] at hgn
      exact Option.some_inj.1 ((beq_iff_eq.1 hgm).symm.trans (beq_iff_eq.1 hgn))

/-- A port is the data read, the instruction read or the write port of its CPU. -/
theorem port_cases (hn : n < idxBusif c) : n = n % c.cores ∨ n = n % c.cores + ipOff c ∨
    n = n % c.cores + wpOff c := by
  have hdm := Nat.div_add_mod n c.cores
  simp only [idxBusif, ipOff, wpOff, Config.rports, Config.wports] at hn ⊢
  have hdiv : n / c.cores < 3 := Nat.div_lt_of_lt_mul (by omega)
  generalize n / c.cores = q at hdm hdiv
  obtain rfl | rfl | rfl : q = 0 ∨ q = 1 ∨ q = 2 := by omega
  all_goals omega

theorem tagPortFree_of_keep (hn : n ≤ idxBusif c) (h : keepTagr r req n = true) :
    tagPortFree c r req (tagPort c n) = false := by
  rcases hn.eq_or_lt with rfl | hlt
  · simp [tagPortFree, tagPort, h]
  · rw [tagPort, if_neg hlt.ne]
    rcases port_cases hlt with hp | hp | hp <;> rw [hp] at h <;> simp [tagPortFree, h]

/-- Each tag port has one reader. -/
theorem gntTagr_unique
    (hu : ∀ m ≤ idxBusif c, ∀ n ≤ idxBusif c, keepTagr r req m = true → keepTagr r req n = true →
      tagPort c m = tagPort c n → m = n)
    (hm : m ≤ idxBusif c) (hn : n ≤ idxBusif c) (hgm : gntTagr c r req m = true)
    (hgn : gntTagr c r req n = true) (hp : tagPort c m = tagPort c n) : m = n := by
  simp only [gntTagr, Bool.or_eq_true, Bool.and_eq_true, beq_iff_eq] at hgm hgn
  rcases hgm with hgm | ⟨⟨-, hmf⟩, hgm⟩ <;> rcases hgn with hgn | ⟨⟨-, hnf⟩, hgn⟩
  · exact hu m hm n hn hgm hgn hp
  · rw [← hp, tagPortFree_of_keep hm hgm] at hnf; cases hnf
  · rw [hp, tagPortFree_of_keep hn hgn] at hmf; cases hmf
  · rw [← hgm, ← hgn, hp]

-- ---------------------------------------------------------------------------
-- Banks
-- ---------------------------------------------------------------------------

variable {b : ℕ}

theorem gntBank_req (h : gntBank c r req ai b n = true) : req.bank b n = true := by
  simp only [gntBank, preGntBank, keepBank, Bool.and_eq_true, Bool.or_eq_true] at h
  rcases h with ⟨h | h, -⟩
  · exact h.2
  · exact h.1.2

/-- A selected requester stays selected. -/
theorem selCpu_some {sel : SelPort} {p i : ℕ} (h : sel p = some n) :
    selCpu c req b sel i p = some n := by
  simp only [selCpu]
  split
  · rename_i hnone
    have hne : p ≠ ramPort c i := by
      rintro rfl
      simp [h] at hnone
    repeat' split
    all_goals simp [Function.update_of_ne hne, h]
  · exact h

theorem selBusif_some {p : ℕ} (h : selKept c r req b p = some n) :
    selBusif c r req b p = some n := by
  simp only [selBusif]
  split
  · rename_i hnone
    have hne : p ≠ c.bankRamPorts - 1 := by
      rintro rfl
      simp [h] at hnone
    rw [Function.update_of_ne hne, h]
  · exact h

theorem selPort_of_kept {p : ℕ} (h : selKept c r req b p = some n) :
    selPort c r req b p = some n := by
  have hfold : ∀ (l : List ℕ) (sel : SelPort), sel p = some n →
      l.foldl (selCpu c req b) sel p = some n := by
    intro l
    induction l with
    | nil => exact fun _ h => h
    | cons i l ih => exact fun sel h => ih _ (selCpu_some h)
  exact hfold _ _ (selBusif_some h)

/-- A RAM port with a grant has been given to a requester. -/
theorem selPort_isSome (hn : n ≤ idxBusif c) (h : gntBank c r req ai b n = true) :
    (selPort c r req b (ramPort c n)).isSome := by
  simp only [gntBank, preGntBank, Bool.and_eq_true, Bool.or_eq_true] at h
  rcases h with ⟨hkeep | ⟨⟨hsome, -⟩, -⟩, -⟩
  · have hkept : (selKept c r req b (ramPort c n)).isSome := by
      rw [selKept, List.find?_isSome]
      exact ⟨n, by simpa using Nat.lt_succ_of_le hn, by simp [hkeep]⟩
    obtain ⟨m, hm⟩ := Option.isSome_iff_exists.1 hkept
    rw [selPort_of_kept hm]
    rfl
  · exact hsome

/-- A RAM port is at the address of every requester that is granted it, provided those that keep
it share their address. -/
theorem wiadr_of_gntBank
    (hshared : ∀ m ≤ idxBusif c, ∀ n ≤ idxBusif c, keepBank r req b m = true →
      keepBank r req b n = true → ramPort c m = ramPort c n → wiadr c ai m = wiadr c ai n)
    (hn : n ≤ idxBusif c) (h : gntBank c r req ai b n = true) :
    selWiadr c r req ai b (ramPort c n) = wiadr c ai n := by
  simp only [gntBank, preGntBank, Bool.and_eq_true, Bool.or_eq_true, beq_iff_eq] at h
  rcases h with ⟨hkeep | ⟨-, hadr⟩, -⟩
  · have hsome : (selKept c r req b (ramPort c n)).isSome := by
      rw [selKept, List.find?_isSome]
      exact ⟨n, by simpa using Nat.lt_succ_of_le hn, by simp [hkeep]⟩
    obtain ⟨m, hm⟩ := Option.isSome_iff_exists.1 hsome
    have hmem := List.mem_of_find?_eq_some hm
    have hkm := List.find?_some hm
    simp only [Bool.and_eq_true, beq_iff_eq, List.mem_reverse, List.mem_range] at hmem hkm
    have hmn := hshared m (Nat.le_of_lt_succ hmem) n hn hkm.1 hkeep hkm.2
    simp [selWiadr, selPort_of_kept hm, hmn]
  · exact hadr.symm

/-- A requester that a RAM port may be given to. -/
structure Requests (c : Config) (req : Lines) (b p n : ℕ) : Prop where
  le : n ≤ idxBusif c
  req : req.bank b n = true
  ramPort : ramPort c n = p

theorem ramPort_cpu {i : ℕ} (hi : i < c.cores) :
    ramPort c i = i % c.bankRamPorts ∧ ramPort c (i + ipOff c) = ramPort c i ∧
      ramPort c (i + wpOff c) = ramPort c i := by
  have h0 : i ≠ idxBusif c := by simp only [idxBusif, Config.rports, Config.wports]; omega
  have h1 : i + ipOff c ≠ idxBusif c := by
    simp only [idxBusif, ipOff, Config.rports, Config.wports]; omega
  have h2 : i + wpOff c ≠ idxBusif c := by
    simp only [idxBusif, wpOff, Config.wports]; omega
  refine ⟨?_, ?_, ?_⟩
  · rw [ramPort, if_neg h0, Nat.mod_eq_of_lt hi]
  · rw [ramPort, if_neg h1, ramPort, if_neg h0, ipOff, Config.wports, Nat.add_mod_right]
  · rw [ramPort, if_neg h2, ramPort, if_neg h0, wpOff, Config.rports,
      Nat.add_mul_mod_self_right]

theorem requests_of_selCpu {sel : SelPort} {i p : ℕ} (hi : i < c.cores)
    (hsel : ∀ p n, sel p = some n → Requests c req b p n)
    (h : selCpu c req b sel i p = some n) : Requests c req b p n := by
  obtain ⟨-, hip, hwp⟩ := ramPort_cpu hi
  have hcases : ∀ k, k ≤ idxBusif c → req.bank b k = true → ramPort c k = ramPort c i →
      Function.update sel (ramPort c i) (some k) p = some n → Requests c req b p n := by
    intro k hk hreq hport hupd
    rcases eq_or_ne p (ramPort c i) with rfl | hp
    · rw [Function.update_self] at hupd
      obtain rfl := Option.some.inj hupd
      exact ⟨hk, hreq, hport⟩
    · rw [Function.update_of_ne hp] at hupd
      exact hsel p n hupd
  have hbound : i + wpOff c ≤ idxBusif c := by
    simp only [idxBusif, wpOff, Config.wports]
    omega
  have hle : ipOff c ≤ wpOff c := by
    simp only [ipOff, wpOff, Config.rports, Config.wports]
    omega
  unfold selCpu at h
  split at h
  · split at h
    · exact hcases i (by omega) ‹_› rfl h
    · split at h
      · exact hcases _ (by omega) ‹_› hip h
      · split at h
        · exact hcases _ hbound ‹_› hwp h
        · exact hsel p n h
  · exact hsel p n h

/-- Only requesters are selected. -/
theorem requests_of_selPort {p : ℕ} (h : selPort c r req b p = some n) : Requests c req b p n := by
  have hkept : ∀ p n, selKept c r req b p = some n → Requests c req b p n := by
    intro p n h
    have hmem := List.mem_of_find?_eq_some h
    have hk := List.find?_some h
    simp only [keepBank, Bool.and_eq_true, beq_iff_eq, List.mem_reverse, List.mem_range] at hmem hk
    exact ⟨Nat.le_of_lt_succ hmem, hk.1.2, hk.2⟩
  have hbusif : ∀ p n, selBusif c r req b p = some n → Requests c req b p n := by
    intro p n h
    unfold selBusif at h
    split at h
    · rename_i hreq
      rw [Bool.and_eq_true] at hreq
      rcases eq_or_ne p (c.bankRamPorts - 1) with rfl | hp
      · rw [Function.update_self] at h
        obtain rfl := Option.some.inj h
        exact ⟨Nat.le_refl _, hreq.1, if_pos rfl⟩
      · rw [Function.update_of_ne hp] at h
        exact hkept p n h
    · exact hkept p n h
  have hfold : ∀ (l : List ℕ) (sel : SelPort), (∀ k ∈ l, k < c.cores) →
      (∀ p n, sel p = some n → Requests c req b p n) →
      ∀ p n, l.foldl (selCpu c req b) sel p = some n → Requests c req b p n := by
    intro l
    induction l with
    | nil => exact fun _ _ h => h
    | cons k l ih =>
      intro sel hl hsel
      exact ih _ (fun k hk => hl k (List.mem_cons_of_mem _ hk)) fun p n hp =>
        requests_of_selCpu (hl k List.mem_cons_self) hsel hp
  exact hfold _ _ (fun k hk => mem_prioCpus_lt hk) hbusif p n h

theorem selPort_le {p : ℕ} (h : selPort c r req b p = some n) : n ≤ idxBusif c :=
  (requests_of_selPort h).le

/-- Write ports and the BusIf share no RAM port of a bank. -/
theorem gntBank_writer (hm : wpOff c ≤ m) (hn : wpOff c ≤ n)
    (hgm : gntBank c r req ai b m = true) (hgn : gntBank c r req ai b n = true)
    (hp : ramPort c m = ramPort c n) : m = n := by
  simp only [gntBank, Bool.and_eq_true, Bool.or_eq_true, decide_eq_true_eq, hm.not_gt,
    hn.not_gt, false_or, beq_iff_eq] at hgm hgn
  have := hgm.2
  rw [hp, hgn.2] at this
  exact (Option.some_inj.1 this).symm

-- ---------------------------------------------------------------------------
-- The BusIf
-- ---------------------------------------------------------------------------

theorem keepBusif_iff : keepBusif r req n = true ↔
    r.gnt.busif n = true ∧ req.busif n = true := by simp [keepBusif]

theorem gntBusif_kept (hg : r.gnt.busif n = true) (h : req.busif n = true) :
    gntBusif c r req n = true := by simp [gntBusif, keepBusif, hg, h]

theorem busifPrio_some {i : ℕ} (h : busifPrio c req i = some n) : req.busif n = true := by
  simp only [busifPrio] at h
  repeat' split at h
  all_goals first | (cases h; assumption) | cases h

theorem gntBusif_req (h : gntBusif c r req n = true) : req.busif n = true := by
  simp only [gntBusif, keepBusif, Bool.or_eq_true, Bool.and_eq_true, beq_iff_eq] at h
  rcases h with h | ⟨-, h⟩
  · exact h.2
  · obtain ⟨i, -, hi⟩ := List.exists_of_findSome?_eq_some h
    exact busifPrio_some hi

theorem gntBusif_unique
    (hu : ∀ m < idxBusif c, ∀ n < idxBusif c, keepBusif r req m = true →
      keepBusif r req n = true → m = n)
    (hm : m < idxBusif c) (hn : n < idxBusif c) (hgm : gntBusif c r req m = true)
    (hgn : gntBusif c r req n = true) : m = n := by
  simp only [gntBusif, Bool.or_eq_true, Bool.and_eq_true, Bool.not_eq_true',
    any_range_eq_false, beq_iff_eq] at hgm hgn
  rcases hgm with hgm | ⟨hno, hgm⟩ <;> rcases hgn with hgn | ⟨hno', hgn⟩
  · exact hu m hm n hn hgm hgn
  · exact absurd hgm (by simp [hno' m hm])
  · exact absurd hgn (by simp [hno n hn])
  · exact Option.some_inj.1 (hgm.symm.trans hgn)

-- ---------------------------------------------------------------------------
-- Exclusion
-- ---------------------------------------------------------------------------

/-- Lines of which no two that exclude each other are up. -/
structure Exclusive (c : Config) (g : Lines) (indexWp : ℕ → ℕ) (indexBusif : ℕ) : Prop where
  linelock : ∀ m < c.wports, ∀ n < c.wports, g.linelock m = true → g.linelock n = true → m = n
  index : ∀ n < c.wports, g.linelock n = true → g.linelock c.wports = true →
    indexWp n ≠ indexBusif
  tagr : ∀ m ≤ idxBusif c, ∀ n ≤ idxBusif c, g.tagr m = true → g.tagr n = true →
    tagPort c m = tagPort c n → m = n
  tagrw : ∀ m ≤ idxBusif c, ∀ n ≤ c.wports, g.tagr m = true → g.tagw n = true → False
  tagw : ∀ m ≤ c.wports, ∀ n ≤ c.wports, g.tagw m = true → g.tagw n = true → m = n
  busif : ∀ m < idxBusif c, ∀ n < idxBusif c, g.busif m = true → g.busif n = true → m = n

/-- The indices matter only while both locks are held. -/
theorem Exclusive.congr {g : Lines} {indexWp indexWp' : ℕ → ℕ} {indexBusif indexBusif' : ℕ}
    (h : Exclusive c g indexWp indexBusif)
    (hx : ∀ n < c.wports, g.linelock n = true → g.linelock c.wports = true →
      indexWp' n = indexWp n ∧ indexBusif' = indexBusif) :
    Exclusive c g indexWp' indexBusif' :=
  { h with
    index := fun n hn hgn hgb => by
      obtain ⟨hwp, hb⟩ := hx n hn hgn hgb
      rw [hwp, hb]
      exact h.index n hn hgn hgb }

/-- The exclusions hold of the grants of a cycle if they hold of the ones kept so far, with the
indices of this cycle where both locks are kept. -/
theorem exclusive_gnt_of_kept {indexWp : ℕ → ℕ} {indexBusif : ℕ}
    (h : Exclusive c r.gnt indexWp indexBusif)
    (hindex : ∀ n < c.wports, keepLinelock r req n = true → keepLinelock r req c.wports = true →
      indexOf c (ai.adrWp n) ≠ ai.wiadrBusif.2) :
    Exclusive c (gnt c r req ai) (fun p => indexOf c (ai.adrWp p)) ai.wiadrBusif.2 where
  linelock _ hm _ hn :=
    gntLinelock_unique (fun _ hm _ hn hkm hkn =>
      h.linelock _ hm _ hn (keepLinelock_iff.1 hkm).1 (keepLinelock_iff.1 hkn).1) hm hn
  index _ hn := gntLinelock_index hindex hn
  tagr _ hm _ hn :=
    gntTagr_unique (fun _ hm _ hn hkm hkn =>
      h.tagr _ hm _ hn (keepTagr_iff.1 hkm).1 (keepTagr_iff.1 hkn).1) hm hn
  tagrw _ hm _ hn :=
    gntTagr_gntTagw (fun _ hm _ hn hkm hkn =>
      h.tagrw _ hm _ hn (keepTagr_iff.1 hkm).1 (keepTagw_iff.1 hkn).1) hm hn
  tagw _ hm _ hn :=
    gntTagw_unique (fun _ hm _ hn hkm hkn =>
      h.tagw _ hm _ hn (keepTagw_iff.1 hkm).1 (keepTagw_iff.1 hkn).1) hm hn
  busif _ hm _ hn :=
    gntBusif_unique (fun _ hm _ hn hkm hkn =>
      h.busif _ hm _ hn (keepBusif_iff.1 hkm).1 (keepBusif_iff.1 hkn).1) hm hn

theorem exclusive_gnt (h : Exclusive c r.gnt (fun p => indexOf c (ai.adrWp p)) ai.wiadrBusif.2) :
    Exclusive c (gnt c r req ai) (fun p => indexOf c (ai.adrWp p)) ai.wiadrBusif.2 :=
  exclusive_gnt_of_kept h fun n hn hkn hkb =>
    h.index n hn (keepLinelock_iff.1 hkn).1 (keepLinelock_iff.1 hkb).1

-- ---------------------------------------------------------------------------
-- The places in use
-- ---------------------------------------------------------------------------

/-- The same lines at the places that the requesters have. -/
structure Agree (c : Config) (g g' : Lines) : Prop where
  linelock : ∀ n ≤ c.wports, g.linelock n = g'.linelock n
  tagr : ∀ n ≤ idxBusif c, g.tagr n = g'.tagr n
  tagw : ∀ n ≤ c.wports, g.tagw n = g'.tagw n
  bank : ∀ b, ∀ n ≤ idxBusif c, g.bank b n = g'.bank b n
  busif : ∀ n < idxBusif c, g.busif n = g'.busif n

theorem any_range_congr {f g : ℕ → Bool} {k : ℕ} (h : ∀ n < k, f n = g n) :
    (List.range k).any f = (List.range k).any g := by
  rw [Bool.eq_iff_iff, exists_of_any_range, exists_of_any_range]
  constructor
  · rintro ⟨n, hn, hf⟩
    exact ⟨n, hn, h n hn ▸ hf⟩
  · rintro ⟨n, hn, hg⟩
    exact ⟨n, hn, (h n hn).symm ▸ hg⟩

section Agree

variable {r' : Registers}

theorem Agree.gntLinelock (h : Agree c r.gnt r'.gnt) (hp : prioCpus c r = prioCpus c r')
    (hn : n ≤ c.wports) : gntLinelock c r req ai n = gntLinelock c r' req ai n := by
  have hkeep : ∀ n ≤ c.wports, keepLinelock r req n = keepLinelock r' req n := fun n hn => by
    rw [keepLinelock, keepLinelock, h.linelock n hn]
  have hany := any_range_congr fun n (hn : n < c.wports) => hkeep n (Nat.le_of_lt hn)
  have hbusif : gntLinelockBusif c r req ai = gntLinelockBusif c r' req ai := by
    unfold gntLinelockBusif
    rw [hkeep _ (Nat.le_refl _), any_range_congr fun n (hn : n < c.wports) => by
      rw [hkeep n (Nat.le_of_lt hn)]]
  unfold Arbiter.gntLinelock
  rw [hbusif, hany, hp, hkeep n hn]

theorem Agree.tagPortFree (h : Agree c r.gnt r'.gnt) (hn : n < c.cores) :
    tagPortFree c r req n = tagPortFree c r' req n := by
  have hkeep : ∀ n ≤ idxBusif c, keepTagr r req n = keepTagr r' req n := fun n hn => by
    rw [keepTagr, keepTagr, h.tagr n hn]
  have hidx : idxBusif c = 3 * c.cores := by
    simp only [idxBusif, Config.rports, Config.wports]
    omega
  have hip : ipOff c = c.cores := rfl
  have hwp : wpOff c = 2 * c.cores := rfl
  unfold Arbiter.tagPortFree
  rw [hkeep n (by omega), hkeep (n + ipOff c) (by omega), hkeep (n + wpOff c) (by omega),
    hkeep _ (Nat.le_refl _)]

theorem tagPort_lt : tagPort c n < c.cores := by
  have hpos := c.cores_pos
  unfold tagPort
  split
  · exact Nat.sub_lt hpos Nat.one_pos
  · exact Nat.mod_lt _ hpos

theorem Agree.gntTagr (h : Agree c r.gnt r'.gnt) (hn : n ≤ idxBusif c) :
    gntTagr c r req n = gntTagr c r' req n := by
  unfold Arbiter.gntTagr
  rw [h.tagPortFree tagPort_lt, keepTagr, keepTagr, h.tagr n hn]

theorem Agree.gntTagw (h : Agree c r.gnt r'.gnt) (hp : prioCpus c r = prioCpus c r')
    (hn : n ≤ c.wports) : gntTagw c r req n = gntTagw c r' req n := by
  have hkeep : ∀ n ≤ c.wports, keepTagw r req n = keepTagw r' req n := fun n hn => by
    rw [keepTagw, keepTagw, h.tagw n hn]
  unfold Arbiter.gntTagw
  rw [hkeep n hn, hp, any_range_congr fun n hn => hkeep n (Nat.le_of_lt_succ hn),
    any_range_congr fun n hn => h.gntTagr (Nat.le_of_lt_succ hn)]

theorem Agree.keepBank (h : Agree c r.gnt r'.gnt) (hn : n ≤ idxBusif c) :
    keepBank r req b n = keepBank r' req b n := by
  rw [Arbiter.keepBank, Arbiter.keepBank, h.bank b n hn]

theorem Agree.selPort (h : Agree c r.gnt r'.gnt) (hp : prioCpus c r = prioCpus c r') :
    selPort c r req b = selPort c r' req b := by
  have hkept : selKept c r req b = selKept c r' req b := by
    funext p
    refine List.find?_congr fun n hn => ?_
    rw [h.keepBank (Nat.le_of_lt_succ (List.mem_range.mp (List.mem_reverse.mp hn)))]
  rw [Arbiter.selPort, Arbiter.selPort, hp, selBusif, selBusif, hkept]

theorem Agree.selWiadr (h : Agree c r.gnt r'.gnt) (hp : prioCpus c r = prioCpus c r') :
    selWiadr c r req ai b = selWiadr c r' req ai b := by
  funext p
  rw [Arbiter.selWiadr, Arbiter.selWiadr, h.selPort hp]

theorem Agree.gntBank (h : Agree c r.gnt r'.gnt) (hp : prioCpus c r = prioCpus c r')
    (hn : n ≤ idxBusif c) : gntBank c r req ai b n = gntBank c r' req ai b n := by
  have hpre : ∀ n ≤ idxBusif c, preGntBank c r req ai b n = preGntBank c r' req ai b n := by
    intro n hn
    rw [preGntBank, preGntBank, h.keepBank hn, h.selPort hp, h.selWiadr hp]
  have hwriters : selWriters c r req ai b = selWriters c r' req ai b := by
    rw [selWriters, selWriters, hp, h.selPort hp]
    refine List.foldl_ext _ _ _ fun sel i hi => ?_
    have hlt := mem_prioCpus_lt hi
    rw [selWriter, selWriter, hpre _ (by simp only [idxBusif, wpOff, Config.wports]; omega)]
  unfold Arbiter.gntBank
  rw [hpre n hn, hwriters]

theorem Agree.gntBusif (h : Agree c r.gnt r'.gnt) (hp : prioCpus c r = prioCpus c r')
    (hn : n < idxBusif c) : gntBusif c r req n = gntBusif c r' req n := by
  have hkeep : ∀ n < idxBusif c, keepBusif r req n = keepBusif r' req n := fun n hn => by
    rw [keepBusif, keepBusif, h.busif n hn]
  unfold Arbiter.gntBusif
  rw [hkeep n hn, any_range_congr hkeep, hp]

/-- What is at other places has no influence. -/
theorem Agree.gnt (h : Agree c r.gnt r'.gnt) (hp : prioCpus c r = prioCpus c r') :
    Agree c (gnt c r req ai) (gnt c r' req ai) where
  linelock _ := h.gntLinelock hp
  tagr _ := h.gntTagr
  tagw _ := h.gntTagw hp
  bank _ _ := h.gntBank hp
  busif _ := h.gntBusif hp

end Agree

end ParaNut.Memu.Arbiter
