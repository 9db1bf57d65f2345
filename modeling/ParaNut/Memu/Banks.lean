import ParaNut.Lib.Ram
import ParaNut.Memu.Discipline

/-!
# The bank RAMs

A write port, or the BusIf, that is granted a bank is at its own address there:
no other writer shares the RAM port, and of the grants that are kept that of a
writer counts.
-/

namespace ParaNut.Memu

namespace Arbiter

variable {c : Config} {r : Registers} {req : Lines} {ai : In} {b n : ℕ}

/-- No RAM port of a bank is granted to two of the write ports and the BusIf. -/
def OneWriter (c : Config) (g : Lines) : Prop :=
  ∀ b, ∀ m ≤ idxBusif c, ∀ n ≤ idxBusif c, wpOff c ≤ m → wpOff c ≤ n → g.bank b m = true →
    g.bank b n = true → ramPort c m = ramPort c n → m = n

theorem oneWriter_gnt : OneWriter c (gnt c r req ai) :=
  fun _ _ _ _ _ hm hn hgm hgn hp => gntBank_writer hm hn hgm hgn hp

theorem le_of_find?_reverse_range {f : ℕ → Bool} {k m n : ℕ}
    (h : (List.range k).reverse.find? f = some m) (hn : n < k) (hf : f n = true) : n ≤ m := by
  induction k with
  | zero => exact absurd hn (Nat.not_lt_zero n)
  | succ k ih =>
    rw [List.range_succ, List.reverse_append, List.reverse_singleton, List.singleton_append,
      List.find?_cons] at h
    split at h
    · cases h
      exact Nat.le_of_lt_succ hn
    · rename_i hno
      rcases Nat.lt_succ_iff_lt_or_eq.mp hn with hlt | rfl
      · exact ih h hlt
      · rw [hf] at hno
        cases hno

/-- The RAM port of a writer whose grant is kept stays with it. -/
theorem selKept_writer (h : OneWriter c r.gnt) (hn : n ≤ idxBusif c) (hw : wpOff c ≤ n)
    (hk : keepBank r req b n = true) : selKept c r req b (ramPort c n) = some n := by
  have hpred : (keepBank r req b n && ramPort c n == ramPort c n) = true := by
    rw [hk, beq_self_eq_true, Bool.and_self]
  cases hs : selKept c r req b (ramPort c n) with
  | none =>
    rw [selKept, List.find?_eq_none] at hs
    exact absurd hpred (hs n (by simpa using Nat.lt_succ_of_le hn))
  | some m =>
    have hle : n ≤ m := le_of_find?_reverse_range hs (Nat.lt_succ_of_le hn) hpred
    have hmem := List.mem_of_find?_eq_some hs
    rw [List.mem_reverse, List.mem_range] at hmem
    have hm := List.find?_some hs
    rw [Bool.and_eq_true, beq_iff_eq] at hm
    rw [keepBank, Bool.and_eq_true] at hk
    have hkm := hm.1
    rw [keepBank, Bool.and_eq_true] at hkm
    rw [h b m (Nat.le_of_lt_succ hmem) n hn (hw.trans hle) hw hkm.1 hk.1 hm.2]

/-- A writer is at its own address. -/
theorem selWiadr_writer (h : OneWriter c r.gnt) (hn : n ≤ idxBusif c) (hw : wpOff c ≤ n)
    (hg : gntBank c r req ai b n = true) :
    selWiadr c r req ai b (ramPort c n) = wiadr c ai n := by
  simp only [gntBank, preGntBank, Bool.and_eq_true, Bool.or_eq_true, beq_iff_eq] at hg
  rcases hg.1 with hk | ⟨-, heq⟩
  · rw [selWiadr, selPort_of_kept (selKept_writer h hn hw hk)]
  · exact heq.symm

end Arbiter

-- ---------------------------------------------------------------------------
-- One cycle of a bank
-- ---------------------------------------------------------------------------

section Rows

variable (c : Config) (s : State) (i : Input)

/-- The row of its bank a write port is at. -/
def wpRow (p : ℕ) : ℕ × ℕ :=
  wayIndexOf c (i.wpi p).portAdr (wpOut c s i (grants c s i) p).tagOut.way

/-- The row the BusIf is at. -/
def bifRow : ℕ × ℕ := wayIndexOf c s.busif.adr (bifo c s (grants c s i)).tagOut.way

/-- A write port that is granted bank `b` writes there. -/
structure WpWrites (b p : ℕ) : Prop where
  lt : p < c.wports
  granted : (grants c s i).bank b (p + wpOff c) = true
  wr : (wpOut c s i (grants c s i) p).bankWr = true

structure BifWrites (b : ℕ) : Prop where
  granted : (grants c s i).bank b (idxBusif c) = true
  wr : (bifo c s (grants c s i)).bankWr b = true

end Rows

variable {c : Config} {s : State} {i : Input} {b p q : ℕ} {x : ℕ × ℕ}

theorem bank_eq : (grants c s i).bank = Arbiter.gntBank c s.arb
    (requests c s i (grants c s i)) (arbIn c s i (grants c s i)) :=
  congrArg Lines.bank grants_eq

theorem oneWriter_grants : Arbiter.OneWriter c (grants c s i) := by
  rw [grants_eq]
  exact Arbiter.oneWriter_gnt

theorem oneWriter_step : Arbiter.OneWriter c (step c s i).arb.gnt := by
  rw [arb_step]
  exact oneWriter_grants

theorem IsReset.oneWriter (h : IsReset c s) : Arbiter.OneWriter c s.arb.gnt := by
  intro b m _ n _ _ _ hg
  rw [h.gnt] at hg
  cases hg

theorem ramPort_wp (hp : p < c.wports) :
    Arbiter.ramPort c (p + wpOff c) = p % c.bankRamPorts := by
  obtain ⟨hport, -, hwp⟩ := Arbiter.ramPort_cpu (c := c) (i := p) hp
  rw [hwp, hport]

theorem ramPort_busif : Arbiter.ramPort c (idxBusif c) = c.bankRamPorts - 1 := if_pos rfl

theorem bankWiadr_wp (h : Arbiter.OneWriter c s.arb.gnt) (hp : p < c.wports)
    (hg : (grants c s i).bank b (p + wpOff c) = true) :
    bankWiadr c s i (grants c s i) b (p % c.bankRamPorts) = wpRow c s i p := by
  rw [bank_eq] at hg
  have hle := Nat.le_of_lt (wp_lt_idx hp)
  rw [bankWiadr, ← ramPort_wp hp, Arbiter.selWiadr_writer h hle (Nat.le_add_left _ _) hg,
    Arbiter.wiadr, if_neg (Nat.ne_of_lt (wp_lt_idx hp)), if_pos (Nat.le_add_left _ _),
    Nat.add_sub_cancel]
  rfl

theorem bankWiadr_busif (h : Arbiter.OneWriter c s.arb.gnt)
    (hg : (grants c s i).bank b (idxBusif c) = true) :
    bankWiadr c s i (grants c s i) b (c.bankRamPorts - 1) = bifRow c s i := by
  rw [bank_eq] at hg
  have hw : wpOff c ≤ idxBusif c := Nat.le_add_right _ _
  rw [bankWiadr, ← ramPort_busif, Arbiter.selWiadr_writer h (Nat.le_refl _) hw hg,
    Arbiter.wiadr, if_pos rfl]
  rfl

/-- The writer of a RAM port is the one that is granted it. -/
theorem writer_unique (hp : p < c.wports) (hg : (grants c s i).bank b (p + wpOff c) = true) :
    bankBusif c (grants c s i) b (p % c.bankRamPorts) = false ∧
      bankWriter c (grants c s i) b (p % c.bankRamPorts) = some p := by
  have hle := Nat.le_of_lt (wp_lt_idx hp)
  constructor
  · by_contra hb
    rw [Bool.not_eq_false, bankBusif, Bool.and_eq_true, beq_iff_eq] at hb
    have heq := oneWriter_grants b _ hle _ (Nat.le_refl _) (Nat.le_add_left _ _)
      (Nat.le_add_right _ _) hg hb.2 (by rw [ramPort_wp hp, ramPort_busif, hb.1])
    exact Nat.ne_of_lt (wp_lt_idx hp) heq
  · cases hw : bankWriter c (grants c s i) b (p % c.bankRamPorts) with
    | none =>
      rw [bankWriter, List.find?_eq_none] at hw
      refine absurd ?_ (hw p (List.mem_reverse.mpr (List.mem_range.mpr hp)))
      rw [beq_self_eq_true, hg, Bool.and_self]
    | some m =>
      have hmem := List.mem_of_find?_eq_some hw
      rw [List.mem_reverse, List.mem_range] at hmem
      have hm := List.find?_some hw
      rw [Bool.and_eq_true, beq_iff_eq] at hm
      have heq := oneWriter_grants b _ (Nat.le_of_lt (wp_lt_idx (p := m) hmem)) _ hle
        (Nat.le_add_left _ _) (Nat.le_add_left _ _) hm.2 hg
        (by rw [ramPort_wp (p := m) hmem, ramPort_wp hp, hm.1])
      rw [Nat.add_right_cancel heq]

/-- A RAM port is written by a write port or by the BusIf, at its row. -/
theorem bankWr_cases (h : Arbiter.OneWriter c s.arb.gnt)
    (hw : bankWr c s i (grants c s i) b q = true) :
    (∃ p, WpWrites c s i b p ∧ q = p % c.bankRamPorts ∧
      bankWiadr c s i (grants c s i) b q = wpRow c s i p) ∨
    BifWrites c s i b ∧ q = c.bankRamPorts - 1 ∧
      bankWiadr c s i (grants c s i) b q = bifRow c s i := by
  rw [bankWr, Bool.or_eq_true, Bool.and_eq_true, Arbiter.exists_of_any_range] at hw
  rcases hw with ⟨p, hp, hw⟩ | ⟨hbif, hw⟩
  · rw [Bool.and_eq_true, Bool.and_eq_true, beq_iff_eq] at hw
    obtain ⟨⟨hport, hg⟩, hwr⟩ := hw
    refine .inl ⟨p, ⟨hp, hg, hwr⟩, hport.symm, ?_⟩
    rw [← hport]
    exact bankWiadr_wp h hp hg
  · rw [bankBusif, Bool.and_eq_true, beq_iff_eq] at hbif
    refine .inr ⟨⟨hbif.2, hw⟩, hbif.1, ?_⟩
    rw [hbif.1]
    exact bankWiadr_busif h hbif.2

/-- Nobody writes to row `x` of bank `b`. -/
def NoWrite (c : Config) (s : State) (i : Input) (b : ℕ) (x : ℕ × ℕ) : Prop :=
  (∀ p, WpWrites c s i b p → wpRow c s i p ≠ x) ∧ (BifWrites c s i b → bifRow c s i ≠ x)

/-- The ports of a bank RAM in one cycle, in the order they are served. -/
def bankPorts (c : Config) (s : State) (i : Input) (b : ℕ) : Lib.Ram.Ports ℕ (ℕ × ℕ) TWord :=
  ⟨bankWr c s i (grants c s i) b, bankWiadr c s i (grants c s i) b,
    bankWdata c s i (grants c s i) b⟩

def portOrder (c : Config) (i : Input) : List ℕ :=
  if i.portsReversed then (List.range c.bankRamPorts).reverse else List.range c.bankRamPorts

theorem bank_step : (step c s i).bank b =
    (Lib.Ram.cycle (bankPorts c s i b) (portOrder c i) (s.bank b, s.rdata b)).1 := rfl

theorem rdata_step : (step c s i).rdata b =
    (Lib.Ram.cycle (bankPorts c s i b) (portOrder c i) (s.bank b, s.rdata b)).2 := rfl

theorem mem_portOrder : q ∈ portOrder c i ↔ q < c.bankRamPorts := by
  unfold portOrder
  split <;> simp

theorem nodup_portOrder : (portOrder c i).Nodup := by
  unfold portOrder
  split
  · exact List.nodup_reverse.mpr List.nodup_range
  · exact List.nodup_range

theorem wp_port_lt : p % c.bankRamPorts < c.bankRamPorts :=
  Nat.mod_lt _ c.bankRamPorts_range.1

theorem busif_port_lt : c.bankRamPorts - 1 < c.bankRamPorts :=
  Nat.sub_lt c.bankRamPorts_range.1 Nat.one_pos

theorem bank_kept (h : Arbiter.OneWriter c s.arb.gnt) (hno : NoWrite c s i b x) :
    (step c s i).bank b x = s.bank b x := by
  rw [bank_step, Lib.Ram.cycle_kept fun q _ hw hadr => ?_]
  rcases bankWr_cases h hw with ⟨p, hp, -, hp'⟩ | ⟨hb, -, hb'⟩
  · exact hno.1 p hp (hp'.symm.trans hadr)
  · exact hno.2 hb (hb'.symm.trans hadr)

/-- What the BusIf reads arrives in the next cycle. -/
theorem rdata_busif (h : Arbiter.OneWriter c s.arb.gnt)
    (hg : (grants c s i).bank b (idxBusif c) = true) (hno : NoWrite c s i b (bifRow c s i)) :
    (step c s i).rdata b (c.bankRamPorts - 1) = s.bank b (bifRow c s i) := by
  have hrow : (bankPorts c s i b).adr (c.bankRamPorts - 1) = bifRow c s i := bankWiadr_busif h hg
  rw [rdata_step, Lib.Ram.cycle_read (mem_portOrder.mpr busif_port_lt) nodup_portOrder, hrow]
  intro q _ _ hw hadr
  rw [hrow] at hadr
  rcases bankWr_cases h hw with ⟨p, hp, -, hp'⟩ | ⟨hb, -, hb'⟩
  · exact hno.1 p hp (hp'.symm.trans hadr)
  · exact hno.2 hb (hb'.symm.trans hadr)

theorem rdata_wp (h : Arbiter.OneWriter c s.arb.gnt) (hp : p < c.wports)
    (hg : (grants c s i).bank b (p + wpOff c) = true) (hno : NoWrite c s i b (wpRow c s i p)) :
    (step c s i).rdata b (p % c.bankRamPorts) = s.bank b (wpRow c s i p) := by
  have hrow : (bankPorts c s i b).adr (p % c.bankRamPorts) = wpRow c s i p :=
    bankWiadr_wp h hp hg
  rw [rdata_step, Lib.Ram.cycle_read (mem_portOrder.mpr wp_port_lt) nodup_portOrder, hrow]
  intro q _ _ hw hadr
  rw [hrow] at hadr
  rcases bankWr_cases h hw with ⟨q, hq, -, hq'⟩ | ⟨hb, -, hb'⟩
  · exact hno.1 q hq (hq'.symm.trans hadr)
  · exact hno.2 hb (hb'.symm.trans hadr)

/-- The BusIf writes its data, if no write port is at the same row. -/
theorem bank_busif (h : Arbiter.OneWriter c s.arb.gnt) (hb : BifWrites c s i b)
    (hno : ∀ p, WpWrites c s i b p → wpRow c s i p ≠ bifRow c s i) :
    (step c s i).bank b (bifRow c s i) = s.busif.idata b := by
  have hbif : bankBusif c (grants c s i) b (c.bankRamPorts - 1) = true := by
    rw [bankBusif, beq_self_eq_true, hb.granted, Bool.and_self]
  have hdat : (bankPorts c s i b).dat (c.bankRamPorts - 1) = s.busif.idata b := if_pos hbif
  have hwr : (bankPorts c s i b).wr (c.bankRamPorts - 1) = true := by
    show bankWr c s i (grants c s i) b (c.bankRamPorts - 1) = true
    rw [bankWr, hbif, hb.wr, Bool.and_self, Bool.or_true]
  have hrow : (bankPorts c s i b).adr (c.bankRamPorts - 1) = bifRow c s i :=
    bankWiadr_busif h hb.granted
  rw [← hdat, ← hrow, bank_step,
    Lib.Ram.cycle_written (mem_portOrder.mpr busif_port_lt) hwr fun q _ hne hw hadr => ?_]
  rw [hrow] at hadr
  rcases bankWr_cases h hw with ⟨p, hp, -, hp'⟩ | ⟨-, hport, -⟩
  · exact hno p hp (hp'.symm.trans hadr)
  · exact hne hport

/-- A write port writes its data, if nobody else is at the same row. -/
theorem bank_wp (h : Arbiter.OneWriter c s.arb.gnt) (hw : WpWrites c s i b p)
    (hno : ∀ q, WpWrites c s i b q → q ≠ p → wpRow c s i q ≠ wpRow c s i p)
    (hbif : BifWrites c s i b → bifRow c s i ≠ wpRow c s i p) :
    (step c s i).bank b (wpRow c s i p) = (wpOut c s i (grants c s i) p).bankDataOut := by
  obtain ⟨hp, hg, hwr⟩ := hw
  obtain ⟨hnobif, hwriter⟩ := writer_unique hp hg
  have hdat : (bankPorts c s i b).dat (p % c.bankRamPorts) =
      (wpOut c s i (grants c s i) p).bankDataOut := by
    show bankWdata c s i (grants c s i) b (p % c.bankRamPorts) = _
    rw [bankWdata, hnobif, if_neg Bool.false_ne_true, hwriter]
  have hport : (bankPorts c s i b).wr (p % c.bankRamPorts) = true := by
    show bankWr c s i (grants c s i) b (p % c.bankRamPorts) = true
    rw [bankWr, Bool.or_eq_true, Arbiter.exists_of_any_range]
    refine .inl ⟨p, hp, ?_⟩
    rw [beq_self_eq_true, hg, hwr]
    rfl
  have hrow : (bankPorts c s i b).adr (p % c.bankRamPorts) = wpRow c s i p :=
    bankWiadr_wp h hp hg
  rw [← hdat, ← hrow, bank_step,
    Lib.Ram.cycle_written (mem_portOrder.mpr wp_port_lt) hport fun q _ hne hw hadr => ?_]
  rw [hrow] at hadr
  rcases bankWr_cases h hw with ⟨m, hm, hmport, hm'⟩ | ⟨hb, -, hb'⟩
  · exact hno m hm (fun heq => hne (heq ▸ hmport)) (hm'.symm.trans hadr)
  · exact hbif hb (hb'.symm.trans hadr)

end ParaNut.Memu
