import ParaNut.Memu.Exclusion

/-!
# Who shares a RAM port of a bank

The requesters that are granted a RAM port in one cycle are all at the address
on it, one of them at most writes, and a RAM port that is requested is granted
to someone. A port that loses its grant to another writer keeps its request.
-/

namespace ParaNut.Memu.Arbiter

open Lib

/-- The grants `gnt` for requests `req` of one bank at addresses `wiadr`, with `port p` the address
on RAM port `p`. -/
structure SharesPorts {β : Type} (c : Config) (req gnt : ℕ → Bool) (wiadr port : ℕ → β) : Prop where
  requested : ∀ n ≤ idxBusif c, gnt n = true → req n = true
  adr : ∀ n ≤ idxBusif c, gnt n = true → port (ramPort c n) = wiadr n
  writer : ∀ m ≤ idxBusif c, ∀ n ≤ idxBusif c, wpOff c ≤ m → wpOff c ≤ n → gnt m = true →
    gnt n = true → ramPort c m = ramPort c n → m = n
  granted : ∀ n ≤ idxBusif c, req n = true →
    ∃ m ≤ idxBusif c, ramPort c m = ramPort c n ∧ gnt m = true

/-- From one cycle to the next each requester of a bank keeps its address while it requests. -/
def KeepsAddress {β : Type} (c : Config) (req req' : Lines) (wiadr wiadr' : ℕ → β) : Prop :=
  ∀ b, ∀ n ≤ idxBusif c, req.bank b n = true → req'.bank b n = true → wiadr' n = wiadr n

variable {c : Config} {r : Registers} {req : Lines} {ai : In} {b n : ℕ}

-- ---------------------------------------------------------------------------
-- A requested RAM port is granted
-- ---------------------------------------------------------------------------

theorem isSome_update {sel : SelPort} {p q : ℕ} (h : (sel q).isSome) :
    (Function.update sel p (some n) q).isSome := by
  rcases eq_or_ne q p with rfl | hne
  · rw [Function.update_self]
    rfl
  · rw [Function.update_of_ne hne]
    exact h

theorem selCpu_isSome {sel : SelPort} {i p : ℕ} (h : (sel p).isSome) :
    (selCpu c req b sel i p).isSome := by
  obtain ⟨m, hm⟩ := Option.isSome_iff_exists.mp h
  rw [selCpu_some hm]
  rfl

/-- The turn of a CPU that requests leaves its RAM port selected. -/
theorem selCpu_of_req {sel : SelPort} {i : ℕ}
    (hreq : req.bank b i = true ∨ req.bank b (i + ipOff c) = true ∨
      req.bank b (i + wpOff c) = true) : (selCpu c req b sel i (ramPort c i)).isSome := by
  unfold selCpu
  split
  · repeat' split
    · rw [Function.update_self]; rfl
    · rw [Function.update_self]; rfl
    · rw [Function.update_self]; rfl
    · rcases hreq with h | h | h <;> contradiction
  · rename_i hsome
    exact Option.isSome_iff_ne_none.mpr (by simpa using hsome)

/-- The turns of the CPUs leave each requested RAM port selected. -/
theorem foldl_selCpu_isSome {l : List ℕ} {sel : SelPort} {i : ℕ} (hi : i ∈ l)
    (hreq : req.bank b i = true ∨ req.bank b (i + ipOff c) = true ∨
      req.bank b (i + wpOff c) = true) : (l.foldl (selCpu c req b) sel (ramPort c i)).isSome := by
  have hkept : ∀ (l : List ℕ) (sel : SelPort) (p : ℕ), (sel p).isSome →
      (l.foldl (selCpu c req b) sel p).isSome := by
    intro l
    induction l with
    | nil => exact fun _ _ h => h
    | cons k l ih => exact fun sel p h => ih _ p (selCpu_isSome h)
  induction l generalizing sel with
  | nil => cases hi
  | cons k l ih =>
    rw [List.foldl_cons]
    rcases List.mem_cons.mp hi with rfl | hmem
    · exact hkept l _ _ (selCpu_of_req hreq)
    · exact ih hmem

theorem mem_prioCpus {i : ℕ} (hi : i < c.cores) : i ∈ prioCpus c r := by
  rw [prioCpus, List.mem_map]
  have hpos := c.cores_pos
  have hle : getPrioCpu c r % c.cores ≤ i + c.cores := by
    have := Nat.mod_lt (getPrioCpu c r) hpos
    omega
  refine ⟨(i + c.cores - getPrioCpu c r % c.cores) % c.cores,
    List.mem_range.mpr (Nat.mod_lt _ hpos), ?_⟩
  rw [Nat.mod_add_mod, ← Nat.add_mod_mod, Nat.sub_add_cancel hle, Nat.add_mod_right,
    Nat.mod_eq_of_lt hi]

theorem selPort_of_req (hn : n ≤ idxBusif c) (hreq : req.bank b n = true) :
    (selPort c r req b (ramPort c n)).isSome := by
  rcases Nat.eq_or_lt_of_le hn with rfl | hlt
  · have hport : ramPort c (idxBusif c) = c.bankRamPorts - 1 := if_pos rfl
    have hbusif : (selBusif c r req b (c.bankRamPorts - 1)).isSome := by
      unfold selBusif
      split
      · rw [Function.update_self]
        rfl
      · rename_i hno
        exact Option.isSome_iff_ne_none.mpr (by simpa [hreq] using hno)
    obtain ⟨m, hm⟩ := Option.isSome_iff_exists.mp hbusif
    have hfold : ∀ (l : List ℕ) (sel : SelPort), sel (c.bankRamPorts - 1) = some m →
        l.foldl (selCpu c req b) sel (c.bankRamPorts - 1) = some m := by
      intro l
      induction l with
      | nil => exact fun _ h => h
      | cons k l ih => exact fun sel h => ih _ (selCpu_some h)
    rw [hport, selPort, hfold _ _ hm]
    rfl
  · have hi : n % c.cores < c.cores := Nat.mod_lt _ c.cores_pos
    have hport : ramPort c n = ramPort c (n % c.cores) := by
      rw [ramPort, if_neg (Nat.ne_of_lt hlt), (ramPort_cpu hi).1]
    rw [hport]
    refine foldl_selCpu_isSome (mem_prioCpus hi) ?_
    rcases port_cases hlt with h | h | h
    · exact .inl (h ▸ hreq)
    · exact .inr (.inl (h ▸ hreq))
    · exact .inr (.inr (h ▸ hreq))

/-- A writer that is selected has been pre-granted. -/
def PreGranted (c : Config) (r : Registers) (req : Lines) (ai : In) (b p m : ℕ) : Prop :=
  wpOff c ≤ m ∧ m ≤ idxBusif c ∧ ramPort c m = p ∧ preGntBank c r req ai b m = true

theorem foldl_selWriter {l : List ℕ} {sel : SelPort} {p m : ℕ} (hl : ∀ i ∈ l, i < c.cores)
    (hm : sel p = some m) (hpre : PreGranted c r req ai b p m) :
    ∃ m', l.foldl (selWriter c r req ai b) sel p = some m' ∧ PreGranted c r req ai b p m' := by
  induction l generalizing sel m with
  | nil => exact ⟨m, hm, hpre⟩
  | cons i l ih =>
    have hi := hl i List.mem_cons_self
    have hl' : ∀ k ∈ l, k < c.cores := fun k hk => hl k (List.mem_cons_of_mem _ hk)
    rw [List.foldl_cons]
    unfold selWriter
    split
    · rename_i hgnt
      rw [Bool.and_eq_true] at hgnt
      rcases eq_or_ne p (ramPort c i) with rfl | hne
      · refine ih hl' (Function.update_self ..) ⟨Nat.le_add_left _ _, ?_, (ramPort_cpu hi).2.2,
          hgnt.2⟩
        simp only [idxBusif, wpOff, Config.wports]
        omega
      · exact ih hl' (by rw [Function.update_of_ne hne, hm]) hpre
    · exact ih hl' hm hpre

/-- A RAM port that is requested is granted: to the requester selected, or, if that writes, to the
writer that is selected in its place. -/
theorem exists_gntBank (hn : n ≤ idxBusif c) (hreq : req.bank b n = true) :
    ∃ m ≤ idxBusif c, ramPort c m = ramPort c n ∧ gntBank c r req ai b m = true := by
  obtain ⟨m, hm⟩ := Option.isSome_iff_exists.mp (selPort_of_req (r := r) hn hreq)
  obtain ⟨hle, hreqm, hport⟩ := requests_of_selPort hm
  have hpre : preGntBank c r req ai b m = true := by
    have hsel := hport ▸ hm
    simp [preGntBank, selWiadr, hsel, hreqm]
  rcases Nat.lt_or_ge m (wpOff c) with hread | hwrite
  · exact ⟨m, hle, hport, by simp [gntBank, hpre, hread]⟩
  · obtain ⟨m', hsel, -, hle', hport', hpre'⟩ := foldl_selWriter (l := prioCpus c r)
      (fun i hi => mem_prioCpus_lt hi) hm ⟨hwrite, hle, hport, hpre⟩
    refine ⟨m', hle', hport', ?_⟩
    have hwriters : selWriters c r req ai b (ramPort c m') = some m' := hport'.symm ▸ hsel
    simp [gntBank, hpre', hwriters]

-- ---------------------------------------------------------------------------
-- Runs
-- ---------------------------------------------------------------------------

theorem sharesPorts_of_kept
    (hshared : ∀ m ≤ idxBusif c, ∀ n ≤ idxBusif c, keepBank r req b m = true →
      keepBank r req b n = true → ramPort c m = ramPort c n → wiadr c ai m = wiadr c ai n) :
    SharesPorts c (req.bank b) (gntBank c r req ai b) (wiadr c ai) (selWiadr c r req ai b) where
  requested _ _ h := gntBank_req h
  adr _ hn h := wiadr_of_gntBank hshared hn h
  writer _ _ _ _ hm hn hgm hgn hport := gntBank_writer hm hn hgm hgn hport
  granted _ hn hreq := exists_gntBank hn hreq

/-- Grants that are kept share their address, as they did when they were given. -/
theorem sharesPorts_next {g : ℕ → Bool} {wiadr' port' : ℕ → ℕ × ℕ} {req' : Lines}
    (h : SharesPorts c (req'.bank b) g wiadr' port') (hgnt : ∀ n, r.gnt.bank b n = g n)
    (hkeep : ∀ n ≤ idxBusif c, req'.bank b n = true → req.bank b n = true →
      wiadr c ai n = wiadr' n) :
    SharesPorts c (req.bank b) (gntBank c r req ai b) (wiadr c ai) (selWiadr c r req ai b) := by
  refine sharesPorts_of_kept fun m hm n hn hkm hkn hport => ?_
  simp only [keepBank, Bool.and_eq_true, hgnt] at hkm hkn
  rw [hkeep m hm (h.requested m hm hkm.1) hkm.2, hkeep n hn (h.requested n hn hkn.1) hkn.2,
    ← h.adr m hm hkm.1, ← h.adr n hn hkn.1, hport]

/-- In every cycle of every run from reset the grants of each bank share its RAM ports. -/
theorem run_sharesPorts (hr : r.gnt = Lines.none) {inp : ℕ → Input}
    (hkeep : ∀ t, KeepsAddress c (inp t).req (inp (t + 1)).req (wiadr c (inp t).ai)
      (wiadr c (inp (t + 1)).ai)) (b t : ℕ) :
    SharesPorts c ((inp t).req.bank b) ((grants c (run (step c) r inp t) (inp t)).bank b)
      (wiadr c (inp t).ai)
      (selWiadr c (run (step c) r inp t) (inp t).req (inp t).ai b) := by
  have hbank : ∀ r i, (grants c r i).bank b = gntBank c r i.req i.ai b := by
    intro r i
    unfold grants gntReady
    split <;> rfl
  rw [hbank]
  induction t with
  | zero =>
    refine sharesPorts_of_kept fun m _ n _ hkm _ _ => ?_
    simp [keepBank, hr, Lines.none] at hkm
  | succ t ih =>
    exact sharesPorts_next ih (fun n => congrFun (hbank _ _) n) (hkeep t b)

end ParaNut.Memu.Arbiter
