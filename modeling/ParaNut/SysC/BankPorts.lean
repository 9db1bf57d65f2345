import ParaNut.Memu.BankPorts
import ParaNut.SysC.Arbiter

/-!
# The RAM ports of a bank in both arbiters

`MArbiter` takes whole words for addresses and may count its priorities in any
way. One cycle of it is one of `marbiter` in which each word stands for a way.
-/

namespace ParaNut.SysC.MArbiter

open Lib Memu
open Memu.Arbiter (Select SharesPorts KeepsAddress SameAddresses ramPort selPortLoop selWiadrLoop)

section Cycle

variable {c : Config} {method : ℕ} {r : Registers} {req : Lines} {ai : In} {b : ℕ}

/-- Inputs of `marbiter` with the addresses `w`, each as the way of one line. -/
def asWays (c : Config) (w : ℕ → TWord) : Arbiter.In where
  wiadrBusif := ((w (idxBusif c)).toNat, indexOf c 0)
  wiadrRp n := ((w n).toNat, indexOf c 0)
  adrWp _ := 0
  wayWp n := (w (n + wpOff c)).toNat

theorem wiadr_asWays (hw : c.ways ≠ 1) (w : ℕ → TWord) (n : ℕ) :
    Arbiter.wiadr c (asWays c w) n = ((w n).toNat, indexOf c 0) := by
  unfold Arbiter.wiadr
  split
  · subst n
    rfl
  · split
    · rename_i h
      simp only [asWays, wayIndexOf, if_neg hw, Nat.sub_add_cancel h]
    · rfl

theorem sameAddresses_asWays (hw : c.ways ≠ 1) (w : ℕ → TWord) :
    SameAddresses c (asWays c w) w := by
  intro m n _ _
  rw [wiadr_asWays hw, wiadr_asWays hw, Bool.eq_iff_iff, beq_iff_eq, beq_iff_eq, Prod.mk.injEq,
    BitVec.toNat_inj]
  exact (and_iff_left rfl).symm

/-- Registers of `marbiter` with the grants of `r` and its CPU first. -/
def asVhdl (method : ℕ) (r : Registers) : Arbiter.Registers where
  counter := (r.counterReg >>> method).toNat
  lfsrCounter := 0
  gnt := r.gnt

theorem prioCpus_asVhdl (hc : c.arbiterMethod = some 0) :
    prioCpus c method r = Arbiter.prioCpus c (asVhdl method r) := by
  refine prioCpus_eq ?_
  unfold getPrioCpu Arbiter.getPrioCpu
  split
  · simp only [hc, asVhdl, Nat.pow_zero, Nat.div_one]
  · rename_i h
    rw [Config.cores, Nat.eq_zero_of_not_pos h, Nat.pow_zero, Nat.mod_one]

theorem sharesPorts_of_asVhdl (hc : c.arbiterMethod = some 0) (hw : c.ways ≠ 1)
    (hshared : ∀ m ≤ idxBusif c, ∀ n ≤ idxBusif c, (r.gnt.bank b m && req.bank b m) = true →
      (r.gnt.bank b n && req.bank b n) = true → ramPort c m = ramPort c n →
      wiadr c ai m = wiadr c ai n) :
    SharesPorts c (req.bank b) (bankMethod c method r req ai b) (wiadr c ai)
      (wiadrBank c method r req ai b) := by
  let rv := asVhdl method r
  let aiv := asWays c (wiadr c ai)
  have hin : bankIn c method r req b = Arbiter.bankIn c rv req b := by
    rw [bankIn, Arbiter.bankIn, prioCpus_asVhdl hc]
    rfl
  have hgnt : ∀ n ≤ idxBusif c, bankMethod c method r req ai b n =
      Arbiter.gntBank c rv req aiv b n := by
    intro n hn
    rw [bankMethod, hin]
    exact Arbiter.gntBankLoop_eq (sameAddresses_asWays hw _) hn
  have hvhdl : SharesPorts c (req.bank b) (Arbiter.gntBank c rv req aiv b)
      (Arbiter.wiadr c aiv) (Arbiter.selWiadr c rv req aiv b) := by
    refine Arbiter.sharesPorts_of_kept fun m hm n hn hkm hkn hport => ?_
    rw [wiadr_asWays hw, wiadr_asWays hw, hshared m hm n hn hkm hkn hport]
  constructor
  · intro n hn hg
    rw [hgnt n hn] at hg
    exact hvhdl.requested n hn hg
  · intro n hn hg
    rw [hgnt n hn] at hg
    obtain ⟨k, hk⟩ := Option.isSome_iff_exists.mp (Arbiter.selPort_isSome hn hg)
    have hadr : wiadr c ai k = wiadr c ai n := by
      have hsame := hvhdl.adr n hn hg
      simp only [Arbiter.selWiadr, hk] at hsame
      rw [wiadr_asWays hw, wiadr_asWays hw, Prod.mk.injEq] at hsame
      exact BitVec.toNat_inj.mp hsame.1
    rw [wiadrBank, hin, selWiadrLoop, Arbiter.selPortLoop_eq, ← hadr]
    simp only [hk, Select.isSet_entry, Option.isSome_some, if_true, Select.port_entry]
  · intro m hm n hn hwm hwn hgm hgn
    rw [hgnt m hm] at hgm
    rw [hgnt n hn] at hgn
    exact hvhdl.writer m hm n hn hwm hwn hgm hgn
  · intro n hn hreq
    obtain ⟨m, hm, hport, hg⟩ := hvhdl.granted n hn hreq
    exact ⟨m, hm, hport, (hgnt m hm).trans hg⟩

/-- The number of ways and the method of `marbiter` are no part of `BankMethod`. -/
theorem sharesPorts_of_kept
    (hshared : ∀ m ≤ idxBusif c, ∀ n ≤ idxBusif c, (r.gnt.bank b m && req.bank b m) = true →
      (r.gnt.bank b n && req.bank b n) = true → ramPort c m = ramPort c n →
      wiadr c ai m = wiadr c ai n) :
    SharesPorts c (req.bank b) (bankMethod c method r req ai b) (wiadr c ai)
      (wiadrBank c method r req ai b) := by
  let c' : Config := { c with waysLd := 1, waysLd_range := by decide, arbiterMethod := some 0 }
  have h : SharesPorts c' (req.bank b) (bankMethod c' method r req ai b) (wiadr c' ai)
      (wiadrBank c' method r req ai b) :=
    sharesPorts_of_asVhdl rfl (show 2 ^ 1 ≠ 1 by decide) hshared
  exact ⟨h.requested, h.adr, h.writer, h.granted⟩

end Cycle

-- ---------------------------------------------------------------------------
-- Runs
-- ---------------------------------------------------------------------------

/-- What `MArbiter` sees in one cycle. -/
structure Input where
  req : Lines
  ai : In
  tagramReady : Bool

section Runs

variable {c : Config} {method : ℕ} {r : ℕ → Registers} {inp : ℕ → Input}

/-- A run of `TransitionThread` from reset, its counter round robin or an LFSR. -/
structure GrantRun (c : Config) (method : ℕ) (r : ℕ → Registers) (inp : ℕ → Input) : Prop where
  reset : (r 0).gnt = Lines.none
  step : ∀ t, (r (t + 1)).gnt =
    grants c method (r t) (inp t).req (inp t).ai (inp t).tagramReady

theorem GrantRun.sharesPorts (h : GrantRun c method r inp)
    (hkeep : ∀ t, KeepsAddress c (inp t).req (inp (t + 1)).req (wiadr c (inp t).ai)
      (wiadr c (inp (t + 1)).ai)) (b t : ℕ) :
    SharesPorts c ((inp t).req.bank b) (bankMethod c method (r t) (inp t).req (inp t).ai b)
      (wiadr c (inp t).ai) (wiadrBank c method (r t) (inp t).req (inp t).ai b) := by
  induction t with
  | zero =>
    refine sharesPorts_of_kept fun m _ n _ hkm _ _ => ?_
    rw [h.reset] at hkm
    cases hkm
  | succ t ih =>
    have hgnt : (r (t + 1)).gnt.bank b =
        bankMethod c method (r t) (inp t).req (inp t).ai b := by
      rw [h.step]
      rfl
    refine sharesPorts_of_kept fun m hm n hn hkm hkn hport => ?_
    rw [hgnt, Bool.and_eq_true] at hkm hkn
    rw [hkeep t b m hm (ih.requested m hm hkm.1) hkm.2, hkeep t b n hn (ih.requested n hn hkn.1) hkn.2,
      ← ih.adr m hm hkm.1, ← ih.adr n hn hkn.1, hport]

/-- In every cycle the grants that `marbiter` gives for a bank share its RAM ports, and so do those
of `MArbiter`. -/
theorem banks_share_ports {rv : Arbiter.Registers} {inpv : ℕ → Arbiter.Input}
    (hrv : rv.gnt = Lines.none)
    (hkeepv : ∀ t, KeepsAddress c (inpv t).req (inpv (t + 1)).req
      (Arbiter.wiadr c (inpv t).ai) (Arbiter.wiadr c (inpv (t + 1)).ai))
    (hr : GrantRun c method r inp)
    (hkeep : ∀ t, KeepsAddress c (inp t).req (inp (t + 1)).req (wiadr c (inp t).ai)
      (wiadr c (inp (t + 1)).ai)) (b t : ℕ) :
    SharesPorts c ((inpv t).req.bank b)
        ((Arbiter.grants c (run (Arbiter.step c) rv inpv t) (inpv t)).bank b)
        (Arbiter.wiadr c (inpv t).ai)
        (Arbiter.selWiadr c (run (Arbiter.step c) rv inpv t) (inpv t).req (inpv t).ai b) ∧
      SharesPorts c ((inp t).req.bank b) (bankMethod c method (r t) (inp t).req (inp t).ai b)
        (wiadr c (inp t).ai) (wiadrBank c method (r t) (inp t).req (inp t).ai b) :=
  ⟨Arbiter.run_sharesPorts hrv hkeepv b t, hr.sharesPorts hkeep b t⟩

/-- Both CPUs of `twoCpus` read bank 0 and write to it, at one address. -/
def readsAndWrites : Arbiter.Input where
  req := { Lines.none with bank := fun b n => b == 0 && (n < 2 || (4 ≤ n && n < 6)) }
  ai := ⟨(0, 0), fun _ => (0, 0), fun _ => 0, fun _ => 0⟩
  tagramReady := true

theorem banks_share_ports_readsAndWrites :
    SharesPorts twoCpus (readsAndWrites.req.bank 0)
        ((Arbiter.grants twoCpus (run (Arbiter.step twoCpus) (resetVhdl twoCpus 7)
          (fun _ => readsAndWrites) 3) readsAndWrites).bank 0)
        (Arbiter.wiadr twoCpus readsAndWrites.ai)
        (Arbiter.selWiadr twoCpus (run (Arbiter.step twoCpus) (resetVhdl twoCpus 7)
          (fun _ => readsAndWrites) 3) readsAndWrites.req readsAndWrites.ai 0) ∧
      SharesPorts twoCpus (readsAndWrites.req.bank 0)
        (bankMethod twoCpus 7 (run (step twoCpus 7) reset (fun _ => readsAndWrites) 3)
          readsAndWrites.req (words twoCpus readsAndWrites.ai) 0)
        (wiadr twoCpus (words twoCpus readsAndWrites.ai))
        (wiadrBank twoCpus 7 (run (step twoCpus 7) reset (fun _ => readsAndWrites) 3)
          readsAndWrites.req (words twoCpus readsAndWrites.ai) 0) :=
  @banks_share_ports twoCpus 7 (run (step twoCpus 7) reset fun _ => readsAndWrites)
    (fun _ => ⟨readsAndWrites.req, words twoCpus readsAndWrites.ai, true⟩) (resetVhdl twoCpus 7)
    (fun _ => readsAndWrites) rfl (fun _ _ _ _ _ _ => rfl) ⟨rfl, fun _ => rfl⟩
    (fun _ _ _ _ _ _ => rfl) 0 3

end Runs

end ParaNut.SysC.MArbiter
