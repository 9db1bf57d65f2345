import ParaNut.Lib.Sync
import ParaNut.Memu.Grants

/-!
# Runs of the arbiter

On its own, with any requesters that keep their index while they request: the
grants of every cycle exclude each other, and none is taken away.
-/

namespace ParaNut.Memu.Arbiter

open Lib

/-- What the arbiter sees in one cycle. -/
structure Input where
  req : Lines
  ai : In
  tagramReady : Bool

variable (c : Config)

def step (r : Registers) (i : Input) : Registers := combReady c r i.req i.ai i.tagramReady

def grants (r : Registers) (i : Input) : Lines := gntReady c r i.req i.ai i.tagramReady

/-- The index address of write port `n`. -/
def Input.indexWp (i : Input) (n : ℕ) : ℕ := indexOf c (i.ai.adrWp n)

def Input.indexBusif (i : Input) : ℕ := i.ai.wiadrBusif.2

/-- A requester of a line lock keeps its index address while it requests. -/
structure KeepsIndex (i i' : Input) : Prop where
  writePort : ∀ n < c.wports, i.req.linelock n = true → i'.req.linelock n = true →
    i'.indexWp c n = i.indexWp c n
  busif : i.req.linelock c.wports = true → i'.req.linelock c.wports = true →
    i'.indexBusif = i.indexBusif

/-- No grant of a cycle is taken away in the next one from a holder that keeps requesting; tags
only while the tag RAM is ready. -/
structure Kept (g : Lines) (i' : Input) (g' : Lines) : Prop where
  linelock : ∀ n, g.linelock n = true → i'.req.linelock n = true → g'.linelock n = true
  tagr : i'.tagramReady = true → ∀ n, g.tagr n = true → i'.req.tagr n = true → g'.tagr n = true
  tagw : i'.tagramReady = true → ∀ n, g.tagw n = true → i'.req.tagw n = true → g'.tagw n = true
  busif : ∀ n, g.busif n = true → i'.req.busif n = true → g'.busif n = true

variable {c} {r : Registers} {i i' : Input}

theorem grants_req {n : ℕ} (h : (grants c r i).linelock n = true) : i.req.linelock n = true := by
  unfold grants gntReady at h
  split at h
  · exact gntLinelock_req h
  · exact gntLinelock_req h

/-- With the tag RAM not ready there is less to exclude. -/
theorem exclusive_grants {indexWp : ℕ → ℕ} {indexBusif : ℕ}
    (h : Exclusive c r.gnt indexWp indexBusif)
    (hindex : ∀ n < c.wports, keepLinelock r i.req n = true →
      keepLinelock r i.req c.wports = true → i.indexWp c n ≠ i.indexBusif) :
    Exclusive c (grants c r i) (i.indexWp c) i.indexBusif := by
  have hgnt := exclusive_gnt_of_kept h hindex
  unfold grants gntReady
  split
  · exact hgnt
  · exact ⟨hgnt.linelock, hgnt.index, by simp, by simp, by simp, hgnt.busif⟩

theorem kept_grants : Kept r.gnt i (grants c r i) := by
  unfold grants gntReady
  split
  · exact ⟨fun _ => gntLinelock_kept, fun _ _ => gntTagr_kept, fun _ _ => gntTagw_kept,
      fun _ => gntBusif_kept⟩
  · next hready =>
    exact ⟨fun _ => gntLinelock_kept, fun h => absurd h hready, fun h => absurd h hready,
      fun _ => gntBusif_kept⟩

/-- One cycle: what excluded each other when it was granted still does. -/
theorem exclusive_step (hk : KeepsIndex c i i')
    (h : Exclusive c (grants c r i) (i.indexWp c) i.indexBusif) :
    Exclusive c (grants c (step c r i) i') (i'.indexWp c) i'.indexBusif := by
  have hgnt : Exclusive c (step c r i).gnt (i.indexWp c) i.indexBusif := h
  refine exclusive_grants hgnt fun n hn hkn hkb => ?_
  obtain ⟨hgn, hreqn⟩ := keepLinelock_iff.mp hkn
  obtain ⟨hgb, hreqb⟩ := keepLinelock_iff.mp hkb
  rw [hk.writePort n hn (grants_req hgn) hreqn, hk.busif (grants_req hgb) hreqb]
  exact h.index n hn hgn hgb

/-- In every cycle of every run the grants exclude each other, and the next cycle keeps them. -/
theorem grants_exclusive_kept (hr : r.gnt = Lines.none) {inp : ℕ → Input}
    (hkeep : ∀ t, KeepsIndex c (inp t) (inp (t + 1))) (t : ℕ) :
    Exclusive c (grants c (run (step c) r inp t) (inp t)) ((inp t).indexWp c) (inp t).indexBusif ∧
    Kept (grants c (run (step c) r inp t) (inp t)) (inp (t + 1))
      (grants c (run (step c) r inp (t + 1)) (inp (t + 1))) := by
  have hnone : Exclusive c r.gnt (fun _ => 0) 0 := by
    rw [hr]
    exact ⟨by simp [Lines.none], by simp [Lines.none], by simp [Lines.none],
      by simp [Lines.none], by simp [Lines.none], by simp [Lines.none]⟩
  have hinit : Exclusive c (grants c r (inp 0)) ((inp 0).indexWp c) (inp 0).indexBusif :=
    exclusive_grants hnone fun n _ hkn => by simp [keepLinelock, hr, Lines.none] at hkn
  have hstep : ∀ (r : Registers) (i i' : Input), KeepsIndex c i i' →
      Exclusive c (grants c r i) (i.indexWp c) i.indexBusif →
      Exclusive c (grants c (step c r i) i') (i'.indexWp c) i'.indexBusif :=
    fun _ _ _ hk h => exclusive_step hk h
  have hkept : Kept (run (step c) r inp (t + 1)).gnt (inp (t + 1))
      (grants c (run (step c) r inp (t + 1)) (inp (t + 1))) := kept_grants
  exact ⟨run_invariant_input _ _ hinit hstep hkeep t, hkept⟩

section TwoWritePorts

/-- Two CPUs whose write ports request the line lock in every cycle. -/
def twoWritePorts : Config :=
  ⟨1, 1, 1, 0, 1, true, some 0, 0, one_bankLd, one_setLd, one_way, one_ramPort⟩

def bothRequest : Input where
  req := { Lines.none with linelock := fun n => decide (n < 2) }
  ai := ⟨(0, 0), fun _ => (0, 0), fun _ => 0, fun _ => 0⟩
  tagramReady := true

/-- CPU 1 comes first and is not interrupted. -/
theorem grants_exclusive_kept_bothRequest :
    (grants twoWritePorts
      (run (step twoWritePorts) ⟨1, 0, Lines.none⟩ (fun _ => bothRequest) 1)
      bothRequest).linelock 1 = true := by
  have h := (grants_exclusive_kept (c := twoWritePorts) (r := ⟨1, 0, Lines.none⟩) rfl
    (fun _ => ⟨fun _ _ _ _ => rfl, fun _ _ => rfl⟩ : ∀ t : ℕ,
      KeepsIndex twoWritePorts ((fun _ => bothRequest) t) ((fun _ => bothRequest) (t + 1))) 0).2
  exact h.linelock 1 (by decide) rfl

end TwoWritePorts

end ParaNut.Memu.Arbiter
