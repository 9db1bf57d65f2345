import ParaNut.Types
import ParaNut.Lib.Process
import Mathlib.Data.List.Range
import Mathlib.Logic.Function.Basic

/-!
# Wiring of the memory ports (`paranut.cpp`, `InterconnectMethod`)

Read ports 0 to `cores - 1` belong to the LSUs and `cores` to `2 * cores - 1`
to the IFUs. The method is sensitive to the port addresses only, so the lines
it drives stay when a cache is enabled or disabled.
-/

namespace ParaNut.SysC.MParanut

open Lib (process process_follows_iff)

/-- The signals that the method reads. -/
structure Signals where
  rpAdr : ℕ → TWord
  wpAdr : ℕ → TWord
  icacheEnable : Bool
  dcacheEnable : Bool

/-- The signals that it drives. -/
structure Lines where
  rpBsel : ℕ → TByteSel
  rpDirect : ℕ → Bool
  wpDirect : ℕ → Bool

variable (cores memSize : ℕ) (cfgDisableCache : Bool)

/-- One round of the loop over the 'direct' lines. -/
def connect (sig : Signals) (l : Lines) (n : ℕ) : Lines :=
  if cfgDisableCache then
    { l with
      rpDirect := Function.update (Function.update l.rpDirect n true) (cores + n) true
      wpDirect := Function.update l.wpDirect n true }
  else
    { l with
      rpDirect := Function.update
        (Function.update l.rpDirect n (!sig.dcacheEnable || !adrIsCached memSize (sig.rpAdr n)))
        (cores + n) (!sig.icacheEnable || !adrIsCached memSize (sig.rpAdr n))
      wpDirect := Function.update l.wpDirect n
        (!sig.dcacheEnable || !adrIsCached memSize (sig.wpAdr n)) }

def interconnectMethod (sig : Signals) (l : Lines) : Lines :=
  let l := (List.range cores).foldl
    (fun l n => { l with rpBsel := Function.update l.rpBsel (cores + n) 0xf }) l
  (List.range cores).foldl (connect cores memSize cfgDisableCache sig) l

/-- `InitInterconnectMethod`: an address has changed. -/
def Sensitive (sig sig' : Signals) : Prop :=
  (∃ n < 2 * cores, sig.rpAdr n ≠ sig'.rpAdr n) ∨ ∃ n < cores, sig.wpAdr n ≠ sig'.wpAdr n

instance : DecidableRel (Sensitive cores) := fun sig sig' =>
  inferInstanceAs (Decidable ((∃ n < 2 * cores, sig.rpAdr n ≠ sig'.rpAdr n) ∨
    ∃ n < cores, sig.wpAdr n ≠ sig'.wpAdr n))

/-- The lines in step `t` of a simulation. -/
def lines (l : Lines) (sig : ℕ → Signals) (t : ℕ) : Lines :=
  process (interconnectMethod cores memSize cfgDisableCache) (Sensitive cores) l sig t

/-! ## The ports -/

inductive Port (cores : ℕ)
  | lsuRead (n : Fin cores)
  | lsuWrite (n : Fin cores)
  | ifu (n : Fin cores)

variable {cores}

namespace Port

/-- The port's own address. -/
def adr (sig : Signals) : Port cores → TWord
  | lsuRead n => sig.rpAdr n
  | lsuWrite n => sig.wpAdr n
  | ifu n => sig.rpAdr (cores + n)

/-- The address that the method looks at. -/
def consulted (sig : Signals) : Port cores → TWord
  | lsuRead n => sig.rpAdr n
  | lsuWrite n => sig.wpAdr n
  | ifu n => sig.rpAdr n

/-- The port's own cache enable. -/
def enable (sig : Signals) : Port cores → Bool
  | lsuRead _ | lsuWrite _ => sig.dcacheEnable
  | ifu _ => sig.icacheEnable

def direct (l : Lines) : Port cores → Bool
  | lsuRead n => l.rpDirect n
  | lsuWrite n => l.wpDirect n
  | ifu n => l.rpDirect (cores + n)

def core : Port cores → Fin cores
  | lsuRead n | lsuWrite n | ifu n => n

end Port

/-- A port is routed to the bus directly unless its cache is enabled and the address cached. -/
def route (enable : Bool) (adr : TWord) : Bool :=
  cfgDisableCache || !enable || !adrIsCached memSize adr

variable {memSize cfgDisableCache} {sig sig' : Signals} {l : Lines}

theorem direct_connect (p : Port cores) {n : ℕ} (hn : n < cores) :
    p.direct (connect cores memSize cfgDisableCache sig l n) =
      if (p.core : ℕ) = n then
        route memSize cfgDisableCache (p.enable sig) (p.consulted sig)
      else p.direct l := by
  have hpos : cores ≠ 0 := Nat.ne_zero_of_lt hn
  have hcross (m : Fin cores) : (m : ℕ) ≠ cores + n := by omega
  have hcross' (m : Fin cores) : cores + (m : ℕ) ≠ n := by omega
  cases p with
  | lsuRead m =>
    cases cfgDisableCache <;> by_cases h : (m : ℕ) = n <;>
      simp [connect, route, Port.direct, Port.core, Port.enable, Port.consulted,
        hcross, hpos, h]
  | lsuWrite m =>
    cases cfgDisableCache <;> by_cases h : (m : ℕ) = n <;>
      simp [connect, route, Port.direct, Port.core, Port.enable, Port.consulted, h]
  | ifu m =>
    cases cfgDisableCache <;> by_cases h : (m : ℕ) = n <;>
      simp [connect, route, Port.direct, Port.core, Port.enable, Port.consulted,
        hcross', h]

/-- After `k` rounds the lines of the first `k` cores are driven. -/
theorem direct_connect_loop (p : Port cores) {k : ℕ} (hk : k ≤ cores) :
    p.direct ((List.range k).foldl (connect cores memSize cfgDisableCache sig) l) =
      if (p.core : ℕ) < k then
        route memSize cfgDisableCache (p.enable sig) (p.consulted sig)
      else p.direct l := by
  induction k with
  | zero => simp
  | succ k ih =>
    rw [List.range_succ, List.foldl_append, List.foldl_cons, List.foldl_nil,
      direct_connect p (Nat.lt_of_succ_le hk), ih (Nat.le_of_succ_le hk)]
    grind

variable (memSize cfgDisableCache) in
/-- A run of the method routes each port by its own cache enable, and by the address consulted. -/
theorem direct_interconnectMethod (sig : Signals) (l : Lines) (p : Port cores) :
    p.direct (interconnectMethod cores memSize cfgDisableCache sig l) =
      route memSize cfgDisableCache (p.enable sig) (p.consulted sig) := by
  unfold interconnectMethod
  rw [direct_connect_loop p (Nat.le_refl cores), if_pos p.core.isLt]

/-! ## Whose address and enable count -/

/-- The direct line of each port in each step is that of its own address and enable. -/
def OwnRouting (cores memSize : ℕ) (cfgDisableCache : Bool) (l : Lines) (sig : ℕ → Signals) : Prop :=
  ∀ (p : Port cores) t, p.direct (lines cores memSize cfgDisableCache l sig t) =
    route memSize cfgDisableCache (p.enable (sig t)) (p.adr (sig t))

/-- No core with its instruction cache enabled reads and fetches in different regions. -/
def Uncrossed (cores memSize : ℕ) (sig : Signals) : Prop :=
  sig.icacheEnable = true → ∀ n < cores,
    adrIsCached memSize (sig.rpAdr n) = adrIsCached memSize (sig.rpAdr (cores + n))

/-- The cache enables of the ports with a cached address stay. -/
def Steady (cores memSize : ℕ) (sig sig' : Signals) : Prop :=
  ∀ p : Port cores, adrIsCached memSize (p.adr sig) = true → p.enable sig = p.enable sig'

theorem Sensitive.adr_eq (h : ¬Sensitive cores sig sig') (p : Port cores) :
    p.adr sig = p.adr sig' := by
  obtain ⟨hrp, hwp⟩ := not_or.mp h
  push Not at hrp hwp
  cases p with
  | lsuRead n => exact hrp n (by omega)
  | lsuWrite n => exact hwp n n.isLt
  | ifu n => exact hrp (cores + n) (by omega)

theorem uncrossed_iff :
    Uncrossed cores memSize sig ↔ ∀ p : Port cores, p.enable sig = true →
      adrIsCached memSize (p.consulted sig) = adrIsCached memSize (p.adr sig) := by
  constructor
  · intro h p hen
    cases p with
    | lsuRead n => rfl
    | lsuWrite n => rfl
    | ifu n => exact h hen n n.isLt
  · intro h hen n hn
    exact h (.ifu ⟨n, hn⟩) hen

theorem route_adr_eq_iff {en : Bool} {a a' : TWord} :
    route memSize false en a = route memSize false en a' ↔
      (en = true → adrIsCached memSize a = adrIsCached memSize a') := by
  cases en <;> simp [route]

theorem route_enable_eq_iff {en en' : Bool} {a : TWord} :
    route memSize false en a = route memSize false en' a ↔
      (adrIsCached memSize a = true → en = en') := by
  cases hc : adrIsCached memSize a <;> simp [route, hc]

/-- Every port is routed by its own address and enable in every step just when the caches are
disabled, or the reads and fetches of a core are in one region whenever the method runs and no
enable that counts changes while it does not. -/
theorem ownRouting_iff (cores memSize : ℕ) (cfgDisableCache : Bool) (l : Lines)
    (sig : ℕ → Signals) :
    OwnRouting cores memSize cfgDisableCache l sig ↔
      (cfgDisableCache = false →
        Uncrossed cores memSize (sig 0) ∧
        ∀ t, (Sensitive cores (sig t) (sig (t + 1)) → Uncrossed cores memSize (sig (t + 1))) ∧
          (¬Sensitive cores (sig t) (sig (t + 1)) →
            Steady cores memSize (sig t) (sig (t + 1)))) := by
  have hport (p : Port cores) := process_follows_iff (Sensitive cores) l sig p.direct
    (fun i => route memSize cfgDisableCache (p.enable i) (p.adr i))
    (fun i s => direct_interconnectMethod memSize cfgDisableCache i s p)
  refine (forall_congr' hport).trans ?_
  cases cfgDisableCache with
  | true => simp [route]
  | false =>
    simp only [uncrossed_iff, route_adr_eq_iff, true_imp_iff]
    constructor
    · intro h
      refine ⟨fun p => (h p).1, fun t => ⟨fun hs p => ((h p).2 t).1 hs, fun hs p => ?_⟩⟩
      have hkept := ((h p).2 t).2 hs
      rwa [← Sensitive.adr_eq hs p, route_enable_eq_iff] at hkept
    · rintro ⟨hinit, hstep⟩ p
      refine ⟨hinit p, fun t => ⟨fun hs => (hstep t).1 hs p, fun hs => ?_⟩⟩
      rw [← Sensitive.adr_eq hs p, route_enable_eq_iff]
      exact (hstep t).2 hs p

/-- Two runs that differ in what the LSUs address only route the fetches in the same way, if each
of them routes every port by its own signals. -/
theorem OwnRouting.ifu_eq {sig sig' : ℕ → Signals} {l' : Lines}
    (h : OwnRouting cores memSize cfgDisableCache l sig)
    (h' : OwnRouting cores memSize cfgDisableCache l' sig')
    (hadr : ∀ t, ∀ n < cores, (sig t).rpAdr (cores + n) = (sig' t).rpAdr (cores + n))
    (hen : ∀ t, (sig t).icacheEnable = (sig' t).icacheEnable) (n : Fin cores) (t : ℕ) :
    (Port.ifu n).direct (lines cores memSize cfgDisableCache l sig t) =
      (Port.ifu n).direct (lines cores memSize cfgDisableCache l' sig' t) := by
  rw [h, h']
  simp only [Port.enable, Port.adr]
  rw [hadr t n n.isLt, hen t]

/-- One core that fetches at `fetch` while its LSU addresses `data`, with both caches enabled. -/
def oneCore (data fetch : TWord) : Signals where
  rpAdr p := if p = 0 then data else fetch
  wpAdr _ := data
  icacheEnable := true
  dcacheEnable := true

def undriven : Lines where
  rpBsel _ := 0
  rpDirect _ := false
  wpDirect _ := false

theorem ownRouting_iff_memory :
    OwnRouting 1 (2 ^ 25) false undriven fun _ => oneCore 0x2000 0x100 := by
  refine (ownRouting_iff 1 (2 ^ 25) false undriven fun _ => oneCore 0x2000 0x100).mpr fun _ => ?_
  refine ⟨fun _ n hn => ?_, fun t => ⟨fun _ _ n hn => ?_, fun _ p _ => rfl⟩⟩
  all_goals
    obtain rfl : n = 0 := by omega
    decide

/-- A core whose LSU addresses a device fetches from the bus instead of the cache. -/
theorem fetch_follows_data :
    ¬ ∀ (cores : ℕ) (l : Lines) (sig sig' : ℕ → Signals),
      (∀ t, ∀ n < cores, (sig t).rpAdr (cores + n) = (sig' t).rpAdr (cores + n)) →
      (∀ t, (sig t).icacheEnable = (sig' t).icacheEnable) →
      (∀ t, (sig t).dcacheEnable = (sig' t).dcacheEnable) →
      ∀ (n : Fin cores) (t : ℕ), (Port.ifu n).direct (lines cores (2 ^ 25) false l sig t) =
        (Port.ifu n).direct (lines cores (2 ^ 25) false l sig' t) := by
  intro h
  have hsame := h 1 undriven (fun _ => oneCore 0x2000 0x100) (fun _ => oneCore 0x90000000 0x100)
    (fun _ n _ => by simp [oneCore]) (fun _ => rfl) (fun _ => rfl) 0 0
  revert hsame
  decide

end ParaNut.SysC.MParanut
