import ParaNut.Memu.Lru

/-!
# LRU replacement in the SystemC model (`memu.cpp`)

`GetNewUse` packs the use word as `get_new_use` of `mtagram` does, but takes
a way out of it with masks and shifts.
-/

namespace ParaNut.SysC.MTagRam

open Lib.Recency (Older)
open Memu (Config indexOf)
open Memu.TagRam (Permuted Quiet Access order initUse perform waysAccessed withWays lookUp
  comb Registers)

/-- `GetNewUse`, with `CACHE_WAYS` as an argument; other numbers of ways fail an assertion. -/
def getNewUse (cacheWays : ℕ) (oldUse : TWord) (way : ℕ) : Option TWord :=
  if cacheWays = 1 then some 0
  else if cacheWays = 2 then some (1 - BitVec.ofNat 32 way)
  else if cacheWays = 4 then
    -- the most recently used way, from the others
    let newUse :=
      oldUse ||| ((((oldUse >>> 4) ^^^ (oldUse >>> 2) ^^^ oldUse) &&& 3) <<< 6)
    let newUse := [0, 2, 4].foldl
      (fun (newUse : TWord) (n : ℕ) =>
        if (newUse >>> n) &&& 3 = BitVec.ofNat 32 way then
          (newUse &&& ((1#32 <<< n) - 1)) ||| ((newUse &&& ~~~((4#32 <<< n) - 1)) >>> 2)
        else newUse)
      newUse
    some (newUse &&& 0x3f)
  else none

/-- `ram[n].use` after reset -/
def initialUse (cacheWays : ℕ) : TWord := if cacheWays ≠ 4 then 0 else 0x24

/-- The way to replace on a miss. -/
def victimWay (cacheWays : ℕ) (use : TWord) : ℕ :=
  (use &&& BitVec.ofNat 32 (cacheWays - 1)).toNat

section Agreement

variable {c : Config}

theorem getNewUse_agree (hways : 1 < c.ways) {use : BitVec 6} (h : Permuted c use) {way : ℕ}
    (hway : way < c.ways) : getNewUse c.ways (use.setWidth 32) way =
      some ((Memu.TagRam.getNewUse c use way).setWidth 32) := by
  have hall : ∀ n : Fin 3, n ≠ 0 → ∀ use, Permuted (withWays n) use → ∀ way < (withWays n).ways,
      getNewUse (withWays n).ways (use.setWidth 32) way =
        some ((Memu.TagRam.getNewUse (withWays n) use way).setWidth 32) := by decide +kernel
  obtain ⟨n, hn, -, hc⟩ := Memu.TagRam.exists_withWays hways
  rw [Permuted, Memu.TagRam.order_congr hc, hc] at h
  rw [hc, Memu.TagRam.getNewUse_congr hc]
  exact hall n hn use h way (hc ▸ hway)

theorem getNewUse_foldl (hways : 1 < c.ways) {acc : List ℕ} (hacc : ∀ w ∈ acc, w < c.ways)
    {use : BitVec 6} (h : Permuted c use) :
    acc.foldlM (getNewUse c.ways) (use.setWidth 32) =
      some ((acc.foldl (Memu.TagRam.getNewUse c) use).setWidth 32) := by
  induction acc generalizing use with
  | nil => rfl
  | cons w acc ih =>
    have hw := hacc w List.mem_cons_self
    rw [List.foldlM_cons, getNewUse_agree hways h hw]
    exact ih (fun v hv => hacc v (List.mem_cons_of_mem _ hv)) (h.access hways hw)

theorem initialUse_agree (hways : 1 < c.ways) (hlru : c.replaceLru = true) :
    initialUse c.ways = (initUse c).setWidth 32 := by
  have hall : ∀ n : Fin 3, n ≠ 0 →
      initialUse (withWays n).ways = (initUse (withWays n)).setWidth 32 := by decide
  obtain ⟨n, hn, hld, hc⟩ := Memu.TagRam.exists_withWays hways
  have hinit : initUse c = initUse (withWays n) := by
    rw [initUse, initUse, Memu.TagRam.tagInit, Memu.TagRam.tagInit, hlru, ← hld]
    rfl
  rw [hc, hinit]
  exact hall n hn

theorem victimWay_agree (hways : 1 < c.ways) (use : BitVec 6) :
    victimWay c.ways (use.setWidth 32) = use.toNat % c.ways := by
  have hall : ∀ n : Fin 3, n ≠ 0 → ∀ use : BitVec 6,
      victimWay (withWays n).ways (use.setWidth 32) = use.toNat % (withWays n).ways := by
    decide +kernel
  obtain ⟨n, hn, -, hc⟩ := Memu.TagRam.exists_withWays hways
  rw [hc]
  exact hall n hn use

end Agreement

/-- Four ways, all of them invalid. -/
def emptyTags : Registers :=
  let e : Memu.TagRam.Entry := ⟨fun _ => false, fun _ => false, fun _ => 0, 0x24⟩
  ⟨0, fun _ => false, fun _ => 0, fun _ => e, fun _ => 0, fun _ => 0, fun _ => false, false, 0,
    ⟨false, false, 0, 0⟩, fun _ => e, fun _ => e⟩

/-- Ways 0 and 1 are filled, and the line in way 0 is read. -/
def fillAndRead : List Access :=
  [.write 0 0 ⟨true, false, 0, 0⟩, .write 0 0 ⟨true, false, 1, 1⟩, .read 0 0]

end ParaNut.SysC.MTagRam
