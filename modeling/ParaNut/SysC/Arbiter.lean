import ParaNut.Lib.Sync
import ParaNut.Memu.BankSelect
import ParaNut.Memu.Exclusion
import Mathlib.Tactic.Ring

/-!
# The arbiter of the SystemC model (`MArbiter` in `memu.cpp`)

The methods as they stand, for `ARBITER_METHOD >= 0` (round robin). Addresses
are words: `wiadr` has the way above the index. Against `marbiter` they give
the same grants in every run whose priority counters agree; the counters do
after reset if they have at most 16 bits.
-/

namespace ParaNut.SysC.MArbiter

open Lib Memu
open Memu.Arbiter (Select selSysC BankIn selPortLoop selWiadrLoop gntBankLoop ramPort)

structure Registers where
  counterReg : TWord
  gnt : Lines

structure In where
  wiadrBusif : TWord
  wiadrRp : ℕ → TWord
  adrWp : ℕ → TWord
  wayWp : ℕ → TWord

section Methods

variable (c : Config)

def getIndexOfAdr (adr : TWord) : TWord :=
  adr >>> (c.banksLd + 2) &&& BitVec.ofNat 32 (c.sets - 1)

def getIndexOfWayIndex (adr : TWord) : TWord := adr &&& BitVec.ofNat 32 (c.sets - 1)

def getWayIndexOfAdr (adr way : TWord) : TWord := getIndexOfAdr c adr ||| way <<< c.setsLd

variable (method : ℕ) (r : Registers)

def getPrioCpu : ℕ := (r.counterReg >>> method).toNat % c.cores

/-- `(n + GetPrioCpu ()) % CPU_CORES` for n from 0 up. -/
def prioCpus : List ℕ := (List.range c.cores).map fun n => (n + getPrioCpu c method r) % c.cores

variable (req : Lines) (ai : In)

/-- The BusIf part of `LineLockMethod`. -/
def lineLockBusif (gnt : ℕ → Bool) : ℕ → Bool :=
  if req.linelock c.wports && !gnt c.wports then
    (List.range c.wports).foldl
      (fun g n =>
        if g n && getIndexOfAdr c (ai.adrWp n) == getIndexOfWayIndex c ai.wiadrBusif then
          Function.update g c.wports false
        else g)
      (Function.update gnt c.wports true)
  else gnt

def lineLockMethod : ℕ → Bool :=
  let gnt := lineLockBusif c req ai fun n => r.gnt.linelock n && req.linelock n
  (prioCpus c method r).foldl
    (fun g i =>
      if (List.range c.wports).any g then g
      else if req.linelock i && (!g c.wports ||
          getIndexOfAdr c (ai.adrWp i) != getIndexOfWayIndex c ai.wiadrBusif) then
        Function.update g i true
      else g)
    gnt

/-- One turn of the loop over the CPUs for tag reads. -/
def tagrTurn (g : ℕ → Bool) (n : ℕ) : ℕ → Bool :=
  if !g n && !g (n + ipOff c) && !g (n + wpOff c) && (n != c.cores - 1 || !g (idxBusif c)) then
    if n == c.cores - 1 && req.tagr (idxBusif c) then Function.update g (idxBusif c) true
    else if req.tagr n then Function.update g n true
    else if req.tagr (n + ipOff c) then Function.update g (n + ipOff c) true
    else if req.tagr (n + wpOff c) then Function.update g (n + wpOff c) true
    else g
  else g

def tagrMethod : ℕ → Bool :=
  let gnt := fun n => r.gnt.tagr n && req.tagr n
  if !(List.range (c.wports + 1)).any req.tagw then
    (List.range c.cores).foldl (tagrTurn c req) gnt
  else gnt

def tagwMethod : ℕ → Bool :=
  let gnt := fun n => r.gnt.tagw n && req.tagw n
  if !(List.range (idxBusif c + 1)).any (tagrMethod c r req) &&
      !(List.range (c.wports + 1)).any gnt then
    if req.tagw c.wports then Function.update gnt c.wports true
    else
      match (prioCpus c method r).find? req.tagw with
      | some i => Function.update gnt i true
      | none => gnt
  else gnt

/-- `wiadr` -/
def wiadr (n : ℕ) : TWord :=
  if n = idxBusif c then ai.wiadrBusif
  else if wpOff c ≤ n then getWayIndexOfAdr c (ai.adrWp (n - wpOff c)) (ai.wayWp (n - wpOff c))
  else ai.wiadrRp n

def bankIn (b : ℕ) : BankIn where
  req := req.bank b
  keep n := r.gnt.bank b n && req.bank b n
  prio := prioCpus c method r

def bankMethod (b : ℕ) : ℕ → Bool :=
  gntBankLoop (selSysC c) (bankIn c method r req b) (wiadr c ai) (0xffffffff#32)

/-- `wiadr_bank` -/
def wiadrBank (b p : ℕ) : TWord :=
  selWiadrLoop (selSysC c) (bankIn c method r req b) (wiadr c ai) (0xffffffff#32) p

def busIfMethod : ℕ → Bool :=
  (prioCpus c method r).foldl
    (fun g i =>
      if (List.range (idxBusif c)).any g then g
      else if req.busif i then Function.update g i true
      else if req.busif (i + ipOff c) then Function.update g (i + ipOff c) true
      else if req.busif (i + wpOff c) then Function.update g (i + wpOff c) true
      else g)
    fun n => r.gnt.busif n && req.busif n

def grants (tagramReady : Bool) : Lines where
  linelock := lineLockMethod c method r req ai
  tagr := if tagramReady then tagrMethod c r req else fun _ => false
  tagw := if tagramReady then tagwMethod c method r req else fun _ => false
  bank := bankMethod c method r req ai
  busif := busIfMethod c method r req

/-- `TransitionThread` -/
def transition (tagramReady : Bool) : Registers where
  counterReg := (r.counterReg + 1) &&& (BitVec.ofNat 32 c.cores <<< method - 1)
  gnt := grants c method r req ai tagramReady

end Methods

-- ---------------------------------------------------------------------------
-- Loops that grant once
-- ---------------------------------------------------------------------------

/-- One more grant, if there is one to give. -/
def grantTo (g : ℕ → Bool) : Option ℕ → ℕ → Bool
  | none => g
  | some k => Function.update g k true

theorem grantTo_apply (g : ℕ → Bool) (o : Option ℕ) (n : ℕ) :
    grantTo g o n = (g n || o == some n) := by
  cases o with
  | none => simp [grantTo]
  | some k =>
    rcases eq_or_ne n k with rfl | h
    · simp [grantTo]
    · simp [grantTo, Function.update_of_ne h, h.symm]

/-- A loop that does nothing once a grant is given, and else gives the one it picks. -/
theorem foldl_grant {busy : (ℕ → Bool) → Bool} {pick : ℕ → Option ℕ}
    {turn : (ℕ → Bool) → ℕ → ℕ → Bool} {l : List ℕ} {g : ℕ → Bool}
    (hbusy : ∀ g i, busy g = true → turn g i = g)
    (hpick : ∀ i ∈ l, busy g = false → turn g i = grantTo g (pick i))
    (hdone : ∀ i ∈ l, ∀ k, pick i = some k → busy (Function.update g k true) = true) :
    l.foldl turn g = if busy g then g else grantTo g (l.findSome? pick) := by
  have hskip : ∀ (l : List ℕ) (g : ℕ → Bool), busy g = true → l.foldl turn g = g := by
    intro l
    induction l with
    | nil => exact fun _ _ => rfl
    | cons i l ih =>
      intro g hg
      rw [List.foldl_cons, hbusy g i hg]
      exact ih g hg
  split
  · next hg => exact hskip l g hg
  · next hg =>
    rw [Bool.not_eq_true] at hg
    induction l with
    | nil => rfl
    | cons i l ih =>
      rw [List.foldl_cons, hpick i List.mem_cons_self hg, List.findSome?_cons]
      cases hi : pick i with
      | none =>
        exact ih (fun i hi => hpick i (List.mem_cons_of_mem _ hi))
          fun i hi => hdone i (List.mem_cons_of_mem _ hi)
      | some k => exact hskip l _ (hdone i List.mem_cons_self k hi)

-- ---------------------------------------------------------------------------
-- The methods give the grants of `marbiter`
-- ---------------------------------------------------------------------------

section Methods

variable {c : Config} {method : ℕ} {r : Registers} {rv : Arbiter.Registers} {req : Lines}

/-- The way and index address as one word. -/
def wiadrWord (c : Config) (a : ℕ × ℕ) : TWord := BitVec.ofNat 32 a.2 ||| BitVec.ofNat 32 a.1 <<< c.setsLd

/-- The inputs of `marbiter` as `MArbiter` has them. -/
def words (c : Config) (ai : Arbiter.In) : In where
  wiadrBusif := wiadrWord c ai.wiadrBusif
  wiadrRp n := wiadrWord c (ai.wiadrRp n)
  adrWp := ai.adrWp
  wayWp n := BitVec.ofNat 32 (ai.wayWp n)

/-- Ways and indices are those of the cache. -/
structure InCache (c : Config) (ai : Arbiter.In) : Prop where
  busif : ai.wiadrBusif.1 < c.ways ∧ ai.wiadrBusif.2 < c.sets
  rp : ∀ n, (ai.wiadrRp n).1 < c.ways ∧ (ai.wiadrRp n).2 < c.sets
  wp : ∀ n, ai.wayWp n < c.ways

theorem toNat_wiadrWord {a : ℕ × ℕ} (hw : a.1 < c.ways) (hi : a.2 < c.sets) :
    (wiadrWord c a).toNat = a.1 * c.sets + a.2 := by
  have hsets := c.setsLd_range
  have hways := c.waysLd_range
  have hw4 : c.ways ≤ 4 := Nat.pow_le_pow_right (by decide) hways (n := 2)
  have hs13 : c.sets ≤ 2 ^ 13 := Nat.pow_le_pow_right (by decide) hsets.2
  have hmul : a.1 * c.sets ≤ 3 * 2 ^ 13 := Nat.mul_le_mul (by omega) hs13
  have hshift : a.1 <<< c.setsLd = a.1 * c.sets := Nat.shiftLeft_eq _ _
  have h1 : a.1 % 2 ^ 32 = a.1 := Nat.mod_eq_of_lt (by omega)
  have h2 : a.2 % 2 ^ 32 = a.2 := Nat.mod_eq_of_lt (by omega)
  rw [wiadrWord, BitVec.toNat_or, BitVec.toNat_shiftLeft, BitVec.toNat_ofNat, BitVec.toNat_ofNat,
    h1, h2, hshift, Nat.mod_eq_of_lt (by omega), ← hshift, Nat.or_comm,
    ← Nat.shiftLeft_add_eq_or_of_lt hi]

theorem wiadrWord_beq {a b : ℕ × ℕ} (ha : a.1 < c.ways ∧ a.2 < c.sets)
    (hb : b.1 < c.ways ∧ b.2 < c.sets) : (wiadrWord c a == wiadrWord c b) = (a == b) := by
  have hmod : ∀ {x : ℕ × ℕ}, x.2 < c.sets → (x.1 * c.sets + x.2) % c.sets = x.2 ∧
      (x.1 * c.sets + x.2) / c.sets = x.1 := by
    intro x hx
    rw [Nat.mul_comm, Nat.mul_add_mod, Nat.mod_eq_of_lt hx, Nat.mul_add_div c.sets_pos,
      Nat.div_eq_of_lt hx, Nat.add_zero]
    exact ⟨rfl, rfl⟩
  rw [Bool.eq_iff_iff, beq_iff_eq, beq_iff_eq]
  constructor
  · intro h
    have h' := congrArg BitVec.toNat h
    rw [toNat_wiadrWord ha.1 ha.2, toNat_wiadrWord hb.1 hb.2] at h'
    have h1 := (hmod ha.2).2
    have h2 := (hmod ha.2).1
    rw [h', (hmod hb.2).2] at h1
    rw [h', (hmod hb.2).1] at h2
    exact Prod.ext h1.symm h2.symm
  · rintro rfl
    rfl

theorem toNat_getIndexOfAdr (adr : TWord) : (getIndexOfAdr c adr).toNat = indexOf c adr := by
  have hlt : c.sets - 1 < 2 ^ 32 := by
    have h := Nat.pow_le_pow_right (n := 2) (by decide) c.setsLd_range.2
    have hs : c.sets = 2 ^ c.setsLd := rfl
    omega
  have hword : wordNo adr = adr.toNat / 2 ^ 2 := by
    simp [wordNo, wordOf, BitVec.extractLsb', Nat.shiftRight_eq_div_pow]
    omega
  rw [getIndexOfAdr, BitVec.toNat_and, BitVec.toNat_ofNat, Nat.mod_eq_of_lt hlt,
    BitVec.toNat_ushiftRight, Config.sets, Nat.and_two_pow_sub_one_eq_mod, Nat.shiftRight_eq_div_pow,
    indexOf, lineOf, hword, Config.banks, Config.sets, Nat.div_div_eq_div_mul, ← Nat.pow_add,
    Nat.add_comm c.banksLd]

theorem getIndexOfAdr_eq (adr : TWord) : getIndexOfAdr c adr = BitVec.ofNat 32 (indexOf c adr) := by
  rw [← toNat_getIndexOfAdr, BitVec.ofNat_toNat, BitVec.setWidth_eq]

theorem indexOf_lt (adr : TWord) : indexOf c adr < c.sets := Nat.mod_lt _ c.sets_pos

theorem toNat_getIndexOfWayIndex {a : ℕ × ℕ} (hw : a.1 < c.ways) (hi : a.2 < c.sets) :
    (getIndexOfWayIndex c (wiadrWord c a)).toNat = a.2 := by
  have hlt : c.sets - 1 < 2 ^ 32 := by
    have h := Nat.pow_le_pow_right (n := 2) (by decide) c.setsLd_range.2
    have hs : c.sets = 2 ^ c.setsLd := rfl
    omega
  rw [getIndexOfWayIndex, BitVec.toNat_and, BitVec.toNat_ofNat, Nat.mod_eq_of_lt hlt,
    toNat_wiadrWord hw hi, Config.sets, Nat.and_two_pow_sub_one_eq_mod, Nat.mul_comm,
    Nat.mul_add_mod]
  exact Nat.mod_eq_of_lt hi

/-- Both arbiters compare the same indices. -/
theorem index_beq {ai : Arbiter.In} (h : InCache c ai) (n : ℕ) :
    (getIndexOfAdr c ((words c ai).adrWp n) == getIndexOfWayIndex c (words c ai).wiadrBusif) =
      (indexOf c (ai.adrWp n) == ai.wiadrBusif.2) := by
  rw [Bool.eq_iff_iff, beq_iff_eq, beq_iff_eq, ← BitVec.toNat_inj, toNat_getIndexOfAdr]
  show _ = (getIndexOfWayIndex c (wiadrWord c ai.wiadrBusif)).toNat ↔ _
  rw [toNat_getIndexOfWayIndex h.busif.1 h.busif.2]
  rfl

theorem wiadr_words {ai : Arbiter.In} (h : InCache c ai) (n : ℕ) :
    wiadr c (words c ai) n = wiadrWord c (Arbiter.wiadr c ai n) ∧
      (Arbiter.wiadr c ai n).1 < c.ways ∧ (Arbiter.wiadr c ai n).2 < c.sets := by
  unfold wiadr Arbiter.wiadr
  split
  · exact ⟨rfl, h.busif⟩
  · split
    · have hway : (if c.ways = 1 then 0 else ai.wayWp (n - wpOff c)) = ai.wayWp (n - wpOff c) := by
        split
        · next h1 => exact (Nat.lt_one_iff.mp (h1 ▸ h.wp _)).symm
        · rfl
      refine ⟨?_, ?_, indexOf_lt _⟩
      · rw [getWayIndexOfAdr, getIndexOfAdr_eq, wayIndexOf, hway]
        rfl
      · rw [wayIndexOf, hway]
        exact h.wp _
    · exact ⟨rfl, h.rp n⟩

theorem sameAddresses_words {ai : Arbiter.In} (h : InCache c ai) :
    Arbiter.SameAddresses c ai (wiadr c (words c ai)) := by
  intro m n _ _
  rw [(wiadr_words h m).1, (wiadr_words h n).1]
  exact wiadrWord_beq (wiadr_words h m).2 (wiadr_words h n).2

-- The registers of both arbiters hold the same grants, and the same CPU comes first.
variable {ai : Arbiter.In}

theorem prioCpus_eq (hp : getPrioCpu c method r = Arbiter.getPrioCpu c rv) :
    prioCpus c method r = Arbiter.prioCpus c rv := by
  rw [prioCpus, Arbiter.prioCpus, hp]

theorem lineLockBusif_eq (hin : InCache c ai) (hg : r.gnt = rv.gnt) {n : ℕ} (hn : n ≤ c.wports) :
    lineLockBusif c req (words c ai) (fun n => r.gnt.linelock n && req.linelock n) n =
      if n = c.wports then Arbiter.gntLinelockBusif c rv req ai
      else Arbiter.keepLinelock rv req n := by
  have hfold : ∀ (l : List ℕ) (g : ℕ → Bool), (∀ k ∈ l, k < c.wports) →
      l.foldl (fun g n => if g n && getIndexOfAdr c ((words c ai).adrWp n) ==
          getIndexOfWayIndex c (words c ai).wiadrBusif then Function.update g c.wports false
        else g) g =
      Function.update g c.wports (g c.wports && !l.any fun n =>
        g n && indexOf c (ai.adrWp n) == ai.wiadrBusif.2) := by
    intro l
    induction l with
    | nil => intro g _; simp
    | cons k l ih =>
      intro g hl
      have hk : k ≠ c.wports := Nat.ne_of_lt (hl k List.mem_cons_self)
      have hrest : ∀ x : Bool, (l.any fun n => Function.update g c.wports x n &&
          indexOf c (ai.adrWp n) == ai.wiadrBusif.2) =
          l.any fun n => g n && indexOf c (ai.adrWp n) == ai.wiadrBusif.2 := by
        intro x
        rw [Bool.eq_iff_iff, List.any_eq_true, List.any_eq_true]
        constructor
        · rintro ⟨m, hm, hgm⟩
          refine ⟨m, hm, ?_⟩
          rwa [Function.update_of_ne (Nat.ne_of_lt (hl m (List.mem_cons_of_mem _ hm)))] at hgm
        · rintro ⟨m, hm, hgm⟩
          refine ⟨m, hm, ?_⟩
          rwa [Function.update_of_ne (Nat.ne_of_lt (hl m (List.mem_cons_of_mem _ hm)))]
      rw [List.foldl_cons, index_beq hin]
      split
      · next h =>
        rw [ih _ fun m hm => hl m (List.mem_cons_of_mem _ hm), hrest, List.any_cons, h]
        simp
      · next h =>
        rw [ih _ fun m hm => hl m (List.mem_cons_of_mem _ hm), List.any_cons,
          Bool.eq_false_iff.mpr h, Bool.false_or]
  unfold lineLockBusif Arbiter.gntLinelockBusif
  rw [hg]
  have hany : ((List.range c.wports).any fun n => Function.update
      (fun n => rv.gnt.linelock n && req.linelock n) c.wports true n &&
        indexOf c (ai.adrWp n) == ai.wiadrBusif.2) =
      (List.range c.wports).any fun n =>
        Arbiter.keepLinelock rv req n && indexOf c (ai.adrWp n) == ai.wiadrBusif.2 :=
    Arbiter.any_range_congr fun n hn => by
      rw [Function.update_of_ne (Nat.ne_of_lt hn)]
      rfl
  rcases eq_or_ne n c.wports with rfl | hne
  · rw [if_pos rfl]
    split
    · next h =>
      rw [hfold _ _ fun k hk => List.mem_range.mp hk, hany]
      simp only [Bool.and_eq_true, Bool.not_eq_true'] at h
      obtain ⟨hreq, hkeep⟩ := h
      have hgnt : rv.gnt.linelock c.wports = false := by simpa [hreq] using hkeep
      simp [Arbiter.keepLinelock, hreq, hgnt]
    · next h =>
      cases hk : rv.gnt.linelock c.wports <;> cases hr : req.linelock c.wports <;>
        simp_all [Arbiter.keepLinelock]
  · rw [if_neg hne]
    split
    · rw [hfold _ _ fun k hk => List.mem_range.mp hk, Function.update_of_ne hne,
        Function.update_of_ne hne]
      rfl
    · rfl

theorem lineLockMethod_eq (hin : InCache c ai) (hg : r.gnt = rv.gnt)
    (hp : getPrioCpu c method r = Arbiter.getPrioCpu c rv) {n : ℕ} (hn : n ≤ c.wports) :
    lineLockMethod c method r req (words c ai) n = Arbiter.gntLinelock c rv req ai n := by
  have hbusif : ∀ {n}, n ≤ c.wports → lineLockBusif c req (words c ai)
      (fun n => r.gnt.linelock n && req.linelock n) n = _ := fun {_} => lineLockBusif_eq hin hg
  generalize hgdef : lineLockBusif c req (words c ai)
    (fun n => r.gnt.linelock n && req.linelock n) = g at hbusif
  have hgb : g c.wports = Arbiter.gntLinelockBusif c rv req ai := by
    simpa using hbusif (Nat.le_refl _)
  have hgw : ∀ k < c.wports, g k = Arbiter.keepLinelock rv req k := fun k hk => by
    simpa [Nat.ne_of_lt hk] using hbusif (Nat.le_of_lt hk)
  let p := fun i => req.linelock i && (!Arbiter.gntLinelockBusif c rv req ai ||
    indexOf c (ai.adrWp i) != ai.wiadrBusif.2)
  have hloop : lineLockMethod c method r req (words c ai) =
      if (List.range c.wports).any g then g
      else grantTo g ((Arbiter.prioCpus c rv).findSome? (Option.guard p)) := by
    unfold lineLockMethod
    rw [hgdef, prioCpus_eq hp]
    refine foldl_grant (fun g i h => if_pos h) (fun i _ hidle => ?_) fun i hi k hk => ?_
    · have hidle' : ¬ (List.range c.wports).any g = true := by simp [hidle]
      have hindex : (getIndexOfAdr c ((words c ai).adrWp i) !=
          getIndexOfWayIndex c (words c ai).wiadrBusif) =
          (indexOf c (ai.adrWp i) != ai.wiadrBusif.2) := by
        rw [bne, index_beq hin, bne]
      rw [if_neg hidle', hgb, hindex]
      show (if p i then _ else _) = _
      cases hpi : p i <;> simp [Option.guard, hpi, grantTo]
    · have hlt := Arbiter.mem_prioCpus_lt hi
      obtain ⟨-, rfl⟩ : p i ∧ i = k := by simpa [Option.guard] using hk
      exact Arbiter.exists_of_any_range.mpr ⟨i, hlt, Function.update_self ..⟩
  rw [hloop, Arbiter.any_range_congr hgw, List.findSome?_guard]
  unfold Arbiter.gntLinelock
  rcases eq_or_ne n c.wports with rfl | hne
  · have hnot : ((Arbiter.prioCpus c rv).find? p == some c.wports) = false := by
      rw [beq_eq_false_iff_ne]
      intro h
      exact Nat.lt_irrefl _ (Arbiter.mem_prioCpus_lt (List.mem_of_find?_eq_some h))
    rw [if_pos rfl, ← hgb]
    split
    · rfl
    · rw [grantTo_apply, hnot, Bool.or_false]
  · have hlt := Nat.lt_of_le_of_ne hn hne
    rw [if_neg hne, ← hgw n hlt]
    split
    · next h => simp [h]
    · next h => rw [grantTo_apply, Bool.eq_false_iff.mpr h, Bool.not_false, Bool.true_and]

theorem busifPrio_lt {i k : ℕ} (hi : i < c.cores) (h : Arbiter.busifPrio c req i = some k) :
    k < idxBusif c := by
  have hidx : idxBusif c = 3 * c.cores := by
    simp only [idxBusif, Config.rports, Config.wports]
    omega
  have hip : ipOff c = c.cores := rfl
  have hwp : wpOff c = 2 * c.cores := rfl
  unfold Arbiter.busifPrio at h
  by_cases h0 : req.busif i = true
  · rw [if_pos h0] at h
    cases h
    omega
  · rw [if_neg h0] at h
    by_cases h1 : req.busif (i + ipOff c) = true
    · rw [if_pos h1] at h
      cases h
      omega
    · rw [if_neg h1] at h
      split at h
      · cases h
        omega
      · cases h

theorem busIfMethod_eq (hg : r.gnt = rv.gnt)
    (hp : getPrioCpu c method r = Arbiter.getPrioCpu c rv) (n : ℕ) :
    busIfMethod c method r req n = Arbiter.gntBusif c rv req n := by
  let g := Arbiter.keepBusif rv req
  have hloop : busIfMethod c method r req =
      if (List.range (idxBusif c)).any g then g
      else grantTo g ((Arbiter.prioCpus c rv).findSome? (Arbiter.busifPrio c req)) := by
    unfold busIfMethod
    rw [hg, prioCpus_eq hp]
    refine foldl_grant (fun g i h => if_pos h) (fun i _ hidle => ?_) fun i hi k hk => ?_
    · have hidle' : ¬ (List.range (idxBusif c)).any g = true :=
        fun h => Bool.false_ne_true (hidle.symm.trans h)
      refine (if_neg hidle').trans ?_
      unfold Arbiter.busifPrio
      repeat' split
      all_goals rfl
    · have hlt := Arbiter.mem_prioCpus_lt hi
      exact Arbiter.exists_of_any_range.mpr ⟨k, busifPrio_lt hlt hk, Function.update_self ..⟩
  rw [hloop]
  unfold Arbiter.gntBusif
  split
  · next h => simp [show (List.range (idxBusif c)).any (Arbiter.keepBusif rv req) = true from h, g]
  · next h =>
    rw [Bool.not_eq_true] at h
    rw [grantTo_apply, show (List.range (idxBusif c)).any (Arbiter.keepBusif rv req) = false from h,
      Bool.not_false, Bool.true_and]

theorem tagPortPrio_cases (c : Config) (req : Lines) (k : ℕ) :
    (k = c.cores - 1 ∧ Arbiter.tagPortPrio c req k = idxBusif c) ∨
      Arbiter.tagPortPrio c req k = k ∨ Arbiter.tagPortPrio c req k = k + ipOff c ∨
        Arbiter.tagPortPrio c req k = k + wpOff c := by
  unfold Arbiter.tagPortPrio
  split_ifs with hlast
  · exact .inl ⟨hlast.1, rfl⟩
  · exact .inr (.inl rfl)
  · exact .inr (.inr (.inl rfl))
  · exact .inr (.inr (.inr rfl))

/-- The turn of CPU `k` grants to the requester that its port prefers. -/
theorem tagrTurn_eq (c : Config) (req : Lines) (g : ℕ → Bool) (k : ℕ) :
    tagrTurn c req g k = grantTo g
      (if (!g k && !g (k + ipOff c) && !g (k + wpOff c) &&
            (k != c.cores - 1 || !g (idxBusif c))) && req.tagr (Arbiter.tagPortPrio c req k) then
        some (Arbiter.tagPortPrio c req k) else none) := by
  unfold tagrTurn
  cases !g k && !g (k + ipOff c) && !g (k + wpOff c) && (k != c.cores - 1 || !g (idxBusif c)) with
  | false => rfl
  | true =>
    simp only [if_true, Bool.true_and, Arbiter.tagPortPrio, Bool.and_eq_true, beq_iff_eq]
    split_ifs with hbus <;> first | rfl | exact absurd hbus.2 ‹_›

/-- After the turns of the CPUs below `k` the tags of their ports are as `marbiter` grants them. -/
theorem foldl_tagrTurn {g : ℕ → Bool} (hg : ∀ n ≤ idxBusif c, g n = Arbiter.keepTagr rv req n)
    {k : ℕ} (hk : k ≤ c.cores) : ∀ n ≤ idxBusif c,
    (List.range k).foldl (tagrTurn c req) g n =
      if Arbiter.tagPort c n < k then
        Arbiter.keepTagr rv req n || (req.tagr n &&
          Arbiter.tagPortFree c rv req (Arbiter.tagPort c n) &&
          Arbiter.tagPortPrio c req (Arbiter.tagPort c n) == n)
      else Arbiter.keepTagr rv req n := by
  have hidx : idxBusif c = 3 * c.cores := by
    simp only [idxBusif, Config.rports, Config.wports]
    omega
  have hip : ipOff c = c.cores := rfl
  have hwp : wpOff c = 2 * c.cores := rfl
  have hpos := c.cores_pos
  induction k with
  | zero => simpa using hg
  | succ k ih =>
    intro n hn
    have ih := ih (Nat.le_of_succ_le hk)
    have hport : ∀ {m}, m = k ∨ m = k + ipOff c ∨ m = k + wpOff c → Arbiter.tagPort c m = k := by
      rintro m (rfl | rfl | rfl)
      · rw [Arbiter.tagPort, if_neg (by omega), Nat.mod_eq_of_lt (by omega)]
      · rw [Arbiter.tagPort, if_neg (by omega), hip, Nat.add_mod_right, Nat.mod_eq_of_lt (by omega)]
      · rw [Arbiter.tagPort, if_neg (by omega), hwp, Nat.add_mul_mod_self_right,
          Nat.mod_eq_of_lt (by omega)]
    rw [List.range_succ, List.foldl_append, List.foldl_cons, List.foldl_nil]
    generalize hg' : (List.range k).foldl (tagrTurn c req) g = g' at ih ⊢
    have hown : ∀ {m}, m ≤ idxBusif c → Arbiter.tagPort c m = k →
        g' m = Arbiter.keepTagr rv req m := fun {m} hm hmk => by
      rw [ih m hm, hmk, if_neg (Nat.lt_irrefl k)]
    have hlast : Arbiter.tagPort c (idxBusif c) = c.cores - 1 := if_pos rfl
    have hfree : (!g' k && !g' (k + ipOff c) && !g' (k + wpOff c) &&
        (k != c.cores - 1 || !g' (idxBusif c))) = Arbiter.tagPortFree c rv req k := by
      rw [hown (by omega) (hport (.inl rfl)), hown (by omega) (hport (.inr (.inl rfl))),
        hown (by omega) (hport (.inr (.inr rfl))), Arbiter.tagPortFree]
      rcases eq_or_ne k (c.cores - 1) with heq | hne
      · rw [hown (Nat.le_refl _) (hlast.trans heq.symm)]
        simp [Bool.and_assoc]
      · have hbne : (k != c.cores - 1) = true := bne_iff_ne.mpr hne
        simp [hbne, Bool.and_assoc]
    have hturn : tagrTurn c req g' k = grantTo g'
        (if Arbiter.tagPortFree c rv req k && req.tagr (Arbiter.tagPortPrio c req k) then
          some (Arbiter.tagPortPrio c req k) else none) := by
      rw [tagrTurn_eq, hfree]
    have hprio : Arbiter.tagPort c (Arbiter.tagPortPrio c req k) = k := by
      rcases tagPortPrio_cases c req k with ⟨hk, h⟩ | h | h | h <;> rw [h]
      · exact hlast.trans hk.symm
      · exact hport (.inl rfl)
      · exact hport (.inr (.inl rfl))
      · exact hport (.inr (.inr rfl))
    have hpick : ((if Arbiter.tagPortFree c rv req k && req.tagr (Arbiter.tagPortPrio c req k) then
        some (Arbiter.tagPortPrio c req k) else none) == some n) =
        (req.tagr n && Arbiter.tagPortFree c rv req k && Arbiter.tagPortPrio c req k == n) := by
      rcases eq_or_ne (Arbiter.tagPortPrio c req k) n with rfl | hne
      · cases Arbiter.tagPortFree c rv req k <;>
          cases req.tagr (Arbiter.tagPortPrio c req k) <;> simp
      · split <;> simp [hne]
    rw [hturn, grantTo_apply, hpick, ih n hn]
    have hother : Arbiter.tagPort c n ≠ k → (Arbiter.tagPortPrio c req k == n) = false := by
      intro hne
      rw [beq_eq_false_iff_ne]
      rintro rfl
      exact hne hprio
    rcases Nat.lt_trichotomy (Arbiter.tagPort c n) k with hlt | heq | hgt
    · rw [if_pos hlt, if_pos (by omega), hother (by omega), Bool.and_false, Bool.or_false]
    · rw [if_neg (by omega), if_pos (by omega), heq]
    · rw [if_neg (by omega), if_neg (by omega), hother (by omega), Bool.and_false, Bool.or_false]

theorem tagrMethod_eq (hg : r.gnt = rv.gnt) {n : ℕ} (hn : n ≤ idxBusif c) :
    tagrMethod c r req n = Arbiter.gntTagr c rv req n := by
  unfold tagrMethod Arbiter.gntTagr
  rw [hg]
  split
  · next h =>
    have hkeep : ∀ n ≤ idxBusif c,
        (fun n => rv.gnt.tagr n && req.tagr n) n = Arbiter.keepTagr rv req n := fun _ _ => rfl
    rw [foldl_tagrTurn hkeep (Nat.le_refl _) n hn, if_pos Arbiter.tagPort_lt, h,
      Bool.true_and]
  · next h =>
    rw [Bool.eq_false_iff.mpr h]
    simp [Arbiter.keepTagr]

theorem tagwMethod_eq (hg : r.gnt = rv.gnt)
    (hp : getPrioCpu c method r = Arbiter.getPrioCpu c rv) (n : ℕ) :
    tagwMethod c method r req n = Arbiter.gntTagw c rv req n := by
  have hkeep : (fun n => rv.gnt.tagw n && req.tagw n) = Arbiter.keepTagw rv req := rfl
  unfold tagwMethod Arbiter.gntTagw
  rw [Arbiter.any_range_congr fun n hn => tagrMethod_eq hg (Nat.le_of_lt_succ hn), hg,
    prioCpus_eq hp, hkeep]
  split
  · next h =>
    rw [h]
    split
    · show grantTo (Arbiter.keepTagw rv req) (some c.wports) n = _
      have hbusif : (some c.wports == some n) = (n == c.wports) := by
        rw [Bool.eq_iff_iff, beq_iff_eq, beq_iff_eq, Option.some_inj]
        exact eq_comm
      rw [grantTo_apply, Bool.true_and, hbusif]
    · have hmatch : (match (Arbiter.prioCpus c rv).find? req.tagw with
          | some i => Function.update (Arbiter.keepTagw rv req) i true
          | none => Arbiter.keepTagw rv req) =
          grantTo (Arbiter.keepTagw rv req) ((Arbiter.prioCpus c rv).find? req.tagw) := by
        cases (Arbiter.prioCpus c rv).find? req.tagw <;> rfl
      rw [hmatch, grantTo_apply, Bool.true_and]
  · next h =>
    rw [Bool.eq_false_iff.mpr h]
    simp [Arbiter.keepTagw]

theorem bankMethod_eq (hin : InCache c ai) (hg : r.gnt = rv.gnt)
    (hp : getPrioCpu c method r = Arbiter.getPrioCpu c rv) (b : ℕ) {n : ℕ} (hn : n ≤ idxBusif c) :
    bankMethod c method r req (words c ai) b n = Arbiter.gntBank c rv req ai b n := by
  have hbank : bankIn c method r req b = Arbiter.bankIn c rv req b := by
    rw [bankIn, Arbiter.bankIn, prioCpus_eq hp, hg]
    rfl
  rw [bankMethod, hbank]
  exact Arbiter.gntBankLoop_eq (sameAddresses_words hin) hn

/-- With the same registers and the same CPU first, the same grants. -/
theorem grants_eq (hin : InCache c ai) (hg : r.gnt = rv.gnt)
    (hp : getPrioCpu c method r = Arbiter.getPrioCpu c rv) (ready : Bool) :
    Arbiter.Agree c (grants c method r req (words c ai) ready)
      (Arbiter.gntReady c rv req ai ready) := by
  unfold Arbiter.gntReady grants
  cases ready with
  | true =>
    exact ⟨fun _ => lineLockMethod_eq hin hg hp, fun _ => tagrMethod_eq hg,
      fun n _ => tagwMethod_eq hg hp n, fun b _ => bankMethod_eq hin hg hp b,
      fun n _ => busIfMethod_eq hg hp n⟩
  | false =>
    exact ⟨fun _ => lineLockMethod_eq hin hg hp, fun _ _ => rfl, fun _ _ => rfl,
      fun b _ => bankMethod_eq hin hg hp b, fun n _ => busIfMethod_eq hg hp n⟩

/-- Where `marbiter` grants a bank, `MArbiter` puts the same address on the RAM port. -/
theorem wiadrBank_eq (hin : InCache c ai) (hg : r.gnt = rv.gnt)
    (hp : getPrioCpu c method r = Arbiter.getPrioCpu c rv) {b n : ℕ} (hn : n ≤ idxBusif c)
    (hgnt : Arbiter.gntBank c rv req ai b n = true) :
    wiadrBank c method r req (words c ai) b (ramPort c n) =
      wiadrWord c (Arbiter.selWiadr c rv req ai b (ramPort c n)) := by
  have hbank : bankIn c method r req b = Arbiter.bankIn c rv req b := by
    rw [bankIn, Arbiter.bankIn, prioCpus_eq hp, hg]
    rfl
  obtain ⟨k, hk⟩ := Option.isSome_iff_exists.mp (Arbiter.selPort_isSome hn hgnt)
  rw [wiadrBank, hbank, selWiadrLoop, Arbiter.selPortLoop_eq, Arbiter.selWiadr]
  simp only [hk, Select.isSet_entry, Option.isSome_some, if_true, Select.port_entry]
  exact (wiadr_words hin k).1

end Methods

-- ---------------------------------------------------------------------------
-- Runs
-- ---------------------------------------------------------------------------

/-- The reset branches of `TransitionThread` and of `marbiter`. -/
def reset : Registers := ⟨0xffff, Lines.none⟩

def resetVhdl (c : Config) (method : ℕ) : Arbiter.Registers :=
  ⟨2 ^ (max 0 (c.coresLd + method - 1) + 1) - 1, BitVec.allOnes 16, Lines.none⟩

section Runs

variable (c : Config) (method : ℕ)

def step (r : Registers) (i : Arbiter.Input) : Registers :=
  transition c method r i.req (words c i.ai) i.tagramReady

/-- Both arbiters give the same grants in a cycle, and the same address to each RAM port that has
one. -/
structure SameGrants (r : Registers) (rv : Arbiter.Registers) (i : Arbiter.Input) : Prop where
  grants : Arbiter.Agree c (grants c method r i.req (words c i.ai) i.tagramReady)
    (Arbiter.grants c rv i)
  wiadr : ∀ b, ∀ n ≤ idxBusif c, (Arbiter.grants c rv i).bank b n = true →
    wiadrBank c method r i.req (words c i.ai) b (ramPort c n) =
      wiadrWord c (Arbiter.selWiadr c rv i.req i.ai b (ramPort c n))

/-- The grants in the registers agree, and the priority counters do in the bits that matter. -/
structure Synced (r : Registers) (rv : Arbiter.Registers) : Prop where
  gnt : Arbiter.Agree c r.gnt rv.gnt
  counter : c.coresLd = 0 ∨ (c.coresLd + method ≤ 16 ∧
    r.counterReg.toNat % 2 ^ (c.coresLd + method) = rv.counter % 2 ^ (c.coresLd + method))

variable {c method} {r : Registers} {rv : Arbiter.Registers} {i : Arbiter.Input}

theorem Synced.prio (hm : c.arbiterMethod = some method) (h : Synced c method r rv) :
    getPrioCpu c method r = Arbiter.getPrioCpu c rv := by
  unfold getPrioCpu Arbiter.getPrioCpu
  rw [BitVec.toNat_ushiftRight, Nat.shiftRight_eq_div_pow, Config.cores, hm]
  rcases Nat.eq_zero_or_pos c.coresLd with h0 | hpos
  · rw [h0, if_neg (Nat.lt_irrefl 0), Nat.pow_zero, Nat.mod_one]
  · obtain ⟨-, hc⟩ := h.counter.resolve_left (Nat.ne_of_gt hpos)
    have hdiv : ∀ x : ℕ, x / 2 ^ method % 2 ^ c.coresLd =
        x % 2 ^ (c.coresLd + method) / 2 ^ method := fun x => by
      rw [← Nat.mod_mul_right_div_self, ← Nat.pow_add, Nat.add_comm method]
    rw [if_pos hpos, hdiv, hc]
    exact (hdiv rv.counter).symm

theorem Synced.sameGrants (hm : c.arbiterMethod = some method) (h : Synced c method r rv)
    (hin : InCache c i.ai) : SameGrants c method r rv i := by
  -- The registers of `marbiter` with what `MArbiter` has at the places that no requester uses.
  let rv' : Arbiter.Registers := { rv with gnt := r.gnt }
  have hprio : getPrioCpu c method r = Arbiter.getPrioCpu c rv' :=
    show _ = Arbiter.getPrioCpu c rv from h.prio hm
  have hcpus : Arbiter.prioCpus c rv' = Arbiter.prioCpus c rv := rfl
  have hagree : Arbiter.Agree c rv'.gnt rv.gnt := h.gnt
  have heq : Arbiter.Agree c (grants c method r i.req (words c i.ai) i.tagramReady)
      (Arbiter.gntReady c rv' i.req i.ai i.tagramReady) := grants_eq hin rfl hprio i.tagramReady
  have hgnt : Arbiter.Agree c (Arbiter.gntReady c rv' i.req i.ai i.tagramReady)
      (Arbiter.grants c rv i) := by
    have hall : Arbiter.Agree c (Arbiter.gnt c rv' i.req i.ai) (Arbiter.gnt c rv i.req i.ai) :=
      hagree.gnt hcpus
    unfold Arbiter.grants Arbiter.gntReady
    split
    · exact hall
    · exact ⟨hall.linelock, fun _ _ => rfl, fun _ _ => rfl, hall.bank, hall.busif⟩
  constructor
  · exact ⟨fun n hn => (heq.linelock n hn).trans (hgnt.linelock n hn),
      fun n hn => (heq.tagr n hn).trans (hgnt.tagr n hn),
      fun n hn => (heq.tagw n hn).trans (hgnt.tagw n hn),
      fun b n hn => (heq.bank b n hn).trans (hgnt.bank b n hn),
      fun n hn => (heq.busif n hn).trans (hgnt.busif n hn)⟩
  · intro b n hn hb
    have hb' : Arbiter.gntBank c rv i.req i.ai b n = true := by
      unfold Arbiter.grants Arbiter.gntReady at hb
      split at hb <;> exact hb
    rw [← hagree.gntBank hcpus hn] at hb'
    have hg : r.gnt = rv'.gnt := rfl
    rw [wiadrBank_eq hin hg hprio hn hb', hagree.selWiadr hcpus]

/-- The counters of the two versions wrap at different widths, but not below the bits in use. -/
theorem Synced.step (hm : c.arbiterMethod = some method) (h : Synced c method r rv)
    (hin : InCache c i.ai) :
    Synced c method (step c method r i) (Arbiter.step c rv i) where
  gnt := (h.sameGrants hm hin).grants
  counter := by
    refine h.counter.imp id ?_
    rintro ⟨hle, hc⟩
    refine ⟨hle, ?_⟩
    have hpow : 2 ^ (c.coresLd + method) ≤ 2 ^ 16 := Nat.pow_le_pow_right (by decide) hle
    have hcores : c.cores ≤ 2 ^ (c.coresLd + method) :=
      Nat.pow_le_pow_right (by decide) (Nat.le_add_right _ _)
    have hmask : (BitVec.ofNat 32 c.cores <<< method - 1).toNat = 2 ^ (c.coresLd + method) - 1 := by
      have hone : 1 ≤ 2 ^ (c.coresLd + method) := Nat.one_le_two_pow
      have hshift : (BitVec.ofNat 32 c.cores <<< method).toNat = 2 ^ (c.coresLd + method) := by
        have hmul : c.cores * 2 ^ method = 2 ^ (c.coresLd + method) := (Nat.pow_add ..).symm
        have hlt : c.cores % 2 ^ 32 = c.cores := Nat.mod_eq_of_lt (by omega)
        rw [BitVec.toNat_shiftLeft, BitVec.toNat_ofNat, hlt, Nat.shiftLeft_eq, hmul,
          Nat.mod_eq_of_lt (by omega)]
      rw [BitVec.toNat_sub_of_le (by rw [BitVec.le_def, hshift]; exact hone), hshift]
      rfl
    show ((r.counterReg + 1) &&& (BitVec.ofNat 32 c.cores <<< method - 1)).toNat % _ = _
    rw [BitVec.toNat_and, hmask, Nat.and_two_pow_sub_one_eq_mod, Nat.mod_mod, BitVec.toNat_add]
    have hcounter : (Arbiter.step c rv i).counter =
        (rv.counter + 1) % 2 ^ (max 0 (c.coresLd + method - 1) + 1) := by
      simp only [Arbiter.step, Arbiter.combReady, Arbiter.comb, hm]
    have hdvd : 2 ^ (c.coresLd + method) ∣ 2 ^ 32 := Nat.pow_dvd_pow 2 (by omega)
    have hdvd' : 2 ^ (c.coresLd + method) ∣ 2 ^ (max 0 (c.coresLd + method - 1) + 1) :=
      Nat.pow_dvd_pow 2 (by omega)
    have hnext : (r.counterReg.toNat + 1) % 2 ^ (c.coresLd + method) =
        (rv.counter + 1) % 2 ^ (c.coresLd + method) := by
      rw [Nat.add_mod, hc, ← Nat.add_mod]
    rw [hcounter, Nat.mod_mod_of_dvd _ hdvd, Nat.mod_mod_of_dvd _ hdvd']
    exact hnext

theorem synced_reset (h : c.coresLd = 0 ∨ c.coresLd + method ≤ 16) :
    Synced c method reset (resetVhdl c method) where
  gnt := ⟨fun _ _ => rfl, fun _ _ => rfl, fun _ _ => rfl, fun _ _ _ => rfl, fun _ _ => rfl⟩
  counter := by
    rcases Nat.eq_zero_or_pos c.coresLd with h0 | hpos
    · exact .inl h0
    · have hle := h.resolve_left (Nat.ne_of_gt hpos)
      refine .inr ⟨hle, ?_⟩
      obtain ⟨d, hd⟩ := Nat.exists_eq_add_of_le hle
      have hwidth : max 0 (c.coresLd + method - 1) + 1 = c.coresLd + method := by omega
      have hdvd : 2 ^ (c.coresLd + method) ∣ 2 ^ 16 := Nat.pow_dvd_pow 2 hle
      have hmod : ∀ {x y : ℕ}, 0 < x → 0 < y → x ∣ y → (y - 1) % x = x - 1 := by
        rintro x _ hx hy ⟨k, rfl⟩
        have hk : 0 < k := Nat.pos_of_mul_pos_left hy
        obtain ⟨j, rfl⟩ := Nat.exists_eq_succ_of_ne_zero (Nat.ne_of_gt hk)
        have hsplit : x * j.succ - 1 = (x - 1) + x * j := by
          rw [Nat.mul_succ]
          omega
        rw [hsplit, Nat.add_mul_mod_self_left, Nat.mod_eq_of_lt (by omega)]
      have hpow : 0 < 2 ^ (c.coresLd + method) := Nat.two_pow_pos _
      show (2 ^ 16 - 1) % _ = (2 ^ (max 0 (c.coresLd + method - 1) + 1) - 1) % _
      rw [hwidth, hmod hpow (by decide) hdvd, hmod hpow hpow (Nat.dvd_refl _)]

/-- All write ports request the line lock. -/
def allRequest (c : Config) : Arbiter.Input where
  req := { Lines.none with linelock := fun n => decide (n < c.wports) }
  ai := ⟨(0, 0), fun _ => (0, 0), fun _ => 0, fun _ => 0⟩
  tagramReady := true

theorem inCache_allRequest (c : Config) : InCache c (allRequest c).ai :=
  ⟨⟨c.ways_pos, c.sets_pos⟩, fun _ => ⟨c.ways_pos, c.sets_pos⟩, fun _ => c.ways_pos⟩

/-- The CPU that comes first gets it, and no other. -/
theorem gntLinelock_allRequest (hr : rv.gnt = Lines.none) {n : ℕ} (hn : n < c.wports) :
    Arbiter.gntLinelock c rv (allRequest c).req (allRequest c).ai n =
      (Arbiter.getPrioCpu c rv % c.cores == n) := by
  have hkeep : ∀ k, Arbiter.keepLinelock rv (allRequest c).req k = false := fun k => by
    simp [Arbiter.keepLinelock, hr, Lines.none]
  have hbusif : Arbiter.gntLinelockBusif c rv (allRequest c).req (allRequest c).ai = false := by
    rw [Arbiter.gntLinelockBusif, hkeep, Bool.false_or]
    simp [allRequest]
  obtain ⟨d, hd⟩ := Nat.exists_eq_succ_of_ne_zero (Nat.ne_of_gt c.cores_pos)
  have hfirst : Arbiter.getPrioCpu c rv % c.cores < c.wports := Nat.mod_lt _ c.cores_pos
  have hcpus : Arbiter.prioCpus c rv = (0 + Arbiter.getPrioCpu c rv) % c.cores ::
      ((List.range d).map Nat.succ).map fun n => (n + Arbiter.getPrioCpu c rv) % c.cores := by
    rw [Arbiter.prioCpus, hd, List.range_succ_eq_map, List.map_cons]
  have hany : (List.range c.wports).any (Arbiter.keepLinelock rv (allRequest c).req) = false :=
    Arbiter.any_range_eq_false.mpr fun k _ => hkeep k
  rw [Arbiter.gntLinelock, if_neg (Nat.ne_of_lt hn), hkeep, hbusif, hany, hcpus, Nat.zero_add,
    List.find?_cons]
  have htrue : (allRequest c).req.linelock (Arbiter.getPrioCpu c rv % c.cores) = true :=
    decide_eq_true hfirst
  rw [htrue]
  simp

/-- With wider counters another CPU comes first after reset. -/
theorem prio_reset_ne (hm : c.arbiterMethod = some method) (hld : 0 < c.coresLd)
    (hw : 16 < c.coresLd + method) :
    getPrioCpu c method reset < Arbiter.getPrioCpu c (resetVhdl c method) := by
  have hwidth : max 0 (c.coresLd + method - 1) + 1 = c.coresLd + method := by omega
  have hones : ∀ k, (2 ^ (k + method) - 1) / 2 ^ method = 2 ^ k - 1 := by
    intro k
    have hpow : 0 < 2 ^ method := Nat.two_pow_pos _
    have hsplit : 2 ^ (k + method) - 1 = 2 ^ method * (2 ^ k - 1) + (2 ^ method - 1) := by
      have hk : 2 ^ k * 2 ^ method = 2 ^ method * (2 ^ k - 1) + 2 ^ method := by
        obtain ⟨j, hj⟩ := Nat.exists_eq_add_of_le (Nat.one_le_two_pow (n := k))
        rw [hj, Nat.add_sub_cancel_left]
        ring
      rw [Nat.pow_add, hk]
      omega
    rw [hsplit, Nat.mul_add_div hpow, Nat.div_eq_of_lt (by omega), Nat.add_zero]
  have hvhdl : Arbiter.getPrioCpu c (resetVhdl c method) = 2 ^ c.coresLd - 1 := by
    rw [Arbiter.getPrioCpu, if_pos hld, hm]
    show (2 ^ (max 0 (c.coresLd + method - 1) + 1) - 1) / 2 ^ method % 2 ^ c.coresLd = _
    rw [hwidth, hones]
    exact Nat.mod_eq_of_lt (Nat.sub_lt (Nat.two_pow_pos _) Nat.one_pos)
  have hsysc : (0xffff#32 >>> method).toNat < 2 ^ c.coresLd - 1 := by
    rw [BitVec.toNat_ushiftRight, Nat.shiftRight_eq_div_pow]
    have hpos : 2 ≤ 2 ^ c.coresLd := by
      have h := Nat.pow_le_pow_right (n := 2) (by decide) hld
      simpa using h
    rcases Nat.lt_or_ge method 16 with hlt | hge
    · obtain ⟨d, hd⟩ := Nat.exists_eq_add_of_lt hlt
      have hmul : 2 ^ 16 = 2 ^ (d + 1) * 2 ^ method := by rw [hd, ← Nat.pow_add]; congr 1; omega
      have hdiv : (0xffff#32).toNat / 2 ^ method < 2 ^ (d + 1) := by
        rw [Nat.div_lt_iff_lt_mul (Nat.two_pow_pos _), ← hmul]
        decide
      have hle : 2 ^ (d + 1 + 1) ≤ 2 ^ c.coresLd := Nat.pow_le_pow_right (by decide) (by omega)
      rw [Nat.pow_succ] at hle
      have h1 : 1 ≤ 2 ^ (d + 1) := Nat.one_le_two_pow
      omega
    · have hle : 2 ^ 16 ≤ 2 ^ method := Nat.pow_le_pow_right (by decide) hge
      rw [Nat.div_eq_of_lt (Nat.lt_of_lt_of_le (by decide) hle)]
      omega
  rw [hvhdl]
  exact Nat.lt_of_le_of_lt (Nat.mod_le _ _) hsysc

/-- Two CPUs as in `config.h`. -/
def twoCpus : Config :=
  ⟨1, 2, 9, 0, 2, true, some 7, 0, by decide, by decide, one_way, by decide⟩

/-- Four CPUs that take turns of 2 ^ 15 clocks: CPU 1 comes first in `MArbiter`, CPU 3 in
`marbiter`. -/
def fourSlowCpus : Config :=
  ⟨2, 1, 1, 0, 1, true, some 15, 0, one_bankLd, one_setLd, one_way, one_ramPort⟩

end Runs

end ParaNut.SysC.MArbiter
