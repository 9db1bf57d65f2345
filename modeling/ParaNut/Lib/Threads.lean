import ParaNut.Lib.Sync
import Mathlib.Data.Set.Function
import Mathlib.Data.Set.Lattice
import Mathlib.Logic.Function.Basic
import Mathlib.Order.CompletePartialOrder

/-!
# Threads over shared memory

Threads load and store shared locations one access at a time, set signals and
wait for them, and mark where a call begins and ends. The rules are those of
ownership: a location belongs to at most one thread, setting a signal gives
the locations of its resource away, and the one thread that waits for it takes
them over. A program that is safe for the locations it owns stays safe under
every schedule.
-/

namespace ParaNut.Lib.Threads

/-- A program of one thread: its next access and how it continues. -/
inductive Prog (L V R : Type*)
  | done
  | load (x : L) (k : V → Prog L V R)
  | store (x : L) (v : V) (k : Prog L V R)
  | signal (i : ℕ) (k : Prog L V R)
  | await (i : ℕ) (k : Prog L V R)
  | call (r : R) (k : Prog L V R)
  | ret (k : Prog L V R)

/-- The call that comes next, if one does. -/
def Prog.nextCall {L V R : Type*} : Prog L V R → Option R
  | .call r _ => some r
  | _ => none

/-- The location that is stored to next, if one is. -/
def Prog.nextStore {L V R : Type*} : Prog L V R → Option L
  | .store x _ _ => some x
  | _ => none

structure Thread (L V R : Type*) where
  pending : Prog L V R
  /-- The call that the thread is in. -/
  inside : Option R

structure State (P L V R W : Type*) where
  mem : L → V
  sync : W
  thread : P → Thread L V R

/-- Signals kept in a shared word. Those that are no bit of it have no meaning. -/
structure Signals (W : Type*) where
  set : ℕ → W → W
  isSet : ℕ → W → Bool
  valid : ℕ → Prop
  isSet_set : ∀ i j w, valid i → valid j →
    (isSet i (set j w) = true ↔ i = j ∨ isSet i w = true)

/-- What is handed over with each signal, and what the calls need. -/
structure Resources (P L V R : Type*) where
  /-- The thread that waits for signals. -/
  taker : P
  foot : ℕ → Set L
  res : ℕ → (L → V) → Prop
  locs : R → Set L
  pre : R → (L → V) → Prop
  post : P → Set L → (L → V) → Prop
  /-- A signal that is promised to be set when the thread makes the call. -/
  gate : P → R → Option ℕ
  disjoint : ∀ i j, i ≠ j → Disjoint (foot i) (foot j)
  res_congr : ∀ i m m', Set.EqOn m m' (foot i) → res i m → res i m'
  pre_congr : ∀ r m m', Set.EqOn m m' (locs r) → pre r m → pre r m'
  post_congr : ∀ p O m m', Set.EqOn m m' O → post p O m → post p O m'

variable {P L V R W : Type*} (σ : Signals W) (ρ : Resources P L V R)

/-- The program respects the ownership of `O`, starting in memory `m` within the call `cur`. -/
def Safe (p : P) : Prog L V R → Option R → Set L → (L → V) → Prop
  | .done, _, O, m => ρ.post p O m
  | .load x k, cur, O, m => x ∈ O ∧ Safe p (k (m x)) cur O m
  | .store x v k, cur, O, m =>
    x ∈ O ∧ ∀ m', m' x = v → Set.EqOn m m' (O \ {x}) → Safe p k cur O m'
  | .signal i k, cur, O, m =>
    σ.valid i ∧ cur = none ∧ ρ.foot i ⊆ O ∧ ρ.res i m ∧ Safe p k none (O \ ρ.foot i) m
  | .await i k, cur, O, m =>
    σ.valid i ∧ p = ρ.taker ∧ ∀ m', Set.EqOn m m' O → (ρ.foot i ⊆ O ∨ ρ.res i m') →
      Safe p k cur (O ∪ ρ.foot i) m'
  | .call r k, _, O, m =>
    match ρ.gate p r with
    | none => ρ.locs r ⊆ O ∧ ρ.pre r m ∧ Safe p k (some r) O m
    | some i =>
      σ.valid i ∧ p = ρ.taker ∧ ∀ m', Set.EqOn m m' O → (ρ.foot i ⊆ O ∨ ρ.res i m') →
        ρ.locs r ⊆ O ∪ ρ.foot i ∧ ρ.pre r m' ∧ Safe p k (some r) (O ∪ ρ.foot i) m'
  | .ret k, _, O, m => Safe p k none O m

variable {σ ρ} {p : P} {cur : Option R} {O : Set L} {m m' : L → V}

/-- Only the contents of owned locations matter. -/
theorem Safe.congr {k : Prog L V R} (h : Safe σ ρ p k cur O m) (heq : Set.EqOn m m' O) :
    Safe σ ρ p k cur O m' := by
  induction k generalizing cur O m m' with
  | done => exact ρ.post_congr p O m m' heq h
  | load x k ih =>
    obtain ⟨hx, hk⟩ := h
    exact ⟨hx, heq hx ▸ ih _ hk heq⟩
  | store x v k ih =>
    obtain ⟨hx, hk⟩ := h
    refine ⟨hx, fun m'' hv hs => hk m'' hv fun y hy => ?_⟩
    rw [heq hy.1, hs hy]
  | signal i k ih =>
    obtain ⟨hi, hcur, hfoot, hres, hk⟩ := h
    exact ⟨hi, hcur, hfoot, ρ.res_congr i m m' (heq.mono hfoot) hres,
      ih hk (heq.mono Set.sdiff_subset)⟩
  | await i k ih =>
    obtain ⟨hi, hp, hk⟩ := h
    exact ⟨hi, hp, fun m'' hs => hk m'' (heq.trans hs)⟩
  | call r k ih =>
    unfold Safe at h ⊢
    cases hg : ρ.gate p r with
    | none =>
      rw [hg] at h
      obtain ⟨hlocs, hpre, hk⟩ := h
      exact ⟨hlocs, ρ.pre_congr r m m' (heq.mono hlocs) hpre, ih hk heq⟩
    | some i =>
      rw [hg] at h
      obtain ⟨hi, hp, hk⟩ := h
      exact ⟨hi, hp, fun m'' hs => hk m'' (heq.trans hs)⟩
  | ret k ih => exact @ih none _ _ _ h heq

/-- A thread about to make a gated call finds the signal set. -/
def Gated (σ : Signals W) (ρ : Resources P L V R) (s : State P L V R W) (p : P) : Prop :=
  ∀ r i, (s.thread p).pending.nextCall = some r → ρ.gate p r = some i → σ.isSet i s.sync = true

/-- Who owns what: the threads share nothing, and what a set signal hands over is free until the
taker has it. -/
structure Owns (σ : Signals W) (ρ : Resources P L V R) (mem : L → V) (sync : W)
    (O : P → Set L) : Prop where
  apart : ∀ p q, p ≠ q → Disjoint (O p) (O q)
  handed : ∀ i, σ.valid i → σ.isSet i sync = true →
    ρ.foot i ⊆ O ρ.taker ∨ (ρ.res i mem ∧ ∀ p, Disjoint (ρ.foot i) (O p))

structure Safety (σ : Signals W) (ρ : Resources P L V R) (s : State P L V R W)
    (O : P → Set L) : Prop where
  owns : Owns σ ρ s.mem s.sync O
  safe : ∀ p, Safe σ ρ p (s.thread p).pending (s.thread p).inside (O p) s.mem
  inside : ∀ p r, (s.thread p).inside = some r → ρ.locs r ⊆ O p

variable {s : State P L V R W} {Own : P → Set L} {mem : L → V} {sync : W} {i : ℕ}

/-- A store to an owned location disturbs nobody else. -/
theorem Owns.store [DecidableEq L] (h : Owns σ ρ mem sync Own) {x : L} {v : V} (hx : x ∈ Own p) :
    Owns σ ρ (Function.update mem x v) sync Own := by
  refine ⟨h.apart, fun i hi hset => ?_⟩
  rcases h.handed i hi hset with hin | ⟨hres, hdisj⟩
  · exact .inl hin
  · refine .inr ⟨ρ.res_congr i _ _ (fun y hy => ?_) hres, hdisj⟩
    have hne : y ≠ x := by
      rintro rfl
      exact Set.disjoint_left.mp (hdisj p) hy hx
    rw [Function.update_of_ne hne]

/-- A thread stores only to what it owns. -/
theorem Safety.stores (h : Safety σ ρ s Own) {x : L}
    (hx : (s.thread p).pending.nextStore = some x) : x ∈ Own p := by
  have hp := h.safe p
  cases hk : (s.thread p).pending with
  | store y v k =>
    rw [hk] at hp hx
    obtain rfl : y = x := Option.some.inj hx
    exact hp.1
  | _ => simp [hk, Prog.nextStore] at hx

/-- While a thread is in a call no other thread is about to store to the locations of the call. -/
theorem Safety.undisturbed (h : Safety σ ρ s Own) {q : P} {r : R} {x : L}
    (hr : (s.thread p).inside = some r) (hqp : q ≠ p)
    (hx : (s.thread q).pending.nextStore = some x) : x ∉ ρ.locs r :=
  fun hlocs => Set.disjoint_left.mp (h.owns.apart q p hqp) (h.stores hx) (h.inside p r hr hlocs)

theorem Safety.returned (h : Safety σ ρ s Own) (hk : (s.thread p).pending = .done) :
    ρ.post p (Own p) s.mem := by
  have hp := h.safe p
  rwa [hk] at hp

variable [DecidableEq P]

/-- The taker takes over what a set signal hands over. -/
theorem Owns.take (h : Owns σ ρ mem sync Own) (hi : σ.valid i) (hset : σ.isSet i sync = true) :
    Owns σ ρ mem sync (Function.update Own ρ.taker (Own ρ.taker ∪ ρ.foot i)) := by
  have hfree : ∀ q, q ≠ ρ.taker → Disjoint (ρ.foot i) (Own q) := by
    intro q hq
    rcases h.handed i hi hset with hsub | ⟨_, hdisj⟩
    · exact (h.apart _ _ hq.symm).mono_left hsub
    · exact hdisj q
  constructor
  · intro p q hpq
    rcases eq_or_ne p ρ.taker with rfl | hp
    · rw [Function.update_self, Function.update_of_ne hpq.symm]
      exact (h.apart _ _ hpq).union_left (hfree q hpq.symm)
    · rw [Function.update_of_ne hp]
      rcases eq_or_ne q ρ.taker with rfl | hq
      · rw [Function.update_self]
        exact (h.apart _ _ hpq).union_right (hfree p hp).symm
      · rw [Function.update_of_ne hq]
        exact h.apart p q hpq
  · intro j hj hjset
    rw [Function.update_self]
    rcases eq_or_ne j i with rfl | hji
    · exact .inl Set.subset_union_right
    · rcases h.handed j hj hjset with hsub | ⟨hres, hdisj⟩
      · exact .inl (hsub.trans Set.subset_union_left)
      · refine .inr ⟨hres, fun q => ?_⟩
        rcases eq_or_ne q ρ.taker with rfl | hq
        · rw [Function.update_self]
          exact (hdisj _).union_right (ρ.disjoint j i hji)
        · rw [Function.update_of_ne hq]
          exact hdisj q

/-- A thread that sets a signal gives its resource away. -/
theorem Owns.give (h : Owns σ ρ mem sync Own) (hi : σ.valid i) (hfoot : ρ.foot i ⊆ Own p)
    (hres : ρ.res i mem) :
    Owns σ ρ mem (σ.set i sync) (Function.update Own p (Own p \ ρ.foot i)) := by
  have hsub : ∀ q, Function.update Own p (Own p \ ρ.foot i) q ⊆ Own q := by
    intro q
    rcases eq_or_ne q p with rfl | hq
    · rw [Function.update_self]
      exact Set.sdiff_subset
    · rw [Function.update_of_ne hq]
  constructor
  · exact fun q q' hne => (h.apart q q' hne).mono (hsub q) (hsub q')
  · intro j hj hjset
    rcases eq_or_ne j i with rfl | hji
    · refine .inr ⟨hres, fun q => ?_⟩
      rcases eq_or_ne q p with rfl | hq
      · rw [Function.update_self]
        exact Set.disjoint_sdiff_right
      · rw [Function.update_of_ne hq]
        exact (h.apart _ _ hq.symm).mono_left hfoot
    · have hold := ((σ.isSet_set j i sync hj hi).mp hjset).resolve_left hji
      rcases h.handed j hj hold with hin | ⟨hr, hdisj⟩
      · left
        rcases eq_or_ne ρ.taker p with rfl | hp
        · rw [Function.update_self]
          exact Set.subset_sdiff.mpr ⟨hin, ρ.disjoint j i hji⟩
        · rwa [Function.update_of_ne hp]
      · exact .inr ⟨hr, fun q => (hdisj q).mono_right (hsub q)⟩

/-- The thread that moves is safe with what it then owns, and so are all others. -/
theorem Safety.of_move {mem' : L → V} {sync' : W} {k : Prog L V R} {Own' : Set L}
    (h : Safety σ ρ s Own) (howns : Owns σ ρ mem' sync' (Function.update Own p Own'))
    (hsafe : Safe σ ρ p k cur Own' mem') (hcur : ∀ r, cur = some r → ρ.locs r ⊆ Own')
    (hothers : ∀ q, q ≠ p → Set.EqOn s.mem mem' (Own q)) :
    Safety σ ρ ⟨mem', sync', Function.update s.thread p ⟨k, cur⟩⟩ (Function.update Own p Own') := by
  refine ⟨howns, fun q => ?_, fun q r hr => ?_⟩
  · rcases eq_or_ne q p with rfl | hq
    · simpa only [Function.update_self] using hsafe
    · simp only [Function.update_of_ne hq]
      exact (h.safe q).congr (hothers q hq)
  · rcases eq_or_ne q p with rfl | hq
    · simp only [Function.update_self] at hr ⊢
      exact hcur r hr
    · simp only [Function.update_of_ne hq] at hr ⊢
      exact h.inside q r hr

/-- What a call needs is there when it is made, and no other thread is about to store to it. -/
theorem Safety.called (h : Safety σ ρ s Own) (hg : Gated σ ρ s p) {r : R}
    (hr : (s.thread p).pending.nextCall = some r) :
    ρ.pre r s.mem ∧ ∀ q, q ≠ p → ∀ x, (s.thread q).pending.nextStore = some x → x ∉ ρ.locs r := by
  have hp := h.safe p
  cases hk : (s.thread p).pending with
  | call r' k =>
    obtain rfl : r' = r := by simpa [hk, Prog.nextCall] using hr
    rw [hk, Safe] at hp
    cases hgate : ρ.gate p r' with
    | none =>
      rw [hgate] at hp
      refine ⟨hp.2.1, fun q hqp x hx hlocs => ?_⟩
      exact Set.disjoint_left.mp (h.owns.apart q p hqp) (h.stores hx) (hp.1 hlocs)
    | some i =>
      rw [hgate] at hp
      obtain ⟨hi, rfl, hnext⟩ := hp
      have hset := hg r' i hr hgate
      have hres := (h.owns.handed i hi hset).imp id And.left
      obtain ⟨hlocs, hpre, _⟩ := hnext _ (Set.eqOn_refl _ _) hres
      refine ⟨hpre, fun q hqp x hx hxr => ?_⟩
      have hapart := (h.owns.take hi hset).apart q _ hqp
      rw [Function.update_self, Function.update_of_ne hqp] at hapart
      exact Set.disjoint_left.mp hapart (h.stores hx) (hlocs hxr)
  | _ => simp [hk, Prog.nextCall] at hr

variable [DecidableEq L]

/-- Thread `p` makes its next access. -/
def step (σ : Signals W) (s : State P L V R W) (p : P) : State P L V R W :=
  let goOn (k : Prog L V R) (inside : Option R) :=
    Function.update s.thread p ⟨k, inside⟩
  let inside := (s.thread p).inside
  match (s.thread p).pending with
  | .done => s
  | .load x k => { s with thread := goOn (k (s.mem x)) inside }
  | .store x v k => { s with mem := Function.update s.mem x v, thread := goOn k inside }
  | .signal i k => { s with sync := σ.set i s.sync, thread := goOn k inside }
  | .await i k => if σ.isSet i s.sync then { s with thread := goOn k inside } else s
  | .call r k => { s with thread := goOn k (some r) }
  | .ret k => { s with thread := goOn k none }

/-- One access of any thread. -/
theorem Safety.step (h : Safety σ ρ s Own) (hg : Gated σ ρ s p) :
    ∃ Own', Safety σ ρ (step σ s p) Own' := by
  have hp := h.safe p
  have hsame : Function.update Own p (Own p) = Own := Function.update_eq_self p Own
  have hin := h.inside p
  cases hk : (s.thread p).pending with
  | done => exact ⟨Own, by simpa only [Threads.step, hk] using h⟩
  | load x k =>
    rw [hk] at hp
    refine ⟨Function.update Own p (Own p), ?_⟩
    simp only [Threads.step, hk]
    exact h.of_move (hsame.symm ▸ h.owns) hp.2 hin fun _ _ => Set.eqOn_refl _ _
  | store x v k =>
    rw [hk] at hp
    obtain ⟨hx, hnext⟩ := hp
    refine ⟨Function.update Own p (Own p), ?_⟩
    simp only [Threads.step, hk]
    refine h.of_move (hsame.symm ▸ h.owns.store hx) (hnext _ (Function.update_self ..) ?_) hin ?_
    · exact fun y hy => (Function.update_of_ne hy.2 ..).symm
    · intro q hq y hy
      have hne : y ≠ x := by
        rintro rfl
        exact Set.disjoint_left.mp (h.owns.apart q p hq) hy hx
      exact (Function.update_of_ne hne ..).symm
  | signal i k =>
    rw [hk] at hp
    obtain ⟨hi, hcur, hfoot, hres, hnext⟩ := hp
    refine ⟨Function.update Own p (Own p \ ρ.foot i), ?_⟩
    simp only [Threads.step, hk, hcur]
    exact h.of_move (h.owns.give hi hfoot hres) hnext (by simp) fun _ _ => Set.eqOn_refl _ _
  | await i k =>
    rw [hk] at hp
    obtain ⟨hi, rfl, hnext⟩ := hp
    cases hset : σ.isSet i s.sync with
    | false => exact ⟨Own, by simpa [Threads.step, hk, hset] using h⟩
    | true =>
      have hres := (h.owns.handed i hi hset).imp id And.left
      refine ⟨Function.update Own ρ.taker (Own ρ.taker ∪ ρ.foot i), ?_⟩
      simp only [Threads.step, hk, hset, if_true]
      exact h.of_move (h.owns.take hi hset) (hnext _ (Set.eqOn_refl _ _) hres)
        (fun r hr => (hin r hr).trans Set.subset_union_left) fun _ _ => Set.eqOn_refl _ _
  | call r k =>
    rw [hk, Safe] at hp
    simp only [Threads.step, hk]
    cases hgate : ρ.gate p r with
    | none =>
      rw [hgate] at hp
      obtain ⟨hlocs, hpre, hnext⟩ := hp
      refine ⟨_, h.of_move (hsame.symm ▸ h.owns) hnext ?_ fun _ _ => Set.eqOn_refl _ _⟩
      rintro _ ⟨⟩
      exact hlocs
    | some i =>
      rw [hgate] at hp
      obtain ⟨hi, rfl, hnext⟩ := hp
      have hset := hg r i (by rw [hk]; rfl) hgate
      have hres := (h.owns.handed i hi hset).imp id And.left
      obtain ⟨hlocs, hpre, hnext⟩ := hnext _ (Set.eqOn_refl _ _) hres
      refine ⟨_, h.of_move (h.owns.take hi hset) hnext ?_ fun _ _ => Set.eqOn_refl _ _⟩
      rintro _ ⟨⟩
      exact hlocs
  | ret k =>
    rw [hk] at hp
    refine ⟨Function.update Own p (Own p), ?_⟩
    simp only [Threads.step, hk]
    exact h.of_move (hsame.symm ▸ h.owns) hp (by simp) fun _ _ => Set.eqOn_refl _ _

/-- Safe programs are safe all along every schedule that finds the promised signals set. -/
theorem safety_run (h : Safety σ ρ s Own) (schedule : ℕ → P)
    (hg : ∀ t, Gated σ ρ (run (step σ) s schedule t) (schedule t)) (t : ℕ) :
    ∃ Own', Safety σ ρ (run (step σ) s schedule t) Own' := by
  have hstep : ∀ s p, Gated σ ρ s p → (∃ Own', Safety σ ρ s Own') →
      ∃ Own', Safety σ ρ (step σ s p) Own' := fun _ _ hg ⟨_, h⟩ => h.step hg
  exact run_invariant ⟨Own, h⟩ hstep hg t

end ParaNut.Lib.Threads
