import Mathlib.Data.List.Induction
import Mathlib.Tactic.SplitIfs
import Mathlib.Logic.Function.Basic
import Mathlib.Logic.Nontrivial.Basic

/-!
# Sequences of writes

What a list of writes makes of a memory: at each place the last write counts.
The writes install given values, whatever was there before, just when the last
write at each place is the one wanted.
-/

namespace ParaNut.Lib.Writes

variable {A D : Type*} [DecidableEq A]

/-- The contents after the writes, performed in order. -/
def apply (f : A → D) (ws : List (A × D)) : A → D :=
  ws.foldl (fun f w => Function.update f w.1 w.2) f

/-- The value last written at a place, if any. -/
def last (ws : List (A × D)) (a : A) : Option D :=
  ws.foldl (fun d w => if w.1 = a then some w.2 else d) none

variable {f : A → D} {ws ws' : List (A × D)} {w : A × D} {a : A} {d : D}

theorem last_append_singleton :
    last (ws ++ [w]) a = if w.1 = a then some w.2 else last ws a := by
  rw [last, List.foldl_append]
  rfl

theorem apply_append_singleton : apply f (ws ++ [w]) = Function.update (apply f ws) w.1 w.2 := by
  rw [apply, List.foldl_append]
  rfl

theorem apply_eq (f : A → D) (ws : List (A × D)) (a : A) :
    apply f ws a = (last ws a).getD (f a) := by
  induction ws using List.reverseRecOn with
  | nil => rfl
  | append_singleton ws w ih =>
    rw [apply_append_singleton, last_append_singleton]
    split_ifs with h
    · rw [← h, Function.update_self]
      rfl
    · rw [Function.update_of_ne (Ne.symm h), ih]

theorem last_eq_none : last ws a = none ↔ ∀ w ∈ ws, w.1 ≠ a := by
  induction ws using List.reverseRecOn with
  | nil => simp [last]
  | append_singleton ws w ih =>
    rw [last_append_singleton, List.forall_mem_append, ← ih]
    by_cases h : w.1 = a <;> simp [h]

theorem last_append : last (ws ++ ws') a = (last ws' a).or (last ws a) := by
  induction ws' using List.reverseRecOn with
  | nil => simp [last]
  | append_singleton ws' w ih =>
    rw [← List.append_assoc, last_append_singleton, last_append_singleton, ih]
    split_ifs <;> rfl

/-- Several sequences one after the other: the last one that writes at the place counts. -/
theorem last_flatMap_eq_some {X : Type*} {l : List X} {ws : X → List (A × D)} :
    last (l.flatMap ws) a = some d ↔ ∃ pre x post, l = pre ++ x :: post ∧
      last (ws x) a = some d ∧ ∀ y ∈ post, last (ws y) a = none := by
  induction l with
  | nil => simp [last]
  | cons x l ih =>
    rw [List.flatMap_cons, last_append]
    constructor
    · intro h
      rcases Option.or_eq_some_iff.mp h with h | ⟨hnone, h⟩
      · obtain ⟨pre, y, post, rfl, hy, hpost⟩ := ih.mp h
        exact ⟨x :: pre, y, post, rfl, hy, hpost⟩
      · refine ⟨[], x, l, rfl, h, fun y hy => ?_⟩
        rw [last_eq_none] at hnone ⊢
        exact fun w hw => hnone w (List.mem_flatMap.mpr ⟨y, hy, hw⟩)
    · rintro ⟨pre, y, post, hl, hy, hpost⟩
      cases pre with
      | nil =>
        cases hl
        have hnone : last (l.flatMap ws) a = none := by
          rw [last_eq_none]
          intro w hw
          obtain ⟨z, hz, hw⟩ := List.mem_flatMap.mp hw
          exact last_eq_none.mp (hpost z hz) w hw
        rw [hnone, hy]
        rfl
      | cons z pre =>
        cases hl
        rw [ih.mpr ⟨pre, y, post, rfl, hy, hpost⟩]
        rfl

/-- Values written to consecutive places. -/
theorem last_range (v : ℕ → D) (o n i : ℕ) :
    last ((List.range n).map fun k => (o + k, v k)) i =
      if o ≤ i ∧ i < o + n then some (v (i - o)) else none := by
  induction n with
  | zero =>
    rw [if_neg (by omega)]
    rfl
  | succ n ih =>
    rw [List.range_succ, List.map_append, List.map_singleton, last_append_singleton, ih]
    rcases eq_or_ne (o + n) i with rfl | hne
    · rw [if_pos rfl, if_pos (by omega), Nat.add_sub_cancel_left]
    · rw [if_neg hne]
      refine if_congr ?_ rfl rfl
      omega

/-- Whatever the contents were, the writes install the values of `g` and leave the rest, if and
only if each last write is one of `g`, and each place of `g` is written. -/
theorem forall_apply_iff [Nontrivial D] {g : A → Option D} {a : A} :
    (∀ f : A → D, apply f ws a = (g a).getD (f a)) ↔ last ws a = g a := by
  constructor
  · intro h
    simp only [apply_eq] at h
    cases hlast : last ws a with
    | none =>
      rw [hlast] at h
      cases hg : g a with
      | none => rfl
      | some d =>
        obtain ⟨d', hne⟩ := exists_ne d
        rw [hg] at h
        exact absurd (h fun _ => d') hne
    | some d =>
      rw [hlast] at h
      cases hg : g a with
      | none =>
        obtain ⟨d', hne⟩ := exists_ne d
        rw [hg] at h
        exact absurd (h fun _ => d').symm hne
      | some d' =>
        rw [hg] at h
        exact congrArg some (h fun _ => d)
  · intro h f
    rw [apply_eq, h]

end ParaNut.Lib.Writes
