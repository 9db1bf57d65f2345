import Mathlib.Data.List.Induction
import Mathlib.Data.List.Nodup

/-!
# Recency order

A list of all elements, the least recently used first. An access moves an
element to the end, so the head is the one whose last access lies furthest
back; elements that were never accessed come first, as they stood initially.
-/

namespace ParaNut.Lib.Recency

variable {α : Type*} [DecidableEq α]

/-- An access to `a`. -/
def touch (order : List α) (a : α) : List α := order.erase a ++ [a]

/-- `a` is less recently used than `b` after the accesses `acc`. -/
def Older (init acc : List α) (a b : α) : Prop :=
  (a ∉ acc ∧ b ∈ acc) ∨
    (a ∉ acc ∧ b ∉ acc ∧ init.idxOf a < init.idxOf b) ∨
    (a ∈ acc ∧ b ∈ acc ∧ acc.reverse.idxOf b < acc.reverse.idxOf a)

theorem touch_perm {order : List α} {a : α} (ha : a ∈ order) : (touch order a).Perm order :=
  List.perm_append_comm.trans (List.perm_cons_erase ha).symm

theorem foldl_touch_perm {init acc : List α} (hacc : ∀ a ∈ acc, a ∈ init) :
    (acc.foldl touch init).Perm init := by
  induction acc using List.reverseRecOn with
  | nil => exact .rfl
  | append_singleton acc a ih =>
    rw [List.foldl_append]
    have hp := ih fun b hb => hacc b (List.mem_append_left _ hb)
    have ha : a ∈ acc.foldl touch init := hp.mem_iff.mpr (hacc a (by simp))
    exact (touch_perm ha).trans hp

/-- An access to another element does not change which of two is older. -/
theorem Older.access {init acc : List α} {a b x : α} (h : Older init acc a b) (ha : a ≠ x)
    (hb : b ≠ x) : Older init (acc ++ [x]) a b := by
  have hmem : ∀ {c}, c ≠ x → (c ∈ acc ++ [x] ↔ c ∈ acc) := by
    intro c hc
    simp [hc]
  have hidx : ∀ {c}, c ≠ x → (acc ++ [x]).reverse.idxOf c = acc.reverse.idxOf c + 1 := by
    intro c hc
    rw [List.reverse_append, List.reverse_singleton, List.singleton_append,
      List.idxOf_cons_ne _ hc.symm]
  simpa only [Older, hmem ha, hmem hb, hidx ha, hidx hb, Nat.add_lt_add_iff_right] using h

/-- What was accessed last is older than nothing. -/
theorem Older.last {init acc : List α} {a x : α} (ha : a ≠ x) : Older init (acc ++ [x]) a x := by
  have hx : x ∈ acc ++ [x] := by simp
  by_cases hmem : a ∈ acc ++ [x]
  · refine .inr (.inr ⟨hmem, hx, ?_⟩)
    rw [List.reverse_append, List.reverse_singleton, List.singleton_append, List.idxOf_cons_self,
      List.idxOf_cons_ne _ ha.symm]
    exact Nat.succ_pos _
  · exact .inl ⟨hmem, hx⟩

/-- The order is by recency. -/
theorem pairwise_older {init acc : List α} (hnodup : init.Nodup) (hacc : ∀ a ∈ acc, a ∈ init) :
    (acc.foldl touch init).Pairwise (Older init acc) := by
  induction acc using List.reverseRecOn with
  | nil =>
    rw [List.foldl_nil, List.pairwise_iff_getElem]
    intro j k hj hk hlt
    refine .inr (.inl ⟨List.not_mem_nil, List.not_mem_nil, ?_⟩)
    rwa [hnodup.idxOf_getElem, hnodup.idxOf_getElem]
  | append_singleton acc x ih =>
    have hmem : ∀ a ∈ acc, a ∈ init := fun a ha => hacc a (List.mem_append_left _ ha)
    have hnodup' : (acc.foldl touch init).Nodup := (foldl_touch_perm hmem).nodup_iff.mpr hnodup
    rw [List.foldl_append, List.foldl_cons, List.foldl_nil, touch, List.pairwise_append]
    refine ⟨?_, List.pairwise_singleton _ _, ?_⟩
    · have hsub := (ih hmem).sublist (List.erase_sublist (a := x))
      refine hsub.imp_of_mem ?_
      intro a b ha hb h
      exact h.access ((hnodup'.mem_erase_iff.mp ha).1) ((hnodup'.mem_erase_iff.mp hb).1)
    · intro a ha b hb
      rw [List.mem_singleton.mp hb]
      exact Older.last (hnodup'.mem_erase_iff.mp ha).1

/-- The head is older than all others. -/
theorem head_older {init acc rest : List α} {v : α} (hnodup : init.Nodup)
    (hacc : ∀ a ∈ acc, a ∈ init) (horder : acc.foldl touch init = v :: rest) :
    v ∈ init ∧ ∀ a ∈ init, a ≠ v → Older init acc v a := by
  have hperm := foldl_touch_perm hacc
  have hpair := pairwise_older hnodup hacc
  rw [horder] at hperm hpair
  refine ⟨hperm.mem_iff.mp List.mem_cons_self, fun a ha hne => ?_⟩
  rcases List.mem_cons.mp (hperm.mem_iff.mpr ha) with h | h
  · exact absurd h hne
  · exact (List.pairwise_cons.mp hpair).1 a h

end ParaNut.Lib.Recency
