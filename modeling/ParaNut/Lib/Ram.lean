import Mathlib.Data.List.Nodup
import Mathlib.Data.Nat.Notation
import Mathlib.Logic.Function.Basic

/-!
# Memories with several ports

In one cycle the ports of a memory are served one after the other. Each reads
the word at its address and then may write there. What a port reads or writes
does not depend on the order if no other port writes at its address.
-/

namespace ParaNut.Lib.Ram

variable {P A D : Type*} [DecidableEq P] [DecidableEq A]

/-- What the ports are asked for in one cycle. -/
structure Ports (P A D : Type*) where
  wr : P → Bool
  adr : P → A
  dat : P → D

/-- One port's access to the contents and the read registers. -/
def access (io : Ports P A D) (ram : (A → D) × (P → D)) (p : P) : (A → D) × (P → D) :=
  (if io.wr p then Function.update ram.1 (io.adr p) (io.dat p) else ram.1,
    Function.update ram.2 p (ram.1 (io.adr p)))

def cycle (io : Ports P A D) (l : List P) (ram : (A → D) × (P → D)) : (A → D) × (P → D) :=
  l.foldl (access io) ram

variable {io : Ports P A D} {l : List P} {ram : (A → D) × (P → D)} {p q : P} {a : A}

theorem cycle_cons : cycle io (q :: l) ram = cycle io l (access io ram q) := rfl

theorem access_kept (h : io.wr q = true → io.adr q ≠ a) : (access io ram q).1 a = ram.1 a := by
  unfold access
  split
  · rename_i hw
    exact Function.update_of_ne (h hw).symm ..
  · rfl

/-- A word that no port writes stays. -/
theorem cycle_kept (h : ∀ p ∈ l, io.wr p = true → io.adr p ≠ a) :
    (cycle io l ram).1 a = ram.1 a := by
  induction l generalizing ram with
  | nil => rfl
  | cons q l ih =>
    rw [cycle_cons, ih fun p hp => h p (List.mem_cons_of_mem _ hp)]
    exact access_kept (h q List.mem_cons_self)

theorem cycle_written (hp : p ∈ l) (hw : io.wr p = true)
    (ho : ∀ q ∈ l, q ≠ p → io.wr q = true → io.adr q ≠ io.adr p) :
    (cycle io l ram).1 (io.adr p) = io.dat p := by
  induction l generalizing ram with
  | nil => cases hp
  | cons q l ih =>
    have ho' : ∀ q ∈ l, q ≠ p → io.wr q = true → io.adr q ≠ io.adr p :=
      fun q hq => ho q (List.mem_cons_of_mem _ hq)
    rw [cycle_cons]
    by_cases hmem : p ∈ l
    · exact ih hmem ho'
    · obtain rfl : p = q := (List.mem_cons.mp hp).resolve_right hmem
      rw [cycle_kept fun q hq => ho' q hq fun heq => hmem (heq ▸ hq)]
      simp [access, hw]

theorem cycle_data_kept (hp : p ∉ l) : (cycle io l ram).2 p = ram.2 p := by
  induction l generalizing ram with
  | nil => rfl
  | cons q l ih =>
    rw [List.mem_cons, not_or] at hp
    rw [cycle_cons, ih hp.2]
    exact Function.update_of_ne hp.1 ..

theorem cycle_read (hp : p ∈ l) (hnodup : l.Nodup)
    (ho : ∀ q ∈ l, q ≠ p → io.wr q = true → io.adr q ≠ io.adr p) :
    (cycle io l ram).2 p = ram.1 (io.adr p) := by
  induction l generalizing ram with
  | nil => cases hp
  | cons q l ih =>
    obtain ⟨hq, hnodup'⟩ := List.nodup_cons.mp hnodup
    rw [cycle_cons]
    rcases List.mem_cons.mp hp with rfl | hmem
    · rw [cycle_data_kept hq]
      exact Function.update_self ..
    · have hne : q ≠ p := fun heq => hq (heq ▸ hmem)
      rw [ih hmem hnodup' fun q hq => ho q (List.mem_cons_of_mem _ hq)]
      exact access_kept (ho q List.mem_cons_self hne)

/-- Whatever the other ports do, a port reads the old word or one that is written. -/
theorem cycle_read_cases (io : Ports P A D) (ram : (A → D) × (P → D)) (hp : p ∈ l)
    (hnodup : l.Nodup) :
    (cycle io l ram).2 p = ram.1 (io.adr p) ∨
      ∃ q ∈ l, io.wr q = true ∧ io.adr q = io.adr p ∧ (cycle io l ram).2 p = io.dat q := by
  induction l generalizing ram with
  | nil => cases hp
  | cons q l ih =>
    obtain ⟨hq, hnodup'⟩ := List.nodup_cons.mp hnodup
    rw [cycle_cons]
    rcases List.mem_cons.mp hp with rfl | hmem
    · rw [cycle_data_kept hq]
      exact .inl (Function.update_self ..)
    · rcases ih (access io ram q) hmem hnodup' with hold | ⟨m, hm, hw, ha, hdat⟩
      · by_cases hwrite : io.wr q = true ∧ io.adr q = io.adr p
        · refine .inr ⟨q, List.mem_cons_self, hwrite.1, hwrite.2, ?_⟩
          rw [hold, ← hwrite.2]
          simp [access, hwrite.1]
        · rw [hold, access_kept fun hw ha => hwrite ⟨hw, ha⟩]
          exact .inl rfl
      · exact .inr ⟨m, List.mem_cons_of_mem _ hm, hw, ha, hdat⟩

end ParaNut.Lib.Ram
