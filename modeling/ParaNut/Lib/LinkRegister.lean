import Mathlib.Data.Nat.Notation

/-!
# Link registers

An address that is linked, and whether the link still holds. Every address
that is shown breaks a link to it, unless the register is set in the same
cycle.
-/

namespace ParaNut.Lib

variable {α : Type*} {links : ℕ → Prop} {adr : ℕ → α} {shown : ℕ → α → Prop} {linkAdr : ℕ → α}
  {linkValid : ℕ → Bool}

/-- A link register over time: where `links` holds it takes `adr`. -/
structure LinkRegister (links : ℕ → Prop) (adr : ℕ → α) (shown : ℕ → α → Prop) (linkAdr : ℕ → α)
    (linkValid : ℕ → Bool) : Prop where
  linkAdr_set : ∀ t, links t → linkAdr (t + 1) = adr t
  linkAdr_kept : ∀ t, ¬links t → linkAdr (t + 1) = linkAdr t
  linkValid_kept : ∀ t, ¬links t → linkValid (t + 1) = true → linkValid t = true
  broken : ∀ t, ¬links t → shown t (linkAdr t) → linkValid (t + 1) = false

namespace LinkRegister

variable {a e : ℕ}

theorem linkAdr_eq (h : LinkRegister links adr shown linkAdr linkValid) (ha : links a)
    (hae : a < e) (hlast : ∀ v, a < v → v < e → ¬links v) : linkAdr e = adr a := by
  induction hae with
  | refl => exact h.linkAdr_set a ha
  | @step t hat ih =>
    have hnot : ¬links t := hlast t hat (Nat.lt_succ_self t)
    rw [h.linkAdr_kept t hnot]
    exact ih fun v hav hvt => hlast v hav (Nat.lt_succ_of_lt hvt)

/-- A link that holds in the end has held all the time since it was set. -/
theorem linkValid_of_le (h : LinkRegister links adr shown linkAdr linkValid) {t : ℕ} (hte : t ≤ e)
    (hlast : ∀ v, t ≤ v → v < e → ¬links v) (hvalid : linkValid e = true) :
    linkValid t = true := by
  induction hte with
  | refl => exact hvalid
  | @step n htn ih =>
    have hnot : ¬links n := hlast n htn (Nat.lt_succ_self n)
    exact ih (fun v htv hvn => hlast v htv (Nat.lt_succ_of_lt hvn))
      (h.linkValid_kept n hnot hvalid)

/-- Its address has not been shown since. -/
theorem not_shown (h : LinkRegister links adr shown linkAdr linkValid) (ha : links a)
    (hlast : ∀ v, a < v → v < e → ¬links v) (hvalid : linkValid e = true) {t : ℕ} (hat : a < t)
    (hte : t < e) : ¬shown t (adr a) := by
  intro hshown
  have hadr : linkAdr t = adr a :=
    h.linkAdr_eq ha hat fun v hav hvt => hlast v hav (Nat.lt_trans hvt hte)
  have hbroken := h.broken t (hlast t hat hte) (hadr ▸ hshown)
  have hnext : linkValid (t + 1) = true :=
    h.linkValid_of_le hte (fun v hv hve => hlast v (Nat.lt_trans hat hv) hve) hvalid
  rw [hbroken] at hnext
  cases hnext

/-- Where the register still has its address, nothing else has been linked in between. -/
theorem not_links_of_linkAdr (h : LinkRegister links adr shown linkAdr linkValid)
    (hother : ∀ v, a < v → v < e → links v → adr v ≠ adr a) (hae : a < e)
    (hadr : linkAdr e = adr a) : ∀ v, a < v → v < e → ¬links v := by
  induction hae with
  | refl =>
    intro v hav hva
    omega
  | @step t hat ih =>
    have hnot : ¬links t := by
      intro ht
      rw [h.linkAdr_set t ht] at hadr
      exact hother t hat (Nat.lt_succ_self t) ht hadr
    have hbefore := ih (fun v hav hvt => hother v hav (Nat.lt_succ_of_lt hvt))
      ((h.linkAdr_kept t hnot).symm.trans hadr)
    intro v hav hvt
    rcases Nat.lt_or_eq_of_le (Nat.le_of_lt_succ hvt) with hlt | rfl
    · exact hbefore v hav hlt
    · exact hnot

end LinkRegister

end ParaNut.Lib
