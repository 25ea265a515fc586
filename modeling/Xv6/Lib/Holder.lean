import Mathlib.Tactic.Common

namespace Xv6.Lib

variable {ι : Type*}

-- A lock is held by the one process that is inside.
def Holder (lock : Option ι) (inside : ι → Bool) : Prop := ∀ p, lock = some p ↔ inside p = true

namespace Holder

variable {lock lock' : Option ι} {inside inside' : ι → Bool} {p q : ι}

theorem outside (h : Holder lock inside) (hl : lock = none ∨ lock = some p) (hq : q ≠ p) : inside q = false := by
  by_contra hin
  have hlock := (h q).mpr (by simpa using hin)
  rcases hl with hl | hl
  · simp [hl] at hlock
  · exact hq (Option.some.inj (hlock.symm.trans hl))

theorem step (h : Holder lock inside) (hl : lock = none ∨ lock = some p) (hother : ∀ q, q ≠ p → inside' q = inside q)
    (hnew : lock' = if inside' p = true then some p else none) : Holder lock' inside' := by
  intro q
  by_cases hq : q = p
  · subst hq
    rw [hnew]
    split
    next hin => simp [hin]
    next hin => simp [hin]
  · rw [hother q hq, h.outside hl hq, hnew]
    split <;> simp [Ne.symm hq]

end Holder

end Xv6.Lib
