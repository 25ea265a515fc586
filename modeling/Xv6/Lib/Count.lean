import Mathlib.Data.Fintype.Card

namespace Xv6.Lib

open Function

variable {ι κ : Type*} [Fintype ι] [DecidableEq ι]

theorem card_update (P : κ → Prop) [DecidablePred P] (g : ι → κ) (p : ι) (x : κ) :
    (Finset.univ.filter fun q => P (update g p x q)).card + (if P (g p) then 1 else 0) =
      (Finset.univ.filter fun q => P (g q)).card + (if P x then 1 else 0) := by
  -- both counts, without p, count the same
  have hone : ∀ f : ι → κ, (Finset.univ.filter fun q => P (f q)).card =
      ((Finset.univ.erase p).filter fun q => P (f q)).card + (if P (f p) then 1 else 0) := by
    intro f
    rw [Finset.filter_erase]
    by_cases hp : P (f p)
    · rw [if_pos hp, Finset.card_erase_add_one (by simp [hp])]
    · rw [if_neg hp, Finset.erase_eq_of_notMem (by simp [hp])]
      rfl
  have hrest : ((Finset.univ.erase p).filter fun q => P (update g p x q)) =
      (Finset.univ.erase p).filter fun q => P (g q) := by
    refine Finset.filter_congr fun q hq => ?_
    rw [update_of_ne (Finset.ne_of_mem_erase hq)]
  rw [hone (update g p x), hone g, hrest, update_self]
  omega

end Xv6.Lib
