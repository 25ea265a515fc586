import Mathlib.Data.Finset.Max

namespace Xv6.Lib

open Function Finset

variable {α : Type*} [LinearOrder α]

-- A circular list in increasing order: each node of F leads to the next greater one, and
-- the greatest back to the least, b.
structure Cyclic (F : Finset α) (b : α) (next : α → α) : Prop where
  mem : b ∈ F
  least : ∀ a ∈ F, b ≤ a
  step : ∀ a ∈ F, (next a ∈ F ∧ a < next a ∧ ∀ c ∈ F, a < c → next a ≤ c) ∨ (next a = b ∧ ∀ c ∈ F, c ≤ a)

namespace Cyclic

variable {F : Finset α} {a b c p q x : α} {next next' : α → α}

theorem next_mem (h : Cyclic F b next) (ha : a ∈ F) : next a ∈ F := by
  rcases h.step a ha with ⟨hm, -⟩ | ⟨heq, -⟩
  · exact hm
  · exact heq ▸ h.mem

theorem next_le (h : Cyclic F b next) (ha : a ∈ F) (hc : c ∈ F) (hlt : a < c) : a < next a ∧ next a ≤ c := by
  rcases h.step a ha with ⟨-, hup, hle⟩ | ⟨-, hmax⟩
  · exact ⟨hup, hle c hc hlt⟩
  · exact absurd (hmax c hc) (not_le.mpr hlt)

theorem congr (h : Cyclic F b next) (heq : ∀ a ∈ F, next' a = next a) : Cyclic F b next' :=
  ⟨h.mem, h.least, fun a ha => heq a ha ▸ h.step a ha⟩

theorem singleton (h : next b = b) : Cyclic {b} b next :=
  ⟨by simp, by simp, fun a ha => .inr (by simp_all)⟩

section

variable (h : Cyclic F b next)
include h

theorem exists_pred (hx : b < x) : ∃ p ∈ F, p < x ∧ ∀ c ∈ F, c < x → c ≤ p := by
  have hne : (F.filter (· < x)).Nonempty := ⟨b, by simp [h.mem, hx]⟩
  obtain ⟨p, hp, hmax⟩ := exists_max_image _ id hne
  simp only [mem_filter] at hp hmax
  exact ⟨p, hp.1, hp.2, fun c hc hlt => hmax c ⟨hc, hlt⟩⟩

theorem next_pred (hp : p ∈ F) (hlt : p < q) (hq : q ∈ F) (hmax : ∀ c ∈ F, c < q → c ≤ p) : next p = q := by
  obtain ⟨hup, hle⟩ := h.next_le hp hq hlt
  rcases hle.lt_or_eq with hlt' | heq
  · exact absurd (hmax _ (h.next_mem hp) hlt') (not_le.mpr hup)
  · exact heq

theorem reach_least : ∀ n, ∀ a ∈ F, (F.filter (a < ·)).card = n → ∃ k, next^[k + 1] a = b := by
  intro n
  induction n using Nat.strong_induction_on with
  | _ n ih =>
    intro a ha hn
    rcases h.step a ha with ⟨hm, hup, -⟩ | ⟨heq, -⟩
    · have hlt : (F.filter (next a < ·)).card < n := by
        rw [← hn]
        refine card_lt_card ⟨fun c hc => ?_, fun hsub => ?_⟩
        · simp only [mem_filter] at hc ⊢
          exact ⟨hc.1, hup.trans hc.2⟩
        · have hself := hsub (mem_filter.mpr ⟨hm, hup⟩)
          simp at hself
      obtain ⟨k, hk⟩ := ih _ hlt (next a) hm rfl
      exact ⟨k + 1, by rw [Function.iterate_succ_apply, hk]⟩
    · exact ⟨0, heq⟩

theorem reach_from_least : ∀ n, ∀ q ∈ F, (F.filter (· < q)).card = n → ∃ k, next^[k] b = q := by
  intro n
  induction n using Nat.strong_induction_on with
  | _ n ih =>
    intro q hq hn
    rcases (h.least q hq).lt_or_eq with hlt | rfl
    · obtain ⟨p, hp, hpq, hmax⟩ := h.exists_pred hlt
      have hcard : (F.filter (· < p)).card < n := by
        rw [← hn]
        refine card_lt_card ⟨fun c hc => ?_, fun hsub => ?_⟩
        · simp only [mem_filter] at hc ⊢
          exact ⟨hc.1, hc.2.trans hpq⟩
        · have hself := hsub (mem_filter.mpr ⟨hp, hpq⟩)
          simp at hself
      obtain ⟨k, hk⟩ := ih _ hcard p hp rfl
      exact ⟨k + 1, by rw [Function.iterate_succ_apply', hk, h.next_pred hp hpq hq hmax]⟩
    · exact ⟨0, rfl⟩

theorem reach (ha : a ∈ F) (hq : q ∈ F) : ∃ k, next^[k + 1] a = q := by
  obtain ⟨k, hk⟩ := h.reach_least _ a ha rfl
  obtain ⟨j, hj⟩ := h.reach_from_least _ q hq rfl
  refine ⟨j + k, ?_⟩
  rw [add_assoc, Function.iterate_add_apply, hk, hj]

theorem iterate_mem (ha : a ∈ F) (k : Nat) : next^[k] a ∈ F := by
  induction k with
  | zero => exact ha
  | succ k ih =>
    rw [Function.iterate_succ_apply']
    exact h.next_mem ih

theorem insert (hx : x ∉ F) (hp : p ∈ F) (hlt : p < x) (hmax : ∀ c ∈ F, c < x → c ≤ p) :
    Cyclic (insert x F) b (update (update next x (next p)) p x) := by
  have hpx : x ≠ p := ne_of_gt hlt
  refine ⟨by simp [h.mem], fun a ha => ?_, fun a ha => ?_⟩
  · rcases mem_insert.mp ha with rfl | ha
    · exact (h.least p hp).trans hlt.le
    · exact h.least a ha
  · rcases mem_insert.mp ha with rfl | haF
    · rw [update_of_ne hpx, update_self]
      rcases h.step p hp with ⟨hm, hup, hle⟩ | ⟨heq, hmax'⟩
      · left
        -- the node behind p is not below the new one
        have hne : next p ≠ a := fun heq => hx (heq ▸ hm)
        have hgt : a < next p := by
          rcases lt_or_ge (next p) a with hlt' | hge
          · exact absurd (hmax _ hm hlt') (not_le.mpr hup)
          · exact lt_of_le_of_ne hge hne.symm
        refine ⟨by simp [hm], hgt, fun c hc hlt' => ?_⟩
        rcases mem_insert.mp hc with rfl | hc
        · exact absurd hlt' (lt_irrefl _)
        · exact hle c hc (hlt.trans hlt')
      · right
        refine ⟨heq, fun c hc => ?_⟩
        rcases mem_insert.mp hc with rfl | hc
        · exact le_rfl
        · exact (hmax' c hc).trans hlt.le
    · by_cases hap : a = p
      · subst hap
        rw [update_self]
        left
        refine ⟨by simp, hlt, fun c hc hac => ?_⟩
        rcases mem_insert.mp hc with rfl | hc
        · exact le_rfl
        · rcases lt_or_ge c x with hcx | hcx
          · exact absurd (hmax c hc hcx) (not_le.mpr hac)
          · exact hcx
      · have hax : a ≠ x := fun heq => hx (heq ▸ haF)
        rw [update_of_ne hap, update_of_ne hax]
        rcases h.step a haF with ⟨hm, hup, hle⟩ | ⟨heq, hmax'⟩
        · left
          refine ⟨by simp [hm], hup, fun c hc hac => ?_⟩
          rcases mem_insert.mp hc with rfl | hc
          · -- p lies between a and the new node
            exact (hle p hp (lt_of_le_of_ne (hmax a haF hac) hap)).trans hlt.le
          · exact hle c hc hac
        · right
          refine ⟨heq, fun c hc => ?_⟩
          rcases mem_insert.mp hc with rfl | hc
          · by_contra hnot
            exact hap (le_antisymm (hmax a haF (not_le.mp hnot)) (hmax' p hp))
          · exact hmax' c hc

theorem erase (hp : p ∈ F) (hne : next p ≠ b) : Cyclic (F.erase (next p)) b (update next p (next (next p))) := by
  rcases h.step p hp with ⟨hq, hup, hleast⟩ | ⟨heq, -⟩
  swap
  · exact absurd heq hne
  have hbelow : ∀ a ∈ F, a ≠ p → a < next p → a < p := by
    intro a ha hap hlt
    rcases lt_or_ge a p with hlt' | hge
    · exact hlt'
    · exact absurd (hleast a ha (lt_of_le_of_ne hge (Ne.symm hap))) (not_le.mpr hlt)
  refine ⟨mem_erase.mpr ⟨hne.symm, h.mem⟩, fun a ha => h.least a (mem_of_mem_erase ha), fun a ha => ?_⟩
  obtain ⟨hanq, ha⟩ := mem_erase.mp ha
  by_cases hap : a = p
  · subst hap
    rw [update_self]
    rcases h.step (next a) hq with ⟨hm, hup', hle⟩ | ⟨heq, hmax⟩
    · left
      refine ⟨mem_erase.mpr ⟨hup'.ne', hm⟩, hup.trans hup', fun c hc hlt => ?_⟩
      obtain ⟨hcq, hc⟩ := mem_erase.mp hc
      exact hle c hc (lt_of_le_of_ne (hleast c hc hlt) hcq.symm)
    · right
      refine ⟨heq, fun c hc => ?_⟩
      obtain ⟨hcq, hc⟩ := mem_erase.mp hc
      by_contra hnot
      exact hcq (le_antisymm (hmax c hc) (hleast c hc (not_le.mp hnot)))
  · rw [update_of_ne hap]
    rcases h.step a ha with ⟨hm, hup', hle⟩ | ⟨heq, hmax⟩
    · left
      refine ⟨mem_erase.mpr ⟨fun heq => ?_, hm⟩, hup', fun c hc hlt => hle c (mem_of_mem_erase hc) hlt⟩
      -- only p leads to the node that goes
      have hlt := hbelow a ha hap (heq ▸ hup')
      exact absurd (hle p hp hlt) (not_le.mpr (heq ▸ hup))
    · exact .inr ⟨heq, fun c hc => hmax c (mem_of_mem_erase hc)⟩

end

end Cyclic

end Xv6.Lib
