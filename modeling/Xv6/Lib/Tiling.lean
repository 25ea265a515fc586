import Mathlib.Algebra.Order.BigOperators.Group.Finset

namespace Xv6.Lib

open Function Finset

-- Disjoint blocks of memory, given by their first addresses and their lengths: they lie in
-- the memory M, and together are as long as it is.
structure Tiling (B : Finset Nat) (len : Nat → Nat) (M : Nat → Prop) (total : Nat) : Prop where
  pos : ∀ a ∈ B, 0 < len a
  apart : ∀ a ∈ B, ∀ b ∈ B, a < b → a + len a ≤ b
  inside : ∀ a ∈ B, ∀ x, a ≤ x → x < a + len a → M x
  total : ∑ a ∈ B, len a = total

namespace Tiling

variable {B : Finset Nat} {len len' : Nat → Nat} {M : Nat → Prop} {total a b x : Nat}

theorem empty (M : Nat → Prop) (len : Nat → Nat) : Tiling ∅ len M 0 :=
  ⟨by simp, by simp, by simp, by simp⟩

section

variable (h : Tiling B len M total)
include h

theorem congr (heq : ∀ a ∈ B, len' a = len a) : Tiling B len' M total :=
  ⟨fun a ha => heq a ha ▸ h.pos a ha, fun a ha b hb hlt => heq a ha ▸ h.apart a ha b hb hlt,
    fun a ha x hle hlt => h.inside a ha x hle (heq a ha ▸ hlt), (sum_congr rfl heq).trans h.total⟩

theorem len_le (ha : a ∈ B) : len a ≤ total :=
  h.total ▸ single_le_sum (fun _ _ => Nat.zero_le _) ha

theorem notMem_inside (ha : a ∈ B) (hlt : a < x) (hx : x < a + len a) : x ∉ B :=
  fun hxB => absurd (h.apart a ha x hxB hlt) (by omega)

theorem split (ha : a ∈ B) (hk : 0 < k) (hlt : k < len a) :
    Tiling (insert (a + k) B) (update (update len a k) (a + k) (len a - k)) M total := by
  have hnew : a + k ∉ B := h.notMem_inside ha (by omega) (by omega)
  have hne : a ≠ a + k := by omega
  have hother : ∀ c ∈ B, c ≠ a → update (update len a k) (a + k) (len a - k) c = len c := by
    intro c hc hca
    rw [update_of_ne (fun heq : c = a + k => hnew (heq ▸ hc)), update_of_ne hca]
  have hself : update (update len a k) (a + k) (len a - k) a = k := by
    rw [update_of_ne hne, update_self]
  have hpart : update (update len a k) (a + k) (len a - k) (a + k) = len a - k :=
    update_self ..
  generalize hf : update (update len a k) (a + k) (len a - k) = f at *
  refine ⟨fun c hc => ?_, fun c hc d hd hcd => ?_, fun c hc x hle hlt' => ?_, ?_⟩
  · rcases mem_insert.mp hc with rfl | hcB
    · omega
    · by_cases hca : c = a
      · subst hca
        omega
      · rw [hother c hcB hca]
        exact h.pos c hcB
  · rcases mem_insert.mp hc with rfl | hcB <;> rcases mem_insert.mp hd with rfl | hdB
    · omega
    · have := h.apart a ha d hdB (by omega)
      omega
    · by_cases hca : c = a
      · subst hca
        omega
      · rw [hother c hcB hca]
        have hlt' : c < a := by
          rcases Nat.lt_or_ge c a with hlt' | hge
          · exact hlt'
          · have := h.apart a ha c hcB (by omega)
            omega
        have := h.apart c hcB a ha hlt'
        omega
    · by_cases hca : c = a
      · subst hca
        have := h.apart c hcB d hdB hcd
        omega
      · rw [hother c hcB hca]
        exact h.apart c hcB d hdB hcd
  · rcases mem_insert.mp hc with rfl | hcB
    · exact h.inside a ha x (by omega) (by omega)
    · by_cases hca : c = a
      · subst hca
        exact h.inside c hcB x hle (by omega)
      · exact h.inside c hcB x hle (hother c hcB hca ▸ hlt')
  · have hsum : ∑ c ∈ B.erase a, f c = ∑ c ∈ B.erase a, len c :=
      sum_congr rfl fun c hc => hother c (mem_of_mem_erase hc) (ne_of_mem_erase hc)
    have hB := add_sum_erase B f ha
    have hB' := add_sum_erase B len ha
    have htotal := h.total
    rw [sum_insert hnew]
    omega

theorem join (ha : a ∈ B) (hb : a + len a ∈ B) :
    Tiling (B.erase (a + len a)) (update len a (len a + len (a + len a))) M total := by
  have hpos := h.pos a ha
  have hne : a ≠ a + len a := by omega
  have hself : update len a (len a + len (a + len a)) a = len a + len (a + len a) := update_self ..
  have hother : ∀ c, c ≠ a → update len a (len a + len (a + len a)) c = len c :=
    fun c hc => update_of_ne hc ..
  generalize hf : update len a (len a + len (a + len a)) = f at *
  refine ⟨fun c hc => ?_, fun c hc d hd hcd => ?_, fun c hc x hle hlt => ?_, ?_⟩
  · by_cases hca : c = a
    · subst hca
      omega
    · rw [hother c hca]
      exact h.pos c (mem_of_mem_erase hc)
  · have hcB := mem_of_mem_erase hc
    have hdB := mem_of_mem_erase hd
    by_cases hca : c = a
    · subst hca
      have h1 := h.apart c hcB d hdB hcd
      have h2 := h.apart _ hb d hdB (lt_of_le_of_ne h1 (ne_of_mem_erase hd).symm)
      omega
    · rw [hother c hca]
      exact h.apart c hcB d hdB hcd
  · have hcB := mem_of_mem_erase hc
    by_cases hca : c = a
    · subst hca
      rcases Nat.lt_or_ge x (c + len c) with hlt' | hge
      · exact h.inside c hcB x hle hlt'
      · exact h.inside _ hb x hge (by omega)
    · exact h.inside c hcB x hle (hother c hca ▸ hlt)
  · have ha' : a ∈ B.erase (a + len a) := mem_erase.mpr ⟨hne, ha⟩
    have hsum : ∑ c ∈ (B.erase (a + len a)).erase a, f c = ∑ c ∈ (B.erase (a + len a)).erase a, len c :=
      sum_congr rfl fun c hc => hother c (ne_of_mem_erase hc)
    have hB := add_sum_erase _ f ha'
    have hB' := add_sum_erase _ len ha'
    have hB'' := add_sum_erase B len hb
    have htotal := h.total
    omega

theorem grow (hn : 0 < n) (hM : ∀ x, M x → M' x ∧ x < p)
    (hp : ∀ x, p ≤ x → x < p + n → M' x) : Tiling (insert p B) (update len p n) M' (total + n) := by
  have hbelow : ∀ a ∈ B, a + len a ≤ p := by
    intro a ha
    have hpos := h.pos a ha
    have := (hM _ (h.inside a ha (a + len a - 1) (by omega) (by omega))).2
    omega
  have hnew : p ∉ B := fun hp' => by
    have := hbelow p hp'
    have := h.pos p hp'
    omega
  have hother : ∀ c ∈ B, update len p n c = len c :=
    fun c hc => update_of_ne (fun heq : c = p => hnew (heq ▸ hc)) ..
  have hself : update len p n p = n := update_self ..
  generalize hf : update len p n = f at *
  refine ⟨fun c hc => ?_, fun c hc d hd hcd => ?_, fun c hc x hle hlt => ?_, ?_⟩
  · rcases mem_insert.mp hc with rfl | hc
    · omega
    · rw [hother c hc]
      exact h.pos c hc
  · rcases mem_insert.mp hc with rfl | hcB <;> rcases mem_insert.mp hd with rfl | hdB
    · omega
    · have := hbelow d hdB
      omega
    · rw [hother c hcB]
      exact hbelow c hcB
    · rw [hother c hcB]
      exact h.apart c hcB d hdB hcd
  · rcases mem_insert.mp hc with rfl | hc
    · exact hp x hle (hself ▸ hlt)
    · exact (hM x (h.inside c hc x hle (hother c hc ▸ hlt))).1
  · rw [sum_insert hnew, sum_congr rfl hother, h.total, hself, Nat.add_comm]

end

end Tiling

end Xv6.Lib
