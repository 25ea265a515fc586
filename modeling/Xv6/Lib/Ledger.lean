import Mathlib.Tactic.Common

namespace Xv6.Lib

open Function

variable {σ : Type*}

-- The ledger of an allocator of cells. Below lo no cell is ever handed out; a slot holds a cell of
-- lo ≤ c < hi, or 0; the bit of a cell tells that it is taken. A loose cell is taken and is not yet, or is no
-- longer, in a slot.
structure Ledger (lo hi : Nat) (slot : σ → Nat) (bit : Nat → Bool) (loose : Nat → Prop) : Prop where
  pos : 0 < lo
  range : ∀ s, slot s ≠ 0 → lo ≤ slot s ∧ slot s < hi
  inj : ∀ s s', slot s ≠ 0 → slot s' = slot s → s' = s
  used : ∀ c, c < hi → (bit c = true ↔ c < lo ∨ (∃ s, slot s = c) ∨ loose c)
  apart : ∀ c, loose c → lo ≤ c ∧ c < hi ∧ ∀ s, slot s ≠ c

namespace Ledger

variable {lo hi : Nat} {slot slot' : σ → Nat} {bit : Nat → Bool} {loose loose' : Nat → Prop}

theorem congr (h : Ledger lo hi slot bit loose) (hslot : ∀ s, slot' s = slot s) (hloose : ∀ c, loose' c ↔ loose c) :
    Ledger lo hi slot' bit loose' := by
  obtain rfl : slot' = slot := funext hslot
  obtain rfl : loose' = loose := funext fun c => propext (hloose c)
  exact h

theorem bit_of_slot (h : Ledger lo hi slot bit loose) (hs : slot s ≠ 0) : bit (slot s) = true :=
  (h.used _ (h.range s hs).2).mpr (.inr (.inl ⟨s, rfl⟩))

theorem bit_of_loose (h : Ledger lo hi slot bit loose) (hc : loose c) : bit c = true :=
  (h.used c (h.apart c hc).2.1).mpr (.inr (.inr hc))

theorem take (h : Ledger lo hi slot bit loose) (hc : c < hi) (hbit : bit c = false) :
    Ledger lo hi slot (update bit c true) (fun x => loose x ∨ x = c) := by
  have hnot := mt (h.used c hc).mpr (by simp [hbit])
  simp only [not_or, not_exists, Nat.not_lt] at hnot
  obtain ⟨hlo, hslot, -⟩ := hnot
  refine ⟨h.pos, h.range, h.inj, ?_, ?_⟩
  · intro x hx
    by_cases hxc : x = c
    · simp [hxc]
    · rw [update_of_ne hxc, h.used x hx]
      simp [hxc]
  · rintro x (hx | rfl)
    · exact h.apart x hx
    · exact ⟨hlo, hc, hslot⟩

theorem attach [DecidableEq σ] (h : Ledger lo hi slot bit loose) (hs : slot s = 0) (hc : loose c) :
    Ledger lo hi (update slot s c) bit (fun x => loose x ∧ x ≠ c) := by
  obtain ⟨hlo, hhi, hslot⟩ := h.apart c hc
  refine ⟨h.pos, ?_, ?_, ?_, ?_⟩
  · intro t ht
    by_cases hts : t = s
    · rw [hts, update_self]
      exact ⟨hlo, hhi⟩
    · rw [update_of_ne hts] at ht ⊢
      exact h.range t ht
  · intro t t' ht heq
    by_cases hts : t = s <;> by_cases hts' : t' = s
    · rw [hts, hts']
    · rw [hts, update_self, update_of_ne hts'] at heq
      exact absurd heq (hslot t')
    · rw [hts', update_self, update_of_ne hts] at heq
      exact absurd heq.symm (hslot t)
    · rw [update_of_ne hts] at ht heq
      rw [update_of_ne hts'] at heq
      exact h.inj t t' ht heq
  · intro x hx
    rw [h.used x hx]
    constructor
    · rintro (hlt | ⟨t, rfl⟩ | hl)
      · exact .inl hlt
      · by_cases hts : t = s
        · rw [hts, hs]
          exact .inl h.pos
        · exact .inr (.inl ⟨t, update_of_ne hts ..⟩)
      · by_cases hxc : x = c
        · exact .inr (.inl ⟨s, by rw [update_self, hxc]⟩)
        · exact .inr (.inr ⟨hl, hxc⟩)
    · rintro (hlt | ⟨t, rfl⟩ | hl)
      · exact .inl hlt
      · by_cases hts : t = s
        · rw [hts, update_self]
          exact .inr (.inr hc)
        · exact .inr (.inl ⟨t, (update_of_ne hts ..).symm⟩)
      · exact .inr (.inr hl.1)
  · rintro x ⟨hl, hxc⟩
    obtain ⟨hlo', hhi', hslot'⟩ := h.apart x hl
    refine ⟨hlo', hhi', fun t => ?_⟩
    by_cases hts : t = s
    · rw [hts, update_self]
      exact Ne.symm hxc
    · rw [update_of_ne hts]
      exact hslot' t

theorem detach (h : Ledger lo hi slot bit loose) (hslot : ∀ s, slot' s = slot s ∨ slot' s = 0) :
    Ledger lo hi slot' bit (fun c => loose c ∨ c ≠ 0 ∧ ∃ s, slot s = c ∧ slot' s = 0) := by
  have hkeep : ∀ s, slot' s ≠ 0 → slot' s = slot s := fun s hs => (hslot s).resolve_right hs
  refine ⟨h.pos, ?_, ?_, ?_, ?_⟩
  · intro s hs
    have hk := hkeep s hs
    rw [hk] at hs ⊢
    exact h.range s hs
  · intro s s' hs heq
    have hs' : slot' s' ≠ 0 := heq ▸ hs
    rw [hkeep s hs, hkeep s' hs'] at heq
    exact h.inj s s' (hkeep s hs ▸ hs) heq
  · intro x hx
    rw [h.used x hx]
    constructor
    · rintro (hlt | ⟨s, rfl⟩ | hl)
      · exact .inl hlt
      · rcases hslot s with hs | hs
        · exact .inr (.inl ⟨s, hs⟩)
        · by_cases hz : slot s = 0
          · rw [hz]
            exact .inl h.pos
          · exact .inr (.inr (.inr ⟨hz, s, rfl, hs⟩))
      · exact .inr (.inr (.inl hl))
    · rintro (hlt | ⟨s, rfl⟩ | hl | ⟨-, s, rfl, -⟩)
      · exact .inl hlt
      · by_cases hz : slot' s = 0
        · rw [hz]
          exact .inl h.pos
        · exact .inr (.inl ⟨s, (hkeep s hz).symm⟩)
      · exact .inr (.inr hl)
      · exact .inr (.inl ⟨s, rfl⟩)
  · rintro x (hl | ⟨hx, s, rfl, hs⟩)
    · obtain ⟨hlo, hhi, hno⟩ := h.apart x hl
      refine ⟨hlo, hhi, fun s => ?_⟩
      rcases hslot s with hs | hs
      · rw [hs]
        exact hno s
      · rw [hs]
        have := h.pos
        omega
    · obtain ⟨hlo, hhi⟩ := h.range s hx
      refine ⟨hlo, hhi, fun t ht => ?_⟩
      have ht0 : slot' t ≠ 0 := ht ▸ hx
      have hst : t = s := h.inj s t hx (hkeep t ht0 ▸ ht)
      exact ht0 (hst ▸ hs)

theorem put [DecidableEq σ] (h : Ledger lo hi slot bit loose) (hc : c < hi) (hbit : bit c = false)
    (hs : slot s = 0) : Ledger lo hi (update slot s c) (update bit c true) loose := by
  have hnot : ¬loose c := fun hl => by simp [h.bit_of_loose hl] at hbit
  refine ((h.take hc hbit).attach hs (.inr rfl)).congr (fun _ => rfl) fun x => ⟨fun hl => ⟨.inl hl, ?_⟩, ?_⟩
  · rintro rfl
    exact hnot hl
  · rintro ⟨hl | rfl, hne⟩
    · exact hl
    · exact absurd rfl hne

theorem releaseAll (h : Ledger lo hi slot bit loose) (gone : Nat → Prop) [DecidablePred gone]
    (hgone : ∀ c, gone c → loose c) :
    Ledger lo hi slot (fun c => bit c && !decide (gone c)) (fun c => loose c ∧ ¬gone c) := by
  refine ⟨h.pos, h.range, h.inj, ?_, fun c hc => h.apart c hc.1⟩
  intro c hc
  by_cases hg : gone c
  · obtain ⟨hlo, -, hslot⟩ := h.apart c (hgone c hg)
    simp only [hg, decide_true, Bool.not_true, Bool.and_false, Bool.false_eq_true, not_true_eq_false, and_false,
      or_false, false_iff, not_or, not_exists, Nat.not_lt]
    exact ⟨hlo, hslot⟩
  · simp only [hg, decide_false, Bool.not_false, Bool.and_true, not_false_eq_true, and_true]
    exact h.used c hc

end Ledger

end Xv6.Lib
