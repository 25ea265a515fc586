import Mathlib.Tactic.Common

namespace Xv6.Lib

variable {α : Type*}

-- `Chain next null head l` says that following `next` from `head` visits the
-- elements of `l` in order and then meets `null`.
def Chain (next : α → α) (null : α) : α → List α → Prop
  | head, [] => head = null
  | head, a :: rest => head = a ∧ a ≠ null ∧ Chain next null (next a) rest

variable {next next' : α → α} {null head a : α} {l l' : List α}

@[simp] theorem chain_nil : Chain next null head [] ↔ head = null := Iff.rfl

@[simp] theorem chain_cons :
    Chain next null head (a :: l) ↔ head = a ∧ a ≠ null ∧ Chain next null (next a) l := Iff.rfl

theorem Chain.congr (h : Chain next null head l) (heq : ∀ a ∈ l, next' a = next a) :
    Chain next' null head l := by
  induction l generalizing head with
  | nil => exact h
  | cons b rest ih =>
    obtain ⟨hhead, hne, htail⟩ := h
    refine ⟨hhead, hne, ?_⟩
    rw [heq b (by simp)]
    exact ih htail (fun a ha => heq a (by simp [ha]))

theorem Chain.push [DecidableEq α] (h : Chain next null head l) (hne : a ≠ null) (hnot : a ∉ l) :
    Chain (Function.update next a head) null a (a :: l) := by
  refine ⟨rfl, hne, ?_⟩
  rw [Function.update_self]
  apply h.congr
  intro b hb
  have hba : b ≠ a := by
    rintro rfl
    exact hnot hb
  exact Function.update_of_ne hba _ _

theorem Chain.unique (h : Chain next null head l) (h' : Chain next null head l') : l = l' := by
  induction l generalizing head l' with
  | nil =>
    cases l' with
    | nil => rfl
    | cons b rest => exact absurd (h'.1.symm.trans h) h'.2.1
  | cons b rest ih =>
    cases l' with
    | nil => exact absurd (h.1.symm.trans h') h.2.1
    | cons c rest' =>
      have hbc : b = c := h.1.symm.trans h'.1
      subst hbc
      rw [ih h.2.2 h'.2.2]

end Xv6.Lib
