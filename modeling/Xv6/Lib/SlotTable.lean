import Mathlib.Tactic.Common

namespace Xv6.Lib.SlotTable

variable {κ ν : Type*}

-- A map kept in a table of slots, each of which is empty or has a key and a value.
-- The value for a key, and the slot that has it.
def find [DecidableEq κ] (k : κ) : List (Option (κ × ν)) → Option (ν × Nat)
  | [] => none
  | none :: t => (find k t).map fun (v, n) => (v, n + 1)
  | some (k', v) :: t => if k' = k then some (v, 0) else (find k t).map fun (v, n) => (v, n + 1)

def Unique (t : List (Option (κ × ν))) : Prop :=
  ∀ k v w (m n : Nat), t[m]? = some (some (k, v)) → t[n]? = some (some (k, w)) → m = n

def store (t : List (Option (κ × ν))) (n : Nat) (e : Option (κ × ν)) : List (Option (κ × ν)) :=
  if n < t.length then t.set n e else t ++ [e]

def room (t : List (Option (κ × ν))) : Nat := t.findIdx Option.isNone

variable {t : List (Option (κ × ν))} {k : κ} {v : ν} {n : Nat}

theorem getElem?_store (h : n ≤ t.length) (m : Nat) :
    (store t n e)[m]? = if m = n then some e else t[m]? := by
  rw [store]
  split_ifs with hlt heq heq
  · rw [heq, List.getElem?_set_self hlt]
  · rw [List.getElem?_set_ne (Ne.symm heq)]
  · obtain rfl : n = t.length := by omega
    rw [heq, List.getElem?_concat_length]
  · obtain rfl : n = t.length := by omega
    rcases Nat.lt_or_gt_of_ne heq with hm | hm
    · rw [List.getElem?_append_left hm]
    · rw [List.getElem?_eq_none (by simp; omega), List.getElem?_eq_none (by omega)]

theorem room_le (t : List (Option (κ × ν))) : room t ≤ t.length := List.findIdx_le_length

theorem room_empty (k : κ) (v : ν) : t[room t]? ≠ some (some (k, v)) := by
  intro h
  obtain ⟨hlt, hget⟩ := List.getElem?_eq_some_iff.mp h
  have hnone : (t.get ⟨room t, hlt⟩).isNone = true := List.findIdx_getElem
  rw [show t.get ⟨room t, hlt⟩ = some (k, v) from hget] at hnone
  simp at hnone

theorem Unique.store_none (hu : Unique t) (hn : n ≤ t.length) : Unique (store t n none) := by
  intro k' v' w' m m' hm hm'
  rw [getElem?_store hn] at hm hm'
  split_ifs at hm hm' with h1 h2 h2
  · simp at hm
  · simp at hm
  · simp at hm'
  · exact hu _ _ _ _ _ hm hm'

variable [DecidableEq κ]

theorem find_some (h : find k t = some r) : t[r.2]? = some (some (k, r.1)) := by
  induction t generalizing r with
  | nil => simp [find] at h
  | cons e t ih =>
    have hlater : (find k t).map (fun (v, n) => (v, n + 1)) = some r → (e :: t)[r.2]? = some (some (k, r.1)) := by
      intro hmap
      obtain ⟨r', hr', rfl⟩ := Option.map_eq_some_iff.mp hmap
      exact ih hr'
    cases e with
    | none => exact hlater h
    | some e =>
      rw [find] at h
      split_ifs at h with hk
      · obtain rfl := Option.some.inj h
        rw [← hk]
        rfl
      · exact hlater h

theorem find_none (h : find k t = none) (n : Nat) (v : ν) : t[n]? ≠ some (some (k, v)) := by
  induction t generalizing n with
  | nil => simp
  | cons e t ih =>
    have hlater : find k t = none := by
      cases e with
      | none => exact Option.map_eq_none_iff.mp h
      | some e =>
        rw [find] at h
        split_ifs at h
        exact Option.map_eq_none_iff.mp h
    cases n with
    | succ n => exact ih hlater n
    | zero =>
      intro he
      obtain rfl := Option.some.inj he
      simp [find] at h

theorem Unique.find_iff (hu : Unique t) : find k t = some (v, n) ↔ t[n]? = some (some (k, v)) := by
  refine ⟨find_some, fun h => ?_⟩
  cases hfind : find k t with
  | none => exact absurd h (find_none hfind n v)
  | some r =>
    have hr := find_some hfind
    obtain rfl := hu _ _ _ _ _ hr h
    rw [hr] at h
    simp only [Option.some.injEq, Prod.mk.injEq, true_and] at h
    rw [← h]

theorem find_congr (hu : Unique t) (hu' : Unique t')
    (h : ∀ v (n : Nat), t'[n]? = some (some (k, v)) ↔ t[n]? = some (some (k, v))) : find k t' = find k t := by
  refine Option.ext fun ⟨v, n⟩ => ?_
  rw [hu.find_iff, hu'.find_iff, h]

theorem Unique.store_some (hu : Unique t) (hk : find k t = none) (hn : n ≤ t.length) :
    Unique (store t n (some (k, v))) := by
  intro k' v' w' m m' hm hm'
  rw [getElem?_store hn] at hm hm'
  split_ifs at hm hm' with h1 h2 h2
  · rw [h1, h2]
  · obtain ⟨rfl, -⟩ := Prod.mk.inj (Option.some.inj (Option.some.inj hm))
    exact absurd hm' (find_none hk m' w')
  · obtain ⟨rfl, -⟩ := Prod.mk.inj (Option.some.inj (Option.some.inj hm'))
    exact absurd hm (find_none hk m v')
  · exact hu _ _ _ _ _ hm hm'

theorem find_store_some (hu : Unique t) (hk : find k t = none) (hn : n ≤ t.length)
    (hempty : ∀ k' v', t[n]? ≠ some (some (k', v'))) (k' : κ) :
    find k' (store t n (some (k, v))) = if k' = k then some (v, n) else find k' t := by
  have hu' := hu.store_some (v := v) hk hn
  split_ifs with heq
  · rw [hu'.find_iff, getElem?_store hn, if_pos rfl, heq]
  · refine find_congr hu hu' fun v' m => ?_
    rw [getElem?_store hn]
    split_ifs with hm
    · rw [hm]
      simp [Ne.symm heq, hempty]
    · rfl

theorem find_store_none (hu : Unique t) (hn : n ≤ t.length) (k' : κ) :
    find k' (store t n none) = if (find k' t).map Prod.snd = some n then none else find k' t := by
  have hu' := hu.store_none hn
  split_ifs with hslot
  · obtain ⟨r, hr, rfl⟩ := Option.map_eq_some_iff.mp hslot
    rw [Option.eq_none_iff_forall_not_mem]
    rintro ⟨v', m⟩ hm
    rw [Option.mem_def, hu'.find_iff, getElem?_store hn] at hm
    split_ifs at hm with heq
    · simp at hm
    · exact heq (hu _ _ _ _ _ hm (find_some hr))
  · refine find_congr hu hu' fun v' m => ?_
    rw [getElem?_store hn]
    split_ifs with hm
    · rw [hm]
      simp only [Option.some.injEq, reduceCtorEq, false_iff]
      intro hthis
      exact hslot (by rw [hu.find_iff.mpr hthis]; rfl)
    · rfl

end Xv6.Lib.SlotTable
