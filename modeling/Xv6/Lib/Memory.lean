import Mathlib.Tactic.Common

namespace Xv6.Lib

open List

variable {α : Type*}

def readAt (f : Nat → α) (a n : Nat) : List α := (List.range n).map fun i => f (a + i)

def writeAt (f : Nat → α) (a : Nat) (xs : List α) : Nat → α :=
  fun b => if a ≤ b then (xs[b - a]?).getD (f b) else f b

theorem readAt_succ (f : Nat → α) (a n : Nat) : readAt f a (n + 1) = f a :: readAt f (a + 1) n := by
  simp only [readAt, range_succ_eq_map, map_cons, map_map, Nat.add_zero]
  congr 1
  apply map_congr_left
  intro i _
  simp only [Function.comp_apply, Nat.succ_eq_add_one]
  congr 1
  omega

theorem readAt_add (f : Nat → α) (a m n : Nat) : readAt f a (m + n) = readAt f a m ++ readAt f (a + m) n := by
  simp only [readAt, range_add, map_append, map_map]
  congr 1
  apply map_congr_left
  intro i _
  simp only [Function.comp_apply]
  congr 1
  omega

theorem readAt_congr (h : ∀ i, i < n → f (a + i) = g (b + i)) :
    readAt f a n = readAt g b n :=
  map_congr_left fun i hi => h i (mem_range.mp hi)

theorem readAt_length (f : Nat → α) (a n : Nat) : (readAt f a n).length = n := by simp [readAt]

theorem readAt_take (f : Nat → α) (a n k : Nat) : (readAt f a n).take k = readAt f a (min k n) := by
  rw [readAt, readAt, ← map_take, take_range]

theorem readAt_drop (f : Nat → α) (a n k : Nat) : (readAt f a n).drop k = readAt f (a + k) (n - k) := by
  rcases Nat.le_total k n with hle | hle
  · obtain ⟨m, rfl⟩ := Nat.exists_eq_add_of_le hle
    rw [readAt_add, drop_left' (readAt_length f a k), Nat.add_sub_cancel_left]
  · rw [drop_eq_nil_of_le (by rw [readAt_length]; exact hle), Nat.sub_eq_zero_of_le hle]
    rfl

theorem readAt_eq (xs : List α) (d : α) (f : Nat → α) (h : ∀ i, i < xs.length → f (a + i) = xs.getD i d) :
    readAt f a xs.length = xs := by
  apply ext_getElem
  · exact readAt_length ..
  · intro i hi hi'
    simp only [readAt, getElem_map, getElem_range]
    rw [h i hi', getD_eq_getElem?_getD, getElem?_eq_getElem hi']
    rfl

theorem writeAt_outside (f : Nat → α) (xs : List α) (h : a + xs.length ≤ b ∨ b < a) : writeAt f a xs b = f b := by
  rw [writeAt]
  split
  next hle =>
    rw [getElem?_eq_none (by omega)]
    rfl
  next => rfl

theorem writeAt_inside (f : Nat → α) (xs : List α) (h : i < xs.length) : writeAt f a xs (a + i) = xs[i] := by
  rw [writeAt, if_pos (Nat.le_add_right a i), Nat.add_sub_cancel_left, getElem?_eq_getElem h]
  rfl

theorem readAt_writeAt (f : Nat → α) (xs : List α) (a : Nat) : readAt (writeAt f a xs) a xs.length = xs := by
  apply ext_getElem
  · exact readAt_length ..
  · intro i hi hi'
    simp only [readAt, getElem_map, getElem_range]
    exact writeAt_inside f xs hi'

theorem writeAt_congr (h : f b = g b) : writeAt f a xs b = writeAt g a xs b := by
  rw [writeAt, writeAt, h]

theorem writeAt_readAt (f g : Nat → α) (a : Nat) (h : i < n) : writeAt f 0 (readAt g a n) i = g (a + i) := by
  have hin := writeAt_inside f (readAt g a n) (a := 0) (by rwa [readAt_length])
  rw [Nat.zero_add] at hin
  rw [hin]
  simp only [readAt, getElem_map, getElem_range]

theorem writeAt_nil (f : Nat → α) (a : Nat) : writeAt f a [] = f := by
  funext b
  simp [writeAt]

theorem writeAt_cons (f : Nat → α) (a : Nat) (x : α) (xs : List α) :
    writeAt f a (x :: xs) = writeAt (writeAt f a [x]) (a + 1) xs := by
  funext b
  rcases Nat.lt_trichotomy b a with hlt | rfl | hgt
  · simp [writeAt, Nat.not_le.mpr hlt, Nat.not_le.mpr (Nat.lt_succ_of_lt hlt)]
  · have hnot : ¬b + 1 ≤ b := Nat.not_succ_le_self b
    simp [writeAt, hnot]
  · have hsub : b - a = (b - (a + 1)) + 1 := by omega
    have hnone : ([x] : List α)[b - a]? = none := by
      rw [getElem?_eq_none]
      simp only [length_singleton]
      omega
    simp only [writeAt, if_pos (Nat.le_of_lt hgt), if_pos (show a + 1 ≤ b from hgt), hnone, Option.getD_none]
    rw [hsub, getElem?_cons_succ]

theorem writeAt_append (f : Nat → α) (a : Nat) (xs ys : List α) :
    writeAt f a (xs ++ ys) = writeAt (writeAt f a xs) (a + xs.length) ys := by
  induction xs generalizing f a with
  | nil => rw [nil_append, writeAt_nil, length_nil, Nat.add_zero]
  | cons x xs ih =>
    rw [cons_append, writeAt_cons, ih, ← writeAt_cons, length_cons]
    congr 1
    omega

end Xv6.Lib
