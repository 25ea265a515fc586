import Mathlib.Data.Nat.ModEq

namespace Xv6.Lib

open Function List

-- A queue in an array of n cells. The counters r and w of what was taken and stored wrap at m.
structure Queue (n m : Nat) [NeZero n] (cells : Fin n → α) (r w : Nat) (stored taken buf : List α) : Prop where
  split : stored = taken ++ buf
  size : buf.length ≤ n
  read : r = taken.length % m
  write : w = stored.length % m
  cells : ∀ (k : Nat) (hk : k < buf.length), cells (Fin.ofNat n (taken.length + k)) = buf[k]

variable {n m : Nat} [NeZero n] {α : Type*} {cells : Fin n → α} {r w : Nat} {stored taken buf : List α}

theorem add_mod_inj (ha : a < m) (hb : b < m) : (c + a) % m = (c + b) % m ↔ a = b :=
  ⟨fun h => (Nat.ModEq.add_left_cancel' c h).eq_of_lt_of_lt ha hb, fun h => by rw [h]⟩

-- n divides m, so that the cell of an element is its number modulo n.
theorem ofNat_mod (hdvd : n ∣ m) (k : Nat) : Fin.ofNat n (k % m) = Fin.ofNat n k :=
  Fin.ext (Nat.mod_mod_of_dvd k hdvd)

namespace Queue

theorem length (h : Queue n m cells r w stored taken buf) : stored.length = taken.length + buf.length := by
  rw [h.split, length_append]

section

variable (h : Queue n m cells r w stored taken buf) (hnm : n < m)
include h hnm

theorem distance : (w + m - r) % m = buf.length := by
  have hs := h.size
  have hr : r < m := by
    rw [h.read]
    exact Nat.mod_lt _ (by omega)
  have hw : (taken.length + (w + m - r)) % m = (taken.length + buf.length) % m := by
    rw [← Nat.mod_add_mod, ← h.read, Nat.add_sub_of_le (by omega), Nat.add_mod_right, h.write, Nat.mod_mod, h.length]
  rw [← Nat.add_mod_mod] at hw
  exact (add_mod_inj (Nat.mod_lt _ (by omega)) (by omega)).mp hw

theorem empty_iff : r = w ↔ buf = [] := by
  have hs := h.size
  rw [h.read, h.write, h.length, ← length_eq_zero_iff, eq_comm]
  exact add_mod_inj (b := 0) (by omega) (by omega)

theorem full_iff : w = (r + n) % m ↔ buf.length = n := by
  have hs := h.size
  rw [h.read, h.write, h.length, Nat.mod_add_mod]
  exact add_mod_inj (by omega) hnm

end

section

variable (hdvd : n ∣ m)
include hdvd

theorem put (h : Queue n m cells r w stored taken buf) (hroom : buf.length ≠ n) (x : α) :
    Queue n m (update cells (Fin.ofNat n w) x) r ((w + 1) % m) (stored ++ [x]) taken (buf ++ [x]) := by
  have hlt : buf.length < n := by
    have := h.size
    omega
  refine ⟨by rw [h.split, append_assoc], ?_, h.read, ?_, fun k hk => ?_⟩
  · rw [length_append, length_singleton]
    exact hlt
  · rw [h.write, Nat.mod_add_mod, length_append, length_singleton]
  · rw [h.write, ofNat_mod hdvd, h.length]
    rw [length_append, length_singleton] at hk
    by_cases hlast : k = buf.length
    · subst hlast
      rw [update_self, getElem_concat_length rfl]
    · have hk' : k < buf.length := by omega
      rw [update_of_ne, h.cells k hk', getElem_append_left hk']
      exact fun heq => hlast ((add_mod_inj (by omega) hlt).mp (congrArg Fin.val heq))

theorem take (h : Queue n m cells r w stored taken (x :: buf)) :
    cells (Fin.ofNat n r) = x ∧ Queue n m cells ((r + 1) % m) w stored (taken ++ [x]) buf := by
  have hsize := h.size
  rw [length_cons] at hsize
  have hx := h.cells 0 (by simp)
  refine ⟨by rwa [h.read, ofNat_mod hdvd], by rw [h.split, append_assoc, singleton_append], by omega, ?_, h.write,
    fun k hk => ?_⟩
  · rw [h.read, Nat.mod_add_mod, length_append, length_singleton]
  · have hb := h.cells (k + 1) (by simpa using hk)
    rw [length_append, length_singleton, Nat.add_assoc, Nat.add_comm 1 k]
    exact hb

end

end Queue

end Xv6.Lib
