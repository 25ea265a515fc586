import Xv6.Params

namespace Xv6.Memmove

open Function

abbrev Memory := Nat → BitVec 8

-- while(n-- > 0) *d++ = *s++, with 64-bit pointers.
def copyUp (d s : Nat) : Nat → Memory → Memory
  | 0, m => m
  | n + 1, m => copyUp (wrap64 (d + 1)) (wrap64 (s + 1)) n (update m d (m s))

def decrement (p : Nat) : Nat := wrap64 (2 ^ 64 - 1 + p)

-- while(n-- > 0) *--d = *--s
def copyDown (d s : Nat) : Nat → Memory → Memory
  | 0, m => m
  | n + 1, m => copyDown (decrement d) (decrement s) n (update m (decrement d) (m (decrement s)))

-- memmove() of kernel/string.c.
def memmove (dst src n : Nat) (m : Memory) : Memory :=
  if n = 0 then m
  else if src < dst ∧ wrap64 (src + n) > dst then copyDown (wrap64 (dst + n)) (wrap64 (src + n)) n m
  else copyUp dst src n m

-- memmove() of user/ulib.c, whose n is an int.
def umemmove (vdst vsrc : Nat) (n : Int) (m : Memory) : Memory :=
  if vsrc > vdst then copyUp vdst vsrc n.toNat m
  else copyDown ((vdst + n) % 2 ^ 64).toNat ((vsrc + n) % 2 ^ 64).toNat n.toNat m

-- The range at dst holds what the range at src held in m, and nothing else has changed.
def Moved (dst src n : Nat) (m m' : Memory) : Prop :=
  ∀ a, m' a = if dst ≤ a ∧ a < dst + n then m (src + (a - dst)) else m a

-- Copying upwards overwrites no byte of the source that is still to come.
theorem moved_copyUp (hd : d + n ≤ 2 ^ 64) (hs : s + n ≤ 2 ^ 64) (hle : d ≤ s ∨ s + n ≤ d) (m : Memory) :
    Moved d s n m (copyUp d s n m) := by
  induction n generalizing d s m with
  | zero =>
    intro a
    rw [if_neg (by omega), copyUp]
  | succ n ih =>
    intro a
    rw [copyUp]
    by_cases hn : n = 0
    · subst hn
      by_cases ha : a = d
      · subst ha
        simp [copyUp]
      · rw [if_neg (by omega), copyUp, update_of_ne ha]
    · rw [wrap64_eq_of_lt (by omega), wrap64_eq_of_lt (by omega), ih (by omega) (by omega) (by omega) _ a]
      by_cases ha : a = d
      · subst ha
        rw [if_neg (by omega), if_pos (by omega), update_self, Nat.sub_self, Nat.add_zero]
      · rw [update_of_ne ha]
        split_ifs with h1 h2 h2
        · rw [update_of_ne (by omega), show s + 1 + (a - (d + 1)) = s + (a - d) by omega]
        all_goals first | rfl | omega

theorem moved_copyDown (hd : d + n ≤ 2 ^ 64) (hs : s + n ≤ 2 ^ 64) (hle : s ≤ d ∨ d + n ≤ s) (m : Memory) :
    Moved d s n m (copyDown (wrap64 (d + n)) (wrap64 (s + n)) n m) := by
  induction n generalizing m with
  | zero =>
    intro a
    rw [if_neg (by omega), copyDown]
  | succ n ih =>
    have hlast : ∀ x, x + (n + 1) ≤ 2 ^ 64 → decrement (wrap64 (x + (n + 1))) = wrap64 (x + n) := by
      intro x hx
      simp only [decrement, wrap64]
      omega
    intro a
    rw [copyDown, hlast d hd, hlast s hs, ih (by omega) (by omega) (by omega) _ a, wrap64_eq_of_lt (by omega),
      wrap64_eq_of_lt (by omega)]
    by_cases ha : a = d + n
    · subst ha
      rw [if_neg (by omega), if_pos (by omega), update_self, Nat.add_sub_cancel_left]
    · rw [update_of_ne ha]
      split_ifs with h1 h2 h2
      · exact update_of_ne (by omega) ..
      all_goals first | rfl | omega

theorem memmove_moves (dst src n : Nat) (k : Int) (m : Memory) :
    (dst + n ≤ 2 ^ 64 → src + n ≤ 2 ^ 64 → Moved dst src n m (memmove dst src n m)) ∧
    (dst + k.toNat ≤ 2 ^ 64 → src + k.toNat ≤ 2 ^ 64 → Moved dst src k.toNat m (umemmove dst src k m)) := by
  refine ⟨fun hd hs => ?_, fun hd hs => ?_⟩
  · rw [memmove]
    split_ifs with hn hover
    · subst hn
      exact moved_copyUp hd hs (by omega) m
    · exact moved_copyDown hd hs (by omega) m
    · refine moved_copyUp hd hs ?_ m
      -- src + n can only wrap to 0 if dst lies below src
      by_cases hlt : src + n < 2 ^ 64
      · rw [wrap64_eq_of_lt hlt] at hover
        omega
      · omega
  · rw [umemmove]
    split_ifs with hgt
    · exact moved_copyUp hd hs (by omega) m
    · have hdown := moved_copyDown hd hs (.inl (by omega)) m
      by_cases hk : 0 ≤ k
      · have hend : ∀ x : Nat, ((x + k) % 2 ^ 64).toNat = wrap64 (x + k.toNat) := by
          intro x
          simp only [wrap64]
          omega
        rwa [hend, hend]
      · rw [Int.toNat_of_nonpos (by omega)] at hdown ⊢
        exact hdown

-- A range moved up by one byte, over itself.
theorem memmove_moves_overlap :
    Moved 1 0 3 (fun a => BitVec.ofNat 8 a) (memmove 1 0 3 fun a => BitVec.ofNat 8 a) ∧
    Moved 1 0 3 (fun a => BitVec.ofNat 8 a) (umemmove 1 0 3 fun a => BitVec.ofNat 8 a) :=
  have h := memmove_moves 1 0 3 3 fun a => BitVec.ofNat 8 a
  ⟨h.1 (by decide) (by decide), h.2 (by decide) (by decide)⟩

end Xv6.Memmove
