import Xv6.Params

namespace Xv6

-- Page-table entries of kernel/riscv.h.
abbrev Pte := BitVec 64

def PTE_V : Pte := 1
def PTE_R : Pte := 2
def PTE_W : Pte := 4
def PTE_X : Pte := 8
def PTE_U : Pte := 16

def PA2PTE (pa : Nat) : Pte := (BitVec.ofNat 64 pa >>> 12) <<< 10
def PTE2PA (pte : Pte) : Nat := ((pte >>> 10) <<< 12).toNat
def PTE_FLAGS (pte : Pte) : Pte := pte &&& 0x3FF

-- The 9 bits of the page number that index the page-table page of a level.
def PX (level va : Nat) : Fin 512 := Fin.ofNat 512 (va >>> (12 + 9 * level))

def hasFlag (pte flag : Pte) : Prop := pte &&& flag ≠ 0#64

instance (pte flag : Pte) : Decidable (hasFlag pte flag) := inferInstanceAs (Decidable (_ ≠ _))

-- What freewalk() takes for a pointer to a lower page-table page.
def innerPte (pte : Pte) : Prop := pte &&& (PTE_R ||| PTE_W ||| PTE_X) = 0#64

instance (pte : Pte) : Decidable (innerPte pte) := inferInstanceAs (Decidable (_ = _))

theorem inner_iff (w : Pte) : innerPte w ↔ ¬hasFlag w PTE_R ∧ ¬hasFlag w PTE_W ∧ ¬hasFlag w PTE_X := by
  simp only [innerPte, hasFlag, ne_eq, not_not, BitVec.and_or_distrib_left]
  rw [BitVec.or_eq_zero_iff, BitVec.or_eq_zero_iff, and_assoc]

@[simp] theorem not_has_zero (flag : Pte) : ¬hasFlag 0#64 flag := by
  simp [hasFlag]

-- Flag bits: everything below the physical page number.
def IsFlags (f : Pte) : Prop := f.toNat < 1024

instance (f : Pte) : Decidable (IsFlags f) := inferInstanceAs (Decidable (_ < _))

theorem isFlags_PTE_FLAGS (w : Pte) : IsFlags (PTE_FLAGS w) := by
  have h : (w &&& 0x3FF#64).toNat ≤ 0x3FF := by
    rw [BitVec.toNat_and]
    exact Nat.and_le_right
  exact Nat.lt_succ_of_le h

theorem IsFlags.or (h : IsFlags f) (h' : IsFlags f') : IsFlags (f ||| f') := by
  unfold IsFlags
  rw [BitVec.toNat_or]
  exact Nat.or_lt_two_pow (n := 10) h h'

theorem IsFlags.shift (h : IsFlags f) : f >>> 10 = 0#64 := by
  apply BitVec.eq_of_toNat_eq
  have hlt : f.toNat < 1024 := h
  simp only [BitVec.toNat_ushiftRight, Nat.shiftRight_eq_div_pow, BitVec.toNat_ofNat]
  omega

theorem toNat_PA2PTE (pa : Nat) (hpa : pa < 2 ^ 56) : (PA2PTE pa).toNat = pa / 4096 * 1024 := by
  simp only [PA2PTE, BitVec.toNat_shiftLeft, BitVec.toNat_ushiftRight, BitVec.toNat_ofNat,
    Nat.shiftRight_eq_div_pow, Nat.shiftLeft_eq]
  omega

theorem PTE2PA_or (hpa : pa < 2 ^ 56) (hal : pa % PGSIZE = 0) (hf : IsFlags f) : PTE2PA (PA2PTE pa ||| f) = pa := by
  have hshift : (PA2PTE pa ||| f) >>> 10 = PA2PTE pa >>> 10 := by
    rw [BitVec.ushiftRight_or_distrib, hf.shift, BitVec.or_zero]
  unfold PTE2PA
  simp only [hshift, BitVec.toNat_shiftLeft, BitVec.toNat_ushiftRight, toNat_PA2PTE pa hpa,
    Nat.shiftRight_eq_div_pow, Nat.shiftLeft_eq]
  simp only [PGSIZE_eq] at hal
  omega

theorem has_PA2PTE_or (hflag : IsFlags flag) :
    hasFlag (PA2PTE pa ||| f) flag ↔ hasFlag f flag := by
  have hzero : PA2PTE pa &&& flag = 0#64 := by
    apply BitVec.eq_of_getLsbD_eq
    intro i hi
    simp only [PA2PTE, BitVec.getLsbD_and, BitVec.getLsbD_shiftLeft, BitVec.getLsbD_zero]
    by_cases h : i < 10
    · simp [h]
    · have hbit : flag.getLsbD i = false := by
        rw [BitVec.getLsbD, Nat.testBit_lt_two_pow]
        have hlt : flag.toNat < 2 ^ 10 := hflag
        exact Nat.lt_of_lt_of_le hlt (Nat.pow_le_pow_right (by omega) (by omega))
      simp [hbit]
  unfold hasFlag
  rw [BitVec.and_comm, BitVec.and_or_distrib_left, BitVec.and_comm flag, BitVec.and_comm flag, hzero,
    BitVec.zero_or]

theorem has_or : hasFlag (w ||| w') flag ↔ hasFlag w flag ∨ hasFlag w' flag := by
  unfold hasFlag
  rw [BitVec.and_comm, BitVec.and_or_distrib_left, ne_eq, BitVec.or_eq_zero_iff,
    BitVec.and_comm flag, BitVec.and_comm flag]
  tauto

theorem PTE2PA_table (hpa : pa < 2 ^ 56) (hal : pa % PGSIZE = 0) :
    PTE2PA (PA2PTE pa ||| PTE_V) = pa := PTE2PA_or hpa hal (by decide)

theorem has_V_table (pa : Nat) : hasFlag (PA2PTE pa ||| PTE_V) PTE_V :=
  has_or.mpr (.inr (by decide))

theorem inner_table (pa : Nat) : innerPte (PA2PTE pa ||| PTE_V) := by
  rw [inner_iff, has_PA2PTE_or (by decide), has_PA2PTE_or (by decide), has_PA2PTE_or (by decide)]
  decide

theorem PTE2PA_leaf (hpa : pa < 2 ^ 56) (hal : pa % PGSIZE = 0)
    (hf : IsFlags perm) : PTE2PA (PA2PTE pa ||| perm ||| PTE_V) = pa := by
  rw [BitVec.or_assoc]
  exact PTE2PA_or hpa hal (hf.or (by decide))

theorem has_V_leaf (pa : Nat) (perm : Pte) : hasFlag (PA2PTE pa ||| perm ||| PTE_V) PTE_V :=
  has_or.mpr (.inr (by decide))

theorem has_leaf (hflag : IsFlags flag) (hv : ¬hasFlag PTE_V flag) :
    hasFlag (PA2PTE pa ||| perm ||| PTE_V) flag ↔ hasFlag perm flag := by
  rw [BitVec.or_assoc, has_PA2PTE_or hflag, has_or]
  exact or_iff_left hv

theorem has_flags (h : 0x3FF &&& flag = flag) :
    hasFlag (PTE_FLAGS w) flag ↔ hasFlag w flag := by
  unfold hasFlag PTE_FLAGS
  rw [BitVec.and_assoc, h]

theorem has_clear (h : ~~~PTE_U &&& flag = flag) :
    hasFlag (w &&& ~~~PTE_U) flag ↔ hasFlag w flag := by
  unfold hasFlag
  rw [BitVec.and_assoc, h]

theorem PTE2PA_clear (w : Pte) : PTE2PA (w &&& ~~~PTE_U) = PTE2PA w := by
  have hshift : (w &&& ~~~PTE_U) >>> 10 = w >>> 10 := by
    apply BitVec.eq_of_getLsbD_eq
    intro i hi
    have hbit : (~~~PTE_U).getLsbD (10 + i) = decide (10 + i < 64) := by
      have hU : PTE_U.getLsbD (10 + i) = false := by
        rw [BitVec.getLsbD, Nat.testBit_lt_two_pow]
        exact Nat.lt_of_lt_of_le (by decide : PTE_U.toNat < 2 ^ 10)
          (Nat.pow_le_pow_right (by omega) (by omega))
      rw [BitVec.getLsbD_not, hU, Bool.not_false, Bool.and_true]
    rw [BitVec.getLsbD_ushiftRight, BitVec.getLsbD_ushiftRight, BitVec.getLsbD_and, hbit]
    by_cases h64 : 10 + i < 64
    · simp [h64]
    · simp [BitVec.getLsbD_of_ge w (10 + i) (by omega)]
  unfold PTE2PA
  rw [hshift]

theorem PX_val (level va : Nat) : (PX level va).val = va / 2 ^ (12 + 9 * level) % 512 := by
  simp only [PX, Fin.val_ofNat, Nat.shiftRight_eq_div_pow]

theorem PX_zero (va : Nat) : (PX 0 va).val = va / 0x1000 % 512 := PX_val 0 va
theorem PX_one (va : Nat) : (PX 1 va).val = va / 0x200000 % 512 := PX_val 1 va
theorem PX_two (va : Nat) : (PX 2 va).val = va / 0x40000000 % 512 := PX_val 2 va

theorem px_eq_iff (h : va < 2 ^ 39) (h' : va' < 2 ^ 39) :
    (∀ j, j ≤ 2 → PX j va = PX j va') ↔ va / PGSIZE = va' / PGSIZE := by
  constructor
  · intro heq
    have h0 := congrArg Fin.val (heq 0 (by omega))
    have h1 := congrArg Fin.val (heq 1 (by omega))
    have h2 := congrArg Fin.val (heq 2 (by omega))
    rw [PX_zero, PX_zero] at h0
    rw [PX_one, PX_one] at h1
    rw [PX_two, PX_two] at h2
    simp only [PGSIZE_eq]
    omega
  · intro heq j hj
    simp only [PGSIZE_eq] at heq
    have hcases : j = 0 ∨ j = 1 ∨ j = 2 := by omega
    apply Fin.ext
    rcases hcases with hj | hj | hj
    · rw [hj, PX_zero, PX_zero, heq]
    · rw [hj, PX_one, PX_one]
      omega
    · rw [hj, PX_two, PX_two]
      omega

end Xv6
