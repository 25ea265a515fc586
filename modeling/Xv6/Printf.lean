import Mathlib.Data.List.Nodup
import Xv6.Params

namespace Xv6.Printf

open List

-- static char digits[] of kernel/printf.c and of user/printf.c.
def kdigits : List Char := "0123456789abcdef".toList
def udigits : List Char := "0123456789ABCDEF".toList

-- do { buf[i++] = digits[x % base]; } while((x /= base) != 0). What it stores, from the place on
-- that has `room` bytes of buf left, or none if it comes to the end of buf.
def digitLoop (digits : List Char) (base : Nat) : Nat → Nat → Option (List Char)
  | 0, _ => none
  | room + 1, x =>
    let c := digits.getD (x % base) '\x00'
    if x / base ≠ 0 then (digitLoop digits base room (x / base)).map (c :: ·) else some [c]

-- The rest of printint(), which prints buf from its end.
def printDigits (digits : List Char) (base x : Nat) (neg : Bool) : Option (List Char) := do
  let buf ← digitLoop digits base 20 x
  if neg then
    if buf.length < 20 then return (buf ++ ['-']).reverse else none
  else return buf.reverse

-- printint() of the kernel, whose x is an unsigned long long.
def printint (xx : BitVec 64) (base : Nat) (sign : Bool) : Option (List Char) :=
  let sign := sign && xx.slt 0#64
  let x := if sign then -xx else xx
  printDigits kdigits base x.toNat sign

-- printint() of user/printf.c, whose x is a uint.
def uprintint (xx : BitVec 64) (base : Nat) (sgn : Bool) : Option (List Char) :=
  let neg := sgn && xx.slt 0#64
  let x := if neg then -xx else xx
  printDigits udigits base (x.setWidth 32).toNat neg

-- The conversions of numbers in printf(), with the type that va_arg() is given.
inductive Conversion where
  | d
  | ld
  | lld
  | u
  | lu
  | llu
  | x
  | lx
  | llx
  deriving DecidableEq, Repr

def Conversion.vaArg (arg : BitVec 64) : Conversion → BitVec 64
  | .d => (arg.setWidth 32).signExtend 64
  | .u | .x => (arg.setWidth 32).setWidth 64
  | .ld | .lld | .lu | .llu | .lx | .llx => arg

def Conversion.base : Conversion → Nat
  | .x | .lx | .llx => 16
  | .d | .ld | .lld | .u | .lu | .llu => 10

def Conversion.sign : Conversion → Bool
  | .d | .ld | .lld => true
  | .u | .lu | .llu | .x | .lx | .llx => false

-- What printf() of the kernel and printf() of a user program emit for it.
def Conversion.print (c : Conversion) (arg : BitVec 64) : Option (List Char) := printint (c.vaArg arg) c.base c.sign
def Conversion.uprint (c : Conversion) (arg : BitVec 64) : Option (List Char) := uprintint (c.vaArg arg) c.base c.sign

-- The number that a value stands for, with or without a sign.
def value (xx : BitVec 64) (sign : Bool) : Int := if sign then xx.toInt else xx.toNat

-- Reading a numeral, the highest digit first.
def parseNat (digits : List Char) (base : Nat) (ds : List Char) : Nat :=
  ds.foldl (fun n c => digits.idxOf c + base * n) 0

def parse (digits : List Char) (base : Nat) (cs : List Char) : Int :=
  if cs.head? = some '-' then -parseNat digits base cs.tail else parseNat digits base cs

-- The digits of x, with no zero before them.
structure Numeral (digits : List Char) (base x : Nat) (ds : List Char) : Prop where
  digit : ∀ c ∈ ds, c ∈ digits.take base
  leading : ds.head? = digits.head? → ds.length = 1
  value : parseNat digits base ds = x

def Canonical (digits : List Char) (base : Nat) (v : Int) (cs : List Char) : Prop :=
  ∃ ds, ds ≠ [] ∧ Numeral digits base v.natAbs ds ∧ cs = if v < 0 then '-' :: ds else ds

-- What the digit loop needs of a table and a base.
structure Fits (digits : List Char) (base : Nat) : Prop where
  nodup : digits.Nodup
  length : base ≤ digits.length
  one_lt : 1 < base
  minus : '-' ∉ digits

variable {digits ds cs : List Char} {base x k room : Nat} {v : Int}

theorem fits_kdigits (h : base = 10 ∨ base = 16) : Fits kdigits base := by
  rcases h with rfl | rfl <;> exact ⟨by decide, by decide, by decide, by decide⟩

theorem fits_udigits (h : base = 10 ∨ base = 16) : Fits udigits base := by
  rcases h with rfl | rfl <;> exact ⟨by decide, by decide, by decide, by decide⟩

theorem Fits.digit (h : Fits digits base) (hx : x < base) :
    digits.getD x '\x00' ∈ digits.take base ∧ digits.idxOf (digits.getD x '\x00') = x ∧
      (some (digits.getD x '\x00') = digits.head? → x = 0) := by
  have hlt : x < digits.length := Nat.lt_of_lt_of_le hx h.length
  rw [getD_eq_getElem?_getD, getElem?_eq_getElem hlt, Option.getD_some]
  refine ⟨mem_take_iff_getElem.mpr ⟨x, by omega, rfl⟩, h.nodup.idxOf_getElem x hlt, fun hhead => ?_⟩
  rw [head?_eq_getElem?, getElem?_eq_getElem (by omega), Option.some.injEq] at hhead
  exact h.nodup.getElem_inj_iff.mp hhead

-- The loop stores at most k digits of a number below base^k.
theorem digitLoop_spec (h : Fits digits base) (hk : 0 < k) (hroom : k ≤ room) (hx : x < base ^ k) :
    ∃ buf, digitLoop digits base room x = some buf ∧ buf ≠ [] ∧ buf.length ≤ k ∧
      (∀ c ∈ buf, c ∈ digits.take base) ∧ (buf.getLast? = digits.head? → x = 0 ∧ buf.length = 1) ∧
      buf.foldr (fun c n => digits.idxOf c + base * n) 0 = x := by
  induction room generalizing x k with
  | zero => omega
  | succ room ih =>
    obtain ⟨hmem, hidx, hzero⟩ := h.digit (Nat.mod_lt x (Nat.zero_lt_of_lt h.one_lt))
    have hdiv := Nat.mod_add_div x base
    rw [digitLoop]
    by_cases hq : x / base = 0
    · rw [if_neg (not_not.mpr hq)]
      refine ⟨_, rfl, by simp, hk, by simpa using hmem, fun hlast => ⟨?_, rfl⟩, ?_⟩
      · have := hzero hlast
        rw [this, hq] at hdiv
        omega
      · rw [foldr_cons, foldr_nil, hidx]
        rw [hq] at hdiv
        exact hdiv
    · have hk1 : k ≠ 1 := by
        rintro rfl
        exact hq (Nat.div_eq_of_lt (by simpa using hx))
      have hlt : x / base < base ^ (k - 1) := by
        apply Nat.div_lt_of_lt_mul
        rw [← Nat.pow_succ']
        rwa [show (k - 1).succ = k by omega]
      obtain ⟨buf, hloop, hne, hlen, hdig, hlast, hval⟩ := ih (by omega) (by omega) hlt
      rw [if_pos hq, hloop]
      refine ⟨_, rfl, by simp, by simp; omega, by simpa using ⟨hmem, hdig⟩, fun hl => ?_, ?_⟩
      · rw [getLast?_cons_of_ne_nil hne] at hl
        exact absurd (hlast hl).1 hq
      · rw [foldr_cons, hval, hidx, hdiv]

theorem printDigits_spec (neg : Bool) (h : Fits digits base) (hk : 0 < k) (hroom : (if neg then k + 1 else k) ≤ 20)
    (hx : x < base ^ k) : ∃ ds, ds ≠ [] ∧ Numeral digits base x ds ∧
      printDigits digits base x neg = some (if neg then '-' :: ds else ds) := by
  have hk20 : k ≤ 20 := by
    split at hroom <;> omega
  obtain ⟨buf, hloop, hne, hlen, hdig, hlast, hval⟩ := digitLoop_spec h hk hk20 hx
  refine ⟨buf.reverse, by simpa using hne, ⟨by simpa using hdig, fun hhead => ?_, ?_⟩, ?_⟩
  · rw [head?_reverse] at hhead
    simpa using (hlast hhead).2
  · rw [parseNat, foldl_reverse]
    exact hval
  · rw [printDigits, hloop]
    cases neg with
    | false => rfl
    | true =>
      have hshort : buf.length < 20 := by
        simp only [if_true] at hroom
        omega
      simp [hshort]

theorem parse_canonical (h : Fits digits base) (hc : Canonical digits base v cs) : parse digits base cs = v := by
  obtain ⟨ds, hne, hnum, rfl⟩ := hc
  by_cases hv : v < 0
  · rw [if_pos hv, parse, if_pos head?_cons, tail_cons, hnum.value]
    omega
  · have hhead : ds.head? ≠ some '-' := fun hd =>
      h.minus (mem_of_mem_take (hnum.digit _ (mem_of_mem_head? hd)))
    rw [if_neg hv, parse, if_neg hhead, hnum.value]
    omega

theorem slt_zero (xx : BitVec 64) : xx.slt 0#64 = decide (xx.toInt < 0) := by
  simp [BitVec.slt]

-- What both versions of printint() compute before the digits.
theorem neg_eq (xx : BitVec 64) (sign : Bool) : (sign && xx.slt 0#64) = decide (value xx sign < 0) := by
  cases sign with
  | false => simp [value]
  | true => simp [value, slt_zero]

theorem natAbs_value (xx : BitVec 64) (sign : Bool) :
    (if (sign && xx.slt 0#64) = true then -xx else xx).toNat = (value xx sign).natAbs := by
  cases sign with
  | false => simp [value]
  | true =>
    have hint := BitVec.toInt_eq_toNat_cond xx
    have hlt := xx.isLt
    rw [slt_zero, value, if_pos rfl]
    by_cases hneg : xx.toInt < 0
    · simp only [hneg, decide_true, Bool.and_self, if_true, BitVec.toNat_neg]
      split at hint <;> omega
    · simp only [hneg, decide_false, Bool.and_false, Bool.false_eq_true, if_false]
      split at hint <;> omega

theorem value_bounds (xx : BitVec 64) (sign : Bool) :
    (value xx sign).natAbs < 10 ^ 20 ∧ (value xx sign < 0 → (value xx sign).natAbs < 10 ^ 19) := by
  have hlt := xx.isLt
  have hint := BitVec.le_toInt xx
  have hint' := BitVec.toInt_lt (x := xx)
  unfold value
  split <;> omega

theorem lt_pow (hb : base = 10 ∨ base = 16) (h : x < 10 ^ k) : x < base ^ k := by
  rcases hb with rfl | rfl
  · exact h
  · exact Nat.lt_of_lt_of_le h (Nat.pow_le_pow_left (by decide) k)

theorem printDigits_value (xx : BitVec 64) (sign : Bool) (h : Fits digits base) (hb : base = 10 ∨ base = 16)
    (hx : x ≤ (value xx sign).natAbs) : ∃ ds, ds ≠ [] ∧ Numeral digits base x ds ∧
      printDigits digits base x (decide (value xx sign < 0)) = some (if value xx sign < 0 then '-' :: ds else ds) := by
  obtain ⟨hall, hneg⟩ := value_bounds xx sign
  by_cases hv : value xx sign < 0
  · have hspec := printDigits_spec (k := 19) true h (by omega) (by decide)
      (lt_pow hb (Nat.lt_of_le_of_lt hx (hneg hv)))
    simpa [hv] using hspec
  · have hspec := printDigits_spec (k := 20) false h (by omega) (by decide)
      (lt_pow hb (Nat.lt_of_le_of_lt hx hall))
    simpa [hv] using hspec

theorem printint_canonical (xx : BitVec 64) (sign : Bool) (hb : base = 10 ∨ base = 16) :
    ∃ cs, printint xx base sign = some cs ∧ Canonical kdigits base (value xx sign) cs := by
  obtain ⟨ds, hne, hnum, heq⟩ := printDigits_value xx sign (fits_kdigits hb) hb (Nat.le_refl _)
  refine ⟨_, ?_, ds, hne, hnum, rfl⟩
  rw [printint, natAbs_value, neg_eq]
  exact heq

-- printint() of the kernel prints every value, and no store is past the end of its buffer.
theorem printint_exact (xx : BitVec 64) (base : Nat) (sign : Bool) (hb : base = 10 ∨ base = 16) :
    ∃ cs, printint xx base sign = some cs ∧ Canonical kdigits base (value xx sign) cs ∧
      parse kdigits base cs = value xx sign := by
  obtain ⟨cs, heq, hc⟩ := printint_canonical xx sign hb
  exact ⟨cs, heq, hc, parse_canonical (fits_kdigits hb) hc⟩

theorem printint_exact_most_negative : printint (BitVec.intMin 64) 10 true = some "-9223372036854775808".toList ∧
    parse kdigits 10 "-9223372036854775808".toList = -9223372036854775808 := by
  obtain ⟨cs, heq, -, hparse⟩ := printint_exact (BitVec.intMin 64) 10 true (.inl rfl)
  have hcs : printint (BitVec.intMin 64) 10 true = some "-9223372036854775808".toList := by decide +kernel
  rw [heq] at hcs ⊢
  rw [Option.some.inj hcs] at hparse ⊢
  exact ⟨rfl, hparse⟩

theorem Conversion.base_eq (c : Conversion) : c.base = 10 ∨ c.base = 16 := by
  cases c <;> simp [Conversion.base]

theorem uprintint_spec (xx : BitVec 64) (sgn : Bool) (hb : base = 10 ∨ base = 16) : ∃ ds, ds ≠ [] ∧
    Numeral udigits base ((value xx sgn).natAbs % 2 ^ 32) ds ∧
      uprintint xx base sgn = some (if value xx sgn < 0 then '-' :: ds else ds) := by
  obtain ⟨ds, hne, hnum, heq⟩ := printDigits_value xx sgn (fits_udigits hb) hb (Nat.mod_le _ (2 ^ 32))
  refine ⟨ds, hne, hnum, ?_⟩
  rw [uprintint, BitVec.toNat_setWidth, natAbs_value, neg_eq]
  exact heq

theorem value_short (arg : BitVec 64) (hc : c = .d ∨ c = .u ∨ c = .x) :
    (value (Conversion.vaArg arg c) c.sign).natAbs < 2 ^ 32 := by
  have hlt := (arg.setWidth 32).isLt
  have hint := BitVec.le_toInt (arg.setWidth 32)
  have hint' := BitVec.toInt_lt (x := arg.setWidth 32)
  rcases hc with rfl | rfl | rfl
  · rw [Conversion.vaArg, Conversion.sign, value, if_pos rfl, BitVec.toInt_signExtend_of_le (by decide)]
    omega
  all_goals
    rw [Conversion.vaArg, Conversion.sign, value, if_neg (by decide), BitVec.toNat_setWidth]
    omega

-- printf() of a user program keeps the low 32 bits of the magnitude only. The kernel's does not.
theorem uprint_canonical_iff (c : Conversion) (arg : BitVec 64) :
    (∃ cs, c.print arg = some cs ∧ Canonical kdigits c.base (value (c.vaArg arg) c.sign) cs) ∧
    ∃ cs, c.uprint arg = some cs ∧ (Canonical udigits c.base (value (c.vaArg arg) c.sign) cs ↔
      c = .d ∨ c = .u ∨ c = .x ∨ (value (c.vaArg arg) c.sign).natAbs < 2 ^ 32) := by
  refine ⟨printint_canonical _ _ c.base_eq, ?_⟩
  obtain ⟨ds, hne, hnum, heq⟩ := uprintint_spec (c.vaArg arg) c.sign c.base_eq
  refine ⟨_, heq, fun hc => ?_, fun hor => ⟨ds, hne, ?_, rfl⟩⟩
  · obtain ⟨ds', -, hnum', hds⟩ := hc
    have hsame : ds = ds' := by
      split at hds
      · exact (List.cons.inj hds).2
      · exact hds
    have hmod := hnum.value.symm.trans (hsame ▸ hnum'.value)
    exact .inr (.inr (.inr ((Nat.mod_eq_iff_lt (by decide)).mp hmod)))
  · have hlt : (value (c.vaArg arg) c.sign).natAbs < 2 ^ 32 := by
      rcases hor with hc | hc | hc | hlt
      · exact value_short arg (.inl hc)
      · exact value_short arg (.inr (.inl hc))
      · exact value_short arg (.inr (.inr hc))
      · exact hlt
    rwa [Nat.mod_eq_of_lt hlt] at hnum

theorem uprint_lu_truncates : Conversion.lu.uprint 4294967296#64 = some ['0'] ∧ parse udigits 10 ['0'] = 0 ∧
    value (Conversion.lu.vaArg 4294967296#64) false = 4294967296 := by
  decide +kernel

end Xv6.Printf
