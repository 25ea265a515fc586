import Xv6.Disk.Logged
import Xv6.Lib.Reach

namespace Xv6.Fs.Bitmap

open Lib Function

-- The blocks of the disk as bytes, and where the superblock says that the bitmap starts.
abbrev Blocks := Nat → Block

structure Layout extends Super where
  bmapstart : Nat

def Layout.BBLOCK (sb : Layout) (b : Nat) : Nat := b / BPB + sb.bmapstart

-- m = 1 << (bi % 8)
def mask (bi : Nat) : Byte := BitVec.twoPow 8 (bi % 8)

def setBit (data : Block) (bi : Nat) : Block := update data (bi / 8) (data (bi / 8) ||| mask bi)
def clearBit (data : Block) (bi : Nat) : Block := update data (bi / 8) (data (bi / 8) &&& ~~~mask bi)

-- The inner loop of balloc(). The comparison with sb.size is one of uint.
def ballocBit (sb : Layout) (b : Nat) (data : Block) (bi : Nat) : Option Nat :=
  if bi < BPB ∧ (b + bi) % 2 ^ 32 < sb.size then
    if data (bi / 8) &&& mask bi = 0 then some bi else ballocBit sb b data (bi + 1)
  else none
termination_by BPB - bi

def bzero (D : Blocks) (bno : Nat) : Blocks := update D bno zeroBlock

-- The outer loop. The int b may reach 2^31, which is not below sb.size as a uint.
def ballocFrom (sb : Layout) (D : Blocks) (b : Nat) : Nat × Blocks :=
  if b < sb.size then
    match ballocBit sb b (D (sb.BBLOCK b)) 0 with
    | some bi => (b + bi, bzero (update D (sb.BBLOCK b) (setBit (D (sb.BBLOCK b)) bi)) (b + bi))
    | none => ballocFrom sb D ((b + BPB) % 2 ^ 32)
  else (0, D)
termination_by sb.size - b
decreasing_by
  have := sb.size_lt
  simp only [BPB, BSIZE_eq]
  omega

def balloc (sb : Layout) (D : Blocks) : Nat × Blocks := ballocFrom sb D 0

def bfree (sb : Layout) (D : Blocks) (b : Nat) : Except FsPanic Blocks :=
  let data := D (sb.BBLOCK b)
  let bi := b % BPB
  if data (bi / 8) &&& mask bi = 0 then .error .bfree
  else .ok (update D (sb.BBLOCK b) (clearBit data bi))

-- The set that the bitmap stands for, over the bits of its blocks.
def Bit (data : Block) (bi : Nat) : Prop := (data (bi / 8)).getLsbD (bi % 8) = true
def InUse (sb : Layout) (D : Blocks) (b : Nat) : Prop := Bit (D (sb.BBLOCK b)) (b % BPB)

def Layout.bits (sb : Layout) : Nat := (sb.size / BPB + 1) * BPB
def Layout.Holds (sb : Layout) (n : Nat) : Prop := ∃ b < sb.bits, n = sb.BBLOCK b

theorem and_mask (x : Byte) (bi : Nat) : x &&& mask bi = 0 ↔ ¬ x.getLsbD (bi % 8) = true := by
  rw [mask, BitVec.and_twoPow]
  split
  · next h =>
    have hne : BitVec.twoPow 8 (bi % 8) ≠ 0#8 := by
      intro h0
      have := congrArg (·.getLsbD (bi % 8)) h0
      simp [BitVec.getLsbD_twoPow] at this
      omega
    simpa [h] using hne
  · next h => simp [h]

theorem bit_setBit (data : Block) (bi k : Nat) : Bit (setBit data bi) k ↔ k = bi ∨ Bit data k := by
  unfold Bit setBit
  by_cases hk : k / 8 = bi / 8
  · rw [hk, update_self, BitVec.getLsbD_or, mask, BitVec.getLsbD_twoPow]
    simp only [Bool.or_eq_true, Bool.and_eq_true, decide_eq_true_eq]
    have : k = bi ↔ k % 8 = bi % 8 := by omega
    rw [this]
    grind
  · rw [update_of_ne hk]
    have : k ≠ bi := by grind
    simp [this]

theorem bit_clearBit (data : Block) (bi k : Nat) : Bit (clearBit data bi) k ↔ k ≠ bi ∧ Bit data k := by
  unfold Bit clearBit
  by_cases hk : k / 8 = bi / 8
  · rw [hk, update_self, BitVec.getLsbD_and, mask, BitVec.getLsbD_not, BitVec.getLsbD_twoPow]
    simp only [Bool.and_eq_true, Bool.not_eq_true', Bool.and_eq_false_iff, decide_eq_true_eq, decide_eq_false_iff_not]
    have : k = bi ↔ k % 8 = bi % 8 := by omega
    rw [Ne, this]
    grind
  · rw [update_of_ne hk]
    have : k ≠ bi := by grind
    simp [this]

theorem BPB_eq : BPB = 8192 := rfl

-- What a balloc() that comes to b finds of it, when b is the first of its bitmap block.
theorem inUse_add (sb : Layout) (D : Blocks) (hb : b % BPB = 0) (hbi : bi < BPB) :
    InUse sb D (b + bi) ↔ Bit (D (sb.BBLOCK b)) bi := by
  rw [InUse, Layout.BBLOCK, Layout.BBLOCK, show (b + bi) / BPB = b / BPB by rw [BPB_eq] at *; omega,
    show (b + bi) % BPB = bi by rw [BPB_eq] at *; omega]

theorem ballocBit_spec (sb : Layout) (D : Blocks) (hb : b < sb.size) (hm : b % BPB = 0) (bi : Nat) :
    match ballocBit sb b (D (sb.BBLOCK b)) bi with
    | some n => n < BPB ∧ b + n < sb.size ∧ ¬ InUse sb D (b + n) ∧ ∀ k < n, bi ≤ k → InUse sb D (b + k)
    | none => ∀ k < BPB, bi ≤ k → b + k < sb.size → InUse sb D (b + k) := by
  have hsize := sb.size_lt
  fun_induction ballocBit sb b (D (sb.BBLOCK b)) bi with
  | case1 bi hlt hclear =>
    rw [Nat.mod_eq_of_lt (by rw [BPB_eq] at hlt; omega)] at hlt
    rw [and_mask] at hclear
    exact ⟨hlt.1, hlt.2, (inUse_add sb D hm hlt.1).not.mpr hclear, fun k hk hle => absurd hk (by omega)⟩
  | case2 bi hlt hset ih =>
    rw [and_mask, not_not] at hset
    have hhere : ∀ k, bi ≤ k → ¬ bi + 1 ≤ k → InUse sb D (b + k) := by
      intro k hle hk
      rw [show k = bi by omega]
      exact (inUse_add sb D hm hlt.1).mpr hset
    split at ih
    · obtain ⟨hn, hlast, hclear, hbefore⟩ := ih
      exact ⟨hn, hlast, hclear, fun k hk hle => (em _).elim (hbefore k hk) (hhere k hle)⟩
    · exact fun k hk hle hks => (em _).elim (ih k hk · hks) (hhere k hle)
  | case3 bi hend =>
    intro k hk hle hks
    refine absurd ⟨by omega, ?_⟩ hend
    rw [Nat.mod_eq_of_lt (by rw [BPB_eq] at hk; omega)]
    omega

-- The disk after b is taken.
def take (sb : Layout) (D : Blocks) (b : Nat) : Blocks :=
  bzero (update D (sb.BBLOCK b) (setBit (D (sb.BBLOCK b)) (b % BPB))) b

theorem ballocFrom_spec (sb : Layout) (D : Blocks) (b : Nat) (hm : b % BPB = 0)
    (hbefore : ∀ k < b, k < sb.size → InUse sb D k) :
    (∃ n < sb.size, ¬ InUse sb D n ∧ (∀ k < n, InUse sb D k) ∧ ballocFrom sb D b = (n, take sb D n)) ∨
      (∀ k < sb.size, InUse sb D k) ∧ ballocFrom sb D b = (0, D) := by
  have hsize := sb.size_lt
  fun_induction ballocFrom sb D b with
  | case1 b hb n hn =>
    have hspec := ballocBit_spec sb D hb hm 0
    rw [hn] at hspec
    obtain ⟨hbpb, hlast, hclear, hfirst⟩ := hspec
    refine .inl ⟨b + n, hlast, hclear, fun k hk => ?_, ?_⟩
    · by_cases hkb : k < b
      · exact hbefore k hkb (by omega)
      · rw [show k = b + (k - b) by omega]
        exact hfirst (k - b) (by omega) (Nat.zero_le _)
    · rw [BPB_eq] at *
      rw [take, Layout.BBLOCK, Layout.BBLOCK, BPB_eq, show (b + n) / 8192 = b / 8192 by omega,
        show (b + n) % 8192 = n by omega]
  | case2 b hb hn ih =>
    have hspec := ballocBit_spec sb D hb hm 0
    rw [hn] at hspec
    apply ih
    · rw [BPB_eq] at *
      omega
    · intro k hk hks
      by_cases hkb : k < b
      · exact hbefore k hkb hks
      · rw [show k = b + (k - b) by omega] at hks ⊢
        rw [Nat.mod_eq_of_lt (by rw [BPB_eq]; omega)] at hk
        exact hspec (k - b) (by omega) (Nat.zero_le _) hks
  | case3 b hb => exact .inr ⟨fun k hk => hbefore k (by omega) hk, rfl⟩

theorem inUse_update (sb : Layout) (D : Blocks) (b k : Nat) (data : Block) :
    InUse sb (update D (sb.BBLOCK b) data) k ↔
      if k / BPB = b / BPB then Bit data (k % BPB) else InUse sb D k := by
  rw [InUse, InUse, Layout.BBLOCK, Layout.BBLOCK]
  split
  · next hk => rw [hk, update_self]
  · next hk => rw [update_of_ne (by omega)]

theorem inUse_setBit (sb : Layout) (D : Blocks) (b k : Nat) :
    InUse sb (update D (sb.BBLOCK b) (setBit (D (sb.BBLOCK b)) (b % BPB))) k ↔ k = b ∨ InUse sb D k := by
  rw [inUse_update, bit_setBit, InUse, Layout.BBLOCK, Layout.BBLOCK, BPB_eq]
  grind

theorem inUse_clearBit (sb : Layout) (D : Blocks) (b k : Nat) :
    InUse sb (update D (sb.BBLOCK b) (clearBit (D (sb.BBLOCK b)) (b % BPB))) k ↔ k ≠ b ∧ InUse sb D k := by
  rw [inUse_update, bit_clearBit, InUse, Layout.BBLOCK, Layout.BBLOCK, BPB_eq]
  grind

theorem lt_bits (hb : b < sb.size) : b < Layout.bits sb := by
  rw [Layout.bits, BPB_eq]
  omega

theorem inUse_take (hb : ¬ sb.Holds b) (hk : k < sb.bits) :
    InUse sb (take sb D b) k ↔ k = b ∨ InUse sb D k := by
  rw [← inUse_setBit, take, bzero, InUse, update_of_ne fun h => hb ⟨k, hk, h.symm⟩, InUse]

theorem take_of_ne (hb : b < sb.size) (hn : n ≠ b) (hh : ¬ sb.Holds n) : take sb D b n = D n := by
  rw [take, bzero, update_of_ne hn, update_of_ne fun h => hh ⟨b, lt_bits hb, h⟩]

theorem bfree_spec (sb : Layout) (D : Blocks) (hb : b < sb.size) :
    match bfree sb D b with
    | .error e => e = .bfree ∧ ¬ InUse sb D b
    | .ok D' => InUse sb D b ∧ (∀ k, InUse sb D' k ↔ k ≠ b ∧ InUse sb D k) ∧ ∀ n, ¬ sb.Holds n → D' n = D n := by
  fun_cases bfree sb D b with
  | case1 data bi hclear => exact ⟨rfl, (and_mask _ _).mp hclear⟩
  | case2 data bi hset =>
    rw [and_mask, not_not] at hset
    exact ⟨hset, inUse_clearBit sb D b, fun n hn => update_of_ne (fun h => hn ⟨b, lt_bits hb, h⟩) _ _⟩

-- From mkfs on block 0 and the blocks of the bitmap itself are in use.
structure Reserved (sb : Layout) (D : Blocks) : Prop where
  boot : InUse sb D 0
  bitmap : ∀ n < sb.size, sb.Holds n → InUse sb D n

-- Any sequence of the two calls that frees none of those.
inductive Step (sb : Layout) (D : Blocks) : Blocks → Prop
  | balloc : Step sb D (balloc sb D).2
  | bfree (hb : b < sb.size) (h0 : b ≠ 0) (hh : ¬ sb.Holds b) (h : bfree sb D b = .ok D') : Step sb D D'

theorem balloc_spec (sb : Layout) (D : Blocks) :
    (∃ b < sb.size, ¬ InUse sb D b ∧ (∀ k < b, InUse sb D k) ∧ balloc sb D = (b, take sb D b)) ∨
      (∀ b < sb.size, InUse sb D b) ∧ balloc sb D = (0, D) :=
  ballocFrom_spec sb D 0 rfl fun _ hk => absurd hk (Nat.not_lt_zero _)

theorem Reserved.step (h : Reserved sb D) (hs : Step sb D D') : Reserved sb D' := by
  cases hs with
  | balloc =>
    obtain ⟨b, hb, hclear, -, heq⟩ | ⟨-, heq⟩ := balloc_spec sb D
    · rw [heq]
      have hh : ¬ sb.Holds b := fun hh => hclear (h.bitmap b hb hh)
      exact ⟨(inUse_take hh (lt_bits (by omega))).mpr (.inr h.boot), fun n hn hold =>
        (inUse_take hh (lt_bits hn)).mpr (.inr (h.bitmap n hn hold))⟩
    · rwa [heq]
  | bfree hb h0 hh hf =>
    have hspec := bfree_spec sb D hb
    rw [hf] at hspec
    obtain ⟨-, hbits, -⟩ := hspec
    exact ⟨(hbits 0).mpr ⟨h0.symm, h.boot⟩, fun n hn hold =>
      (hbits n).mpr ⟨fun he => hh (he ▸ hold), h.bitmap n hn hold⟩⟩

-- The bitmap is a set of block numbers, from which balloc() takes the least that is not
-- in it and bfree() removes.
theorem bitmap_is_set (h : Reach (Reserved sb) (Step sb) D) :
    ((∃ b < sb.size, b ≠ 0 ∧ ¬ InUse sb D b ∧ (∀ k < b, InUse sb D k) ∧ ∃ D', balloc sb D = (b, D') ∧
        (∀ k < sb.bits, InUse sb D' k ↔ k = b ∨ InUse sb D k) ∧
        D' b = zeroBlock ∧ (∀ n, n ≠ b → ¬ sb.Holds n → D' n = D n) ∧
        ∃ D'', bfree sb D' b = .ok D'' ∧ ∀ k < sb.bits, InUse sb D'' k ↔ InUse sb D k) ∨
      (∀ b < sb.size, InUse sb D b) ∧ balloc sb D = (0, D)) ∧
    ∀ b < sb.size, match bfree sb D b with
      | .error e => e = .bfree ∧ ¬ InUse sb D b
      | .ok D' => InUse sb D b ∧ (∀ k, InUse sb D' k ↔ k ≠ b ∧ InUse sb D k) ∧
          ∀ n, ¬ sb.Holds n → D' n = D n := by
  have hres : Reserved sb D := h.invariant (fun _ h => h) fun _ _ _ h hs => h.step hs
  refine ⟨?_, fun b => bfree_spec sb D⟩
  obtain ⟨b, hb, hclear, hleast, heq⟩ | hfull := balloc_spec sb D
  · have hh : ¬ sb.Holds b := fun hh => hclear (hres.bitmap b hb hh)
    refine .inl ⟨b, hb, fun h0 => hclear (h0 ▸ hres.boot), hclear, hleast, _, heq, fun k => inUse_take hh,
      update_self .., fun n => take_of_ne hb, ?_⟩
    have hspec := bfree_spec sb (take sb D b) hb
    have hused : InUse sb (take sb D b) b := (inUse_take hh (lt_bits hb)).mpr (.inl rfl)
    split at hspec
    · exact absurd hused hspec.2
    · next D'' hf =>
      refine ⟨D'', hf, fun k hk => ?_⟩
      rw [hspec.2.1, inUse_take hh hk]
      exact ⟨fun hk => hk.2.resolve_left hk.1, fun hu => ⟨fun he => hclear (he ▸ hu), .inr hu⟩⟩
  · exact .inr hfull

-- A bitmap of two blocks, the second used in part, and a full disk of which one block is freed.
def sampleLayout : Layout where
  size := 8200
  nblocks := 8000
  ninodes := 64
  size_lt := by decide
  nblocks_lt := by decide
  bmapstart := 45

def full : Blocks := fun _ _ => 255

theorem inUse_full (sb : Layout) (b : Nat) : InUse sb full b := by
  have hbits : ∀ i < 8, (255#8).getLsbD i = true := by decide
  exact hbits _ (Nat.mod_lt _ (by decide))

theorem bitmap_is_set_freed : ∃ D, bfree sampleLayout full 8195 = .ok D ∧ (balloc sampleLayout D).1 = 8195 := by
  have hlt : 8195 < sampleLayout.size := by decide
  have hh : ¬ sampleLayout.Holds 8195 := by
    rintro ⟨b, hb, he⟩
    simp only [Layout.bits, Layout.BBLOCK, BPB_eq, sampleLayout] at hb he
    omega
  have hspec := bfree_spec sampleLayout full hlt
  split at hspec
  · exact absurd (inUse_full _ _) hspec.2
  · next D hf =>
    refine ⟨D, hf, ?_⟩
    have hreach : Reach (Reserved sampleLayout) (Step sampleLayout) D :=
      .step (.start ⟨inUse_full _ _, fun n _ _ => inUse_full _ n⟩) (.bfree hlt (by decide) hh hf)
    obtain ⟨⟨b, -, -, hclear, -, D', heq, -⟩ | ⟨hfull, -⟩, -⟩ := bitmap_is_set hreach
    · rw [hspec.2.1] at hclear
      rw [heq]
      exact not_not.mp fun hne => hclear ⟨hne, inUse_full _ b⟩
    · exact absurd rfl ((hspec.2.1 _).mp (hfull 8195 hlt)).1

end Xv6.Fs.Bitmap
