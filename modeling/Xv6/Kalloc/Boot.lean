import Xv6.Kalloc.Theorems

namespace Xv6

open Lib Function

-- The state of the allocator when freerange() has released the pages below p: each
-- points to the page before it.
def bootPhys (L : Layout) (mem : Nat → Fin 512 → BitVec 64) (p : Nat) : Phys where
  mem := fun a i =>
    if IsPage L a ∧ a < p then
      if i = 0 then BitVec.ofNat 64 (if IsPage L (a - PGSIZE) then a - PGSIZE else 0) else memsetWord 1
    else mem a i
  freelist := if IsPage L (p - PGSIZE) then p - PGSIZE else 0
  refcount := fun i =>
    if i < MAXPAGES then if L.kend ≤ i * PGSIZE ∧ i * PGSIZE < p then 0 else 1 else 0

variable {L : Layout} {mem : Nat → Fin 512 → BitVec 64} {s : Phys} {p : Nat}

theorem kfree_eq (hp : IsPage L p) (hc : s.refcount (p / PGSIZE) = c) (h0 : 0 ≤ c) (h1 : c ≤ 1) :
    kfree L p s = .ok (kmemPush p
      ({ s with refcount := update s.refcount (p / PGSIZE) (c - 1) }.memset p 1)) := by
  have hi := pa2pageindex_page hp
  have hguard : ¬(p % PGSIZE ≠ 0 ∨ p < L.kend ∨ PHYSTOP ≤ p) := by
    obtain ⟨hal, hlow, hhigh⟩ := hp
    omega
  have hw : wrap32 (c - 1) = c - 1 := by rw [wrap32_eq] <;> omega
  rw [kfree, if_neg hguard, decref_of_index hi (by omega), hc, hw, ok_bind, getref_of_index hi, ok_bind]
  simp only [update_self, if_neg (by omega : ¬0 < c - 1), pure_eq_ok]

theorem kfree_bootPhys (hp : IsPage L p) :
    kfree L p (bootPhys L mem p) = .ok (bootPhys L mem (p + PGSIZE)) := by
  obtain ⟨hal, hlow, hhigh⟩ := hp
  have hidx : p / PGSIZE < MAXPAGES ∧ p / PGSIZE * PGSIZE = p := by
    simp only [MAXPAGES_eq, PHYSTOP_eq, PGSIZE_eq] at *
    omega
  have hcount : (bootPhys L mem p).refcount (p / PGSIZE) = 1 := by
    simp only [bootPhys, hidx.1, hidx.2, if_true, Nat.lt_irrefl, and_false, if_false]
  rw [kfree_eq ⟨hal, hlow, hhigh⟩ hcount (by omega) (by omega), Int.sub_self, Except.ok.injEq]
  have hmem : ∀ a i, (kmemPush p ({ bootPhys L mem p with
      refcount := update (bootPhys L mem p).refcount (p / PGSIZE) 0 }.memset p 1)).mem a i =
      (bootPhys L mem (p + PGSIZE)).mem a i := by
    intro a i
    by_cases ha : a = p
    · subst ha
      have hpage : IsPage L a ∧ a < a + PGSIZE := ⟨⟨hal, hlow, hhigh⟩, by simp [PGSIZE_eq]⟩
      by_cases hi : i = 0
      · subst hi
        simp [kmemPush, Phys.store, Phys.memset, bootPhys, hpage]
      · simp [kmemPush, Phys.store, Phys.memset, bootPhys, hpage, hi]
    · have hiff : (IsPage L a ∧ a < p) ↔ (IsPage L a ∧ a < p + PGSIZE) := by
        simp only [IsPage, PGSIZE_eq] at *
        omega
      simp only [kmemPush, Phys.store, Phys.memset, update_of_ne ha, bootPhys, hiff]
  have hrefs : ∀ i, update (bootPhys L mem p).refcount (p / PGSIZE) 0 i =
      (bootPhys L mem (p + PGSIZE)).refcount i := by
    intro i
    by_cases hi : i = p / PGSIZE
    · subst hi
      have hlt : p < p + PGSIZE := by simp [PGSIZE_eq]
      simp only [update_self, bootPhys, hidx.1, hidx.2, if_true, hlow, hlt, and_self]
    · have hiff : (L.kend ≤ i * PGSIZE ∧ i * PGSIZE < p) ↔
          (L.kend ≤ i * PGSIZE ∧ i * PGSIZE < p + PGSIZE) := by
        simp only [PGSIZE_eq] at *
        omega
      simp only [update_of_ne hi, bootPhys, hiff]
  have hlist : p = if IsPage L (p + PGSIZE - PGSIZE) then p + PGSIZE - PGSIZE else 0 := by
    rw [Nat.add_sub_cancel, if_pos ⟨hal, hlow, hhigh⟩]
  have hext : ∀ u v : Phys, (∀ a i, u.mem a i = v.mem a i) → u.freelist = v.freelist →
      (∀ i, u.refcount i = v.refcount i) → u = v := by
    rintro ⟨m, f, c⟩ ⟨m', f', c'⟩ h1 rfl h3
    have hm : m = m' := funext fun a => funext fun i => h1 a i
    have hc : c = c' := funext h3
    rw [hm, hc]
  refine hext _ _ hmem ?_ hrefs
  simp only [kmemPush, bootPhys]
  exact hlist

theorem freerange_bootPhys (n p : Nat) (hn : PHYSTOP = p + n * PGSIZE) (hal : p % PGSIZE = 0)
    (hlow : L.kend ≤ p) : freerange L p PHYSTOP (bootPhys L mem p) = .ok (bootPhys L mem PHYSTOP) := by
  induction n generalizing p with
  | zero =>
    have hp : p = PHYSTOP := by omega
    subst hp
    rw [freerange, if_neg (by simp [PGSIZE_eq]), pure_eq_ok]
  | succ n ih =>
    have hle : p + PGSIZE ≤ PHYSTOP := by
      rw [hn]
      simp only [PGSIZE_eq]
      omega
    have hp : IsPage L p := ⟨hal, hlow, by simp only [PGSIZE_eq] at hle; omega⟩
    rw [freerange, if_pos hle, kfree_bootPhys hp, ok_bind]
    apply ih
    · simp only [PGSIZE_eq] at *
      omega
    · simp only [PGSIZE_eq] at *
      omega
    · omega

theorem kinit_eq (L : Layout) (mem : Nat → Fin 512 → BitVec 64) :
    kinit L mem = .ok (bootPhys L mem PHYSTOP) := by
  obtain ⟨hlow, hal, hfirst⟩ := pgroundup_kend L
  have hinside := L.inside
  have hbase := L.base_le
  have hbelow := L.below
  have hround : PGROUNDUP L.kend < L.kend + PGSIZE := by
    unfold PGROUNDUP
    rw [wrap64_eq_of_lt (by simp only [PHYSTOP_eq, PGSIZE_eq] at *; omega)]
    simp only [PGSIZE_eq]
    omega
  rw [kinit]
  generalize PGROUNDUP L.kend = q at hlow hal hfirst hround
  -- no page is below q
  have hmem : ∀ a, ¬(IsPage L a ∧ a < q) := by
    rintro a ⟨hp, hlt⟩
    have := hfirst a hp
    omega
  have hlist : ¬IsPage L (q - PGSIZE) := by
    intro hp
    have := hfirst _ hp
    simp only [KERNBASE, PGSIZE_eq] at *
    omega
  have hrefs : ∀ i, i < MAXPAGES → ¬(L.kend ≤ i * PGSIZE ∧ i * PGSIZE < q) := by
    rintro i hi ⟨h1, h2⟩
    refine hmem (i * PGSIZE) ⟨⟨Nat.mul_mod_left .., h1, ?_⟩, h2⟩
    simp only [MAXPAGES_eq, PHYSTOP_eq, PGSIZE_eq] at *
    omega
  have hstart : bootPhys L mem q =
      { mem := mem, freelist := 0, refcount := fun i => if i < MAXPAGES then 1 else 0 } := by
    simp only [bootPhys, hmem, if_false, hlist]
    congr 1
    funext i
    split
    next hi => rw [if_neg (hrefs i hi)]
    next => rfl
  rw [← hstart]
  apply freerange_bootPhys ((PHYSTOP - q) / PGSIZE)
  · simp only [PHYSTOP_eq, PGSIZE_eq] at *
    omega
  · exact hal
  · exact hlow

end Xv6
