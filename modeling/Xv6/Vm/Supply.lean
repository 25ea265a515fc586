import Xv6.Vm.Fault

namespace Xv6

open Lib Function

variable {L : Layout} {s t u : Phys} {m m' : Mem} {role : Nat → Role} {p : Self} {r va a b l : Nat}

section Free

def freePages (L : Layout) (role : Nat → Role) : Finset Nat :=
  (Finset.range PHYSTOP).filter fun a => IsPage L a ∧ role a = .free

theorem mem_freePages : a ∈ freePages L role ↔ IsPage L a ∧ role a = .free := by
  rw [freePages, Finset.mem_filter, Finset.mem_range]
  exact ⟨fun h => h.2, fun h => ⟨h.1.2.2, h⟩⟩

theorem Vm.free_length (h : Vm L s role) (hc : Chain s.next 0 s.freelist free) :
    free.length = (freePages L role).card := by
  obtain ⟨free', hinv⟩ := h.alloc
  obtain rfl := hinv.chain.unique hc
  have heq : free'.toFinset = freePages L role := by
    ext a
    rw [List.mem_toFinset, mem_freePages]
    constructor
    · intro ha
      refine ⟨hinv.page a ha, ?_⟩
      by_contra hne
      have := (hinv.mem_free a (hinv.page a ha)).mp ha
      simp [hne] at this
    · rintro ⟨hp, hfree⟩
      rw [hinv.mem_free a hp]
      simp [hfree]
  rw [← List.toFinset_card_of_nodup hinv.nodup, heq]

theorem card_freePages_update (hp : IsPage L a) (ha : role a = .free) (hρ : ρ ≠ .free) :
    (freePages L (update role a ρ)).card + 1 = (freePages L role).card := by
  have hmem : a ∈ freePages L role := mem_freePages.mpr ⟨hp, ha⟩
  have heq : freePages L (update role a ρ) = (freePages L role).erase a := by
    ext x
    rw [Finset.mem_erase, mem_freePages, mem_freePages]
    by_cases hx : x = a
    · simp [hx, hρ]
    · simp [hx]
  rw [heq, Finset.card_erase_add_one hmem]

theorem freePages_empty (h : ∀ a, IsPage L a → role a ≠ .free) : (freePages L role).card = 0 := by
  rw [Finset.card_eq_zero]
  apply Finset.eq_empty_of_forall_notMem
  intro x hx
  exact h x (mem_freePages.mp hx).1 (mem_freePages.mp hx).2

end Free

section Missing

-- The pages that it takes to map va below page b of level l: one for each entry on the
-- way that is not there.
def missingFrom (m : Mem) (va : Nat) : Nat → Nat → Nat
  | 0, b => if hasFlag (m b (PX 0 va)) PTE_V then 0 else 1
  | l + 1, b =>
    if hasFlag (m b (PX (l + 1) va)) PTE_V then missingFrom m va l (PTE2PA (m b (PX (l + 1) va)))
    else l + 2

def missing (m : Mem) (pagetable va : Nat) : Nat := missingFrom m va 2 pagetable

theorem missingFrom_of_empty (h : ∀ i, ¬hasFlag (m b i) PTE_V) (va l : Nat) : missingFrom m va l b = l + 1 := by
  cases l <;> rw [missingFrom, if_neg (h _)]

theorem missingFrom_eq_zero : missingFrom m va l b = 0 ↔ leafPte m l b va ≠ none := by
  induction l generalizing b with
  | zero =>
    rw [missingFrom, leafPte_zero]
    split <;> simp
  | succ l ih =>
    rw [missingFrom, leafPte_succ]
    split
    · exact ih
    · simp

theorem Wired.missingFrom_congr (hw : Wired m role) (hm : ∀ b, (role b).level ≠ none → m' b = m b)
    (hb : (role b).level = some l) : missingFrom m' va l b = missingFrom m va l b := by
  induction l generalizing b with
  | zero => simp only [missingFrom, hm b (by simp [hb])]
  | succ l ih =>
    simp only [missingFrom, hm b (by simp [hb])]
    split
    next hv => exact ih (by rw [(hw.down b _ l hb hv).1, Role.level_table])
    next => rfl

-- walk() with alloc finds its way exactly if there are as many pages as entries are missing,
-- the last one apart.
theorem Vm.walkFrom_supply (h : Vm L s role) (va : Nat) (hb : (role b).level = some l) :
    ∃ res t, walkFrom va true l b s = .ok (res, t) ∧
      (res ≠ none ↔ missingFrom s.mem va l b ≤ (freePages L role).card + 1) := by
  induction l generalizing b s role with
  | zero =>
    refine ⟨_, s, rfl, iff_of_true (by simp) ?_⟩
    rw [missingFrom]
    split <;> omega
  | succ l ih =>
    by_cases hv : hasFlag (s.mem b (PX (l + 1) va)) PTE_V
    · obtain ⟨res, t, hok, hiff⟩ := ih h (by rw [(h.wired.down b _ l hb hv).1, Role.level_table])
      refine ⟨res, t, ?_, ?_⟩
      · simp only [walkFrom, if_pos hv]
        exact hok
      · rwa [missingFrom, if_pos hv]
    rw [missingFrom, if_neg hv]
    rcases h.kalloc_spec with ⟨hk, hfull⟩ | ⟨a, u, hk, ha0, hfree, hp, hu, hm, -⟩
    · refine ⟨none, s, ?_, iff_of_false (by simp) ?_⟩
      · simp only [walkFrom, if_neg hv, if_true, hk, ok_bind, pure_eq_ok]
      · rw [freePages_empty hfull]
        omega
    have hba : b ≠ a := by
      rintro rfl
      simp [hfree, Role.level] at hb
    have hlink := (hu.link (a := a) (b := b) (l := l) (i := PX (l + 1) va) (by simp)
      (by rwa [update_of_ne hba]) (by rwa [hm b hba])).1
    rw [update_idem] at hlink
    obtain ⟨res, t, hok, hiff⟩ := ih (b := a) hlink (by simp)
    refine ⟨res, t, ?_, ?_⟩
    · simp only [walkFrom, if_neg hv, if_true, hk, ok_bind, if_neg ha0]
      exact hok
    · rw [hiff, missingFrom_of_empty, ← card_freePages_update hp hfree (show Role.table l b (PX (l + 1) va) ≠ .free by simp)]
      · omega
      · intro i
        show ¬hasFlag (setEntry (u.memset a 0).mem b _ _ a i) PTE_V
        rw [setEntry_of_ne hba.symm]
        exact memset_zero_empty u a i

theorem Vm.vmfault_supply (h : Vm L s role) (hr : role p.pagetable = .top 2) (hround : PGROUNDDOWN va = va)
    (hmax : va < MAXVA) (hsz : va < p.sz) (hnone : leafPte s.mem 2 p.pagetable va = none) :
    (∃ t, vmfault L p p.pagetable va s = .ok (0, t)) ↔ (freePages L role).card < missing s.mem p.pagetable va := by
  have hal : va % PGSIZE = 0 := by
    simp only [PGROUNDDOWN, PGSIZE_eq] at *
    omega
  have hpos : 0 < missing s.mem p.pagetable va := by
    rw [missing, Nat.pos_iff_ne_zero, ne_eq, missingFrom_eq_zero]
    simp [hnone]
  simp only [vmfault, if_neg (Nat.not_le.mpr hsz), hround, ismapped_eq hmax, ok_bind, hnone, ne_eq,
    not_true_eq_false, decide_false, Bool.false_eq_true, if_false]
  rcases h.kalloc_spec with ⟨hk, hfull⟩ | ⟨a, u, hk, ha0, -⟩
  · refine iff_of_true ⟨s, by simp only [hk, ok_bind, if_true, pure_eq_ok]⟩ ?_
    rwa [freePages_empty hfull]
  have hfill := fills_memset u a 0
  obtain ⟨hfree, hp, hv, hm, -⟩ := h.kalloc_fill hk ha0 hfill
  have hlevel : (role p.pagetable).level = some 2 := by rw [hr, Role.level_top]
  have htables : ∀ c, (role c).level ≠ none → c ≠ a := by
    rintro c hc rfl
    simp [hfree, Role.level] at hc
  have hra := htables p.pagetable (by simp [hlevel])
  obtain ⟨res, w, hok, hiff⟩ := hv.walkFrom_supply va (by rw [update_of_ne hra, hlevel])
  rw [h.wired.missingFrom_congr (fun c hc => hm c (htables c hc)) hlevel, ← missing,
    card_freePages_update hp hfree (by simp)] at hiff
  have hwalk : walk p.pagetable va true (u.memset a 0) = .ok (res, w) := by
    rw [walk, if_neg (Nat.not_le.mpr hmax), hok]
  rcases h.allocPage hk ha0 hfill hr hmax hal hnone (show IsFlags (PTE_W ||| PTE_U ||| PTE_R) by decide) with
    ⟨t, w', role', hmap, hkf, -⟩ | ⟨t, role', hmap, -⟩
  · refine iff_of_true ⟨w', ?_⟩ ?_
    · simp only [hk, ok_bind, if_neg ha0, hmap, if_pos (show ¬(-1 : Int) = 0 by decide), hkf, pure_eq_ok]
    · cases res with
      | none => exact Nat.lt_of_not_le fun hle => hiff.mpr hle rfl
      | some loc =>
        rw [mappages_of_some hal hwalk] at hmap
        split at hmap <;> simp at hmap
  · refine iff_of_false ?_ ?_
    · simp only [hk, ok_bind, if_neg ha0, hmap, not_true_eq_false, if_false, pure_eq_ok]
      rintro ⟨t', heq⟩
      simp only [Except.ok.injEq, Prod.mk.injEq] at heq
      exact ha0 heq.1
    · cases res with
      | none =>
        rw [mappages_of_none hal hwalk] at hmap
        simp at hmap
      | some loc => exact Nat.not_lt.mpr (hiff.mp (by simp))

end Missing

end Xv6
