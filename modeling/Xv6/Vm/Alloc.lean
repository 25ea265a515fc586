import Xv6.Vm.Unmap
import Mathlib.Order.Interval.Finset.Nat

namespace Xv6

open Lib Function

variable {L : Layout} {s t : Phys} {m : Mem} {role role' : Nat → Role}

theorem pgroundup_bounds (h : x ≤ MAXVA) : x ≤ PGROUNDUP x ∧ PGROUNDUP x < x + PGSIZE ∧
    PGROUNDUP x % PGSIZE = 0 ∧ PGROUNDUP x ≤ MAXVA := by
  have hwrap : wrap64 (x + PGSIZE - 1) = x + PGSIZE - 1 := by
    apply wrap64_eq_of_lt
    simp only [PGSIZE_eq, MAXVA_eq] at *
    omega
  simp only [PGROUNDUP, hwrap]
  simp only [PGSIZE_eq, MAXVA_eq] at *
  omega

theorem pgroundup_aligned (h : x ≤ MAXVA) (hal : x % PGSIZE = 0) : PGROUNDUP x = x := by
  have hb := pgroundup_bounds h
  simp only [PGSIZE_eq] at *
  omega

theorem pgrounddown_bounds (va : Nat) : PGROUNDDOWN va ≤ va ∧ va < PGROUNDDOWN va + PGSIZE ∧
    PGROUNDDOWN va % PGSIZE = 0 ∧ PGROUNDDOWN va / PGSIZE = va / PGSIZE := by
  simp only [PGROUNDDOWN, PGSIZE_eq]
  omega

theorem userLeaf_congr_page (hva : va < 2 ^ 39) (hva' : va' < 2 ^ 39)
    (h : va' / PGSIZE = va / PGSIZE) (hu : UserLeaf m role 2 r va) : UserLeaf m role 2 r va' := by
  unfold UserLeaf at *
  rwa [lookup_congr_px ((px_eq_iff hva' hva).mpr h)]

def NewLeaf (m : Mem) (role : Nat → Role) (r : Nat) (perm : Pte) (va : Nat) : Prop :=
  UserLeaf m role 2 r va ∧ ∃ pa, leafPte m 2 r va = some (PA2PTE pa ||| perm ||| PTE_V)

theorem Same.newLeaf (h : Same m role m' role' 2 r va) (hn : NewLeaf m role r perm va) :
    NewLeaf m' role' r perm va := by
  obtain ⟨hu, pa, hpa⟩ := hn
  exact ⟨h.user hu, pa, h.pte.trans hpa⟩

theorem Vm.uvmcreate_spec (h : Vm L s role) :
    uvmcreate s = .ok (0, s) ∨
    ∃ r t role', uvmcreate s = .ok (r, t) ∧ r ≠ 0 ∧ role r = .free ∧ Vm L t role' ∧
      role' r = .top 2 ∧ (∀ va, leafPte t.mem 2 r va = none) ∧
      Frame (· = r) s.mem role t.mem role' := by
  rcases h.kalloc_spec with ⟨hfull, -⟩ | ⟨r, u, hk, hr0, -⟩
  · left
    simp only [uvmcreate, hfull, ok_bind, if_true, pure_eq_ok]
  · right
    obtain ⟨hfree, hp, hv, -, hframe⟩ := h.kalloc_fill hk hr0 (fills_memset u r 0)
    have hempty := memset_zero_empty u r
    have hloose : (update role r Role.held r).loose = true := by simp [Role.loose]
    have hupd : ∀ x, x ≠ r → update (update role r Role.held) r (.top 2) x =
        update role r Role.held x := fun x hx => update_of_ne hx _ _
    refine ⟨r, u.memset r 0, update (update role r .held) r (.top 2), ?_, hr0,
      hfree, ⟨?_, ?_, ?_⟩, update_self .., fun va => leafPte_of_empty hempty, ?_⟩
    · simp only [uvmcreate, hk, ok_bind, if_neg hr0, pure_eq_ok]
    · exact hv.alloc_of rfl rfl (free_iff_update (by simp) (by simp)) fun _ _ => rfl
    · exact hv.page_of hupd fun _ _ => hp
    · exact hv.wired.newTop hloose hempty 2
    · exact hframe.trans (hv.wired.frame_loose hloose (fun _ _ => rfl) hupd)

theorem npages_eq (h : n < 2 ^ 31) : (wrap32 ((n : Nat) : Int) % 2 ^ 64).toNat = n := by
  rw [wrap32_eq (by omega) (by omega)]
  omega

theorem Vm.uvmdealloc_spec (h : Vm L s role) (newsz : Nat) (hr : role r = .top 2) (hold : oldsz ≤ MAXVA)
    (hpre : ∀ va, PGROUNDUP newsz ≤ va → va < PGROUNDUP oldsz →
      leafPte s.mem 2 r va = none ∨ UserLeaf s.mem role 2 r va) :
    ∃ t role', uvmdealloc L r oldsz newsz s = .ok (min oldsz newsz, t) ∧
      Edit L s role t role' r (fun va => PGROUNDUP newsz ≤ va ∧ va < PGROUNDUP oldsz) ∧
      (newsz < oldsz → ∀ va, PGROUNDUP newsz ≤ va → va < PGROUNDUP oldsz →
        leafPte t.mem 2 r va = none) := by
  by_cases hle : oldsz ≤ newsz
  · refine ⟨s, role, ?_, .refl h hr _, by omega⟩
    rw [uvmdealloc, if_pos hle, Nat.min_eq_left hle]
  have hmin : min oldsz newsz = newsz := Nat.min_eq_right (by omega)
  obtain ⟨-, -, hal, hmax⟩ := pgroundup_bounds hold
  obtain ⟨-, -, hal', -⟩ := pgroundup_bounds (x := newsz) (by omega)
  by_cases hlt : PGROUNDUP newsz < PGROUNDUP oldsz
  · generalize hn : (PGROUNDUP oldsz - PGROUNDUP newsz) / PGSIZE = n
    have hend : PGROUNDUP newsz + n * PGSIZE = PGROUNDUP oldsz := by
      rw [← hn]
      simp only [PGSIZE_eq] at *
      omega
    have hn31 : n < 2 ^ 31 := by
      simp only [PGSIZE_eq, MAXVA_eq] at *
      omega
    obtain ⟨t, role', hok, hedit, hnone⟩ := h.uvmunmap_spec (n := n) hr hal'
      (by omega) fun va hva => hpre va hva.1 (hend ▸ hva.2)
    refine ⟨t, role', ?_, hedit.mono fun va hva => ⟨hva.1, hend ▸ hva.2⟩, ?_⟩
    · simp only [uvmdealloc, if_neg hle, if_pos hlt, hn, npages_eq hn31, hok, ok_bind, hmin,
        pure_eq_ok]
    · intro _ va h1 h2
      exact hnone va (lt_39_of_lt_MAXVA (by omega)) ⟨h1, hend.symm ▸ h2⟩
  · refine ⟨s, role, ?_, .refl h hr _, by omega⟩
    rw [uvmdealloc, if_neg hle, if_neg hlt, hmin]

theorem Vm.uvmdealloc_undo (h : Vm L s role) (hr : role r = .top 2) (hstart : start % PGSIZE = 0)
    (hal : a % PGSIZE = 0) (hle : start ≤ a) (hmax : a ≤ MAXVA ∨ a = start)
    (huser : ∀ va, start ≤ va → va < a → UserLeaf s.mem role 2 r va) :
    ∃ res t role', uvmdealloc L r a start s = .ok (res, t) ∧
      Edit L s role t role' r (fun va => start ≤ va ∧ va < a) ∧
      ∀ va, start ≤ va → va < a → leafPte t.mem 2 r va = none := by
  by_cases heq : a = start
  · refine ⟨a, s, role, ?_, .refl h hr _, by omega⟩
    rw [uvmdealloc, if_pos (by omega)]
  have hmax' : a ≤ MAXVA := hmax.resolve_right heq
  have ha := pgroundup_aligned hmax' hal
  have hs := pgroundup_aligned (x := start) (by omega) hstart
  obtain ⟨t, role', hok, hedit, hnone⟩ := h.uvmdealloc_spec start hr hmax'
    fun va h1 h2 => .inr (huser va (hs ▸ h1) (ha ▸ h2))
  rw [hs, ha] at hedit hnone
  exact ⟨_, t, role', hok, hedit, hnone (by omega)⟩

section Uvmalloc

variable {r start newsz a : Nat} {xperm : Pte}

-- The addresses that uvmalloc() has yet to map when its loop is at page a.
def Ahead (a newsz va : Nat) : Prop := a ≤ va ∧ PGROUNDDOWN va < newsz

theorem not_ahead (hal : a % PGSIZE = 0) (h : newsz ≤ a) (va : Nat) : ¬Ahead a newsz va := by
  intro hva
  have hd := pgrounddown_bounds va
  simp only [Ahead, PGSIZE_eq] at *
  omega

theorem ahead_iff (hal : a % PGSIZE = 0) (h : a < newsz) :
    Ahead a newsz va ↔ va / PGSIZE = a / PGSIZE ∨ Ahead (a + PGSIZE) newsz va := by
  have hd := pgrounddown_bounds va
  rw [page_iff hal]
  simp only [Ahead, PGSIZE_eq] at *
  omega

-- How the loop of uvmalloc() can end: with a panic at some page a', as that page
-- is out of range or mapped already; out of memory, with everything it mapped
-- unmapped again; or with all pages mapped.
inductive Allocs (L : Layout) (s : Phys) (role : Nat → Role) (r start newsz a : Nat) (perm : Pte) :
    Except Panic (Bool × Phys) → Prop
  | stuck {e : Panic} {t : Phys} {role' : Nat → Role} (a' : Nat)
      (panic : e = .walk ∨ e = .mappagesRemap) (ahead : Ahead a newsz a') (aligned : a' % PGSIZE = 0)
      (why : MAXVA ≤ a' ∨ leafPte s.mem 2 r a' ≠ none)
      (edit : Edit L s role t role' r fun va => a ≤ va ∧ va < a')
      (user : ∀ va, a ≤ va → va < a' → va < 2 ^ 39 → UserLeaf t.mem role' 2 r va) :
      Allocs L s role r start newsz a perm (.error e)
  | full {t : Phys} {role' : Nat → Role}
      (edit : Edit L s role t role' r fun va => start ≤ va ∧ va < a)
      (none : ∀ va, start ≤ va → va < a → leafPte t.mem 2 r va = none) :
      Allocs L s role r start newsz a perm (.ok (false, t))
  | done {t : Phys} {role' : Nat → Role} (edit : Edit L s role t role' r (Ahead a newsz))
      (was : ∀ va, Ahead a newsz va → va < MAXVA ∧ leafPte s.mem 2 r va = none)
      (new : ∀ va, Ahead a newsz va → NewLeaf t.mem role' r perm va) :
      Allocs L s role r start newsz a perm (.ok (true, t))

theorem Allocs.undo (newsz : Nat) (perm : Pte) (hedit : Edit L s role u ρ r fun _ => False)
    (hstart : start % PGSIZE = 0) (hal : a % PGSIZE = 0) (hle : start ≤ a) (hmax : a ≤ MAXVA ∨ a = start)
    (huser : ∀ va, start ≤ va → va < a → va < 2 ^ 39 → UserLeaf s.mem role 2 r va) :
    ∃ res t, uvmdealloc L r a start u = .ok (res, t) ∧
      Allocs L s role r start newsz a perm (.ok (false, t)) := by
  have hlt : ∀ va, start ≤ va → va < a → va < 2 ^ 39 := by
    intro va h1 h2
    simp only [MAXVA_eq] at hmax
    omega
  obtain ⟨res, t, role', hok, hedit', hnone⟩ := hedit.vm.uvmdealloc_undo hedit.top hstart hal hle hmax
    fun va h1 h2 => (hedit.same va (hlt va h1 h2) not_false).user (huser va h1 h2 (hlt va h1 h2))
  exact ⟨res, t, hok, .full ((hedit.mono fun _ hx => hx.elim).trans hedit') hnone⟩

theorem same_of_unmapped (h : leafPte m l r va = none) (h' : leafPte m' l r va = none) :
    Same m role m' role' l r va := by
  have hnot : ¬UserLeaf m role l r va := by
    intro hu
    obtain ⟨e, he⟩ := hu.exists_pte
    simp [h] at he
  exact ⟨h'.trans h.symm, fun hu => absurd hu hnot, fun hu => absurd hu hnot⟩

theorem Allocs.next (hal : a % PGSIZE = 0) (hle : start ≤ a)
    (hlt : a < newsz) (hmax : a < MAXVA) (hfree : leafPte s.mem 2 r a = none)
    (hedit : Edit L s role u ρ r fun va => va / PGSIZE = a / PGSIZE)
    (hnew : ∀ va, va < 2 ^ 39 → va / PGSIZE = a / PGSIZE → NewLeaf u.mem ρ r perm va)
    (h : Allocs L u ρ r start newsz (a + PGSIZE) perm res) :
    Allocs L s role r start newsz a perm res := by
  have hpage : ∀ va, va / PGSIZE = a / PGSIZE → va < MAXVA ∧ leafPte s.mem 2 r va = none := by
    intro va hva
    have hva' : va < MAXVA := by
      rw [page_iff hal] at hva
      simp only [PGSIZE_eq, MAXVA_eq] at *
      omega
    refine ⟨hva', ?_⟩
    rw [leafPte_congr_page (lt_39_of_lt_MAXVA hmax) (lt_39_of_lt_MAXVA hva') hva, hfree]
  cases h with
  | @stuck e t role' a' panic ahead aligned why edit user =>
    have hfar : ¬a' / PGSIZE = a / PGSIZE := by
      rw [page_iff hal]
      have := ahead.1
      omega
    have hrange : ∀ va, va / PGSIZE = a / PGSIZE ∨ a + PGSIZE ≤ va ∧ va < a' → a ≤ va ∧ va < a' := by
      intro va hva
      rw [page_iff hal] at hva
      have := ahead.1
      omega
    refine .stuck a' panic ((ahead_iff hal hlt).mpr (.inr ahead)) aligned ?_
      ((hedit.mono fun va hva => hrange va (.inl hva)).trans
        (edit.mono fun va hva => hrange va (.inr hva))) ?_
    · rcases why with why | why
      · exact .inl why
      · by_cases ha' : a' < MAXVA
        · right
          rwa [← (hedit.same a' (lt_39_of_lt_MAXVA ha') hfar).pte]
        · exact .inl (by omega)
    · intro va h1 h2 h39
      by_cases hva : va / PGSIZE = a / PGSIZE
      · apply (edit.same va h39 _).user (hnew va h39 hva).1
        rw [page_iff hal] at hva
        omega
      · rw [page_iff hal] at hva
        exact user va (by omega) h2 h39
  | @full t role' edit none =>
    refine .full ⟨edit.vm, edit.top, hedit.frame.trans edit.frame, ?_⟩ fun va h1 h2 =>
      none va h1 (by omega)
    intro va h39 hva
    by_cases hpg : va / PGSIZE = a / PGSIZE
    · refine same_of_unmapped (hpage va hpg).2 ?_
      rw [page_iff hal] at hpg
      exact none va (by omega) hpg.2
    · refine (hedit.same va h39 hpg).trans (edit.same va h39 ?_)
      rw [page_iff hal] at hpg
      omega
  | @done t role' edit was new =>
    refine .done ((hedit.mono fun va hva => (ahead_iff hal hlt).mpr (.inl hva)).trans
      (edit.mono fun va hva => (ahead_iff hal hlt).mpr (.inr hva))) ?_ ?_
    · intro va hva
      by_cases hpg : va / PGSIZE = a / PGSIZE
      · exact hpage va hpg
      · obtain ⟨hmax', hnone⟩ := was va (((ahead_iff hal hlt).mp hva).resolve_left hpg)
        rw [(hedit.same va (lt_39_of_lt_MAXVA hmax') hpg).pte] at hnone
        exact ⟨hmax', hnone⟩
    · intro va hva
      by_cases hpg : va / PGSIZE = a / PGSIZE
      · have h39 := lt_39_of_lt_MAXVA (hpage va hpg).1
        refine (edit.same va h39 ?_).newLeaf (hnew va h39 hpg)
        rw [page_iff hal] at hpg
        intro hahead
        have := hahead.1
        omega
      · exact new va (((ahead_iff hal hlt).mp hva).resolve_left hpg)

theorem Vm.uvmallocLoop_spec (h : Vm L s role) (hr : role r = .top 2) (hx : IsFlags xperm)
    (hstart : start % PGSIZE = 0) (hal : a % PGSIZE = 0) (hle : start ≤ a)
    (hmax : a ≤ MAXVA ∨ a = start) (hn : newsz ≤ a + n * PGSIZE)
    (huser : ∀ va, start ≤ va → va < a → va < 2 ^ 39 → UserLeaf s.mem role 2 r va) :
    Allocs L s role r start newsz a (PTE_R ||| PTE_U ||| xperm)
      (uvmallocLoop L r start newsz xperm n a s) := by
  induction n generalizing a s role with
  | zero =>
    have hnot := not_ahead hal (show newsz ≤ a by omega)
    exact .done (.refl h hr _) (fun va hva => absurd hva (hnot va)) fun va hva => absurd hva (hnot va)
  | succ n ih =>
    by_cases hlt : a < newsz
    swap
    · have hnot := not_ahead hal (show newsz ≤ a by omega)
      rw [uvmallocLoop, if_neg hlt]
      exact .done (.refl h hr _) (fun va hva => absurd hva (hnot va))
        fun va hva => absurd hva (hnot va)
    have hperm : IsFlags (PTE_R ||| PTE_U ||| xperm) := IsFlags.or (by decide) hx
    rcases h.kalloc_spec with ⟨hfull, -⟩ | ⟨pg, u, hk, hpg0, -⟩
    · obtain ⟨res, t, hok, hout⟩ := Allocs.undo newsz (PTE_R ||| PTE_U ||| xperm)
        (.refl h hr _) hstart hal hle hmax huser
      simp only [uvmallocLoop, if_pos hlt, hfull, ok_bind, if_true, hok, pure_eq_ok]
      exact hout
    have hfill := fills_memset u pg 0
    -- a panic of mappages()
    have hpanic : ∀ e, e = .walk ∨ e = .mappagesRemap → MAXVA ≤ a ∨ leafPte s.mem 2 r a ≠ none →
        mappages r a PGSIZE pg (PTE_R ||| PTE_U ||| xperm) (u.memset pg 0) = .error e →
        Allocs L s role r start newsz a (PTE_R ||| PTE_U ||| xperm)
          (uvmallocLoop L r start newsz xperm (n + 1) a s) := by
      intro e he hwhy hm
      simp only [uvmallocLoop, if_pos hlt, hk, ok_bind, if_neg hpg0, hm, error_bind]
      have hahead : Ahead a newsz a := (ahead_iff hal hlt).mpr (.inl rfl)
      exact .stuck a he hahead hal hwhy (.refl h hr _) (by omega)
    by_cases hhigh : MAXVA ≤ a
    · exact hpanic .walk (.inl rfl) (.inl hhigh) (mappages_high hal hhigh ..)
    by_cases hmapped : leafPte s.mem 2 r a = none
    swap
    · exact hpanic .mappagesRemap (.inr rfl) (.inr hmapped)
        (h.allocPage_remap hk hpg0 hfill hr (by omega) hal hmapped _)
    rcases h.allocPage hk hpg0 hfill hr (by omega) hal hmapped hperm with
      ⟨t, w, role', hm, hkf, hedit⟩ | ⟨t, role', hm, -, hedit, hleaf, hpte⟩
    · obtain ⟨res, t', hok, hout⟩ := Allocs.undo newsz (PTE_R ||| PTE_U ||| xperm)
        hedit hstart hal hle hmax huser
      simp only [uvmallocLoop, if_pos hlt, hk, ok_bind, if_neg hpg0, hm, hkf, hok, pure_eq_ok]
      exact hout
    have hnew : ∀ va, va < 2 ^ 39 → va / PGSIZE = a / PGSIZE →
        NewLeaf t.mem role' r (PTE_R ||| PTE_U ||| xperm) va := fun va h39 hva =>
      ⟨userLeaf_congr_page (lt_39_of_lt_MAXVA (by omega)) h39 hva hleaf, pg, hpte va h39 hva⟩
    have hwrap : wrap64 (a + PGSIZE) = a + PGSIZE := by
      apply wrap64_eq_of_lt
      simp only [MAXVA_eq, PGSIZE_eq] at *
      omega
    have hrest := ih (a := a + PGSIZE) hedit.vm hedit.top (by rw [Nat.add_mod_right, hal]) (by omega)
      (by simp only [MAXVA_eq, PGSIZE_eq] at *; omega) (by rw [Nat.succ_mul] at hn; omega) (by
        intro va h1 h2 h39
        by_cases hva : va / PGSIZE = a / PGSIZE
        · exact (hnew va h39 hva).1
        · refine (hedit.same va h39 hva).user (huser va h1 ?_ h39)
          rw [page_iff hal] at hva
          omega)
    simp only [uvmallocLoop, if_pos hlt, hk, ok_bind, if_neg hpg0, hm, hwrap]
    exact hrest.next hal hle hlt (by omega) hmapped hedit hnew

theorem Vm.uvmalloc_spec (h : Vm L s role) (hr : role r = .top 2) (hx : IsFlags xperm) (hsz : oldsz ≤ newsz) :
    ∃ res, Allocs L s role r (PGROUNDUP oldsz) newsz (PGROUNDUP oldsz) (PTE_R ||| PTE_U ||| xperm) res ∧
      uvmalloc L r oldsz newsz xperm s = do
        let (done, t) ← res
        return (if done then newsz else 0, t) := by
  have hal : PGROUNDUP oldsz % PGSIZE = 0 := by
    simp only [PGROUNDUP, PGSIZE_eq]
    omega
  refine ⟨_, h.uvmallocLoop_spec (n := (newsz - PGROUNDUP oldsz + (PGSIZE - 1)) / PGSIZE) hr hx hal hal
    (Nat.le_refl _) (.inr rfl) ?_ (by omega), ?_⟩
  · simp only [PGSIZE_eq]
    omega
  · rw [uvmalloc, if_neg (by omega)]

end Uvmalloc

section Capacity

theorem Vm.user_bound (h : Vm L s role) (hr : role r = .top 2)
    (huser : ∀ va, va < a → va < 2 ^ 39 → UserLeaf s.mem role 2 r va) : a ≤ 0x8000000 := by
  by_contra hlt
  have hleaf : ∀ i, i < 0x8001 → UserLeaf s.mem role 2 r (i * PGSIZE) := by
    intro i hi
    apply huser
    · simp only [PGSIZE_eq]
      omega
    · simp only [PGSIZE_eq]
      omega
  let page : Nat → Nat := fun i => ((leafPte s.mem 2 r (i * PGSIZE)).map PTE2PA).getD 0 / PGSIZE
  have hpage : ∀ i, i < 0x8001 → ∃ pa c j, lookup s.mem (i * PGSIZE) 2 r = some (c, j) ∧
      role pa = .leaf c j ∧ IsPage L pa ∧ page i = pa / PGSIZE := by
    intro i hi
    obtain ⟨c, j, hl, hv, hrole⟩ := hleaf i hi
    refine ⟨_, c, j, hl, hrole, h.page _ (by simp [hrole]) (by simp [hrole]), ?_⟩
    simp only [page, leafPte_of_lookup hl hv, Option.map_some, Option.getD_some]
  obtain ⟨i, hi, i', hi', hne, heq⟩ := Finset.exists_ne_map_eq_of_card_lt_of_maps_to
    (s := Finset.range 0x8001) (t := Finset.Ico 0x80000 0x88000) (f := page) (by simp) (by
      intro i hi
      obtain ⟨pa, c, j, -, -, hp, hpa⟩ := hpage i (by simpa using hi)
      have hbase := L.base_le
      have hbelow := L.below
      obtain ⟨-, h1, h2⟩ := hp
      simp only [Finset.coe_Ico, Set.mem_Ico, hpa]
      simp only [PHYSTOP_eq, KERNBASE, PGSIZE_eq] at *
      omega)
  obtain ⟨pa, c, j, hl, hrole, hp, hpa⟩ := hpage i (by simpa using hi)
  obtain ⟨pa', c', j', hl', hrole', hp', hpa'⟩ := hpage i' (by simpa using hi')
  rw [hpa, hpa', hp.index_inj hp'] at heq
  rw [heq, hrole'] at hrole
  simp only [Role.leaf.injEq] at hrole
  rw [hrole.1, hrole.2] at hl'
  have hpx := (h.wired.lookup_inj hr hr hl hl').2.2
  have hi1 : i < 0x8001 := by simpa using hi
  have hi2 : i' < 0x8001 := by simpa using hi'
  rw [px_eq_iff (by simp only [PGSIZE_eq]; omega) (by simp only [PGSIZE_eq]; omega)] at hpx
  simp only [PGSIZE_eq] at hpx
  omega

-- While everything below is mapped, uvmalloc() runs out of memory long before it
-- reaches an address that makes it panic.
theorem Allocs.not_stuck (h : Allocs L s role r start newsz start perm (.error e))
    (hbelow : ∀ va, va < start → va < 2 ^ 39 → UserLeaf s.mem role 2 r va)
    (hfree : ∀ va, start ≤ va → va < TRAPFRAME → leafPte s.mem 2 r va = none) : False := by
  cases h with
  | @stuck _ t role' a' panic ahead aligned why edit user =>
    have hbound : a' ≤ 0x8000000 := by
      apply edit.vm.user_bound edit.top
      intro va hva h39
      by_cases hlow : va < start
      · exact (edit.same va h39 (by omega)).user (hbelow va hlow h39)
      · exact user va (by omega) hva h39
    have hnone := hfree a' ahead.1 (by simp only [TRAPFRAME_eq]; omega)
    rcases why with why | why
    · simp only [MAXVA_eq] at why
      omega
    · exact why hnone

end Capacity

end Xv6
