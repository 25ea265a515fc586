import Xv6.Vm.Map

namespace Xv6

open Lib Function

variable {L : Layout} {s t : Phys} {m : Mem} {role role' : Nat → Role}

theorem leafPte_congr_page (hva : va < 2 ^ 39) (hva' : va' < 2 ^ 39)
    (h : va' / PGSIZE = va / PGSIZE) : leafPte m 2 r va' = leafPte m 2 r va :=
  leafPte_congr_px ((px_eq_iff hva' hva).mpr h)

theorem page_iff (hal : va % PGSIZE = 0) :
    va' / PGSIZE = va / PGSIZE ↔ va ≤ va' ∧ va' < va + PGSIZE := by
  simp only [PGSIZE_eq] at *
  omega

theorem unmapPage_unmapped (hva : va < MAXVA) (h : leafPte s.mem 2 r va = none) (do_free : Bool) :
    unmapPage L r va do_free s = .ok s := by
  rw [unmapPage, walk_false hva, ok_bind]
  cases hl : lookup s.mem va 2 r with
  | none => rfl
  | some loc =>
    obtain ⟨b, i⟩ := loc
    have hv : ¬hasFlag (s.mem b i) PTE_V := by
      intro hv
      rw [leafPte_of_lookup hl hv] at h
      simp at h
    simp only [hv, not_false_eq_true, if_true, pure_eq_ok]

theorem Vm.unmapPage_user (h : Vm L s role) (hr : role r = .top 2) (hva : va < MAXVA)
    (huser : UserLeaf s.mem role 2 r va) :
    ∃ t role', unmapPage L r va true s = .ok t ∧
      Edit L s role t role' r (fun va' => va' / PGSIZE = va / PGSIZE) ∧
      ∀ va', va' < 2 ^ 39 → va' / PGSIZE = va / PGSIZE → leafPte t.mem 2 r va' = none := by
  obtain ⟨b, i, hloc, hv, hleaf⟩ := huser
  have hva39 := lt_39_of_lt_MAXVA hva
  have hp : IsPage L (PTE2PA (s.mem b i)) := h.page _ (by simp [hleaf]) (by simp [hleaf])
  have hb := (h.wired.back _ b i hleaf).1
  generalize htarget : PTE2PA (s.mem b i) = a at hleaf hp
  have hba : b ≠ a := by
    intro hba
    simp [hba, hleaf] at hb
  have hra : r ≠ a := by
    intro hra
    simp [hra, hleaf] at hr
  have hheld : Vm L s (update role a .held) := by
    refine ⟨h.alloc_of rfl rfl (free_iff_update (by simp [hleaf]) (by simp)) fun _ _ => rfl, ?_, ?_⟩
    · exact h.page_of (fun _ hx => update_of_ne hx _ _) fun _ _ => hp
    · exact h.wired.setRole (by rw [hleaf, Role.level_leaf]) rfl (by simp)
  obtain ⟨u, hk, hu, hmu, -⟩ := hheld.kfree_spec (a := a) (by simp [Role.loose]) (by simp) hp
  rw [update_idem] at hu
  have hm : ∀ x, x ≠ a → (u.store b i 0#64).mem x = setEntry s.mem b i 0#64 x := by
    intro x hx
    show setEntry u.mem b i 0#64 x = setEntry s.mem b i 0#64 x
    unfold setEntry
    rw [hmu b hba]
    by_cases hxb : x = b
    · rw [hxb, update_self, update_self]
    · rw [update_of_ne hxb, update_of_ne hxb, hmu x hx]
  have hrole : ∀ x, x ≠ a → update role a .free x = role x :=
    fun x hx => update_of_ne hx _ _
  have hframe := h.wired.frame_entry _ hr hloc (.inr hleaf) hm hrole
  have hremap := h.wired.remap _ hr hloc hva39 (.inr hleaf) hm hrole
  rw [if_neg (not_has_zero PTE_V)] at hremap
  refine ⟨u.store b i 0#64, update role a .free, ?_, ⟨⟨?_, hu.page, ?_⟩, ?_, ?_, hremap.same⟩, ?_⟩
  · rw [unmapPage, walk_false hva, ok_bind, hloc]
    simp only [hv, not_true_eq_false, if_false, if_true, htarget, hk, ok_bind, pure_eq_ok]
  · exact hu.store_alloc (by simp [hrole b hba, hb]) (fun _ => Iff.rfl) _ _
  · apply hu.wired.setForeign (by rwa [hrole b hba])
    intro x hx
    by_cases hxa : x = a
    · simp [hxa] at hx
    · rw [hrole x hxa] at hx
      exact hxa (h.wired.leaf_unique hleaf hx)
  · rw [hrole r hra, hr]
  · apply hframe.shrink
    intro x hx hxr
    left
    simp [hx.resolve_left hxr, hleaf, Role.pinned]
  · intro va' hva' heq
    rw [hremap.pte va' hva', if_pos heq]

theorem Vm.unmapPage_foreign (h : Vm L s role) (hr : role r = .top 2) (hva : va < MAXVA)
    (hforeign : ¬UserLeaf s.mem role 2 r va) :
    ∃ t, unmapPage L r va false s = .ok t ∧
      Edit L s role t role r (fun va' => va' / PGSIZE = va / PGSIZE) ∧
      ∀ va', va' < 2 ^ 39 → va' / PGSIZE = va / PGSIZE → leafPte t.mem 2 r va' = none := by
  have hva39 := lt_39_of_lt_MAXVA hva
  cases hpte : leafPte s.mem 2 r va with
  | none =>
    refine ⟨s, unmapPage_unmapped hva hpte false, .refl h hr _, ?_⟩
    intro va' hva' heq
    rw [leafPte_congr_page hva39 hva' heq, hpte]
  | some e =>
    obtain ⟨b, i, hloc, hv, -⟩ := leafPte_eq_some.mp hpte
    have hb := h.wired.lookup_level (by rw [hr, Role.level_top]) hloc
    have hwired : Wired (s.store b i 0#64).mem role := by
      apply h.wired.setForeign hb
      intro x hx
      refine hforeign ⟨b, i, hloc, hv, ?_⟩
      rw [(h.wired.back x b i hx).2.2, hx]
    obtain ⟨hedit, hnone⟩ := h.storeEntry hr hva39 hloc hwired
    rw [if_neg (not_has_zero PTE_V)] at hnone
    refine ⟨s.store b i 0#64, ?_, hedit, hnone⟩
    rw [unmapPage, walk_false hva, ok_bind, hloc]
    simp only [hv, not_true_eq_false, if_false, Bool.false_eq_true, pure_eq_ok]

theorem uvmunmap_one (hal : va % PGSIZE = 0) (hva : va < MAXVA) (do_free : Bool) :
    uvmunmap L r va 1 do_free s = unmapPage L r va do_free s := by
  have hlast : wrap64 (va + 1 * PGSIZE) = va + PGSIZE := by
    rw [Nat.one_mul]
    apply wrap64_eq_of_lt
    simp only [MAXVA_eq, PGSIZE_eq] at *
    omega
  have hlt : va < va + PGSIZE := by simp [PGSIZE_eq]
  rw [uvmunmap, if_neg (by omega), uvmunmapLoop, hlast, if_pos hlt]
  cases unmapPage L r va do_free s with
  | error e => rfl
  | ok t => rfl

def Range (va n va' : Nat) : Prop := va ≤ va' ∧ va' < va + n * PGSIZE

theorem Vm.uvmunmapLoop_spec (h : Vm L s role) (hr : role r = .top 2) (hal : a % PGSIZE = 0)
    (hle : a + n * PGSIZE ≤ MAXVA)
    (hpre : ∀ va, Range a n va → leafPte s.mem 2 r va = none ∨ UserLeaf s.mem role 2 r va) :
    ∃ t role', uvmunmapLoop L r true (a + n * PGSIZE) n a s = .ok t ∧
      Edit L s role t role' r (Range a n) ∧
      ∀ va, va < 2 ^ 39 → Range a n va → leafPte t.mem 2 r va = none := by
  induction n generalizing a s role with
  | zero =>
    refine ⟨s, role, rfl, .refl h hr _, ?_⟩
    intro va _ hva
    simp only [Range, Nat.zero_mul] at hva
    omega
  | succ n ih =>
    have hpos : 0 < PGSIZE := by simp [PGSIZE_eq]
    have hsucc : (n + 1) * PGSIZE = PGSIZE + n * PGSIZE := by rw [Nat.succ_mul, Nat.add_comm]
    rw [hsucc] at hle
    have hfirst : Range a (n + 1) a := by
      simp only [Range, hsucc]
      omega
    have hpage : ∀ va, va / PGSIZE = a / PGSIZE → Range a (n + 1) va := by
      intro va hva
      rw [page_iff hal] at hva
      simp only [Range, hsucc]
      omega
    -- one page
    have hone : ∃ t role', unmapPage L r a true s = .ok t ∧
        Edit L s role t role' r (fun va' => va' / PGSIZE = a / PGSIZE) ∧
        ∀ va', va' < 2 ^ 39 → va' / PGSIZE = a / PGSIZE → leafPte t.mem 2 r va' = none := by
      rcases hpre a hfirst with hnone | huser
      · refine ⟨s, role, unmapPage_unmapped (by omega) hnone true, .refl h hr _, ?_⟩
        intro va' hva' heq
        rw [leafPte_congr_page (lt_39_of_lt_MAXVA (by omega)) hva' heq, hnone]
      · exact h.unmapPage_user hr (by omega) huser
    obtain ⟨u, ρ, hok, hedit, hnone⟩ := hone
    -- the others are as before
    have hnext : ∀ va, Range (a + PGSIZE) n va →
        va < 2 ^ 39 ∧ ¬va / PGSIZE = a / PGSIZE ∧ Range a (n + 1) va := by
      intro va hva
      simp only [Range] at hva
      rw [page_iff hal, Range, hsucc]
      simp only [MAXVA_eq] at hle
      omega
    have hpre' : ∀ va, Range (a + PGSIZE) n va →
        leafPte u.mem 2 r va = none ∨ UserLeaf u.mem ρ 2 r va := by
      intro va hva
      obtain ⟨hva39, hne, hrange⟩ := hnext va hva
      have hsame := hedit.same va hva39 hne
      rcases hpre va hrange with hnone | huser
      · left
        rw [hsame.pte, hnone]
      · exact .inr (hsame.user huser)
    obtain ⟨t, role', hok', hedit', hnone'⟩ := ih (a := a + PGSIZE) hedit.vm hedit.top
      (by rw [Nat.add_mod_right, hal]) (by omega) hpre'
    have hrange' : Edit L u ρ t role' r (Range a (n + 1)) :=
      hedit'.mono fun va hva => (hnext va hva).2.2
    refine ⟨t, role', ?_, (hedit.mono hpage).trans hrange', ?_⟩
    · have hwrap : wrap64 (a + PGSIZE) = a + PGSIZE := by
        apply wrap64_eq_of_lt
        simp only [MAXVA_eq] at hle
        omega
      rw [uvmunmapLoop, if_pos (by rw [hsucc]; omega), hok, ok_bind, hwrap, hsucc,
        ← Nat.add_assoc]
      exact hok'
    · intro va hva39 hva
      by_cases heq : va / PGSIZE = a / PGSIZE
      · have hnot : ¬Range (a + PGSIZE) n va := fun hr => (hnext va hr).2.1 heq
        rw [(hedit'.same va hva39 hnot).pte, hnone va hva39 heq]
      · apply hnone' va hva39
        rw [page_iff hal] at heq
        simp only [Range, hsucc] at hva ⊢
        omega

theorem Vm.uvmunmap_spec (h : Vm L s role) (hr : role r = .top 2) (hal : va % PGSIZE = 0)
    (hle : va + n * PGSIZE ≤ MAXVA)
    (hpre : ∀ va', Range va n va' → leafPte s.mem 2 r va' = none ∨ UserLeaf s.mem role 2 r va') :
    ∃ t role', uvmunmap L r va n true s = .ok t ∧ Edit L s role t role' r (Range va n) ∧
      ∀ va', va' < 2 ^ 39 → Range va n va' → leafPte t.mem 2 r va' = none := by
  have hwrap : wrap64 (va + n * PGSIZE) = va + n * PGSIZE := by
    apply wrap64_eq_of_lt
    simp only [MAXVA_eq] at hle
    omega
  rw [uvmunmap, if_neg (by omega), hwrap]
  exact h.uvmunmapLoop_spec hr hal hle hpre

end Xv6
