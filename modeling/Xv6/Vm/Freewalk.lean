import Xv6.Vm.Unmap

namespace Xv6

open Lib

variable {L : Layout} {s t : Phys} {m : Mem} {role role' : Nat → Role}

def Below (m : Mem) (b i x : Nat) : Prop :=
  ∃ j : Fin 512, i ≤ j.val ∧ hasFlag (m b j) PTE_V ∧ PTE2PA (m b j) = x

theorem Wired.frame_detach (hw : Wired m role) (hb : role b = .top l) :
    Frame (fun x => x = b ∨ Below m b 0 x) m role m (detach role b) := by
  refine ⟨fun x hx _ => ?_, fun _ _ _ _ _ => rfl, fun x k va _ ht => Same.of_lookup rfl ?_⟩
  · apply detach_of_ne (not_or.mp hx).1
    intro k j hxj
    obtain ⟨-, hv, hpa⟩ := hw.up x k b j hxj
    exact (not_or.mp hx).2 ⟨j, Nat.zero_le _, hv, hpa⟩
  · intro c i hl hv hleaf
    refine ⟨hl, rfl, ?_, rfl⟩
    have hne : PTE2PA (m c i) ≠ b := by
      intro heq
      rw [heq, hb] at hleaf
      simp at hleaf
    rw [detach_of_ne hne (by simp [hleaf]), hleaf]

theorem Vm.detached (h : Vm L s role) (hb : role b = .top l)
    (hleaf : ∀ x i, role x ≠ .leaf b i) : Vm L s (detach role b) := by
  have hfree : ∀ a, detach role b a = .free ↔ role a = .free := by
    intro a
    by_cases hab : a = b
    · simp [hab, detach_self, hb]
    · cases ha : role a with
      | table k c j => by_cases hcb : c = b <;> simp [detach, hab, ha, hcb]
      | free | held | top _ | leaf _ _ | frame | shared | other => simp [detach, hab, ha]
  refine ⟨h.alloc_of rfl rfl hfree fun _ _ => rfl, ?_, h.wired.detached hb hleaf⟩
  intro a h1 h2
  apply h.page a ((hfree a).not.mp h1)
  intro hother
  have hab : a ≠ b := by
    intro hab
    simp [hab, hb] at hother
  exact h2 (by rw [detach_of_ne hab (by simp [hother]), hother])

-- What a call of freewalk() for a page table of level k with no leaf does.
def Frees (L : Layout) (k : Nat) (walk : Nat → Phys → Except Panic Phys) : Prop :=
  ∀ s role b, Vm L s role → role b = .top k → (∀ va, leafPte s.mem k b va = none) →
    ∃ t role', walk b s = .ok t ∧ Vm L t role' ∧ role' b = .free ∧
      Frame (· = b) s.mem role t.mem role'

-- Page b is in the hands of freewalk(), and its entries from the i-th on point
-- to page tables, one each, with no leaves but such as `leaf` admits.
structure Pending (leaf : Pte → Prop) (m : Mem) (role : Nat → Role) (k b i : Nat) : Prop where
  held : role b = .held
  child : ∀ j : Fin 512, i ≤ j.val → hasFlag (m b j) PTE_V →
    innerPte (m b j) ∧ role (PTE2PA (m b j)) = .top k ∧
      ∀ va e, leafPte m k (PTE2PA (m b j)) va = some e → leaf e
  inj : ∀ j j' : Fin 512, i ≤ j.val → i ≤ j'.val → hasFlag (m b j) PTE_V → hasFlag (m b j') PTE_V →
    PTE2PA (m b j) = PTE2PA (m b j') → j = j'

theorem Pending.later (h : Pending leaf m role k b i) (hi : i ≤ i') :
    Pending leaf m role k b i' :=
  ⟨h.held, fun j hj => h.child j (by omega), fun j j' hj hj' => h.inj j j' (by omega) (by omega)⟩

theorem Pending.step (h : Pending leaf s.mem role k b i) (hi : i < 512)
    (hvm : Vm L s role) {walk : Nat → Phys → Except Panic Phys} (hwalk : Frees L k walk)
    (hv : hasFlag (s.mem b (Fin.ofNat 512 i)) PTE_V)
    (hempty : ∀ va, leafPte s.mem k (PTE2PA (s.mem b (Fin.ofNat 512 i))) va = none) :
    ∃ t role', walk (PTE2PA (s.mem b (Fin.ofNat 512 i))) s = .ok t ∧
      Vm L (t.store b (Fin.ofNat 512 i) 0#64) role' ∧
      Pending leaf (t.store b (Fin.ofNat 512 i) 0#64).mem role' k b (i + 1) ∧
      (∀ j : Fin 512, i < j.val → (t.store b (Fin.ofNat 512 i) 0#64).mem b j = s.mem b j ∧
        (hasFlag (s.mem b j) PTE_V → ∀ va,
          leafPte (t.store b (Fin.ofNat 512 i) 0#64).mem k (PTE2PA (s.mem b j)) va =
            leafPte s.mem k (PTE2PA (s.mem b j)) va)) ∧
      (role' (PTE2PA (s.mem b (Fin.ofNat 512 i)))).pinned = false ∧
      Frame (fun x => x = b ∨ x = PTE2PA (s.mem b (Fin.ofNat 512 i))) s.mem role
        (t.store b (Fin.ofNat 512 i) 0#64).mem role' := by
  have hival : (Fin.ofNat 512 i).val = i := by
    rw [Fin.val_ofNat]
    omega
  generalize Fin.ofNat 512 i = e at hv hival hempty ⊢
  obtain ⟨-, hc, -⟩ := h.child e (by omega) hv
  generalize hce : PTE2PA (s.mem b e) = c at hc hempty ⊢
  obtain ⟨t, role', hok, hvm', hfree, hframe⟩ := hwalk s role c hvm hc hempty
  have hbc : b ≠ c := by
    intro hbc
    have hheld := h.held
    simp [hbc, hc] at hheld
  have hb' : role' b = .held := by
    rw [hframe.role_eq b hbc (.inl (by rw [h.held]; rfl)), h.held]
  have hmb : t.mem b = s.mem b :=
    hframe.mem_eq b hbc (by rw [h.held]; rfl) (by rw [h.held]; rfl) (by simp [h.held])
  have hfill : Fills t b (t.store b e 0#64) := ⟨rfl, rfl, fun x hx => setEntry_of_ne hx _ _⟩
  obtain ⟨hstore, hframe'⟩ := hvm'.fill hb' hfill
  have htotal : Frame (fun x => x = b ∨ x = c) s.mem role (t.store b e 0#64).mem role' :=
    (hframe.mono fun _ hx => .inr hx).trans (hframe'.mono fun _ hx => .inl hx)
  have hentry : ∀ j : Fin 512, i < j.val → (t.store b e 0#64).mem b j = s.mem b j := by
    intro j hj
    show setEntry t.mem b e 0#64 b j = s.mem b j
    rw [setEntry_apply, if_neg, hmb]
    intro hje
    rw [hje.2] at hj
    omega
  -- the tables of the later entries are other pages
  have hnot : ∀ j : Fin 512, i < j.val → hasFlag (s.mem b j) PTE_V →
      ¬(PTE2PA (s.mem b j) = b ∨ PTE2PA (s.mem b j) = c) := by
    rintro j hj hvj (hdb | hdc)
    · have hd := (h.child j (by omega) hvj).2.1
      rw [hdb, h.held] at hd
      simp at hd
    · have hje := h.inj j e (by omega) (by omega) hvj hv (hdc.trans hce.symm)
      rw [hje] at hj
      omega
  have hlater : ∀ j : Fin 512, i < j.val → hasFlag (s.mem b j) PTE_V → ∀ va,
      leafPte (t.store b e 0#64).mem k (PTE2PA (s.mem b j)) va =
        leafPte s.mem k (PTE2PA (s.mem b j)) va := by
    intro j hj hvj va
    exact (htotal.same _ k va (hnot j hj hvj) (h.child j (by omega) hvj).2.1).pte
  refine ⟨t, role', hok, hstore, ⟨hb', ?_, ?_⟩, fun j hj => ⟨hentry j hj, hlater j hj⟩,
    by rw [hfree]; rfl, htotal⟩
  · intro j hj hvj
    rw [hentry j hj] at hvj ⊢
    obtain ⟨hinner, hd, hleaf⟩ := h.child j (by omega) hvj
    refine ⟨hinner, htotal.top (hnot j hj hvj) hd, fun va pte hpte => hleaf va pte ?_⟩
    rwa [hlater j hj hvj va] at hpte
  · intro j j' hj hj' hvj hvj' heq
    rw [hentry j hj] at hvj heq
    rw [hentry j' hj'] at hvj' heq
    exact h.inj j j' (by omega) (by omega) hvj hvj' heq

theorem freewalkLoop_spec {walk : Nat → Phys → Except Panic Phys} (hwalk : Frees L k walk)
    (hn : n ≤ 512) (hvm : Vm L s role) (h : Pending (fun _ => False) s.mem role k b (512 - n)) :
    ∃ t role', freewalkLoop b walk n s = .ok t ∧ Vm L t role' ∧ role' b = .held ∧
      (∀ x, Below s.mem b (512 - n) x → (role' x).pinned = false) ∧
      Frame (fun x => x = b ∨ Below s.mem b (512 - n) x) s.mem role t.mem role' := by
  induction n generalizing s role with
  | zero =>
    refine ⟨s, role, rfl, hvm, h.held, ?_, .refl ..⟩
    rintro x ⟨j, hj, -⟩
    omega
  | succ n ih =>
    have hlt : 512 - (n + 1) < 512 := by omega
    have hnext : 512 - (n + 1) + 1 = 512 - n := by omega
    generalize hi : 512 - (n + 1) = i at h hlt hnext ⊢
    have hival : (Fin.ofNat 512 i).val = i := by
      rw [Fin.val_ofNat]
      omega
    by_cases hv : hasFlag (s.mem b (Fin.ofNat 512 i)) PTE_V
    · have hempty : ∀ va, leafPte s.mem k (PTE2PA (s.mem b (Fin.ofNat 512 i))) va = none :=
        fun va => Option.eq_none_iff_forall_ne_some.mpr fun e he =>
          (h.child _ (by omega) hv).2.2 va e he
      obtain ⟨u, ρ, hok, hvm', hpending, hentry, hpin, hframe⟩ := h.step hlt hvm hwalk hv hempty
      rw [hnext] at hpending
      obtain ⟨t, role', hok', hvm'', hheld, hunpin, hframe'⟩ := ih (by omega) hvm' hpending
      -- the pages that are left to free are the same before and after
      have hbelow : ∀ x, Below (u.store b (Fin.ofNat 512 i) 0#64).mem b (512 - n) x ↔
          Below s.mem b (512 - n) x := by
        intro x
        constructor
        · rintro ⟨j, hj, hvj, hx⟩
          rw [(hentry j (by omega)).1] at hvj hx
          exact ⟨j, hj, hvj, hx⟩
        · rintro ⟨j, hj, hvj, hx⟩
          rw [← (hentry j (by omega)).1] at hvj hx
          exact ⟨j, hj, hvj, hx⟩
      have hsub : ∀ x, Below s.mem b (512 - n) x → Below s.mem b i x := by
        rintro x ⟨j, hj, hvj, hx⟩
        exact ⟨j, by omega, hvj, hx⟩
      have hfirst : Below s.mem b i (PTE2PA (s.mem b (Fin.ofNat 512 i))) :=
        ⟨Fin.ofNat 512 i, by omega, hv, rfl⟩
      refine ⟨t, role', ?_, hvm'', hheld, ?_, ?_⟩
      · simp only [freewalkLoop, hi, hv, (h.child _ (by omega) hv).1, and_self, if_true, hok,
          ok_bind]
        exact hok'
      · intro x hx
        by_cases hrest : Below s.mem b (512 - n) x
        · exact hunpin x ((hbelow x).mpr hrest)
        · obtain ⟨j, hj, hvj, hxj⟩ := hx
          have hji : j.val = i := by
            by_contra hne
            exact hrest ⟨j, by omega, hvj, hxj⟩
          have hje : j = Fin.ofNat 512 i := Fin.ext (by omega)
          subst hje
          rw [hxj] at hpin
          have hxb : x ≠ b := by
            intro hxb
            rw [hxb, hpending.held] at hpin
            simp [Role.pinned] at hpin
          by_contra hpin'
          have hrole := hframe'.role_eq x (not_or.mpr ⟨hxb, (hbelow x).not.mpr hrest⟩)
            (.inr (by simpa using hpin'))
          rw [hrole] at hpin'
          exact hpin' hpin
      · refine (hframe.mono ?_).trans (hframe'.mono ?_)
        · intro x hx
          rcases hx with hx | hx
          · exact .inl hx
          · exact .inr (hx ▸ hfirst)
        · intro x hx
          rcases hx with hx | hx
          · exact .inl hx
          · exact .inr (hsub x ((hbelow x).mp hx))
    · have hpending := h.later (show i ≤ 512 - n by omega)
      obtain ⟨t, role', hok', hvm'', hheld, hunpin, hframe'⟩ := ih (by omega) hvm hpending
      have hbelow : ∀ x, Below s.mem b i x ↔ Below s.mem b (512 - n) x := by
        intro x
        constructor
        · rintro ⟨j, hj, hvj, hx⟩
          refine ⟨j, ?_, hvj, hx⟩
          by_contra hlt'
          have hje : j = Fin.ofNat 512 i := Fin.ext (by omega)
          exact hv (hje ▸ hvj)
        · rintro ⟨j, hj, hvj, hx⟩
          exact ⟨j, by omega, hvj, hx⟩
      refine ⟨t, role', ?_, hvm'', hheld, fun x hx => hunpin x ((hbelow x).mp hx),
        hframe'.mono ?_⟩
      · simp only [freewalkLoop, hi, hv, false_and, if_false]
        exact hok'
      · intro x hx
        rcases hx with hx | hx
        · exact .inl hx
        · exact .inr ((hbelow x).mpr hx)

theorem freewalkLoop_empty (walk : Nat → Phys → Except Panic Phys)
    (h : ∀ j, ¬hasFlag (s.mem b j) PTE_V) (n : Nat) : freewalkLoop b walk n s = .ok s := by
  induction n with
  | zero => rfl
  | succ n ih =>
    simp only [freewalkLoop, h, false_and, if_false]
    exact ih

theorem Vm.freewalk_last (h : Vm L s role) (hb : role b = .top l)
    (hu : Vm L u ρ) (hheld : ρ b = .held) (hbelow : ∀ x, Below s.mem b 0 x → (ρ x).pinned = false)
    (hframe : Frame (fun x => x = b ∨ Below s.mem b 0 x) s.mem (detach role b) u.mem ρ)
    (hchild : ∀ x, Below s.mem b 0 x → (role x).pinned = false) :
    ∃ t role', kfree L b u = .ok t ∧ Vm L t role' ∧ role' b = .free ∧
      Frame (· = b) s.mem role t.mem role' := by
  have hp : IsPage L b := h.page b (by simp [hb]) (by simp [hb])
  obtain ⟨t, hk, ht, -, hframe'⟩ := hu.kfree_spec (by rw [hheld]; rfl) (by simp [hheld]) hp
  refine ⟨t, Function.update ρ b .free, hk, ht, Function.update_self .., ?_⟩
  have htotal := ((h.wired.frame_detach hb).trans hframe).trans (hframe'.mono fun _ hx => .inl hx)
  apply htotal.shrink
  intro x hx hxb
  have hxbelow := hx.resolve_left hxb
  left
  rw [Function.update_of_ne hxb]
  exact ⟨hchild x hxbelow, hbelow x hxbelow⟩

theorem Vm.pending (h : Vm L s role) (leaf : Pte → Prop) (hb : role b = .top (k + 1))
    (hleaf : ∀ j va e, hasFlag (s.mem b j) PTE_V → leafPte s.mem k (PTE2PA (s.mem b j)) va = some e →
      leaf e) :
    Vm L s (detach role b) ∧ Pending leaf s.mem (detach role b) k b 0 ∧
      ∀ j, hasFlag (s.mem b j) PTE_V → role (PTE2PA (s.mem b j)) = .table k b j := by
  have hlevel : (role b).level = some (k + 1) := by rw [hb, Role.level_top]
  have hnot : ∀ x i, role x ≠ .leaf b i := by
    intro x i hx
    have hzero := (h.wired.back x b i hx).1
    simp [hlevel] at hzero
  have hdown : ∀ j, hasFlag (s.mem b j) PTE_V →
      role (PTE2PA (s.mem b j)) = .table k b j ∧ innerPte (s.mem b j) :=
    fun j hv => h.wired.down b j k hlevel hv
  refine ⟨h.detached hb hnot, ⟨detach_self, fun j _ hv => ⟨(hdown j hv).2, detach_child ?_ (hdown j hv).1,
    fun va e => hleaf j va e hv⟩, ?_⟩, fun j hv => (hdown j hv).1⟩
  · intro heq
    have hrole := (hdown j hv).1
    simp [heq, hb] at hrole
  · intro j j' _ _ hv hv' heq
    have hrole := (hdown j hv).1
    rw [heq, (hdown j' hv').1] at hrole
    simpa using hrole.symm

theorem freewalkAt_frees (hl : l ≤ 2) : Frees L l (freewalkAt L (l + 1)) := by
  induction l with
  | zero =>
    intro s role b h hb hempty
    have hinvalid : ∀ j, ¬hasFlag (s.mem b j) PTE_V := by
      intro j hv
      have hva := hempty (j.val * PGSIZE)
      have hpx : PX 0 (j.val * PGSIZE) = j := by
        apply Fin.ext
        rw [PX_zero]
        simp only [PGSIZE_eq]
        omega
      rw [leafPte_zero, hpx, if_pos hv] at hva
      simp at hva
    have hleaf : ∀ x i, role x ≠ .leaf b i :=
      fun x i hx => hinvalid i (h.wired.back x b i hx).2.1
    have hnone : ∀ x, ¬Below s.mem b 0 x := fun x ⟨j, _, hv, _⟩ => hinvalid j hv
    have hlast := h.freewalk_last hb (h.detached hb hleaf) detach_self
      (fun x hx => absurd hx (hnone x)) (.refl ..) fun x hx => absurd hx (hnone x)
    rwa [freewalkAt, freewalkLoop_empty _ hinvalid, ok_bind]
  | succ k ih =>
    intro s role b h hb hempty
    obtain ⟨hvm, hpending, hchild⟩ := h.pending (fun _ => False) hb (by
      intro j va e hv hpte
      obtain ⟨va', hva'⟩ := exists_leafPte_child (l := k) (by omega) hv va
      simp [← hva', hempty va'] at hpte)
    obtain ⟨u, ρ, hok, hu, hheld, hbelow, hframe⟩ :=
      freewalkLoop_spec (ih (by omega)) (Nat.le_refl 512) hvm hpending
    have hlast := h.freewalk_last hb hu hheld hbelow hframe
      (fun x ⟨j, _, hv, hx⟩ => by rw [← hx, hchild j hv]; rfl)
    rwa [freewalkAt, hok, ok_bind]

section Leaf

def Halts (L : Layout) (k : Nat) (walk : Nat → Phys → Except Panic Phys) : Prop :=
  ∀ s role b, Vm L s role → role b = .top k → (∀ va e, leafPte s.mem k b va = some e → ¬innerPte e) →
    (∃ va e, leafPte s.mem k b va = some e) → walk b s = .error .freewalkLeaf

theorem freewalkLoop_leaf (walk : Nat → Phys → Except Panic Phys)
    (hleaf : ∀ j, hasFlag (s.mem b j) PTE_V → ¬innerPte (s.mem b j)) (hn : n ≤ 512)
    (hex : ∃ j : Fin 512, 512 - n ≤ j.val ∧ hasFlag (s.mem b j) PTE_V) :
    freewalkLoop b walk n s = .error .freewalkLeaf := by
  induction n with
  | zero =>
    obtain ⟨j, hj, -⟩ := hex
    omega
  | succ n ih =>
    by_cases hv : hasFlag (s.mem b (Fin.ofNat 512 (512 - (n + 1)))) PTE_V
    · simp only [freewalkLoop, hv, hleaf _ hv, and_false, if_false, if_true]
    · simp only [freewalkLoop, hv, false_and, if_false]
      obtain ⟨j, hj, hvj⟩ := hex
      refine ih (by omega) ⟨j, ?_, hvj⟩
      by_contra hlt
      have hje : j = Fin.ofNat 512 (512 - (n + 1)) := by
        apply Fin.ext
        rw [Fin.val_ofNat]
        omega
      exact hv (hje ▸ hvj)

theorem freewalkLoop_halts {walk : Nat → Phys → Except Panic Phys} (hfrees : Frees L k walk)
    (hhalts : Halts L k walk) (hn : n ≤ 512) (hvm : Vm L s role)
    (h : Pending (fun e => ¬innerPte e) s.mem role k b (512 - n))
    (hex : ∃ j : Fin 512, 512 - n ≤ j.val ∧ hasFlag (s.mem b j) PTE_V ∧
      ∃ va e, leafPte s.mem k (PTE2PA (s.mem b j)) va = some e) :
    freewalkLoop b walk n s = .error .freewalkLeaf := by
  induction n generalizing s role with
  | zero =>
    obtain ⟨j, hj, -⟩ := hex
    omega
  | succ n ih =>
    have hlt : 512 - (n + 1) < 512 := by omega
    have hnext : 512 - (n + 1) + 1 = 512 - n := by omega
    generalize hi : 512 - (n + 1) = i at h hex hlt hnext
    have hival : (Fin.ofNat 512 i).val = i := by
      rw [Fin.val_ofNat]
      omega
    obtain ⟨j, hj, hvj, va, e, hpte⟩ := hex
    by_cases hv : hasFlag (s.mem b (Fin.ofNat 512 i)) PTE_V
    · obtain ⟨hinner, hc, hleaf⟩ := h.child _ (by omega) hv
      by_cases hempty : ∀ va, leafPte s.mem k (PTE2PA (s.mem b (Fin.ofNat 512 i))) va = none
      · obtain ⟨u, ρ, hok, hvm', hpending, hentry, -⟩ := h.step hlt hvm hfrees hv hempty
        have hji : i < j.val := by
          by_contra hle
          have hje : j = Fin.ofNat 512 i := Fin.ext (by omega)
          rw [hje, hempty va] at hpte
          simp at hpte
        simp only [freewalkLoop, hi, hv, hinner, and_self, if_true, hok, ok_bind]
        refine ih (by omega) hvm' (by rwa [hnext] at hpending) ⟨j, by omega, ?_⟩
        rw [(hentry j hji).1]
        exact ⟨hvj, va, e, by rw [(hentry j hji).2 hvj va, hpte]⟩
      · obtain ⟨va', hsome⟩ := not_forall.mp hempty
        obtain ⟨e', he'⟩ := Option.ne_none_iff_exists'.mp hsome
        simp only [freewalkLoop, hi, hv, hinner, and_self, if_true,
          hhalts s role _ hvm hc hleaf ⟨va', e', he'⟩, error_bind]
    · simp only [freewalkLoop, hi, hv, false_and, if_false]
      refine ih (by omega) hvm (h.later (by omega)) ⟨j, ?_, hvj, va, e, hpte⟩
      by_contra hle
      have hje : j = Fin.ofNat 512 i := Fin.ext (by omega)
      exact hv (hje ▸ hvj)

theorem freewalkAt_halts (hl : l ≤ 2) : Halts L l (freewalkAt L (l + 1)) := by
  induction l with
  | zero =>
    intro s role b h hb hleaf hex
    have hpx : ∀ j : Fin 512, PX 0 (j.val * PGSIZE) = j := by
      intro j
      apply Fin.ext
      rw [PX_zero]
      simp only [PGSIZE_eq]
      omega
    have hentry : ∀ j, hasFlag (s.mem b j) PTE_V → ¬innerPte (s.mem b j) := by
      intro j hv
      apply hleaf (j.val * PGSIZE)
      rw [leafPte_zero, hpx, if_pos hv]
    obtain ⟨va, e, hpte⟩ := hex
    rw [leafPte_zero] at hpte
    split at hpte
    next hv =>
      rw [freewalkAt, freewalkLoop_leaf _ hentry (Nat.le_refl 512) ⟨PX 0 va, Nat.zero_le _, hv⟩,
        error_bind]
    next => simp at hpte
  | succ k ih =>
    intro s role b h hb hleaf hex
    obtain ⟨va, e, hpte⟩ := hex
    have hlevel : (role b).level = some (k + 1) := by rw [hb, Role.level_top]
    have hchild : ∀ j va e, hasFlag (s.mem b j) PTE_V →
        leafPte s.mem k (PTE2PA (s.mem b j)) va = some e → ¬innerPte e := by
      intro j va e hv hpte
      obtain ⟨va', hva'⟩ := exists_leafPte_child (l := k) (by omega) hv va
      exact hleaf va' e (hva'.trans hpte)
    obtain ⟨hvm, hpending, -⟩ := h.pending _ hb hchild
    rw [leafPte_succ] at hpte
    split at hpte
    next hv =>
      rw [freewalkAt, freewalkLoop_halts (freewalkAt_frees (by omega)) (ih (by omega)) (Nat.le_refl 512)
        hvm hpending ⟨PX (k + 1) va, Nat.zero_le _, hv, va, e, hpte⟩, error_bind]
    next => simp at hpte

end Leaf

theorem leafPte_mod (m : Mem) (r va : Nat) : leafPte m 2 r va = leafPte m 2 r (va % 2 ^ 39) := by
  apply leafPte_congr_px
  intro j hj
  apply Fin.ext
  have hcases : j = 0 ∨ j = 1 ∨ j = 2 := by omega
  rcases hcases with rfl | rfl | rfl
  · rw [PX_zero, PX_zero]
    omega
  · rw [PX_one, PX_one]
    omega
  · rw [PX_two, PX_two]
    omega

theorem Vm.freewalk_spec (h : Vm L s role) (hr : role r = .top 2)
    (hempty : ∀ va, va < 2 ^ 39 → leafPte s.mem 2 r va = none) :
    ∃ t role', freewalk L r s = .ok t ∧ Vm L t role' ∧ role' r = .free ∧
      Frame (· = r) s.mem role t.mem role' := by
  apply freewalkAt_frees (Nat.le_refl 2) s role r h hr
  intro va
  rw [leafPte_mod]
  exact hempty _ (Nat.mod_lt _ (by omega))

theorem Vm.freewalk_halts (h : Vm L s role) (hr : role r = .top 2)
    (hleaf : ∀ va e, leafPte s.mem 2 r va = some e → ¬innerPte e)
    (hpte : leafPte s.mem 2 r va = some e) : freewalk L r s = .error .freewalkLeaf :=
  freewalkAt_halts (Nat.le_refl 2) s role r h hr hleaf ⟨va, e, hpte⟩

theorem Vm.uvmfree_pages (h : Vm L s role) (hr : role r = .top 2) (hsz : PGROUNDUP sz ≤ MAXVA)
    (hpre : ∀ va, va < PGROUNDUP sz → leafPte s.mem 2 r va = none ∨ UserLeaf s.mem role 2 r va) :
    ∃ u ρ, uvmfree L r sz s = freewalk L r u ∧ Edit L s role u ρ r (· < PGROUNDUP sz) ∧
      ∀ va, va < PGROUNDUP sz → leafPte u.mem 2 r va = none := by
  by_cases hpos : 0 < sz
  · have hround : 0 + PGROUNDUP sz / PGSIZE * PGSIZE = PGROUNDUP sz := by
      simp only [PGROUNDUP, PGSIZE_eq]
      omega
    have hrange : ∀ va, Range 0 (PGROUNDUP sz / PGSIZE) va ↔ va < PGROUNDUP sz := by
      intro va
      rw [Range, hround]
      omega
    obtain ⟨u, ρ, hok, hedit, hnone⟩ := h.uvmunmap_spec (n := PGROUNDUP sz / PGSIZE) hr
      (Nat.zero_mod _) (by rw [hround]; exact hsz) (fun va hva => hpre va ((hrange va).mp hva))
    refine ⟨u, ρ, by rw [uvmfree, if_pos hpos, hok, ok_bind], hedit.mono fun va => (hrange va).mp,
      fun va hva => hnone va ?_ ((hrange va).mpr hva)⟩
    exact lt_39_of_lt_MAXVA (Nat.lt_of_lt_of_le hva hsz)
  · have hzero : PGROUNDUP sz = 0 := by
      have hsz0 : sz = 0 := by omega
      rw [hsz0]
      rfl
    refine ⟨s, role, by rw [uvmfree, if_neg hpos, ok_bind], .refl h hr _, fun va hva => ?_⟩
    rw [hzero] at hva
    omega

-- Those pages have to be all that is mapped.
theorem Vm.uvmfree_spec (h : Vm L s role) (sz : Nat) (hr : role r = .top 2) (hsz : PGROUNDUP sz ≤ MAXVA)
    (hpre : ∀ va, va < 2 ^ 39 → leafPte s.mem 2 r va = none ∨
      va < PGROUNDUP sz ∧ UserLeaf s.mem role 2 r va) :
    ∃ t role', uvmfree L r sz s = .ok t ∧ Vm L t role' ∧ role' r = .free ∧
      Frame (· = r) s.mem role t.mem role' := by
  obtain ⟨u, ρ, heq, hedit, hnone⟩ := h.uvmfree_pages hr hsz fun va hva =>
    (hpre va (lt_39_of_lt_MAXVA (Nat.lt_of_lt_of_le hva hsz))).imp id fun hu => hu.2
  have hempty : ∀ va, va < 2 ^ 39 → leafPte u.mem 2 r va = none := by
    intro va hva39
    by_cases hva : va < PGROUNDUP sz
    · exact hnone va hva
    · rw [(hedit.same va hva39 hva).pte]
      exact (hpre va hva39).resolve_right fun hu => hva hu.1
  obtain ⟨t, role', hok, ht, hfree, hframe⟩ := hedit.vm.freewalk_spec hedit.top hempty
  exact ⟨t, role', heq.trans hok, ht, hfree, hedit.frame.trans hframe⟩

theorem Vm.uvmfree_halts (h : Vm L s role) (hr : role r = .top 2) (hsz : PGROUNDUP sz ≤ MAXVA)
    (hpre : ∀ va, va < PGROUNDUP sz → leafPte s.mem 2 r va = none ∨ UserLeaf s.mem role 2 r va)
    (hrest : ∀ va e, va < 2 ^ 39 → ¬va < PGROUNDUP sz → leafPte s.mem 2 r va = some e → ¬innerPte e)
    (h39 : va < 2 ^ 39) (hva : ¬va < PGROUNDUP sz) (hpte : leafPte s.mem 2 r va = some e) :
    uvmfree L r sz s = .error .freewalkLeaf := by
  obtain ⟨u, ρ, heq, hedit, hnone⟩ := h.uvmfree_pages hr hsz hpre
  rw [heq]
  refine hedit.vm.freewalk_halts hedit.top (fun va' e' hpte' => ?_)
    ((hedit.same va h39 hva).pte.trans hpte)
  have hlt : va' % 2 ^ 39 < 2 ^ 39 := Nat.mod_lt _ (by omega)
  rw [leafPte_mod] at hpte'
  by_cases hva' : va' % 2 ^ 39 < PGROUNDUP sz
  · rw [hnone _ hva'] at hpte'
    simp at hpte'
  · rw [(hedit.same _ hlt hva').pte] at hpte'
    exact hrest _ e' hlt hva' hpte'

end Xv6
