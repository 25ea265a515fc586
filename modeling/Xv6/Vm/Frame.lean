import Xv6.Vm.Tables
import Xv6.Kalloc.Theorems

namespace Xv6

open Lib Function

-- Physical memory in which every page has the one use that `role` gives.
structure Vm (L : Layout) (s : Phys) (role : Nat → Role) : Prop where
  alloc : ∃ free, AllocInv L s free fun a => if role a = .free then 0 else 1
  page : ∀ a, role a ≠ .free → role a ≠ .other → IsPage L a
  wired : Wired s.mem role

-- The page that is mapped at va is a user page of the page table x.
def UserLeaf (m : Mem) (role : Nat → Role) (l x va : Nat) : Prop :=
  ∃ c i, lookup m va l x = some (c, i) ∧ hasFlag (m c i) PTE_V ∧ role (PTE2PA (m c i)) = .leaf c i

-- At va the page table x maps what it did; a user page is still one, with its contents.
structure Same (m : Mem) (role : Nat → Role) (m' : Mem) (role' : Nat → Role) (l x va : Nat) :
    Prop where
  pte : leafPte m' l x va = leafPte m l x va
  user : UserLeaf m role l x va → UserLeaf m' role' l x va
  data : UserLeaf m role l x va → ∀ e, leafPte m l x va = some e → m' (PTE2PA e) = m (PTE2PA e)

-- What a function leaves alone, outside the pages in X: pages that somebody
-- refers to keep their use and their contents, and page tables what they map.
-- The contents of the shared page are the users' own.
structure Frame (X : Nat → Prop) (m : Mem) (role : Nat → Role) (m' : Mem) (role' : Nat → Role) :
    Prop where
  role_eq : ∀ x, ¬X x → (role x).pinned = true ∨ (role' x).pinned = true → role' x = role x
  mem_eq : ∀ x, ¬X x → (role x).pinned = true → (role x).level = none → role x ≠ .shared →
    m' x = m x
  same : ∀ x l va, ¬X x → role x = .top l → Same m role m' role' l x va

variable {L : Layout} {s t : Phys} {m m' m'' : Mem} {role role' role'' : Nat → Role}
  {X Y : Nat → Prop}

theorem Same.refl (m : Mem) (role : Nat → Role) (l x va : Nat) : Same m role m role l x va :=
  ⟨rfl, id, fun _ _ _ => rfl⟩

theorem Same.trans (h : Same m role m' role' l x va) (h' : Same m' role' m'' role'' l x va) :
    Same m role m'' role'' l x va where
  pte := h'.pte.trans h.pte
  user := fun hu => h'.user (h.user hu)
  data := fun hu e he => (h'.data (h.user hu) e (h.pte.trans he)).trans (h.data hu e he)

theorem UserLeaf.owner (h : UserLeaf m role l x va) (he : leafPte m l x va = some e) :
    ∃ c i, lookup m va l x = some (c, i) ∧ role (PTE2PA e) = .leaf c i := by
  obtain ⟨c, i, hl, hv, hrole⟩ := h
  rw [leafPte_of_lookup hl hv, Option.some.injEq] at he
  exact ⟨c, i, hl, he ▸ hrole⟩

theorem UserLeaf.exists_pte (h : UserLeaf m role l x va) : ∃ e, leafPte m l x va = some e := by
  obtain ⟨c, i, hl, hv, -⟩ := h
  exact ⟨m c i, leafPte_of_lookup hl hv⟩

theorem Same.of_lookup (hpte : leafPte m' l x va = leafPte m l x va)
    (huser : ∀ c i, lookup m va l x = some (c, i) → hasFlag (m c i) PTE_V →
      role (PTE2PA (m c i)) = .leaf c i →
      lookup m' va l x = some (c, i) ∧ m' c i = m c i ∧ role' (PTE2PA (m c i)) = .leaf c i ∧
        m' (PTE2PA (m c i)) = m (PTE2PA (m c i))) : Same m role m' role' l x va where
  pte := hpte
  user := by
    intro ⟨c, i, hl, hv, hr⟩
    obtain ⟨hl', hm, hr', -⟩ := huser c i hl hv hr
    exact ⟨c, i, hl', by rwa [hm], by rwa [hm]⟩
  data := by
    intro ⟨c, i, hl, hv, hr⟩ e he
    obtain ⟨-, -, -, hd⟩ := huser c i hl hv hr
    rw [leafPte_of_lookup hl hv] at he
    rw [← Option.some.inj he]
    exact hd

theorem Role.pinned_top : (Role.top l).pinned = true := rfl

theorem Frame.refl (X : Nat → Prop) (m : Mem) (role : Nat → Role) : Frame X m role m role where
  role_eq := fun _ _ _ => rfl
  mem_eq := fun _ _ _ _ _ => rfl
  same := fun _ _ _ _ _ => .refl ..

theorem Frame.top (h : Frame X m role m' role') (hx : ¬X x) (ht : role x = .top l) :
    role' x = .top l := by
  rw [h.role_eq x hx (.inl (by rw [ht, Role.pinned_top])), ht]

theorem Frame.mono (h : Frame X m role m' role') (hle : ∀ x, X x → Y x) :
    Frame Y m role m' role' where
  role_eq := fun x hx => h.role_eq x fun hX => hx (hle x hX)
  mem_eq := fun x hx => h.mem_eq x fun hX => hx (hle x hX)
  same := fun x l va hx => h.same x l va fun hX => hx (hle x hX)

theorem Frame.trans (h : Frame X m role m' role') (h' : Frame X m' role' m'' role'') :
    Frame X m role m'' role'' where
  role_eq := by
    intro x hx hp
    have hp' : (role' x).pinned = true := by
      rcases hp with hp | hp
      · rw [h.role_eq x hx (.inl hp)]
        exact hp
      · rw [← h'.role_eq x hx (.inr hp)]
        exact hp
    rw [h'.role_eq x hx (.inl hp'), h.role_eq x hx (.inr hp')]
  mem_eq := by
    intro x hx hp hl hs
    have hr := h.role_eq x hx (.inl hp)
    rw [h'.mem_eq x hx (hr ▸ hp) (hr ▸ hl) (hr ▸ hs), h.mem_eq x hx hp hl hs]
  same := fun x l va hx ht => (h.same x l va hx ht).trans (h'.same x l va hx (h.top hx ht))

theorem Frame.shrink (h : Frame X m role m' role')
    (hdrop : ∀ x, X x → ¬Y x → ((role x).pinned = false ∧ (role' x).pinned = false) ∨
      (role' x = role x ∧ m' x = m x ∧ (role x).level = none)) : Frame Y m role m' role' where
  role_eq := by
    intro x hx hp
    by_cases hX : X x
    · rcases hdrop x hX hx with ⟨h1, h2⟩ | ⟨heq, -, -⟩
      · simp [h1, h2] at hp
      · exact heq
    · exact h.role_eq x hX hp
  mem_eq := by
    intro x hx hp hl hs
    by_cases hX : X x
    · rcases hdrop x hX hx with ⟨h1, -⟩ | ⟨-, heq, -⟩
      · simp [h1] at hp
      · exact heq
    · exact h.mem_eq x hX hp hl hs
  same := by
    intro x l va hx ht
    have hX : ¬X x := by
      intro hX
      rcases hdrop x hX hx with ⟨h1, -⟩ | ⟨-, -, hl⟩
      · simp [ht, Role.pinned] at h1
      · simp [ht] at hl
    exact h.same x l va hX ht

theorem Wired.frame_loose (hw : Wired m role) (ha : (role a).loose = true)
    (hm : ∀ x, x ≠ a → m' x = m x) (hrole : ∀ x, x ≠ a → role' x = role x) :
    Frame (· = a) m role m' role' := by
  have hlevel : ∀ b, (role b).level ≠ none → m' b = m b := by
    intro b hb
    apply hm
    intro hba
    exact hb (by rw [hba, Role.level_of_loose ha])
  refine ⟨fun x hx _ => hrole x hx, fun x hx _ _ _ => hm x hx, fun x l va _ ht => ?_⟩
  have htop : (role x).level = some l := by rw [ht, Role.level_top]
  apply Same.of_lookup (hw.leafPte_congr hlevel htop)
  intro c i hl _ hr
  have hc := hw.lookup_level htop hl
  have hne : PTE2PA (m c i) ≠ a := by
    intro heq
    rw [← heq, hr] at ha
    simp [Role.loose] at ha
  rw [hw.lookup_congr hlevel htop, hlevel c (by simp [hc]), hrole _ hne, hm _ hne]
  exact ⟨hl, rfl, hr, rfl⟩

theorem lookup_setEntry_of_some (hfree : ¬hasFlag (m b i) PTE_V)
    (hl : lookup m va l x = some loc) : lookup (setEntry m b i e) va l x = some loc := by
  induction l generalizing x with
  | zero => exact hl
  | succ l ih =>
    simp only [lookup] at hl ⊢
    split_ifs at hl with hv
    have heq : setEntry m b i e x (PX (l + 1) va) = m x (PX (l + 1) va) := by
      rw [setEntry_apply, if_neg]
      intro hxi
      exact hfree (hxi.1 ▸ hxi.2 ▸ hv)
    rw [heq, if_pos hv]
    exact ih hl

theorem Wired.frame_link (hw : Wired m role) (ha : (role a).loose = true)
    (hempty : ∀ j, ¬hasFlag (m a j) PTE_V) (hb : (role b).level = some (l + 1))
    (hfree : ¬hasFlag (m b i) PTE_V) (he : PTE2PA e = a) :
    Frame (· = a) m role (setEntry m b i e) (update role a (.table l b i)) := by
  refine ⟨fun x hx _ => update_of_ne hx _ _, fun x _ _ hl _ => ?_, fun x k va _ ht => ?_⟩
  · apply setEntry_of_ne
    intro hxb
    simp [hxb, hb] at hl
  have htop : (role x).level = some k := by rw [ht, Role.level_top]
  apply Same.of_lookup (hw.leafPte_link ha hempty hb hfree he htop)
  intro c j hl _ hr
  have hc := hw.lookup_level htop hl
  have hcb : c ≠ b := by
    intro hcb
    simp [hcb, hb] at hc
  have hna : PTE2PA (m c j) ≠ a := by
    intro heq
    rw [← heq, hr] at ha
    simp [Role.loose] at ha
  have hnb : PTE2PA (m c j) ≠ b := by
    intro heq
    rw [heq] at hr
    simp [hr] at hb
  rw [setEntry_of_ne hcb, setEntry_of_ne hnb, update_of_ne hna]
  exact ⟨lookup_setEntry_of_some hfree hl, rfl, hr, rfl⟩

section Entry

variable {a b : Nat} {i : Fin 512} {w : Pte}

theorem tables_store (ha : (role a).loose = true ∨ role a = .leaf b i)
    (hm : ∀ x, x ≠ a → m' x = setEntry m b i w x) (c : Nat) (hc : (role c).level ≠ none) :
    m' c = setEntry m b i w c := by
  apply hm
  intro hca
  rcases ha with ha | ha
  · exact hc (by rw [hca, Role.level_of_loose ha])
  · exact hc (by rw [hca, ha, Role.level_leaf])

-- A store to a leaf entry, with a change of the page a that the entry refers to
-- or referred to. Everything that is mapped through other entries stays.
theorem Wired.same_entry (hw : Wired m role) (hb : (role b).level = some 0)
    (ha : (role a).loose = true ∨ role a = .leaf b i)
    (hm : ∀ x, x ≠ a → m' x = setEntry m b i w x) (hrole : ∀ x, x ≠ a → role' x = role x)
    (hx : (role x).level = some l) (hother : lookup m va l x ≠ some (b, i)) :
    Same m role m' role' l x va := by
  have hlevel := tables_store ha hm
  have hlook : lookup m' va l x = lookup m va l x := hw.lookup_store hb hlevel hx
  have hentry : ∀ c j, lookup m va l x = some (c, j) → m' c j = m c j := by
    intro c j hl
    have hc := hw.lookup_level hx hl
    rw [hlevel c (by simp [hc]), setEntry_apply, if_neg]
    intro hcj
    exact hother (hcj.1 ▸ hcj.2 ▸ hl)
  apply Same.of_lookup
  · unfold leafPte
    rw [hlook]
    cases hl : lookup m va l x with
    | none => rfl
    | some loc =>
      obtain ⟨c, j⟩ := loc
      simp only [hentry c j hl]
  · intro c j hl _ hleaf
    have hpa : PTE2PA (m c j) ≠ a := by
      intro heq
      rw [heq] at hleaf
      rcases ha with ha | ha
      · simp [hleaf, Role.loose] at ha
      · rw [ha] at hleaf
        simp only [Role.leaf.injEq] at hleaf
        exact hother (hleaf.1 ▸ hleaf.2 ▸ hl)
    have hpb : PTE2PA (m c j) ≠ b := by
      intro heq
      rw [heq] at hleaf
      simp [hleaf] at hb
    rw [hlook, hentry c j hl, hrole _ hpa, hm _ hpa, setEntry_of_ne hpb]
    exact ⟨hl, rfl, hleaf, rfl⟩

theorem Wired.frame_entry (hw : Wired m role) (m' : Nat → Fin 512 → BitVec 64) (hr : role r = .top l)
    (hloc : lookup m va l r = some (b, i)) (ha : (role a).loose = true ∨ role a = .leaf b i)
    (hm : ∀ x, x ≠ a → m' x = setEntry m b i w x) (hrole : ∀ x, x ≠ a → role' x = role x) :
    Frame (fun x => x = r ∨ x = a) m role m' role' := by
  have hb : (role b).level = some 0 := hw.lookup_level (by rw [hr, Role.level_top]) hloc
  refine ⟨fun x hx _ => hrole x (not_or.mp hx).2, fun x hx _ hl _ => ?_, fun x k va' hx ht => ?_⟩
  · rw [hm x (not_or.mp hx).2]
    apply setEntry_of_ne
    intro hxb
    simp [hxb, hb] at hl
  · refine hw.same_entry hb ha hm hrole (by rw [ht, Role.level_top]) ?_
    intro hl
    exact (not_or.mp hx).1 (hw.lookup_inj ht hr hl hloc).2.1

end Entry

theorem Vm.alloc_of (h : Vm L s role) (hf : t.freelist = s.freelist)
    (hr : t.refcount = s.refcount) (hfree : ∀ a, role' a = .free ↔ role a = .free)
    (hm : ∀ a, role a = .free → t.mem a = s.mem a) :
    ∃ free, AllocInv L t free fun a => if role' a = .free then 0 else 1 := by
  obtain ⟨free, hinv⟩ := h.alloc
  refine ⟨free, (hinv.frame hf hr ?_).congrRefs ?_⟩
  · intro a ha
    have hzero := (hinv.mem_free a (hinv.page a ha)).mp ha
    by_cases hra : role a = .free
    · exact hm a hra
    · simp [hra] at hzero
  · intro a _
    simp only [hfree]

theorem Vm.page_of (h : Vm L s role) (hsame : ∀ x, x ≠ a → role' x = role x)
    (hp : role' a ≠ .free → role' a ≠ .other → IsPage L a) :
    ∀ x, role' x ≠ .free → role' x ≠ .other → IsPage L x := by
  intro x h1 h2
  by_cases hxa : x = a
  · exact hxa ▸ hp (hxa ▸ h1) (hxa ▸ h2)
  · rw [hsame x hxa] at h1 h2
    exact h.page x h1 h2

theorem free_iff_update (hne : role a ≠ .free) (hρ : ρ ≠ .free) (x : Nat) :
    update role a ρ x = .free ↔ role x = .free := by
  by_cases hxa : x = a
  · subst hxa
    simp [hne, hρ]
  · rw [update_of_ne hxa]

theorem Vm.write (h : Vm L s role) (hf : t.freelist = s.freelist) (hr : t.refcount = s.refcount)
    (hm : ∀ a, role a = .free ∨ (role a).level ≠ none → t.mem a = s.mem a) : Vm L t role where
  alloc := h.alloc_of hf hr (fun _ => Iff.rfl) fun a ha => hm a (.inl ha)
  page := h.page
  wired := h.wired.congr fun b hb => hm b (.inr hb)

theorem Vm.relabel (h : Vm L s role) (ha : (role a).loose = true) (hρ : ρ.loose = true)
    (hne : role a ≠ .free) (hne' : ρ ≠ .free) (hp : IsPage L a) :
    Vm L s (update role a ρ) where
  alloc := h.alloc_of rfl rfl (free_iff_update hne hne') fun _ _ => rfl
  page := h.page_of (fun _ hx => update_of_ne hx _ _) fun _ _ => hp
  wired := h.wired.relabel ha hρ

theorem Vm.kalloc_spec (h : Vm L s role) :
    (kalloc s = .ok (0, s) ∧ ∀ a, IsPage L a → role a ≠ .free) ∨
    ∃ a t, kalloc s = .ok (a, t) ∧ a ≠ 0 ∧ role a = .free ∧ IsPage L a ∧
      Vm L t (update role a .held) ∧ (∀ x, x ≠ a → t.mem x = s.mem x) ∧
      Frame (· = a) s.mem role t.mem (update role a .held) := by
  obtain ⟨free, hinv⟩ := h.alloc
  cases free with
  | nil =>
    refine .inl ⟨kalloc_empty hinv, ?_⟩
    intro a ha hfree
    simpa [hfree] using hinv.mem_free a ha
  | cons a rest =>
    obtain ⟨t, hk, hinv', hmem⟩ := kalloc_cons hinv
    have hp := hinv.page a (by simp)
    have hfree : role a = .free := by
      have hzero := (hinv.mem_free a hp).mp (by simp)
      by_contra hne
      simp [hne] at hzero
    have hm : ∀ x, x ≠ a → t.mem x = s.mem x := by
      intro x hx
      rw [hmem, update_of_ne hx]
    have hloose : (role a).loose = true := by rw [hfree]; rfl
    refine .inr ⟨a, t, hk, Nat.ne_of_gt hp.pos, hfree, hp, ⟨⟨rest, hinv'.congrRefs ?_⟩, ?_, ?_⟩, hm,
      h.wired.frame_loose hloose hm fun x hx => update_of_ne hx _ _⟩
    · intro x _
      by_cases hxa : x = a
      · subst hxa
        simp
      · simp [hxa]
    · exact h.page_of (fun _ hx => update_of_ne hx _ _) fun _ _ => hp
    · refine (h.wired.relabel hloose rfl).congr ?_
      intro b hb
      apply hm
      intro hba
      simp [hba, Role.level] at hb

theorem Vm.kfree_spec (h : Vm L s role) (ha : (role a).loose = true) (hne : role a ≠ .free) (hp : IsPage L a) :
    ∃ t, kfree L a s = .ok t ∧ Vm L t (update role a .free) ∧
      (∀ x, x ≠ a → t.mem x = s.mem x) ∧
      Frame (· = a) s.mem role t.mem (update role a .free) := by
  obtain ⟨free, hinv⟩ := h.alloc
  obtain ⟨t, hk, hinv', hm⟩ := kfree_last hinv hp (by simp [hne])
  refine ⟨t, hk, ⟨⟨a :: free, hinv'.congrRefs ?_⟩, ?_, ?_⟩, hm,
    h.wired.frame_loose ha hm fun x hx => update_of_ne hx _ _⟩
  · intro x _
    by_cases hxa : x = a
    · subst hxa
      simp
    · simp [hxa]
  · exact h.page_of (fun _ hx => update_of_ne hx _ _) fun h1 _ => absurd (by simp) h1
  · refine (h.wired.relabel ha rfl).congr ?_
    intro b hb
    apply hm
    intro hba
    simp [hba, Role.level] at hb

end Xv6
