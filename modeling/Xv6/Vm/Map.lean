import Xv6.Vm.Frame

namespace Xv6

open Lib Function

variable {L : Layout} {s t : Phys} {role role' : Nat → Role}

theorem walkFrom_false (va l b : Nat) (s : Phys) :
    walkFrom va false l b s = .ok (lookup s.mem va l b, s) := by
  induction l generalizing b with
  | zero => rfl
  | succ l ih =>
    by_cases hv : hasFlag (s.mem b (PX (l + 1) va)) PTE_V
    · simp only [walkFrom, lookup, if_pos hv]
      exact ih _
    · simp only [walkFrom, lookup, if_neg hv, Bool.false_eq_true, if_false]

theorem walk_false (h : va < MAXVA) (r : Nat) (s : Phys) :
    walk r va false s = .ok (lookup s.mem va 2 r, s) := by
  rw [walk, if_neg (by omega), walkFrom_false]

theorem walkFrom_of_lookup (h : lookup s.mem va l b = some loc) :
    walkFrom va alloc l b s = .ok (some loc, s) := by
  induction l generalizing b with
  | zero =>
    rw [← h]
    rfl
  | succ l ih =>
    simp only [lookup] at h
    split_ifs at h with hv
    simp only [walkFrom, if_pos hv]
    exact ih h

theorem IsPage.lt_pow (h : IsPage L a) : a < 2 ^ 56 := by
  have := h.2.2
  simp only [PHYSTOP_eq] at this
  omega

theorem memset_zero_empty (s : Phys) (a : Nat) (j : Fin 512) :
    ¬hasFlag ((s.memset a 0).mem a j) PTE_V := by
  simp [Phys.memset, memsetWord]

theorem Vm.link (h : Vm L s role) (ha : role a = .held) (hb : (role b).level = some (l + 1))
    (hfree : ¬hasFlag (s.mem b i) PTE_V) :
    Vm L ((s.memset a 0).store b i (PA2PTE a ||| PTE_V)) (update role a (.table l b i)) ∧
    Frame (· = a) s.mem role ((s.memset a 0).store b i (PA2PTE a ||| PTE_V)).mem
      (update role a (.table l b i)) := by
  have hp : IsPage L a := h.page a (by simp [ha]) (by simp [ha])
  have hloose : (role a).loose = true := by rw [ha]; rfl
  have hba : b ≠ a := by
    intro hba
    simp [hba, ha, Role.level] at hb
  have hm : ∀ x, x ≠ a → (s.memset a 0).mem x = s.mem x := by
    intro x hx
    simp [Phys.memset, hx]
  have hzero : Vm L (s.memset a 0) role := by
    apply h.write (t := s.memset a 0) rfl rfl
    intro x hx
    apply hm
    intro hxa
    simp [hxa, ha, Role.level] at hx
  have hfree' : ¬hasFlag ((s.memset a 0).mem b i) PTE_V := by rwa [hm b hba]
  have he := PTE2PA_table hp.lt_pow hp.1
  have hframe := hzero.wired.frame_link hloose (memset_zero_empty s a) hb hfree' he
  refine ⟨⟨?_, ?_, ?_⟩, (h.wired.frame_loose hloose hm fun _ _ => rfl).trans hframe⟩
  · refine hzero.alloc_of rfl rfl (free_iff_update (by simp [ha]) (by simp)) ?_
    intro x hx
    apply setEntry_of_ne
    intro hxb
    simp [← hxb, hx, Role.level] at hb
  · exact hzero.page_of (fun _ hx => update_of_ne hx _ _) fun _ _ => hp
  · exact hzero.wired.link hloose (memset_zero_empty s a) hb hfree'
      ⟨has_V_table a, inner_table a, he⟩

-- walk() with alloc: page tables may grow, but nothing that is in use changes.
structure Walked (L : Layout) (s : Phys) (role : Nat → Role) (t : Phys) (role' : Nat → Role) :
    Prop where
  vm : Vm L t role'
  frame : Frame (fun _ => False) s.mem role t.mem role'
  role_eq : ∀ x, role x ≠ .free → role' x = role x

theorem Walked.refl (h : Vm L s role) : Walked L s role s role := ⟨h, .refl .., fun _ _ => rfl⟩

theorem Vm.walkFrom_spec (h : Vm L s role) (hb : (role b).level = some l) :
    ∃ res t role', walkFrom va true l b s = .ok (res, t) ∧ Walked L s role t role' ∧
      (∀ loc, res = some loc → lookup t.mem va l b = some loc) ∧
      (res = none → ∀ a, IsPage L a → role' a ≠ .free) := by
  induction l generalizing b s role with
  | zero =>
    refine ⟨_, s, role, rfl, .refl h, ?_, by simp⟩
    intro loc hloc
    exact hloc
  | succ l ih =>
    -- once the entry points to a page-table page of the walk, it stays that way
    have hstep : ∀ (u : Phys) (ρ : Nat → Role) c t role' res, Walked L s role u ρ →
        ρ c = .table l b (PX (l + 1) va) → Walked L u ρ t role' →
        (∀ loc, res = some loc → lookup t.mem va l c = some loc) →
        Walked L s role t role' ∧
        ∀ loc, res = some loc → lookup t.mem va (l + 1) b = some loc := by
      intro u ρ c t role' res hwu hc hwt hres
      refine ⟨⟨hwt.vm, hwu.frame.trans hwt.frame, fun x hx => ?_⟩, ?_⟩
      · rw [hwt.role_eq x (by rw [hwu.role_eq x hx]; exact hx), hwu.role_eq x hx]
      · intro loc hloc
        have hc' : role' c = .table l b (PX (l + 1) va) := by
          rw [hwt.role_eq c (by simp [hc]), hc]
        obtain ⟨-, hv, hpa⟩ := hwt.vm.wired.up c l b _ hc'
        rw [lookup, if_pos hv, hpa]
        exact hres loc hloc
    by_cases hv : hasFlag (s.mem b (PX (l + 1) va)) PTE_V
    · have hchild := (h.wired.down b _ l hb hv).1
      obtain ⟨res, t, role', hok, hwalk, hres, hnone⟩ := ih h (by rw [hchild, Role.level_table])
      obtain ⟨hwalk', hres'⟩ := hstep s role _ t role' res (.refl h) hchild hwalk hres
      refine ⟨res, t, role', ?_, hwalk', hres', hnone⟩
      simp only [walkFrom, if_pos hv]
      exact hok
    · rcases h.kalloc_spec with ⟨hk, hfull⟩ | ⟨a, u, hk, ha0, hafree, hp, hu, hmu, hframe⟩
      · refine ⟨none, s, role, ?_, .refl h, by simp, fun _ => hfull⟩
        simp only [walkFrom, if_neg hv, if_true, hk, ok_bind, pure_eq_ok]
      · have hba : b ≠ a := by
          intro hba
          simp [hba, hafree, Role.level] at hb
        have hlink := hu.link (a := a) (b := b) (l := l) (i := PX (l + 1) va) (by simp)
          (by rwa [update_of_ne hba]) (by rwa [hmu b hba])
        rw [update_idem] at hlink
        obtain ⟨hvm, hframe'⟩ := hlink
        have hwu : Walked L s role
            ((u.memset a 0).store b (PX (l + 1) va) (PA2PTE a ||| PTE_V))
            (update role a (.table l b (PX (l + 1) va))) := by
          refine ⟨hvm, (hframe.trans hframe').shrink ?_, fun x hx => ?_⟩
          · intro x hx _
            left
            simp [hx, hafree, Role.pinned]
          · apply update_of_ne
            intro hxa
            exact hx (hxa ▸ hafree)
        obtain ⟨res, t, role', hok, hwalk, hres, hnone⟩ := ih (b := a) hvm (by simp)
        obtain ⟨hwalk', hres'⟩ := hstep _ _ a t role' res hwu (by simp) hwalk hres
        refine ⟨res, t, role', ?_, hwalk', hres', hnone⟩
        simp only [walkFrom, if_neg hv, if_true, hk, ok_bind, if_neg ha0]
        exact hok

theorem Vm.walk_spec (h : Vm L s role) (hr : role r = .top 2) (hva : va < MAXVA) :
    ∃ res t role', walk r va true s = .ok (res, t) ∧ Walked L s role t role' ∧
      (∀ loc, res = some loc → lookup t.mem va 2 r = some loc) ∧
      (res = none → ∀ a, IsPage L a → role' a ≠ .free) := by
  rw [walk, if_neg (by omega)]
  exact h.walkFrom_spec (by rw [hr, Role.level_top])

theorem Wired.lookup_eq_iff (hw : Wired m role) (hr : role r = .top 2)
    (hloc : lookup m va 2 r = some (b, i)) (hva : va < 2 ^ 39) (hva' : va' < 2 ^ 39) :
    lookup m va' 2 r = some (b, i) ↔ va' / PGSIZE = va / PGSIZE := by
  rw [← px_eq_iff hva' hva]
  constructor
  · intro h
    exact (hw.lookup_inj hr hr h hloc).2.2
  · intro h
    rw [lookup_congr_px h]
    exact hloc

-- The address space of r after a change of the entry for va.
structure Remap (m : Mem) (role : Nat → Role) (m' : Mem) (role' : Nat → Role) (r va : Nat)
    (e : Option Pte) : Prop where
  pte : ∀ va', va' < 2 ^ 39 →
    leafPte m' 2 r va' = if va' / PGSIZE = va / PGSIZE then e else leafPte m 2 r va'
  same : ∀ va', va' < 2 ^ 39 → va' / PGSIZE ≠ va / PGSIZE → Same m role m' role' 2 r va'

theorem Wired.remap (hw : Wired m role) (m' : Nat → Fin 512 → BitVec 64) (hr : role r = .top 2)
    (hloc : lookup m va 2 r = some (b, i)) (hva : va < 2 ^ 39) (ha : (role a).loose = true ∨ role a = .leaf b i)
    (hm : ∀ x, x ≠ a → m' x = setEntry m b i w x) (hrole : ∀ x, x ≠ a → role' x = role x) :
    Remap m role m' role' r va (if hasFlag w PTE_V then some w else none) := by
  have htop : (role r).level = some 2 := by rw [hr, Role.level_top]
  have hb : (role b).level = some 0 := hw.lookup_level htop hloc
  have hsame : ∀ va', va' < 2 ^ 39 → va' / PGSIZE ≠ va / PGSIZE →
      Same m role m' role' 2 r va' := by
    intro va' hva' hne
    refine hw.same_entry hb ha hm hrole htop ?_
    rw [ne_eq, hw.lookup_eq_iff hr hloc hva hva']
    exact hne
  refine ⟨fun va' hva' => ?_, hsame⟩
  by_cases heq : va' / PGSIZE = va / PGSIZE
  · have hl := (hw.lookup_eq_iff hr hloc hva hva').mpr heq
    have hentry : m' b i = w := by
      rw [tables_store ha hm b (by simp [hb]), setEntry_apply, if_pos ⟨rfl, rfl⟩]
    rw [if_pos heq, leafPte, hw.lookup_store hb (tables_store ha hm) htop, hl]
    simp only [hentry]
  · rw [if_neg heq]
    exact (hsame va' hva' heq).pte

theorem Vm.store_alloc (h : Vm L s role) (hb : (role b).level ≠ none)
    (hfree : ∀ a, role' a = .free ↔ role a = .free) (i : Fin 512) (w : Pte) :
    ∃ free, AllocInv L (s.store b i w) free fun a => if role' a = .free then 0 else 1 := by
  refine h.alloc_of rfl rfl hfree ?_
  intro a ha
  apply setEntry_of_ne
  intro hab
  simp [← hab, ha, Role.level] at hb

theorem mappages_page (hal : va % PGSIZE = 0) (r pa : Nat) (perm : Pte) (s : Phys) :
    mappages r va PGSIZE pa perm s = mappagesLoop r perm 1 va pa s := by
  have hsize : PGSIZE / PGSIZE = 1 := rfl
  have hzero : PGSIZE % PGSIZE = 0 := rfl
  have hpos : PGSIZE ≠ 0 := by simp [PGSIZE_eq]
  simp only [mappages, hal, hzero, hpos, hsize, ne_eq, not_true_eq_false, if_false]

theorem mappages_of_none (hal : va % PGSIZE = 0) (h : walk r va true s = .ok (none, t)) :
    mappages r va PGSIZE pa perm s = .ok (-1, t) := by
  simp only [mappages_page hal, mappagesLoop, h, ok_bind, pure_eq_ok]

theorem mappages_of_some (hal : va % PGSIZE = 0) (h : walk r va true s = .ok (some (b, i), t)) :
    mappages r va PGSIZE pa perm s =
      if hasFlag (t.mem b i) PTE_V then .error .mappagesRemap
      else .ok (0, t.store b i (PA2PTE pa ||| perm ||| PTE_V)) := by
  simp only [mappages_page hal, mappagesLoop, h, ok_bind]

theorem mappages_remap (hal : va % PGSIZE = 0) (hva : va < MAXVA)
    (hmapped : leafPte s.mem 2 r va = some e) (pa : Nat) (perm : Pte) :
    mappages r va PGSIZE pa perm s = .error .mappagesRemap := by
  obtain ⟨b, i, hl, hv, -⟩ := leafPte_eq_some.mp hmapped
  have hwalk : walk r va true s = .ok (some (b, i), s) := by
    rw [walk, if_neg (by omega), walkFrom_of_lookup hl]
  rw [mappages_of_some hal hwalk, if_pos hv]

theorem mappages_high (hal : va % PGSIZE = 0) (hva : MAXVA ≤ va) (r pa : Nat) (perm : Pte)
    (s : Phys) : mappages r va PGSIZE pa perm s = .error .walk := by
  rw [mappages_page hal, mappagesLoop, walk, if_pos hva, error_bind]

theorem lt_39_of_lt_MAXVA (h : va < MAXVA) : va < 2 ^ 39 := by
  simp only [MAXVA_eq] at h
  omega

theorem Vm.walk_unmapped (h : Vm L s role) (hr : role r = .top 2) (hva : va < MAXVA)
    (hfree : leafPte s.mem 2 r va = none) :
    ∃ t role', Walked L s role t role' ∧ role' r = .top 2 ∧
      (walk r va true s = .ok (none, t) ∨
       ∃ b i, walk r va true s = .ok (some (b, i), t) ∧ lookup t.mem va 2 r = some (b, i) ∧
        (role' b).level = some 0 ∧ ¬hasFlag (t.mem b i) PTE_V) := by
  obtain ⟨res, t, role', hok, hwalk, hres, hnone⟩ := h.walk_spec hr hva
  have hr' : role' r = .top 2 := hwalk.frame.top not_false hr
  refine ⟨t, role', hwalk, hr', ?_⟩
  cases res with
  | none => exact .inl hok
  | some loc =>
    obtain ⟨b, i⟩ := loc
    have hloc := hres (b, i) rfl
    have hb := hwalk.vm.wired.lookup_level (by rw [hr', Role.level_top]) hloc
    refine .inr ⟨b, i, hok, hloc, hb, ?_⟩
    intro hv
    have hsame := (hwalk.frame.same r 2 va not_false hr).pte
    rw [leafPte_of_lookup hloc hv, hfree] at hsame
    simp at hsame

theorem Vm.mappages_spec (h : Vm L s role) (hr : role r = .top 2) (hva : va < MAXVA)
    (hal : va % PGSIZE = 0) (hfree : leafPte s.mem 2 r va = none) (hpa : role pa = .held) (hperm : IsFlags perm) :
    ∃ res t role', mappages r va PGSIZE pa perm s = .ok (res, t) ∧ Vm L t role' ∧
      role' r = .top 2 ∧ t.mem pa = s.mem pa ∧
      ((res = -1 ∧ role' pa = .held ∧ Frame (fun _ => False) s.mem role t.mem role') ∨
       (res = 0 ∧ (role' pa).pinned = false ∧
        Frame (fun x => x = r ∨ x = pa) s.mem role t.mem role' ∧ UserLeaf t.mem role' 2 r va ∧
        Remap s.mem role t.mem role' r va (some (PA2PTE pa ||| perm ||| PTE_V)))) := by
  obtain ⟨u, ρ, hwalk, hr', hres⟩ := h.walk_unmapped hr hva hfree
  have hp : IsPage L pa := h.page pa (by simp [hpa]) (by simp [hpa])
  have hpa' : ρ pa = .held := by rw [hwalk.role_eq pa (by simp [hpa]), hpa]
  have hmem : u.mem pa = s.mem pa :=
    hwalk.frame.mem_eq pa not_false (by rw [hpa]; rfl) (by rw [hpa]; rfl) (by simp [hpa])
  rcases hres with hnone | ⟨b, i, hok, hloc, hb, hinvalid⟩
  · exact ⟨-1, u, ρ, mappages_of_none hal hnone, hwalk.vm, hr', hmem,
      .inl ⟨rfl, hpa', hwalk.frame⟩⟩
  have htop : (ρ r).level = some 2 := by rw [hr', Role.level_top]
  have hbpa : b ≠ pa := by
    intro heq
    simp [heq, hpa', Role.level] at hb
  have hrpa : r ≠ pa := by
    intro heq
    simp [heq, hpa'] at hr'
  have hv := has_V_leaf pa perm
  have htarget := PTE2PA_leaf hp.lt_pow hp.1 hperm
  have hloose : (ρ pa).loose = true := by rw [hpa']; rfl
  have hmu : ∀ x, x ≠ pa → (u.store b i (PA2PTE pa ||| perm ||| PTE_V)).mem x =
      setEntry u.mem b i (PA2PTE pa ||| perm ||| PTE_V) x := fun _ _ => rfl
  have hupd : ∀ x, x ≠ pa → update ρ pa (.leaf b i) x = ρ x :=
    fun x hx => update_of_ne hx _ _
  have hframe := hwalk.vm.wired.frame_entry _ hr' hloc (.inl hloose) hmu hupd
  have hremap := hwalk.vm.wired.remap _ hr' hloc (lt_39_of_lt_MAXVA hva) (.inl hloose) hmu hupd
  rw [if_pos hv] at hremap
  refine ⟨0, u.store b i (PA2PTE pa ||| perm ||| PTE_V), update ρ pa (.leaf b i), ?_,
    ⟨?_, ?_, ?_⟩, ?_, ?_, .inr ⟨rfl, ?_, ?_, ?_, ?_, ?_⟩⟩
  · rw [mappages_of_some hal hok, if_neg hinvalid]
  · exact hwalk.vm.store_alloc (by simp [hb]) (free_iff_update (by simp [hpa']) (by simp)) _ _
  · exact hwalk.vm.page_of hupd fun _ _ => hp
  · exact hwalk.vm.wired.map hloose hb hinvalid hv htarget
  · rw [hupd r hrpa, hr']
  · rw [← hmem]
    exact setEntry_of_ne hbpa.symm _ _
  · simp [Role.pinned]
  · exact (hwalk.frame.mono fun _ hx => hx.elim).trans hframe
  · refine ⟨b, i, ?_, ?_, ?_⟩
    · rw [← hloc]
      exact hwalk.vm.wired.lookup_store hb (fun _ _ => rfl) htop
    · show hasFlag (setEntry u.mem b i _ b i) PTE_V
      rw [setEntry_apply, if_pos ⟨rfl, rfl⟩]
      exact hv
    · show update ρ pa (.leaf b i) (PTE2PA (setEntry u.mem b i _ b i)) = .leaf b i
      rw [setEntry_apply, if_pos ⟨rfl, rfl⟩, htarget, update_self]
  · intro va' hva'
    rw [hremap.pte va' hva', (hwalk.frame.same r 2 va' not_false hr).pte]
  · exact fun va' hva' hne =>
      (hwalk.frame.same r 2 va' not_false hr).trans (hremap.same va' hva' hne)

-- A change of the page table r at the addresses in P, and of nothing else that is in use.
structure Edit (L : Layout) (s : Phys) (role : Nat → Role) (t : Phys) (role' : Nat → Role)
    (r : Nat) (P : Nat → Prop) : Prop where
  vm : Vm L t role'
  top : role' r = .top 2
  frame : Frame (· = r) s.mem role t.mem role'
  same : ∀ va, va < 2 ^ 39 → ¬P va → Same s.mem role t.mem role' 2 r va

section Edit

variable {u : Phys} {P Q : Nat → Prop}

theorem Edit.refl (h : Vm L s role) (hr : role r = .top 2) (P : Nat → Prop) :
    Edit L s role s role r P :=
  ⟨h, hr, .refl .., fun _ _ _ => .refl ..⟩

theorem Edit.mono (h : Edit L s role t role' r P) (hle : ∀ va, P va → Q va) :
    Edit L s role t role' r Q :=
  ⟨h.vm, h.top, h.frame, fun va hva hq => h.same va hva fun hp => hq (hle va hp)⟩

theorem Edit.trans (h : Edit L s role t role' r P) (h' : Edit L t role' u role'' r P) :
    Edit L s role u role'' r P :=
  ⟨h'.vm, h'.top, h.frame.trans h'.frame,
    fun va hva hp => (h.same va hva hp).trans (h'.same va hva hp)⟩

theorem Walked.edit (h : Walked L s role t role') (hr : role r = .top 2) (P : Nat → Prop) :
    Edit L s role t role' r P :=
  ⟨h.vm, h.frame.top not_false hr, h.frame.mono fun _ hx => hx.elim,
    fun va _ _ => h.frame.same r 2 va not_false hr⟩

end Edit

def Fills (u : Phys) (a : Nat) (v : Phys) : Prop :=
  v.freelist = u.freelist ∧ v.refcount = u.refcount ∧ ∀ x, x ≠ a → v.mem x = u.mem x

theorem fills_memset (u : Phys) (a c : Nat) : Fills u a (u.memset a c) :=
  ⟨rfl, rfl, fun _ hx => by simp [Phys.memset, hx]⟩

theorem fills_copyPage (u : Phys) (a b : Nat) : Fills u a (u.copyPage a b) :=
  ⟨rfl, rfl, fun _ hx => by simp [Phys.copyPage, hx]⟩

theorem Vm.fill (h : Vm L u role) (ha : role a = .held) (hf : Fills u a v) :
    Vm L v role ∧ Frame (· = a) u.mem role v.mem role := by
  have hloose : (role a).loose = true := by rw [ha]; rfl
  refine ⟨h.write hf.1 hf.2.1 ?_, h.wired.frame_loose hloose hf.2.2 fun _ _ => rfl⟩
  intro x hx
  apply hf.2.2
  intro hxa
  simp [hxa, ha, Role.level] at hx

section

variable (h : Vm L s role) (hk : kalloc s = .ok (a, u)) (ha0 : a ≠ 0) (hfill : Fills u a v)
include h hk ha0 hfill

theorem Vm.kalloc_fill :
    role a = .free ∧ IsPage L a ∧ Vm L v (update role a .held) ∧
      (∀ x, x ≠ a → v.mem x = s.mem x) ∧
      Frame (· = a) s.mem role v.mem (update role a .held) := by
  rcases h.kalloc_spec with ⟨hfull, -⟩ | ⟨a', u', hk', -, hfree, hp, hu, hmu, hframe⟩
  · rw [hk] at hfull
    simp only [Except.ok.injEq, Prod.mk.injEq] at hfull
    exact absurd hfull.1 ha0
  · rw [hk] at hk'
    cases hk'
    obtain ⟨hv, hframe'⟩ := hu.fill (update_self ..) hfill
    exact ⟨hfree, hp, hv, fun x hx => (hfill.2.2 x hx).trans (hmu x hx), hframe.trans hframe'⟩

theorem Vm.allocPage_remap (hr : role r = .top 2) (hva : va < MAXVA) (hal : va % PGSIZE = 0)
    (hmapped : leafPte s.mem 2 r va ≠ none) (perm : Pte) : mappages r va PGSIZE a perm v = .error .mappagesRemap := by
  obtain ⟨e, he⟩ := Option.ne_none_iff_exists'.mp hmapped
  obtain ⟨hfree, -, -, -, hframe⟩ := h.kalloc_fill hk ha0 hfill
  have hra : r ≠ a := by
    intro hra
    simp [hra, hfree] at hr
  apply mappages_remap (e := e) hal hva
  rw [(hframe.same r 2 va hra hr).pte, he]

-- The way in which vm.c gives a page table a new user page: kalloc(), fill the
-- page, mappages(), and kfree() if there was no memory for the page tables.
theorem Vm.allocPage (hr : role r = .top 2) (hva : va < MAXVA) (hal : va % PGSIZE = 0)
    (hfree : leafPte s.mem 2 r va = none) (hperm : IsFlags perm) :
    (∃ t w role', mappages r va PGSIZE a perm v = .ok (-1, t) ∧ kfree L a t = .ok w ∧
      Edit L s role w role' r fun _ => False) ∨
    ∃ t role', mappages r va PGSIZE a perm v = .ok (0, t) ∧ t.mem a = v.mem a ∧
      Edit L s role t role' r (fun va' => va' / PGSIZE = va / PGSIZE) ∧
      UserLeaf t.mem role' 2 r va ∧ ∀ va', va' < 2 ^ 39 → va' / PGSIZE = va / PGSIZE →
        leafPte t.mem 2 r va' = some (PA2PTE a ||| perm ||| PTE_V) := by
  obtain ⟨hafree, hp, hv, -, hframe⟩ := h.kalloc_fill hk ha0 hfill
  have hra : r ≠ a := by
    intro hra
    simp [hra, hafree] at hr
  have hrv : update role a .held r = .top 2 := by rw [update_of_ne hra, hr]
  have hsame : ∀ va', Same s.mem role v.mem (update role a .held) 2 r va' :=
    fun va' => hframe.same r 2 va' hra hr
  have hfree' : leafPte v.mem 2 r va = none := by rw [(hsame va).pte, hfree]
  obtain ⟨res, t, ρ, hok, hvm, htop, hmem, hres⟩ :=
    hv.mappages_spec hrv hva hal hfree' (update_self ..) hperm
  rcases hres with ⟨rfl, hheld', hf⟩ | ⟨rfl, hpin, hf, huser, hremap⟩
  · left
    obtain ⟨w, hkf, hvm', hmw, hframe3⟩ :=
      hvm.kfree_spec (by rw [hheld']; rfl) (by simp [hheld']) hp
    have htotal : Frame (· = a) s.mem role w.mem (update ρ a .free) :=
      (hframe.trans (hf.mono fun _ hx => hx.elim)).trans hframe3
    have hall : Frame (fun _ => False) s.mem role w.mem (update ρ a .free) := by
      apply htotal.shrink
      intro x hx _
      left
      simp [hx, hafree, Role.pinned]
    exact ⟨t, w, _, hok, hkf, hvm', by rw [update_of_ne hra, htop],
      hall.mono fun _ hx => hx.elim, fun va' _ _ => hall.same r 2 va' not_false hr⟩
  · right
    have htotal : Frame (fun x => x = r ∨ x = a) s.mem role t.mem ρ :=
      (hframe.mono fun _ hx => .inr hx).trans hf
    refine ⟨t, ρ, hok, hmem, ⟨hvm, htop, htotal.shrink ?_, ?_⟩, huser, ?_⟩
    · intro x hx hxr
      left
      have hxa : x = a := hx.resolve_left hxr
      exact ⟨by simp [hxa, hafree, Role.pinned], by rw [hxa, hpin]⟩
    · exact fun va' hva' hne => (hsame va').trans (hremap.same va' hva' hne)
    · intro va' hva' heq
      rw [hremap.pte va' hva', if_pos heq]

end

theorem Vm.loose_zero (h : Vm L s role) : (role 0).loose = true := by
  cases hr : role 0 with
  | free | other => rfl
  | held | top _ | table _ _ _ | leaf _ _ | frame | shared =>
    have hp := (h.page 0 (by simp [hr]) (by simp [hr])).pos
    omega

theorem Vm.storeEntry (h : Vm L s role) (hr : role r = .top 2) (hva : va < 2 ^ 39)
    (hloc : lookup s.mem va 2 r = some (b, i)) (hw : Wired (s.store b i w).mem role) :
    Edit L s role (s.store b i w) role r (fun va' => va' / PGSIZE = va / PGSIZE) ∧
    ∀ va', va' < 2 ^ 39 → va' / PGSIZE = va / PGSIZE →
      leafPte (s.store b i w).mem 2 r va' = if hasFlag w PTE_V then some w else none := by
  have hb := h.wired.lookup_level (by rw [hr, Role.level_top]) hloc
  have hb0 : b ≠ 0 := by
    intro hb0
    rw [hb0, Role.level_of_loose h.loose_zero] at hb
    simp at hb
  -- nobody uses page 0, which stands for the page that changes with the entry
  have hframe := h.wired.frame_entry (s.store b i w).mem hr hloc (.inl h.loose_zero)
    (fun _ _ => rfl) fun _ _ => rfl
  have hremap := h.wired.remap (s.store b i w).mem hr hloc hva (.inl h.loose_zero)
    (fun _ _ => rfl) fun _ _ => rfl
  refine ⟨⟨⟨?_, h.page, hw⟩, hr, hframe.shrink ?_, hremap.same⟩, ?_⟩
  · exact h.store_alloc (by simp [hb]) (fun _ => Iff.rfl) _ _
  · intro x hx hxr
    have hx0 : x = 0 := hx.resolve_left hxr
    refine .inr ⟨rfl, setEntry_of_ne (hx0 ▸ hb0.symm) _ _, ?_⟩
    rw [hx0, Role.level_of_loose h.loose_zero]
  · intro va' hva' heq
    rw [hremap.pte va' hva', if_pos heq]

theorem Vm.mapForeign (h : Vm L s role) (hr : role r = .top 2) (hva : va < MAXVA)
    (hal : va % PGSIZE = 0) (hfree : leafPte s.mem 2 r va = none) (pa : Nat) (perm : Pte) :
    ∃ t role', (∀ x, role x ≠ .free → role' x = role x) ∧
      ((mappages r va PGSIZE pa perm s = .ok (-1, t) ∧ Edit L s role t role' r fun _ => False) ∨
       (mappages r va PGSIZE pa perm s = .ok (0, t) ∧
        Edit L s role t role' r (fun va' => va' / PGSIZE = va / PGSIZE) ∧
        ∀ va', va' < 2 ^ 39 → va' / PGSIZE = va / PGSIZE →
          leafPte t.mem 2 r va' = some (PA2PTE pa ||| perm ||| PTE_V))) := by
  obtain ⟨u, ρ, hwalk, hr', hres⟩ := h.walk_unmapped hr hva hfree
  rcases hres with hnone | ⟨b, i, hok, hloc, hb, hinvalid⟩
  · exact ⟨u, ρ, hwalk.role_eq, .inl ⟨mappages_of_none hal hnone, hwalk.edit hr _⟩⟩
  have hwired : Wired (u.store b i (PA2PTE pa ||| perm ||| PTE_V)).mem ρ := by
    apply hwalk.vm.wired.setForeign hb
    intro x hx
    exact hinvalid (hwalk.vm.wired.back x b i hx).2.1
  obtain ⟨hedit, hpte⟩ := hwalk.vm.storeEntry hr' (lt_39_of_lt_MAXVA hva) hloc hwired
  rw [if_pos (has_V_leaf pa perm)] at hpte
  refine ⟨_, ρ, hwalk.role_eq, .inr ⟨?_, (hwalk.edit hr _).trans hedit, hpte⟩⟩
  rw [mappages_of_some hal hok, if_neg hinvalid]

end Xv6
